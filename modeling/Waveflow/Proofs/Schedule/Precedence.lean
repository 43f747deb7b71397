import Waveflow.Schedule.Greedy
import Mathlib.Data.List.Perm.Basic
import Mathlib.Tactic.Lemma

/-!
# The order of precedence

Budgets are ordered by a rank in the natural numbers, so the order of precedence among slots is the
order on pairs of a rank and a number: slots of different numbers are comparable, and putting slots
into their places one after the other sorts them.
-/

namespace Waveflow

/-! ### Budgets by rank -/

lemma Double.rank_lt (d : Double) : d.rank < longLimit := by
  have hbits : d.bits.toNat < 2 ^ 64 := d.bits.toNat_lt
  unfold rank longLimit
  dsimp only
  split <;> omega

/-- The place of a budget among all budgets. -/
def Budget.rank : Budget → Nat
  | .bounded amount => amount.rank
  | .unbounded => longLimit

/-- Budgets are compared by their ranks. -/
theorem Budget.compare_eq (a b : Budget) : a.compare b = Ord.compare a.rank b.rank := by
  cases a with
  | bounded x =>
    cases b with
    | bounded y => rfl
    | unbounded => exact (Nat.compare_eq_lt.2 (Double.rank_lt x)).symm
  | unbounded =>
    cases b with
    | bounded y => exact (Nat.compare_eq_gt.2 (Double.rank_lt y)).symm
    | unbounded => exact (Nat.compare_eq_eq.2 rfl).symm

-- what is not a number comes first with the sign bit, and last of the limits without it
example : (Budget.bounded ⟨0xfff8000000000000⟩).compare (.bounded 0.0) = .lt ∧
    (Budget.bounded ⟨0x7ff8000000000000⟩).compare (.bounded 0.0) = .gt := by decide

namespace Greedy

variable {s t u : Slot} {ts : List Slot}

theorem precedes_iff : precedes s t = true ↔
    s.budget.rank < t.budget.rank ∨ s.budget.rank = t.budget.rank ∧ s.id < t.id := by
  unfold precedes
  rw [Budget.compare_eq]
  rcases Nat.lt_trichotomy s.budget.rank t.budget.rank with h | h | h
  · rw [Nat.compare_eq_lt.2 h]
    simp [h]
  · rw [Nat.compare_eq_eq.2 h]
    simp [h]
  · rw [Nat.compare_eq_gt.2 h]
    simp only [Bool.false_eq_true, false_iff]
    omega

lemma precedes_trans (hst : precedes s t = true) (htu : precedes t u = true) : precedes s u = true := by
  rw [precedes_iff] at hst htu ⊢
  rcases hst with hst | ⟨hst, hid⟩ <;> rcases htu with htu | ⟨htu, hid'⟩
  · exact .inl (Nat.lt_trans hst htu)
  · exact .inl (htu ▸ hst)
  · exact .inl (hst ▸ htu)
  · exact .inr ⟨hst.trans htu, Nat.lt_trans hid hid'⟩

/-- Of two slots of different numbers one precedes the other. -/
lemma precedes_of_not_precedes (hne : s.id ≠ t.id) (h : ¬ precedes t s = true) : precedes s t = true := by
  rw [precedes_iff] at h ⊢
  rcases Nat.lt_trichotomy s.budget.rank t.budget.rank with hlt | heq | hgt
  · exact .inl hlt
  · refine .inr ⟨heq, Nat.lt_of_le_of_ne ?_ hne⟩
    exact Nat.le_of_not_lt fun hlt => h (.inr ⟨heq.symm, hlt⟩)
  · exact absurd (.inl hgt) h

/-! ### The first slot -/

lemma first?_mem {ss : List Slot} (h : first? ss = some s) : s ∈ ss := by
  induction ss generalizing s with
  | nil => simp [first?] at h
  | cons t rest ih =>
    rw [first?] at h
    split at h
    · simp_all
    · next u hu =>
      have hmem := ih hu
      split at h <;> simp_all

lemma first?_eq_none {ss : List Slot} (h : first? ss = none) : ss = [] := by
  cases ss with
  | nil => rfl
  | cons t rest =>
    rw [first?] at h
    split at h
    · simp at h
    · split at h <;> simp at h

/-! ### Sorting -/

lemma insertSlot_perm (s : Slot) (ts : List Slot) : (insertSlot s ts).Perm (s :: ts) := by
  induction ts with
  | nil => exact List.Perm.refl _
  | cons t rest ih =>
    rw [insertSlot]
    split
    · exact (ih.cons t).trans (List.Perm.swap s t rest)
    · exact List.Perm.refl _

lemma foldr_insertSlot_perm (ss : List Slot) : (ss.foldr insertSlot []).Perm ss := by
  induction ss with
  | nil => exact List.Perm.refl _
  | cons s rest ih => exact (insertSlot_perm s _).trans (ih.cons s)

lemma insertSlot_pairwise (h : ts.Pairwise (fun a b => precedes a b = true)) (hne : ∀ t ∈ ts, s.id ≠ t.id) :
    (insertSlot s ts).Pairwise (fun a b => precedes a b = true) := by
  induction ts with
  | nil => simp [insertSlot]
  | cons t rest ih =>
    obtain ⟨ht, hrest⟩ := List.pairwise_cons.1 h
    rw [insertSlot]
    split
    · next hts =>
      refine List.pairwise_cons.2 ⟨?_, ih hrest fun x hx => hne x (List.mem_cons_of_mem _ hx)⟩
      intro x hx
      rcases List.mem_cons.1 ((insertSlot_perm s rest).mem_iff.1 hx) with rfl | hx
      · exact hts
      · exact ht x hx
    · next hts =>
      have hst : precedes s t = true := precedes_of_not_precedes (hne t (List.mem_cons_self ..)) hts
      refine List.pairwise_cons.2 ⟨?_, h⟩
      intro x hx
      rcases List.mem_cons.1 hx with rfl | hx
      · exact hst
      · exact precedes_trans hst (ht x hx)

/-- Slots of different numbers, put into their places one after the other, are sorted. -/
theorem foldr_insertSlot_pairwise {ss : List Slot} (h : (ss.map (·.id)).Nodup) :
    (ss.foldr insertSlot []).Pairwise (fun a b => precedes a b = true) := by
  induction ss with
  | nil => exact List.Pairwise.nil
  | cons s rest ih =>
    rw [List.map_cons, List.nodup_cons] at h
    refine insertSlot_pairwise (ih h.2) fun t ht hid => h.1 ?_
    rw [hid]
    exact List.mem_map_of_mem ((foldr_insertSlot_perm rest).mem_iff.1 ht)

/-! ### The first group -/

lemma firstGroup?_eq_none {slots : List Slot} {groups : List ParallelGroup} (h : firstGroup? slots groups = none) :
    groups = [] := by
  cases groups with
  | nil => rfl
  | cons first rest => cases h

lemma firstGroup?_mem {slots : List Slot} {groups : List ParallelGroup} {group : ParallelGroup}
    (h : firstGroup? slots groups = some group) : group ∈ groups := by
  cases groups with
  | nil => simp [firstGroup?] at h
  | cons first rest =>
    have hfold : ∀ (xs : List ParallelGroup) (best : ParallelGroup),
        xs.foldl (fun best next => if groupPrecedes slots next best then next else best) best ∈ best :: xs := by
      intro xs
      induction xs with
      | nil => simp
      | cons x xs ih =>
        intro best
        rw [List.foldl_cons]
        split
        · exact List.mem_cons_of_mem _ (ih x)
        · rcases List.mem_cons.1 (ih best) with hb | hb
          · rw [hb]
            exact List.mem_cons_self ..
          · exact List.mem_cons_of_mem _ (List.mem_cons_of_mem _ hb)
    rw [firstGroup?, Option.some.injEq] at h
    exact h ▸ hfold rest first

end Greedy

end Waveflow
