import Waveflow.Graph.Hints
import Mathlib.Data.List.Basic
import Mathlib.Tactic.Lemma

/-!
# Groups of hints

The groups of hints come from adding lists of members.  Such a group has its members in ascending order,
each once.
-/

namespace Waveflow

/-- Adding members to some hints makes this group. -/
def ParallelGroup.Made (grp : ParallelGroup) : Prop := ∃ (hints : Hints) (members : List NodeId),
  hints.group? members = some grp

lemma insertAscending_mem {k j : Nat} {ks : List Nat} (h : j ∈ insertAscending k ks) : j = k ∨ j ∈ ks := by
  induction ks with
  | nil => exact .inl (by simpa [insertAscending] using h)
  | cons m rest ih =>
    rw [insertAscending] at h
    split at h
    · simpa using h
    · split at h
      · exact .inr h
      · rcases List.mem_cons.1 h with rfl | h
        · exact .inr (List.mem_cons_self ..)
        · exact (ih h).imp_right (List.mem_cons_of_mem _)

lemma insertAscending_pairwise {k : Nat} {ks : List Nat} (h : ks.Pairwise (· < ·)) :
    (insertAscending k ks).Pairwise (· < ·) := by
  induction ks with
  | nil => simp [insertAscending]
  | cons m rest ih =>
    obtain ⟨hm, hrest⟩ := List.pairwise_cons.1 h
    rw [insertAscending]
    split
    · next hkm =>
      refine List.pairwise_cons.2 ⟨fun j hj => ?_, h⟩
      rcases List.mem_cons.1 hj with rfl | hj
      · exact hkm
      · exact Nat.lt_trans hkm (hm j hj)
    · split
      · exact h
      · refine List.pairwise_cons.2 ⟨fun j hj => ?_, ih hrest⟩
        rcases insertAscending_mem hj with rfl | hj
        · omega
        · exact hm j hj

lemma ascending_pairwise (ks : List Nat) : (ascending ks).Pairwise (· < ·) := by
  unfold ascending
  induction ks with
  | nil => exact List.Pairwise.nil
  | cons k rest ih => exact insertAscending_pairwise ih

lemma mem_ascending {j : Nat} {ks : List Nat} : j ∈ ascending ks ↔ j ∈ ks := by
  unfold ascending
  induction ks with
  | nil => rfl
  | cons k rest ih =>
    rw [List.foldr_cons, List.mem_cons, ← ih]
    refine ⟨insertAscending_mem, fun h => ?_⟩
    generalize List.foldr insertAscending [] rest = ms at h
    induction ms with
    | nil => simpa [insertAscending] using h
    | cons m ms ihm =>
      rw [insertAscending]
      split
      · simpa using h
      split
      · next heq => simpa [heq] using h
      · rw [List.mem_cons] at h ⊢
        rcases h with h | rfl | h
        · exact .inr (ihm (.inl h))
        · exact .inl rfl
        · exact .inr (ihm (.inr h))

/-- What groups are added from some lists: those with at least two different numbers. -/
lemma Hints.addAll_members (hints : Hints) (lists : List (List NodeId)) :
    (hints.addAll lists).2.groups.map (·.members) =
      hints.groups.map (·.members) ++ (lists.map ascending).filter (fun ms => 2 ≤ ms.length) := by
  induction lists generalizing hints with
  | nil => simp [Hints.addAll]
  | cons members rest ih =>
    rw [Hints.addAll]
    dsimp only
    rw [ih, List.map_cons, List.filter_cons]
    unfold Hints.add Hints.group?
    dsimp only
    by_cases hlen : (ascending members).length < 2
    · rw [if_pos hlen, if_neg (by rw [decide_eq_true_iff]; omega)]
    · rw [if_neg hlen, if_pos (by rw [decide_eq_true_iff]; omega)]
      simp

/-- All groups that were added one after the other were made so. -/
lemma Hints.addAll_made (lists : List (List NodeId)) {hints : Hints} (h : ∀ grp ∈ hints.groups, grp.Made) :
    ∀ grp ∈ (hints.addAll lists).2.groups, grp.Made := by
  induction lists generalizing hints with
  | nil => exact h
  | cons members rest ih =>
    rw [Hints.addAll]
    refine ih fun grp hgrp => ?_
    unfold Hints.add at hgrp
    split at hgrp
    · exact h grp hgrp
    · next added hadded =>
      rcases List.mem_append.1 hgrp with hgrp | hgrp
      · exact h grp hgrp
      · rw [List.mem_singleton.1 hgrp]
        exact ⟨hints, members, hadded⟩

end Waveflow
