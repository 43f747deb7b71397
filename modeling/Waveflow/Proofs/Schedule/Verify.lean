import Waveflow.Schedule.Basic
import Waveflow.Proofs.Schedule.Greedy

/-!
# Schedules that fit

`Schedule.Fits` says what a schedule of a graph has to be: every node once and after its inputs, groups
of the hints kept together, and every step marked with its group.  `Schedule.verify` goes through the
schedule in four checks.  Each is read as a statement about places, and together they are what
`Schedule.verify_eq_ok_iff` says; a schedule that fits passes them (`Fits.verify_eq`).
-/

namespace Waveflow

variable {g : Graph} {s : Schedule} {id : NodeId} {n : Node} {grp : ParallelGroup}

/-! ### Sorted numbers -/

lemma insertSorted_perm (k : Nat) (ks : List Nat) : (insertSorted k ks).Perm (k :: ks) := by
  induction ks with
  | nil => exact List.Perm.refl _
  | cons j rest ih =>
    rw [insertSorted]
    split
    · exact List.Perm.refl _
    · exact (ih.cons j).trans (List.Perm.swap k j rest)

lemma sorted_perm (ks : List Nat) : (sorted ks).Perm ks := by
  unfold sorted
  induction ks with
  | nil => exact List.Perm.refl _
  | cons k rest ih => exact (insertSorted_perm k _).trans (ih.cons k)

lemma insertSorted_pairwise {k : Nat} {ks : List Nat} (h : ks.Pairwise (· ≤ ·)) :
    (insertSorted k ks).Pairwise (· ≤ ·) := by
  induction ks with
  | nil => simp [insertSorted]
  | cons j rest ih =>
    obtain ⟨hj, hrest⟩ := List.pairwise_cons.1 h
    rw [insertSorted]
    split
    · next hkj =>
      refine List.pairwise_cons.2 ⟨fun x hx => ?_, h⟩
      rcases List.mem_cons.1 hx with rfl | hx
      · exact hkj
      · exact Nat.le_trans hkj (hj x hx)
    · next hkj =>
      refine List.pairwise_cons.2 ⟨fun x hx => ?_, ih hrest⟩
      rcases List.mem_cons.1 ((insertSorted_perm k rest).mem_iff.1 hx) with rfl | hx
      · omega
      · exact hj x hx

lemma sorted_pairwise (ks : List Nat) : (sorted ks).Pairwise (· ≤ ·) := by
  unfold sorted
  induction ks with
  | nil => exact List.Pairwise.nil
  | cons k rest ih => exact insertSorted_pairwise ih

lemma consecutive_range' (start len : Nat) : consecutive (List.range' start len) = true := by
  induction len generalizing start with
  | zero => rfl
  | succ len ih =>
    cases len with
    | zero => rfl
    | succ len =>
      have hrest := ih (start + 1)
      simp only [List.range'_succ] at hrest ⊢
      simp [consecutive, hrest]

lemma eq_range'_of_consecutive {ks : List Nat} (h : consecutive ks = true) :
    ∃ start, ks = List.range' start ks.length := by
  induction ks with
  | nil => exact ⟨0, rfl⟩
  | cons k rest ih =>
    refine ⟨k, ?_⟩
    cases rest with
    | nil => rfl
    | cons j rest =>
      rw [consecutive, Bool.and_eq_true, beq_iff_eq] at h
      obtain ⟨start, hrest⟩ := ih h.2
      have hstart : start = k + 1 := by
        rw [List.length_cons, List.range'_succ, List.cons.injEq] at hrest
        exact hrest.1.symm.trans h.1
      rw [hstart] at hrest
      rw [List.length_cons, List.range'_succ, ← hrest]

/-- Numbers that fill a range are consecutive once they are sorted. -/
lemma consecutive_sorted {ks : List Nat} {start len : Nat} (h : ks.Perm (List.range' start len)) :
    consecutive (sorted ks) = true := by
  have heq : sorted ks = List.range' start len := by
    refine ((sorted_perm ks).trans h).eq_of_pairwise (fun a b _ _ => Nat.le_antisymm) (sorted_pairwise ks) ?_
    exact List.pairwise_le_range'
  rw [heq, consecutive_range']

namespace Schedule

/-! ### What fits -/

/-- The schedule is one of the graph. -/
structure Fits (s : Schedule) (g : Graph) : Prop where
  /-- Every node stands in the schedule once. -/
  once : s.order.Perm g.ids
  /-- Every node stands after its inputs. -/
  after_inputs : ∀ n ∈ g.nodes, ∀ i ∈ n.inputs, i ∈ s.order ∧ s.order.idxOf i < s.order.idxOf n.id
  /-- The groups are among the hints, and their members follow each other in order of precedence. -/
  groups : ∀ grp ∈ s.groups, grp ∈ g.hints.groups ∧ g.Together s.steps grp
  /-- A step is marked with a group exactly if its node is a member. -/
  tags : ∀ step ∈ s.steps, ∀ k, step.group = some k ↔
      ∃ grp ∈ s.groups, grp.id = k ∧ step.node ∈ grp.members

/-- The members of a group, none of them twice, fill consecutive places of the schedule. -/
def Gathers (s : Schedule) (grp : ParallelGroup) : Prop :=
  grp.members.Nodup ∧ ∃ before run after, s.order = before ++ run ++ after ∧ run.Perm grp.members

lemma gathers_of_together (hnodup : s.order.Nodup) (h : g.Together s.steps grp) : s.Gathers grp := by
  obtain ⟨before, run, after, hsteps, hperm, -⟩ := h
  have horder : s.order = before.map (·.node) ++ run ++ after.map (·.node) := by
    unfold order
    rw [hsteps]
    simp [Function.comp_def]
  rw [horder] at hnodup
  exact ⟨hperm.nodup_iff.1 hnodup.of_append_left.of_append_right, _, run, _, horder, hperm⟩

/-! ### Places -/

lemma position?_eq (hmem : id ∈ s.order) : s.position? id = some (s.order.idxOf id) := by
  unfold order at hmem ⊢
  unfold position?
  obtain ⟨step, hstep, rfl⟩ := List.mem_map.1 hmem
  have hidx := List.findIdx?_eq_some_of_exists (p := fun x : Step => x.node == step.node) ⟨step, hstep, by simp⟩
  rw [hidx, List.idxOf, List.findIdx_map]
  rfl

lemma position?_eq_none (hmem : id ∉ s.order) : s.position? id = none := by
  unfold position?
  rw [List.findIdx?_eq_none_iff]
  intro step hstep
  exact beq_false_of_ne fun heq => hmem (heq ▸ List.mem_map_of_mem hstep)

lemma mem_order_of_isSome (h : (s.position? id).isSome) : id ∈ s.order := by
  by_contra hmem
  rw [position?_eq_none hmem] at h
  cases h

lemma filterMap_position? {ids : List NodeId} (h : ids ⊆ s.order) :
    ids.filterMap s.position? = ids.map s.order.idxOf := by
  rw [← List.filterMap_eq_map]
  exact List.filterMap_congr fun id hid => position?_eq (h hid)

/-- The places of a run are those right after what stands before it. -/
lemma map_idxOf_run {before run after : List NodeId} (hnodup : s.order.Nodup)
    (horder : s.order = before ++ run ++ after) :
    run.map s.order.idxOf = List.range' before.length run.length := by
  refine List.ext_getElem (by simp) fun k hk hk' => ?_
  have hlt : k < run.length := by simpa using hk
  have hget : s.order[before.length + k]? = some run[k] := by
    rw [horder, List.append_assoc, List.getElem?_append_right (by simp)]
    simp [List.getElem?_append_left hlt]
  obtain ⟨hb, hval⟩ := List.getElem?_eq_some_iff.1 hget
  rw [List.getElem_map, List.getElem_range', Nat.one_mul, ← hval]
  exact hnodup.idxOf_getElem _ hb

/-! ### The checks -/

lemma stepMisfit?_eq_none_iff {before ids : List NodeId} : stepMisfit? g before ids = none ↔
    (∀ id ∈ ids, g.contains id = true) ∧ ids.Nodup ∧ ∀ id ∈ ids, id ∉ before := by
  induction ids generalizing before with
  | nil => simp [stepMisfit?]
  | cons id rest ih =>
    rw [stepMisfit?, List.forall_mem_cons, List.nodup_cons, List.forall_mem_cons]
    by_cases hin : g.contains id = true
    · by_cases hbefore : id ∈ before
      · simp [hin, hbefore]
      · have hnew : (∀ x ∈ rest, x ∉ id :: before) ↔ id ∉ rest ∧ ∀ x ∈ rest, x ∉ before := by
          simp only [List.mem_cons, not_or, forall_and]
          exact and_congr_left' ⟨fun hne hmem => hne id hmem rfl, fun hnot x hx heq => hnot (heq ▸ hx)⟩
        rw [if_neg (by simp [hin]), if_neg (by simpa using hbefore), ih, hnew]
        tauto
    · simp [hin]

/-- With every node in the schedule, an edge is refused if its input stands at a later place than its consumer, or at
the same; an input without a place is not. -/
lemma edgeMisfit?_eq_none_iff (hall : ∀ n ∈ g.nodes, n.id ∈ s.order) : s.edgeMisfit? g = none ↔
    ∀ n ∈ g.nodes, ∀ i ∈ n.inputs, i ∈ s.order → s.order.idxOf i < s.order.idxOf n.id := by
  unfold edgeMisfit?
  rw [List.findSome?_eq_none_iff]
  refine forall₂_congr fun n hn => ?_
  rw [Option.map_eq_none_iff, List.find?_eq_none]
  refine forall₂_congr fun i _ => ?_
  rw [position?_eq (hall n hn)]
  by_cases hi : i ∈ s.order
  · rw [position?_eq hi]
    simp [hi]
  · rw [position?_eq_none hi]
    simp [hi]

/-- A group passes if its members fill consecutive places: a member that is missing leaves too few places, and one that
is named twice a place that does not follow. -/
lemma keepsTogether_iff (hnodup : s.order.Nodup) : s.keepsTogether grp = true ↔ s.Gathers grp := by
  unfold keepsTogether
  dsimp only
  rw [Bool.and_eq_true, beq_iff_eq, List.filterMap_length_eq_length]
  constructor
  · rintro ⟨hplaced, hconsecutive⟩
    have hsub : grp.members ⊆ s.order := fun m hm => mem_order_of_isSome (hplaced m hm)
    rw [filterMap_position? hsub] at hconsecutive
    obtain ⟨start, hrange⟩ := eq_range'_of_consecutive hconsecutive
    have hplaces := hrange ▸ (sorted_perm (grp.members.map s.order.idxOf)).symm
    have hmembers : grp.members.Nodup := (hplaces.nodup_iff.2 List.nodup_range').of_map
    have hlength : (sorted (grp.members.map s.order.idxOf)).length = grp.members.length := by
      rw [(sorted_perm _).length_eq, List.length_map]
    rw [hlength] at hplaces
    refine ⟨hmembers, s.order.take start, (s.order.drop start).take grp.members.length,
      (s.order.drop start).drop grp.members.length, by simp, ?_⟩
    -- all members stand in the run, which has no more places than there are members
    refine (List.Subperm.perm_of_length_le ?_ (List.length_take_le ..)).symm
    refine List.subperm_of_subset hmembers fun m hm => ?_
    have hplace := List.mem_range'_1.1 (hplaces.mem_iff.1 (List.mem_map_of_mem hm))
    refine List.mem_of_getElem? (i := s.order.idxOf m - start) ?_
    rw [List.getElem?_take_of_lt (by omega), List.getElem?_drop, Nat.add_sub_cancel' hplace.1]
    exact List.getElem?_idxOf (hsub hm)
  · rintro ⟨-, before, run, after, horder, hperm⟩
    have hsub : grp.members ⊆ s.order := by
      intro m hm
      rw [horder]
      exact List.mem_append_left _ (List.mem_append_right _ (hperm.mem_iff.2 hm))
    refine ⟨fun m hm => by rw [position?_eq (hsub hm)]; rfl, ?_⟩
    rw [filterMap_position? hsub]
    exact consecutive_sorted ((hperm.map _).symm.trans (List.Perm.of_eq (map_idxOf_run hnodup horder)))

lemma misfit?_eq_none_iff : s.misfit? g = none ↔ stepMisfit? g [] s.order = none ∧
    (∀ n ∈ g.nodes, n.id ∈ s.order) ∧ s.edgeMisfit? g = none ∧
      ∀ grp ∈ s.groups, s.keepsTogether grp = true := by
  have hall : (g.nodes.find? fun n => !s.order.contains n.id).map (fun n => Misfit.missing n.id) = none ↔
      ∀ n ∈ g.nodes, n.id ∈ s.order := by
    rw [Option.map_eq_none_iff, List.find?_eq_none]
    simp
  have hgroups : (s.groups.find? fun grp => !s.keepsTogether grp).map (fun grp => Misfit.brokenGroup grp.id) = none ↔
      ∀ grp ∈ s.groups, s.keepsTogether grp = true := by
    rw [Option.map_eq_none_iff, List.find?_eq_none]
    simp
  have horElse : ∀ (x : Option Misfit) (y : Unit → Option Misfit), x.orElse y = none ↔
      x = none ∧ y () = none := by
    intro x y
    cases x <;> simp [Option.orElse]
  unfold misfit?
  rw [horElse, horElse, horElse, hall, hgroups]

/-- **What the check accepts.**  Every node stands in the schedule once, every input that is a node stands before its
consumer, and the members of every group fill consecutive places. -/
theorem verify_eq_ok_iff (h : g.Ordered) : s.verify g = .ok () ↔ s.order.Perm g.ids ∧
    (∀ n ∈ g.nodes, ∀ i ∈ n.inputs, i ∈ g.ids → s.order.idxOf i < s.order.idxOf n.id) ∧
    ∀ grp ∈ s.groups, s.Gathers grp := by
  have hverify : s.verify g = .ok () ↔ s.misfit? g = none := by
    unfold verify
    cases s.misfit? g <;> simp
  rw [hverify, misfit?_eq_none_iff, stepMisfit?_eq_none_iff]
  constructor
  · rintro ⟨⟨hin, hnodup, -⟩, hall, hedges, hgroups⟩
    have hperm : s.order.Perm g.ids := by
      refine (List.perm_ext_iff_of_nodup hnodup h.ids_nodup).2 fun id => ⟨fun hid => ?_, fun hid => ?_⟩
      · exact (Graph.contains_iff h).1 (hin id hid)
      · obtain ⟨n, hn, rfl⟩ := Graph.mem_ids.1 hid
        exact hall n hn
    rw [edgeMisfit?_eq_none_iff hall] at hedges
    exact ⟨hperm, fun n hn i hi hid => hedges n hn i hi (hperm.mem_iff.2 hid),
      fun grp hgrp => (keepsTogether_iff hnodup).1 (hgroups grp hgrp)⟩
  · rintro ⟨hperm, hedges, hgroups⟩
    have hnodup : s.order.Nodup := hperm.nodup_iff.2 h.ids_nodup
    have hall : ∀ n ∈ g.nodes, n.id ∈ s.order := fun n hn => hperm.mem_iff.2 (Graph.id_mem_ids hn)
    refine ⟨⟨fun id hid => (Graph.contains_iff h).2 (hperm.mem_iff.1 hid), hnodup, fun _ _ => List.not_mem_nil⟩,
      hall, (edgeMisfit?_eq_none_iff hall).2 fun n hn i hi hid => hedges n hn i hi (hperm.mem_iff.1 hid),
      fun grp hgrp => (keepsTogether_iff hnodup).2 (hgroups grp hgrp)⟩

/-- **A schedule that fits is accepted.** -/
theorem Fits.verify_eq (h : g.Ordered) (fits : s.Fits g) : s.verify g = .ok () :=
  (verify_eq_ok_iff h).2 ⟨fits.once, fun n hn i hi _ => (fits.after_inputs n hn i hi).2,
    fun grp hgrp => gathers_of_together (fits.once.nodup_iff.2 h.ids_nodup) (fits.groups grp hgrp).2⟩

end Schedule

end Waveflow
