import Waveflow.Proofs.Schedule.Verify

/-!
# Schedules that the check accepts

`Schedule.Valid` says on places what a schedule of a graph has to be, whoever made it: every node stands in it once and
nothing else does, inputs stand before their consumers, and groups stand together.  Which inputs count is left open.
The check lets the inputs count that are nodes (`Schedule.verify_valid`).  An input that is missing has no place at all,
and the check takes it for one that stands before everything: it accepts a schedule of a graph with such an edge
(`Schedule.verify_inlet`), though no schedule of that graph is valid where all inputs count.
-/

namespace Waveflow

variable {g : Graph} {s : Schedule} {a b : NodeId} {counts : NodeId → Bool}

namespace Schedule

/-- One number stands at an earlier place than another. -/
def Earlier (s : Schedule) (a b : NodeId) : Prop :=
  ∃ (i j : Nat), s.order[i]? = some a ∧ s.order[j]? = some b ∧ i < j

/-- The schedule is one of the graph, where the inputs that count have to come first. -/
structure Valid (s : Schedule) (g : Graph) (counts : NodeId → Bool) : Prop where
  /-- Every node stands in the schedule once. -/
  once : ∀ id ∈ g.ids, s.order.count id = 1
  /-- Nothing else stands in it. -/
  nodes : s.order ⊆ g.ids
  /-- An input that counts stands at an earlier place than its consumer. -/
  after_inputs : ∀ n ∈ g.nodes, ∀ i ∈ n.inputs, counts i = true → s.Earlier i n.id
  /-- The members of a group, none of them twice, fill consecutive places. -/
  groups : ∀ grp ∈ s.groups, s.Gathers grp

/-! ### Places -/

lemma Earlier.mem_left (hab : s.Earlier a b) : a ∈ s.order := by
  obtain ⟨i, -, hi, -⟩ := hab
  exact List.mem_of_getElem? hi

lemma earlier_iff (hnodup : s.order.Nodup) (ha : a ∈ s.order) (hb : b ∈ s.order) :
    s.Earlier a b ↔ s.order.idxOf a < s.order.idxOf b := by
  constructor
  · rintro ⟨i, j, hi, hj, hlt⟩
    obtain ⟨hi, rfl⟩ := List.getElem?_eq_some_iff.1 hi
    obtain ⟨hj, rfl⟩ := List.getElem?_eq_some_iff.1 hj
    rwa [hnodup.idxOf_getElem, hnodup.idxOf_getElem]
  · exact fun hlt => ⟨_, _, List.getElem?_idxOf ha, List.getElem?_idxOf hb, hlt⟩

lemma perm_ids_iff (h : g.Ordered) :
    s.order.Perm g.ids ↔ (∀ id ∈ g.ids, s.order.count id = 1) ∧ s.order ⊆ g.ids := by
  constructor
  · intro hperm
    have hnodup : s.order.Nodup := hperm.nodup_iff.2 h.ids_nodup
    exact ⟨fun id hid => List.count_eq_one_of_mem hnodup (hperm.mem_iff.2 hid), hperm.subset⟩
  · rintro ⟨honce, hsub⟩
    rw [List.perm_iff_count]
    intro id
    by_cases hid : id ∈ g.ids
    · rw [honce id hid, List.count_eq_one_of_mem h.ids_nodup hid]
    · rw [List.count_eq_zero_of_not_mem hid, List.count_eq_zero_of_not_mem fun hmem => hid (hsub hmem)]

/-! ### The check -/

/-- Where all inputs count, a schedule is valid if the inputs that are nodes come first and no input is missing. -/
lemma valid_all_iff (h : g.Ordered) : s.Valid g (fun _ => true) ↔ s.Valid g g.contains ∧ g.Closed := by
  constructor
  · intro hvalid
    refine ⟨⟨hvalid.once, hvalid.nodes, fun n hn i hi _ => hvalid.after_inputs n hn i hi rfl, hvalid.groups⟩,
      ?_⟩
    intro n hn i hi
    exact hvalid.nodes (hvalid.after_inputs n hn i hi rfl).mem_left
  · rintro ⟨hvalid, hclosed⟩
    refine ⟨hvalid.once, hvalid.nodes, fun n hn i hi _ => ?_, hvalid.groups⟩
    exact hvalid.after_inputs n hn i hi ((Graph.contains_iff h).2 (hclosed n hn i hi))

lemma verify_eq_ok_iff_valid (h : g.Ordered) : s.verify g = .ok () ↔ s.Valid g g.contains := by
  rw [verify_eq_ok_iff h]
  constructor
  · rintro ⟨hperm, hedges, hgroups⟩
    obtain ⟨honce, hnodes⟩ := (perm_ids_iff h).1 hperm
    refine ⟨honce, hnodes, fun n hn i hi hcounts => ?_, hgroups⟩
    have hid : i ∈ g.ids := (Graph.contains_iff h).1 hcounts
    rw [earlier_iff (hperm.nodup_iff.2 h.ids_nodup) (hperm.mem_iff.2 hid) (hperm.mem_iff.2 (Graph.id_mem_ids hn))]
    exact hedges n hn i hi hid
  · intro hvalid
    have hperm := (perm_ids_iff h).2 ⟨hvalid.once, hvalid.nodes⟩
    refine ⟨hperm, fun n hn i hi hid => ?_, hvalid.groups⟩
    rw [← earlier_iff (hperm.nodup_iff.2 h.ids_nodup) (hperm.mem_iff.2 hid) (hperm.mem_iff.2 (Graph.id_mem_ids hn))]
    exact hvalid.after_inputs n hn i hi ((Graph.contains_iff h).2 hid)

/-- **The check accepts the schedules that are valid where the inputs that are nodes count.**  Where all inputs count,
the valid schedules are those that it accepts of graphs in which no edge dangles, so it tells valid schedules from
others exactly on such graphs. -/
theorem verify_valid (h : g.Ordered) :
    (s.verify g = .ok () ↔ s.Valid g g.contains) ∧
    (s.Valid g (fun _ => true) ↔ s.verify g = .ok () ∧ g.dangling = []) := by
  refine ⟨verify_eq_ok_iff_valid h, ?_⟩
  rw [valid_all_iff h, verify_eq_ok_iff_valid h, Graph.dangling_eq_nil_iff h]

/-- Two nodes on one input, which one of them combines with a node that is missing. -/
def inlet : Graph where
  name := "inlet"
  nodes := [Node.plain 0 .input [] .scalar, Node.plain 1 (.operation .split) [0] .scalar,
    Node.plain 2 (.operation .merge) [0, 7] .scalar]
  inputs := [0]
  outputs := []
  hints := Hints.empty
  nextId := 8

/-- The nodes with the two operations side by side. -/
def inletRun : Schedule where
  steps := [⟨0, none⟩, ⟨2, some 0⟩, ⟨1, some 0⟩]
  groups := [⟨0, [1, 2]⟩]

theorem verify_valid_inlet : inlet.Ordered ∧ inletRun.Valid inlet inlet.contains := by
  have hordered : inlet.Ordered := Graph.ordered_iff.2 (by decide)
  exact ⟨hordered, (verify_valid hordered).1.1 (by rfl)⟩

/-- A schedule is accepted that has an input at no place before its consumer. -/
theorem verify_inlet : inlet.Ordered ∧ inletRun.verify inlet = .ok () ∧
    ¬ inletRun.Valid inlet (fun _ => true) := by
  refine ⟨Graph.ordered_iff.2 (by decide), by rfl, fun hvalid => ?_⟩
  have hmerge : Node.plain 2 (.operation .merge) [0, 7] .scalar ∈ inlet.nodes := by simp [inlet]
  have hmissing : 7 ∈ inletRun.order := (hvalid.after_inputs _ hmerge 7 (by decide) rfl).mem_left
  exact absurd hmissing (by decide)

end Schedule

end Waveflow
