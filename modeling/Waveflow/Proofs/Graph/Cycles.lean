import Waveflow.Proofs.Graph.Leading
import Mathlib.Order.Bounds.Defs

/-!
# Cycles and orders

Only edges between nodes that are there bind an order (`Links`).  `Graph.order` is exact about them.  Where no chain of
them closes it gives an order, which takes at every place the smallest number whose inputs have all been taken
(`Sorts`).  Otherwise it names the nodes that can never be taken: they are `Snared`, on a cycle or behind one, and every
node with no cycle above it is taken at some time (`Course.mem_iff_not_snared`).
-/

namespace Waveflow.Graph

open Relation (TransGen ReflTransGen)

variable {g : Graph} {a b id : NodeId} {n : Node} {done order : List NodeId}

/-! ### Edges between nodes that are there -/

/-- An edge leads from the node `a` into the node `b`. -/
def Links (g : Graph) (a b : NodeId) : Prop := a ∈ g.ids ∧ g.Feeds a b

/-- The node lies on a cycle, or a chain of edges leads to it from a node that does. -/
def Snared (g : Graph) (id : NodeId) : Prop := ∃ u, TransGen g.Links u u ∧ ReflTransGen g.Links u id

/-- All numbers are listed once, each after its inputs, and at every place stands the smallest of those that are not yet
listed and have all their inputs listed. -/
structure Sorts (g : Graph) (order : List NodeId) : Prop where
  perm : order.Perm g.ids
  follows : ∀ a b, g.Links a b → order.idxOf a < order.idxOf b
  least : ∀ done id rest, order = done ++ id :: rest →
    IsLeast { k | k ∈ g.ids ∧ k ∉ done ∧ ∀ a, g.Links a k → a ∈ done } id

/-- Edges between nodes are the edges that an order waits for. -/
lemma awaits_eq (h : g.Ordered) : g.Awaits g.contains = g.Links := by
  funext a b
  unfold Awaits Links
  rw [contains_iff h, and_comm]

/-- Every node of a cycle is there, so a graph has a cycle of edges if it has one of edges between its nodes. -/
lemma acyclic_iff (h : g.Ordered) : g.Acyclic ↔ ∀ id, ¬ TransGen g.Links id id := by
  rw [← awaits_eq h]
  constructor
  · exact fun ha id hcycle => ha id (Awaits.transGen_feeds hcycle)
  · exact fun hnone id hcycle => hnone id (transGen_awaits h hcycle (transGen_mem_ids hcycle))

lemma Snared.mem_ids (h : g.Snared id) : id ∈ g.ids := by
  obtain ⟨u, hcycle, hchain⟩ := h
  have hbehind : TransGen g.Links u id := hcycle.trans_left hchain
  cases hbehind with
  | single hlink => exact hlink.2.mem_ids
  | tail _ hlink => exact hlink.2.mem_ids

/-! ### What is taken and what is left -/

/-- **The nodes that are taken before a course is stuck are those that are not snared.** -/
lemma Course.mem_iff_not_snared (h : g.Ordered) (c : g.Course g.contains done) (hs : g.Stuck g.contains done)
    (hid : id ∈ g.ids) : id ∈ done ↔ ¬ g.Snared id := by
  rw [c.mem_iff h hs, awaits_eq h]
  constructor
  · rintro hall ⟨u, hcycle, hchain⟩
    exact (hall u hchain).2 hcycle
  · intro hfree u hchain
    refine ⟨?_, fun hcycle => hfree ⟨u, hcycle, hchain⟩⟩
    rcases hchain.cases_head with rfl | ⟨v, hlink, -⟩
    · exact hid
    · exact hlink.1

lemma released_iff_links (h : g.Ordered) (hn : n ∈ g.nodes) :
    n.Released g.contains done ↔ n.id ∉ done ∧ ∀ a, g.Links a n.id → a ∈ done := by
  refine and_congr_right fun _ => ⟨?_, ?_⟩
  · rintro hall a ⟨ha, m, hm, hid, hedge⟩
    obtain rfl := h.eq_of_id_eq hm hn hid
    exact hall a hedge ((contains_iff h).2 ha)
  · intro hall i hi hcounts
    exact hall i ⟨(contains_iff h).1 hcounts, n, hn, rfl, hi⟩

/-- The first of the numbers that can be taken is the least of them. -/
lemma First.isLeast (h : g.Ordered) (hfirst : g.First g.contains (· < ·) done id) :
    IsLeast { k | k ∈ g.ids ∧ k ∉ done ∧ ∀ a, g.Links a k → a ∈ done } id := by
  obtain ⟨⟨n, hn, rfl, hreleased⟩, hleast⟩ := hfirst
  refine ⟨⟨id_mem_ids hn, (released_iff_links h hn).1 hreleased⟩, ?_⟩
  rintro k ⟨hk, hfree⟩
  obtain ⟨m, hm, rfl⟩ := Graph.mem_ids.1 hk
  by_cases hid : m.id = n.id
  · exact Nat.le_of_eq hid.symm
  · exact Nat.le_of_lt (hleast m hm ((released_iff_links h hm).2 hfree) hid)

lemma sorts_of_order (h : g.Ordered) (ho : g.order = .ok (.ok order)) : g.Sorts order := by
  obtain ⟨order', ho', hcourse, hperm⟩ := order_of_acyclic h (acyclic_of_order h ho)
  obtain rfl : order' = order := Except.ok.inj (Except.ok.inj (ho'.symm.trans ho))
  refine ⟨hperm, ?_, fun done id rest heq => (order_leading h ho done id rest heq).isLeast h⟩
  rintro a b ⟨ha, n, hn, rfl, hedge⟩
  exact (hcourse.idxOf_lt h hn (hperm.mem_iff.2 (id_mem_ids hn)) hedge ((contains_iff h).2 ha)).2

/-- What is left over where there is no order, in ascending order. -/
lemma stuck_of_cyclic (h : g.Ordered) (hcyclic : ¬ g.Acyclic) : ∃ stuck, g.order = .ok (.error stuck) ∧
    stuck.Pairwise (· < ·) ∧ ∀ id, id ∈ stuck ↔ g.Snared id := by
  obtain ⟨done, hcourse, hstuck, hdone⟩ := order_eq h
  split at hdone
  · exact absurd (acyclic_of_order h hdone) hcyclic
  · refine ⟨_, hdone, h.ids_ascend.filter _, fun id => ?_⟩
    rw [List.mem_filter, Bool.not_eq_true', List.contains_eq_mem, decide_eq_false_iff_not]
    constructor
    · rintro ⟨hid, hleft⟩
      rwa [hcourse.mem_iff_not_snared h hstuck hid, not_not] at hleft
    · intro hsnared
      exact ⟨hsnared.mem_ids, fun hmem => (hcourse.mem_iff_not_snared h hstuck hsnared.mem_ids).1 hmem hsnared⟩

/-- **The order of a graph is exact.**  There is one exactly if no chain of edges between nodes closes; then it
lists the nodes once, each after its inputs and always the smallest that can come next.  Otherwise the nodes on a
cycle and behind one are named, in ascending order. -/
theorem order_exact (h : g.Ordered) :
    ((∃ order, g.order = .ok (.ok order)) ↔ ∀ id, ¬ TransGen g.Links id id) ∧
    (∀ order, g.order = .ok (.ok order) → g.Sorts order) ∧
    ((∃ id, TransGen g.Links id id) → ∃ stuck, g.order = .ok (.error stuck) ∧ stuck.Pairwise (· < ·) ∧
      ∀ id, id ∈ stuck ↔ g.Snared id) := by
  refine ⟨?_, fun order ho => sorts_of_order h ho, ?_⟩
  · rw [← acyclic_iff h]
    constructor
    · rintro ⟨order, ho⟩
      exact acyclic_of_order h ho
    · intro ha
      obtain ⟨order, ho, -⟩ := order_of_acyclic h ha
      exact ⟨order, ho⟩
  · rintro ⟨id, hcycle⟩
    exact stuck_of_cyclic h fun ha => (acyclic_iff h).1 ha id hcycle

/-- A cycle of two nodes, one of which has a missing input too, a node that uses that one twice, a node that feeds
itself, and a node apart from all these. -/
def eddy : Graph where
  name := "eddy"
  nodes := [Node.plain 0 .input [] .scalar, Node.plain 1 (.operation .split) [2] .scalar,
    Node.plain 2 (.operation .merge) [1, 9] .scalar, Node.plain 3 (.operation .merge) [2, 2] .scalar,
    Node.plain 4 (.operation .split) [4] .scalar, Node.plain 5 (.operation .merge) [0, 9] .scalar]
  inputs := [0]
  outputs := []
  hints := Hints.empty
  nextId := 10

/-- Three nodes in a row, the last of them with the smallest number, and a missing input. -/
def outflow : Graph where
  name := "outflow"
  nodes := [Node.plain 0 (.operation .merge) [5, 5] .scalar, Node.plain 4 .input [] .scalar,
    Node.plain 5 (.operation .merge) [4, 9] .scalar]
  inputs := [4]
  outputs := []
  hints := Hints.empty
  nextId := 10

theorem order_exact_eddy : (eddy.Ordered ∧ ∀ id, eddy.Snared id ↔ id = 1 ∨ id = 2 ∨ id = 3 ∨ id = 4) ∧
    outflow.Ordered ∧ outflow.Sorts [4, 5, 0] := by
  have hordered : eddy.Ordered := ordered_iff.2 (by decide)
  have hordered' : outflow.Ordered := ordered_iff.2 (by decide)
  have hself : eddy.Links 4 4 :=
    ⟨by decide, Node.plain 4 (.operation .split) [4] .scalar, by simp [eddy], rfl, by decide⟩
  obtain ⟨stuck, horder, -, hsnared⟩ := (order_exact hordered).2.2 ⟨4, .single hself⟩
  have hrun : eddy.order = .ok (.error [1, 2, 3, 4]) := by rfl
  obtain rfl := Except.error.inj (Except.ok.inj (hrun.symm.trans horder))
  refine ⟨⟨hordered, fun id => ?_⟩, hordered', (order_exact hordered').2.1 _ (by rfl)⟩
  rw [← hsnared]
  simp

end Waveflow.Graph
