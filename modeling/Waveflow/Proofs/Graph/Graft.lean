import Waveflow.Proofs.Graph.Course
import Mathlib.Data.List.Range

/-!
# Grafting and merging

All rewrites of graphs are of two forms.  `graft` changes one node and appends new ones under the next
numbers; `merged` moves the uses of a node to another and drops it.  Both keep a graph well-formed:
ascending numbers below the next one, and no edge from a missing node.
-/

namespace Waveflow.Graph

variable {g : Graph} {id dup keep : NodeId} {m n : Node} {f : Node → Node} {fresh : List Node}

/-- The numbers ascend and are below the next number, and every edge comes from a node. -/
structure WellFormed (g : Graph) : Prop where
  ordered : g.Ordered
  below : ∀ n ∈ g.nodes, n.id < g.nextId
  closed : g.Closed

lemma WellFormed.lt_nextId (h : g.WellFormed) (hid : id ∈ g.ids) : id < g.nextId := by
  obtain ⟨n, hn, rfl⟩ := mem_ids.1 hid
  exact h.below n hn

/-! ### Grafting -/

/-- Change the node of a number and append new nodes. -/
def graft (g : Graph) (id : NodeId) (f : Node → Node) (fresh : List Node) : Graph :=
  { g with
    nodes := g.nodes.map (fun n => if n.id = id then f n else n) ++ fresh
    nextId := g.nextId + fresh.length }

/-- The change keeps the number of the node, the new nodes have the next numbers, and all edges come
from nodes that are there. -/
structure Graftable (g : Graph) (n : Node) (f : Node → Node) (fresh : List Node) : Prop where
  mem : n ∈ g.nodes
  id : (f n).id = n.id
  numbers : fresh.map (·.id) = List.range' g.nextId fresh.length
  changed : ∀ i ∈ (f n).inputs, i ∈ g.ids ∨ i ∈ fresh.map (·.id)
  added : ∀ m ∈ fresh, ∀ i ∈ m.inputs, i ∈ g.ids ∨ i ∈ fresh.map (·.id)

namespace Graftable

lemma nextId_le (h : g.Graftable n f fresh) (hm : m ∈ fresh) : g.nextId ≤ m.id ∧
    m.id < g.nextId + fresh.length := by
  have hmem : m.id ∈ fresh.map (·.id) := List.mem_map_of_mem hm
  rw [h.numbers, List.mem_range'_1] at hmem
  exact hmem

lemma ne_of_mem (h : g.Graftable n f fresh) (hg : g.WellFormed) : ∀ m ∈ fresh, m.id ≠ n.id :=
  fun _ hm => Nat.ne_of_gt (Nat.lt_of_lt_of_le (hg.below n h.mem) (h.nextId_le hm).1)

lemma mem_iff (h : g.Graftable n f fresh) (hg : g.Ordered) :
    m ∈ (g.graft n.id f fresh).nodes ↔ m ∈ g.nodes ∧ m.id ≠ n.id ∨ m = f n ∨ m ∈ fresh := by
  unfold graft
  rw [List.mem_append, List.mem_map, ← or_assoc]
  refine or_congr_left ?_
  constructor
  · rintro ⟨x, hx, rfl⟩
    by_cases hid : x.id = n.id
    · rw [if_pos hid, hg.eq_of_id_eq hx h.mem hid]
      exact .inr rfl
    · rw [if_neg hid]
      exact .inl ⟨hx, hid⟩
  · rintro (⟨hm, hid⟩ | rfl)
    · exact ⟨m, hm, if_neg hid⟩
    · exact ⟨n, h.mem, if_pos rfl⟩

lemma ids_eq (h : g.Graftable n f fresh) (hg : g.Ordered) :
    (g.graft n.id f fresh).ids = g.ids ++ fresh.map (·.id) := by
  unfold ids graft
  rw [List.map_append, List.map_map]
  congr 1
  refine List.map_congr_left fun x hx => ?_
  dsimp only [Function.comp]
  split
  · next hid => rw [hg.eq_of_id_eq hx h.mem hid, h.id]
  · rfl

/-- **Grafting keeps a graph well-formed.** -/
theorem wellFormed (h : g.Graftable n f fresh) (hg : g.WellFormed) : (g.graft n.id f fresh).WellFormed := by
  have hids := h.ids_eq hg.ordered
  refine ⟨?_, ?_, ?_⟩
  · rw [ordered_iff, hids, h.numbers, List.pairwise_append]
    refine ⟨hg.ordered.ids_ascend, List.pairwise_lt_range', ?_⟩
    intro a ha b hb
    rw [List.mem_range'_1] at hb
    exact Nat.lt_of_lt_of_le (hg.lt_nextId ha) hb.1
  · intro m hm
    show m.id < g.nextId + fresh.length
    rcases (h.mem_iff hg.ordered).1 hm with ⟨hm, -⟩ | rfl | hm
    · exact Nat.lt_of_lt_of_le (hg.below m hm) (Nat.le_add_right ..)
    · rw [h.id]
      exact Nat.lt_of_lt_of_le (hg.below n h.mem) (Nat.le_add_right ..)
    · exact (h.nextId_le hm).2
  · intro m hm i hi
    rw [hids, List.mem_append]
    rcases (h.mem_iff hg.ordered).1 hm with ⟨hm, -⟩ | rfl | hm
    · exact .inl (hg.closed m hm i hi)
    · exact h.changed i hi
    · exact h.added m hm i hi

end Graftable

/-! ### Merging -/

/-- The node with its edges from `dup` moved to `keep`. -/
def redirected (dup keep : NodeId) (n : Node) : Node :=
  { n with inputs := n.inputs.map (fun i => if i = dup then keep else i) }

/-- Let the uses of `dup` be uses of `keep`, and drop `dup`. -/
def merged (g : Graph) (dup keep : NodeId) : Graph :=
  { g with nodes := (g.nodes.filter (fun n => n.id != dup)).map (redirected dup keep) }

lemma mem_merged : m ∈ (g.merged dup keep).nodes ↔ ∃ n ∈ g.nodes, n.id ≠ dup ∧
    m = redirected dup keep n := by
  unfold merged
  simp only [List.mem_map, List.mem_filter, bne_iff_ne, ne_eq]
  constructor
  · rintro ⟨n, ⟨hn, hid⟩, rfl⟩
    exact ⟨n, hn, hid, rfl⟩
  · rintro ⟨n, hn, hid, rfl⟩
    exact ⟨n, ⟨hn, hid⟩, rfl⟩

lemma mem_ids_merged : id ∈ (g.merged dup keep).ids ↔ id ∈ g.ids ∧ id ≠ dup := by
  rw [mem_ids, mem_ids]
  constructor
  · rintro ⟨m, hm, rfl⟩
    obtain ⟨n, hn, hid, rfl⟩ := mem_merged.1 hm
    exact ⟨⟨n, hn, rfl⟩, hid⟩
  · rintro ⟨⟨n, hn, rfl⟩, hid⟩
    exact ⟨redirected dup keep n, mem_merged.2 ⟨n, hn, hid, rfl⟩, rfl⟩

/-- **Merging keeps a graph well-formed.** -/
theorem WellFormed.merged (hg : g.WellFormed) (hkeep : keep ∈ g.ids) (hne : keep ≠ dup) :
    (g.merged dup keep).WellFormed := by
  refine ⟨?_, ?_, ?_⟩
  · unfold Ordered Search.Ascending Graph.merged
    rw [List.pairwise_map]
    exact hg.ordered.sublist List.filter_sublist
  · intro m hm
    obtain ⟨n, hn, -, rfl⟩ := mem_merged.1 hm
    exact hg.below n hn
  · intro m hm i hi
    obtain ⟨n, hn, -, rfl⟩ := mem_merged.1 hm
    obtain ⟨j, hj, rfl⟩ := List.mem_map.1 hi
    rw [mem_ids_merged]
    split
    · exact ⟨hkeep, hne⟩
    · next hj' => exact ⟨hg.closed n hn j hj, hj'⟩

end Waveflow.Graph
