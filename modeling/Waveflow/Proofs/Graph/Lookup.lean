import Waveflow.Graph.Edit
import Waveflow.Graph.Waiting
import Mathlib.Data.List.Nodup

/-!
# Looking up nodes

A graph whose numbers ascend is a finite map from numbers to nodes.  `node?_eq_some_iff` reads the
halving search as membership, `modify_eq` reads an in-place change as a map over the nodes, and
`byNumber_eq` says that no number is listed twice.
-/

namespace Waveflow

namespace Node

variable {n : Node} {op : OpKind}

lemma op?_eq_some_iff : n.op? = some op ↔ n.kind = .operation op := by
  unfold op?
  cases n.kind with
  | operation op' =>
    constructor
    · intro h
      rw [Option.some.inj h]
    · intro h
      rw [h]
      rfl
  | input | constant _ =>
    constructor
    · intro h
      cases h
    · intro h
      cases h

lemma isInput_of_operation (h : n.kind = .operation op) : n.isInput = false := by
  unfold isInput
  rw [h]

end Node

namespace Graph

variable {g : Graph} {id : NodeId} {m n : Node}

/-- The numbers of the nodes ascend. -/
def Ordered (g : Graph) : Prop := Search.Ascending Node.id g.nodes

/-! ### Numbers -/

lemma mem_ids : id ∈ g.ids ↔ ∃ n ∈ g.nodes, n.id = id := by
  simp [ids]

lemma id_mem_ids (hn : n ∈ g.nodes) : n.id ∈ g.ids := mem_ids.2 ⟨n, hn, rfl⟩

lemma ordered_iff : g.Ordered ↔ g.ids.Pairwise (· < ·) := by
  unfold ids
  rw [List.pairwise_map]
  exact Iff.rfl

lemma Ordered.ids_ascend (h : g.Ordered) : g.ids.Pairwise (· < ·) := ordered_iff.1 h

lemma Ordered.ids_nodup (h : g.Ordered) : g.ids.Nodup :=
  h.ids_ascend.imp (fun hlt => Nat.ne_of_lt hlt)

/-- Two nodes of one number are one node. -/
lemma Ordered.eq_of_id_eq (h : g.Ordered) (hm : m ∈ g.nodes) (hn : n ∈ g.nodes) (e : m.id = n.id) :
    m = n :=
  List.inj_on_of_nodup_map h.ids_nodup hm hn e

lemma Ordered.nodes_nodup (h : g.Ordered) : g.nodes.Nodup := h.ids_nodup.of_map

/-! ### The search -/

theorem node?_eq_some_iff (h : g.Ordered) : g.node? id = some n ↔ n ∈ g.nodes ∧ n.id = id := by
  unfold node? position?
  constructor
  · intro hsome
    obtain ⟨i, hi, hget⟩ := Option.bind_eq_some_iff.1 hsome
    obtain ⟨x, hx, hid⟩ := Search.key_of_position hi
    rw [hx] at hget
    obtain rfl := Option.some.inj hget
    exact ⟨List.mem_of_getElem? hx, hid⟩
  · rintro ⟨hmem, rfl⟩
    obtain ⟨i, hi⟩ := List.getElem?_of_mem hmem
    have hpos := (Search.position_eq_some_iff h).2 ⟨n, hi, rfl⟩
    rw [hpos]
    exact hi

lemma Ordered.node?_of_mem (h : g.Ordered) (hn : n ∈ g.nodes) : g.node? n.id = some n :=
  (node?_eq_some_iff h).2 ⟨hn, rfl⟩

theorem contains_iff (h : g.Ordered) : g.contains id = true ↔ id ∈ g.ids := by
  unfold contains position?
  rw [Option.isSome_iff_exists, mem_ids]
  constructor
  · rintro ⟨i, hi⟩
    obtain ⟨x, hx, hid⟩ := Search.key_of_position hi
    exact ⟨x, List.mem_of_getElem? hx, hid⟩
  · rintro ⟨n, hn, hid⟩
    obtain ⟨i, hi⟩ := List.getElem?_of_mem hn
    exact ⟨i, (Search.position_eq_some_iff h).2 ⟨n, hi, hid⟩⟩

lemma Ordered.exists_node? (h : g.Ordered) (hid : id ∈ g.ids) : ∃ n, g.node? id = some n := by
  obtain ⟨n, hn, rfl⟩ := mem_ids.1 hid
  exact ⟨n, h.node?_of_mem hn⟩

lemma node?_eq_none_iff (h : g.Ordered) : g.node? id = none ↔ id ∉ g.ids := by
  rw [Option.eq_none_iff_forall_ne_some]
  constructor
  · intro hnone hid
    obtain ⟨n, hn⟩ := h.exists_node? hid
    exact hnone n hn
  · intro hid n hn
    exact hid (mem_ids.2 ⟨n, (node?_eq_some_iff h).1 hn⟩)

/-! ### Lists by number -/

lemma insertAscending_of_forall_lt {k : Nat} {ks : List Nat} (h : ∀ j ∈ ks, k < j) :
    insertAscending k ks = k :: ks := by
  cases ks with
  | nil => rfl
  | cons j rest => simp [insertAscending, h j (by simp)]

lemma ascending_of_pairwise {ks : List Nat} (h : ks.Pairwise (· < ·)) : ascending ks = ks := by
  induction ks with
  | nil => rfl
  | cons k rest ih =>
    obtain ⟨hk, hrest⟩ := List.pairwise_cons.1 h
    have hih : List.foldr insertAscending [] rest = rest := ih hrest
    unfold ascending
    rw [List.foldr_cons, hih]
    exact insertAscending_of_forall_lt hk

lemma Ordered.reverse_find? (h : g.Ordered) (hn : n ∈ g.nodes) :
    g.nodes.reverse.find? (fun x => x.id == n.id) = some n := by
  have hsome : (g.nodes.reverse.find? (fun x => x.id == n.id)).isSome := by
    rw [List.find?_isSome]
    exact ⟨n, List.mem_reverse.2 hn, by simp⟩
  obtain ⟨x, hx⟩ := Option.isSome_iff_exists.1 hsome
  have hid : x.id = n.id := by simpa using List.find?_some hx
  have hmem : x ∈ g.nodes := List.mem_reverse.1 (List.mem_of_find?_eq_some hx)
  rw [hx, h.eq_of_id_eq hmem hn hid]

/-- Where no number is given twice, the nodes by number are the nodes. -/
theorem byNumber_eq (h : g.Ordered) : g.byNumber = g.nodes := by
  unfold byNumber
  rw [ascending_of_pairwise h.ids_ascend]
  unfold ids
  rw [List.filterMap_map]
  conv_rhs => rw [← List.filterMap_some (l := g.nodes)]
  apply List.filterMap_congr
  intro n hn
  exact h.reverse_find? hn

lemma edgesInto_eq (h : g.Ordered) (hn : n ∈ g.nodes) : g.edgesInto n.id = n.inputs := by
  have hperm : (g.nodes.filter (fun x => x.id == n.id)).Perm [n] := by
    refine (List.perm_ext_iff_of_nodup (h.nodes_nodup.filter _) (List.nodup_singleton n)).2 ?_
    intro x
    rw [List.mem_filter, List.mem_singleton, beq_iff_eq]
    constructor
    · exact fun hx => h.eq_of_id_eq hx.1 hn hx.2
    · rintro rfl
      exact ⟨hn, rfl⟩
  unfold edgesInto
  rw [List.perm_singleton.1 hperm]
  simp

/-! ### Changing a node in place -/

/-- A change in place is a map over the nodes that leaves all other numbers alone. -/
theorem modify_eq (h : g.Ordered) (f : Node → Node) :
    g.modify id f = { g with nodes := g.nodes.map (fun n => if n.id = id then f n else n) } := by
  unfold modify position?
  split
  · next i hi =>
    obtain ⟨x, hx, hid⟩ := Search.key_of_position hi
    have hnodes : g.nodes.modify i f = g.nodes.map (fun n => if n.id = id then f n else n) := by
      refine List.ext_getElem? fun j => ?_
      rw [List.getElem?_modify, List.getElem?_map]
      cases hj : g.nodes[j]? with
      | none => simp
      | some y =>
        have hiff : y.id = id ↔ i = j := by
          constructor
          · intro hy
            have hpos := (Search.position_eq_some_iff h).2 ⟨y, hj, hy⟩
            exact Option.some.inj (hi.symm.trans hpos)
          · rintro rfl
            rw [hx] at hj
            exact Option.some.inj hj ▸ hid
        by_cases hy : y.id = id
        · simp [hy, hiff.1 hy]
        · simp [hy, mt hiff.2 hy]
    rw [hnodes]
  · next hnone =>
    have hmap : g.nodes.map (fun n => if n.id = id then f n else n) = g.nodes := by
      conv_rhs => rw [← List.map_id g.nodes]
      refine List.map_congr_left fun n hn => ?_
      have hne : n.id ≠ id := by
        intro e
        have hc : g.contains id = true := (contains_iff h).2 (mem_ids.2 ⟨n, hn, e⟩)
        unfold contains position? at hc
        rw [hnone] at hc
        simp at hc
      simp [hne]
    rw [hmap]

end Graph

end Waveflow
