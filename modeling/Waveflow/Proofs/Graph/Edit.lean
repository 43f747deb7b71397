import Waveflow.Proofs.Checked
import Waveflow.Proofs.Graph.Graft

/-!
# What edits do

On a graph whose numbers ascend, the edits that passes make give grafts and merges: appending nodes is a
graft that changes nothing else, a change in place goes through a graft to the node that it is about, and
moving the uses of a node and removing it is a merge.
-/

namespace Waveflow.Graph

open Checked (Yields)

variable {g : Graph} {id dup keep node : NodeId} {n : Node} {f f' : Node → Node} {fresh : List Node}
variable {inputs : List NodeId}

/-! ### Appending -/

/-- The graph with nodes under the next numbers. -/
def appended (g : Graph) (fresh : List Node) : Graph :=
  { g with nodes := g.nodes ++ fresh, nextId := g.nextId + fresh.length }

lemma ids_appended : (g.appended fresh).ids = g.ids ++ fresh.map (·.id) := by
  unfold ids appended
  rw [List.map_append]

lemma appended_appended (more : List Node) : (g.appended fresh).appended more = g.appended (fresh ++ more) := by
  unfold appended
  simp only [List.append_assoc, List.length_append, Nat.add_assoc]

/-- The numbers ascend and are below the next one. -/
structure Numbered (g : Graph) : Prop where
  ordered : g.Ordered
  below : ∀ n ∈ g.nodes, n.id < g.nextId

lemma WellFormed.numbered (h : g.WellFormed) : g.Numbered := ⟨h.ordered, h.below⟩

lemma Numbered.appended_one (h : g.Numbered) (hid : n.id = g.nextId) : (g.appended [n]).Numbered := by
  refine ⟨?_, ?_⟩
  · unfold Ordered Search.Ascending appended
    rw [List.pairwise_append]
    refine ⟨h.ordered, List.pairwise_singleton _ _, ?_⟩
    intro a ha b hb
    rw [List.mem_singleton.1 hb, hid]
    exact h.below a ha
  · intro m hm
    show m.id < g.nextId + 1
    rcases List.mem_append.1 hm with hm | hm
    · exact Nat.lt_succ_of_lt (h.below m hm)
    · rw [List.mem_singleton.1 hm, hid]
      exact Nat.lt_succ_self _

lemma WellFormed.appended_one (h : g.WellFormed) (hid : n.id = g.nextId) (hin : ∀ i ∈ n.inputs, i ∈ g.ids) :
    (g.appended [n]).WellFormed := by
  have hnum := h.numbered.appended_one hid
  refine ⟨hnum.ordered, hnum.below, ?_⟩
  intro m hm i hi
  rw [ids_appended]
  apply List.mem_append_left
  rcases List.mem_append.1 hm with hm | hm
  · exact h.closed m hm i hi
  · rw [List.mem_singleton.1 hm] at hi
    exact hin i hi

lemma append_yields (g : Graph) (node : NodeId → Node) :
    Yields (g.append node) (· = (g.nextId, g.appended [node g.nextId])) := by
  unfold append allocate
  refine Yields.bind (P := (· = (g.nextId, { g with nextId := g.nextId + 1 }))) ?_ ?_
  · refine (Checked.yields_addWord _ _).bind fun next hnext => ?_
    rw [hnext]
    exact rfl
  · rintro _ rfl
    exact rfl

lemma requirePresent_eq (h : g.Ordered) (hin : ∀ i ∈ inputs, i ∈ g.ids) : g.requirePresent inputs = .ok () := by
  unfold requirePresent
  have hfind : inputs.find? (fun id => !g.contains id) = none := by
    rw [List.find?_eq_none]
    intro i hi
    rw [(contains_iff h).2 (hin i hi)]
    decide
  rw [hfind]

lemma insertLike_yields (h : g.Ordered) (hkind : n.isInput = false) (hin : ∀ i ∈ inputs, i ∈ g.ids) :
    Yields (g.insertLike n inputs)
      (· = .ok (g.nextId, g.appended [{ n with id := g.nextId, inputs := inputs }])) := by
  unfold insertLike
  rw [hkind, if_neg Bool.false_ne_true, requirePresent_eq h hin]
  refine Yields.map ((append_yields g _).mono ?_)
  rintro _ rfl
  rfl

lemma addOperation_yields (h : g.Ordered) (op : OpKind) (ty : ValueType) (hin : ∀ i ∈ inputs, i ∈ g.ids) :
    Yields (g.addOperation op inputs ty)
      (· = .ok (g.nextId, g.appended [Node.plain g.nextId (.operation op) inputs ty])) := by
  unfold addOperation
  rw [requirePresent_eq h hin]
  refine Yields.map ((append_yields g _).mono ?_)
  rintro _ rfl
  rfl

/-! ### Changing in place -/

lemma map_fresh (hne : ∀ m ∈ fresh, m.id ≠ id) :
    fresh.map (fun n => if n.id = id then f n else n) = fresh := by
  conv_rhs => rw [← List.map_id fresh]
  exact List.map_congr_left fun m hm => if_neg (hne m hm)

lemma modify_eq_graft (h : g.Ordered) : g.modify id f = g.graft id f [] := by
  rw [modify_eq h]
  unfold graft
  rw [List.append_nil]
  rfl

/-- A change in place of a node of the graph leaves the appended ones alone. -/
lemma modify_appended (h : (g.appended fresh).Ordered) (hne : ∀ m ∈ fresh, m.id ≠ id) :
    (g.appended fresh).modify id f = g.graft id f fresh := by
  rw [modify_eq h]
  unfold graft appended
  rw [List.map_append, map_fresh hne]

/-- A change in place of the node that was appended last. -/
lemma modify_appended_one (h : g.Numbered) (hid : n.id = g.nextId) :
    (g.appended [n]).modify g.nextId f = g.appended [f n] := by
  rw [modify_eq (h.appended_one hid).ordered]
  unfold appended
  have hold : g.nodes.map (fun m => if m.id = g.nextId then f m else m) = g.nodes :=
    map_fresh fun m hm => Nat.ne_of_lt (h.below m hm)
  rw [List.map_append, hold, List.map_singleton, if_pos hid]
  rfl

/-- A second change in place. -/
lemma modify_graft (h : (g.graft id f fresh).Ordered) (hne : ∀ m ∈ fresh, m.id ≠ id)
    (hid : ∀ n ∈ g.nodes, n.id = id → (f n).id = id) :
    (g.graft id f fresh).modify id f' = g.graft id (fun n => f' (f n)) fresh := by
  rw [modify_eq h]
  unfold graft
  rw [List.map_append, map_fresh hne, List.map_map]
  congr 2
  refine List.map_congr_left fun n hn => ?_
  by_cases hn' : n.id = id
  · simp [hn', hid n hn hn']
  · simp [hn']

lemma setInputs_eq (h : g.Ordered) (hin : ∀ i ∈ inputs, i ∈ g.ids) (hn : n ∈ g.nodes)
    (hkind : n.isInput = false) :
    g.setInputs n.id inputs = .ok (g.modify n.id (fun n => { n with inputs := inputs })) := by
  unfold setInputs
  rw [requirePresent_eq h hin, h.node?_of_mem hn]
  dsimp only
  rw [hkind, Bool.false_and, if_neg Bool.false_ne_true]

/-- New edges for a node and a change of it, after nodes have been appended, are a graft. -/
lemma setInputs_modify (h : (g.appended fresh).Ordered) (hn : n ∈ g.nodes) (hkind : n.isInput = false)
    (hin : ∀ i ∈ inputs, i ∈ (g.appended fresh).ids) (hne : ∀ m ∈ fresh, m.id ≠ n.id) :
    ∃ g', (g.appended fresh).setInputs n.id inputs = .ok g' ∧
      g'.modify n.id f = g.graft n.id (fun m => f { m with inputs := inputs }) fresh := by
  refine ⟨_, setInputs_eq h hin (List.mem_append_left _ hn) hkind, ?_⟩
  have hgraft := modify_appended (f := fun n => { n with inputs := inputs }) h hne
  have hordered : (g.graft n.id (fun n => { n with inputs := inputs }) fresh).Ordered := by
    rw [← hgraft, modify_eq h]
    unfold Ordered Search.Ascending
    rw [List.pairwise_map]
    refine h.imp fun {a b} hab => ?_
    split <;> split <;> exact hab
  rw [hgraft, modify_graft hordered hne fun n _ hid => hid]

/-! ### Outputs -/

lemma names_outputs_modify (outs : List Output) (i : Nat) :
    (outs.modify i fun p => { p with node := node }).map (·.name) = outs.map (·.name) := by
  refine List.ext_getElem? fun j => ?_
  rw [List.getElem?_map, List.getElem?_map, List.getElem?_modify]
  cases outs[j]? with
  | none => rfl
  | some p => by_cases hij : i = j <;> simp [hij]

lemma mem_outputs_modify {outs : List Output} {i : Nat} {out : Output}
    (h : out ∈ outs.modify i fun p => { p with node := node }) : out ∈ outs ∨ out.node = node := by
  obtain ⟨j, hj⟩ := List.getElem?_of_mem h
  rw [List.getElem?_modify] at hj
  obtain ⟨p, hp, rfl⟩ := Option.map_eq_some_iff.1 hj
  by_cases hij : i = j
  · right
    simp [hij]
  · left
    simpa [hij] using List.mem_of_getElem? hp

/-! ### Merging -/

lemma replaceUses_eq (h : g.Ordered) (hkeep : keep ∈ g.ids) :
    ∃ moved, g.replaceUses dup keep none =
      .ok (moved, { g with nodes := g.nodes.map (redirected dup keep) }) := by
  have hpresent : g.requirePresent [keep] = .ok () := by
    refine requirePresent_eq h fun i hi => ?_
    rwa [List.mem_singleton.1 hi]
  unfold replaceUses
  rw [hpresent]
  exact ⟨_, rfl⟩

/-- Erasing the place of a number drops the node of that number. -/
lemma eraseIdx_eq_filter (h : g.Ordered) {i : Nat} (hi : g.position? id = some i) :
    g.nodes.eraseIdx i = g.nodes.filter (fun n => n.id != id) := by
  obtain ⟨x, hx, rfl⟩ := Search.key_of_position hi
  obtain ⟨hlt, hget⟩ := List.getElem?_eq_some_iff.1 hx
  have hsplit : g.nodes = g.nodes.take i ++ x :: g.nodes.drop (i + 1) := by
    rw [← hget, List.getElem_cons_drop, List.take_append_drop]
  have hnodup : (g.nodes.take i ++ x :: g.nodes.drop (i + 1)).Pairwise (fun a b => a.id < b.id) := hsplit ▸ h
  rw [List.pairwise_append, List.pairwise_cons] at hnodup
  obtain ⟨-, ⟨hafter, -⟩, hbefore⟩ := hnodup
  have hkeepTake : (g.nodes.take i).filter (fun n => n.id != x.id) = g.nodes.take i := by
    refine List.filter_eq_self.2 fun n hn => bne_iff_ne.2 (Nat.ne_of_lt ?_)
    exact hbefore n hn x (List.mem_cons_self ..)
  have hkeepDrop : (g.nodes.drop (i + 1)).filter (fun n => n.id != x.id) = g.nodes.drop (i + 1) :=
    List.filter_eq_self.2 fun n hn => bne_iff_ne.2 (Nat.ne_of_gt (hafter n hn))
  rw [List.eraseIdx_eq_take_drop_succ]
  conv_rhs => rw [hsplit]
  rw [List.filter_append, hkeepTake, List.filter_cons, if_neg (by simp), hkeepDrop]

/-- Once its uses have been moved, a node that is neither an input nor an output is removed. -/
lemma remove_eq (h : g.Ordered) (hdup : dup ∈ g.ids) (hne : keep ≠ dup) (hinput : dup ∉ g.inputs)
    (houtput : g.isOutput dup = false) :
    ∃ removed, ({ g with nodes := g.nodes.map (redirected dup keep) } : Graph).remove dup =
      .ok (removed, g.merged dup keep) := by
  let moved : Graph := { g with nodes := g.nodes.map (redirected dup keep) }
  have hordered : moved.Ordered := by
    unfold Ordered Search.Ascending
    rw [List.pairwise_map]
    exact h
  have hids : dup ∈ moved.ids := by
    obtain ⟨n, hn, rfl⟩ := mem_ids.1 hdup
    exact mem_ids.2 ⟨redirected n.id keep n, List.mem_map_of_mem hn, rfl⟩
  obtain ⟨n, hn⟩ := hordered.exists_node? hids
  obtain ⟨i, hi⟩ := Option.isSome_iff_exists.1 ((contains_iff hordered).2 hids)
  -- all uses have moved, so the removal is not refused
  have hconsumers : moved.consumers dup = [] := by
    unfold consumers
    rw [List.map_eq_nil_iff, List.filter_eq_nil_iff]
    intro m hm huses
    obtain ⟨x, -, rfl⟩ := List.mem_map.1 hm
    rw [List.contains_eq_mem, decide_eq_true_eq] at huses
    obtain ⟨j, -, hj⟩ := List.mem_map.1 huses
    split at hj
    · exact hne hj
    · contradiction
  have herase : moved.nodes.eraseIdx i = (g.merged dup keep).nodes := by
    rw [eraseIdx_eq_filter hordered hi]
    show (g.nodes.map (redirected dup keep)).filter _ = _
    rw [List.filter_map]
    rfl
  have hinput' : g.inputs.contains dup = false := by simpa using hinput
  refine ⟨n, ?_⟩
  show moved.remove dup = _
  unfold remove
  rw [hi, hn]
  dsimp only
  rw [show moved.inputs = g.inputs from rfl, show moved.isOutput dup = g.isOutput dup from rfl, hinput', houtput,
    hconsumers, herase]
  rfl

/-- A removal that is not refused was of a node that is neither an input nor an output. -/
lemma remove_ok {removed : Node} {g' : Graph} (h : g.remove dup = .ok (removed, g')) :
    dup ∉ g.inputs ∧ g.isOutput dup = false := by
  unfold remove at h
  split at h
  · split at h
    · cases h
    · next hinput =>
      split at h
      · cases h
      · next houtput =>
        exact ⟨by simpa using hinput, by simpa using houtput⟩
  · cases h

end Waveflow.Graph
