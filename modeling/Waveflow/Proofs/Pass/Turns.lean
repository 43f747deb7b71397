import Waveflow.Proofs.Graph.Edit
import Waveflow.Proofs.Pass.Rewrite

/-!
# Nodes in turn

Two of the passes list nodes before they change anything and then take them one after the other.  A turn changes one
node in place and may add new nodes under the next numbers, which only it knows of (`Turn`).  So turns do not get in
each other's way: after all of them (`Turns`) a node that had no turn is as it was, what a turn has made is as the turn
left it (`Turns.mem_iff`), and a node that was added is used inside its own turn only (`Turns.uses`).
-/

namespace Waveflow

variable {g g' : Graph} {m n k : Node}

/-- What is done with one node: what becomes of it, which nodes are added and from which number on, and what is
reported.  The node keeps its number, all edges come from its inputs or from the new nodes, and reports are about it. -/
structure Turn where
  before : Node
  after : Node
  first : NodeId
  fresh : List Node
  reported : List Diagnostic
  id : after.id = before.id
  numbers : fresh.map (·.id) = List.range' first fresh.length
  edges : ∀ m ∈ after :: fresh, ∀ i ∈ m.inputs, i ∈ before.inputs ∨ i ∈ fresh.map (·.id)
  about : ∀ d ∈ reported, d.node = some before.id

variable {t u : Turn} {ts : List Turn}

namespace Turn

/-- The node is in the graph, and the next number is the first of the new nodes. -/
structure Fits (t : Turn) (g : Graph) : Prop where
  mem : t.before ∈ g.nodes
  next : t.first = g.nextId

/-- The graph after a turn. -/
def graft (t : Turn) (g : Graph) : Graph := g.graft t.before.id (fun _ => t.after) t.fresh

lemma mem_numbers (t : Turn) {i : NodeId} :
    i ∈ t.fresh.map (·.id) ↔ t.first ≤ i ∧ i < t.first + t.fresh.length := by
  rw [t.numbers, List.mem_range'_1]

/-- A turn without reports. -/
lemma about_nil (n : Node) : ∀ d ∈ ([] : List Diagnostic), d.node = some n.id :=
  fun _ hd => absurd hd List.not_mem_nil

lemma Fits.graftable (h : t.Fits g) (hg : g.WellFormed) : g.Graftable t.before (fun _ => t.after) t.fresh where
  mem := h.mem
  id := t.id
  numbers := h.next ▸ t.numbers
  changed := fun i hi => (t.edges _ (List.mem_cons_self ..) i hi).imp_left fun hin => hg.closed _ h.mem i hin
  added := fun _ hm i hi => (t.edges _ (List.mem_cons_of_mem _ hm) i hi).imp_left fun hin => hg.closed _ h.mem i hin

lemma Fits.wellFormed (h : t.Fits g) (hg : g.WellFormed) : (t.graft g).WellFormed := (h.graftable hg).wellFormed hg

lemma Fits.mem_iff (h : t.Fits g) (hg : g.WellFormed) :
    m ∈ (t.graft g).nodes ↔ m ∈ g.nodes ∧ m.id ≠ t.before.id ∨ m ∈ t.after :: t.fresh := by
  rw [List.mem_cons]
  exact (h.graftable hg).mem_iff hg.ordered

/-- A turn leaves the nodes as they are that come after it. -/
lemma Fits.present {ns : List Node} (h : t.Fits g) (hg : g.WellFormed) (hns : ∀ m ∈ t.before :: ns, m ∈ g.nodes)
    (hnodup : ((t.before :: ns).map (·.id)).Nodup) : ∀ m ∈ ns, m ∈ (t.graft g).nodes := by
  intro m hm
  refine (h.mem_iff hg).2 (.inl ⟨hns m (List.mem_cons_of_mem _ hm), fun hid => ?_⟩)
  exact (List.nodup_cons.1 hnodup).1 (List.mem_map.2 ⟨m, hm, hid⟩)

end Turn

/-- To change the node of a number is to put another into its place. -/
lemma Graph.graft_eq_const (hg : g.Ordered) (hn : n ∈ g.nodes) (f : Node → Node) (fresh : List Node) :
    g.graft n.id f fresh = g.graft n.id (fun _ => f n) fresh := by
  unfold Graph.graft
  congr 2
  refine List.map_congr_left fun m hm => ?_
  by_cases hid : m.id = n.id
  · rw [hg.eq_of_id_eq hm hn hid]
  · rw [if_neg hid, if_neg hid]

/-! ### One turn after the other -/

/-- The turns lead from the one graph to the other. -/
inductive Turns : Graph → List Turn → Graph → Prop
  | nil {g : Graph} : Turns g [] g
  | cons {g g' : Graph} {t : Turn} {ts : List Turn} : t.Fits g → Turns (t.graft g) ts g' → Turns g (t :: ts) g'

/-- Every node has at most one turn, and is in the graph from the beginning. -/
structure Turns.Listed (ts : List Turn) (g : Graph) : Prop where
  present : ∀ t ∈ ts, t.before ∈ g.nodes
  nodup : (ts.map (·.before.id)).Nodup

namespace Turns

lemma listed_of_sublist (hg : g.Ordered) (h : (ts.map (·.before)).Sublist g.nodes) : Listed ts g where
  present := fun _ ht => h.subset (List.mem_map_of_mem ht)
  nodup := by
    have hids : ((ts.map (·.before)).map (·.id)).Sublist g.ids := h.map _
    rw [List.map_map] at hids
    exact hg.ids_nodup.sublist hids

/-- After the first turn the nodes of the others are still as they were. -/
lemma Listed.tail (h : Listed (t :: ts) g) (hg : g.WellFormed) (hfits : t.Fits g) : Listed ts (t.graft g) where
  present := by
    intro u hu
    refine (hfits.mem_iff hg).2 (.inl ⟨h.present u (List.mem_cons_of_mem _ hu), fun hid => ?_⟩)
    exact (List.nodup_cons.1 h.nodup).1 (List.mem_map.2 ⟨u, hu, hid⟩)
  nodup := (List.nodup_cons.1 h.nodup).2

/-- The nodes that a turn leaves have no turn later. -/
lemma Listed.not_mem_tail (h : Listed (t :: ts) g) (hg : g.WellFormed) (hfits : t.Fits g)
    (hm : m ∈ t.after :: t.fresh) : m.id ∉ ts.map (·.before.id) := by
  rcases List.mem_cons.1 hm with rfl | hm
  · rw [t.id]
    exact (List.nodup_cons.1 h.nodup).1
  · intro hid
    obtain ⟨u, hu, hid⟩ := List.mem_map.1 hid
    have hlt : u.before.id < g.nextId := hg.below _ (h.present u (List.mem_cons_of_mem _ hu))
    have hle := (t.mem_numbers.1 (List.mem_map_of_mem hm)).1
    rw [hfits.next, ← hid] at hle
    exact absurd hlt (Nat.not_lt.2 hle)

theorem wellFormed (h : Turns g ts g') (hg : g.WellFormed) : g'.WellFormed := by
  induction h with
  | nil => exact hg
  | cons hfits _ ih => exact ih (hfits.wellFormed hg)

/-- **The nodes in the end**: those that had no turn, and what the turns have left. -/
theorem mem_iff (h : Turns g ts g') (hg : g.WellFormed) (hts : Listed ts g) :
    m ∈ g'.nodes ↔ m ∈ g.nodes ∧ m.id ∉ ts.map (·.before.id) ∨ ∃ t ∈ ts, m ∈ t.after :: t.fresh := by
  induction h with
  | nil => simp
  | @cons g g' t ts hfits _ ih =>
    rw [ih (hfits.wellFormed hg) (hts.tail hg hfits), hfits.mem_iff hg, List.map_cons]
    constructor
    · rintro (⟨⟨hm, hne⟩ | hm, hnot⟩ | ⟨u, hu, hm⟩)
      · exact .inl ⟨hm, List.not_mem_cons_of_ne_of_not_mem hne hnot⟩
      · exact .inr ⟨t, List.mem_cons_self .., hm⟩
      · exact .inr ⟨u, List.mem_cons_of_mem _ hu, hm⟩
    · rintro (⟨hm, hnot⟩ | ⟨u, hu, hm⟩)
      · exact .inl ⟨.inl ⟨hm, List.ne_of_not_mem_cons hnot⟩, List.not_mem_of_not_mem_cons hnot⟩
      · rcases List.mem_cons.1 hu with rfl | hu
        · exact .inl ⟨.inr hm, hts.not_mem_tail hg hfits hm⟩
        · exact .inr ⟨u, hu, hm⟩

/-- New nodes have numbers that were not given out before. -/
lemma next_le_first (h : Turns g ts g') (ht : t ∈ ts) : g.nextId ≤ t.first := by
  induction h with
  | nil => cases ht
  | @cons g g' u ts hfits _ ih =>
    rcases List.mem_cons.1 ht with rfl | ht
    · exact Nat.le_of_eq hfits.next.symm
    · exact Nat.le_trans (Nat.le_add_right ..) (ih ht)

/-- No number is given out in two turns. -/
lemma apart (h : Turns g ts g') : ts.Pairwise fun t u => ∀ i ∈ t.fresh.map (·.id), i ∉ u.fresh.map (·.id) := by
  induction h with
  | nil => exact .nil
  | @cons g g' t ts hfits hrest ih =>
    refine .cons (fun u hu i hi hi' => ?_) ih
    have hlt := (t.mem_numbers.1 hi).2
    have hle := (u.mem_numbers.1 hi').1
    have hnext : g.nextId + t.fresh.length ≤ u.first := hrest.next_le_first hu
    rw [hfits.next] at hlt
    exact absurd (Nat.lt_of_lt_of_le hlt hnext) (Nat.not_lt.2 hle)

lemma eq_of_mem (h : Turns g ts g') (ht : t ∈ ts) (hu : u ∈ ts) {i : NodeId} (hi : i ∈ t.fresh.map (·.id))
    (hi' : i ∈ u.fresh.map (·.id)) : t = u := by
  by_contra hne
  let apart : Turn → Turn → Prop := fun t u => ∀ i ∈ t.fresh.map (·.id), i ∉ u.fresh.map (·.id)
  have hsymm : Std.Symm apart := ⟨fun t u htu i hi hi' => htu i hi' hi⟩
  have hpair : ts.Pairwise apart := h.apart
  exact hpair.forall ht hu hne i hi hi'

/-- **New nodes are used in their own turn only.** -/
theorem uses (h : Turns g ts g') (hg : g.WellFormed) (hts : Listed ts g) (ht : t ∈ ts) (hk : k ∈ t.fresh)
    (hm : m ∈ g'.nodes) (huse : k.id ∈ m.inputs) : m ∈ t.after :: t.fresh := by
  have hnew : k.id ∈ t.fresh.map (·.id) := List.mem_map_of_mem hk
  have hnot : k.id ∉ g.ids := by
    intro hold
    have hle := Nat.le_trans (h.next_le_first ht) (t.mem_numbers.1 hnew).1
    exact absurd (hg.lt_nextId hold) (Nat.not_lt.2 hle)
  rcases (h.mem_iff hg hts).1 hm with ⟨hm, -⟩ | ⟨u, hu, hm⟩
  · exact absurd (hg.closed m hm _ huse) hnot
  · rcases u.edges m hm _ huse with hold | hnew'
    · exact absurd (hg.closed _ (hts.present u hu) _ hold) hnot
    · rwa [h.eq_of_mem ht hu hnew hnew']

lemma length_eq (h : Turns g ts g') : g'.nodes.length = g.nodes.length + (ts.flatMap (·.fresh)).length := by
  induction h with
  | nil => rfl
  | @cons g g' t ts _ _ ih =>
    rw [ih, List.flatMap_cons, List.length_append, ← Nat.add_assoc]
    simp [Turn.graft, Graph.graft]

/-- Nothing but nodes changes. -/
lemma beside (h : Turns g ts g') : g' = { g with nodes := g'.nodes, nextId := g'.nextId } := by
  induction h with
  | nil => rfl
  | cons _ _ ih => exact ih

/-- Among all reports, those about a node are those of its turn. -/
lemma filter_reported (hnodup : (ts.map (·.before.id)).Nodup) (ht : t ∈ ts) :
    (ts.flatMap (·.reported)).filter (fun d => d.node == some t.before.id) = t.reported := by
  have hself : ∀ t : Turn, t.reported.filter (fun d => d.node == some t.before.id) = t.reported := by
    intro t
    refine List.filter_eq_self.2 fun d hd => ?_
    rw [t.about d hd]
    exact beq_self_eq_true _
  have hother : ∀ t u : Turn, u.before.id ≠ t.before.id →
      u.reported.filter (fun d => d.node == some t.before.id) = [] := by
    intro t u hne
    refine List.filter_eq_nil_iff.2 fun d hd => ?_
    simpa [u.about d hd] using hne
  induction ts with
  | nil => cases ht
  | cons u ts ih =>
    obtain ⟨hnot, hnodup⟩ := List.nodup_cons.1 hnodup
    rw [List.flatMap_cons, List.filter_append]
    rcases List.mem_cons.1 ht with rfl | ht
    · have hrest : (ts.flatMap (·.reported)).filter (fun d => d.node == some t.before.id) = [] := by
        refine List.filter_eq_nil_iff.2 fun d hd => ?_
        obtain ⟨u, hu, hd⟩ := List.mem_flatMap.1 hd
        have hne : u.before.id ≠ t.before.id := fun hid => hnot (List.mem_map.2 ⟨u, hu, hid⟩)
        exact List.filter_eq_nil_iff.1 (hother t u hne) d hd
      rw [hself, hrest, List.append_nil]
    · have hne : u.before.id ≠ t.before.id := fun hid => hnot (List.mem_map.2 ⟨t, ht, hid.symm⟩)
      rw [hother t u hne, ih hnodup ht, List.nil_append]

end Turns

/-- A node is the only consumer of another. -/
lemma Graph.consumers_eq_singleton (hg : g.Ordered) (hn : n ∈ g.nodes) {i : NodeId} (hi : i ∈ n.inputs)
    (honly : ∀ m ∈ g.nodes, i ∈ m.inputs → m = n) : g.consumers i = [n.id] := by
  have hfilter : g.nodes.filter (·.inputs.contains i) = [n] := by
    have hnodup : (g.nodes.filter (·.inputs.contains i)).Nodup := hg.nodes_nodup.filter _
    refine List.perm_singleton.1 ((List.perm_ext_iff_of_nodup hnodup (List.nodup_singleton n)).2 fun m => ?_)
    rw [List.mem_filter, List.mem_singleton, List.contains_iff_mem]
    constructor
    · rintro ⟨hm, hin⟩
      exact honly m hm hin
    · rintro rfl
      exact ⟨hn, hi⟩
  unfold Graph.consumers
  rw [hfilter, List.map_singleton]

end Waveflow
