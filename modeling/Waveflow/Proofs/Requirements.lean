import Waveflow.Requirements
import Waveflow.Proofs.Diagnostic
import Waveflow.Proofs.Pass.Sound

/-!
# Annotation leaves the structure alone

Annotating a graph changes attributes of nodes and nothing else, so a graph stays sound, and the errors
that it reports are errors of its stage.
-/

namespace Waveflow

open Checked (Yields)

variable {g g' g'' : Graph}

/-! ### Other attributes -/

/-- Nodes have other attributes, and all else is as it was. -/
def Graph.Reattributed (g g' : Graph) : Prop :=
  ∃ f : Node → Attributes, g' = { g with nodes := g.nodes.map fun n => { n with attrs := f n } }

namespace Graph.Reattributed

lemma refl (g : Graph) : g.Reattributed g := by
  have hnodes : g.nodes.map (fun n => { n with attrs := n.attrs }) = g.nodes := List.map_id' _
  exact ⟨fun n => n.attrs, by rw [hnodes]⟩

lemma trans (h : g.Reattributed g') (h' : g'.Reattributed g'') : g.Reattributed g'' := by
  obtain ⟨f, rfl⟩ := h
  obtain ⟨f', rfl⟩ := h'
  refine ⟨fun n => f' { n with attrs := f n }, ?_⟩
  dsimp only
  rw [List.map_map]
  rfl

lemma modify (h : g.Ordered) (id : NodeId) (change : Attributes → Attributes) :
    g.Reattributed (g.modify id (fun n => { n with attrs := change n.attrs })) := by
  refine ⟨fun n => if n.id = id then change n.attrs else n.attrs, ?_⟩
  rw [Graph.modify_eq h]
  congr 1
  refine List.map_congr_left fun n _ => ?_
  by_cases hid : n.id = id <;> simp [hid]

/-- The same node is there, with some attributes. -/
lemma exists_node (h : g.Reattributed g') {n : Node} (hn : n ∈ g.nodes) :
    ∃ attrs, { n with attrs := attrs } ∈ g'.nodes := by
  obtain ⟨f, rfl⟩ := h
  exact ⟨f n, List.mem_map.2 ⟨n, hn, rfl⟩⟩

lemma ids_eq (h : g.Reattributed g') : g'.ids = g.ids := by
  obtain ⟨f, rfl⟩ := h
  unfold Graph.ids
  rw [List.map_map]
  rfl

lemma feeds_eq (h : g.Reattributed g') : g'.Feeds = g.Feeds := by
  obtain ⟨f, rfl⟩ := h
  funext a b
  refine propext ⟨?_, ?_⟩
  · rintro ⟨m, hm, hid, ha⟩
    obtain ⟨n, hn, rfl⟩ := List.mem_map.1 hm
    exact ⟨n, hn, hid, ha⟩
  · rintro ⟨n, hn, hid, ha⟩
    exact ⟨_, List.mem_map_of_mem hn, hid, ha⟩

lemma ordered (h : g.Reattributed g') (hg : g.Ordered) : g'.Ordered := by
  rw [Graph.ordered_iff, h.ids_eq]
  exact hg.ids_ascend

lemma wellFormed (h : g.Reattributed g') (hg : g.WellFormed) : g'.WellFormed := by
  have hids := h.ids_eq
  have hordered := h.ordered hg.ordered
  obtain ⟨f, rfl⟩ := h
  refine ⟨hordered, ?_, ?_⟩
  · intro m hm
    obtain ⟨n, hn, rfl⟩ := List.mem_map.1 hm
    exact hg.below n hn
  · intro m hm i hi
    obtain ⟨n, hn, rfl⟩ := List.mem_map.1 hm
    rw [hids]
    exact hg.closed n hn i hi

lemma acyclic (h : g.Reattributed g') (ha : g.Acyclic) : g'.Acyclic := by
  unfold Graph.Acyclic
  rw [h.feeds_eq]
  exact ha

/-- **Other attributes keep a graph sound.** -/
theorem sound (h : g.Reattributed g') (hg : g.Sound) : g'.Sound := by
  have hids := h.ids_eq
  refine ⟨h.wellFormed hg.toWellFormed, h.acyclic hg.acyclic, ?_, ?_, ?_⟩
  · obtain ⟨f, rfl⟩ := h
    intro out hout
    rw [hids]
    exact hg.outputs out hout
  · obtain ⟨f, rfl⟩ := h
    intro id
    show id ∈ g.inputs ↔ _
    rw [hg.inputs]
    constructor
    · rintro ⟨n, hn, hid, hkind⟩
      exact ⟨_, List.mem_map_of_mem hn, hid, hkind⟩
    · rintro ⟨m, hm, hid, hkind⟩
      obtain ⟨n, hn, rfl⟩ := List.mem_map.1 hm
      exact ⟨n, hn, hid, hkind⟩
  · obtain ⟨f, rfl⟩ := h
    intro m hm x hx
    obtain ⟨n, hn, rfl⟩ := List.mem_map.1 hm
    exact hg.numbers n hn x hx

lemma hints_eq (h : g.Reattributed g') : g'.hints = g.hints := by
  obtain ⟨f, rfl⟩ := h
  rfl

end Graph.Reattributed

namespace Requirements

variable {r : Registry} {o : Options}

/-! ### Inheritance -/

lemma strength_yields (c : Correction) : Yields c.strength fun _ => True := by
  cases c with
  | none | basic _ => trivial
  | faultTolerant level _ => exact (Checked.yields_addWord 1 level).mono fun _ _ => trivial

lemma strongest_yields (cs : List Correction) : Yields (strongest cs) fun _ => True := by
  induction cs with
  | nil => trivial
  | cons c rest ih =>
    unfold strongest
    refine (strength_yields c).bind fun strength _ => ih.bind fun best _ => ?_
    cases best <;> trivial

lemma inherited_yields (g : Graph) (n : Node) : Yields (inherited g n) fun _ => True := by
  unfold inherited
  refine (strongest_yields _).bind fun best _ => ?_
  cases best with
  | none => trivial
  | some best => exact (strength_yields _).bind fun _ _ => trivial

lemma inheritAlong_yields (hg : g.Ordered) (ids : List NodeId) :
    Yields (inheritAlong g ids) fun g' => g.Reattributed g' := by
  induction ids generalizing g with
  | nil => exact .refl g
  | cons id rest ih =>
    unfold inheritAlong
    split
    · exact ih hg
    · split
      · exact ih hg
      · refine (inherited_yields g _).bind fun correction _ => ?_
        have hchange := Graph.Reattributed.modify hg id fun a => { a with correction := correction }
        exact (ih (hchange.ordered hg)).mono fun g' hg' => hchange.trans hg'

lemma inherit_yields (hg : g.Ordered) (ha : g.Acyclic) : Yields (inherit g) fun g' => g.Reattributed g' := by
  obtain ⟨order, horder, -⟩ := Graph.order_of_acyclic hg ha
  unfold inherit
  rw [horder]
  exact inheritAlong_yields hg order

/-! ### Conflicts -/

lemma conflictsOf_yields (edges : List (Node × Node)) : Yields (conflictsOf edges) fun _ => True := by
  induction edges with
  | nil => trivial
  | cons edge rest ih =>
    unfold conflictsOf conflict?
    refine Yields.bind (P := fun _ => True) ?_ fun first _ => ih.bind fun more _ => trivial
    dsimp only
    split
    · trivial
    · exact (strength_yields _).bind fun own _ => (strength_yields _).bind fun required _ => trivial

/-! ### Graphs -/

lemma reattributed_annotateNodes (r : Registry) (o : Options) (g : Graph) : g.Reattributed (annotateNodes r o g) :=
  ⟨fun n => (attributes r o n).1, rfl⟩

lemma annotated_yields (hg : g.Ordered) (ha : g.Acyclic) :
    Yields (annotated r o g) fun out => g.Reattributed out.1 := by
  have hnodes := reattributed_annotateNodes r o g
  unfold annotated
  dsimp only
  split
  · refine (inherit_yields (hnodes.ordered hg) (hnodes.acyclic ha)).bind fun g' hg' => ?_
    exact (conflictsOf_yields _).bind fun _ _ => hnodes.trans hg'
  · exact hnodes

/-- **Annotation changes attributes only**, and reports errors of its stage. -/
theorem annotate_yields (hg : g.Ordered) (ha : g.Acyclic) (sink : Diagnostics) :
    Yields (annotate r o g sink) fun out => g.Reattributed out.1 ∧ out.2.1 = out.2.2.check .annotate ∧
      ∀ d ∈ out.2.2, d ∈ sink ∨ d.stage = .annotate := by
  unfold annotate
  refine (annotated_yields hg ha).bind ?_
  rintro ⟨g', errors⟩ hg'
  refine ⟨hg', rfl, fun d hd => ?_⟩
  rcases List.mem_append.1 hd with hd | hd
  · exact .inl hd
  · obtain ⟨e, -, rfl⟩ := List.mem_map.1 hd
    exact .inr rfl

end Requirements

end Waveflow
