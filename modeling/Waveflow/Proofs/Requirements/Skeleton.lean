import Waveflow.Proofs.Requirements

/-!
# What annotation keeps and what it looks at

Annotation writes the budgets and the requirement of every node, and lets requirements flow along the edges of the same
graph.  `Graph.skeleton` is the graph with all of that taken off.  Annotation keeps the skeleton, also where it reports
errors (`skeleton_of_annotate`), and it looks at nothing else (`annotate_congr`): what an earlier annotation has left is
overwritten at every node before anything flows.  So an annotated graph is annotated again as it is.
-/

namespace Waveflow

variable {g g' : Graph} {id : NodeId} {ids : List NodeId}

/-! ### Skeletons -/

/-- The node with its budgets and its requirement taken off. -/
def Node.skeleton (n : Node) : Node :=
  { n with attrs := { n.attrs with coherence := .unbounded, thermal := .unbounded, correction := .none } }

/-- The graph with the budgets and the requirements of its nodes taken off.  Numbers, names, kinds, edges, types,
literals and marks of nodes are left, and all that is no part of a node. -/
def Graph.skeleton (g : Graph) : Graph := { g with nodes := g.nodes.map Node.skeleton }

/-- A change in place that the skeleton of no node shows. -/
lemma Graph.skeleton_modify {f : Node → Node} (hf : ∀ n, (f n).skeleton = n.skeleton) :
    (g.modify id f).skeleton = g.skeleton := by
  unfold modify
  split
  · next i _ =>
    have hnodes : (g.nodes.modify i f).map Node.skeleton = g.nodes.map Node.skeleton := by
      refine List.ext_getElem? fun j => ?_
      rw [List.getElem?_map, List.getElem?_map, List.getElem?_modify]
      by_cases hij : i = j
      · cases hj : g.nodes[j]? with
        | none => rfl
        | some n => simp [hij, hf]
      · simp [hij]
    unfold skeleton
    rw [hnodes]
  · rfl

namespace Requirements

variable {r : Registry} {o : Options} {sink sink' : Diagnostics} {verdict : Except StageFailed Unit}
  {errors : List CompileError}

/-! ### What annotation keeps -/

/-- Annotation of a node leaves its marks alone. -/
lemma extra_attributes (n : Node) : (attributes r o n).1.extra = n.attrs.extra := by
  have hdefaults : (defaults r o n).extra = n.attrs.extra := by
    unfold defaults
    cases n.kind with
    | input | constant _ => rfl
    | operation op =>
      dsimp only
      split <;> rfl
  unfold attributes
  dsimp only
  split
  · exact hdefaults
  · split
    · exact hdefaults
    · split <;> exact hdefaults

lemma skeleton_annotateNodes (r : Registry) (o : Options) (g : Graph) :
    (annotateNodes r o g).skeleton = g.skeleton := by
  unfold annotateNodes Graph.skeleton
  rw [List.map_map]
  congr 1
  refine List.map_congr_left fun n _ => ?_
  simp [annotateNode, Node.skeleton, extra_attributes]

lemma skeleton_of_inheritAlong (h : inheritAlong g ids = .ok g') : g'.skeleton = g.skeleton := by
  induction ids generalizing g with
  | nil => rw [Except.ok.inj h]
  | cons id rest ih =>
    unfold inheritAlong at h
    split at h
    · exact ih h
    · split at h
      · exact ih h
      · obtain ⟨correction, -, h⟩ := Checked.bind_eq_ok.1 h
        rw [ih h]
        exact Graph.skeleton_modify fun _ => rfl

lemma skeleton_of_inherit (h : inherit g = .ok g') : g'.skeleton = g.skeleton := by
  unfold inherit at h
  obtain ⟨order, -, h⟩ := Checked.bind_eq_ok.1 h
  cases order with
  | ok order => exact skeleton_of_inheritAlong h
  | error _ => rw [Except.ok.inj h]

lemma skeleton_of_annotated (h : annotated r o g = .ok (g', errors)) : g'.skeleton = g.skeleton := by
  unfold annotated at h
  dsimp only at h
  split at h
  · obtain ⟨inherited, hinherit, h⟩ := Checked.bind_eq_ok.1 h
    obtain ⟨found, -, h⟩ := Checked.bind_eq_ok.1 h
    obtain ⟨rfl, -⟩ := Prod.mk.inj (Except.ok.inj h)
    rw [skeleton_of_inherit hinherit, skeleton_annotateNodes]
  · obtain ⟨rfl, -⟩ := Prod.mk.inj (Except.ok.inj h)
    exact skeleton_annotateNodes r o g

/-- What is known when annotation has come to an end, with errors or without. -/
lemma annotate_ends (h : annotate r o g sink = .ok (g', verdict, sink')) : ∃ errors,
    annotated r o g = .ok (g', errors) ∧ sink' = sink ++ errors.map (·.diagnostic .annotate) ∧
      verdict = sink'.check .annotate := by
  unfold annotate at h
  obtain ⟨⟨found, errors⟩, hannotated, h⟩ := Checked.bind_eq_ok.1 h
  cases h
  exact ⟨errors, hannotated, rfl, rfl⟩

/-- **Annotation keeps the skeleton.** -/
lemma skeleton_of_annotate (h : annotate r o g sink = .ok (g', verdict, sink')) : g'.skeleton = g.skeleton := by
  obtain ⟨errors, hannotated, -⟩ := annotate_ends h
  exact skeleton_of_annotated hannotated

/-! ### What annotation looks at -/

lemma annotateNode_skeleton (n : Node) : annotateNode r o n.skeleton = annotateNode r o n := rfl

lemma nodeError?_skeleton (n : Node) : nodeError? r o n.skeleton = nodeError? r o n := rfl

lemma annotated_skeleton (r : Registry) (o : Options) (g : Graph) : annotated r o g.skeleton = annotated r o g := by
  have hnodes : annotateNodes r o g.skeleton = annotateNodes r o g := by
    simp [annotateNodes, Graph.skeleton, Function.comp_def, annotateNode_skeleton]
  have herrors : g.skeleton.nodes.filterMap (nodeError? r o) = g.nodes.filterMap (nodeError? r o) := by
    simp [Graph.skeleton, List.filterMap_map, Function.comp_def, nodeError?_skeleton]
  unfold annotated
  rw [hnodes, herrors]

lemma annotated_congr (h : g'.skeleton = g.skeleton) : annotated r o g' = annotated r o g := by
  rw [← annotated_skeleton, h, annotated_skeleton]

/-- **Annotation looks at the skeleton only.** -/
lemma annotate_congr (h : g'.skeleton = g.skeleton) : annotate r o g' sink = annotate r o g sink := by
  unfold annotate
  rw [annotated_congr h]

/-- **Annotation and the structure of a graph.**  On every graph, annotation leaves the skeleton as it is, whether
or not it ends with errors.  Graphs with one skeleton are annotated alike, up to what is reported and what goes
wrong.  And what annotation has accepted it accepts again, as it is and with nothing to report, wherever no error of
its stage has been reported before. -/
theorem annotate_skeletal (r : Registry) (o : Options) (g : Graph) (sink : Diagnostics) :
    (∀ g' verdict sink', annotate r o g sink = .ok (g', verdict, sink') → g'.skeleton = g.skeleton) ∧
    (∀ g', g'.skeleton = g.skeleton → annotate r o g' sink = annotate r o g sink) ∧
    (∀ g' sink', annotate r o g sink = .ok (g', .ok (), sink') → ¬ sink'.Failing .annotate ∧
      ∀ before, ¬ Diagnostics.Failing before .annotate →
        annotate r o g' before = .ok (g', .ok (), before)) := by
  refine ⟨fun _ _ _ h => skeleton_of_annotate h, fun _ h => annotate_congr h, fun g' sink' h => ?_⟩
  obtain ⟨errors, hannotated, rfl, hverdict⟩ := annotate_ends h
  obtain rfl : errors = [] := errors_eq_nil_of_check hverdict.symm
  refine ⟨Diagnostics.check_eq_ok_iff.1 hverdict.symm, fun before hbefore => ?_⟩
  have hagain : annotated r o g' = .ok (g', []) := (annotated_congr (skeleton_of_annotated hannotated)).trans hannotated
  unfold annotate
  rw [hagain, Checked.ok_bind]
  dsimp only
  rw [List.map_nil, List.append_nil, Diagnostics.check_eq_ok_iff.2 hbefore]
  rfl

/-- A correction and a copy of it, with what other options have left on the nodes. -/
def worn : Graph where
  name := "worn"
  nodes :=
    [{ Node.plain 0 .input [] .scalar with attrs := { Attributes.plain with correction := .faultTolerant 9 "shor" } },
    Node.plain 1 (.operation .correct) [0] .scalar,
    { Node.plain 2 (.operation .split) [1] .scalar with
      attrs := { Attributes.plain with coherence := .bounded 0.5, correction := .faultTolerant 9 "shor" } }]
  inputs := [0]
  outputs := []
  hints := Hints.empty
  nextId := 3

/-- Nothing of that is inherited. -/
theorem annotate_skeletal_worn : ∃ g sink, annotate .builtin .standard worn [] = .ok (g, .ok (), sink) ∧
    g.skeleton = worn.skeleton ∧ annotate .builtin .standard worn.skeleton [] = .ok (g, .ok (), sink) ∧
    annotate .builtin .standard g sink = .ok (g, .ok (), sink) ∧
    g.nodes.map (·.attrs.correction) = [.none, .faultTolerant 1 "surface", .faultTolerant 1 "surface"] := by
  have hrun : (annotate .builtin .standard worn []).toOption.map
      (fun out => (out.2.1.toOption, out.1.nodes.map (·.attrs.correction))) =
        some (some (), [.none, .faultTolerant 1 "surface", .faultTolerant 1 "surface"]) := by decide +kernel
  obtain ⟨⟨g, verdict, sink⟩, hannotate, hshown⟩ := Option.map_eq_some_iff.1 hrun
  obtain ⟨hverdict, hcorrections⟩ := Prod.mk.inj hshown
  obtain rfl : verdict = .ok () := Checked.toOption_eq_some.1 hverdict
  have hannotate : annotate .builtin .standard worn [] = .ok (g, .ok (), sink) := Checked.toOption_eq_some.1 hannotate
  obtain ⟨hkeeps, hlooks, hagain⟩ := annotate_skeletal .builtin .standard worn []
  obtain ⟨hclean, hagain⟩ := hagain g sink hannotate
  exact ⟨g, sink, hannotate, hkeeps _ _ _ hannotate, (hlooks _ (by rfl)).trans hannotate,
    hagain sink hclean, hcorrections⟩

end Requirements

end Waveflow
