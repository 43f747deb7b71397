import Waveflow.Proofs.Graph.Reach
import Waveflow.Proofs.Lowering.Shape

/-!
# Warnings about what is unused

Lowering warns of the outputs that no declared input reaches, and of the operations that reach no output.  Both are
found in the sets of ancestors of the outputs; since these hold exactly the starts of chains of edges, the warnings are
exact (`build_warns`): each such output and each such operation is reported once, the outputs first and the operations
in the order of their numbers, and nothing else is reported.
-/

namespace Waveflow

open Relation (ReflTransGen)

variable {g : Graph} {id : NodeId}

/-- The warning of an output that no input reaches. -/
def Output.unusedWarning (p : Output) : Diagnostic :=
  { Diagnostic.warning .build .unusedOutput ("output '" ++ p.name ++ "' does not depend on any input") with
    node := some p.node }

/-- The warning of an operation that reaches no output. -/
def Node.unusedWarning (n : Node) : Diagnostic :=
  { Diagnostic.warning .build .unusedValue ("value '" ++ n.displayName ++ "' does not reach any output") with
    node := some n.id }

/-- A chain of edges leads to the node from a declared input, or it is one. -/
def Graph.Fed (g : Graph) (id : NodeId) : Prop := ∃ i ∈ g.inputs, ReflTransGen g.Feeds i id

/-- A chain of edges leads from the node to an output, or it is one. -/
def Graph.Live (g : Graph) (id : NodeId) : Prop := ∃ p ∈ g.outputs, ReflTransGen g.Feeds id p.node

namespace Lowering

lemma mem_live_iff (h : g.Ordered) : id ∈ live g ↔ g.Live id := by
  unfold live Graph.Live
  rw [List.mem_flatMap]
  refine exists_congr fun p => and_congr_right fun _ => ?_
  rw [List.mem_cons, Graph.mem_ancestors_iff h, Relation.reflTransGen_iff_eq_or_transGen, eq_comm]

open scoped Classical in
lemma unusedOutputs_eq (h : g.Ordered) :
    unusedOutputs g = (g.outputs.filter fun p => ¬ g.Fed p.node).map Output.unusedWarning := by
  unfold unusedOutputs
  refine congrArg (List.map Output.unusedWarning) (List.filter_congr fun p _ => ?_)
  rw [Bool.eq_iff_iff, Bool.not_eq_true', Bool.eq_false_iff, ne_eq, Graph.dependsOnInput_iff h, decide_eq_true_iff]
  exact Iff.rfl

open scoped Classical in
lemma unusedValues_eq (h : g.Ordered) :
    unusedValues g = (g.nodes.filter fun n => n.isOperation ∧ ¬ g.Live n.id).map Node.unusedWarning := by
  unfold unusedValues
  refine congrArg (List.map Node.unusedWarning) (List.filter_congr fun n _ => ?_)
  rw [Bool.eq_iff_iff, Bool.and_eq_true, Bool.not_eq_true', List.contains_eq_mem, decide_eq_false_iff_not,
    mem_live_iff h, decide_eq_true_iff]

open scoped Classical in
/-- **The warnings of lowering are exact.**  Where a program gets a graph, what is reported is a warning for each output
that no declared input reaches, in order, and then a warning for each operation that reaches no output, in the order of
numbers, and nothing else. -/
theorem build_warns {r : Registry} {name : String} {p : Program} {sink sink' : Diagnostics}
    (h : build r name p sink = .ok (.ok g, sink')) :
    g.ids.Pairwise (· < ·) ∧
      sink' = sink ++ (g.outputs.filter fun p => ¬ g.Fed p.node).map Output.unusedWarning ++
        (g.nodes.filter fun n => n.isOperation ∧ ¬ g.Live n.id).map Node.unusedWarning := by
  unfold build at h
  obtain ⟨st, hst, h⟩ := Checked.bind_eq_ok.1 h
  dsimp only at h
  split at h
  · cases h
  · next hcheck =>
    obtain ⟨hgraph, rfl⟩ := Prod.mk.inj (Except.ok.inj h)
    obtain rfl := Except.ok.inj hgraph
    have hclean : st.errors = [] := errors_eq_nil_of_check hcheck
    have hascend : st.graph.ids.Pairwise (· < ·) := (shaped_of_lower hst hclean).dense ▸ List.pairwise_lt_range
    have hordered : st.graph.Ordered := Graph.ordered_iff.2 hascend
    refine ⟨hascend, ?_⟩
    rw [unusedOutputs_eq hordered, unusedValues_eq hordered, hclean, List.map_nil, List.append_nil]

/-- A split that is used nowhere, an output made of a number only, and an output that moves on to the correction of a
value, which uses the same number. -/
def siding : Program where
  declarations := [⟨.input, "a", .scalar, .nowhere⟩, ⟨.output, "y", .scalar, .nowhere⟩,
    ⟨.output, "z", .scalar, .nowhere⟩]
  statements :=
    [.assignment "t" ⟨"split", [⟨none, .identifier "a", .nowhere⟩], .nowhere⟩ .nowhere,
      .assignment "z" ⟨"split", [⟨none, .literal (.number 0.5), .nowhere⟩], .nowhere⟩ .nowhere,
      .assignment "y" ⟨"phase_shift", [⟨none, .identifier "a", .nowhere⟩,
        ⟨some "phase", .literal (.number 0.5), .nowhere⟩], .nowhere⟩ .nowhere,
      .call ⟨"correct", [⟨none, .identifier "y", .nowhere⟩], .nowhere⟩]

open scoped Classical in
theorem build_warns_siding : ∃ g sink, build .builtin "siding" siding [] = .ok (.ok g, sink) ∧
    sink.map (fun d => (d.kind, d.node)) = [(.unusedOutput, some 3), (.unusedValue, some 1)] ∧
    sink = (g.outputs.filter fun p => ¬ g.Fed p.node).map Output.unusedWarning ++
      (g.nodes.filter fun n => n.isOperation ∧ ¬ g.Live n.id).map Node.unusedWarning := by
  have haccepted : accepted (build .builtin "siding" siding []) = true := by decide +kernel
  obtain ⟨g, sink, hbuild⟩ := exists_of_accepted haccepted
  have hwarned : (build .builtin "siding" siding []).toOption.map (fun out => out.2.map fun d => (d.kind, d.node)) =
      some [(.unusedOutput, some 3), (.unusedValue, some 1)] := by decide +kernel
  rw [hbuild] at hwarned
  exact ⟨g, sink, hbuild, Option.some.inj hwarned, (build_warns hbuild).2⟩

end Lowering

end Waveflow
