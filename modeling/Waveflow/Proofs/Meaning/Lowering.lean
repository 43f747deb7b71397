import Waveflow.Source.Rules
import Waveflow.Proofs.Lowering.Walk

/-!
# Lowering keeps the meaning

The graph of a program computes what a run of the program computes.  Nothing is asked of the registry, and
nothing of the program but that its lowering gives a graph: that a program breaks no rule is not needed.
-/

namespace Waveflow.Lowering

variable {V : Type*} {r : Registry} {name : String} {p : Program} {g : Graph} {sink sink' : Diagnostics}

/-- **Lowering keeps the meaning.**  Whenever lowering gives a graph, the program can be run on any values for
the inputs of the graph, and in the end every declared output has the one value that is computed by the node
designated for it. -/
theorem build_keeps_meaning (h : build r name p sink = .ok (.ok g, sink')) (I : Interpretation V)
    (ρ : NodeId → V) :
    g.inputs.length = p.inputs.length ∧ ∃ env, p.run I r (g.inputs.map ρ) = some env ∧
      ∀ o ∈ p.outputs, ∃ id v, g.output? o.name = some id ∧ env o.name = some v ∧
        ∀ w, g.Computes I ρ id w ↔ w = v := by
  have hplain : ∀ c ∈ Statement.callsAll p.statements, c.Plain (fun _ => True) := fun _ _ _ _ _ _ => trivial
  obtain ⟨hdelivers, -⟩ := (build_yields I ρ r name hplain sink).of_ok h
  obtain ⟨hbuilt, ⟨hlength, env, hrun, houtputs⟩, -⟩ := hdelivers
  refine ⟨hlength, env, hrun, fun o ho => ?_⟩
  obtain ⟨id, v, hid, hv, hcomp⟩ := houtputs o ho
  exact ⟨id, v, hid, hv, fun w => hbuilt.computes_iff hcomp⟩

/-! ### A block with a call that rebinds -/

/-- Inside a block, a shifted input becomes the output, and a bare call takes the name over. -/
def shifted : Program where
  declarations := [⟨.input, "a", .scalar, .nowhere⟩, ⟨.output, "y", .scalar, .nowhere⟩]
  statements :=
    [.block "block" [⟨some "coherence", .literal (.number 3.0), .nowhere⟩]
      [.assignment "y" ⟨"phase_shift", [⟨none, .identifier "a", .nowhere⟩,
          ⟨some "phase", .literal (.number 2.0), .nowhere⟩], .nowhere⟩ .nowhere,
        .call ⟨"correct", [⟨none, .identifier "y", .nowhere⟩], .nowhere⟩] .nowhere]

/-- An operation counts itself and what it uses. -/
def size : Interpretation Nat := ⟨fun _ => 1, fun _ _ vs => vs.foldr (· + ·) 1⟩

theorem build_keeps_meaning_shifted : Rules.check Registry.builtin shifted = [] ∧ ∃ g sink',
    build Registry.builtin defaultName shifted [] = .ok (.ok g, sink') ∧
      ∃ env, shifted.run size Registry.builtin (g.inputs.map fun _ => 1) = some env ∧
        ∃ id v, g.output? "y" = some id ∧ env "y" = some v ∧
          ∀ w, g.Computes size (fun _ => 1) id w ↔ w = v := by
  have haccepted : accepted (build Registry.builtin defaultName shifted []) = true := by decide +kernel
  obtain ⟨g, sink', hbuild⟩ := exists_of_accepted haccepted
  obtain ⟨-, env, hrun, houtputs⟩ := build_keeps_meaning hbuild size (fun _ => 1)
  exact ⟨by decide +kernel, g, sink', hbuild, env, hrun, houtputs _ (List.mem_singleton.2 rfl)⟩

end Waveflow.Lowering
