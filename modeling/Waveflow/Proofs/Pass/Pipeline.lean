import Waveflow.Proofs.Pass.Coherence
import Waveflow.Proofs.Pass.Protection
import Waveflow.Proofs.Pass.Thermal
import Waveflow.Proofs.Pass.Trail

/-!
# Pipelines rewrite

A pipeline of the four passes, in any order and with repeats, is one chain of rewrites, round after round.
From a sound graph the guard never objects, and the only failure is a code that cannot be encoded.
-/

namespace Waveflow

open Checked (Yields)

variable {r : Registry} {g g' : Graph} {ceiling : Option Float}

/-! ### The performance pass -/

/-- **The performance pass rewrites.** -/
theorem PerformancePass.run_yields (hg : g.WellFormed) (ha : g.Acyclic) :
    Yields (PerformancePass.run g) fun out =>
      Ends r [.performance] g out.graph out.result ∧ Harmless out.reported := by
  obtain ⟨order, horder, -⟩ := Graph.order_of_acyclic hg.ordered ha
  unfold PerformancePass.run PerformancePass.levels Graph.depths
  rw [horder]
  show Yields (.ok (if _ then _ else _)) _
  split
  · exact ⟨.refl, .nil⟩
  · exact ⟨(Rewrite.regroup (Hints.addAll_made _ fun _ hgrp => absurd hgrp List.not_mem_nil)).chain, .nil⟩

/-! ### One pass under the guard -/

/-- The ceiling, if there is one, is a positive number. -/
def ValidCeiling (ceiling : Option Float) : Prop := ∀ x, ceiling = some x → ThermalPass.Valid x

/-- **Each of the four passes rewrites.** -/
theorem PassId.run_yields (hceiling : ValidCeiling ceiling) (hg : g.WellFormed) (ha : g.Acyclic) (p : PassId) :
    Yields (p.pass.run ⟨r, ceiling⟩ g) fun out => Ends r [p] g out.graph out.result ∧ Harmless out.reported := by
  cases p with
  | coherence => exact CoherencePass.run_yields hg ha ceiling
  | thermal => exact ThermalPass.run_yields hceiling hg
  | errorCorrection => exact ProtectionPass.run_yields hg ceiling
  | performance => exact PerformancePass.run_yields hg ha

/-- The guard comes to a decision on every well-formed graph without cycles. -/
lemma exists_verify (hg : g'.WellFormed) (ha : g'.Acyclic) (name : String) (c : Capabilities) :
    ∃ decision, Guard.verify name c g g' = .ok decision := by
  have hstructure : ∃ breach, Guard.structureBreach? g' = .ok breach := by
    obtain ⟨order, horder, -⟩ := Graph.order_of_acyclic hg.ordered ha
    unfold Guard.structureBreach?
    rw [(Graph.dangling_eq_nil_iff hg.ordered).2 hg.closed]
    dsimp only [List.head?_nil]
    split
    · exact ⟨_, rfl⟩
    · rw [horder]
      exact ⟨_, rfl⟩
  obtain ⟨breach, hbreach⟩ := hstructure
  unfold Guard.verify Guard.breach?
  rw [hbreach, Checked.ok_bind, Checked.pure_eq, Checked.ok_bind]
  split
  · exact ⟨_, rfl⟩
  · exact ⟨_, rfl⟩

/-- Under the guard a pass ends as without it: on a sound graph the guard lets it through. -/
lemma guard_yields (hceiling : ValidCeiling ceiling) (hg : g.WellFormed) (ha : g.Acyclic) (p : PassId) :
    Yields (Guard.run p.pass ⟨r, ceiling⟩ g) fun out =>
      Ends r [p] g out.graph out.result ∧ Harmless out.reported := by
  unfold Guard.run
  refine (p.run_yields (r := r) hceiling hg ha).bind ?_
  rintro out ⟨hends, hharmless⟩
  cases hresult : out.result with
  | error e => exact ⟨hends, hharmless⟩
  | ok changed =>
    have hchain : Rewrites r [p] g out.graph := by
      rw [hresult] at hends
      exact hends
    obtain ⟨decision, hdecision⟩ := exists_verify (g := g) (Rewrites.wellFormed hchain hg)
      (Rewrites.acyclic hchain hg ha) p.pass.name p.pass.capabilities
    dsimp only
    rw [hdecision, Checked.ok_bind]
    cases decision with
    | ok _ => exact ⟨hends, hharmless⟩
    | error e =>
      refine ⟨fun hs _ => ?_, hharmless⟩
      have hattributes : p.pass.capabilities.attributes = true := by
        cases p <;> rfl
      have haccepts := guard_accepts (Rewrites.within hchain hg) hg.ordered (Rewrites.sound hchain hs) hattributes
        p.pass.name
      rw [hdecision] at haccepts
      cases haccepts

/-! ### All passes -/

lemma runAll_yields (hceiling : ValidCeiling ceiling) (hg : g.WellFormed) (ha : g.Acyclic) (ids : List PassId) :
    Yields (Pipeline.runAll ⟨r, ceiling⟩ (ids.map PassId.pass) g) fun out =>
      Ends r ids g out.graph out.result ∧ Harmless out.reported := by
  induction ids generalizing g with
  | nil => exact ⟨.refl, .nil⟩
  | cons p rest ih =>
    rw [List.map_cons, Pipeline.runAll]
    refine (guard_yields hceiling hg ha p).bind ?_
    rintro first ⟨hends, hharmless⟩
    have hfirst := hends.mono (List.cons_subset_cons p (List.nil_subset rest))
    cases hresult : first.result with
    | error e => exact ⟨hfirst, hharmless⟩
    | ok changed =>
      have hchain : Rewrites r (p :: rest) g first.graph := by
        rw [hresult] at hfirst
        exact hfirst
      refine (ih (Rewrites.wellFormed hchain hg) (Rewrites.acyclic hchain hg ha)).bind ?_
      rintro more ⟨hmore, hharmless'⟩
      have hrest := (hmore.mono (List.subset_cons_self p rest)).after hg hchain
      exact ⟨hrest.map _, hharmless.append hharmless'⟩

/-- **A pipeline rewrites, round after round.** -/
theorem iterate_yields (hceiling : ValidCeiling ceiling) (hg : g.WellFormed) (ha : g.Acyclic) (ids : List PassId)
    (rounds : Nat) :
    Yields (Pipeline.iterate ⟨r, ceiling⟩ (ids.map PassId.pass) rounds g) fun out =>
      Ends r ids g out.graph out.result ∧ Harmless out.reported := by
  induction rounds generalizing g with
  | zero => exact ⟨.refl, .nil⟩
  | succ rounds ih =>
    rw [Pipeline.iterate]
    refine (runAll_yields hceiling hg ha ids).bind ?_
    rintro first ⟨hfirst, hharmless⟩
    cases hresult : first.result with
    | error e => exact ⟨hfirst, hharmless⟩
    | ok changed =>
      cases changed with
      | false => exact ⟨hfirst, hharmless⟩
      | true =>
        have hchain : Rewrites r ids g first.graph := by
          rw [hresult] at hfirst
          exact hfirst
        refine (ih (Rewrites.wellFormed hchain hg) (Rewrites.acyclic hchain hg ha)).bind ?_
        rintro more ⟨hmore, hharmless'⟩
        exact ⟨hmore.after hg hchain, hharmless.append hharmless'⟩

/-- The passes of a trail without a failure have rewritten the graph. -/
lemma trail_rewrites {ids all : List PassId} {outs : List Outcome} (hceiling : ValidCeiling ceiling)
    (hg : g.WellFormed) (ha : g.Acyclic) (hsub : ids ⊆ all)
    (h : Pipeline.trail ⟨r, ceiling⟩ (ids.map PassId.pass) g = .ok outs) (hpassed : Pipeline.Passed outs) :
    Rewrites r all g (Pipeline.lastGraph g outs) := by
  induction ids generalizing g outs with
  | nil =>
    cases h
    exact .refl
  | cons id rest ih =>
    rw [List.map_cons] at h
    obtain ⟨first, tail, changed, rfl, hfirst, hresult, htail, hpassed'⟩ := Pipeline.exists_of_trail_cons h hpassed
    have hends := ((guard_yields hceiling hg ha id).of_ok hfirst).1
    rw [hresult] at hends
    have hchain : Rewrites r all g first.graph := Rewrites.mono hends (List.cons_subset.2 ⟨hsub (by simp), by simp⟩)
    rw [Pipeline.lastGraph_cons]
    have hsub' : rest ⊆ all := fun q hq => hsub (List.mem_cons_of_mem _ hq)
    exact hchain.trans
      (ih (Rewrites.wellFormed hchain hg) (Rewrites.acyclic hchain hg ha) hsub' htail hpassed')

end Waveflow
