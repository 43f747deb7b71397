import Waveflow.Proofs.Diagnostic
import Waveflow.Proofs.Meaning.Rewrite
import Waveflow.Proofs.Pass.Pipeline

/-!
# Optimizing keeps the meaning

A pipeline of the four passes, in any order, with repeats and in any number of rounds, changes no value:
whatever node is still there computes what it computed, and the outputs are all still there.  This holds
for every registry, and for every lawful interpretation of the operations.
-/

namespace Waveflow

variable {V : Type*} {I : Interpretation V} {ρ val : NodeId → V}
variable {r : Registry} {ids : List PassId} {g g' : Graph}

/-! ### Chains of rewrites -/

lemma Rewrites.nextId_le (h : Rewrites r ids g g') (hg : g.WellFormed) : g.nextId ≤ g'.nextId := by
  induction h with
  | refl => exact Nat.le_refl _
  | tail hchain hstep ih =>
    obtain ⟨p, -, hstep⟩ := hstep
    exact Nat.le_trans ih (hstep.within (Rewrites.wellFormed hchain hg)).nextId

/-- A chain of rewrites keeps the value of every number that was there. -/
theorem Rewrites.solves (h : Rewrites r ids g g') (hI : I.Lawful) (hg : g.WellFormed) (hs : g.Solves I ρ val) :
    ∃ val', g'.Solves I ρ val' ∧ ∀ id < g.nextId, val' id = val id := by
  induction h with
  | refl => exact ⟨val, hs, fun _ _ => rfl⟩
  | tail hchain hstep ih =>
    obtain ⟨p, -, hstep⟩ := hstep
    obtain ⟨mid, hmid, hsame⟩ := ih
    obtain ⟨val', hval', hsame'⟩ := hstep.solves hI (Rewrites.wellFormed hchain hg) hmid
    refine ⟨val', hval', fun id hid => ?_⟩
    rw [hsame' id (Nat.lt_of_lt_of_le hid (Rewrites.nextId_le hchain hg)), hsame id hid]

lemma Rewrites.outputs (h : Rewrites r ids g g') (hg : g.WellFormed) :
    g'.outputs = g.outputs ∧ ∀ out ∈ g.outputs, out.node ∈ g.ids → out.node ∈ g'.ids := by
  induction h with
  | refl => exact ⟨rfl, fun _ _ hid => hid⟩
  | tail hchain hstep ih =>
    obtain ⟨p, -, hstep⟩ := hstep
    have hwithin := hstep.within (Rewrites.wellFormed hchain hg)
    refine ⟨hwithin.outputs.trans ih.1, fun out hout hid => ?_⟩
    exact hwithin.needed out (ih.1 ▸ hout) (ih.2 out hout hid)

/-! ### Values -/

/-- Both graphs compute one value at the number, and it is the same. -/
def Graph.Agree (I : Interpretation V) (ρ : NodeId → V) (g g' : Graph) (id : NodeId) : Prop :=
  ∃ v, ∀ w, (g.Computes I ρ id w ↔ w = v) ∧ (g'.Computes I ρ id w ↔ w = v)

lemma Rewrites.agree (h : Rewrites r ids g g') (hI : I.Lawful) (hg : g.WellFormed) (ha : g.Acyclic) {id : NodeId}
    (hid : id ∈ g.ids) (hid' : id ∈ g'.ids) : g.Agree I ρ g' id := by
  obtain ⟨val, hval⟩ := Graph.exists_solution hg.ordered hg.closed ha I ρ
  obtain ⟨val', hval', hsame⟩ := Rewrites.solves h hI hg hval
  have hg' := Rewrites.wellFormed h hg
  obtain ⟨rank, hrank⟩ := Graph.exists_ranked hg.ordered hg.closed ha
  obtain ⟨rank', hrank'⟩ := Graph.exists_ranked hg'.ordered hg'.closed (Rewrites.acyclic h hg ha)
  refine ⟨val id, fun w => ⟨Graph.computes_iff hg.closed hrank hval hid, ?_⟩⟩
  rw [← hsame id (hg.lt_nextId hid)]
  exact Graph.computes_iff hg'.closed hrank' hval' hid'

/-! ### Pipelines -/

namespace Pipeline

variable {p : Pipeline} {sink sink' : Diagnostics}

/-- The graph that a pipeline gives comes from a chain of rewrites. -/
lemma rewrites_of_optimize (hpasses : p.passes = ids.map PassId.pass) (hceiling : ValidCeiling p.thermalCeiling)
    (hg : g.WellFormed) (ha : g.Acyclic) (h : p.optimize r g sink = .ok (.ok g', sink')) : Rewrites r ids g g' := by
  unfold optimize at h
  obtain ⟨out, hout, hrest⟩ := Checked.bind_eq_ok.1 h
  rw [hpasses] at hout
  obtain ⟨hends, -⟩ := (iterate_yields hceiling hg ha ids p.rounds).of_ok hout
  dsimp only at hrest
  cases hresult : out.result with
  | error e =>
    rw [hresult] at hrest
    cases hrest
  | ok changed =>
    rw [hresult] at hrest hends
    have hgraph : out.graph = g' := by
      dsimp only at hrest
      split at hrest
      · cases hrest
      · injection hrest with hpair
        injection hpair with hok _
        exact Except.ok.inj hok
    rw [← hgraph]
    exact hends

/-- **The optimizer keeps the meaning.**  Every node that is in both graphs computes the same value in
both, and every output that was there is still there, so every named output computes what it computed. -/
theorem optimize_keeps_values (hI : I.Lawful) (hpasses : p.passes = ids.map PassId.pass)
    (hceiling : ValidCeiling p.thermalCeiling) (hg : g.WellFormed) (ha : g.Acyclic)
    (h : p.optimize r g sink = .ok (.ok g', sink')) (ρ : NodeId → V) :
    (∀ id ∈ g.ids, id ∈ g'.ids → g.Agree I ρ g' id) ∧ g'.outputs = g.outputs ∧
      ∀ out ∈ g.outputs, out.node ∈ g.ids → out.node ∈ g'.ids ∧ g.Agree I ρ g' out.node := by
  have hchain := rewrites_of_optimize hpasses hceiling hg ha h
  obtain ⟨houtputs, hneeded⟩ := Rewrites.outputs hchain hg
  refine ⟨fun id hid hid' => Rewrites.agree hchain hI hg ha hid hid', houtputs, fun out hout hid => ?_⟩
  have hid' := hneeded out hout hid
  exact ⟨hid', Rewrites.agree hchain hI hg ha hid hid'⟩

/-! ### A run of three passes -/

/-- Two equal operations on one input; what uses them is too hot and asks for protection. -/
def twins : Graph where
  name := "twins"
  nodes := [Node.plain 0 .input [] .scalar, Node.plain 1 (.operation .interfere) [0, 0] .scalar,
    Node.plain 2 (.operation .interfere) [0, 0] .scalar,
    { Node.plain 3 (.operation .merge) [1, 2] .scalar with
      attrs := { Attributes.plain with thermal := .bounded 3.0, correction := .basic "shor" } }]
  inputs := [0]
  outputs := [⟨"y", 3⟩]
  hints := Hints.empty
  nextId := 4

/-- Merge, divide and protect, once. -/
def threePasses : Pipeline :=
  ofPasses ([PassId.coherence, .thermal, .errorCorrection].map PassId.pass) false 1 (some 2.0)

/-- Every operation computes the largest of its inputs. -/
def largest : Interpretation Nat := ⟨fun _ => 0, fun _ _ vs => vs.foldr max 0⟩

lemma largest_lawful : largest.Lawful where
  literals := fun _ _ _ _ _ => rfl
  join := by
    intro k v
    show (List.replicate (k + 1) v).foldr max 0 = v
    induction k with
    | zero => simp
    | succ k ih => rw [List.replicate_succ, List.foldr_cons, ih, Nat.max_self]
  decode := by
    intro code distance op params vs
    show max (max (vs.foldr max 0) 0) 0 = vs.foldr max 0
    simp

lemma twins_wellFormed : twins.WellFormed where
  ordered := Graph.ordered_iff.2 (by decide)
  below := by decide
  closed := by
    unfold Graph.Closed
    decide

lemma twins_acyclic : twins.Acyclic := by
  have hranked : twins.Ranked (fun id => id) := by
    unfold Graph.Ranked
    decide
  exact hranked.acyclic

theorem optimize_keeps_values_twins : ∃ g' sink',
    threePasses.optimize Registry.builtin twins [] = .ok (.ok g', sink') ∧
      3 ∈ g'.ids ∧ twins.Agree largest (fun _ => 5) g' 3 := by
  have haccepted : accepted (threePasses.optimize Registry.builtin twins []) = true := by decide +kernel
  obtain ⟨g', sink', hrun⟩ := exists_of_accepted haccepted
  have hceiling : ValidCeiling threePasses.thermalCeiling := by
    intro x hx
    obtain rfl := Option.some.inj hx
    unfold ThermalPass.Valid
    decide +kernel
  have hkept := optimize_keeps_values largest_lawful rfl hceiling twins_wellFormed twins_acyclic hrun (fun _ => 5)
  exact ⟨g', sink', hrun, hkept.2.2 ⟨"y", 3⟩ (List.mem_cons_self ..) (by decide)⟩

end Pipeline

end Waveflow
