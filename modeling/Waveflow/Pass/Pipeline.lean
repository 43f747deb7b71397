import Waveflow.Compile.Options
import Waveflow.Pass.Guard
import Waveflow.Pass.Thermal
import Waveflow.Pass.Protection
import Waveflow.Pass.Levels
import Waveflow.Graph.Patch

/-!
# Pipelines of passes

A pipeline runs its passes in order, under the guard, once or until no pass changes anything.  The
first failure ends it; what has been reported up to there stays.
-/

namespace Waveflow

/-- The pass of a name that is always there. -/
def PassId.pass : PassId → Pass
  | .coherence => coherencePass
  | .thermal => thermalPass
  | .errorCorrection => protectionPass
  | .performance => performancePass

/-! ### Passes that make given changes -/

/-- Make changes in order, up to the first that is refused. -/
def Change.applyAll : List Change → Graph → Checked (Attempt Unit)
  | [], g => .ok ⟨g, .ok ()⟩
  | c :: rest, g => do
    match ← c.apply g with
    | .error e => return ⟨g, .error (.graph e)⟩
    | .ok (_, g) => Change.applyAll rest g

/-- The pass that reports some diagnostics, makes some changes and claims to have changed something or
not. -/
def Pass.scripted (name : String) (capabilities : Capabilities) (changes : List Change) (changed : Bool)
    (reports : List Diagnostic) : Pass where
  name := name
  capabilities := capabilities
  run := fun _ g => do
    let made ← Change.applyAll changes g
    return ⟨made.graph, made.result.map (fun _ => changed), reports⟩

/-! ### Pipelines -/

/-- Passes in order, and how often they run. -/
structure Pipeline where
  passes : List Pass
  fixedPoint : Bool
  maxIterations : Nat
  thermalCeiling : Option Float

namespace Pipeline

/-- The pass of a name, or that there is none. -/
def passNamed (name : String) : Except CompileError Pass :=
  match PassId.ofName? name with
  | some id => .ok id.pass
  | none => .error (.unknownPass name)

/-- The pipeline of some passes; it runs them at least once. -/
def ofPasses (passes : List Pass) (fixedPoint : Bool) (maxIterations : Nat) (ceiling : Option Float) : Pipeline :=
  ⟨passes, fixedPoint, max maxIterations 1, ceiling⟩

/-- The pipeline of the options. -/
def ofOptions (o : Options) : Except CompileError Pipeline := do
  o.validate
  let passes ← o.passList.mapM passNamed
  return ofPasses passes o.fixedPoint o.maxIterations o.thermalCeiling

/-- The names of the passes in order. -/
def names (p : Pipeline) : List String := p.passes.map (·.name)

/-- Run passes in order, up to the first failure. -/
def runAll (ctx : PassContext) : List Pass → Graph → Checked Outcome
  | [], g => .ok ⟨g, .ok false, []⟩
  | p :: rest, g => do
    let first ← Guard.run p ctx g
    match first.result with
    | .error _ => return first
    | .ok changed =>
      let more ← runAll ctx rest first.graph
      return ⟨more.graph, more.result.map (changed || ·), first.reported ++ more.reported⟩

/-- Run the passes again and again, at most `rounds` times; tells in the end whether the last round
still changed something. -/
def iterate (ctx : PassContext) (passes : List Pass) : Nat → Graph → Checked Outcome
  | 0, g => .ok ⟨g, .ok true, []⟩
  | rounds + 1, g => do
    let first ← runAll ctx passes g
    match first.result with
    | .error _ => return first
    | .ok false => return first
    | .ok true =>
      let more ← iterate ctx passes rounds first.graph
      return { more with reported := first.reported ++ more.reported }

/-- The report that the passes were still changing the graph when they had to stop. -/
def unsettled (p : Pipeline) : Diagnostic :=
  .warning .optimize .budgetExceeded
    ("optimization did not reach a fixed point within " ++ toString p.maxIterations ++ " iterations")

/-- The number of rounds. -/
def rounds (p : Pipeline) : Nat := if p.fixedPoint then p.maxIterations else 1

/-- Run the pipeline, reporting into a list of diagnostics. -/
def optimize (p : Pipeline) (r : Registry) (g : Graph) (sink : Diagnostics) :
    Checked (Except StageFailed Graph × Diagnostics) := do
  let outcome ← iterate ⟨r, p.thermalCeiling⟩ p.passes p.rounds g
  let sink := sink ++ outcome.reported
  match outcome.result with
  | .error e => return (.error ⟨.optimize, 1⟩, sink ++ [e.diagnostic .optimize])
  | .ok changed =>
    let sink := if p.fixedPoint && changed then sink ++ [p.unsettled] else sink
    match sink.check .optimize with
    | .error failed => return (.error failed, sink)
    | .ok _ => return (.ok outcome.graph, sink)

end Pipeline

end Waveflow
