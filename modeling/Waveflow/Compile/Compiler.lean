import Waveflow.Source.Rules
import Waveflow.Lowering
import Waveflow.Requirements
import Waveflow.Pass.Pipeline
import Waveflow.Schedule.Greedy

/-!
# Compiling

A compilation goes through its stages in order: configure, parse, build, annotate, optimize,
schedule.  The first stage that fails ends it, and the result holds everything reported up to there.
-/

namespace Waveflow

/-! ### Results -/

/-- The outcome of a compilation. -/
structure CompileResult where
  success : Bool
  diagnostics : Diagnostics
  schedule : Option Schedule
  /-- Counts of the last graph that a stage has accepted. -/
  summary : Option Summary
  graph : Option Graph

namespace CompileResult

/-- The outcome of a compilation that stopped. -/
def failed (diagnostics : Diagnostics) (summary : Option Summary) : CompileResult :=
  ⟨false, diagnostics, none, summary, none⟩

/-- The outcome of a compilation that reached its end. -/
def succeeded (diagnostics : Diagnostics) (graph : Graph) (schedule : Schedule) : CompileResult :=
  ⟨true, diagnostics, some schedule, some graph.summary, some graph⟩

def toJson (r : CompileResult) : Json :=
  .obj ([("success", .bool r.success), ("diagnostics", r.diagnostics.toJson)] ++
    Json.field? "schedule" Schedule.toJson r.schedule ++ Json.field? "graph_summary" Summary.toJson r.summary ++
    Json.field? "graph" Graph.toJson r.graph)

def ofJson? (j : Json) : Option CompileResult := do
  match ← j.record? ["success", "diagnostics", "schedule", "graph_summary", "graph"] with
  | [success, diagnostics, schedule, summary, graph] =>
    some ⟨← Json.need Json.bool? success, ← Json.need Diagnostics.ofJson? diagnostics,
      ← Json.orElse none (Json.opt? Schedule.ofJson?) schedule,
      ← Json.orElse none (Json.opt? Summary.ofJson?) summary,
      ← Json.orElse none (Json.opt? Graph.ofJson?) graph⟩
  | _ => none

end CompileResult

/-! ### Compilers -/

/-- A compiler: the operations it knows and the options it works under. -/
structure Compiler where
  registry : Registry
  options : Options

namespace Compiler

/-- The compiler of the usual operations. -/
def withOptions (options : Options) : Compiler := ⟨Registry.builtin, options⟩

/-- Check the options and put the pipeline together. -/
def configure (c : Compiler) (sink : Diagnostics) : Except StageFailed Pipeline × Diagnostics :=
  match Pipeline.ofOptions c.options with
  | .ok pipeline => (.ok pipeline, sink)
  | .error e => (.error ⟨.configure, 1⟩, sink ++ [e.diagnostic .configure])

/-- Optimize and schedule an annotated graph. -/
def finish (c : Compiler) (pipeline : Pipeline) (graph : Graph) (sink : Diagnostics) : Checked CompileResult := do
  let (optimized, sink) ← pipeline.optimize c.registry graph sink
  match optimized with
  | .error _ => return .failed sink (some graph.summary)
  | .ok graph =>
    let (scheduled, sink) ← graph.scheduleInto sink
    match scheduled with
    | .error _ => return .failed sink (some graph.summary)
    | .ok schedule => return .succeeded sink graph schedule

/-- Build and annotate a program, then finish. -/
def compileProgram (c : Compiler) (pipeline : Pipeline) (program : Program) (sink : Diagnostics) :
    Checked CompileResult := do
  let (built, sink) ← Lowering.build c.registry Lowering.defaultName program sink
  match built with
  | .error _ => return .failed sink none
  | .ok graph =>
    let (graph, annotated, sink) ← Requirements.annotate c.registry c.options graph sink
    match annotated with
    | .error _ => return .failed sink (some graph.summary)
    | .ok _ => c.finish pipeline graph sink

/-- Compile a source text. -/
def compile (c : Compiler) (source : String) : Checked CompileResult :=
  match c.configure [] with
  | (.error _, sink) => .ok (.failed sink none)
  | (.ok pipeline, sink) =>
    match parseInto c.registry source sink with
    | (.error _, sink) => .ok (.failed sink none)
    | (.ok program, sink) => c.compileProgram pipeline program sink

end Compiler

end Waveflow
