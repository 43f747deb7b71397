import Waveflow.Failure
import Waveflow.Json.Printer
import Waveflow.Json.Reader

/-!
# Artifacts

An artifact is what a backend receives of a program: the schedule with everything it needs to know of
each step, the outputs, the groups and the warnings.  It is handed over as JSON text.
-/

namespace Waveflow

/-- A step with everything that is known of it. -/
structure ArtifactStep where
  node : NodeId
  op : String
  inputs : List NodeId
  ty : ValueType
  group : Option GroupId
  attrs : Attributes

/-- A program as a backend receives it. -/
structure Artifact where
  program : String
  steps : List ArtifactStep
  outputs : List Output
  groups : List ParallelGroup
  warnings : List Diagnostic

namespace ArtifactStep

/-- The step of a node. -/
def ofStep (g : Graph) (s : Step) : Except Failure ArtifactStep :=
  match g.node? s.node with
  | some n => .ok ⟨n.id, n.kind.label, n.inputs, n.ty, s.group, n.attrs⟩
  | none => .error (.emit ("scheduled node " ++ s.node.text ++ " is not in the graph"))

def toJson (s : ArtifactStep) : Json :=
  .obj ([("node", .nat s.node), ("op", .str s.op), ("inputs", .list .nat s.inputs), ("ty", s.ty.toJson)] ++
    Json.field? "group" Json.nat s.group ++ [("attrs", s.attrs.toJson)])

def ofJson? (j : Json) : Option ArtifactStep := do
  match ← j.record? ["node", "op", "inputs", "ty", "group", "attrs"] with
  | [node, op, inputs, ty, group, attrs] =>
    some ⟨← Json.need Json.word? node, ← Json.need Json.str? op, ← Json.need (Json.list? Json.word?) inputs,
      ← Json.need ValueType.ofJson? ty, ← Json.orElse none (Json.opt? Json.word?) group,
      ← Json.need Attributes.ofJson? attrs⟩
  | _ => none

end ArtifactStep

namespace Artifact

/-- The artifact of a successful compilation. -/
def ofResult (program : String) (r : CompileResult) : Except Failure Artifact :=
  match r.graph, r.schedule with
  | some g, some s => do
    let steps ← s.steps.mapM (ArtifactStep.ofStep g)
    return ⟨program, steps, g.outputs, s.groups, r.diagnostics.warnings⟩
  | _, _ => .error r.failure

def toJson (a : Artifact) : Json :=
  .obj [("program", .str a.program), ("steps", .list ArtifactStep.toJson a.steps),
    ("outputs", .list Output.toJson a.outputs), ("groups", .list ParallelGroup.toJson a.groups),
    ("warnings", .list Diagnostic.toJson a.warnings)]

def ofJson? (j : Json) : Option Artifact := do
  match ← j.record? ["program", "steps", "outputs", "groups", "warnings"] with
  | [program, steps, outputs, groups, warnings] =>
    some ⟨← Json.need Json.str? program, ← Json.need (Json.list? ArtifactStep.ofJson?) steps,
      ← Json.need (Json.list? Output.ofJson?) outputs,
      ← Json.orElse [] (Json.list? ParallelGroup.ofJson?) groups,
      ← Json.orElse [] (Json.list? Diagnostic.ofJson?) warnings⟩
  | _ => none

/-- The format of an emitted artifact. -/
def format : String := "json"

/-- The text of an artifact. -/
def emit (pretty : Bool) (a : Artifact) : String := a.toJson.render pretty

/-- The artifact of a text. -/
def read? (text : String) : Option Artifact := (Json.parse? text).bind ofJson?

end Artifact

end Waveflow
