import Waveflow.Compile.Error
import Waveflow.Graph.Edit
import Waveflow.Graph.Order
import Waveflow.Operation.Registry

/-!
# Passes

A pass transforms a graph and says whether it changed anything.  It declares which edits it makes, and
`Guard` holds it to that.  A pass that fails still leaves the graph as far as it got.
-/

namespace Waveflow

/-- The edits that a pass may make. -/
structure Capabilities where
  /-- Add nodes. -/
  insert : Bool
  /-- Remove nodes. -/
  remove : Bool
  /-- Change the edges of nodes. -/
  rewire : Bool
  /-- Change attributes, literals, names and hints. -/
  attributes : Bool
deriving Repr, DecidableEq

/-- What a pass works under. -/
structure PassContext where
  registry : Registry
  thermalCeiling : Option Float

/-- What a pass leaves: the graph, whether it changed anything or why it failed, and its reports. -/
structure Outcome where
  graph : Graph
  result : Except CompileError Bool
  reported : List Diagnostic

/-- A transformation of graphs. -/
structure Pass where
  name : String
  capabilities : Capabilities
  run : PassContext → Graph → Checked Outcome

/-- One step of a pass: the graph it leaves, and its value or why it failed. -/
structure Attempt (α : Type) where
  graph : Graph
  result : Except CompileError α

namespace Attempt

variable {α β : Type}

/-- A refused edit leaves the graph as it was. -/
def ofEdit (g : Graph) : Except Refusal (α × Graph) → Attempt α
  | .ok (a, g) => ⟨g, .ok a⟩
  | .error e => ⟨g, .error (.graph e)⟩

/-- Go on after a step that did not fail. -/
def andThen (a : Attempt α) (f : α → Graph → Checked (Attempt β)) : Checked (Attempt β) :=
  match a.result with
  | .ok x => f x a.graph
  | .error e => .ok ⟨a.graph, .error e⟩

end Attempt

end Waveflow
