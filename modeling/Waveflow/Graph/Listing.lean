import Waveflow.Graph.Basic

/-!
# Listings

The text of a graph: one line a node, one line an output.
-/

namespace Waveflow

/-- The line of a node. -/
def Node.line (n : Node) : String :=
  "  " ++ n.id.text ++ " = " ++ n.kind.label ++ "(" ++
    String.intercalate ", " (n.inputs.map NodeId.text) ++ ") : " ++ n.ty.text ++
    (match n.name with
      | some name => "  // " ++ name
      | none => "") ++ "\n"

/-- The line of an output. -/
def Output.line (p : Output) : String :=
  "  output " ++ p.name ++ " <- " ++ p.node.text ++ "\n"

/-- The listing of a graph. -/
def Graph.listing (g : Graph) : String :=
  "graph " ++ g.name ++ " \x7b\n" ++ String.join (g.nodes.map Node.line) ++
    String.join (g.outputs.map Output.line) ++ "\x7d"

end Waveflow
