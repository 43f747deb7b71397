import Waveflow.Graph.Basic

/-!
# Numbers waiting for their inputs

Orders and schedules are made by taking numbers one after the other.  A number waits for as many edges
as lead into its node; every edge from a number that is taken pays for one of them.  In a graph in
which every node has a number of its own no edge is paid for twice; where nodes share a number it can
be, and the count then leaves its range.
-/

namespace Waveflow

/-- A number with the edges into it, how many of them are still owed, and whether it has been taken. -/
structure Waiting where
  id : NodeId
  inputs : List NodeId
  owed : Nat
  taken : Bool
deriving Repr, DecidableEq

namespace Waiting

/-- The number can be taken. -/
def isReady (w : Waiting) : Bool := w.owed == 0 && !w.taken

/-- What is owed after a number has been taken. -/
def after (id : NodeId) (w : Waiting) : Checked Waiting := do
  let owed ← subCount w.owed (w.inputs.count id)
  return { w with owed := owed, taken := w.taken || w.id == id }

end Waiting

namespace Graph

/-- The number of a node, not taken.  Only edges from numbers that count are waited for. -/
def waitingOf (g : Graph) (counts : NodeId → Bool) (n : Node) : Waiting :=
  ⟨n.id, (g.edgesInto n.id).filter counts, (n.inputs.filter counts).length, false⟩

/-- The numbers of a graph, none taken. -/
def waiting (g : Graph) (counts : NodeId → Bool) : List Waiting := g.byNumber.map (g.waitingOf counts)

end Graph

end Waveflow
