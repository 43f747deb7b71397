import Waveflow.Graph.Waiting

/-!
# Orders of a graph

A node waits for its inputs.  `Graph.order` lists the nodes so that each follows its inputs, always
taking the smallest number among the nodes that wait for nothing; edges from missing nodes do not
count.  Where some nodes wait for each other it gives the nodes that are left over.
`Graph.depths` gives every node the length of the longest chain of edges that ends in it.
-/

namespace Waveflow

namespace Waiting

/-- All numbers after one has been taken. -/
def take (id : NodeId) : List Waiting → Checked (List Waiting)
  | [] => .ok []
  | w :: rest => do
    let w ← w.after id
    let rest ← take id rest
    return w :: rest

/-- The smallest number that can be taken. -/
def next? (ws : List Waiting) : Option NodeId := ((ws.filter isReady).map (·.id)).min?

/-- Take numbers until none is ready; gives them in order. -/
def run : Nat → List Waiting → Checked (List NodeId)
  | 0, _ => .ok []
  | fuel + 1, ws =>
    match next? ws with
    | none => .ok []
    | some id => do
      let ws ← take id ws
      let order ← run fuel ws
      return id :: order

end Waiting

namespace Graph

/-- The nodes in an order in which each follows its inputs, or the nodes that cannot be ordered. -/
def order (g : Graph) : Checked (Except (List NodeId) (List NodeId)) := do
  let order ← Waiting.run g.nodes.length (g.waiting g.contains)
  return if order.length = g.nodes.length then .ok order
    else .error (g.ids.filter (fun id => !order.contains id))

/-- The nodes can be ordered. -/
def isAcyclic (g : Graph) : Checked Bool := do
  match ← g.order with
  | .ok _ => return true
  | .error _ => return false

/-! ### Depths -/

/-- Known depths, the latest first. -/
abbrev DepthMap := List (NodeId × Nat)

/-- The depth of a node, from the depths of its inputs. -/
def depthFrom (known : DepthMap) (inputs : List NodeId) : Nat :=
  ((inputs.filterMap (fun i => List.lookup i known)).map (· + 1)).max?.getD 0

/-- Add the depths of nodes, each after its inputs. -/
def depthsAlong (g : Graph) (known : DepthMap) : List NodeId → DepthMap
  | [] => known
  | id :: rest =>
    match g.node? id with
    | none => g.depthsAlong known rest
    | some node => g.depthsAlong ((id, depthFrom known node.inputs) :: known) rest

/-- The length of the longest chain of edges into each node.  Without an order the first node left over
is named; there is none if the nodes left over share their numbers with others. -/
def depths (g : Graph) : Checked (Except Refusal DepthMap) := do
  match ← g.order with
  | .ok order => return .ok (g.depthsAlong [] order)
  | .error (id :: _) => return .error (.cycle id)
  | .error [] => .error (.index 0 0)

end Graph

end Waveflow
