import Waveflow.Graph.Basic

/-!
# Reachability

`Graph.ancestors` collects everything a node depends on, through any number of edges.  The search
goes level by level and ends with the first level that brings nothing new; every level but the last
two brings a node of the graph, which bounds their number.
-/

namespace Waveflow.Graph

/-- Follow the edges from a level of the search, at most `fuel` levels far. -/
def collect (g : Graph) : Nat → List NodeId → List NodeId → List NodeId
  | 0, _, seen => seen
  | fuel + 1, level, seen =>
    let fresh := (ascending level).filter (fun id => !seen.contains id)
    if fresh.isEmpty then seen else g.collect fuel (fresh.flatMap g.inputsOf) (fresh ++ seen)

/-- The nodes that a node depends on, in ascending order. -/
def ancestors (g : Graph) (id : NodeId) : List NodeId :=
  ascending (g.collect (g.nodes.length + 2) (g.inputsOf id) [])

/-- A chain of edges leads from one node to another. -/
def reaches (g : Graph) (source target : NodeId) : Bool :=
  source != target && (g.ancestors target).contains source

/-- The node is a declared input or depends on one. -/
def dependsOnInput (g : Graph) (id : NodeId) : Bool :=
  let above := g.ancestors id
  g.inputs.contains id || g.inputs.any above.contains

end Waveflow.Graph
