import Waveflow.Graph.Hints
import Waveflow.Graph.Node

/-!
# Graphs

A graph holds the nodes of one program in ascending order of their numbers, the declared inputs, the
named outputs and the parallel hints.  This module has the graph itself and the questions that one
look at its nodes answers; `Listing` gives the text of a graph.
-/

namespace Waveflow

/-- A named output and the node that computes it. -/
structure Output where
  name : String
  node : NodeId
deriving Repr, DecidableEq

namespace Output

def toJson (p : Output) : Json := .obj [("name", .str p.name), ("node", .nat p.node)]

def ofJson? (j : Json) : Option Output := do
  match ← j.record? ["name", "node"] with
  | [name, node] => some ⟨← Json.need Json.str? name, ← Json.need Json.word? node⟩
  | _ => none

end Output

/-- Counts of a graph. -/
structure Summary where
  nodes : Nat
  edges : Nat
  inputs : Nat
  outputs : Nat
  constants : Nat
  operations : Nat
deriving Repr, DecidableEq

namespace Summary

def toJson (s : Summary) : Json :=
  .obj [("nodes", .nat s.nodes), ("edges", .nat s.edges), ("inputs", .nat s.inputs),
    ("outputs", .nat s.outputs), ("constants", .nat s.constants), ("operations", .nat s.operations)]

def ofJson? (j : Json) : Option Summary := do
  match ← j.record? ["nodes", "edges", "inputs", "outputs", "constants", "operations"] with
  | [nodes, edges, inputs, outputs, constants, operations] =>
    some ⟨← Json.need Json.long? nodes, ← Json.need Json.long? edges, ← Json.need Json.long? inputs,
      ← Json.need Json.long? outputs, ← Json.need Json.long? constants, ← Json.need Json.long? operations⟩
  | _ => none

end Summary

/-- A dataflow graph. -/
structure Graph where
  name : String
  nodes : List Node
  inputs : List NodeId
  outputs : List Output
  hints : Hints
  /-- The number of the next node. -/
  nextId : Nat
deriving BEq

namespace Graph

/-- The graph without nodes. -/
def empty (name : String) : Graph := ⟨name, [], [], [], Hints.empty, 0⟩

/-! ### Looking at nodes -/

/-- Where a node stands in the list of nodes. -/
def position? (g : Graph) (id : NodeId) : Option Nat := Search.position Node.id id g.nodes

/-- The graph has the node. -/
def contains (g : Graph) (id : NodeId) : Bool := (g.position? id).isSome

/-- The node of a number. -/
def node? (g : Graph) (id : NodeId) : Option Node := (g.position? id).bind (fun i => g.nodes[i]?)

/-- Change the node of a number; without such a node nothing changes. -/
def modify (g : Graph) (id : NodeId) (f : Node → Node) : Graph :=
  match g.position? id with
  | some i => { g with nodes := g.nodes.modify i f }
  | none => g

/-- The numbers of the nodes in order. -/
def ids (g : Graph) : List NodeId := g.nodes.map (·.id)

/-- The nodes by number: every number once, ascending, with the last node that has it. -/
def byNumber (g : Graph) : List Node :=
  (ascending g.ids).filterMap (fun id => g.nodes.reverse.find? (·.id == id))

/-- The edges into all nodes of a number. -/
def edgesInto (g : Graph) (id : NodeId) : List NodeId := (g.nodes.filter (·.id == id)).flatMap (·.inputs)

/-- The edges into a node; a missing node has none. -/
def inputsOf (g : Graph) (id : NodeId) : List NodeId := ((g.node? id).map (·.inputs)).getD []

/-- The node behind a named output. -/
def output? (g : Graph) (name : String) : Option NodeId :=
  (g.outputs.find? (·.name == name)).map (·.node)

/-- Some output is computed by the node. -/
def isOutput (g : Graph) (id : NodeId) : Bool := g.outputs.any (·.node == id)

/-- The first node bound to a name. -/
def find? (g : Graph) (name : String) : Option Node := g.nodes.find? (·.name == some name)

def edgeCount (g : Graph) : Nat := (g.nodes.map (·.inputs.length)).foldr (· + ·) 0

def summary (g : Graph) : Summary :=
  ⟨g.nodes.length, g.edgeCount, g.inputs.length, g.outputs.length,
    (g.nodes.filter Node.isConstant).length, (g.nodes.filter Node.isOperation).length⟩

/-- The nodes that use a node, in order. -/
def consumers (g : Graph) (id : NodeId) : List NodeId :=
  (g.nodes.filter (·.inputs.contains id)).map (·.id)

/-- The edges from nodes that the graph does not have, each as the consumer and the missing node. -/
def dangling (g : Graph) : List (NodeId × NodeId) :=
  g.nodes.flatMap (fun n => (n.inputs.filter (fun i => !g.contains i)).map (fun i => (n.id, i)))

/-! ### JSON -/

def toJson (g : Graph) : Json :=
  .obj [("name", .str g.name), ("nodes", .list Node.toJson g.nodes), ("inputs", .list .nat g.inputs),
    ("outputs", .list Output.toJson g.outputs), ("hints", g.hints.toJson), ("next_id", .nat g.nextId)]

/-- A graph as it is stored; nothing but the form is checked. -/
def ofJson? (j : Json) : Option Graph := do
  match ← j.record? ["name", "nodes", "inputs", "outputs", "hints", "next_id"] with
  | [name, nodes, inputs, outputs, hints, nextId] =>
    some ⟨← Json.need Json.str? name, ← Json.need (Json.list? Node.ofJson?) nodes,
      ← Json.need (Json.list? Json.word?) inputs, ← Json.need (Json.list? Output.ofJson?) outputs,
      ← Json.orElse Hints.empty Hints.ofJson? hints, ← Json.need Json.word? nextId⟩
  | _ => none

end Graph

end Waveflow
