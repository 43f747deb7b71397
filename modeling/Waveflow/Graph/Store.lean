import Waveflow.Graph.Edit

/-!
# Editing in place

The guarded edits once more, as programs on a graph that is read and written step by step.  A program that
is refused leaves the graph as its steps up to there have left it, so that here a refused edit could leave
half of its work behind.
-/

namespace Waveflow

/-- A program on a graph: it answers, or is refused, and leaves a graph. -/
abbrev Store (α : Type) := ExceptT Refusal (StateT Graph Checked) α

namespace Store

/-- Refuse to go on. -/
def refuse {α : Type} (e : Refusal) : Store α := throwThe Refusal e

/-- Give out the next number. -/
def allocate : Store NodeId := do
  let g ← getThe Graph
  let next : Nat ← (addWord g.nextId 1 : Checked Nat)
  set { g with nextId := next }
  return g.nextId

/-- Go on only if all of the nodes are there. -/
def require (ids : List NodeId) : Store Unit := do
  let g ← getThe Graph
  match ids.find? (fun id => !g.contains id) with
  | some missing => refuse (.unknownNode missing)
  | none => return ()

/-- Put a node at the end. -/
def push (n : Node) : Store Unit := modify fun g => { g with nodes := g.nodes ++ [n] }

def addInput (name : String) (ty : ValueType) : Store NodeId := do
  let id ← allocate
  push { Node.plain id .input [] ty with name := some name }
  modify fun g => { g with inputs := g.inputs ++ [id] }
  return id

def addConstant (value : Double) (ty : ValueType) : Store NodeId := do
  let id ← allocate
  push (Node.plain id (.constant value) [] ty)
  return id

def addOperation (op : OpKind) (inputs : List NodeId) (ty : ValueType) : Store NodeId := do
  require inputs
  let id ← allocate
  push (Node.plain id (.operation op) inputs ty)
  return id

def insertLike (template : Node) (inputs : List NodeId) : Store NodeId := do
  if template.isInput then refuse .copiedInput
  require inputs
  let id ← allocate
  push { template with id := id, inputs := inputs }
  return id

def designate (name : String) (node : NodeId) : Store Unit := do
  let g ← getThe Graph
  if !g.contains node then refuse (.unknownNode node)
  match g.outputs.findIdx? (·.name == name) with
  | some i => set { g with outputs := g.outputs.modify i (fun p => { p with node := node }) }
  | none => set { g with outputs := g.outputs ++ [Output.mk name node] }

def setInputs (id : NodeId) (inputs : List NodeId) : Store Unit := do
  require inputs
  let g ← getThe Graph
  match g.node? id with
  | none => refuse (.unknownNode id)
  | some node =>
    if node.isInput && !inputs.isEmpty then refuse (.inputEdges id)
    set (g.modify id (fun n => { n with inputs := inputs }))

/-- The node with its edges from `old` coming from `new`, unless it is the one that keeps them. -/
def redirect (old new : NodeId) (keeps : Option NodeId) (n : Node) : Node :=
  if some n.id == keeps then n else { n with inputs := n.inputs.map (fun i => if i = old then new else i) }

/-- Redirect the edges of the nodes from a place on, and count them. -/
def redirectFrom (old new : NodeId) (keeps : Option NodeId) : Nat → Nat → Store Nat
  | _, 0 => return 0
  | place, left + 1 => do
    let g ← getThe Graph
    match g.nodes[place]? with
    | none => return 0
    | some n =>
      set { g with nodes := g.nodes.modify place (redirect old new keeps) }
      let more ← redirectFrom old new keeps (place + 1) left
      return (if some n.id == keeps then 0 else n.inputs.count old) + more

def replaceUses (old new : NodeId) (keeps : Option NodeId) : Store Nat := do
  require [new]
  let g ← getThe Graph
  redirectFrom old new keeps 0 g.nodes.length

def remove (id : NodeId) : Store Node := do
  let g ← getThe Graph
  match g.position? id, g.node? id with
  | some i, some node =>
    if g.inputs.contains id then refuse (.declaredInput id)
    if g.isOutput id then refuse (.designatedOutput id)
    if let some consumer := (g.consumers id).head? then refuse (.stillConsumed id consumer)
    set { g with nodes := g.nodes.eraseIdx i }
    return node
  | _, _ => refuse (.unknownNode id)

end Store

namespace Edit

/-- An edit as a program. -/
def program : Edit → Store EditAnswer
  | addInput name ty => .id <$> Store.addInput name ty
  | addConstant value ty => .id <$> Store.addConstant value ty
  | addOperation op inputs ty => .id <$> Store.addOperation op inputs ty
  | insertLike template inputs => .id <$> Store.insertLike template inputs
  | designate name node => (fun _ => .nothing) <$> Store.designate name node
  | setInputs node inputs => (fun _ => .nothing) <$> Store.setInputs node inputs
  | replaceUses old new keeps => .count <$> Store.replaceUses old new keeps
  | remove node => .node <$> Store.remove node
  | setHints hints => (fun _ => .nothing) <$> (modify (Graph.setHints · hints) : Store Unit)

/-- Make an edit in place: its answer or why it is refused, and the graph that it leaves. -/
def exec (e : Edit) (g : Graph) : Checked (Except Refusal EditAnswer × Graph) := e.program.run.run g

/-- Make edits one after the other, whether or not they are refused: the answers, and the graph in the end. -/
def execAll : List Edit → Graph → Checked (List (Except Refusal EditAnswer) × Graph)
  | [], g => .ok ([], g)
  | e :: rest, g => do
    let (answer, g) ← e.exec g
    let (answers, g) ← execAll rest g
    return (answer :: answers, g)

end Edit

end Waveflow
