import Waveflow.Graph.Basic

/-!
# Editing a graph

The guarded edits: each keeps every edge and every output on a node that exists, or is refused.  A
refused edit has no graph to give, so the graph it was asked of stays as it is.
-/

namespace Waveflow

namespace Graph

/-- The next number, and the graph that has given it out. -/
def allocate (g : Graph) : Checked (NodeId × Graph) := do
  let next ← addWord g.nextId 1
  return (g.nextId, { g with nextId := next })

/-- All of the nodes are there, or the first that is missing. -/
def requirePresent (g : Graph) (ids : List NodeId) : Except Refusal Unit :=
  match ids.find? (fun id => !g.contains id) with
  | some missing => .error (.unknownNode missing)
  | none => .ok ()

/-- Append a node under a fresh number. -/
def append (g : Graph) (node : NodeId → Node) : Checked (NodeId × Graph) := do
  let (id, g) ← g.allocate
  return (id, { g with nodes := g.nodes ++ [node id] })

/-- Declare an input. -/
def addInput (g : Graph) (name : String) (ty : ValueType) : Checked (NodeId × Graph) := do
  let (id, g) ← g.append (fun id => { Node.plain id .input [] ty with name := some name })
  return (id, { g with inputs := g.inputs ++ [id] })

/-- Add a constant. -/
def addConstant (g : Graph) (value : Double) (ty : ValueType) : Checked (NodeId × Graph) :=
  g.append (fun id => Node.plain id (.constant value) [] ty)

/-- Add an operation on nodes that are there. -/
def addOperation (g : Graph) (op : OpKind) (inputs : List NodeId) (ty : ValueType) :
    Checked (Except Refusal (NodeId × Graph)) :=
  match g.requirePresent inputs with
  | .error e => .ok (.error e)
  | .ok _ => Except.ok <$> g.append (fun id => Node.plain id (.operation op) inputs ty)

/-- Add a copy of a node, with edges of its own. -/
def insertLike (g : Graph) (template : Node) (inputs : List NodeId) :
    Checked (Except Refusal (NodeId × Graph)) :=
  if template.isInput then .ok (.error .copiedInput)
  else match g.requirePresent inputs with
    | .error e => .ok (.error e)
    | .ok _ => Except.ok <$> g.append (fun id => { template with id := id, inputs := inputs })

/-- Let a named output stand for a node; a known name moves, a new one comes last. -/
def designate (g : Graph) (name : String) (node : NodeId) : Except Refusal Graph :=
  if !g.contains node then .error (.unknownNode node)
  else match g.outputs.findIdx? (·.name == name) with
    | some i => .ok { g with outputs := g.outputs.modify i (fun p => { p with node := node }) }
    | none => .ok { g with outputs := g.outputs ++ [⟨name, node⟩] }

/-- Give a node other edges. -/
def setInputs (g : Graph) (id : NodeId) (inputs : List NodeId) : Except Refusal Graph :=
  match g.requirePresent inputs with
  | .error e => .error e
  | .ok _ =>
    match g.node? id with
    | none => .error (.unknownNode id)
    | some node =>
      if node.isInput && !inputs.isEmpty then .error (.inputEdges id)
      else .ok (g.modify id (fun n => { n with inputs := inputs }))

/-- Let the edges from `old` come from `new`, but for those into `keeps`; also gives their number. -/
def replaceUses (g : Graph) (old new : NodeId) (keeps : Option NodeId) : Except Refusal (Nat × Graph) :=
  match g.requirePresent [new] with
  | .error e => .error e
  | .ok _ =>
    let affected (n : Node) : Bool := !(some n.id == keeps)
    let moved := ((g.nodes.filter affected).map (fun n => n.inputs.count old)).foldr (· + ·) 0
    let redirect (n : Node) : Node :=
      if affected n then { n with inputs := n.inputs.map (fun i => if i = old then new else i) } else n
    .ok (moved, { g with nodes := g.nodes.map redirect })

/-- Remove a node that nothing needs. -/
def remove (g : Graph) (id : NodeId) : Except Refusal (Node × Graph) :=
  match g.position? id, g.node? id with
  | some i, some node =>
    if g.inputs.contains id then .error (.declaredInput id)
    else if g.isOutput id then .error (.designatedOutput id)
    else match (g.consumers id).head? with
      | some consumer => .error (.stillConsumed id consumer)
      | none => .ok (node, { g with nodes := g.nodes.eraseIdx i })
  | _, _ => .error (.unknownNode id)

/-- Replace the hints. -/
def setHints (g : Graph) (hints : Hints) : Graph := { g with hints := hints }

end Graph

/-! ### Edits as values -/

/-- A guarded edit. -/
inductive Edit where
  | addInput (name : String) (ty : ValueType)
  | addConstant (value : Double) (ty : ValueType)
  | addOperation (op : OpKind) (inputs : List NodeId) (ty : ValueType)
  | insertLike (template : Node) (inputs : List NodeId)
  | designate (name : String) (node : NodeId)
  | setInputs (node : NodeId) (inputs : List NodeId)
  | replaceUses (old new : NodeId) (keeps : Option NodeId)
  | remove (node : NodeId)
  | setHints (hints : Hints)

/-- What an edit answers. -/
inductive EditAnswer where
  | nothing
  | id (id : NodeId)
  | count (n : Nat)
  | flag (b : Bool)
  | node (n : Node)
  | groups (ids : List (Option GroupId))

/-- The outcome of an edit: its answer and the new graph, or why it is refused. -/
abbrev Edited := Except Refusal (EditAnswer × Graph)

namespace Edit

/-- A new node as an answer. -/
def created (r : NodeId × Graph) : EditAnswer × Graph := (.id r.1, r.2)

/-- Make an edit. -/
def apply (e : Edit) (g : Graph) : Checked Edited :=
  match e with
  | addInput name ty => (fun r => .ok (created r)) <$> g.addInput name ty
  | addConstant value ty => (fun r => .ok (created r)) <$> g.addConstant value ty
  | addOperation op inputs ty => (fun r => r.map created) <$> g.addOperation op inputs ty
  | insertLike template inputs => (fun r => r.map created) <$> g.insertLike template inputs
  | designate name node => .ok ((g.designate name node).map (fun g => (.nothing, g)))
  | setInputs node inputs => .ok ((g.setInputs node inputs).map (fun g => (.nothing, g)))
  | replaceUses old new keeps => .ok ((g.replaceUses old new keeps).map (fun r => (.count r.1, r.2)))
  | remove node => .ok ((g.remove node).map (fun r => (.node r.1, r.2)))
  | setHints hints => .ok (.ok (.nothing, g.setHints hints))

end Edit

end Waveflow
