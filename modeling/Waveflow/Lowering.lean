import Waveflow.Source.Program
import Waveflow.Operation.Registry
import Waveflow.Compile.Error
import Waveflow.Graph.Edit
import Waveflow.Graph.Reach

/-!
# From programs to graphs

Every input declaration becomes an input node, every call an operation node, and every number used as
an operand a constant node that is shared among its uses.  A named output stands for the node that is
assigned to it.  A bare call takes over the name of its first operand, and with it the output of that
name.  A name whose statement failed is poisoned: what uses it fails without a report of its own.
-/

namespace Waveflow.Lowering

/-- The state of a walk through a program. -/
structure State where
  graph : Graph
  /-- The node behind each name; the latest binding comes first. -/
  bindings : List (String × NodeId)
  /-- The node of each constant, by its bits. -/
  constants : List (UInt64 × NodeId)
  poisoned : List String
  errors : List CompileError

namespace State

def start (name : String) : State := ⟨Graph.empty name, [], [], [], []⟩

def bind (st : State) (name : String) (id : NodeId) : State :=
  { st with bindings := (name, id) :: st.bindings }

def poison (st : State) (name : String) : State := { st with poisoned := name :: st.poisoned }

def fail (st : State) (e : CompileError) : State := { st with errors := st.errors ++ [e] }

end State

/-- The outcome of lowering a phrase. -/
inductive Lowered (α : Type) where
  | value (a : α)
  /-- Something it uses has failed before. -/
  | poisoned
  | failed (e : CompileError)

/-! ### Operands and calls -/

/-- The node of a constant. -/
def constant (x : Double) (st : State) : Checked (NodeId × State) :=
  match st.constants.lookup x.bits with
  | some id => .ok (id, st)
  | none => do
    let (id, g) ← st.graph.addConstant x ValueType.scalar
    return (id, { st with graph := g, constants := (x.bits, id) :: st.constants })

/-- The node of an operand. -/
def operand (a : Argument) (st : State) : Checked (Lowered NodeId × State) :=
  match a.value with
  | .identifier name =>
    match st.bindings.lookup name with
    | some id => .ok (.value id, st)
    | none =>
      if st.poisoned.contains name then .ok (.poisoned, st)
      else .ok (.failed (.unresolvedReference name a.span), st)
  | .literal (.number x) => do
    let (id, st) ← constant x st
    return (.value id, st)
  | .literal (.text s) =>
    .ok (.failed (.typeMismatch ((Literal.text s).display ++ " cannot be used as an operand") a.span), st)

/-- The nodes of operands, up to the first that has none. -/
def operands : List Argument → State → Checked (Lowered (List NodeId) × State)
  | [], st => .ok (.value [], st)
  | a :: rest, st => do
    let (first, st) ← operand a st
    match first with
    | .failed e => return (.failed e, st)
    | .poisoned => return (.poisoned, st)
    | .value id =>
      let (more, st) ← operands rest st
      match more with
      | .value ids => return (.value (id :: ids), st)
      | .poisoned => return (.poisoned, st)
      | .failed e => return (.failed e, st)

/-- The arguments that are operands: the positional ones, then the operand parameters in the order of
the operation. -/
def operandArguments (spec : OpSpec) (c : Call) : List Argument :=
  c.positional ++ spec.operandParams.filterMap (fun p => c.parameter? p.name)

/-- The literals of a call: those of the blocks around it, and its own over them. -/
def callParams (spec : OpSpec) (defaults : Params) (c : Call) : Params :=
  c.named.foldl (fun params a =>
    match a.name, a.value with
    | some name, .literal value =>
      match spec.param? name with
      | some ⟨_, .attribute, _⟩ => params.insert name value
      | _ => params
    | _, _ => params) defaults

/-- The type of the result of a call on nodes. -/
def callType (spec : OpSpec) (c : Call) (g : Graph) (ids : List NodeId) : Except CompileError ValueType :=
  match spec.resultType ((ids.filterMap g.node?).map (·.ty)) with
  | .ok ty => .ok ty
  | .error message => .error (.typeMismatch (c.operation ++ ": " ++ message) c.span)

/-- Add the node of a call on operands that are known. -/
def addCall (spec : OpSpec) (defaults : Params) (c : Call) (ids : List NodeId) (st : State) :
    Checked (Lowered NodeId × State) :=
  match callType spec c st.graph ids with
  | .error e => .ok (.failed e, st)
  | .ok ty => do
    match ← st.graph.addOperation spec.kind ids ty with
    | .error e => return (.failed (.graph e), st)
    | .ok (id, g) =>
      let g := g.modify id (fun n => { n with params := callParams spec defaults c })
      return (.value id, { st with graph := g })

/-- The node of a call. -/
def call (r : Registry) (defaults : Params) (c : Call) (st : State) : Checked (Lowered NodeId × State) :=
  match r.callable? c.operation with
  | none => .ok (.failed (.unknownOperation c.operation c.span), st)
  | some spec => do
    let (ids, st) ← operands (operandArguments spec c) st
    match ids with
    | .value ids => addCall spec defaults c ids st
    | .poisoned => return (.poisoned, st)
    | .failed e => return (.failed e, st)

/-! ### Statements -/

/-- Let a declared output stand for a node of its type. -/
def designate (output : Declaration) (id : NodeId) (st : State) : State :=
  match st.graph.node? id with
  | none => st
  | some node =>
    if node.ty ≠ output.ty then
      (st.fail (.typeMismatch ("output '" ++ output.name ++ "' is declared " ++ output.ty.text ++
        " but assigned " ++ node.ty.text) output.span)).poison output.name
    else match st.graph.designate output.name id with
      | .ok g => { st with graph := g }
      | .error e => st.fail (.graph e)

/-- The declared output of a name. -/
def outputNamed? (outputs : List Declaration) (name : String) : Option Declaration :=
  outputs.find? (·.name == name)

/-- Lower an assignment. -/
def assignment (r : Registry) (outputs : List Declaration) (defaults : Params) (target : String) (c : Call)
    (st : State) : Checked State := do
  let (lowered, st) ← call r defaults c st
  match lowered with
  | .value id =>
    let g := st.graph.modify id (fun n => { n with name := some target })
    let st := { st with graph := g }.bind target id
    match outputNamed? outputs target with
    | some output => return designate output id st
    | none => return st
  | .poisoned => return st.poison target
  | .failed e => return (st.fail e).poison target

/-- The name that a bare call takes over. -/
def rebound? (c : Call) : Option String := c.positional.head?.bind Argument.identifier?

/-- Let a name stand for the node of a bare call. -/
def rebind (outputs : List Declaration) (name : String) (id : NodeId) (st : State) : State :=
  let st := st.bind name id
  match outputNamed? outputs name with
  | some output => if (st.graph.output? name).isSome then designate output id st else st
  | none => st

/-- Lower a bare call. -/
def bareCall (r : Registry) (outputs : List Declaration) (defaults : Params) (c : Call) (st : State) :
    Checked State := do
  let (lowered, st) ← call r defaults c st
  match lowered, rebound? c with
  | .value id, some name => return rebind outputs name id st
  | .value _, none => return st
  | .poisoned, _ => return st
  | .failed e, some name => return (st.fail e).poison name
  | .failed e, none => return st.fail e

/-- The literals that hold inside a block. -/
def blockParams (outer : Params) (parameters : List Argument) : Params :=
  parameters.foldl (fun params a =>
    match a.name, a.value with
    | some name, .literal value => params.insert name value
    | _, _ => params) outer

mutual

/-- Lower a statement under the literals of the blocks around it. -/
def statement (r : Registry) (outputs : List Declaration) (defaults : Params) :
    Statement → State → Checked State
  | .assignment target c _, st => assignment r outputs defaults target c st
  | .call c, st => bareCall r outputs defaults c st
  | .block _ parameters body _, st => statements r outputs (blockParams defaults parameters) body st

/-- Lower statements in order. -/
def statements (r : Registry) (outputs : List Declaration) (defaults : Params) :
    List Statement → State → Checked State
  | [], st => .ok st
  | s :: rest, st => do
    let st ← statement r outputs defaults s st
    statements r outputs defaults rest st

end

/-! ### Programs -/

/-- Add the declared inputs. -/
def inputs : List Declaration → State → Checked State
  | [], st => .ok st
  | d :: rest, st => do
    let (id, g) ← st.graph.addInput d.name d.ty
    inputs rest ({ st with graph := g }.bind d.name id)

/-- The outputs that no statement has given a value. -/
def danglingOutputs (outputs : List Declaration) (st : State) : List CompileError :=
  (outputs.filter (fun o => (st.graph.output? o.name).isNone && !st.poisoned.contains o.name)).map
    (fun o => .danglingOutput o.name o.span)

/-- Lower a program; the errors are in the state. -/
def lower (r : Registry) (name : String) (p : Program) : Checked State := do
  let st ← inputs p.inputs (State.start name)
  let st ← statements r p.outputs Dict.empty p.statements st
  return { st with errors := st.errors ++ danglingOutputs p.outputs st }

/-! ### Warnings -/

/-- A warning for every output that no input reaches. -/
def unusedOutputs (g : Graph) : List Diagnostic :=
  (g.outputs.filter (fun p => !g.dependsOnInput p.node)).map (fun p =>
    { Diagnostic.warning .build .unusedOutput ("output '" ++ p.name ++ "' does not depend on any input") with
      node := some p.node })

/-- The nodes that reach an output. -/
def live (g : Graph) : List NodeId := g.outputs.flatMap (fun p => p.node :: g.ancestors p.node)

/-- A warning for every operation that reaches no output. -/
def unusedValues (g : Graph) : List Diagnostic :=
  let live := live g
  (g.nodes.filter (fun n => n.isOperation && !live.contains n.id)).map (fun n =>
    { Diagnostic.warning .build .unusedValue ("value '" ++ n.displayName ++ "' does not reach any output") with
      node := some n.id })

/-- The graph of a program, reporting into a list of diagnostics. -/
def build (r : Registry) (name : String) (p : Program) (sink : Diagnostics) :
    Checked (Except StageFailed Graph × Diagnostics) := do
  let st ← lower r name p
  let sink := sink ++ st.errors.map (·.diagnostic .build)
  match sink.check .build with
  | .error failed => return (.error failed, sink)
  | .ok _ => return (.ok st.graph, sink ++ unusedOutputs st.graph ++ unusedValues st.graph)

/-- The name of a graph where nothing else is said. -/
def defaultName : String := "program"

end Waveflow.Lowering
