import Waveflow.Dict
import Waveflow.Literal
import Waveflow.ValueType
import Waveflow.Graph.Budget
import Waveflow.Graph.Correction
import Waveflow.Operation.Spec

/-!
# Nodes

A node is an input, a constant or an operation, with edges from the nodes it uses, a type, the
literals of its call, and attributes: budgets, a protection requirement and the marks of passes.
-/

namespace Waveflow

/-! ### Attributes -/

/-- A mark left on a node. -/
inductive AttrValue where
  | flag (value : Bool)
  | number (value : Float)
  | text (value : String)
deriving Repr, BEq

namespace AttrValue

def toJson : AttrValue → Json
  | flag b => .bool b
  | number x => .float x
  | text s => .str s

def ofJson? (j : Json) : Option AttrValue :=
  match j with
  | .bool b => some (flag b)
  | .str s => some (text s)
  | j => j.float?.map number

end AttrValue

/-- Budgets, protection and marks of a node. -/
structure Attributes where
  coherence : Budget
  thermal : Budget
  correction : Correction
  extra : Dict AttrValue
deriving BEq

namespace Attributes

/-- No budget, no protection, no mark. -/
def plain : Attributes := ⟨.unbounded, .unbounded, .none, Dict.empty⟩

/-- Leave a mark. -/
def mark (a : Attributes) (key : String) (value : AttrValue) : Attributes :=
  { a with extra := a.extra.insert key value }

/-- The mark under a key. -/
def mark? (a : Attributes) (key : String) : Option AttrValue := a.extra.get? key

/-- The mark under the key is a raised flag. -/
def hasFlag (a : Attributes) (key : String) : Bool :=
  match a.mark? key with
  | some (.flag true) => true
  | _ => false

def dictToJson {α : Type} (f : α → Json) (d : Dict α) : Json :=
  .obj (d.entries.map (fun e => (e.1, f e.2)))

/-- A dictionary; of two fields of one name the later holds. -/
def dictOfJson? {α : Type} (f : Json → Option α) : Json → Option (Dict α)
  | .obj fields => (fields.mapM (fun e => (f e.2).map (fun v => (e.1, v)))).map Dict.ofList
  | _ => none

def toJson (a : Attributes) : Json :=
  .obj ([("coherence", a.coherence.toJson), ("thermal", a.thermal.toJson), ("correction", a.correction.toJson)] ++
    (if a.extra.isEmpty then [] else [("extra", dictToJson AttrValue.toJson a.extra)]))

def ofJson? (j : Json) : Option Attributes := do
  match ← j.record? ["coherence", "thermal", "correction", "extra"] with
  | [coherence, thermal, correction, extra] =>
    some ⟨← Json.orElse .unbounded Budget.ofJson? coherence, ← Json.orElse .unbounded Budget.ofJson? thermal,
      ← Json.orElse .none Correction.ofJson? correction,
      ← Json.orElse Dict.empty (dictOfJson? AttrValue.ofJson?) extra⟩
  | _ => none

end Attributes

/-! ### Kinds of nodes -/

/-- What a node is. -/
inductive NodeKind where
  /-- A declared input of the program. -/
  | input
  /-- A number. -/
  | constant (value : Double)
  /-- The result of an operation. -/
  | operation (op : OpKind)
deriving Repr, BEq

namespace NodeKind

/-- The operation, if it is one. -/
def op? : NodeKind → Option OpKind
  | operation op => some op
  | _ => none

/-- How a kind is written. -/
def label : NodeKind → String
  | input => "input"
  | constant value => "const(" ++ numberText value.value ++ ")"
  | operation op => op.text

def toJson : NodeKind → Json
  | input => .str "input"
  | constant value => .obj [("constant", .obj [("value", .float value.value)])]
  | operation op => .obj [("operation", op.toJson)]

def ofJson? (j : Json) : Option NodeKind := do
  match ← j.variant? with
  | ("input", content) => if Json.isBare content then some input else none
  | ("constant", content) =>
    match ← Json.content? false ["value"] content with
    | [value] => some (constant (.ofFloat (← Json.need Json.float? value)))
    | _ => none
  | ("operation", some op) => (OpKind.ofJson? op).map operation
  | _ => none

end NodeKind

/-! ### Nodes -/

/-- A node of a graph. -/
structure Node where
  id : NodeId
  /-- The name to which the source binds the value. -/
  name : Option String
  kind : NodeKind
  /-- The nodes whose values are used, in order. -/
  inputs : List NodeId
  ty : ValueType
  params : Params
  attrs : Attributes
deriving BEq

namespace Node

/-- A node without name, literals and attributes. -/
def plain (id : NodeId) (kind : NodeKind) (inputs : List NodeId) (ty : ValueType) : Node :=
  ⟨id, none, kind, inputs, ty, Dict.empty, Attributes.plain⟩

def op? (n : Node) : Option OpKind := n.kind.op?

def isInput (n : Node) : Bool := match n.kind with
  | .input => true
  | _ => false

def isConstant (n : Node) : Bool := match n.kind with
  | .constant _ => true
  | _ => false

def isOperation (n : Node) : Bool := match n.kind with
  | .operation _ => true
  | _ => false

/-- The name of a node in messages: that of the source, or its number. -/
def displayName (n : Node) : String := n.name.getD n.id.text

def toJson (n : Node) : Json :=
  .obj ([("id", .nat n.id)] ++ Json.field? "name" Json.str n.name ++
    [("kind", n.kind.toJson), ("inputs", .list .nat n.inputs), ("ty", n.ty.toJson)] ++
    (if n.params.isEmpty then [] else [("params", Attributes.dictToJson Literal.toJson n.params)]) ++
    [("attrs", n.attrs.toJson)])

def ofJson? (j : Json) : Option Node := do
  match ← j.record? ["id", "name", "kind", "inputs", "ty", "params", "attrs"] with
  | [id, name, kind, inputs, ty, params, attrs] =>
    some ⟨← Json.need Json.word? id, ← Json.orElse none (Json.opt? Json.str?) name,
      ← Json.need NodeKind.ofJson? kind, ← Json.orElse [] (Json.list? Json.word?) inputs,
      ← Json.need ValueType.ofJson? ty, ← Json.orElse Dict.empty (Attributes.dictOfJson? Literal.ofJson?) params,
      ← Json.orElse Attributes.plain Attributes.ofJson? attrs⟩
  | _ => none

end Node

end Waveflow
