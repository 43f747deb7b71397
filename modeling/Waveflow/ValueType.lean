import Waveflow.Refusal
import Waveflow.Json.Basic

/-!
# Value types

A value type is an element kind with a shape.  `ValueType.make` checks the shape against the kind.
-/

namespace Waveflow

/-- The type of a value. -/
structure ValueType where
  element : ElementKind
  shape : List Nat
deriving Repr, DecidableEq

namespace ValueType

/-- The type of plain numbers. -/
def scalar : ValueType := ⟨.scalar, []⟩

/-- The type with that shape, if the shape has the dimensions of the kind and none of them is zero. -/
def make (element : ElementKind) (shape : List Nat) : Except Refusal ValueType :=
  if shape.length ≠ element.arity then .error (.arity element shape.length)
  else match shape.findIdx? (· == 0) with
    | some position => .error (.zeroDimension position element)
    | none => .ok ⟨element, shape⟩

/-- The type of plain numbers, whatever its shape. -/
def isScalar (t : ValueType) : Bool := t.element == .scalar

/-- How a type is written. -/
def text (t : ValueType) : String :=
  if t.shape.isEmpty then t.element.name
  else t.element.name ++ "[" ++ String.intercalate ", " (t.shape.map toString) ++ "]"

def toJson (t : ValueType) : Json :=
  .obj [("element", .str t.element.name), ("shape", .list .nat t.shape)]

def elementOfJson? (j : Json) : Option ElementKind := do
  let (word, content) ← j.variant?
  if Json.isBare content then ElementKind.ofName? word else none

/-- A type as it is stored; its shape is not checked. -/
def ofJson? (j : Json) : Option ValueType := do
  match ← j.record? ["element", "shape"] with
  | [element, shape] =>
    let element ← Json.need elementOfJson? element
    let shape ← Json.orElse [] (Json.list? Json.long?) shape
    some ⟨element, shape⟩
  | _ => none

end ValueType

end Waveflow
