import Waveflow.Double
import Waveflow.Json.Basic
import Waveflow.Decimal.Layout

/-!
# Literals

Numbers and quoted texts are the only literals of the language.
-/

namespace Waveflow

/-- A literal value. -/
inductive Literal where
  | number (value : Double)
  | text (value : String)
deriving Repr, BEq

namespace Literal

/-- The number, if it is one. -/
def number? : Literal → Option Double
  | number x => some x
  | text _ => none

/-- The text, if it is one. -/
def text? : Literal → Option String
  | text s => some s
  | number _ => none

/-- The largest 32-bit counter as a double. -/
def wordMax : Float := 4294967295.0

/-- The literal as a 32-bit counter of at least one. -/
def positive? (l : Literal) : Option Nat := do
  let x ← l.number?
  if 1.0 ≤ x.value && Decimal.isWhole x.value && x.value ≤ wordMax then some x.value.toUInt64.toNat else none

/-- The word for the kind of literal. -/
def typeName : Literal → String
  | number _ => "number"
  | text _ => "text"

/-- How a literal is written. -/
def display : Literal → String
  | number x => numberText x.value
  | text s => "\"" ++ s ++ "\""

def toJson : Literal → Json
  | number x => .float x.value
  | text s => .str s

def ofJson? (j : Json) : Option Literal :=
  match j with
  | .str s => some (text s)
  | j => j.float?.map (fun x => number (.ofFloat x))

end Literal

end Waveflow
