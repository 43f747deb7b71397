/-!
# Element kinds

The three kinds of values that flow through a program, each with its number of dimensions.
-/

namespace Waveflow

/-- What a value is made of. -/
inductive ElementKind where
  /-- A plain number. -/
  | scalar
  /-- A register with one dimension. -/
  | wave
  /-- A field with two dimensions. -/
  | field
deriving Repr, DecidableEq

namespace ElementKind

/-- The number of dimensions of the kind. -/
def arity : ElementKind → Nat
  | scalar => 0
  | wave => 1
  | field => 2

/-- The word for the kind. -/
def name : ElementKind → String
  | scalar => "scalar"
  | wave => "wave"
  | field => "field"

/-- The kind that a word stands for. -/
def ofName? : String → Option ElementKind
  | "scalar" => some scalar
  | "wave" => some wave
  | "field" => some field
  | _ => none

theorem ofName?_name (k : ElementKind) : ofName? k.name = some k := by
  cases k <;> rfl

end ElementKind

end Waveflow
