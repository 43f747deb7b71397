import Waveflow.Checked

/-!
# JSON values

The value type, and the small decoders from which the readers of the other types are put together.
A record is read from an object by field name, or from an array by position; a tagged value is a bare
word or an object with one field.
-/

namespace Waveflow

/-- A JSON value.  Whole numbers and numbers with a fraction or exponent are kept apart.  A value that is
well written but stands for nothing, such as a text with half of a surrogate pair, is `unreadable`: no
decoder takes it, and it does no harm where nobody looks. -/
inductive Json where
  | null
  | bool (value : Bool)
  | int (value : Int)
  | float (value : Float)
  | str (value : String)
  | arr (items : List Json)
  | obj (fields : List (String × Json))
  | unreadable

namespace Json

instance : Inhabited Json := ⟨null⟩

/-! ### Writing -/

/-- A natural number. -/
def nat (n : Nat) : Json := int n

/-- A value, or `null` for none. -/
def opt {α : Type} (f : α → Json) : Option α → Json
  | some a => f a
  | none => null

/-- An array. -/
def list {α : Type} (f : α → Json) (xs : List α) : Json := arr (xs.map f)

/-- A field that is left out when there is no value. -/
def field? {α : Type} (name : String) (f : α → Json) : Option α → List (String × Json)
  | some a => [(name, f a)]
  | none => []

/-! ### Reading -/

/-- The first field of that name. -/
def get? (j : Json) (name : String) : Option Json :=
  match j with
  | obj fields => (fields.find? (fun f => f.1 == name)).map (·.2)
  | _ => none

def str? : Json → Option String
  | str s => some s
  | _ => none

def bool? : Json → Option Bool
  | bool b => some b
  | _ => none

/-- A whole number below `limit`. -/
def below? (limit : Nat) : Json → Option Nat
  | int n => if 0 ≤ n ∧ n.toNat < limit then some n.toNat else none
  | _ => none

/-- A 32-bit counter. -/
def word? : Json → Option Nat := below? wordLimit

/-- A 64-bit counter. -/
def long? : Json → Option Nat := below? longLimit

/-- The double nearest to a whole number of at most 64 bits. -/
def floatOfInt (n : Int) : Float :=
  if n < 0 then -(n.natAbs.toUInt64.toFloat) else n.toNat.toUInt64.toFloat

/-- Any number as a double. -/
def float? : Json → Option Float
  | int n => some (floatOfInt n)
  | float x => some x
  | _ => none

/-- An array whose items are all readable. -/
def list? {α : Type} (f : Json → Option α) : Json → Option (List α)
  | arr items => items.mapM f
  | _ => none

/-- A value, or `null` for none. -/
def opt? {α : Type} (f : Json → Option α) : Json → Option (Option α)
  | null => some none
  | j => (f j).map some

/-- The fields of a record, in the order of `names`; `none` stands for a field that is not given.
A field given twice, or an array with too many items, is refused. -/
def record? (names : List String) : Json → Option (List (Option Json))
  | obj fields =>
    if names.all (fun n => (fields.filter (fun f => f.1 == n)).length ≤ 1) then
      some (names.map (fun n => (fields.find? (fun f => f.1 == n)).map (·.2)))
    else none
  | arr items =>
    if items.length ≤ names.length then
      some (items.map some ++ List.replicate (names.length - items.length) none)
    else none
  | _ => none

/-- A field that has to be given. -/
def need {α : Type} (f : Json → Option α) : Option Json → Option α
  | some j => f j
  | none => none

/-- A field with a value to take when it is not given. -/
def orElse {α : Type} (default : α) (f : Json → Option α) : Option Json → Option α
  | some j => f j
  | none => some default

/-- The tag of a tagged value, with its content. -/
def variant? : Json → Option (String × Option Json)
  | str s => some (s, none)
  | obj [(name, content)] => some (name, some content)
  | _ => none

/-- The content of a tag that takes none. -/
def isBare : Option Json → Bool
  | none => true
  | some null => true
  | _ => false

/-- An object. -/
def isObject : Json → Bool
  | obj _ => true
  | _ => false

/-- The fields of a tagged record.  They are given by name; where `positional` holds an array will do
too, as for a record without a tag. -/
def content? (positional : Bool) (names : List String) (content : Option Json) : Option (List (Option Json)) := do
  let content ← content
  if positional || content.isObject then content.record? names else none

end Json

end Waveflow
