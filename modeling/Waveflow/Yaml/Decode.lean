import Waveflow.Decimal.Reading
import Waveflow.Json.Reader
import Waveflow.Yaml.Basic

/-!
# Decoders of YAML values

The small decoders from which the readers of the other types are put together.  A number or a truth
value is a plain scalar; in a literal block it needs the tag of its type.  A text is any scalar.  Where
nothing is written there is an empty sequence, or a mapping without entries.  Tags matter only where a
value is one of several kinds: there the tag names the kind.
-/

namespace Waveflow.Yaml

/-! ### The texts of scalars -/

/-- A word for no value. -/
def isNullWord (text : String) : Bool := ["null", "Null", "NULL", "~"].contains text

/-- A truth value as text. -/
def boolText? (text : String) : Option Bool :=
  if ["true", "True", "TRUE"].contains text then some true
  else if ["false", "False", "FALSE"].contains text then some false
  else none

/-- The value of a digit in a base. -/
def digit? (base : Nat) (c : Char) : Option Nat := (Json.hexValue? c).filter (· < base)

/-- The number of at least one digit in a base. -/
def digits? (base : Nat) (cs : List Char) : Option Nat :=
  if cs.isEmpty then none
  else (cs.mapM (digit? base)).map (fun ds => ds.foldl (fun acc d => base * acc + d) 0)

/-- The characters after an optional plus. -/
def unsigned (cs : List Char) : List Char :=
  match cs with
  | '+' :: rest => rest
  | _ => cs

/-- A natural number: decimal without leading zeros, or in a base with its mark. -/
def natText? (text : String) : Option Nat :=
  match unsigned text.toList with
  | '0' :: 'x' :: rest => digits? 16 rest
  | '0' :: 'o' :: rest => digits? 8 rest
  | '0' :: 'b' :: rest => digits? 2 rest
  | ['0'] => some 0
  | '0' :: _ => none
  | cs => digits? 10 cs

/-- The exponent at the start of a text, which it has to fill. -/
def exponent? (cs : List Char) : Option Int :=
  match cs with
  | [] => some 0
  | c :: rest =>
    if c == 'e' || c == 'E' then
      match Json.exponent? rest with
      | some (e, []) => some e
      | _ => none
    else none

/-- An unsigned decimal: digits before or after the point, and an exponent. -/
def decimal? (cs : List Char) : Option Float :=
  let whole := cs.takeWhile Json.isDigit
  let rest := cs.dropWhile Json.isDigit
  let (fraction, rest) := match rest with
    | '.' :: more => (more.takeWhile Json.isDigit, more.dropWhile Json.isDigit)
    | _ => ([], rest)
  if whole.isEmpty && fraction.isEmpty then none
  else (exponent? rest).map (fun e => Decimal.Written.value ⟨whole, fraction, e⟩)

/-- A number as text. -/
def floatText? (text : String) : Option Float :=
  if [".inf", ".Inf", ".INF", "+.inf", "+.Inf", "+.INF"].contains text then some (1.0 / 0.0)
  else if ["-.inf", "-.Inf", "-.INF"].contains text then some (-1.0 / 0.0)
  else if [".nan", ".NaN", ".NAN"].contains text then some (0.0 / 0.0)
  else
    let value := match text.toList with
      | '-' :: rest => (decimal? rest).map (fun x => -x)
      | '+' :: rest => decimal? rest
      | cs => decimal? cs
    value.filter Float.isFinite

namespace Document

variable {α : Type}

/-! ### Scalars -/

/-- The text of any scalar. -/
def str? (d : Document) (y : Yaml) : Option String :=
  match d.follow y with
  | scalar _ _ _ text => some text
  | _ => none

/-- The text of a scalar that can be a value of a core type. -/
def valueText? (d : Document) (type : String) (y : Yaml) : Option String :=
  match d.follow y with
  | scalar _ _ .plain text => some text
  | scalar _ (some tag) .literal text => if tag = Tag.core type then some text else none
  | _ => none

/-- A truth value. -/
def bool? (d : Document) (y : Yaml) : Option Bool := (d.valueText? "bool" y).bind boolText?

/-- A whole number below `limit`. -/
def below? (limit : Nat) (d : Document) (y : Yaml) : Option Nat :=
  ((d.valueText? "int" y).bind natText?).filter (· < limit)

/-- A 32-bit counter. -/
def word? : Document → Yaml → Option Nat := below? wordLimit

/-- A 64-bit counter. -/
def long? : Document → Yaml → Option Nat := below? longLimit

/-- A number. -/
def float? (d : Document) (y : Yaml) : Option Float := (d.valueText? "float" y).bind floatText?

/-! ### Collections -/

/-- Nothing is written. -/
def isEmpty : Yaml → Bool
  | scalar _ _ .plain text => text == ""
  | _ => false

/-- A value that may be null.  A plain scalar with the tag of null has to be a word for it; one with
another tag is a value. -/
def opt? (f : Document → Yaml → Option α) (d : Document) (y : Yaml) : Option (Option α) :=
  match d.follow y with
  | scalar _ none .plain text => if text == "" || isNullWord text then some none else (f d y).map some
  | scalar _ (some tag) .plain text =>
    if tag = Tag.core "null" then (if isNullWord text then some none else none) else (f d y).map some
  | _ => (f d y).map some

/-- A sequence. -/
def list? (f : Document → Yaml → Option α) (d : Document) (y : Yaml) : Option (List α) :=
  match d.follow y with
  | seq _ _ items => items.mapM (f d)
  | y => if isEmpty y then some [] else none

/-- The entries of a mapping under the texts of their keys. -/
def fields? (d : Document) (y : Yaml) : Option (List (String × Yaml)) :=
  match d.follow y with
  | map _ _ entries => entries.mapM (fun (key, value) => (d.str? key).map (fun k => (k, value)))
  | y => if isEmpty y then some [] else none

/-- The entries of a mapping, in the order of `names`, `none` for those not given.  An entry given twice
is refused. -/
def record? (d : Document) (names : List String) (y : Yaml) : Option (List (Option Yaml)) := do
  let fields ← d.fields? y
  if names.all (fun n => (fields.filter (fun f => f.1 == n)).length ≤ 1) then
    some (names.map (fun n => List.lookup n fields))
  else none

/-- An entry that has to be given. -/
def need (d : Document) (f : Document → Yaml → Option α) : Option Yaml → Option α
  | some y => f d y
  | none => none

/-- An entry with a value to take when it is not given. -/
def orElse (d : Document) (default : α) (f : Document → Yaml → Option α) : Option Yaml → Option α
  | some y => f d y
  | none => some default

/-! ### Kinds of values -/

/-- The kind that a value names: by its tag, with the value as content, or a scalar by itself. -/
def variant? (d : Document) (y : Yaml) : Option (String × Option Yaml) :=
  match d.follow y with
  | scalar mark tag style text =>
    match tag.bind Tag.word? with
    | some word => some (word, some (scalar mark tag style text))
    | none => some (text, none)
  | seq mark tag items => (tag.bind Tag.word?).map (fun word => (word, some (seq mark tag items)))
  | map mark tag entries => (tag.bind Tag.word?).map (fun word => (word, some (map mark tag entries)))
  | reference _ => none

/-- The content of a kind that has none. -/
def isBare : Option Yaml → Bool
  | none => true
  | some (scalar _ _ .plain text) => text == "" || isNullWord text
  | _ => false

end Document

end Waveflow.Yaml
