import Waveflow.Json.Basic
import Waveflow.Decimal.Reading

/-!
# Reading JSON text

The grammar is strict: no trailing comma, no leading zero, no text after the value and no control
character in a quoted text.  A number too large for a double and a quoted text with half of a surrogate
pair are well written, but unreadable; so is an object in which the name of a field is.
-/

namespace Waveflow.Json

/-- The text after leading blanks. -/
def skipBlank (cs : List Char) : List Char :=
  cs.dropWhile (fun c => c == ' ' || c == '\n' || c == '\t' || c == '\r')

/-- The text after a fixed word. -/
def afterWord (word : List Char) (cs : List Char) : Option (List Char) :=
  if word.isPrefixOf cs then some (cs.drop word.length) else none

/-! ### Quoted text -/

/-- The value of a hexadecimal digit. -/
def hexValue? (c : Char) : Option Nat :=
  if '0' ≤ c ∧ c ≤ '9' then some (c.toNat - 48)
  else if 'a' ≤ c ∧ c ≤ 'f' then some (c.toNat - 87)
  else if 'A' ≤ c ∧ c ≤ 'F' then some (c.toNat - 55)
  else none

/-- The number of four hexadecimal digits. -/
def hexWord? : List Char → Option (Nat × List Char)
  | a :: b :: c :: d :: rest => do
    let a ← hexValue? a
    let b ← hexValue? b
    let c ← hexValue? c
    let d ← hexValue? d
    some (4096 * a + 256 * b + 16 * c + d, rest)
  | _ => none

/-- The second half of a surrogate pair, written as an escape. -/
def lowHalf? : List Char → Option (Nat × List Char)
  | '\\' :: 'u' :: rest => (hexWord? rest).filter (fun (low, _) => 0xDC00 ≤ low && low < 0xE000)
  | _ => none

/-- The character of an escape, after its backslash: none for half of a surrogate pair. -/
def escaped? : List Char → Option (Option Char × List Char)
  | '"' :: rest => some (some '"', rest)
  | '\\' :: rest => some (some '\\', rest)
  | '/' :: rest => some (some '/', rest)
  | 'b' :: rest => some (some '\x08', rest)
  | 'f' :: rest => some (some '\x0c', rest)
  | 'n' :: rest => some (some '\n', rest)
  | 'r' :: rest => some (some '\r', rest)
  | 't' :: rest => some (some '\t', rest)
  | 'u' :: rest => do
    let (high, rest) ← hexWord? rest
    if 0xD800 ≤ high ∧ high < 0xDC00 then
      match lowHalf? rest with
      | some (low, rest) => some (some (Char.ofNat (0x10000 + (high - 0xD800) * 1024 + (low - 0xDC00))), rest)
      | none => some (none, rest)
    else if 0xDC00 ≤ high ∧ high < 0xE000 then some (none, rest)
    else some (some (Char.ofNat high), rest)
  | _ => none

/-- The characters of the rest of a quoted text up to its closing quote. -/
def quoted? : Nat → List Char → Option (List (Option Char) × List Char)
  | 0, _ => none
  | _ + 1, [] => none
  | fuel + 1, c :: rest =>
    if c = '"' then some ([], rest)
    else if c = '\\' then do
      let (d, rest) ← escaped? rest
      let (ds, rest) ← quoted? fuel rest
      some (d :: ds, rest)
    else if c.toNat < 32 then none
    else do
      let (ds, rest) ← quoted? fuel rest
      some (some c :: ds, rest)

/-- The text of characters, if all of them are characters. -/
def textOf? (cs : List (Option Char)) : Option String := (cs.mapM id).map String.ofList

/-- A quoted text, or what cannot be read as one. -/
def ofText (text : Option String) : Json :=
  match text with
  | some s => str s
  | none => unreadable

/-- An object, unless the name of one of its fields is no text. -/
def ofFields (fields : List (Option String × Json)) : Json :=
  match fields.mapM (fun f => f.1.map (fun name => (name, f.2))) with
  | some fs => obj fs
  | none => unreadable

/-! ### Numbers -/

/-- An ASCII digit. -/
def isDigit (c : Char) : Bool := '0' ≤ c && c ≤ '9'

/-- The digits at the start of a text, at least one. -/
def digits? (cs : List Char) : Option (List Char × List Char) :=
  match cs.takeWhile isDigit with
  | [] => none
  | d :: ds => some (d :: ds, cs.dropWhile isDigit)

/-- The whole part of a number: a zero stands alone. -/
def whole? (cs : List Char) : Option (List Char × List Char) :=
  match cs with
  | '0' :: rest =>
    match rest with
    | c :: _ => if isDigit c then none else some (['0'], rest)
    | [] => some (['0'], [])
  | _ => digits? cs

/-- The exponent after its mark. -/
def exponent? (cs : List Char) : Option (Int × List Char) :=
  match cs with
  | '+' :: rest => (digits? rest).map (fun (ds, r) => ((Decimal.natOf ds : Int), r))
  | '-' :: rest => (digits? rest).map (fun (ds, r) => (-(Decimal.natOf ds : Int), r))
  | _ => (digits? cs).map (fun (ds, r) => ((Decimal.natOf ds : Int), r))

/-- The fraction of a number, if it has one. -/
def fraction? (cs : List Char) : Option (Option (List Char) × List Char) :=
  match cs with
  | '.' :: rest => (digits? rest).map (fun (ds, r) => (some ds, r))
  | _ => some (none, cs)

/-- The exponent of a number with its mark, if it has one. -/
def scale? (cs : List Char) : Option (Option Int × List Char) :=
  match cs with
  | 'e' :: rest => (exponent? rest).map (fun (e, r) => (some e, r))
  | 'E' :: rest => (exponent? rest).map (fun (e, r) => (some e, r))
  | _ => some (none, cs)

/-- A decimal as a double, if there is one. -/
def ofDecimal (negative : Bool) (w : Decimal.Written) : Json :=
  match w.scaledValue with
  | some x => float (if negative then -x else x)
  | none => unreadable

/-- The number of its parts.  A whole number of at most 64 bits stays whole. -/
def ofParts (negative : Bool) (whole : List Char) (rest : Option (List Char × Int)) : Json :=
  match rest with
  | none =>
    let n := Decimal.natOf whole
    if negative then
      if 0 < n ∧ n ≤ 9223372036854775808 then int (-(n : Int))
      else if n < longLimit then float (-(n.toUInt64.toFloat))
      else ofDecimal negative ⟨whole, [], 0⟩
    else if n < longLimit then int n
    else ofDecimal negative ⟨whole, [], 0⟩
  | some (fraction, exponent) => ofDecimal negative ⟨whole, fraction, exponent⟩

/-- A number after its sign. -/
def unsigned? (negative : Bool) (cs : List Char) : Option (Json × List Char) := do
  let (whole, rest) ← whole? cs
  let (fraction, rest) ← fraction? rest
  let (exponent, rest) ← scale? rest
  match fraction, exponent with
  | none, none => some (ofParts negative whole none, rest)
  | _, _ => some (ofParts negative whole (some (fraction.getD [], exponent.getD 0)), rest)

/-- A number. -/
def number? (cs : List Char) : Option (Json × List Char) :=
  match cs with
  | '-' :: rest => unsigned? true rest
  | _ => unsigned? false cs

/-! ### Values -/

mutual

/-- A value at the start of a text. -/
def value? : Nat → List Char → Option (Json × List Char)
  | 0, _ => none
  | fuel + 1, cs =>
    match skipBlank cs with
    | 'n' :: rest => (afterWord ['u', 'l', 'l'] rest).map (fun r => (null, r))
    | 't' :: rest => (afterWord ['r', 'u', 'e'] rest).map (fun r => (bool true, r))
    | 'f' :: rest => (afterWord ['a', 'l', 's', 'e'] rest).map (fun r => (bool false, r))
    | '"' :: rest => (quoted? (rest.length + 1) rest).map (fun (s, r) => (ofText (textOf? s), r))
    | '[' :: rest =>
      match skipBlank rest with
      | ']' :: rest => some (arr [], rest)
      | _ => (items? fuel rest).map (fun (xs, r) => (arr xs, r))
    | '\x7b' :: rest =>
      match skipBlank rest with
      | '\x7d' :: rest => some (obj [], rest)
      | _ => (fields? fuel rest).map (fun (fs, r) => (ofFields fs, r))
    | cs => number? cs

/-- The items of an array up to its end. -/
def items? : Nat → List Char → Option (List Json × List Char)
  | 0, _ => none
  | fuel + 1, cs => do
    let (x, rest) ← value? fuel cs
    match skipBlank rest with
    | ',' :: rest =>
      let (xs, rest) ← items? fuel rest
      some (x :: xs, rest)
    | ']' :: rest => some ([x], rest)
    | _ => none

/-- The fields of an object up to its end. -/
def fields? : Nat → List Char → Option (List (Option String × Json) × List Char)
  | 0, _ => none
  | fuel + 1, cs =>
    match skipBlank cs with
    | '"' :: rest => do
      let (name, rest) ← quoted? (rest.length + 1) rest
      match skipBlank rest with
      | ':' :: rest =>
        let (x, rest) ← value? fuel rest
        match skipBlank rest with
        | ',' :: rest =>
          let (fs, rest) ← fields? fuel rest
          some ((textOf? name, x) :: fs, rest)
        | '\x7d' :: rest => some ([(textOf? name, x)], rest)
        | _ => none
      | _ => none
    | _ => none

end

/-- The value of a whole text. -/
def parse? (text : String) : Option Json :=
  let cs := text.toList
  match value? (2 * cs.length + 2) cs with
  | some (j, rest) => if (skipBlank rest).isEmpty then some j else none
  | none => none

end Waveflow.Json
