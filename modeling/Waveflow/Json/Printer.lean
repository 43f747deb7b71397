import Waveflow.Json.Basic
import Waveflow.Decimal.Layout

/-!
# Writing JSON text

Text is written compactly, or with two blanks of indentation a level.  Fields keep their order.
-/

namespace Waveflow.Json

/-- Doubles in JSON text: positional from `10 ^ -5` up to `10 ^ 16`, always with a fraction or an
exponent, ties to even. -/
def number : Decimal.Layout := ⟨.even, true, some (-5, 16)⟩

/-- A lower-case hexadecimal digit. -/
def hexDigit (n : Nat) : Char :=
  if n < 10 then Char.ofNat (48 + n) else Char.ofNat (87 + n)

/-- A character inside a quoted text. -/
def escape (c : Char) : List Char :=
  match c with
  | '"' => ['\\', '"']
  | '\\' => ['\\', '\\']
  | '\n' => ['\\', 'n']
  | '\r' => ['\\', 'r']
  | '\t' => ['\\', 't']
  | '\x08' => ['\\', 'b']
  | '\x0c' => ['\\', 'f']
  | c =>
    if c.toNat < 32 then ['\\', 'u', '0', '0', hexDigit (c.toNat / 16), hexDigit (c.toNat % 16)] else [c]

/-- A quoted text. -/
def quote (s : String) : String :=
  String.ofList ('"' :: s.toList.flatMap escape ++ ['"'])

/-- A double; one that is not finite has no text of its own. -/
def floatText (x : Float) : String :=
  if x.isFinite then number.finite x else "null"

/-! ### Compact text -/

mutual

/-- The text of a value without blanks. -/
def compact : Json → String
  | null => "null"
  | bool b => if b then "true" else "false"
  | int n => toString n
  | float x => floatText x
  | str s => quote s
  | arr [] => "[]"
  | arr (x :: xs) => "[" ++ compact x ++ compactItems xs ++ "]"
  | obj [] => "\x7b\x7d"
  | obj ((name, x) :: fs) => "\x7b" ++ quote name ++ ":" ++ compact x ++ compactFields fs ++ "\x7d"
  | unreadable => "null"

/-- The items after the first. -/
def compactItems : List Json → String
  | [] => ""
  | x :: xs => "," ++ compact x ++ compactItems xs

/-- The fields after the first. -/
def compactFields : List (String × Json) → String
  | [] => ""
  | (name, x) :: fs => "," ++ quote name ++ ":" ++ compact x ++ compactFields fs

end

/-! ### Indented text -/

/-- A new line at a depth. -/
def newline (depth : Nat) : String :=
  String.ofList ('\n' :: List.replicate (2 * depth) ' ')

mutual

/-- The text of a value that stands at a depth. -/
def indented (depth : Nat) : Json → String
  | null => "null"
  | bool b => if b then "true" else "false"
  | int n => toString n
  | float x => floatText x
  | str s => quote s
  | arr [] => "[]"
  | arr (x :: xs) =>
    "[" ++ newline (depth + 1) ++ indented (depth + 1) x ++ indentedItems (depth + 1) xs ++ newline depth ++ "]"
  | obj [] => "\x7b\x7d"
  | obj ((name, x) :: fs) =>
    "\x7b" ++ newline (depth + 1) ++ quote name ++ ": " ++ indented (depth + 1) x ++
      indentedFields (depth + 1) fs ++ newline depth ++ "\x7d"
  | unreadable => "null"

/-- The items after the first. -/
def indentedItems (depth : Nat) : List Json → String
  | [] => ""
  | x :: xs => "," ++ newline depth ++ indented depth x ++ indentedItems depth xs

/-- The fields after the first. -/
def indentedFields (depth : Nat) : List (String × Json) → String
  | [] => ""
  | (name, x) :: fs =>
    "," ++ newline depth ++ quote name ++ ": " ++ indented depth x ++ indentedFields depth fs

end

/-- The text of a value, compact or indented. -/
def render (pretty : Bool) (j : Json) : String :=
  if pretty then indented 0 j else compact j

end Waveflow.Json
