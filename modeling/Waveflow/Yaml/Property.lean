import Waveflow.Yaml.Text.Quoted
import Waveflow.Yaml.Token

/-!
# Anchors, tags and directives

The names that a YAML text gives to nodes and to their types.  A tag is a handle and an ending; the
directives at the start of a document say what its handles stand for.
-/

namespace Waveflow.Yaml

/-- The name that comes next, which may be empty. -/
def name (cells : List Cell) : List Char := chars (cells.takeWhile (fun c => isWordChar c.char))

/-- The cells after the name that comes next. -/
def afterName (cells : List Cell) : List Cell := cells.dropWhile (fun c => isWordChar c.char)

/-! ### Anchors -/

/-- What may follow the name of an anchor. -/
def atAnchorEnd (cells : List Cell) : Bool :=
  atGap cells || (head? cells).any ['?', ':', ',', ']', '\x7d', '%', '@', '\x60'].contains

/-- The name of an anchor or of a reference to it, after its mark. -/
def anchor? (cells : List Cell) : Option (String × List Cell) :=
  if (name cells).isEmpty || !atAnchorEnd (afterName cells) then none
  else some (String.ofList (name cells), afterName cells)

/-! ### Tag texts -/

/-- An octet, written with a percent sign. -/
def octet? (cells : List Cell) : Option (Nat × List Cell) :=
  if head? cells == some '%' then (hexNumber? 2 cells.tail).map (fun n => (n, cells.drop 3)) else none

/-- The further octets of a character, each with six more bits of its code. -/
def octets? : Nat → Nat → List Cell → Option (Nat × List Cell)
  | 0, code, cells => some (code, cells)
  | n + 1, code, cells => do
    let (octet, rest) ← octet? cells
    if octet / 64 = 2 then octets? n (64 * code + octet % 64) rest else none

/-- The character of a code, which has to be worth the octets in which it is written. -/
def charFrom? (least : Nat) (code : Nat) : Option Char := if code < least then none else charOf? code

/-- A character written as octets: one after another, the first says how many.  It is none where they
have the right form, but are no character. -/
def octetChar? (cells : List Cell) : Option (Option Char × List Cell) := do
  let (first, rest) ← octet? cells
  let further (n low least : Nat) := (octets? n low rest).map (fun (code, r) => (charFrom? least code, r))
  if first < 128 then some (charOf? first, rest)
  else if first / 32 = 6 then further 1 (first % 32) 0x80
  else if first / 16 = 14 then further 2 (first % 16) 0x800
  else if first / 8 = 30 then further 3 (first % 8) 0x10000
  else none

/-- A character that stands for itself in a tag; the marks of sequences do so only where `wide` holds. -/
def isTagChar (wide : Bool) (c : Char) : Bool :=
  isWordChar c || (";/?:@&=+$.!~*\x27()".toList).contains c || (wide && (c == ',' || c == '[' || c == ']'))

/-- The characters of a part of a tag. -/
def tagChars? (wide : Bool) : Nat → List Cell → Option (List (Option Char) × List Cell)
  | 0, _ => none
  | fuel + 1, cells =>
    let next (c : Option Char) (rest : List Cell) :=
      (tagChars? wide fuel rest).map (fun (cs, rest) => (c :: cs, rest))
    match cells with
    | [] => some ([], [])
    | c :: rest =>
      if c.char == '%' then do
        let (d, rest) ← octetChar? cells
        next d rest
      else if isTagChar wide c.char then next (some c.char) rest
      else some ([], cells)

/-- The text of the characters of a tag, which ends before a null character. -/
def tagText? (cs : List (Option Char)) : Option String :=
  Json.textOf? (cs.takeWhile (· != some '\x00'))

/-- A part of a tag, which may be empty. -/
def tagPart? (wide : Bool) (cells : List Cell) : Option (List (Option Char) × List Cell) :=
  tagChars? wide (cells.length + 1) cells

/-- A part of a tag that is not empty. -/
def tagPart1? (wide : Bool) (cells : List Cell) : Option (List (Option Char) × List Cell) :=
  (tagPart? wide cells).filter (fun (cs, _) => !cs.isEmpty)

/-! ### Tags -/

/-- The handle with a name. -/
def handleOf (name : List Char) : String := String.ofList ('!' :: name ++ ['!'])

/-- A tag between angle brackets, after the first of them. -/
def fullTag? (cells : List Cell) : Option (Token × List Cell) := do
  let (cs, rest) ← tagPart1? true cells
  if head? rest == some '>' then some (.tag "" (tagText? cs), rest.tail) else none

/-- A tag with a handle, after the first mark of that: with a name between two marks, or the mark
alone. -/
def shortTag? (cells : List Cell) : Option (Token × List Cell) :=
  if head? (afterName cells) == some '!' then
    (tagPart1? false (afterName cells).tail).map
      (fun (cs, rest) => (.tag (handleOf (name cells)) (tagText? cs), rest))
  else
    (tagPart? false cells).map (fun (cs, rest) =>
      match tagText? cs with
      | some "" => (.tag "" (some "!"), rest)
      | text => (.tag "!" text, rest))

/-- A tag, after its first mark. -/
def tag? (inFlow : Bool) (cells : List Cell) : Option (Token × List Cell) := do
  let (token, rest) ← if head? cells == some '<' then fullTag? cells.tail else shortTag? cells
  if atGap rest || (inFlow && head? rest == some ',') then some (token, rest) else none

/-! ### Directives -/

/-- A number of at most nine digits. -/
def number? (cells : List Cell) : Option (Nat × List Cell) :=
  let digits := chars (cells.takeWhile (fun c => Json.isDigit c.char))
  if digits.isEmpty || 9 < digits.length then none
  else some (Decimal.natOf digits, cells.drop digits.length)

/-- The version of YAML. -/
def version? (cells : List Cell) : Option (Token × List Cell) := do
  let (major, rest) ← number? cells
  if head? rest == some '.' then
    let (minor, rest) ← number? rest.tail
    some (.version major minor, rest)
  else none

/-- A handle in a directive: a mark alone, or a name between two. -/
def handle? (cells : List Cell) : Option (String × List Cell) :=
  if head? cells == some '!' then
    let rest := afterName cells.tail
    if head? rest == some '!' then some (handleOf (name cells.tail), rest.tail)
    else if (name cells.tail).isEmpty then some ("!", rest)
    else none
  else none

/-- A handle and what it stands for. -/
def handleStem? (cells : List Cell) : Option (Token × List Cell) := do
  let (handle, rest) ← handle? cells
  if (head? rest).any isBlank then
    let (cs, rest) ← tagPart1? true (skipBlanks rest)
    if atGap rest then some (.handle handle (tagText? cs), rest) else none
  else none

/-- A directive and the rest of its line, after its mark. -/
def directive? (cells : List Cell) : Option (Token × List Cell) := do
  let rest := skipBlanks (afterName cells)
  let (token, rest) ← match String.ofList (name cells) with
    | "YAML" => version? rest
    | "TAG" => handleStem? rest
    | _ => none
  if atGap (afterName cells) then some (token, ← restOfLine? rest) else none

end Waveflow.Yaml
