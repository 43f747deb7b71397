import Waveflow.Json.Reader
import Waveflow.Yaml.Cell

/-!
# Block texts

A block text is a run of lines with the same indentation.  Its header may give the indentation and say
what becomes of the line breaks at the end.  A literal text keeps its lines; in a folded one lines that
do not start with a blank are joined.
-/

namespace Waveflow.Yaml

/-- What becomes of the line breaks at the end: none, the first or all of them stay. -/
inductive Chomp where
  | strip
  | clip
  | keep
deriving Repr, DecidableEq

/-- A line of a block text: its characters, the break that ends it and those of the empty lines after
it. -/
structure Line where
  text : List Char
  stop : List Char
  blanks : List Char
deriving Repr, DecidableEq

/-! ### Headers -/

/-- The mark for the breaks at the end, if there is one. -/
def chompMark (cells : List Cell) : Chomp × List Cell :=
  match head? cells with
  | some '+' => (.keep, cells.tail)
  | some '-' => (.strip, cells.tail)
  | _ => (.clip, cells)

/-- The mark for the indentation, zero if there is none. -/
def indentMark? (cells : List Cell) : Option (Nat × List Cell) :=
  match head? cells with
  | some '0' => none
  | some c => some (if Json.isDigit c then (c.toNat - 48, cells.tail) else (0, cells))
  | none => some (0, cells)

/-- The header of a block text: its two marks in either order, and the rest of the line. -/
def blockHeader? (cells : List Cell) : Option (Chomp × Nat × List Cell) := do
  let (early, rest) ← indentMark? cells
  let (chomp, rest) := chompMark rest
  let (late, rest) ← if early = 0 then indentMark? rest else some (0, rest)
  let rest ← restOfLine? rest
  some (chomp, early + late, rest)

/-! ### Lines -/

/-- The breaks of the empty lines that come next, the width of the widest indentation among them and the
line after them, and that line without its indentation.  The indentation ends at the column `indent`, or
where the blanks end if that is zero.  It has no tabs. -/
def blankLines? (indent : Nat) : List Cell → Option (List Char × Nat × List Cell)
  | [] => some ([], 0, [])
  | c :: rest =>
    if isBlank c.char && (indent = 0 || c.column < indent) then
      if c.char == ' ' then blankLines? indent rest else none
    else if isBreak c.char then
      (blankLines? indent rest).map (fun (breaks, width, rest) => (c.char :: breaks, max c.column width, rest))
    else some ([], c.column, c :: rest)

/-- The lines at an indentation. -/
def lines? (indent : Nat) : Nat → List Cell → Option (List Line × List Cell)
  | 0, _ => none
  | fuel + 1, cells =>
    if cells.head?.any (fun c => c.column == indent) then do
      let text := cells.takeWhile (fun c => !isBreak c.char)
      let rest := cells.dropWhile (fun c => !isBreak c.char)
      let (blanks, _, next) ← blankLines? indent rest.tail
      let (more, rest') ← lines? indent fuel next
      some (⟨chars text, chars (rest.take 1), blanks⟩ :: more, rest')
    else some ([], cells)

/-! ### Texts -/

/-- The line starts with a blank. -/
def Line.isIndented (l : Line) : Bool := l.text.head?.any isBlank

/-- What stands between two lines. -/
def joint (folded : Bool) (a b : Line) : List Char :=
  if folded && a.stop == ['\n'] && !a.isIndented && !b.isIndented then
    if a.blanks.isEmpty then [' '] else a.blanks
  else a.stop ++ a.blanks

/-- The breaks that stay at the end. -/
def Chomp.ending : Chomp → Line → List Char
  | strip, _ => []
  | clip, l => l.stop
  | keep, l => l.stop ++ l.blanks

/-- The text of lines. -/
def joined (folded : Bool) (chomp : Chomp) : List Line → List Char
  | [] => []
  | [l] => l.text ++ chomp.ending l
  | a :: b :: rest => a.text ++ joint folded a b ++ joined folded chomp (b :: rest)

/-- A block text, after its opening mark, in a block collection at the column `outer` or in none. -/
def block? (folded : Bool) (outer : Option Nat) (cells : List Cell) : Option (String × List Cell) := do
  let (chomp, step, rest) ← blockHeader? cells
  let given := if step = 0 then 0 else outer.getD 0 + step
  let (blanks, width, rest) ← blankLines? given rest
  let least := (outer.map (· + 1)).getD 0
  let indent := if given = 0 then max (max width least) 1 else given
  let (lines, rest) ← lines? indent (rest.length + 1) rest
  let text := if lines.isEmpty then chomp.ending ⟨[], [], blanks⟩ else blanks ++ joined folded chomp lines
  some (String.ofList text, rest)

end Waveflow.Yaml
