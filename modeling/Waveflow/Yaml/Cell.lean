/-!
# The characters of a YAML text

A YAML text is read as a list of cells: its characters with the line and the column in which they
stand.  A line ends with a line feed, a carriage return, both together or a next-line character, which
are all the same afterwards, or with a line or paragraph separator, which stay what they are.
-/

namespace Waveflow.Yaml

/-- A character and where it stands. -/
structure Cell where
  char : Char
  line : Nat
  column : Nat
deriving Repr, DecidableEq

/-! ### Kinds of characters -/

/-- A character that may stand in a text. -/
def isAllowed (c : Char) : Bool :=
  c == '\t' || c == '\n' || c == '\r' || ('\x20' ≤ c && c ≤ '\x7e') || c == '\x85' ||
    ('\xa0' ≤ c && c ≤ '\ufffd') || 0x10000 ≤ c.toNat

/-- A line break, after the breaks have been unified. -/
def isBreak (c : Char) : Bool := c == '\n' || c == '\u2028' || c == '\u2029'

def isBlank (c : Char) : Bool := c == ' ' || c == '\t'

/-- A blank or a line break. -/
def isSpace (c : Char) : Bool := isBlank c || isBreak c

/-- A mark of flow collections. -/
def isFlowMark (c : Char) : Bool := c == ',' || c == '[' || c == ']' || c == '\x7b' || c == '\x7d'

/-- A character of the names of anchors, of handles and of directives. -/
def isWordChar (c : Char) : Bool := c.isAlphanum || c == '_' || c == '-'

/-! ### Texts as cells -/

/-- The characters with the line breaks unified. -/
def unify : List Char → List Char
  | [] => []
  | '\r' :: '\n' :: rest => '\n' :: unify rest
  | c :: rest => (if c == '\r' || c == '\x85' then '\n' else c) :: unify rest

/-- The cells of characters from a place on. -/
def cellsFrom (line column : Nat) : List Char → List Cell
  | [] => []
  | c :: rest =>
    ⟨c, line, column⟩ :: if isBreak c then cellsFrom (line + 1) 0 rest else cellsFrom line (column + 1) rest

/-- The cells of a text, all of whose characters have to be allowed.  A byte order mark that comes first
is dropped, but keeps its column. -/
def cells? (text : String) : Option (List Cell) :=
  if text.toList.all isAllowed then
    match cellsFrom 0 0 (unify text.toList) with
    | [] => some []
    | c :: rest => some (if c.char == '\ufeff' then rest else c :: rest)
  else none

/-! ### Looking ahead -/

/-- The characters of cells. -/
def chars (cells : List Cell) : List Char := cells.map (·.char)

/-- The next character, if there is one. -/
def head? (cells : List Cell) : Option Char := (cells.head?).map (·.char)

/-- A blank, a line break or the end comes next. -/
def atGap (cells : List Cell) : Bool :=
  match cells with
  | [] => true
  | c :: _ => isSpace c.char

/-- A line break or the end comes next. -/
def atLineEnd (cells : List Cell) : Bool :=
  match cells with
  | [] => true
  | c :: _ => isBreak c.char

/-- Three times the character at the start of a line, and a gap. -/
def atMarker (mark : Char) : List Cell → Bool
  | a :: b :: c :: rest => a.column == 0 && a.char == mark && b.char == mark && c.char == mark && atGap rest
  | _ => false

/-- The start or the end of a document. -/
def atBoundary (cells : List Cell) : Bool := atMarker '-' cells || atMarker '.' cells


/-- The cells after blanks. -/
def skipBlanks (cells : List Cell) : List Cell := cells.dropWhile (fun c => isBlank c.char)

/-- The cells after the rest of a line on which there is nothing but blanks and a comment. -/
def restOfLine? (cells : List Cell) : Option (List Cell) :=
  let cells := skipBlanks cells
  let cells := if head? cells == some '#' then cells.dropWhile (fun c => !isBreak c.char) else cells
  if atLineEnd cells then some cells.tail else none

/-! ### Gaps -/

/-- The blanks and line breaks that come next. -/
def gap (cells : List Cell) : List Cell := cells.takeWhile (fun c => isSpace c.char)

/-- The cells after the blanks and line breaks that come next. -/
def afterGap (cells : List Cell) : List Cell := cells.dropWhile (fun c => isSpace c.char)

/-- The line breaks among cells. -/
def breaks (cells : List Cell) : List Char := (chars cells).filter isBreak

/-- What a gap inside a text stands for: blanks for themselves, a line feed for a blank, and a line feed
followed by further breaks for those. -/
def folded (gap : List Cell) : List Char :=
  match breaks gap with
  | [] => chars gap
  | ['\n'] => [' ']
  | '\n' :: more => more
  | all => all

end Waveflow.Yaml
