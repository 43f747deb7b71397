import Waveflow.Yaml.Cell

/-!
# Plain texts

A plain text is a run of words.  A word ends at a gap, at a colon before a gap and, inside of a flow
collection, at one of its marks.  The gaps between words are folded.  Outside of flow collections the
words of later lines have to be indented.
-/

namespace Waveflow.Yaml

/-- No word comes next. -/
def atWordEnd (inFlow : Bool) : List Cell → Bool
  | [] => true
  | c :: rest => isSpace c.char || (c.char == ':' && atGap rest) || (inFlow && isFlowMark c.char)

/-- A colon comes next that can neither be part of a word nor end it: in a flow collection, one before a
mark. -/
def atBadColon (inFlow : Bool) (cells : List Cell) : Bool :=
  inFlow && head? cells == some ':' && (head? cells.tail).any (fun c => isFlowMark c || c == '?')

/-- The word that comes next. -/
def word? (inFlow : Bool) : List Cell → Option (List Char × List Cell)
  | [] => some ([], [])
  | c :: rest =>
    if atBadColon inFlow (c :: rest) then none
    else if atWordEnd inFlow (c :: rest) then some ([], c :: rest)
    else (word? inFlow rest).map (fun (word, rest) => (c.char :: word, rest))

/-- A tab where the indentation of a line is expected. -/
def isTabbed (indent : Nat) (gap : List Cell) : Bool :=
  (gap.dropWhile (fun c => !isBreak c.char)).any (fun c => c.char == '\t' && c.column < indent)

/-- A plain text does not go on after a gap. -/
def atPlainEnd (inFlow : Bool) (indent : Nat) (cells : List Cell) : Bool :=
  atWordEnd inFlow cells || atBoundary cells || head? cells == some '#' ||
    (!inFlow && cells.head?.any (fun c => c.column < indent))

/-- The words of a plain text, and whether a line break follows them. -/
def words? (inFlow : Bool) (indent : Nat) : Nat → List Cell → Option (List Char × Bool × List Cell)
  | 0, _ => none
  | fuel + 1, cells => do
    let (word, rest) ← word? inFlow cells
    let next := afterGap rest
    if isTabbed indent (gap rest) then none
    else if atPlainEnd inFlow indent next then some (word, !(breaks (gap rest)).isEmpty, next)
    else
      let (text, broken, rest') ← words? inFlow indent fuel next
      some (word ++ folded (gap rest) ++ text, broken, rest')

/-- A plain text, whose later lines are indented by at least `indent`, and whether a line break follows
it.  The gap after it is skipped. -/
def plain? (inFlow : Bool) (indent : Nat) (cells : List Cell) : Option (String × Bool × List Cell) :=
  (words? inFlow indent (cells.length + 1) cells).map (fun (text, rest) => (String.ofList text, rest))

end Waveflow.Yaml
