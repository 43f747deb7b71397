import Waveflow.Json.Reader
import Waveflow.Yaml.Basic
import Waveflow.Yaml.Cell

/-!
# Quoted texts

Between single quotes two quotes stand for one; between double quotes a backslash starts an escape, and
one at the end of a line joins the line with the next.  Gaps are folded, and neither the end of the text
nor a line that bounds a document may come before the closing quote.
-/

namespace Waveflow.Yaml

/-- The two kinds of quotes. -/
inductive Quote where
  | single
  | double
deriving Repr, DecidableEq

namespace Quote

/-- The quote as a character. -/
def mark : Quote → Char
  | single => '\x27'
  | double => '"'

/-- The style of the scalars in such quotes. -/
def style : Quote → Style
  | single => .single
  | double => .double

end Quote

/-! ### Escapes -/

/-- The character of an escape of one letter. -/
def letterEscape? : Char → Option Char
  | '0' => some '\x00'
  | 'a' => some '\x07'
  | 'b' => some '\x08'
  | 't' => some '\t'
  | '\t' => some '\t'
  | 'n' => some '\n'
  | 'v' => some '\x0b'
  | 'f' => some '\x0c'
  | 'r' => some '\r'
  | 'e' => some '\x1b'
  | ' ' => some ' '
  | '"' => some '"'
  | '/' => some '/'
  | '\\' => some '\\'
  | 'N' => some '\x85'
  | '_' => some '\xa0'
  | 'L' => some '\u2028'
  | 'P' => some '\u2029'
  | _ => none

/-- How many hexadecimal digits follow a letter in an escape. -/
def escapeWidth? : Char → Option Nat
  | 'x' => some 2
  | 'u' => some 4
  | 'U' => some 8
  | _ => none

/-- The number of so many hexadecimal digits. -/
def hexNumber? (width : Nat) (cells : List Cell) : Option Nat :=
  let digits := cells.take width
  if digits.length < width then none
  else (digits.mapM (fun c => Json.hexValue? c.char)).map (fun ds => ds.foldl (fun acc d => 16 * acc + d) 0)

/-- The character of a code point. -/
def charOf? (code : Nat) : Option Char := if code.isValidChar then some (Char.ofNat code) else none

/-- The character of an escape, after its backslash. -/
def escaped? : List Cell → Option (Char × List Cell)
  | [] => none
  | c :: rest =>
    match escapeWidth? c.char with
    | some width => ((hexNumber? width rest).bind charOf?).map (fun d => (d, rest.drop width))
    | none => (letterEscape? c.char).map (fun d => (d, rest))

/-! ### Texts -/

/-- The next piece of a quoted text, which is not at its closing quote: a gap, an escape or a single
character, and what it stands for. -/
def piece? (quote : Quote) : List Cell → Option (List Char × List Cell)
  | [] => none
  | c :: rest =>
    if isSpace c.char then some (folded (gap (c :: rest)), afterGap (c :: rest))
    else if quote = .double && c.char == '\\' then
      if rest.head?.any (fun d => isBreak d.char) then some (breaks (gap rest.tail), afterGap rest.tail)
      else (escaped? rest).map (fun (d, rest) => ([d], rest))
    else some ([c.char], rest)

/-- The rest of a quoted text up to its closing quote. -/
def quotedText? (quote : Quote) : Nat → List Cell → Option (List Char × List Cell)
  | 0, _ => none
  | fuel + 1, cells =>
    let next (piece : List Char) (rest : List Cell) :=
      (quotedText? quote fuel rest).map (fun (text, rest) => (piece ++ text, rest))
    if atBoundary cells then none
    else if head? cells == some quote.mark then
      if quote = .single && head? cells.tail == some quote.mark then next [quote.mark] (cells.drop 2)
      else some ([], cells.tail)
    else do
      let (piece, rest) ← piece? quote cells
      next piece rest

/-- A quoted text, after its opening quote. -/
def quoted? (quote : Quote) (cells : List Cell) : Option (String × List Cell) :=
  (quotedText? quote (cells.length + 1) cells).map (fun (text, rest) => (String.ofList text, rest))

end Waveflow.Yaml
