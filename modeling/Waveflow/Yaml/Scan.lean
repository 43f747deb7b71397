import Waveflow.Yaml.Property
import Waveflow.Yaml.Text.Block
import Waveflow.Yaml.Text.Plain

/-!
# From texts to YAML tokens

The tokens are found from left to right.  A block collection starts where an entry or a key stands
further to the right than the collections around it, and ends where a token stands further to the left.
That a node is a key shows only at the colon after it: until then it is a candidate, and the tokens for
it are put in front of it afterwards.
-/

namespace Waveflow.Yaml

/-- A node that can still turn out to be a key: the number of tokens in front of it and where it
starts.  If it is required it has to be one. -/
structure Candidate where
  before : Nat
  line : Nat
  column : Nat
  required : Bool
deriving Repr, DecidableEq

namespace Candidate

/-- A key ends on the line on which it starts, and within 1024 characters. -/
def isStale (k : Candidate) (c : Cell) : Bool := k.line < c.line || k.column + 1024 < c.column

/-- The candidates that are left when a place has been reached. -/
def expire? (c : Cell) : Option Candidate → Option (Option Candidate)
  | some k => if k.isStale c then (if k.required then none else some none) else some (some k)
  | none => some none

end Candidate

/-- A scan in progress. -/
structure Scan where
  /-- What is still to be read. -/
  rest : List Cell
  /-- The tokens found, the last first. -/
  tokens : List Token
  /-- The columns of the open block collections, the innermost first. -/
  columns : List Nat
  /-- The candidate of the innermost flow collection, or outside of all of them. -/
  candidate : Option Candidate
  /-- The candidates around the open flow collections, the innermost first. -/
  outer : List (Option Candidate)
  /-- A key can start here. -/
  keyAllowed : Bool

namespace Scan

/-- The scan at the start of a text. -/
def start (cells : List Cell) : Scan := ⟨cells, [], [], none, [], true⟩

/-- A flow collection is open. -/
def inFlow (s : Scan) : Bool := !s.outer.isEmpty

/-- The least column to the right of the open block collections. -/
def indent (s : Scan) : Nat := (s.columns.head?.map (· + 1)).getD 0

/-! ### Between tokens -/

/-- Skip blanks, line breaks and comments.  A key is allowed after a line break, and tabs may not stand
where a key is allowed, both outside of flow collections only. -/
def skipGap (inFlow : Bool) : Bool → Bool → List Cell → Bool × List Cell
  | _, keyAllowed, [] => (keyAllowed, [])
  | comment, keyAllowed, c :: rest =>
    if isBreak c.char then skipGap inFlow false (keyAllowed || !inFlow) rest
    else if comment || c.char == ' ' || (c.char == '\t' && (inFlow || !keyAllowed)) then
      skipGap inFlow comment keyAllowed rest
    else if c.char == '#' then skipGap inFlow true keyAllowed rest
    else (keyAllowed, c :: rest)

/-- The scan at the start of the next token. -/
def atNext (s : Scan) : Scan :=
  let (keyAllowed, rest) := skipGap s.inFlow false s.keyAllowed s.rest
  { s with keyAllowed, rest }

/-- Give up the candidates that can no longer be keys. -/
def expire? (c : Cell) (s : Scan) : Option Scan := do
  some { s with candidate := ← Candidate.expire? c s.candidate, outer := ← s.outer.mapM (Candidate.expire? c) }

/-! ### Block collections -/

/-- Add a token. -/
def add (t : Token) (s : Scan) : Scan := { s with tokens := t :: s.tokens }

/-- Put a token behind the first `before` ones. -/
def insert (before : Nat) (t : Token) (s : Scan) : Scan :=
  let later := s.tokens.length - before
  { s with tokens := s.tokens.take later ++ t :: s.tokens.drop later }

/-- End the block collections of which the column satisfies `p`, from the innermost on. -/
def close (p : Nat → Bool) (s : Scan) : Scan :=
  if s.inFlow then s
  else
    let closed := s.columns.takeWhile p
    { s with columns := s.columns.dropWhile p, tokens := closed.map (fun _ => .blockEnd) ++ s.tokens }

/-- Start a block collection behind the first `before` tokens, if its column is to the right of the open
ones. -/
def openAt (before : Nat) (t : Token) (column : Nat) (s : Scan) : Scan :=
  if !s.inFlow && s.indent ≤ column then { s.insert before t with columns := column :: s.columns } else s

/-- Start a block collection with the next token.  Outside of flow collections it has to be where a key is
allowed. -/
def openHere? (t : Token) (c : Cell) (s : Scan) : Option Scan :=
  if s.inFlow || s.keyAllowed then some (s.openAt s.tokens.length t c.column) else none

/-! ### Keys -/

/-- Give up the candidate, which may not be required. -/
def dropKey? (s : Scan) : Option Scan :=
  if s.candidate.any (·.required) then none else some { s with candidate := none }

/-- Make the next node a candidate, if a key is allowed. -/
def saveKey? (c : Cell) (s : Scan) : Option Scan :=
  if s.keyAllowed then do
    let s ← s.dropKey?
    let required := !s.inFlow && s.columns.head? == some c.column
    some { s with candidate := some ⟨s.tokens.length, c.line, c.column, required⟩ }
  else some s

/-- Say whether a key is allowed next. -/
def allowKey (b : Bool) (s : Scan) : Scan := { s with keyAllowed := b }

/-- Go on at a place. -/
def goTo (rest : List Cell) (s : Scan) : Scan := { s with rest }

/-! ### Tokens -/

/-- The start of a flow collection. -/
def openFlow? (t : Token) (c : Cell) (s : Scan) : Option Scan := do
  let s ← s.saveKey? c
  some ({ s with outer := s.candidate :: s.outer, candidate := none }.add t |>.allowKey true)

/-- The end of a flow collection. -/
def closeFlow? (t : Token) (s : Scan) : Option Scan := do
  let s ← s.dropKey?
  let s := match s.outer with
    | k :: outer => { s with candidate := k, outer }
    | [] => s
  some (s.add t |>.allowKey false)

/-- The mark between the entries of a flow collection. -/
def comma? (s : Scan) : Option Scan := s.dropKey?.map (fun s => s.add .comma |>.allowKey true)

/-- The mark of an entry of a block sequence. -/
def entry? (c : Cell) (s : Scan) : Option Scan := do
  let s ← (← s.openHere? .blockSequence c).dropKey?
  some (s.add .entry |>.allowKey true)

/-- The mark of a key. -/
def key? (c : Cell) (s : Scan) : Option Scan := do
  let s ← (← s.openHere? .blockMapping c).dropKey?
  some (s.add .key |>.allowKey (!s.inFlow))

/-- The mark of a value: the candidate is a key, or the key has a mark of its own or is missing. -/
def value? (c : Cell) (s : Scan) : Option Scan :=
  match s.candidate with
  | some k =>
    let s := { s.insert k.before .key with candidate := none }
    some ((s.openAt k.before .blockMapping k.column).add .value |>.allowKey false)
  | none => do
    let s ← s.openHere? .blockMapping c
    some (s.add .value |>.allowKey (!s.inFlow))

/-- The directives and the bounds of documents end all block collections. -/
def bound? (t : Token) (s : Scan) : Option Scan :=
  (s.close (fun _ => true)).dropKey?.map (fun s => s.add t |>.allowKey false)

/-- A token of a node that has been read. -/
def node? (c : Cell) (read : Option (Token × List Cell)) (s : Scan) : Option Scan := do
  let s ← s.saveKey? c
  let (t, rest) ← read
  some (s.add t |>.allowKey false |>.goTo rest)

/-- A block text, after its mark. -/
def blockText? (style : Style) (rest : List Cell) (s : Scan) : Option Scan := do
  let s ← s.dropKey?
  let (text, rest) ← block? (style = .folded) s.columns.head? rest
  some (s.add (.scalar style text) |>.allowKey true |>.goTo rest)

/-- A plain text. -/
def plainText? (c : Cell) (rest : List Cell) (s : Scan) : Option Scan := do
  let s ← s.saveKey? c
  let (text, broken, rest) ← plain? s.inFlow s.indent (c :: rest)
  some (s.add (.scalar .plain text) |>.allowKey broken |>.goTo rest)

/-- A plain text can start with a character before others. -/
def isPlainStart (inFlow : Bool) (c : Char) (rest : List Cell) : Bool :=
  match c with
  | '-' => !atGap rest
  | '?' | ':' => !inFlow && !atGap rest
  | _ => !isSpace c && !isFlowMark c && !("#&*!|>\x27\"%@\x60".toList).contains c

/-- The token that starts with a cell. -/
def token? (c : Cell) (rest : List Cell) (s : Scan) : Option Scan :=
  if c.column == 0 && c.char == '%' then do
    let (t, rest) ← directive? rest
    (s.bound? t).map (goTo rest)
  else if atMarker '-' (c :: rest) then (s.bound? .documentStart).map (goTo (rest.drop 2))
  else if atMarker '.' (c :: rest) then (s.bound? .documentEnd).map (goTo (rest.drop 2))
  else
    let read (s : Option Scan) := s.map (goTo rest)
    match c.char with
    | '[' => read (s.openFlow? .flowSequence c)
    | '\x7b' => read (s.openFlow? .flowMapping c)
    | ']' => read (s.closeFlow? .flowSequenceEnd)
    | '\x7d' => read (s.closeFlow? .flowMappingEnd)
    | ',' => read s.comma?
    | '*' => s.node? c ((anchor? rest).map (fun (name, r) => (.reference name, r)))
    | '&' => s.node? c ((anchor? rest).map (fun (name, r) => (.anchor name, r)))
    | '!' => s.node? c (tag? s.inFlow rest)
    | '\x27' => s.node? c ((quoted? .single rest).map (fun (text, r) => (.scalar .single text, r)))
    | '"' => s.node? c ((quoted? .double rest).map (fun (text, r) => (.scalar .double text, r)))
    | '|' => if s.inFlow then none else s.blockText? .literal rest
    | '>' => if s.inFlow then none else s.blockText? .folded rest
    | _ =>
      if c.char == '-' && atGap rest then read (s.entry? c)
      else if c.char == '?' && (s.inFlow || atGap rest) then read (s.key? c)
      else if c.char == ':' && (s.inFlow || atGap rest) then read (s.value? c)
      else if isPlainStart s.inFlow c.char rest then s.plainText? c rest
      else none

/-- All tokens of the text. -/
def run? : Nat → Scan → Option (List Token)
  | 0, _ => none
  | fuel + 1, s =>
    let s := s.atNext
    match s.rest with
    | [] => (s.close (fun _ => true)).dropKey?.map (fun s => s.tokens.reverse)
    | c :: rest => do
      let s ← s.expire? c
      run? fuel (← (s.close (c.column < ·)).token? c rest)

end Scan

/-- The tokens of a text. -/
def tokens? (text : String) : Option (List Token) := do
  let cells ← cells? text
  (Scan.start cells).run? (cells.length + 1)

end Waveflow.Yaml
