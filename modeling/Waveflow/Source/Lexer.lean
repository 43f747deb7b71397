import Waveflow.Source.Token
import Waveflow.Source.Error
import Waveflow.Decimal.Reading

/-!
# From text to tokens

Blanks and `//` comments separate tokens.  Names are made of ASCII letters, digits and underscores;
numbers are decimals with an optional exponent; quoted texts know the escapes `\"` and `\\`.  The
longest token at the start of the text is taken, and places are counted along the characters that
have been taken.
-/

namespace Waveflow

/-! ### Places -/

/-- A place in a text: bytes from the start, line and column. -/
structure Cursor where
  offset : Nat
  line : Nat
  column : Nat
deriving Repr, DecidableEq

namespace Cursor

/-- The start of a text. -/
def start : Cursor := ⟨0, 1, 1⟩

/-- The place after a character. -/
def advance (p : Cursor) (c : Char) : Cursor :=
  if c = '\n' then ⟨p.offset + c.utf8Size, p.line + 1, 1⟩ else ⟨p.offset + c.utf8Size, p.line, p.column + 1⟩

/-- The place after some characters. -/
def after (p : Cursor) (cs : List Char) : Cursor := cs.foldl advance p

/-- The span of the characters that follow a place. -/
def spanOf (p : Cursor) (cs : List Char) : Span :=
  ⟨p.offset, (p.after cs).offset - p.offset, p.line, p.column⟩

end Cursor

/-! ### Classes of characters -/

namespace Lexer

def isBlank (c : Char) : Bool := c == ' ' || c == '\t' || c == '\n' || c == '\x0c' || c == '\r'

def isDigit (c : Char) : Bool := '0' ≤ c && c ≤ '9'

def isLetter (c : Char) : Bool := ('a' ≤ c && c ≤ 'z') || ('A' ≤ c && c ≤ 'Z')

/-- A character that can start a name. -/
def startsName (c : Char) : Bool := isLetter c || c == '_'

/-- A character that can go on a name. -/
def inName (c : Char) : Bool := isLetter c || isDigit c || c == '_'

/-! ### Separators -/

/-- Split off the blanks and comments at the start of a text; `comment` tells whether the start lies
inside a comment. -/
def separator (comment : Bool) : List Char → List Char × List Char
  | [] => ([], [])
  | c :: rest =>
    if comment then
      let (taken, left) := separator (c != '\n') rest
      (c :: taken, left)
    else if isBlank c then
      let (taken, left) := separator false rest
      (c :: taken, left)
    else if c == '/' && rest.head? == some '/' then
      let (taken, left) := separator true rest
      (c :: taken, left)
    else ([], c :: rest)

/-! ### Numbers -/

/-- The fraction at the start of a text: a point and at least one digit. -/
def fractionPart (cs : List Char) : List Char :=
  match cs with
  | '.' :: rest => if rest.takeWhile isDigit = [] then [] else '.' :: rest.takeWhile isDigit
  | _ => []

/-- The exponent mark at the start of a text, with its sign. -/
def exponentMark (cs : List Char) : List Char :=
  match cs with
  | c :: rest =>
    if c == 'e' || c == 'E' then
      match rest with
      | '+' :: _ => [c, '+']
      | '-' :: _ => [c, '-']
      | _ => [c]
    else []
  | [] => []

/-- The parts of a number at the start of a text. -/
structure NumberParts where
  whole : List Char
  fraction : List Char
  mark : List Char
  exponent : List Char
deriving Repr, DecidableEq

/-- Split a number off the start of a text. -/
def numberParts (cs : List Char) : NumberParts :=
  let whole := cs.takeWhile isDigit
  let rest := cs.drop whole.length
  let fraction := fractionPart rest
  let rest := rest.drop fraction.length
  let mark := exponentMark rest
  let rest := rest.drop mark.length
  ⟨whole, fraction, mark, if mark = [] then [] else rest.takeWhile isDigit⟩

namespace NumberParts

/-- The characters of the number. -/
def text (n : NumberParts) : List Char := n.whole ++ n.fraction ++ n.mark ++ n.exponent

/-- The value of the number. -/
def value (n : NumberParts) : Float :=
  let exponent : Int := Decimal.natOf n.exponent
  Decimal.Written.value
    ⟨n.whole, n.fraction.drop 1, if n.mark.getLast? = some '-' then -exponent else exponent⟩

end NumberParts

/-! ### Quoted texts -/

/-- The inside of a quoted text: the characters taken up to the closing quote, and the text meant.
When there is no closing quote on the line, the characters up to there. -/
abbrev Quoted := Except (List Char) (List Char × List Char)

/-- A quoted text with more characters in front. -/
def Quoted.after (taken : List Char) (meant : Char) : Quoted → Quoted
  | .ok (ts, ms) => .ok (taken ++ ts, meant :: ms)
  | .error ts => .error (taken ++ ts)

/-- Split the inside of a quoted text off the start of a text. -/
def quotedPart : List Char → Quoted
  | [] => .error []
  | '"' :: _ => .ok (['"'], [])
  | '\n' :: _ => .error []
  | '\\' :: '"' :: rest => (quotedPart rest).after ['\\', '"'] '"'
  | '\\' :: '\\' :: rest => (quotedPart rest).after ['\\', '\\'] '\\'
  | c :: rest => (quotedPart rest).after [c] c

/-! ### Tokens -/

/-- Why no token starts here, with the characters concerned. -/
inductive Flaw where
  | character (c : Char)
  | openString (taken : List Char)
  | number (taken : List Char)
deriving Repr, DecidableEq

namespace Flaw

/-- The error of a flaw at a place. -/
def error (place : Cursor) : Flaw → SourceError
  | character c => .unexpectedCharacter c (place.spanOf [c])
  | openString taken => .unterminatedString (place.spanOf taken)
  | number taken => .invalidNumber (String.ofList taken) (place.spanOf taken)

end Flaw

/-- The number at the start of a text.  A letter right after it makes it malformed. -/
def numberToken (cs : List Char) : Except Flaw (TokenKind × List Char) :=
  let parts := numberParts cs
  let rest := cs.drop parts.text.length
  if parts.mark ≠ [] ∧ parts.exponent = [] then .error (.number parts.text)
  else
    match rest with
    | c :: _ =>
      if startsName c then .error (.number (parts.text ++ rest.takeWhile inName))
      else if parts.value.isFinite then .ok (.number parts.value, parts.text)
      else .error (.number parts.text)
    | [] => if parts.value.isFinite then .ok (.number parts.value, parts.text) else .error (.number parts.text)

/-- The token at the start of a text that is neither empty nor starts with a separator, and the
characters it is made of. -/
def token (c : Char) (rest : List Char) : Except Flaw (TokenKind × List Char) :=
  if c = '"' then
    match quotedPart rest with
    | .ok (taken, meant) => .ok (.str (String.ofList meant), c :: taken)
    | .error taken => .error (.openString (c :: taken))
  else if isDigit c then numberToken (c :: rest)
  else if startsName c then
    let name := c :: rest.takeWhile inName
    .ok (.ident (String.ofList name), name)
  else match TokenKind.ofChar? c with
    | some kind => .ok (kind, [c])
    | none => .error (.character c)

/-- Read tokens from a place on. -/
def scan : Nat → Cursor → List Char → Except SourceError Tokens
  | 0, place, _ => .ok ⟨[], place.spanOf []⟩
  | fuel + 1, place, cs =>
    let (blank, rest) := separator false cs
    let place := place.after blank
    match rest with
    | [] => .ok ⟨[], place.spanOf []⟩
    | c :: more =>
      match token c more with
      | .error flaw => .error (flaw.error place)
      | .ok (kind, taken) => do
        let following ← scan fuel (place.after taken) (rest.drop taken.length)
        return ⟨⟨kind, place.spanOf taken⟩ :: following.tokens, following.ending⟩

end Lexer

/-- The tokens of a source text. -/
def tokenize (source : String) : Except SourceError Tokens :=
  let cs := source.toList
  Lexer.scan (cs.length + 1) Cursor.start cs

end Waveflow
