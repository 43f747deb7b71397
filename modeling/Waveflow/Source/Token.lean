import Waveflow.Diagnostic
import Waveflow.Decimal.Layout

/-!
# Tokens

The tokens of the language.  `input`, `output` and `maintain_coherence` are ordinary names; the
grammar gives them their meaning by their place.
-/

namespace Waveflow

/-- What a token is. -/
inductive TokenKind where
  | ident (name : String)
  | number (value : Float)
  | str (value : String)
  | colon
  | semi
  | comma
  | eq
  | minus
  | lparen
  | rparen
  | lbrace
  | rbrace
  | lbracket
  | rbracket
deriving Repr, BEq

namespace TokenKind

/-- How a token is written. -/
def text : TokenKind → String
  | ident name => name
  | number x => numberText x
  | str s => "\"" ++ s ++ "\""
  | colon => ":"
  | semi => ";"
  | comma => ","
  | eq => "="
  | minus => "-"
  | lparen => "("
  | rparen => ")"
  | lbrace => "\x7b"
  | rbrace => "\x7d"
  | lbracket => "["
  | rbracket => "]"

/-- How a token is called in messages. -/
def describe : TokenKind → String
  | ident name => "identifier '" ++ name ++ "'"
  | number x => "number " ++ numberText x
  | str s => "string \"" ++ s ++ "\""
  | kind => "'" ++ kind.text ++ "'"

/-- The token that a single character stands for. -/
def ofChar? : Char → Option TokenKind
  | ':' => some colon
  | ';' => some semi
  | ',' => some comma
  | '=' => some eq
  | '-' => some minus
  | '(' => some lparen
  | ')' => some rparen
  | '\x7b' => some lbrace
  | '\x7d' => some rbrace
  | '[' => some lbracket
  | ']' => some rbracket
  | _ => none

end TokenKind

/-- A token and its place. -/
structure Token where
  kind : TokenKind
  span : Span
deriving Repr, BEq

/-- A source text as tokens, with the place where it ends. -/
structure Tokens where
  tokens : List Token
  ending : Span
deriving Repr, BEq

/-- How the end of the text is written. -/
def endText : String := "<eof>"

/-- How the end of the text is called in messages. -/
def endDescription : String := "end of input"

end Waveflow
