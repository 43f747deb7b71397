import Waveflow.Diagnostic

/-!
# Errors in a source text

Each constructor is one way in which a text breaks the rules of the language, from single characters
to the use of names.
-/

namespace Waveflow

/-- What is wrong with a source text, and where. -/
inductive SourceError where
  /-- A character that starts no token. -/
  | unexpectedCharacter (ch : Char) (span : Span)
  /-- A quoted text without its closing quote. -/
  | unterminatedString (span : Span)
  /-- A malformed number. -/
  | invalidNumber (text : String) (span : Span)
  /-- A token that the grammar does not allow. -/
  | unexpectedToken (expected found : String) (span : Span)
  /-- A type that does not exist. -/
  | invalidType (message : String) (span : Span)
  /-- A declaration after a statement. -/
  | lateDeclaration (name : String) (span : Span)
  /-- A name with two meanings. -/
  | duplicateName (name : String) (span : Span)
  /-- An assignment to an input. -/
  | assignToInput (name : String) (span : Span)
  /-- A call of something that cannot be called. -/
  | unknownOperation (name : String) (span : Span)
  /-- A parameter that the operation does not take. -/
  | unknownParameter (operation parameter : String) (span : Span)
  /-- A parameter that is given twice. -/
  | duplicateParameter (parameter : String) (span : Span)
  /-- A wrong number of operands. -/
  | arity (operation expected : String) (actual : Nat) (span : Span)
  /-- An argument of the wrong form or value. -/
  | invalidArgument (operation message : String) (span : Span)
  /-- A result that is thrown away. -/
  | discardedResult (operation : String) (span : Span)
  /-- A name that is neither declared nor assigned. -/
  | undeclaredIdentifier (name : String) (span : Span)
  /-- Blocks inside blocks beyond the limit. -/
  | nestingTooDeep (limit : Nat) (span : Span)
deriving Repr, DecidableEq

namespace SourceError

/-- The place of the error. -/
def span : SourceError → Span
  | unexpectedCharacter _ s | unterminatedString s | invalidNumber _ s | unexpectedToken _ _ s
  | invalidType _ s | lateDeclaration _ s | duplicateName _ s | assignToInput _ s
  | unknownOperation _ s | unknownParameter _ _ s | duplicateParameter _ s | arity _ _ _ s
  | invalidArgument _ _ s | discardedResult _ s | undeclaredIdentifier _ s | nestingTooDeep _ s => s

/-- The wording of the error. -/
def message (e : SourceError) : String :=
  let place := e.span.text
  match e with
  | unexpectedCharacter ch _ => "Unexpected character '" ++ ch.toString ++ "' at " ++ place
  | unterminatedString _ => "Unterminated string literal at " ++ place
  | invalidNumber text _ => "Invalid number '" ++ text ++ "' at " ++ place
  | unexpectedToken expected found _ => "Expected " ++ expected ++ ", found " ++ found ++ " at " ++ place
  | invalidType message _ => "Invalid type at " ++ place ++ ": " ++ message
  | lateDeclaration name _ => "Declaration of '" ++ name ++ "' at " ++ place ++ " follows a statement"
  | duplicateName name _ => "Duplicate name '" ++ name ++ "' at " ++ place
  | assignToInput name _ => "Cannot assign to input '" ++ name ++ "' at " ++ place
  | unknownOperation name _ => "Unknown operation '" ++ name ++ "' at " ++ place
  | unknownParameter operation parameter _ =>
    "Unknown parameter '" ++ parameter ++ "' for '" ++ operation ++ "' at " ++ place
  | duplicateParameter parameter _ => "Parameter '" ++ parameter ++ "' given twice at " ++ place
  | arity operation expected actual _ =>
    "'" ++ operation ++ "' takes " ++ expected ++ " operand(s), got " ++ toString actual ++ " at " ++ place
  | invalidArgument operation message _ =>
    "Invalid argument for '" ++ operation ++ "' at " ++ place ++ ": " ++ message
  | discardedResult operation _ =>
    "Result of '" ++ operation ++ "' at " ++ place ++
      " is discarded; only side-effecting operations may be called without assignment"
  | undeclaredIdentifier name _ => "Undeclared identifier '" ++ name ++ "' at " ++ place
  | nestingTooDeep limit _ => "Blocks nested deeper than " ++ toString limit ++ " levels at " ++ place

/-- The kind under which the error is reported. -/
def kind : SourceError → DiagnosticKind
  | undeclaredIdentifier _ _ => .referenceError
  | _ => .syntaxError

/-- The report of the error. -/
def diagnostic (e : SourceError) : Diagnostic :=
  { Diagnostic.error .parse e.kind e.message with span := some e.span }

end SourceError

end Waveflow
