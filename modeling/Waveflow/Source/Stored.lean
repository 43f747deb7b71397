import Waveflow.Source.Program

/-!
# Stored programs

Programs as JSON.  Places may be left out and are then nowhere.
-/

namespace Waveflow

namespace ArgumentValue

def toJson : ArgumentValue → Json
  | literal value => .obj [("Literal", value.toJson)]
  | identifier name => .obj [("Identifier", .str name)]

def ofJson? (j : Json) : Option ArgumentValue := do
  match ← j.variant? with
  | ("Literal", some value) => (Literal.ofJson? value).map literal
  | ("Identifier", some name) => name.str?.map identifier
  | _ => none

end ArgumentValue

namespace Argument

def toJson (a : Argument) : Json :=
  .obj [("name", .opt .str a.name), ("value", a.value.toJson), ("span", a.span.toJson)]

def ofJson? (j : Json) : Option Argument := do
  match ← j.record? ["name", "value", "span"] with
  | [name, value, span] =>
    some ⟨← Json.orElse none (Json.opt? Json.str?) name, ← Json.need ArgumentValue.ofJson? value,
      ← Json.orElse Span.nowhere Span.ofJson? span⟩
  | _ => none

end Argument

namespace Call

def toJson (c : Call) : Json :=
  .obj [("operation", .str c.operation), ("arguments", .list Argument.toJson c.arguments),
    ("span", c.span.toJson)]

def ofJson? (j : Json) : Option Call := do
  match ← j.record? ["operation", "arguments", "span"] with
  | [operation, arguments, span] =>
    some ⟨← Json.need Json.str? operation, ← Json.need (Json.list? Argument.ofJson?) arguments,
      ← Json.orElse Span.nowhere Span.ofJson? span⟩
  | _ => none

end Call

namespace Statement

mutual

def toJson : Statement → Json
  | assignment target c span =>
    .obj [("Assignment", .obj [("target", .str target), ("call", c.toJson), ("span", span.toJson)])]
  | call c => .obj [("Call", c.toJson)]
  | block label parameters body span =>
    .obj [("Block", .obj [("label", .str label), ("parameters", .list Argument.toJson parameters),
      ("statements", .arr (toJsonAll body)), ("span", span.toJson)])]

def toJsonAll : List Statement → List Json
  | [] => []
  | s :: rest => s.toJson :: toJsonAll rest

end

/-- A statement with blocks at most `depth` deep. -/
def ofJsonWithin? : Nat → Json → Option Statement
  | 0, _ => none
  | depth + 1, j => do
    match ← j.variant? with
    | ("Assignment", some content) =>
      match ← content.record? ["target", "call", "span"] with
      | [target, c, span] =>
        some (assignment (← Json.need Json.str? target) (← Json.need Call.ofJson? c)
          (← Json.orElse Span.nowhere Span.ofJson? span))
      | _ => none
    | ("Call", some content) => (Call.ofJson? content).map call
    | ("Block", some content) =>
      match ← content.record? ["label", "parameters", "statements", "span"] with
      | [label, parameters, statements, span] =>
        some (block (← Json.need Json.str? label) (← Json.orElse [] (Json.list? Argument.ofJson?) parameters)
          (← Json.need (Json.list? (ofJsonWithin? depth)) statements)
          (← Json.orElse Span.nowhere Span.ofJson? span))
      | _ => none
    | _ => none

end Statement

namespace Declaration

def directionText : Direction → String
  | .input => "input"
  | .output => "output"

def directionOfName? : String → Option Direction
  | "input" => some .input
  | "output" => some .output
  | _ => none

def toJson (d : Declaration) : Json :=
  .obj [("direction", .str (directionText d.direction)), ("name", .str d.name), ("ty", d.ty.toJson),
    ("span", d.span.toJson)]

def ofJson? (j : Json) : Option Declaration := do
  match ← j.record? ["direction", "name", "ty", "span"] with
  | [direction, name, ty, span] =>
    some ⟨← Json.need (Diagnostic.word? directionOfName?) direction, ← Json.need Json.str? name,
      ← Json.need ValueType.ofJson? ty, ← Json.orElse Span.nowhere Span.ofJson? span⟩
  | _ => none

end Declaration

namespace Program

def toJson (p : Program) : Json :=
  .obj [("declarations", .list Declaration.toJson p.declarations),
    ("statements", .arr (Statement.toJsonAll p.statements))]

/-- The deepest nesting of blocks in a stored program. -/
def storedDepth : Nat := 128

def ofJson? (j : Json) : Option Program := do
  match ← j.record? ["declarations", "statements"] with
  | [declarations, statements] =>
    some ⟨← Json.need (Json.list? Declaration.ofJson?) declarations,
      ← Json.need (Json.list? (Statement.ofJsonWithin? storedDepth)) statements⟩
  | _ => none

end Program

end Waveflow
