import Waveflow.Diagnostic
import Waveflow.Literal
import Waveflow.ValueType

/-!
# Programs

A program declares typed inputs and outputs and then computes, in statements: assignments, bare
calls, and blocks whose parameters hold for every call inside.
-/

namespace Waveflow

/-! ### Calls -/

/-- The value of an argument. -/
inductive ArgumentValue where
  | literal (value : Literal)
  | identifier (name : String)
deriving Repr, BEq

/-- An argument of a call or a block; one without a name is positional. -/
structure Argument where
  name : Option String
  value : ArgumentValue
  span : Span
deriving Repr, BEq

namespace Argument

def isPositional (a : Argument) : Bool := a.name.isNone

/-- The name that the argument refers to. -/
def identifier? (a : Argument) : Option String :=
  match a.value with
  | .identifier name => some name
  | .literal _ => none

/-- The literal that the argument is. -/
def literal? (a : Argument) : Option Literal :=
  match a.value with
  | .literal value => some value
  | .identifier _ => none

end Argument

/-- A call of an operation. -/
structure Call where
  operation : String
  arguments : List Argument
  span : Span
deriving Repr, BEq

namespace Call

def positional (c : Call) : List Argument := c.arguments.filter Argument.isPositional

def named (c : Call) : List Argument := c.arguments.filter (fun a => !a.isPositional)

/-- The first argument of that name. -/
def parameter? (c : Call) (name : String) : Option Argument := c.arguments.find? (·.name == some name)

end Call

/-! ### Statements and programs -/

/-- A statement. -/
inductive Statement where
  | assignment (target : String) (call : Call) (span : Span)
  | call (call : Call)
  | block (label : String) (parameters : List Argument) (body : List Statement) (span : Span)
deriving Repr

/-- Whether a declaration is an input or an output. -/
inductive Direction where
  | input
  | output
deriving Repr, DecidableEq

/-- A declared input or output. -/
structure Declaration where
  direction : Direction
  name : String
  ty : ValueType
  span : Span
deriving Repr, DecidableEq

/-- A program. -/
structure Program where
  declarations : List Declaration
  statements : List Statement
deriving Repr

/-- A part of a program, as a walk meets it. -/
inductive Part where
  | declaration (d : Declaration)
  | assignment (target : String) (call : Call) (span : Span)
  | call (c : Call)
  | block (label : String) (span : Span)
deriving Repr

namespace Part

/-- The word for the part. -/
def label : Part → String
  | declaration _ => "declaration"
  | assignment _ _ _ => "assignment"
  | call _ => "operation_call"
  | block _ _ => "block"

def span : Part → Span
  | declaration d => d.span
  | assignment _ _ s => s
  | call c => c.span
  | block _ s => s

end Part

namespace Statement

def span : Statement → Span
  | assignment _ _ s => s
  | call c => c.span
  | block _ _ _ s => s

mutual

/-- The parts of a statement in the order of the text. -/
def parts : Statement → List Part
  | assignment target c s => [.assignment target c s, .call c]
  | call c => [.call c]
  | block label _ body s => .block label s :: partsAll body

/-- The parts of several statements. -/
def partsAll : List Statement → List Part
  | [] => []
  | s :: rest => s.parts ++ partsAll rest

end

mutual

/-- The assignments of a statement, inside blocks too, as target and place. -/
def assignments : Statement → List (String × Span)
  | assignment target _ s => [(target, s)]
  | call _ => []
  | block _ _ body _ => assignmentsAll body

/-- The assignments of several statements. -/
def assignmentsAll : List Statement → List (String × Span)
  | [] => []
  | s :: rest => s.assignments ++ assignmentsAll rest

end

mutual

/-- The calls of a statement, inside blocks too. -/
def calls : Statement → List Call
  | assignment _ c _ => [c]
  | call c => [c]
  | block _ _ body _ => callsAll body

/-- The calls of several statements. -/
def callsAll : List Statement → List Call
  | [] => []
  | s :: rest => s.calls ++ callsAll rest

end

end Statement

namespace Program

def inputs (p : Program) : List Declaration := p.declarations.filter (·.direction == .input)

def outputs (p : Program) : List Declaration := p.declarations.filter (·.direction == .output)

/-- The first declaration of a name. -/
def declaration? (p : Program) (name : String) : Option Declaration := p.declarations.find? (·.name == name)

/-- All parts in the order of the text. -/
def parts (p : Program) : List Part :=
  p.declarations.map .declaration ++ Statement.partsAll p.statements

/-- The number of calls. -/
def callCount (p : Program) : Nat := (Statement.callsAll p.statements).length

end Program

end Waveflow
