import Waveflow.Source.Error
import Waveflow.Source.Lexer
import Waveflow.Source.Parser
import Waveflow.Operation.Registry

/-!
# Rules on names and calls

What a program has to satisfy beyond the grammar: names have one meaning, calls fit the operations of
a registry, and block parameters are literals of the common parameters.  `Rules.check` lists every
breach, those on names first and then those on statements in the order of the text.
-/

namespace Waveflow.Rules

/-! ### Names -/

/-- The names of a program: its inputs, its outputs, everything known and everything assigned. -/
structure Names where
  inputs : List String
  outputs : List String
  known : List String
  assigned : List String

/-- No names. -/
def Names.none : Names := ⟨[], [], [], []⟩

/-- Declare a name that is new. -/
def declare (acc : Names × List SourceError) (d : Declaration) : Names × List SourceError :=
  let (names, errors) := acc
  if names.known.contains d.name then (names, errors ++ [.duplicateName d.name d.span])
  else
    let names := { names with known := d.name :: names.known }
    match d.direction with
    | .input => ({ names with inputs := d.name :: names.inputs }, errors)
    | .output => ({ names with outputs := d.name :: names.outputs }, errors)

/-- Assign a name: an output once, a new name once, an input never. -/
def assign (acc : Names × List SourceError) (a : String × Span) : Names × List SourceError :=
  let (names, errors) := acc
  let (target, span) := a
  if names.inputs.contains target then (names, errors ++ [.assignToInput target span])
  else if names.assigned.contains target then (names, errors ++ [.duplicateName target span])
  else
    let names := { names with assigned := target :: names.assigned }
    if names.outputs.contains target then (names, errors)
    else if names.known.contains target then (names, errors ++ [.duplicateName target span])
    else ({ names with known := target :: names.known }, errors)

/-- The names of a program, and the names that have two meanings. -/
def names (p : Program) : Names × List SourceError :=
  (Statement.assignmentsAll p.statements).foldl assign (p.declarations.foldl declare (Names.none, []))

/-! ### Calls -/

/-- A reference to something unknown. -/
def checkReference (known : List String) (a : Argument) : List SourceError :=
  match a.identifier? with
  | some name => if known.contains name then [] else [.undeclaredIdentifier name a.span]
  | none => []

/-- The error of an argument. -/
def invalid (c : Call) (a : Argument) (message : String) : SourceError :=
  .invalidArgument c.operation message a.span

/-- The arguments looked at so far: their literals, their names and their errors. -/
structure CallReport where
  attributes : Params
  seen : List String
  errors : List SourceError

/-- More errors. -/
def CallReport.report (acc : CallReport) (errors : List SourceError) : CallReport :=
  { acc with errors := acc.errors ++ errors }

/-- Check a positional argument. -/
def checkPositional (known : List String) (c : Call) (acc : CallReport) (a : Argument) : CallReport :=
  let text := match a.value with
    | .literal (.text _) => [invalid c a "text literals are only allowed on attribute parameters"]
    | _ => []
  acc.report (text ++ checkReference known a)

/-- Check an argument that is given for a parameter of the operation. -/
def checkParameter (known : List String) (c : Call) (param : ParamSpec) (name : String) (acc : CallReport)
    (a : Argument) : CallReport :=
  match param.role, a.value with
  | .attribute, .literal value => { acc with attributes := acc.attributes.insert name value }
  | .attribute, .identifier _ => acc.report [invalid c a ("parameter '" ++ name ++ "' takes a literal")]
  | .operand, .literal (.text _) =>
    acc.report [invalid c a ("parameter '" ++ name ++ "' takes a value, not text")]
  | .operand, _ => acc.report (checkReference known a)

/-- Check an argument. -/
def checkArgument (known : List String) (spec : OpSpec) (c : Call) (acc : CallReport) (a : Argument) : CallReport :=
  match a.name with
  | none => checkPositional known c acc a
  | some name =>
    if acc.seen.contains name then acc.report [.duplicateParameter name a.span]
    else
      let acc := { acc with seen := name :: acc.seen }
      match spec.param? name with
      | none => acc.report [.unknownParameter c.operation name a.span]
      | some param => checkParameter known c param name acc a

/-- The operand parameters that are required and not given. -/
def missingParameters (spec : OpSpec) (c : Call) : List SourceError :=
  (spec.operandParams.filter (fun p => p.required && (c.parameter? p.name).isNone)).map
    (fun p => .invalidArgument c.operation ("missing parameter '" ++ p.name ++ "'") c.span)

/-- Check a call of a known operation; `bound` tells that its result is used. -/
def checkKnown (known : List String) (defaults : Params) (bound : Bool) (spec : OpSpec) (c : Call) :
    List SourceError :=
  let acc := c.arguments.foldl (checkArgument known spec c) ⟨defaults, [], []⟩
  let count := c.positional.length
  acc.errors ++
    (if spec.accepts count then [] else [.arity c.operation spec.arityText count c.span]) ++
    missingParameters spec c ++
    (match spec.checkParams acc.attributes with
      | .ok _ => []
      | .error message => [.invalidArgument c.operation message c.span]) ++
    (if bound || spec.sideEffecting then [] else [.discardedResult c.operation c.span])

/-- Check a call.  The arguments of an unknown operation can still refer to unknown names. -/
def checkCall (r : Registry) (known : List String) (defaults : Params) (bound : Bool) (c : Call) :
    List SourceError :=
  match r.callable? c.operation with
  | some spec => checkKnown known defaults bound spec c
  | none => .unknownOperation c.operation c.span :: c.arguments.flatMap (checkReference known)

/-! ### Blocks -/

/-- The literal of a block parameter under its name. -/
def blockParameter (a : Argument) : Except SourceError (String × Literal) :=
  match a.name with
  | none => .error (.invalidArgument Parser.blockLabel "block parameters must be named" a.span)
  | some name =>
    if !commonParams.contains name then .error (.unknownParameter Parser.blockLabel name a.span)
    else match a.value with
      | .literal value => .ok (name, value)
      | .identifier _ =>
        .error (.invalidArgument Parser.blockLabel ("parameter '" ++ name ++ "' takes a literal") a.span)

/-- The literals that hold inside a block, from those around it and its parameters. -/
def blockDefaults (outer : Params) : List Argument → Params
  | [] => outer
  | a :: rest =>
    match blockParameter a with
    | .ok (name, value) => blockDefaults (outer.insert name value) rest
    | .error _ => blockDefaults outer rest

/-- The errors of the parameters of a block. -/
def blockErrors (parameters : List Argument) : List SourceError :=
  parameters.filterMap (fun a => match blockParameter a with
    | .ok _ => none
    | .error e => some e)

/-- The error of literals that do not fit together. -/
def checkDefaults (defaults : Params) (span : Span) : List SourceError :=
  match checkCommonParams defaults with
  | .ok _ => []
  | .error message => [.invalidArgument Parser.blockLabel message span]

mutual

/-- Check a statement under the literals of the blocks around it. -/
def checkStatement (r : Registry) (known : List String) (defaults : Params) : Statement → List SourceError
  | .assignment _ c _ => checkCall r known defaults true c
  | .call c => checkCall r known defaults false c
  | .block _ parameters body span =>
    let inside := blockDefaults defaults parameters
    blockErrors parameters ++ checkDefaults inside span ++ checkAll r known inside body

/-- Check statements in order. -/
def checkAll (r : Registry) (known : List String) (defaults : Params) : List Statement → List SourceError
  | [] => []
  | s :: rest => checkStatement r known defaults s ++ checkAll r known defaults rest

end

/-- Every breach of the rules in a program. -/
def check (r : Registry) (p : Program) : List SourceError :=
  let (names, errors) := names p
  errors ++ checkAll r names.known Dict.empty p.statements

end Waveflow.Rules

namespace Waveflow

/-- The program of a source text that breaks no rule, or every error of the first step that finds one. -/
def parseSource (r : Registry) (source : String) : Except (List SourceError) Program :=
  match tokenize source with
  | .error e => .error [e]
  | .ok tokens =>
    match Parser.program tokens with
    | .error errors => .error errors
    | .ok program =>
      match Rules.check r program with
      | [] => .ok program
      | errors => .error errors

/-- Parse a source text into a report. -/
def parseInto (r : Registry) (source : String) (sink : Diagnostics) :
    Except StageFailed Program × Diagnostics :=
  match parseSource r source with
  | .ok program => (.ok program, sink)
  | .error errors => (.error ⟨.parse, errors.length⟩, sink ++ errors.map SourceError.diagnostic)

/-- The problems of a source text under the usual operations. -/
def checkSource (source : String) : Diagnostics := (parseInto Registry.builtin source []).2

end Waveflow
