import Waveflow.Refusal
import Waveflow.Json.Basic

/-!
# Diagnostics

Every stage reports into one list of diagnostics, which only grows.  A stage that cannot go on fails
with the number of its errors, after reporting at least one.
-/

namespace Waveflow

/-! ### Places in a source text -/

/-- A stretch of source text: offset and length in bytes, line and column counted from one. -/
structure Span where
  offset : Nat
  len : Nat
  line : Nat
  column : Nat
deriving Repr, DecidableEq

namespace Span

/-- The span of something that has no place in a text. -/
def nowhere : Span := ⟨0, 0, 0, 0⟩

/-- The offset just after the span. -/
def stop (s : Span) : Nat := s.offset + s.len

/-- The span from the start of the first to the end of the last. -/
def join (first last : Span) : Span :=
  ⟨first.offset, max last.stop first.stop - first.offset, first.line, first.column⟩

/-- Line and column. -/
def text (s : Span) : String := toString s.line ++ ":" ++ toString s.column

def toJson (s : Span) : Json :=
  .obj [("offset", .nat s.offset), ("len", .nat s.len), ("line", .nat s.line), ("column", .nat s.column)]

def ofJson? (j : Json) : Option Span := do
  match ← j.record? ["offset", "len", "line", "column"] with
  | [offset, len, line, column] =>
    some ⟨← Json.need Json.long? offset, ← Json.need Json.long? len,
      ← Json.need Json.long? line, ← Json.need Json.long? column⟩
  | _ => none

end Span

/-! ### Classes of diagnostics -/

/-- How serious a diagnostic is. -/
inductive Severity where
  | note
  | warning
  | error
deriving Repr, DecidableEq

namespace Severity

def name : Severity → String
  | note => "note"
  | warning => "warning"
  | error => "error"

def ofName? : String → Option Severity
  | "note" => some note
  | "warning" => some warning
  | "error" => some error
  | _ => none

end Severity

/-- The stages of a compilation, in order. -/
inductive Stage where
  | configure
  | parse
  | build
  | annotate
  | optimize
  | schedule
  | emit
deriving Repr, DecidableEq

namespace Stage

def name : Stage → String
  | configure => "configure"
  | parse => "parse"
  | build => "build"
  | annotate => "annotate"
  | optimize => "optimize"
  | schedule => "schedule"
  | emit => "emit"

def ofName? : String → Option Stage
  | "configure" => some configure
  | "parse" => some parse
  | "build" => some build
  | "annotate" => some annotate
  | "optimize" => some optimize
  | "schedule" => some schedule
  | "emit" => some emit
  | _ => none

end Stage

/-- What a diagnostic is about. -/
inductive DiagnosticKind where
  /-- The source text breaks the grammar or a rule on names and calls. -/
  | syntaxError
  /-- A name that stands for nothing, or an output that nothing assigns. -/
  | referenceError
  /-- Types of operands or of an output that do not fit. -/
  | typeError
  /-- An output that no input reaches. -/
  | unusedOutput
  /-- A value that reaches no output. -/
  | unusedValue
  /-- Protection requirements that contradict each other. -/
  | constraintConflict
  /-- A pass left a graph that is not accepted. -/
  | invariantViolation
  /-- A protection code that nothing can encode. -/
  | unsupportedCode
  /-- A pass that does not exist. -/
  | unknownPass
  /-- An option out of its range. -/
  | invalidOption
  /-- A consumption above its budget. -/
  | budgetExceeded
  /-- A graph that cannot be put into an order. -/
  | cyclicDependency
deriving Repr, DecidableEq

namespace DiagnosticKind

def name : DiagnosticKind → String
  | syntaxError => "SyntaxError"
  | referenceError => "ReferenceError"
  | typeError => "TypeError"
  | unusedOutput => "UnusedOutput"
  | unusedValue => "UnusedValue"
  | constraintConflict => "ConstraintConflict"
  | invariantViolation => "InvariantViolation"
  | unsupportedCode => "UnsupportedCode"
  | unknownPass => "UnknownPass"
  | invalidOption => "InvalidOption"
  | budgetExceeded => "BudgetExceeded"
  | cyclicDependency => "CyclicDependency"

def ofName? : String → Option DiagnosticKind
  | "SyntaxError" => some syntaxError
  | "ReferenceError" => some referenceError
  | "TypeError" => some typeError
  | "UnusedOutput" => some unusedOutput
  | "UnusedValue" => some unusedValue
  | "ConstraintConflict" => some constraintConflict
  | "InvariantViolation" => some invariantViolation
  | "UnsupportedCode" => some unsupportedCode
  | "UnknownPass" => some unknownPass
  | "InvalidOption" => some invalidOption
  | "BudgetExceeded" => some budgetExceeded
  | "CyclicDependency" => some cyclicDependency
  | _ => none

/-- The severity of a kind where nothing else is said. -/
def severity : DiagnosticKind → Severity
  | unusedOutput | unusedValue | budgetExceeded => .warning
  | _ => .error

end DiagnosticKind

/-! ### Single diagnostics -/

/-- One reported problem. -/
structure Diagnostic where
  severity : Severity
  stage : Stage
  kind : DiagnosticKind
  node : Option NodeId
  span : Option Span
  message : String
deriving Repr, DecidableEq

namespace Diagnostic

/-- A diagnostic with the severity of its kind. -/
def report (stage : Stage) (kind : DiagnosticKind) (message : String) : Diagnostic :=
  ⟨kind.severity, stage, kind, none, none, message⟩

/-- A diagnostic that stops its stage. -/
def error (stage : Stage) (kind : DiagnosticKind) (message : String) : Diagnostic :=
  ⟨.error, stage, kind, none, none, message⟩

/-- A diagnostic that lets its stage go on. -/
def warning (stage : Stage) (kind : DiagnosticKind) (message : String) : Diagnostic :=
  ⟨.warning, stage, kind, none, none, message⟩

def isError (d : Diagnostic) : Bool := d.severity == .error

/-- The diagnostic on one line. -/
def text (d : Diagnostic) : String :=
  d.severity.name ++ "[" ++ d.kind.name ++ "] (" ++ d.stage.name ++ ")" ++
    (match d.span with
      | some span => " at " ++ span.text
      | none => "") ++
    (match d.node with
      | some node => " on " ++ node.text
      | none => "") ++
    ": " ++ d.message

def toJson (d : Diagnostic) : Json :=
  .obj ([("severity", .str d.severity.name), ("stage", .str d.stage.name), ("kind", .str d.kind.name)] ++
    Json.field? "node" Json.nat d.node ++ Json.field? "span" Span.toJson d.span ++
    [("message", .str d.message)])

/-- A tag without content. -/
def word? {α : Type} (ofName? : String → Option α) (j : Json) : Option α := do
  let (word, content) ← j.variant?
  if Json.isBare content then ofName? word else none

def ofJson? (j : Json) : Option Diagnostic := do
  match ← j.record? ["severity", "stage", "kind", "node", "span", "message"] with
  | [severity, stage, kind, node, span, message] =>
    some ⟨← Json.need (word? Severity.ofName?) severity, ← Json.need (word? Stage.ofName?) stage,
      ← Json.need (word? DiagnosticKind.ofName?) kind, ← Json.orElse none (Json.opt? Json.word?) node,
      ← Json.orElse none (Json.opt? Span.ofJson?) span, ← Json.need Json.str? message⟩
  | _ => none

end Diagnostic

/-! ### The report of a compilation -/

/-- The failure of a stage, with the number of its errors. -/
structure StageFailed where
  stage : Stage
  errors : Nat
deriving Repr, DecidableEq

def StageFailed.message (f : StageFailed) : String :=
  f.stage.name ++ " stage failed with " ++ toString f.errors ++ " error(s)"

/-- What has been reported so far, in order. -/
abbrev Diagnostics := List Diagnostic

namespace Diagnostics

def hasErrors (ds : Diagnostics) : Bool := ds.any Diagnostic.isError

def errorCount (ds : Diagnostics) : Nat := (ds.filter Diagnostic.isError).length

def ofKind (ds : Diagnostics) (kind : DiagnosticKind) : List Diagnostic := ds.filter (·.kind == kind)

def warnings (ds : Diagnostics) : List Diagnostic := ds.filter (·.severity == .warning)

/-- Fails when the stage has reported an error. -/
def check (ds : Diagnostics) (stage : Stage) : Except StageFailed Unit :=
  let errors := (ds.filter (fun d => d.stage == stage && d.isError)).length
  if 0 < errors then .error ⟨stage, errors⟩ else .ok ()

def toJson (ds : Diagnostics) : Json := .list Diagnostic.toJson ds

def ofJson? : Json → Option Diagnostics := Json.list? Diagnostic.ofJson?

end Diagnostics

end Waveflow
