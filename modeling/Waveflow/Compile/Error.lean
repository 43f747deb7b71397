import Waveflow.Diagnostic

/-!
# Errors of a compilation

Everything after parsing that can stop a compilation.  The checks around passes, the check of a
schedule and the check of the options have causes of their own.
-/

namespace Waveflow

/-- How the graph left by a pass breaks the rules for passes. -/
inductive Breach where
  /-- An edge comes from a node that is not there. -/
  | danglingEdge (missing : NodeId)
  /-- An output stands for a node that is not there. -/
  | missingOutput (name : String)
  /-- Some nodes depend on each other. -/
  | cycle
  /-- The declared inputs are others. -/
  | inputsChanged
  /-- The number of outputs is another. -/
  | outputsChanged
  /-- An output stands for another node. -/
  | outputMoved (name : String) (old new : NodeId)
  /-- A node is gone. -/
  | removed
  /-- A node has another type. -/
  | typeChanged (old new : String)
  /-- A node is of another kind. -/
  | kindChanged
  /-- A node has other edges. -/
  | rewired
  /-- A node has another name, other literals or other attributes. -/
  | attributesChanged
  /-- A node is new. -/
  | inserted
  /-- The parallel hints are others. -/
  | hintsChanged
deriving Repr, DecidableEq

/-- The wording of a breach. -/
def Breach.message : Breach → String
  | danglingEdge missing => "edge from missing node " ++ missing.text
  | missingOutput name => "output '" ++ name ++ "' points at a missing node"
  | cycle => "graph has a cycle"
  | inputsChanged => "declared inputs changed"
  | outputsChanged => "designated outputs changed"
  | outputMoved name old new => "output '" ++ name ++ "' moved from " ++ old.text ++ " to " ++ new.text
  | removed => "node removed"
  | typeChanged old new => "type changed from " ++ old ++ " to " ++ new
  | kindChanged => "node kind changed"
  | rewired => "inputs rewired"
  | attributesChanged => "attributes rewritten"
  | inserted => "node inserted"
  | hintsChanged => "parallel hints rewritten"

/-- How a schedule does not fit its graph. -/
inductive Misfit where
  | foreign (node : NodeId)
  | twice (node : NodeId)
  | missing (node : NodeId)
  | beforeInput (node input : NodeId)
  | brokenGroup (group : GroupId)
deriving Repr, DecidableEq

/-- The wording of a misfit. -/
def Misfit.message : Misfit → String
  | foreign node => node.text ++ " is not in the graph"
  | twice node => node.text ++ " is scheduled twice"
  | missing node => node.text ++ " is never scheduled"
  | beforeInput node input => node.text ++ " runs before its input " ++ input.text
  | brokenGroup group => "group " ++ group.text ++ " is not contiguous"

/-- An option out of its range. -/
inductive BadOption where
  | thermalCeiling (value : Float)
  | coherenceBudget (value : Float)
  | maxIterations
deriving Repr, BEq

/-- The name of the option. -/
def BadOption.name : BadOption → String
  | thermalCeiling _ => "thermal_ceiling"
  | coherenceBudget _ => "default_coherence_budget"
  | maxIterations => "max_iterations"

/-- What the option has to be. -/
def BadOption.message : BadOption → String
  | thermalCeiling x => "must be a finite number > 0, got " ++ numberText x
  | coherenceBudget x => "must be a finite number >= 0, got " ++ numberText x
  | maxIterations => "must be at least 1"

/-- Why a compilation stops. -/
inductive CompileError where
  /-- A name is used before it has a value. -/
  | unresolvedReference (name : String) (span : Span)
  /-- A declared output gets no value. -/
  | danglingOutput (name : String) (span : Span)
  /-- An operation that cannot be called. -/
  | unknownOperation (name : String) (span : Span)
  /-- Types that do not fit. -/
  | typeMismatch (message : String) (span : Span)
  /-- Protection requirements that do not fit together. -/
  | constraintConflict (node : NodeId) (message : String)
  /-- A pass broke the rules for passes. -/
  | invariantViolation (pass : String) (node : Option NodeId) (breach : Breach)
  /-- A requirement names a code that nothing can encode. -/
  | unsupportedCode (node : NodeId) (code : String)
  /-- Nodes that cannot be put into an order. -/
  | cyclicDependency (nodes : List NodeId)
  /-- A schedule that does not fit its graph. -/
  | invalidSchedule (cause : Misfit)
  /-- A pass that does not exist. -/
  | unknownPass (name : String)
  /-- An option out of its range. -/
  | invalidOption (cause : BadOption)
  /-- A refused edit or registration. -/
  | graph (cause : Refusal)
deriving Repr, BEq

namespace CompileError

/-- The wording of the error. -/
def message : CompileError → String
  | unresolvedReference name _ => "Unresolved reference '" ++ name ++ "'"
  | danglingOutput name _ => "Output '" ++ name ++ "' is never assigned"
  | unknownOperation name _ => "Unknown operation '" ++ name ++ "'"
  | typeMismatch message _ => "Type error: " ++ message
  | constraintConflict node message => "Constraint conflict on " ++ node.text ++ ": " ++ message
  | invariantViolation pass node breach =>
    "Pass '" ++ pass ++ "' violated a graph invariant" ++
      (match node with
        | some n => " at " ++ n.text
        | none => "") ++ ": " ++ breach.message
  | unsupportedCode node code => "Unsupported code family '" ++ code ++ "' on " ++ node.text
  | cyclicDependency nodes => "Cyclic dependency through " ++ String.intercalate ", " (nodes.map NodeId.text)
  | invalidSchedule cause => "Invalid schedule: " ++ cause.message
  | unknownPass name => "Unknown pass '" ++ name ++ "'"
  | invalidOption cause => "Invalid option '" ++ cause.name ++ "': " ++ cause.message
  | graph cause => "Graph error: " ++ cause.message

/-- The kind under which the error is reported. -/
def kind : CompileError → DiagnosticKind
  | unresolvedReference _ _ | danglingOutput _ _ => .referenceError
  | unknownOperation _ _ => .syntaxError
  | typeMismatch _ _ => .typeError
  | constraintConflict _ _ => .constraintConflict
  | invariantViolation _ _ _ | invalidSchedule _ | graph _ => .invariantViolation
  | unsupportedCode _ _ => .unsupportedCode
  | cyclicDependency _ => .cyclicDependency
  | unknownPass _ => .unknownPass
  | invalidOption _ => .invalidOption

/-- The node that the error is about. -/
def node? : CompileError → Option NodeId
  | constraintConflict node _ | unsupportedCode node _ => some node
  | invariantViolation _ node _ => node
  | cyclicDependency nodes => nodes.head?
  | _ => none

/-- The place in the source that the error is about. -/
def span? : CompileError → Option Span
  | unresolvedReference _ s | danglingOutput _ s | unknownOperation _ s | typeMismatch _ s => some s
  | _ => none

/-- The report of the error in a stage. -/
def diagnostic (e : CompileError) (stage : Stage) : Diagnostic :=
  { Diagnostic.error stage e.kind e.message with node := e.node?, span := e.span? }

end CompileError

end Waveflow
