import Waveflow.Element
import Waveflow.Decimal.Layout

/-!
# Refusals

Why a value is not built, an edit of a graph is not made or an operation is not registered.  Each
cause is a constructor; the wording is in `Refusal.message`.
-/

namespace Waveflow

/-- The number of a node; numbers are given out in ascending order and never twice. -/
abbrev NodeId := Nat

/-- The number of a parallel group. -/
abbrev GroupId := Nat

/-- How a node is named in text. -/
def NodeId.text (id : NodeId) : String := "n" ++ toString id

/-- How a group is named in text. -/
def GroupId.text (id : GroupId) : String := "g" ++ toString id

/-- The cause of a refusal. -/
inductive Refusal where
  /-- A shape with the wrong number of dimensions. -/
  | arity (kind : ElementKind) (actual : Nat)
  /-- A dimension of size zero. -/
  | zeroDimension (position : Nat) (kind : ElementKind)
  /-- A budget that is negative or not finite. -/
  | badBudget (amount : Float)
  /-- A code or a level where no protection is asked for. -/
  | unprotectedDetail
  /-- A level for basic protection. -/
  | basicLevel
  /-- A word that names no kind of protection. -/
  | unknownCorrection (name : String)
  /-- A node that the graph does not have. -/
  | unknownNode (id : NodeId)
  /-- A copy of a declared input. -/
  | copiedInput
  /-- Edges into a declared input. -/
  | inputEdges (id : NodeId)
  /-- Removal of a declared input. -/
  | declaredInput (id : NodeId)
  /-- Removal of a node that an output stands for. -/
  | designatedOutput (id : NodeId)
  /-- Removal of a node that another one still uses. -/
  | stillConsumed (id consumer : NodeId)
  /-- Depths of a graph with a cycle. -/
  | cycle (through : NodeId)
  /-- A second operation of the same name. -/
  | duplicateOperation (name : String)
deriving Repr, BEq

/-- The wording of a refusal. -/
def Refusal.message : Refusal → String
  | arity kind actual =>
    "Type arity mismatch for '" ++ kind.name ++ "': expected " ++ toString kind.arity ++
      " dimension(s), got " ++ toString actual
  | zeroDimension position kind =>
    "Invalid value: dimension " ++ toString position ++ " of " ++ kind.name ++ " must be greater than zero"
  | badBudget amount => "Invalid value: budget must be a finite number >= 0, got " ++ numberText amount
  | unprotectedDetail => "Invalid value: correction \"none\" takes no code or level"
  | basicLevel => "Invalid value: correction \"basic\" takes no level"
  | unknownCorrection name =>
    "Invalid value: unknown correction '" ++ name ++ "', expected none, basic or fault_tolerant"
  | unknownNode id => "Unknown node: " ++ id.text
  | copiedInput => "Invalid graph operation: inputs cannot be inserted by copy"
  | inputEdges id => "Invalid graph operation: input " ++ id.text ++ " cannot take input edges"
  | declaredInput id => "Invalid graph operation: " ++ id.text ++ " is a declared input"
  | designatedOutput id => "Invalid graph operation: " ++ id.text ++ " is a designated output"
  | stillConsumed id consumer =>
    "Invalid graph operation: " ++ id.text ++ " is still consumed by " ++ consumer.text
  | cycle through => "Invalid graph operation: graph has a cycle through " ++ through.text
  | duplicateOperation name => "Operation '" ++ name ++ "' is already registered"

end Waveflow
