import Waveflow.Compile.Error
import Waveflow.Graph.Basic

/-!
# Schedules

A schedule lists the nodes of a graph one after the other, with the parallel groups that were kept
together.  `Schedule.verify` checks a schedule against a graph.
-/

namespace Waveflow

/-- A node in a schedule, with the group that it was scheduled with. -/
structure Step where
  node : NodeId
  group : Option GroupId
deriving Repr, DecidableEq

/-- Nodes in the order of their execution. -/
structure Schedule where
  steps : List Step
  /-- The groups whose members follow each other. -/
  groups : List ParallelGroup
deriving Repr, DecidableEq

/-- Put a number into a sorted list. -/
def insertSorted (n : Nat) : List Nat → List Nat
  | [] => [n]
  | m :: rest => if n ≤ m then n :: m :: rest else m :: insertSorted n rest

/-- The numbers of a list from the smallest to the largest. -/
def sorted (ns : List Nat) : List Nat := ns.foldr insertSorted []

/-- Each number is one more than the one before. -/
def consecutive : List Nat → Bool
  | a :: b :: rest => b == a + 1 && consecutive (b :: rest)
  | _ => true

namespace Schedule

/-- The nodes in order. -/
def order (s : Schedule) : List NodeId := s.steps.map (·.node)

/-- Where a node stands. -/
def position? (s : Schedule) (node : NodeId) : Option Nat := s.steps.findIdx? (·.node == node)

/-- The first step with a node that the graph does not have or that has come before. -/
def stepMisfit? (g : Graph) (before : List NodeId) : List NodeId → Option Misfit
  | [] => none
  | id :: rest =>
    if !g.contains id then some (.foreign id)
    else if before.contains id then some (.twice id)
    else stepMisfit? g (id :: before) rest

/-- The first edge whose input is not scheduled before its consumer. -/
def edgeMisfit? (s : Schedule) (g : Graph) : Option Misfit :=
  g.nodes.findSome? (fun n =>
    (n.inputs.find? (fun i => match s.position? i, s.position? n.id with
      | some a, some b => b ≤ a
      | some _, none => true
      | none, some _ => false
      | none, none => true)).map (fun i => .beforeInput n.id i))

/-- The members of a group all follow each other. -/
def keepsTogether (s : Schedule) (group : ParallelGroup) : Bool :=
  let places := group.members.filterMap s.position?
  places.length == group.members.length && consecutive (sorted places)

/-- The first thing that does not fit. -/
def misfit? (s : Schedule) (g : Graph) : Option Misfit :=
  (stepMisfit? g [] s.order).orElse fun _ =>
  ((g.nodes.find? (fun n => !s.order.contains n.id)).map (fun n => .missing n.id)).orElse fun _ =>
  (s.edgeMisfit? g).orElse fun _ =>
  (s.groups.find? (fun group => !s.keepsTogether group)).map (fun group => .brokenGroup group.id)

/-- The schedule fits the graph, or why it does not. -/
def verify (s : Schedule) (g : Graph) : Except CompileError Unit :=
  match s.misfit? g with
  | some cause => .error (.invalidSchedule cause)
  | none => .ok ()

def stepToJson (s : Step) : Json := .obj ([("node", .nat s.node)] ++ Json.field? "group" Json.nat s.group)

def stepOfJson? (j : Json) : Option Step := do
  match ← j.record? ["node", "group"] with
  | [node, group] => some ⟨← Json.need Json.word? node, ← Json.orElse none (Json.opt? Json.word?) group⟩
  | _ => none

def toJson (s : Schedule) : Json :=
  .obj [("steps", .list stepToJson s.steps), ("groups", .list ParallelGroup.toJson s.groups)]

def ofJson? (j : Json) : Option Schedule := do
  match ← j.record? ["steps", "groups"] with
  | [steps, groups] =>
    some ⟨← Json.need (Json.list? stepOfJson?) steps,
      ← Json.orElse [] (Json.list? ParallelGroup.ofJson?) groups⟩
  | _ => none

end Schedule

end Waveflow
