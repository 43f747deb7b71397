import Waveflow.Checked
import Waveflow.Search
import Waveflow.Refusal
import Waveflow.Json.Basic

/-!
# Parallel hints

A parallel group names nodes that may run side by side.  Hints advise the schedule and never change
what a graph computes.
-/

namespace Waveflow

/-- Nodes that may run side by side. -/
structure ParallelGroup where
  id : GroupId
  members : List NodeId
deriving Repr, DecidableEq

/-- Put a number into an ascending list, once. -/
def insertAscending (n : Nat) : List Nat → List Nat
  | [] => [n]
  | m :: rest => if n < m then n :: m :: rest else if n = m then m :: rest else m :: insertAscending n rest

/-- The numbers of a list in ascending order, each once. -/
def ascending (ns : List Nat) : List Nat := ns.foldr insertAscending []

namespace ParallelGroup

def toJson (g : ParallelGroup) : Json :=
  .obj [("id", .nat g.id), ("members", .list .nat g.members)]

def ofJson? (j : Json) : Option ParallelGroup := do
  match ← j.record? ["id", "members"] with
  | [id, members] => some ⟨← Json.need Json.word? id, ← Json.need (Json.list? Json.word?) members⟩
  | _ => none

end ParallelGroup

/-- The parallel groups of a graph. -/
structure Hints where
  groups : List ParallelGroup
deriving Repr, DecidableEq

namespace Hints

def empty : Hints := ⟨[]⟩

instance : Inhabited Hints := ⟨empty⟩

/-- The group that would be added: its members ascend, and it is numbered by the groups before it, as far as 32 bits
can count them. -/
def group? (h : Hints) (members : List NodeId) : Option ParallelGroup :=
  let members := ascending members
  if members.length < 2 then none else some ⟨h.groups.length % wordLimit, members⟩

/-- Add a group of at least two nodes. -/
def add (h : Hints) (members : List NodeId) : Option GroupId × Hints :=
  match h.group? members with
  | none => (none, h)
  | some g => (some g.id, ⟨h.groups ++ [g]⟩)

/-- Add several groups, with the number of each. -/
def addAll (h : Hints) : List (List NodeId) → List (Option GroupId) × Hints
  | [] => ([], h)
  | members :: rest =>
    let (id, h) := h.add members
    let (ids, h) := h.addAll rest
    (id :: ids, h)

/-- The first group of that number. -/
def find? (h : Hints) (id : GroupId) : Option ParallelGroup := h.groups.find? (·.id == id)

/-- The number of the first group that holds the node. -/
def groupOf? (h : Hints) (node : NodeId) : Option GroupId :=
  (h.groups.find? (fun g => (Search.position (fun m : NodeId => m) node g.members).isSome)).map (·.id)

/-- Keep some of the groups, with their numbers. -/
def retain (h : Hints) (keep : ParallelGroup → Bool) : Hints := ⟨h.groups.filter keep⟩

def toJson (h : Hints) : Json := .obj [("groups", .list ParallelGroup.toJson h.groups)]

def ofJson? (j : Json) : Option Hints := do
  match ← j.record? ["groups"] with
  | [groups] => some ⟨← Json.need (Json.list? ParallelGroup.ofJson?) groups⟩
  | _ => none

end Hints

end Waveflow
