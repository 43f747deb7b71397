import Waveflow.Schedule.Basic
import Waveflow.Graph.Reach
import Waveflow.Graph.Waiting

/-!
# Making a schedule

Nodes are taken greedily: among those whose inputs have all been taken, the one with the tightest
coherence budget, and of equal ones the one with the smallest number.  A parallel group whose members
are all ready goes first, as one run; a node of a group waits for the others until nothing else is
ready, and then its group is given up.
-/

namespace Waveflow.Greedy

/-! ### Nodes on their way into the schedule -/

/-- A number waiting for its inputs, with the coherence budget of its node. -/
structure Slot extends Waiting where
  budget : Budget

/-- All numbers of a graph, none taken. -/
def slots (g : Graph) : List Slot :=
  g.byNumber.map (fun n => ⟨g.waitingOf (fun _ => true) n, n.attrs.coherence⟩)

/-- The slot after a node has been taken. -/
def Slot.after (id : NodeId) (s : Slot) : Checked Slot := do
  return { s with toWaiting := ← s.toWaiting.after id }

/-- All slots after a node has been taken. -/
def take (id : NodeId) : List Slot → Checked (List Slot)
  | [] => .ok []
  | s :: rest => do
    let s ← s.after id
    let rest ← take id rest
    return s :: rest

/-- Tighter budgets first, then smaller numbers. -/
def precedes (a b : Slot) : Bool :=
  match a.budget.compare b.budget with
  | .lt => true
  | .eq => a.id < b.id
  | .gt => false

/-- The first in the order of precedence. -/
def first? : List Slot → Option Slot
  | [] => none
  | s :: rest =>
    match first? rest with
    | none => some s
    | some t => if precedes t s then some t else some s

/-- Put a slot into its place among others. -/
def insertSlot (s : Slot) : List Slot → List Slot
  | [] => [s]
  | t :: rest => if precedes t s then t :: insertSlot s rest else s :: t :: rest

/-! ### Groups -/

/-- The groups that can be kept: of nodes that are there, none of which depends on another of its
group, and none of which is in a kept group before. -/
def admissible (g : Graph) (claimed : List NodeId) : List ParallelGroup → List ParallelGroup
  | [] => []
  | group :: rest =>
    let present := group.members.all g.contains
    let independent := group.members.all (fun a =>
      let above := g.ancestors a
      group.members.all (fun b => !above.contains b))
    let free := group.members.all (fun m => !claimed.contains m)
    if present && independent && free then group :: admissible g (group.members ++ claimed) rest
    else admissible g claimed rest

/-- The slots of the members of a group. -/
def memberSlots (slots : List Slot) (group : ParallelGroup) : List Slot :=
  group.members.filterMap (fun m => slots.find? (·.id == m))

/-- One group goes before another because its first member does. -/
def groupPrecedes (slots : List Slot) (a b : ParallelGroup) : Bool :=
  match first? (memberSlots slots a), first? (memberSlots slots b) with
  | some s, some t => precedes s t
  | _, _ => false

/-- The first group among some; a later one has to precede it strictly. -/
def firstGroup? (slots : List Slot) : List ParallelGroup → Option ParallelGroup
  | [] => none
  | group :: rest =>
    some (rest.foldl (fun best next => if groupPrecedes slots next best then next else best) group)

/-- All members of the group are ready. -/
def isFull (slots : List Slot) (group : ParallelGroup) : Bool :=
  group.members.all (fun m => slots.any (fun s => s.id == m && s.isReady))

/-! ### The loop -/

/-- A schedule in the making. -/
structure Progress where
  slots : List Slot
  pending : List ParallelGroup
  steps : List Step
  emitted : List ParallelGroup

/-- Take a node. -/
def emit (id : NodeId) (group : Option GroupId) (p : Progress) : Checked Progress := do
  let slots ← take id p.slots
  return { p with slots := slots, steps := p.steps ++ [⟨id, group⟩] }

/-- Take the members of a group in order. -/
def emitMembers (group : GroupId) : List NodeId → Progress → Checked Progress
  | [], p => .ok p
  | id :: rest, p => do
    let p ← emit id (some group) p
    emitMembers group rest p

/-- Take a whole group. -/
def emitGroup (group : ParallelGroup) (p : Progress) : Checked Progress := do
  let members := ((memberSlots p.slots group).foldr insertSlot []).map (·.id)
  let p ← emitMembers group.id members { p with pending := p.pending.erase group }
  return { p with emitted := p.emitted ++ [group] }

/-- Take what comes next, if anything is ready. -/
def advance (p : Progress) : Checked (Option Progress) := do
  let ready := p.slots.filter (·.isReady)
  match first? ready with
  | none => return none
  | some best =>
    match firstGroup? p.slots (p.pending.filter (isFull p.slots)) with
    | some group => some <$> emitGroup group p
    | none =>
      let grouped := p.pending.flatMap (·.members)
      match first? (ready.filter (fun s => !grouped.contains s.id)) with
      | some s => some <$> emit s.id none p
      | none =>
        let pending := p.pending.filter (fun g => !g.members.contains best.id)
        some <$> emit best.id none { p with pending := pending }

/-- Take nodes until none is ready. -/
def run : Nat → Progress → Checked Progress
  | 0, p => .ok p
  | fuel + 1, p => do
    match ← advance p with
    | none => return p
    | some p => run fuel p

/-- The start of a schedule under given hints. -/
def start (g : Graph) : Progress := ⟨slots g, admissible g [] g.hints.groups, [], []⟩

end Waveflow.Greedy

namespace Waveflow

/-- The schedule of a graph, or the nodes that cannot be scheduled. -/
def Graph.schedule (g : Graph) : Checked (Except CompileError Schedule) := do
  let start := Greedy.start g
  let p ← Greedy.run (g.nodes.length + start.pending.length + 1) start
  if p.steps.length < g.nodes.length then
    let done := p.steps.map (·.node)
    return .error (.cyclicDependency (g.ids.filter (fun id => !done.contains id)))
  else return .ok ⟨p.steps, p.emitted⟩

/-- Schedule a graph and check the schedule, reporting into a list of diagnostics. -/
def Graph.scheduleInto (g : Graph) (sink : Diagnostics) : Checked (Except StageFailed Schedule × Diagnostics) := do
  let failed (e : CompileError) : Except StageFailed Schedule × Diagnostics :=
    (.error ⟨.schedule, 1⟩, sink ++ [e.diagnostic .schedule])
  match ← g.schedule with
  | .error e => return failed e
  | .ok schedule =>
    match schedule.verify g with
    | .error e => return failed e
    | .ok _ => return (.ok schedule, sink)

end Waveflow
