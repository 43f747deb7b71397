import Waveflow.Service.Basic

/-!
# Batches

The compilations of a batch are independent tasks.  A task waits for a permit, runs, gives the permit
back and is joined; which task does so next is open, so the course of a batch is a list of events.
Under a time limit a task that runs may also be given up.  Every joined answer is put down under the
number of its request, and in the end the answers are read off in the order of the requests.

A batch of a service that asks for more permits than tasks can share does not even start.
`Service.batch` is the batch whose tasks run one after the other.
-/

namespace Waveflow

/-- A request of a batch with its answer. -/
structure BatchItem where
  name : String
  answer : Answer

/-- What can happen next in a batch, with the number of the request. -/
inductive BatchEvent where
  /-- A waiting task takes a permit and starts. -/
  | start (index : Nat)
  /-- A running task ends and gives its permit back. -/
  | finish (index : Nat)
  /-- A running task has used up its time; it is given up and its permit comes back. -/
  | expire (index : Nat)
  /-- The answer of a task that has ended is put down. -/
  | join (index : Nat)
deriving Repr, DecidableEq

/-- A batch under way. -/
structure Batch where
  /-- The permits that are free. -/
  permits : Nat
  /-- The tasks that wait for a permit. -/
  waiting : List Nat
  /-- The tasks that hold a permit. -/
  running : List Nat
  /-- The answers of the tasks that have ended and are not joined yet. -/
  ended : List (Nat × Answer)
  /-- The answers put down so far, in the order of the requests. -/
  answers : List (Option Answer)

namespace Batch

/-- A batch before its first event; there is always a permit, and no more than tasks can share. -/
def start (s : Service) (requests : List Request) : Checked Batch :=
  if permitLimit < max s.settings.maxConcurrency 1 then .error .permits
  else .ok {
    permits := max s.settings.maxConcurrency 1
    waiting := List.range requests.length
    running := []
    ended := []
    answers := requests.map (fun _ => none) }

/-- A running task gives its permit back and leaves an answer. -/
def release (b : Batch) (index : Nat) (answer : Answer) : Batch :=
  { b with
    permits := b.permits + 1, running := b.running.erase index, ended := (index, answer) :: b.ended }

/-- One event, if it can happen now. -/
def step (s : Service) (requests : List Request) (b : Batch) : BatchEvent → Option Batch
  | .start index =>
    if b.waiting.contains index && 0 < b.permits then
      some { b with
        permits := b.permits - 1, waiting := b.waiting.erase index, running := index :: b.running }
    else none
  | .finish index =>
    if b.running.contains index then (requests[index]?).map (fun r => b.release index (s.compile r)) else none
  | .expire index =>
    if b.running.contains index then s.settings.timeoutMs.map (fun ms => b.release index (.error (.timeout ms)))
    else none
  | .join index =>
    (b.ended.find? (fun e => e.1 == index)).map (fun e =>
      { b with
        ended := b.ended.filter (fun e => e.1 != index),
        answers := b.answers.set index (some e.2) })

/-- A course of events, if each of them can happen in its turn. -/
def run (s : Service) (requests : List Request) (b : Batch) (events : List BatchEvent) : Option Batch :=
  events.foldlM (step s requests) b

/-- Every task has been joined. -/
def isOver (b : Batch) : Bool := b.waiting.isEmpty && b.running.isEmpty && b.ended.isEmpty

/-- The items of a batch in the order of the requests. -/
def items (requests : List Request) (b : Batch) : List BatchItem :=
  (requests.zip b.answers).map (fun (r, answer) => ⟨r.name, answer.getD (.error .unfinished)⟩)

/-- The course in which the tasks run one after the other. -/
def oneByOne (count : Nat) : List BatchEvent :=
  (List.range count).flatMap (fun i => [.start i, .finish i, .join i])

end Batch

/-- Compile several requests. -/
def Service.batch (s : Service) (requests : List Request) : Checked (List BatchItem) := do
  let start ← Batch.start s requests
  return ((Batch.run s requests start (Batch.oneByOne requests.length)).getD start).items requests

end Waveflow
