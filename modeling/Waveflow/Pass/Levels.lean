import Waveflow.Pass.Basic

/-!
# The performance pass

Operations of equal depth become a parallel group: no chain of edges joins two nodes of one depth.
The groups are made anew in every run.
-/

namespace Waveflow

namespace PerformancePass

/-- The operations of a depth, in order. -/
def level (g : Graph) (depths : Graph.DepthMap) (depth : Nat) : List NodeId :=
  (g.nodes.filter (fun n => n.isOperation && List.lookup n.id depths == some depth)).map (·.id)

/-- The groups of operations of equal depth, the least depth first. -/
def levels (g : Graph) : Checked (Except Refusal Hints) := do
  match ← g.depths with
  | .error e => return .error e
  | .ok depths =>
    let last := (depths.map (·.2)).max?.getD 0
    return .ok (Hints.empty.addAll ((List.range (last + 1)).map (level g depths))).2

/-- Replace the hints of a graph by its levels. -/
def run (g : Graph) : Checked Outcome := do
  match ← levels g with
  | .error e => return ⟨g, .error (.graph e), []⟩
  | .ok hints =>
    return if hints = g.hints then ⟨g, .ok false, []⟩ else ⟨{ g with hints := hints }, .ok true, []⟩

end PerformancePass

/-- The performance pass. -/
def performancePass : Pass where
  name := "performance"
  capabilities := ⟨false, false, false, true⟩
  run := fun _ g => PerformancePass.run g

end Waveflow
