import Waveflow.Graph.Basic
import Waveflow.Compile.Error
import Mathlib.Tactic.ByContra
import Mathlib.Tactic.Lemma

/-!
# Reports of stages

A stage passes its check exactly when it has reported no error, and what reports an error in a stage makes
the stage fail.  `Warns` says that a stage has reported warnings of its own and nothing else.
-/

namespace Waveflow

/-- The stage has reported an error. -/
def Diagnostics.Failing (ds : Diagnostics) (stage : Stage) : Prop := ∃ d ∈ ds, d.stage = stage ∧ d.isError = true

namespace Diagnostics

variable {ds : Diagnostics} {stage : Stage} {failed : StageFailed}

lemma mem_filter_errors {d : Diagnostic} :
    d ∈ ds.filter (fun d => d.stage == stage && d.isError) ↔ d ∈ ds ∧ d.stage = stage ∧ d.isError = true := by
  rw [List.mem_filter, Bool.and_eq_true, beq_iff_eq]

/-- **A stage passes its check exactly when it has reported no error.** -/
theorem check_eq_ok_iff : ds.check stage = .ok () ↔ ¬ ds.Failing stage := by
  unfold check
  dsimp only
  split
  · next hpos =>
    obtain ⟨d, hd⟩ := List.exists_mem_of_length_pos hpos
    refine ⟨fun h => ?_, fun h => ?_⟩
    · cases h
    · exact absurd ⟨d, mem_filter_errors.1 hd⟩ h
  · next hzero =>
    refine ⟨fun _ => ?_, fun _ => rfl⟩
    rintro ⟨d, hd⟩
    exact hzero (List.length_pos_of_mem (mem_filter_errors.2 hd))

lemma failing_of_check (h : ds.check stage = .error failed) : ds.Failing stage := by
  by_contra hnot
  rw [check_eq_ok_iff.2 hnot] at h
  cases h

end Diagnostics

/-- A stage that passes its check after errors have been reported in it has had none. -/
lemma errors_eq_nil_of_check {ds : Diagnostics} {stage : Stage} {errors : List CompileError}
    (h : (ds ++ errors.map (·.diagnostic stage)).check stage = .ok ()) : errors = [] := by
  refine List.eq_nil_iff_forall_not_mem.2 fun e he => ?_
  refine Diagnostics.check_eq_ok_iff.1 h ⟨e.diagnostic stage, ?_, rfl, rfl⟩
  exact List.mem_append_right _ (List.mem_map_of_mem he)

/-! ### Warnings of one stage -/

/-- All that is reported is a warning of the stage. -/
def Warns (stage : Stage) (ds : List Diagnostic) : Prop := ∀ d ∈ ds, d.severity = .warning ∧ d.stage = stage

namespace Warns

variable {stage : Stage} {ds more : List Diagnostic}

lemma nil : Warns stage [] := fun _ hd => absurd hd List.not_mem_nil

lemma append (h : Warns stage ds) (h' : Warns stage more) : Warns stage (ds ++ more) := by
  intro d hd
  rcases List.mem_append.1 hd with hd | hd
  · exact h d hd
  · exact h' d hd

lemma isError (h : Warns stage ds) {d : Diagnostic} (hd : d ∈ ds) : d.isError = false := by
  unfold Diagnostic.isError
  rw [(h d hd).1]
  rfl

end Warns

/-! ### How stages end -/

/-- The run of a stage ends with a graph. -/
def accepted : Checked (Except StageFailed Graph × Diagnostics) → Bool
  | .ok (.ok _, _) => true
  | _ => false

lemma exists_of_accepted {x : Checked (Except StageFailed Graph × Diagnostics)} (h : accepted x = true) :
    ∃ g sink, x = .ok (.ok g, sink) := by
  unfold accepted at h
  split at h
  · exact ⟨_, _, rfl⟩
  · cases h

/-- The run of a stage ends with a failure. -/
def refused : Checked (Except StageFailed Graph × Diagnostics) → Bool
  | .ok (.error _, _) => true
  | _ => false

lemma exists_of_refused {x : Checked (Except StageFailed Graph × Diagnostics)} (h : refused x = true) :
    ∃ failed sink, x = .ok (.error failed, sink) := by
  unfold refused at h
  split at h
  · exact ⟨_, _, rfl⟩
  · cases h

end Waveflow
