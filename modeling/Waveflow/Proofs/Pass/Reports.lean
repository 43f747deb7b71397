import Waveflow.Proofs.Diagnostic
import Waveflow.Proofs.Pass.Trail

/-!
# What passes report

Each of the four passes reports warnings of the optimize stage, each of them at a node, and nothing else, whatever
the graph and the registry.  The guard adds no report, so this holds of what a trail of them leaves.
-/

namespace Waveflow

variable {r : Registry} {ctx : PassContext} {g : Graph} {out : Outcome}

/-- All that is reported is a warning of the optimize stage at a node. -/
def Remarks (ds : List Diagnostic) : Prop :=
  ∀ d ∈ ds, d.severity = .warning ∧ d.stage = .optimize ∧ d.node ≠ none

namespace Remarks

variable {ds more : List Diagnostic}

lemma nil : Remarks [] := fun _ hd => absurd hd List.not_mem_nil

lemma append (h : Remarks ds) (h' : Remarks more) : Remarks (ds ++ more) := by
  intro d hd
  rcases List.mem_append.1 hd with hd | hd
  · exact h d hd
  · exact h' d hd

lemma warns (h : Remarks ds) : Warns .optimize ds := fun d hd => ⟨(h d hd).1, (h d hd).2.1⟩

end Remarks

/-! ### Single passes -/

namespace CoherencePass

lemma exceeded_remarks (n : Node) (path : Float) : Remarks (exceeded n path) := by
  unfold exceeded
  split
  · intro d hd
    rw [List.mem_singleton.1 hd]
    exact ⟨rfl, rfl, Option.some_ne_none _⟩
  · exact .nil

lemma markAlong_remarks (r : Registry) (g : Graph) (known : List (NodeId × Float)) (ids : List NodeId) :
    Remarks (markAlong r g known ids).reported := by
  induction ids generalizing g known with
  | nil => exact .nil
  | cons id rest ih =>
    rw [markAlong]
    split
    · exact ih g known
    · next n hn =>
      dsimp only
      split
      · exact ih g _
      · exact (exceeded_remarks n _).append (ih _ _)

lemma run_remarks (h : run ctx g = .ok out) : Remarks out.reported := by
  unfold run at h
  dsimp only at h
  split at h
  · obtain rfl := Except.ok.inj h
    exact .nil
  · obtain ⟨marked, hmarked, h⟩ := Checked.bind_eq_ok.1 h
    obtain rfl := Except.ok.inj h
    unfold markAll at hmarked
    obtain ⟨order, -, hmarked⟩ := Checked.bind_eq_ok.1 hmarked
    cases order with
    | ok order =>
      obtain rfl := Except.ok.inj hmarked
      exact markAlong_remarks _ _ [] order
    | error stuck =>
      obtain rfl := Except.ok.inj hmarked
      exact .nil

end CoherencePass

namespace ThermalPass

variable {ceiling : Float} {id : NodeId} {ids : List NodeId}

lemma step_remarks (h : step r ceiling g id = .ok out) : Remarks out.reported := by
  unfold step at h
  split at h
  · obtain rfl := Except.ok.inj h
    exact .nil
  split at h
  · split at h
    · obtain rfl := Except.ok.inj h
      exact .nil
    split at h
    · obtain ⟨divided, -, h⟩ := Checked.bind_eq_ok.1 h
      obtain rfl := Except.ok.inj h
      exact .nil
    split at h
    · obtain rfl := Except.ok.inj h
      exact .nil
    · -- the only report, of a node that stays whole
      obtain rfl := Except.ok.inj h
      intro d hd
      rw [List.mem_singleton.1 hd]
      exact ⟨rfl, rfl, Option.some_ne_none _⟩
  · obtain rfl := Except.ok.inj h
    exact .nil

lemma steps_remarks (h : steps r ceiling ids g = .ok out) : Remarks out.reported := by
  induction ids generalizing g out with
  | nil =>
    obtain rfl := Except.ok.inj h
    exact .nil
  | cons id rest ih =>
    rw [steps] at h
    obtain ⟨first, hfirst, h⟩ := Checked.bind_eq_ok.1 h
    have hremarks := step_remarks hfirst
    cases hresult : first.result with
    | error e =>
      rw [hresult] at h
      obtain rfl := Except.ok.inj h
      exact hremarks
    | ok changed =>
      rw [hresult] at h
      obtain ⟨more, hmore, h⟩ := Checked.bind_eq_ok.1 h
      obtain rfl := Except.ok.inj h
      exact hremarks.append (ih hmore)

lemma run_remarks (h : run ctx g = .ok out) : Remarks out.reported := by
  unfold run at h
  split at h
  · obtain rfl := Except.ok.inj h
    exact .nil
  · exact steps_remarks h

end ThermalPass

lemma ProtectionPass.run_remarks (h : run ctx g = .ok out) : Remarks out.reported := by
  unfold run at h
  obtain ⟨wrapped, -, h⟩ := Checked.bind_eq_ok.1 h
  obtain rfl := Except.ok.inj h
  exact .nil

lemma PerformancePass.run_remarks (h : run g = .ok out) : Remarks out.reported := by
  unfold run at h
  obtain ⟨levels, -, h⟩ := Checked.bind_eq_ok.1 h
  cases levels with
  | error e =>
    obtain rfl := Except.ok.inj h
    exact .nil
  | ok hints =>
    obtain rfl := Except.ok.inj h
    split <;> exact .nil

/-- **Each of the four passes reports warnings of its stage at nodes.** -/
theorem PassId.run_remarks (p : PassId) (h : p.pass.run ctx g = .ok out) : Remarks out.reported := by
  cases p with
  | coherence => exact CoherencePass.run_remarks h
  | thermal => exact ThermalPass.run_remarks h
  | errorCorrection => exact ProtectionPass.run_remarks h
  | performance => exact PerformancePass.run_remarks h

/-! ### Trails -/

/-- The guard reports nothing of its own. -/
lemma Guard.run_remarks {p : Pass} (hp : ∀ ctx g out, p.run ctx g = .ok out → Remarks out.reported)
    (h : Guard.run p ctx g = .ok out) : Remarks out.reported := by
  unfold Guard.run at h
  obtain ⟨made, hmade, h⟩ := Checked.bind_eq_ok.1 h
  have hremarks := hp ctx g made hmade
  cases hresult : made.result with
  | error e =>
    rw [hresult] at h
    obtain rfl := Except.ok.inj h
    exact hremarks
  | ok changed =>
    rw [hresult] at h
    obtain ⟨decision, -, h⟩ := Checked.bind_eq_ok.1 h
    cases decision with
    | ok _ =>
      obtain rfl := Except.ok.inj h
      exact hremarks
    | error e =>
      obtain rfl := Except.ok.inj h
      exact hremarks

namespace Pipeline

variable {passes : List Pass} {outs : List Outcome}

/-- A trail of the four passes leaves warnings at nodes. -/
theorem trail_remarks (hpasses : ∀ q ∈ passes, ∃ id : PassId, q = id.pass) (h : trail ctx passes g = .ok outs) :
    Remarks (outs.flatMap (·.reported)) := by
  induction passes generalizing g outs with
  | nil =>
    obtain rfl := Except.ok.inj h
    exact .nil
  | cons q rest ih =>
    obtain ⟨id, rfl⟩ := hpasses q (List.mem_cons_self ..)
    rw [trail] at h
    obtain ⟨first, hfirst, h⟩ := Checked.bind_eq_ok.1 h
    have hremarks := Guard.run_remarks (fun _ _ _ hrun => id.run_remarks hrun) hfirst
    cases hresult : first.result with
    | error e =>
      rw [hresult] at h
      obtain rfl := Except.ok.inj h
      simpa using hremarks
    | ok changed =>
      rw [hresult] at h
      obtain ⟨more, hmore, h⟩ := Checked.bind_eq_ok.1 h
      obtain rfl := Except.ok.inj h
      rw [List.flatMap_cons]
      exact hremarks.append (ih (fun q hq => hpasses q (List.mem_cons_of_mem _ hq)) hmore)

/-- The stage itself has no node to name. -/
lemma unsettled_not_mem {ds : List Diagnostic} (h : Remarks ds) (p : Pipeline) : p.unsettled ∉ ds :=
  fun hd => (h _ hd).2.2 rfl

lemma warns_unsettled (p : Pipeline) : Warns .optimize [p.unsettled] := by
  intro d hd
  rw [List.mem_singleton.1 hd]
  exact ⟨rfl, rfl⟩

end Pipeline

end Waveflow
