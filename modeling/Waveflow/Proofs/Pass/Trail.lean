import Waveflow.Pass.Pipeline
import Waveflow.Proofs.Checked

/-!
# The trail of a pipeline

`trail` lists what passes leave one after the other under the guard, up to the first that fails.  However many
rounds a pipeline makes, it leaves one such trail, that of its passes repeated as often as there were rounds
(`iterate_traced`): it ends with the last graph of the trail, it has reported what the passes of the trail have
reported, in order, and it fails exactly as the last of them fails.  `optimize_cases` says what the optimize
stage makes of this.
-/

namespace Waveflow.Pipeline

variable {ctx : PassContext} {passes more : List Pass} {g : Graph} {out first : Outcome} {outs outs' : List Outcome}

/-- What passes leave one after the other, up to the first that fails. -/
def trail (ctx : PassContext) : List Pass → Graph → Checked (List Outcome)
  | [], _ => .ok []
  | p :: rest, g => do
    let first ← Guard.run p ctx g
    match first.result with
    | .error _ => return [first]
    | .ok _ =>
      let more ← trail ctx rest first.graph
      return first :: more

/-- The last graph of a trail that starts at `g`. -/
def lastGraph (g : Graph) (outs : List Outcome) : Graph := (outs.map (·.graph)).getLastD g

@[simp] lemma lastGraph_nil : lastGraph g [] = g := rfl

@[simp] lemma lastGraph_cons : lastGraph g (first :: outs) = lastGraph first.graph outs :=
  List.getLastD_cons ..

lemma lastGraph_append : lastGraph g (outs ++ outs') = lastGraph (lastGraph g outs) outs' := by
  induction outs generalizing g with
  | nil => rfl
  | cons first outs ih => simp [ih]

/-- None of the passes has failed. -/
def Passed (outs : List Outcome) : Prop := ∀ out ∈ outs, ∃ changed, out.result = .ok changed

/-- How a trail ends: no pass has failed, or the last one has. -/
def EndsWith (outs : List Outcome) : Except CompileError Bool → Prop
  | .ok _ => Passed outs
  | .error e => ∃ before failed, outs = before ++ [failed] ∧ Passed before ∧ failed.result = .error e

/-- An outcome sums up the trail of some passes. -/
structure Traced (ctx : PassContext) (passes : List Pass) (g : Graph) (outs : List Outcome) (out : Outcome) :
    Prop where
  trail_eq : trail ctx passes g = .ok outs
  graph_eq : out.graph = lastGraph g outs
  reported_eq : out.reported = outs.flatMap (·.reported)
  ends : EndsWith outs out.result

lemma Passed.append (h : Passed outs) (h' : Passed outs') : Passed (outs ++ outs') := by
  intro out hout
  rcases List.mem_append.1 hout with hout | hout
  · exact h out hout
  · exact h' out hout

lemma EndsWith.after {result : Except CompileError Bool} (h : Passed outs) (h' : EndsWith outs' result) :
    EndsWith (outs ++ outs') result := by
  cases result with
  | ok changed => exact h.append h'
  | error e =>
    obtain ⟨before, failed, rfl, hbefore, hfailed⟩ := h'
    exact ⟨outs ++ before, failed, (List.append_assoc ..).symm, h.append hbefore, hfailed⟩

lemma EndsWith.map {result : Except CompileError Bool} (h : EndsWith outs result) (f : Bool → Bool) :
    EndsWith outs (result.map f) := by
  cases result with
  | ok changed => exact h
  | error e => exact h

/-- The first step of a trail without a failure. -/
lemma exists_of_trail_cons {p : Pass} (h : trail ctx (p :: passes) g = .ok outs) (hpassed : Passed outs) :
    ∃ first rest changed, outs = first :: rest ∧ Guard.run p ctx g = .ok first ∧ first.result = .ok changed ∧
      trail ctx passes first.graph = .ok rest ∧ Passed rest := by
  rw [trail] at h
  obtain ⟨first, hfirst, h⟩ := Checked.bind_eq_ok.1 h
  cases hresult : first.result with
  | error e =>
    rw [hresult] at h
    obtain rfl := Except.ok.inj h
    obtain ⟨changed, hchanged⟩ := hpassed first (by simp)
    rw [hresult] at hchanged
    cases hchanged
  | ok changed =>
    rw [hresult] at h
    obtain ⟨rest, hrest, h⟩ := Checked.bind_eq_ok.1 h
    obtain rfl := Except.ok.inj h
    exact ⟨first, rest, changed, rfl, hfirst, hresult, hrest,
      fun out hout => hpassed out (List.mem_cons_of_mem _ hout)⟩

/-- Trails are joined where the first one has not failed. -/
lemma trail_append (h : trail ctx passes g = .ok outs) (hpassed : Passed outs)
    (h' : trail ctx more (lastGraph g outs) = .ok outs') : trail ctx (passes ++ more) g = .ok (outs ++ outs') := by
  induction passes generalizing g outs with
  | nil =>
    cases h
    exact h'
  | cons p rest ih =>
    obtain ⟨first, tail, changed, rfl, hfirst, hresult, htail, hpassed'⟩ := exists_of_trail_cons h hpassed
    rw [lastGraph_cons] at h'
    rw [List.cons_append, trail, hfirst, Checked.ok_bind, hresult]
    dsimp only
    rw [ih htail hpassed' h']
    rfl

lemma Traced.append (h : Traced ctx passes g outs first) {changed : Bool} (hok : first.result = .ok changed)
    (h' : Traced ctx more first.graph outs' out) :
    Traced ctx (passes ++ more) g (outs ++ outs') { out with reported := first.reported ++ out.reported } := by
  have hpassed : Passed outs := by
    have hends := h.ends
    rw [hok] at hends
    exact hends
  refine ⟨?_, ?_, ?_, ?_⟩
  · refine trail_append h.trail_eq hpassed ?_
    rw [← h.graph_eq]
    exact h'.trail_eq
  · show out.graph = _
    rw [lastGraph_append, ← h.graph_eq, h'.graph_eq]
  · show first.reported ++ out.reported = _
    rw [List.flatMap_append, ← h.reported_eq, ← h'.reported_eq]
  · exact h'.ends.after hpassed

lemma guard_traced {p : Pass} (h : Guard.run p ctx g = .ok out) : Traced ctx [p] g [out] out := by
  refine ⟨?_, rfl, (List.append_nil _).symm, ?_⟩
  · unfold trail
    rw [h, Checked.ok_bind]
    cases out.result with
    | error e => rfl
    | ok changed => rfl
  · cases hresult : out.result with
    | error e => exact ⟨[], out, rfl, fun _ hout => absurd hout List.not_mem_nil, hresult⟩
    | ok changed =>
      intro o ho
      rw [List.mem_singleton.1 ho]
      exact ⟨changed, hresult⟩

theorem runAll_traced (h : runAll ctx passes g = .ok out) : ∃ outs, Traced ctx passes g outs out := by
  induction passes generalizing g out with
  | nil =>
    cases h
    exact ⟨[], rfl, rfl, rfl, fun _ hout => absurd hout List.not_mem_nil⟩
  | cons p rest ih =>
    rw [runAll] at h
    obtain ⟨first, hfirst, h⟩ := Checked.bind_eq_ok.1 h
    have hone := guard_traced hfirst
    cases hresult : first.result with
    | error e =>
      rw [hresult] at h
      obtain rfl := Except.ok.inj h
      refine ⟨[first], ?_, hone.graph_eq, hone.reported_eq, hone.ends⟩
      rw [trail, hfirst, Checked.ok_bind, hresult]
      rfl
    | ok changed =>
      rw [hresult] at h
      obtain ⟨last, hlast, h⟩ := Checked.bind_eq_ok.1 h
      cases h
      obtain ⟨outs, houts⟩ := ih hlast
      have hall := hone.append hresult houts
      exact ⟨first :: outs, hall.trail_eq, hall.graph_eq, hall.reported_eq, hall.ends.map _⟩

/-- **A pipeline leaves one trail**, of its passes repeated once for every round. -/
theorem iterate_traced {rounds : Nat} (h : iterate ctx passes rounds g = .ok out) :
    ∃ k ≤ rounds, (0 < rounds → 0 < k) ∧ ∃ outs, Traced ctx (List.replicate k passes).flatten g outs out := by
  induction rounds generalizing g out with
  | zero =>
    cases h
    exact ⟨0, Nat.le_refl 0, id, [], rfl, rfl, rfl, fun _ hout => absurd hout List.not_mem_nil⟩
  | succ rounds ih =>
    rw [iterate] at h
    obtain ⟨first, hfirst, h⟩ := Checked.bind_eq_ok.1 h
    obtain ⟨outs, houts⟩ := runAll_traced hfirst
    have honce : Traced ctx (List.replicate 1 passes).flatten g outs first := by simpa using houts
    have hround : ∃ k ≤ rounds + 1, (0 < rounds + 1 → 0 < k) ∧
        ∃ outs, Traced ctx (List.replicate k passes).flatten g outs first :=
      ⟨1, Nat.le_add_left 1 rounds, fun _ => Nat.one_pos, outs, honce⟩
    cases hresult : first.result with
    | error e =>
      rw [hresult] at h
      cases h
      exact hround
    | ok changed =>
      rw [hresult] at h
      cases changed with
      | false =>
        cases h
        exact hround
      | true =>
        obtain ⟨last, hlast, h⟩ := Checked.bind_eq_ok.1 h
        cases h
        obtain ⟨k, hk, -, outs', houts'⟩ := ih hlast
        refine ⟨k + 1, Nat.succ_le_succ hk, fun _ => Nat.succ_pos k, outs ++ outs', ?_⟩
        rw [List.replicate_succ, List.flatten_cons]
        exact houts.append hresult houts'

lemma rounds_ofPasses_pos (passes : List Pass) (fixedPoint : Bool) (maxIterations : Nat) (ceiling : Option Float) :
    0 < (ofPasses passes fixedPoint maxIterations ceiling).rounds := by
  unfold rounds ofPasses
  split
  · exact Nat.lt_of_lt_of_le Nat.one_pos (Nat.le_max_right ..)
  · exact Nat.one_pos

/-! ### The optimize stage -/

/-- How the stage ends, in terms of the rounds: with the error of a pass after all reports, or with the graph
of the last pass unless its check finds an error among the reports. -/
lemma optimize_cases {p : Pipeline} {r : Registry} {sink sink' : Diagnostics} {result : Except StageFailed Graph}
    (h : p.optimize r g sink = .ok (result, sink')) :
    ∃ out, iterate ⟨r, p.thermalCeiling⟩ p.passes p.rounds g = .ok out ∧
      ((∃ e, out.result = .error e ∧ result = .error ⟨.optimize, 1⟩ ∧
          sink' = sink ++ out.reported ++ [e.diagnostic .optimize]) ∨
        ∃ changed late, out.result = .ok changed ∧ (late = [] ∨ late = [p.unsettled]) ∧
          sink' = sink ++ out.reported ++ late ∧ result = (sink'.check .optimize).map fun _ => out.graph) := by
  unfold optimize at h
  obtain ⟨out, hout, h⟩ := Checked.bind_eq_ok.1 h
  refine ⟨out, hout, ?_⟩
  cases hresult : out.result with
  | error e =>
    rw [hresult] at h
    obtain ⟨rfl, rfl⟩ := Prod.mk.inj (Except.ok.inj h)
    exact .inl ⟨e, rfl, rfl, rfl⟩
  | ok changed =>
    rw [hresult] at h
    have hlate : ∃ late, (late = [] ∨ late = [p.unsettled]) ∧
        (if p.fixedPoint && changed then sink ++ out.reported ++ [p.unsettled] else sink ++ out.reported) =
          sink ++ out.reported ++ late := by
      split
      · exact ⟨_, .inr rfl, rfl⟩
      · exact ⟨[], .inl rfl, (List.append_nil _).symm⟩
    obtain ⟨late, hlate, heq⟩ := hlate
    dsimp only at h
    rw [heq] at h
    refine .inr ⟨changed, late, rfl, hlate, ?_⟩
    cases hcheck : Diagnostics.check (sink ++ out.reported ++ late) .optimize with
    | error failed =>
      rw [hcheck] at h
      obtain ⟨rfl, rfl⟩ := Prod.mk.inj (Except.ok.inj h)
      exact ⟨rfl, by rw [hcheck]; rfl⟩
    | ok _ =>
      rw [hcheck] at h
      obtain ⟨rfl, rfl⟩ := Prod.mk.inj (Except.ok.inj h)
      exact ⟨rfl, by rw [hcheck]; rfl⟩

end Waveflow.Pipeline
