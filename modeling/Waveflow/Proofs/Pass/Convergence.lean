import Waveflow.Proofs.Lowering.Walk
import Waveflow.Proofs.Pass.Reports
import Waveflow.Proofs.Pass.Settled

/-!
# Pipelines come to rest

`history` lists what the passes of a pipeline leave, round by round, and `iterate_eq` reads off it how the rounds end.
Of two rounds that follow each other and both report a change, at least one uses up potential: if the first is quiet,
the graph after it is settled, and the second would report no change if it were quiet as well.  So a pipeline of the
four passes makes at most twice as many rounds as the graph has potential, and two more (`history_rests`).  After that
it has come to rest, and the optimize stage does not report that it has not (`optimize_settles`).
-/

namespace Waveflow.Pipeline

open Checked (Yields)

variable {ctx : PassContext} {passes : List Pass} {ids : List PassId} {r : Registry} {ceiling : Option Float}
  {g : Graph} {outs : List Outcome} {rounds : List (List Outcome)}

/-! ### The rounds of a pipeline -/

/-- How a round ends: with its first failure, or with whether some pass reports a change. -/
def verdict : List Outcome → Except CompileError Bool
  | [] => .ok false
  | out :: rest =>
    match out.result with
    | .error e => .error e
    | .ok changed => (verdict rest).map (changed || ·)

/-- What the passes leave, round by round; a round follows only on one that reports a change. -/
def history (ctx : PassContext) (passes : List Pass) : Nat → Graph → Checked (List (List Outcome))
  | 0, _ => .ok []
  | rounds + 1, g => do
    let outs ← trail ctx passes g
    match verdict outs with
    | .ok true =>
      let more ← history ctx passes rounds (lastGraph g outs)
      return outs :: more
    | _ => return [outs]

/-- How the rounds end: as the last of them.  Before the first round everything may still change. -/
def conclusion (rounds : List (List Outcome)) : Except CompileError Bool :=
  (rounds.getLast?.map verdict).getD (.ok true)

/-- What the passes report in some rounds. -/
def reports (rounds : List (List Outcome)) : Diagnostics := rounds.flatten.flatMap (·.reported)

lemma runAll_eq : runAll ctx passes g =
    (fun outs => ⟨lastGraph g outs, verdict outs, outs.flatMap (·.reported)⟩) <$> trail ctx passes g := by
  induction passes generalizing g with
  | nil => rfl
  | cons p rest ih =>
    rw [runAll, trail]
    cases Guard.run p ctx g with
    | error f => rfl
    | ok first =>
      rw [Checked.ok_bind, Checked.ok_bind]
      cases hresult : first.result with
      | error e =>
        have hverdict : verdict [first] = first.result := by rw [verdict, hresult]
        simp [hverdict]
      | ok changed =>
        dsimp only
        rw [ih]
        cases trail ctx rest first.graph with
        | error f => rfl
        | ok more => simp [verdict, hresult]

/-- **The rounds of a pipeline are those of its history.** -/
theorem iterate_eq (m : Nat) : iterate ctx passes m g =
    (fun rounds => ⟨lastGraph g rounds.flatten, conclusion rounds, reports rounds⟩) <$> history ctx passes m g := by
  induction m generalizing g with
  | zero => rfl
  | succ m ih =>
    rw [iterate, history, runAll_eq]
    cases trail ctx passes g with
    | error f => rfl
    | ok outs =>
      rw [Checked.map_ok, Checked.ok_bind, Checked.ok_bind]
      dsimp only
      cases hverdict : verdict outs with
      | error e => simp [conclusion, reports, hverdict]
      | ok changed =>
        cases changed with
        | false => simp [conclusion, reports, hverdict]
        | true =>
          dsimp only
          rw [ih]
          cases history ctx passes m (lastGraph g outs) with
          | error f => rfl
          | ok more =>
            -- if no round follows, this one was the last, and it reports a change
            cases more with
            | nil => simp [conclusion, reports, hverdict]
            | cons next later => simp [conclusion, reports, lastGraph_append, List.getLast?_cons_cons]

/-- A pipeline has a history, unless a counter leaves its range. -/
lemma history_yields (hceiling : ValidCeiling ceiling) (hg : g.WellFormed) (ha : g.Acyclic) (ids : List PassId)
    (m : Nat) : Yields (history ⟨r, ceiling⟩ (ids.map PassId.pass) m g) fun _ => True := by
  have h := iterate_yields (r := r) hceiling hg ha ids m
  rw [iterate_eq] at h
  cases hrounds : history ⟨r, ceiling⟩ (ids.map PassId.pass) m g with
  | ok rounds => exact trivial
  | error f =>
    rw [hrounds] at h
    exact h

lemma exists_verdict (h : Passed outs) : ∃ changed, verdict outs = .ok changed ∧
    (changed = false ↔ ∀ out ∈ outs, out.result = .ok false) := by
  induction outs with
  | nil => exact ⟨false, rfl, by simp⟩
  | cons out rest ih =>
    obtain ⟨c, hc⟩ := h out (List.mem_cons_self ..)
    obtain ⟨c', hc', hiff⟩ := ih fun o ho => h o (List.mem_cons_of_mem _ ho)
    refine ⟨c || c', ?_, ?_⟩
    · rw [verdict, hc, hc']
      rfl
    · simp [hc, ← hiff]

lemma conclusion_of_still {before : List (List Outcome)} (h : ∀ out ∈ outs, out.result = .ok false) :
    conclusion (before ++ [outs]) = .ok false := by
  obtain ⟨changed, hverdict, hstill⟩ := exists_verdict fun out hout => ⟨false, h out hout⟩
  obtain rfl := hstill.2 h
  simp [conclusion, hverdict]

lemma length_trail (h : trail ctx passes g = .ok outs) (hpassed : Passed outs) : outs.length = passes.length := by
  induction passes generalizing g outs with
  | nil =>
    obtain rfl := Except.ok.inj h
    rfl
  | cons p rest ih =>
    obtain ⟨first, tail, changed, rfl, -, -, htail, hpassed'⟩ := exists_of_trail_cons h hpassed
    simp [ih htail hpassed']

/-! ### Coming to rest -/

/-- **A pipeline of the four passes comes to rest.**  A graph that is settled needs one round less. -/
theorem history_rests (hceiling : ValidCeiling ceiling) (hg : g.WellFormed) (ha : g.Acyclic) {m : Nat}
    (hm : 2 * g.potential + 1 < m ∨ 2 * g.potential < m ∧ ∀ p ∈ ids, p.Settled r g)
    (h : history ⟨r, ceiling⟩ (ids.map PassId.pass) m g = .ok rounds) (hpassed : Passed rounds.flatten)
    (hnumeric : ∀ out ∈ rounds.flatten, out.graph.PathsNumeric) :
    ∃ before last, rounds = before ++ [last] ∧ last.length = ids.length ∧
      ∀ out ∈ last, out.result = .ok false := by
  induction m generalizing g rounds with
  | zero => omega
  | succ m ih =>
    rw [history] at h
    obtain ⟨outs, houts, h⟩ := Checked.bind_eq_ok.1 h
    have hfirst : ∃ more, rounds = outs :: more := by
      split at h
      · obtain ⟨more, -, h⟩ := Checked.bind_eq_ok.1 h
        exact ⟨more, (Except.ok.inj h).symm⟩
      · exact ⟨[], (Except.ok.inj h).symm⟩
    obtain ⟨more, rfl⟩ := hfirst
    have hpassed' : Passed outs := fun out hout => hpassed out (by simp [hout])
    obtain ⟨changed, hverdict, hstill⟩ := exists_verdict hpassed'
    rw [hverdict] at h
    cases changed with
    | false =>
      obtain ⟨-, rfl⟩ := List.cons.inj (Except.ok.inj h)
      exact ⟨[], outs, rfl, by simpa using length_trail houts hpassed', hstill.1 rfl⟩
    | true =>
      obtain ⟨more', hmore, h⟩ := Checked.bind_eq_ok.1 h
      obtain ⟨-, rfl⟩ := List.cons.inj (Except.ok.inj h)
      have hmem : ∀ out ∈ more'.flatten, out ∈ (outs :: more').flatten :=
        fun _ hout => List.mem_append_right _ hout
      have hchain := trail_rewrites hceiling hg ha (List.Subset.refl ids) houts hpassed'
      obtain ⟨hle, hquiet⟩ := trail_advances hceiling hg ha houts hpassed'
        fun out hout => hnumeric out (by simp [hout])
      have hm' : 2 * (lastGraph g outs).potential + 1 < m ∨
          2 * (lastGraph g outs).potential < m ∧ ∀ p ∈ ids, p.Settled r (lastGraph g outs) := by
        rcases Nat.lt_or_eq_of_le hle with hlt | heq
        · omega
        · -- a quiet round that reports a change did not start from a settled graph
          rcases hm with hm | ⟨-, hsettled⟩
          · exact .inr ⟨by omega, (hquiet heq).settles⟩
          · exact absurd (hstill.2 ((hquiet heq).still hsettled)) (by decide)
      obtain ⟨before, last, rfl, hlast⟩ :=
        ih (Rewrites.wellFormed hchain hg) (Rewrites.acyclic hchain hg ha) hm' hmore
        (fun out hout => hpassed out (hmem out hout)) fun out hout => hnumeric out (hmem out hout)
      exact ⟨outs :: before, last, rfl, hlast⟩

/-- The reports of the rounds are warnings at nodes. -/
lemma history_remarks {m : Nat} (h : history ctx (ids.map PassId.pass) m g = .ok rounds) :
    Remarks (reports rounds) := by
  induction m generalizing g rounds with
  | zero =>
    obtain rfl := Except.ok.inj h
    exact .nil
  | succ m ih =>
    rw [history] at h
    obtain ⟨outs, houts, h⟩ := Checked.bind_eq_ok.1 h
    have hremarks : Remarks (outs.flatMap (·.reported)) := by
      refine trail_remarks (fun q hq => ?_) houts
      obtain ⟨id, -, rfl⟩ := List.mem_map.1 hq
      exact ⟨id, rfl⟩
    split at h
    · obtain ⟨more, hmore, h⟩ := Checked.bind_eq_ok.1 h
      obtain rfl := Except.ok.inj h
      unfold reports
      rw [List.flatten_cons, List.flatMap_append]
      exact hremarks.append (ih hmore)
    · obtain rfl := Except.ok.inj h
      simpa [reports] using hremarks

/-- A pipeline that comes to rest reports what its passes report, and nothing else. -/
lemma optimize_of_rests {m : Nat} (hm : 0 < m) (h : history ⟨r, ceiling⟩ passes m g = .ok rounds)
    (hrest : conclusion rounds = .ok false) (sink : Diagnostics) :
    (ofPasses passes true m ceiling).optimize r g sink =
      .ok (((sink ++ reports rounds).check .optimize).map fun _ => lastGraph g rounds.flatten,
        sink ++ reports rounds) := by
  have hrounds : (ofPasses passes true m ceiling).rounds = m := Nat.max_eq_left hm
  unfold optimize
  rw [hrounds]
  show (iterate ⟨r, ceiling⟩ passes m g >>= _) = _
  rw [iterate_eq, h, Checked.map_ok, Checked.ok_bind]
  dsimp only
  rw [hrest]
  dsimp only
  rw [Bool.and_false, if_neg Bool.false_ne_true]
  cases Diagnostics.check (sink ++ reports rounds) .optimize with
  | error failed => rfl
  | ok _ => rfl

/-- **The rounds of passes on a lowered and annotated graph come to rest.**  There is a number of rounds, the same for
all registries, all lists of the four passes and all ceilings, with this property: a pipeline that may make so many
rounds, and in which no pass fails and no node gets a path that is a NaN, ends with a round in which no pass reports
a change.  The stage then reports what the passes report, and not that they have not settled.  Nothing but a counter
that leaves its range keeps the pipeline from its rounds. -/
theorem optimize_settles {s : Registry} {o : Options} {name : String} {program : Program} {built : Graph}
    {sink sink₁ sink₂ : Diagnostics} {annotated : Except StageFailed Unit}
    (hbuild : Lowering.build s name program sink = .ok (.ok built, sink₁))
    (hannotate : Requirements.annotate s o built sink₁ = .ok (g, annotated, sink₂)) :
    ∃ N, ∀ (r : Registry) (ids : List PassId) (ceiling : Option Float) (m : Nat),
      ValidCeiling ceiling → N ≤ m →
      Yields (history ⟨r, ceiling⟩ (ids.map PassId.pass) m g) fun rounds =>
        Passed rounds.flatten → (∀ out ∈ rounds.flatten, out.graph.PathsNumeric) →
        (∃ before last, rounds = before ++ [last] ∧ last.length = ids.length ∧
          ∀ out ∈ last, out.result = .ok false) ∧
        let p := ofPasses (ids.map PassId.pass) true m ceiling
        p.unsettled ∉ reports rounds ∧
          ∀ sink, p.optimize r g sink =
            .ok (((sink ++ reports rounds).check .optimize).map fun _ => lastGraph g rounds.flatten,
              sink ++ reports rounds) := by
  -- what the graph computes does not matter here
  let I : Interpretation Unit := ⟨fun _ => (), fun _ _ _ => ()⟩
  have hplain : ∀ c ∈ Statement.callsAll program.statements, c.Plain (fun _ => True) := fun _ _ _ _ _ _ => trivial
  obtain ⟨⟨hbuilt, -⟩, -⟩ := (Lowering.build_yields I (fun _ => ()) s name hplain sink).of_ok hbuild
  obtain ⟨hattributes, -⟩ :=
    (Requirements.annotate_yields hbuilt.wellFormed.ordered hbuilt.acyclic sink₁).of_ok hannotate
  have hg : g.WellFormed := hattributes.wellFormed hbuilt.wellFormed
  have ha : g.Acyclic := hattributes.acyclic hbuilt.acyclic
  refine ⟨2 * g.potential + 2, fun r ids ceiling m hceiling hm => ?_⟩
  have hyields := history_yields (r := r) hceiling hg ha ids m
  cases hrounds : history ⟨r, ceiling⟩ (ids.map PassId.pass) m g with
  | error f =>
    rw [hrounds] at hyields
    exact hyields
  | ok rounds =>
    intro hpassed hnumeric
    obtain ⟨before, last, rfl, hlength, hstill⟩ :=
      history_rests hceiling hg ha (.inl (by omega)) hrounds hpassed hnumeric
    refine ⟨⟨before, last, rfl, hlength, hstill⟩, unsettled_not_mem (history_remarks hrounds) _, fun sink => ?_⟩
    exact optimize_of_rests (by omega) hrounds (conclusion_of_still hstill) sink

/-! ### Passes that make work for each other -/

/-- A pipeline that has come to rest makes no further round. -/
lemma history_mono {k m : Nat} (h : history ctx passes k g = .ok rounds) (hrest : conclusion rounds = .ok false)
    (hle : k ≤ m) : history ctx passes m g = .ok rounds := by
  induction k generalizing g m rounds with
  | zero =>
    obtain rfl := Except.ok.inj h
    cases hrest
  | succ k ih =>
    obtain ⟨m, rfl⟩ : ∃ m', m = m' + 1 := ⟨m - 1, by omega⟩
    rw [history] at h ⊢
    obtain ⟨outs, houts, h⟩ := Checked.bind_eq_ok.1 h
    rw [houts, Checked.ok_bind]
    cases hverdict : verdict outs with
    | error e =>
      rw [hverdict] at h
      exact h
    | ok changed =>
      rw [hverdict] at h
      cases changed with
      | false => exact h
      | true =>
        obtain ⟨more, hmore, h⟩ := Checked.bind_eq_ok.1 h
        obtain rfl := Except.ok.inj h
        have hrest' : conclusion more = .ok false := by
          cases more with
          | nil => simp [conclusion, hverdict] at hrest
          | cons next later => simpa [conclusion, List.getLast?_cons_cons] using hrest
        dsimp only
        rw [ih hmore hrest' (by omega)]
        rfl

/-- Two equal operations that are merged and divided; what uses them asks for protection and is divided as well, and
what protects it is reported as too hot. -/
def contested : Program where
  declarations := [⟨.input, "a", .scalar, .nowhere⟩, ⟨.output, "y", .scalar, .nowhere⟩]
  statements :=
    [.assignment "u" ⟨"split", [⟨none, .identifier "a", .nowhere⟩], .nowhere⟩ .nowhere,
      .assignment "v" ⟨"split", [⟨none, .identifier "a", .nowhere⟩], .nowhere⟩ .nowhere,
      .assignment "y" ⟨"merge", [⟨none, .identifier "u", .nowhere⟩, ⟨none, .identifier "v", .nowhere⟩,
        ⟨some "correction", .literal (.text "basic"), .nowhere⟩], .nowhere⟩ .nowhere]

/-- Merge and mark, protect, divide. -/
def contenders : List PassId := [.coherence, .errorCorrection, .thermal]

/-- The rounds of the passes on the lowered and annotated program. -/
def contest : Checked (List (List Outcome)) := do
  let lowered ← Lowering.build .builtin "contested" contested []
  match lowered.1 with
  | .error _ => return []
  | .ok built =>
    let annotated ← Requirements.annotate .builtin .standard built lowered.2
    history ⟨.builtin, some 0.75⟩ (contenders.map PassId.pass) 4 annotated.1

/-- The path that the node carries is not a NaN. -/
def hasNumericPath (n : Node) : Bool :=
  match n.attrs.mark? pathMark with
  | some (.number x) => !x.isNaN
  | _ => true

/-- No pass fails, no path is a NaN, and the last round reports no change. -/
def restsSmoothly : Checked (List (List Outcome)) → Bool
  | .ok rounds =>
    rounds.flatten.all (fun out => (verdict [out]).isOk && out.graph.nodes.all hasNumericPath) &&
      (match conclusion rounds with
        | .ok changed => !changed
        | .error _ => false)
  | .error _ => false

lemma exists_of_restsSmoothly {x : Checked (List (List Outcome))} (h : restsSmoothly x = true) :
    ∃ rounds, x = .ok rounds ∧ Passed rounds.flatten ∧ (∀ out ∈ rounds.flatten, out.graph.PathsNumeric) ∧
      conclusion rounds = .ok false := by
  cases x with
  | error f => cases h
  | ok rounds =>
    simp only [restsSmoothly, Bool.and_eq_true, List.all_eq_true] at h
    obtain ⟨hall, hrest⟩ := h
    refine ⟨rounds, rfl, fun out hout => ?_, fun out hout n hn y hy => ?_, ?_⟩
    · have hok := (hall out hout).1
      cases hresult : out.result with
      | ok changed => exact ⟨changed, rfl⟩
      | error e => simp [verdict, hresult, Except.isOk, Except.toBool] at hok
    · have hpath := (hall out hout).2 n hn
      simpa [hasNumericPath, hy] using hpath
    · split at hrest
      · next changed hchanged => simpa [hchanged] using hrest
      · cases hrest

/-- From some number of rounds on, the passes settle on the program. -/
theorem optimize_settles_contested : ∃ built sink₁ g annotated sink₂,
    Lowering.build .builtin "contested" contested [] = .ok (.ok built, sink₁) ∧
    Requirements.annotate .builtin .standard built sink₁ = .ok (g, annotated, sink₂) ∧
    ∃ N, ∀ m, N ≤ m → ∃ rounds, history ⟨.builtin, some 0.75⟩ (contenders.map PassId.pass) m g =
      .ok rounds ∧
      (∃ before last, rounds = before ++ [last] ∧ ∀ out ∈ last, out.result = .ok false) ∧
      (ofPasses (contenders.map PassId.pass) true m (some 0.75)).unsettled ∉ reports rounds := by
  have hsmooth : restsSmoothly contest = true := by decide +kernel
  obtain ⟨rounds, hcontest, hpassed, hnumeric, hrest⟩ := exists_of_restsSmoothly hsmooth
  obtain ⟨⟨lowered, sink₁⟩, hbuild, hcontest⟩ := Checked.bind_eq_ok.1 hcontest
  cases lowered with
  | error failed =>
    obtain rfl := Except.ok.inj hcontest
    cases hrest
  | ok built =>
    obtain ⟨⟨g, annotated, sink₂⟩, hannotate, hrounds⟩ := Checked.bind_eq_ok.1 hcontest
    have hceiling : ValidCeiling (some 0.75) := by
      intro x hx
      obtain rfl := Option.some.inj hx
      unfold ThermalPass.Valid
      decide +kernel
    obtain ⟨N, hN⟩ := optimize_settles hbuild hannotate
    refine ⟨built, sink₁, g, annotated, sink₂, hbuild, hannotate, N + 4, fun m hm => ?_⟩
    have hmore := history_mono hrounds hrest (by omega : 4 ≤ m)
    obtain ⟨⟨before, last, hsplit, -, hstill⟩, hunsettled, -⟩ :=
      (hN .builtin contenders (some 0.75) m hceiling (by omega)).of_ok hmore hpassed hnumeric
    exact ⟨rounds, hmore, ⟨before, last, hsplit, hstill⟩, hunsettled⟩

end Waveflow.Pipeline
