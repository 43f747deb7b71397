import Waveflow.Compile.Compiler
import Waveflow.Proofs.Lowering.Walk
import Waveflow.Proofs.Pass.Pipeline
import Waveflow.Proofs.Requirements
import Waveflow.Proofs.Schedule.Correct

/-!
# Where compilations fail

A graph that comes from a source text is sound: lowering builds it so, annotation leaves its structure
alone, and its constants are numbers because those of the text are.  Passes keep it sound, so the guard has
nothing to object to, no edit is refused, and there is a schedule.  What is left to go wrong after lowering
and annotation is a code that cannot be encoded.
-/

namespace Waveflow

open Checked (Yields)

variable {r : Registry} {ids : List PassId} {g g' : Graph} {sink ds : Diagnostics} {stage : Stage}

/-! ### Reports -/

/-- The errors are all of one stage, and there is one. -/
def Diagnostics.StoppedIn (ds : Diagnostics) (stage : Stage) : Prop :=
  ds.Failing stage ∧ ∀ d ∈ ds, d.isError = true → d.stage = stage

/-- After a stage that has passed its check nothing reported is an error. -/
lemma harmless_of_passed (hsink : Harmless sink) (hnew : ∀ d ∈ ds, d ∈ sink ∨ d.stage = stage)
    (hpassed : ¬ ds.Failing stage) : Harmless ds := by
  intro d hd
  rcases hnew d hd with hold | hstage
  · exact hsink d hold
  · by_contra herror
    exact hpassed ⟨d, hd, hstage, Bool.not_eq_false _ ▸ herror⟩

lemma stoppedIn_of_failing (hsink : Harmless sink) (hnew : ∀ d ∈ ds, d ∈ sink ∨ d.stage = stage)
    (hfailing : ds.Failing stage) : ds.StoppedIn stage := by
  refine ⟨hfailing, fun d hd herror => ?_⟩
  rcases hnew d hd with hold | hstage
  · rw [hsink d hold] at herror
    cases herror
  · exact hstage

lemma not_failing_of_harmless (h : Harmless ds) : ¬ ds.Failing stage := by
  rintro ⟨d, hd, -, herror⟩
  rw [h d hd] at herror
  cases herror

/-! ### Optimizing -/

/-- How optimizing ends, with nothing but harmless reports before: with a graph that the passes have
rewritten, or with the one error of a code that cannot be encoded.  An error that the stage had before
the passes ran makes it fail as well. -/
def Optimized (r : Registry) (ids : List PassId) (g : Graph) (sink : Diagnostics)
    (out : Except StageFailed Graph × Diagnostics) : Prop :=
  ∃ reported, Harmless reported ∧
    ((∃ g', out = (.ok g', sink ++ reported) ∧ Rewrites r ids g g') ∨
      (∃ id code, out = (.error ⟨.optimize, 1⟩,
          sink ++ reported ++ [(CompileError.unsupportedCode id code).diagnostic .optimize]) ∧
        .errorCorrection ∈ ids ∧ g.Wants r code ∧ code ∉ ProtectionPass.supportedCodes) ∨
      ∃ failed, out = (.error failed, sink ++ reported) ∧ sink.Failing .optimize)

/-- **Optimizing a sound graph gives a graph or the error of a code.** -/
theorem Pipeline.optimize_yields {p : Pipeline} (hr : r.Extends) (hpasses : p.passes = ids.map PassId.pass)
    (hceiling : ValidCeiling p.thermalCeiling) (hg : g.Sound) (sink : Diagnostics) :
    Yields (p.optimize r g sink) (Optimized r ids g sink) := by
  unfold optimize
  rw [hpasses]
  refine (iterate_yields (r := r) hceiling hg.toWellFormed hg.acyclic ids p.rounds).bind ?_
  rintro out ⟨hends, hharmless⟩
  dsimp only
  cases hresult : out.result with
  | error e =>
    rw [hresult] at hends
    obtain ⟨hp, id, code, rfl, hwants, hcode⟩ := hends hg hr
    exact ⟨out.reported, hharmless, .inr (.inl ⟨id, code, rfl, hp, hwants, hcode⟩)⟩
  | ok changed =>
    rw [hresult] at hends
    have hreported : ∃ reported, Harmless reported ∧
        (if p.fixedPoint && changed then sink ++ out.reported ++ [p.unsettled] else sink ++ out.reported) =
          sink ++ reported := by
      split
      · refine ⟨out.reported ++ [p.unsettled], hharmless.append ?_, List.append_assoc ..⟩
        exact List.forall_mem_singleton.2 rfl
      · exact ⟨out.reported, hharmless, rfl⟩
    obtain ⟨reported, hreported, heq⟩ := hreported
    dsimp only
    rw [heq]
    split
    · next failed hcheck =>
      refine ⟨reported, hreported, .inr (.inr ⟨failed, rfl, ?_⟩)⟩
      obtain ⟨d, hd, hstage, herror⟩ := Diagnostics.failing_of_check hcheck
      rcases List.mem_append.1 hd with hd | hd
      · exact ⟨d, hd, hstage, herror⟩
      · rw [hreported d hd] at herror
        cases herror
    · exact ⟨reported, hreported, .inl ⟨out.graph, rfl, hends⟩⟩

/-! ### Options -/

lemma exists_passes {names : List String} {passes : List Pass} (h : names.mapM Pipeline.passNamed = .ok passes) :
    ∃ ids : List PassId, passes = ids.map PassId.pass := by
  induction names generalizing passes with
  | nil =>
    obtain rfl := Except.ok.inj h
    exact ⟨[], rfl⟩
  | cons name rest ih =>
    rw [List.mapM_cons] at h
    obtain ⟨pass, hpass, h⟩ := Checked.bind_eq_ok.1 h
    obtain ⟨more, hmore, h⟩ := Checked.bind_eq_ok.1 h
    obtain rfl := Except.ok.inj h
    obtain ⟨ids, rfl⟩ := ih hmore
    unfold Pipeline.passNamed at hpass
    split at hpass
    · next id _ =>
      obtain rfl := Except.ok.inj hpass
      exact ⟨id :: ids, rfl⟩
    · cases hpass

lemma validCeiling_of_check {o : Options} (h : o.checkCeiling = .ok ()) : ValidCeiling o.thermalCeiling := by
  intro x hx
  unfold Options.checkCeiling at h
  rw [hx] at h
  dsimp only at h
  split at h
  · next hvalid =>
    rw [Bool.and_eq_true, Bool.not_eq_true', decide_eq_false_iff_not] at hvalid
    exact hvalid
  · cases h

/-- Options that are accepted give a pipeline of the four passes under a valid ceiling. -/
lemma ofOptions_spec {o : Options} {p : Pipeline} (h : Pipeline.ofOptions o = .ok p) :
    ValidCeiling p.thermalCeiling ∧ ∃ ids : List PassId, p.passes = ids.map PassId.pass := by
  unfold Pipeline.ofOptions Options.validate at h
  obtain ⟨_, hvalid, h⟩ := Checked.bind_eq_ok.1 h
  obtain ⟨_, hceiling, -⟩ := Checked.bind_eq_ok.1 hvalid
  obtain ⟨passes, hpasses, h⟩ := Checked.bind_eq_ok.1 h
  obtain rfl := Except.ok.inj h
  exact ⟨validCeiling_of_check hceiling, exists_passes hpasses⟩

lemma rounds_pos {o : Options} {p : Pipeline} (h : Pipeline.ofOptions o = .ok p) : 0 < p.rounds := by
  unfold Pipeline.ofOptions at h
  obtain ⟨_, -, h⟩ := Checked.bind_eq_ok.1 h
  obtain ⟨passes, -, h⟩ := Checked.bind_eq_ok.1 h
  obtain rfl := Except.ok.inj h
  exact Pipeline.rounds_ofPasses_pos ..

/-! ### Sound graphs on the way -/

lemma Graph.Built.sound (h : g.Built fun x => x.isNaN = false) : g.Sound :=
  ⟨h.wellFormed, h.acyclic, h.outputs, h.inputs, h.numbers⟩

/-- A sound graph with groups that were added has a schedule that fits it, and it is accepted. -/
lemma scheduleInto_fits (hg : g.Sound) (hmade : ∀ grp ∈ g.hints.groups, grp.Made) (sink : Diagnostics) :
    ∃ s, g.scheduleInto sink = .ok (.ok s, sink) ∧ s.Fits g := by
  have hsolid : ∀ grp ∈ g.hints.groups, Greedy.Solid grp := fun grp hgrp => (hmade grp hgrp).solid
  obtain ⟨s, hs, hfits⟩ := Graph.schedule_of_acyclic hg.ordered hsolid hg.closed hg.acyclic
  refine ⟨s, ?_, hfits⟩
  unfold Graph.scheduleInto
  rw [hs, Checked.ok_bind]
  dsimp only
  rw [hfits.verify_eq hg.ordered]
  rfl

/-! ### Compilations -/

/-- The compilation failed, and what it reports as errors is all of one stage: there it stopped. -/
def CompileResult.FailedIn (result : CompileResult) (stage : Stage) : Prop :=
  result.success = false ∧ result.diagnostics.StoppedIn stage

/-- How compilations end: with success, or in a stage before the schedule; and if it is the optimizer that
fails, the one error is that of a code that cannot be encoded. -/
def CompileResult.Concludes (result : CompileResult) : Prop :=
  result.success = true ∨ ∃ stage, result.FailedIn stage ∧ stage ≠ .schedule ∧
    (stage = .optimize → ∃ id code, result.diagnostics.filter Diagnostic.isError =
      [(CompileError.unsupportedCode id code).diagnostic .optimize])

namespace Compiler

variable {c : Compiler} {pipeline : Pipeline}

lemma concludes_failed (stage : Stage) (h : ds.StoppedIn stage) (hschedule : stage ≠ .schedule)
    (hoptimize : stage ≠ .optimize) (summary : Option Summary) : (CompileResult.failed ds summary).Concludes :=
  .inr ⟨stage, ⟨rfl, h⟩, hschedule, fun heq => absurd heq hoptimize⟩

lemma concludes_unsupported (hsink : Harmless sink) (id : NodeId) (code : String) (summary : Option Summary) :
    (CompileResult.failed (sink ++ [(CompileError.unsupportedCode id code).diagnostic .optimize])
      summary).Concludes := by
  have hfilter : sink.filter Diagnostic.isError = [] :=
    List.filter_eq_nil_iff.2 fun d hd herror => Bool.false_ne_true ((hsink d hd).symm.trans herror)
  refine .inr ⟨.optimize, ⟨rfl, ⟨_, List.mem_append_right _ (List.mem_singleton.2 rfl), rfl, rfl⟩, ?_⟩,
    by decide, fun _ => ⟨id, code, ?_⟩⟩
  · intro d hd herror
    rcases List.mem_append.1 hd with hd | hd
    · rw [hsink d hd] at herror
      cases herror
    · rw [List.mem_singleton.1 hd]
      rfl
  · show (sink ++ [_]).filter Diagnostic.isError = _
    rw [List.filter_append, hfilter]
    rfl

lemma finish_yields (hr : c.registry.Extends) (hpasses : pipeline.passes = ids.map PassId.pass)
    (hceiling : ValidCeiling pipeline.thermalCeiling) (hg : g.Sound) (hmade : ∀ grp ∈ g.hints.groups, grp.Made)
    (hsink : Harmless sink) : Yields (c.finish pipeline g sink) CompileResult.Concludes := by
  unfold finish
  refine (pipeline.optimize_yields hr hpasses hceiling hg sink).bind ?_
  rintro _ ⟨reported, hharmless, ⟨g', rfl, hchain⟩ | ⟨id, code, rfl, -⟩ | ⟨failed, rfl, hfailing⟩⟩
  · obtain ⟨s, hs, -⟩ :=
      scheduleInto_fits (Rewrites.sound hchain hg) (Rewrites.made hchain hmade) (sink ++ reported)
    dsimp only
    rw [hs, Checked.ok_bind]
    exact .inl rfl
  · exact concludes_unsupported (hsink.append hharmless) id code _
  · exact absurd hfailing (not_failing_of_harmless hsink)

lemma compileProgram_yields (hr : c.registry.Extends) (hpasses : pipeline.passes = ids.map PassId.pass)
    (hceiling : ValidCeiling pipeline.thermalCeiling) {p : Program}
    (hp : ∀ call ∈ Statement.callsAll p.statements, call.Plain fun x => x.isNaN = false) (hsink : Harmless sink) :
    Yields (c.compileProgram pipeline p sink) CompileResult.Concludes := by
  unfold compileProgram
  -- what the graph computes does not matter here
  let I : Interpretation Unit := ⟨fun _ => (), fun _ _ _ => ()⟩
  refine (Lowering.build_yields I (fun _ => ()) c.registry Lowering.defaultName hp sink).bind ?_
  rintro ⟨built, sink₁⟩ ⟨hdelivers, hnew₁⟩
  cases built with
  | error failed =>
    exact concludes_failed .build (stoppedIn_of_failing hsink hnew₁ hdelivers) (by decide) (by decide) _
  | ok g =>
    obtain ⟨hbuilt, -, hpassed₁⟩ := hdelivers
    have hsink₁ := harmless_of_passed hsink hnew₁ hpassed₁
    refine (Requirements.annotate_yields hbuilt.wellFormed.ordered hbuilt.acyclic sink₁).bind ?_
    rintro ⟨g', annotated, sink₂⟩ ⟨hg', hcheck, hnew₂⟩
    cases annotated with
    | error failed =>
      have hfailing := Diagnostics.failing_of_check hcheck.symm
      exact concludes_failed .annotate (stoppedIn_of_failing hsink₁ hnew₂ hfailing) (by decide) (by decide) _
    | ok _ =>
      have hpassed₂ := Diagnostics.check_eq_ok_iff.1 hcheck.symm
      have hmade : ∀ grp ∈ g'.hints.groups, grp.Made := by
        rw [hg'.hints_eq, hbuilt.hints]
        exact fun grp hgrp => absurd hgrp List.not_mem_nil
      exact finish_yields hr hpasses hceiling (hg'.sound hbuilt.sound) hmade
        (harmless_of_passed hsink₁ hnew₂ hpassed₂)

/-- **Compilations fail before they optimize, or because of a code.** -/
theorem compile_yields (hr : c.registry.Extends) (source : String) :
    Yields (c.compile source) CompileResult.Concludes := by
  unfold compile configure
  cases hoptions : Pipeline.ofOptions c.options with
  | error e =>
    refine concludes_failed .configure ⟨⟨_, List.mem_singleton.2 rfl, rfl, rfl⟩, ?_⟩
      (by decide) (by decide) none
    intro d hd _
    rw [List.mem_singleton.1 hd]
    rfl
  | ok pipeline =>
    obtain ⟨hceiling, ids, hpasses⟩ := ofOptions_spec hoptions
    unfold parseInto
    dsimp only
    cases hparse : parseSource c.registry source with
    | ok p => exact compileProgram_yields hr hpasses hceiling (parseSource_plain hparse) .nil
    | error errors =>
      obtain ⟨e, he⟩ := List.exists_mem_of_ne_nil _ (parseSource_errors hparse)
      refine concludes_failed .parse ⟨⟨e.diagnostic, List.mem_map_of_mem he, rfl, rfl⟩, ?_⟩
        (by decide) (by decide) none
      intro d hd _
      obtain ⟨e, -, rfl⟩ := List.mem_map.1 hd
      rfl

end Compiler

/-! ### The checks of the pipeline -/

/-- **The passes never trip the checks of the pipeline.**  Under a registry that extends the usual one, and as
long as no counter overflows: the passes, in any list, under any valid ceiling and in any number of rounds,
take a sound graph to a graph, or fail with the single error of a code that an operation of the graph asks for
and that cannot be encoded.  So no compilation fails in the schedule stage, and one that fails in the optimize
stage fails with that error. -/
theorem passes_trip_no_check (hr : r.Extends) :
    (∀ (p : Pipeline) (ids : List PassId) (g : Graph) (sink : Diagnostics), p.passes = ids.map PassId.pass →
      ValidCeiling p.thermalCeiling → g.Sound → Yields (p.optimize r g sink) (Optimized r ids g sink)) ∧
    ∀ (options : Options) (source : String), Yields (Compiler.compile ⟨r, options⟩ source)
      CompileResult.Concludes :=
  ⟨fun _ _ _ sink hpasses hceiling hg => Pipeline.optimize_yields hr hpasses hceiling hg sink,
    fun _ source => Compiler.compile_yields hr source⟩

/-- An operation that asks for a code which cannot be encoded. -/
def golay : Graph where
  name := "golay"
  nodes := [Node.plain 0 .input [] .scalar,
    { Node.plain 1 (.operation .merge) [0, 0] .scalar with
      attrs := { Attributes.plain with correction := .basic "golay" } }]
  inputs := [0]
  outputs := [⟨"y", 1⟩]
  hints := Hints.empty
  nextId := 2

lemma golay_sound : golay.Sound where
  ordered := Graph.ordered_iff.2 (by decide)
  below := by decide
  closed := by
    unfold Graph.Closed
    decide
  acyclic := by
    have hranked : golay.Ranked (fun id => id) := by
      unfold Graph.Ranked
      decide
    exact hranked.acyclic
  outputs := by decide
  inputs := by
    intro id
    constructor
    · intro hid
      obtain rfl := List.mem_singleton.1 hid
      exact ⟨_, List.mem_cons_self .., rfl, rfl⟩
    · rintro ⟨n, hn, rfl, hkind⟩
      simp only [golay, List.mem_cons, List.not_mem_nil, or_false] at hn
      rcases hn with rfl | rfl
      · exact List.mem_singleton.2 rfl
      · cases hkind
  numbers := by
    intro n hn x hx
    simp only [golay, List.mem_cons, List.not_mem_nil, or_false] at hn
    rcases hn with rfl | rfl <;> cases hx

/-- The error-correction pass, once. -/
def protecting : Pipeline := Pipeline.ofPasses [PassId.errorCorrection.pass] false 1 none

/-- A source text that asks for the same. -/
def golayText : String :=
  "input a: scalar; output y: scalar; y = merge(a, a, correction: \"basic\", code: \"golay\");"

/-- The compilation ends without success. -/
def rejected : Checked CompileResult → Bool
  | .ok result => !result.success
  | .error _ => false

lemma exists_of_rejected {x : Checked CompileResult} (h : rejected x = true) :
    ∃ result, x = .ok result ∧ result.success = false := by
  unfold rejected at h
  split at h
  · next result => exact ⟨result, rfl, by simpa using h⟩
  · cases h

theorem passes_trip_no_check_golay :
    (∃ sink, protecting.optimize Registry.builtin golay [] = .ok (.error ⟨.optimize, 1⟩, sink)) ∧
    (∃ code, golay.Wants Registry.builtin code ∧ code ∉ ProtectionPass.supportedCodes) ∧
    ∃ result, Compiler.compile ⟨Registry.builtin, Options.standard⟩ golayText = .ok result ∧
      result.success = false ∧ result.Concludes := by
  have hbuiltin : Registry.builtin.Extends := ⟨[], rfl⟩
  have hceiling : ValidCeiling protecting.thermalCeiling := fun x hx => by cases hx
  have hrejected : rejected (Compiler.compile ⟨Registry.builtin, Options.standard⟩ golayText) = true := by
    decide +kernel
  have hrefused : refused (protecting.optimize Registry.builtin golay []) = true := by decide +kernel
  obtain ⟨hoptimize, hcompile⟩ := passes_trip_no_check hbuiltin
  obtain ⟨result, hresult, hfailed⟩ := exists_of_rejected hrejected
  obtain ⟨failed, sink, hout⟩ := exists_of_refused hrefused
  have hoptimized := (hoptimize protecting [.errorCorrection] golay [] rfl hceiling golay_sound).of_ok hout
  obtain ⟨reported, -, ⟨g', hg', -⟩ | ⟨id, code, hcode, -, hwants, hunsupported⟩ | ⟨_, -, d, hd, -⟩⟩ :=
    hoptimized
  · cases hg'
  · injection hcode with hfailure
    rw [Except.error.inj hfailure] at hout
    -- for any text, so that this one is not read in full
    have hall : ∀ source, Compiler.compile ⟨Registry.builtin, Options.standard⟩ source = .ok result →
        result.Concludes := fun source hsource => (hcompile Options.standard source).of_ok hsource
    exact ⟨⟨sink, hout⟩, ⟨code, hwants, hunsupported⟩, result, hresult, hfailed, hall golayText hresult⟩
  · cases hd

end Waveflow
