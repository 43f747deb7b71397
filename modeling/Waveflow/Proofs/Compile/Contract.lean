import Waveflow.Proofs.Artifact
import Waveflow.Proofs.Compile.Stages
import Waveflow.Proofs.Pass.Interface
import Waveflow.Proofs.Pass.Reports
import Waveflow.Proofs.Requirements.Skeleton

/-!
# The contract of compilations

A compilation stops in a stage (`Compiler.Stops`) or comes to its end (`Compiler.Completes`); `compile_cases` says
that its result is then put together from what the stages have reported, each by itself.  Stages that go through
report warnings of their own and a stage that fails reports errors of its own, so a result has an error exactly if
the compilation stopped, and its diagnostics are in the order of the stages.

The graph at the end is a sound one that presents the program, by way of lowering, annotation and passes.  With
the schedule that fits it, it becomes an artifact.
-/

namespace Waveflow

variable {ds more : Diagnostics} {stage : Stage}

/-! ### Reports in the order of stages -/

/-- The place of a stage in a compilation. -/
def Stage.rank : Stage → Nat
  | configure => 0
  | parse => 1
  | build => 2
  | annotate => 3
  | optimize => 4
  | schedule => 5
  | emit => 6

/-- The diagnostics come in the order of their stages. -/
def Diagnostics.Staged (ds : Diagnostics) : Prop := ds.Pairwise fun d e => d.stage.rank ≤ e.stage.rank

lemma staged_of_stage (h : ∀ d ∈ ds, d.stage = stage) : ds.Staged := by
  refine List.pairwise_of_forall_mem_list fun d hd e he => ?_
  rw [h d hd, h e he]

/-- A stage reports after all that earlier ones have reported. -/
lemma Diagnostics.Staged.append (h : ds.Staged) (hle : ∀ d ∈ ds, d.stage.rank ≤ stage.rank)
    (hmore : ∀ d ∈ more, d.stage = stage) : Diagnostics.Staged (ds ++ more) := by
  refine List.pairwise_append.2 ⟨h, staged_of_stage hmore, fun d hd e he => ?_⟩
  rw [hmore e he]
  exact hle d hd

/-- After harmless reports, the check of a stage finds an error exactly if one has been reported. -/
lemma check_errors_iff {errors : List CompileError} (h : Harmless ds) :
    Diagnostics.check (ds ++ errors.map (·.diagnostic stage)) stage = .ok () ↔ errors = [] := by
  constructor
  · exact errors_eq_nil_of_check
  · rintro rfl
    rw [List.map_nil, List.append_nil]
    exact Diagnostics.check_eq_ok_iff.2 (not_failing_of_harmless h)

lemma Warns.harmless (h : Warns stage ds) : Harmless ds := fun _ hd => h.isError hd

/-- Success, a schedule, a graph and a report without an error go together. -/
structure CompileResult.Coherent (result : CompileResult) : Prop where
  schedule : result.success = true ↔ result.schedule.isSome = true
  graph : result.success = true ↔ result.graph.isSome = true
  errors : result.success = true ↔ ∀ d ∈ result.diagnostics, d.isError = false

lemma coherent_failed (h : ∃ d ∈ ds, d.isError = true) (summary : Option Summary) :
    (CompileResult.failed ds summary).Coherent := by
  refine ⟨by simp [CompileResult.failed], by simp [CompileResult.failed],
    fun h => Bool.noConfusion h, fun hnone => ?_⟩
  obtain ⟨d, hd, herror⟩ := h
  rw [hnone d hd] at herror
  cases herror

lemma coherent_succeeded (h : Harmless ds) (g : Graph) (s : Schedule) : (CompileResult.succeeded ds g s).Coherent :=
  ⟨⟨fun _ => rfl, fun _ => rfl⟩, ⟨fun _ => rfl, fun _ => rfl⟩, ⟨fun _ => h, fun _ => rfl⟩⟩

/-! ### Single stages -/

namespace Lowering

/-- The warnings of a graph that has been built. -/
abbrev unused (g : Graph) : Diagnostics := unusedOutputs g ++ unusedValues g

lemma unused_warns (g : Graph) : Warns .build (unused g) := (unusedOutputs_warns g).append (unusedValues_warns g)

/-- Building reports the errors of the walk, or gives its graph with warnings. -/
lemma build_cases {r : Registry} {name : String} {p : Program} {out : Except StageFailed Graph} {sink : Diagnostics}
    (h : build r name p [] = .ok (out, sink)) : ∃ st, lower r name p = .ok st ∧
      ((st.errors ≠ [] ∧ (∃ failed, out = .error failed) ∧ sink = st.errors.map (·.diagnostic .build)) ∨
        (st.errors = [] ∧ out = .ok st.graph ∧ sink = unused st.graph)) := by
  unfold build at h
  obtain ⟨st, hst, h⟩ := Checked.bind_eq_ok.1 h
  have hiff : Diagnostics.check ([] ++ st.errors.map (·.diagnostic .build)) .build = .ok () ↔ st.errors = [] :=
    check_errors_iff .nil
  refine ⟨st, hst, ?_⟩
  dsimp only at h
  split at h
  · next failed hcheck =>
    obtain ⟨rfl, rfl⟩ := Prod.mk.inj (Except.ok.inj h)
    refine .inl ⟨fun hnil => ?_, ⟨failed, rfl⟩, rfl⟩
    rw [hiff.2 hnil] at hcheck
    cases hcheck
  · next hcheck =>
    obtain ⟨rfl, rfl⟩ := Prod.mk.inj (Except.ok.inj h)
    have hnil := hiff.1 hcheck
    refine .inr ⟨hnil, rfl, ?_⟩
    rw [hnil]
    rfl

end Lowering

/-- Annotation reports its errors, and fails exactly if there are some. -/
lemma Requirements.annotate_cases {r : Registry} {o : Options} {g g' : Graph} {sink sink' : Diagnostics}
    {out : Except StageFailed Unit} (hsink : Harmless sink) (h : annotate r o g sink = .ok (g', out, sink')) :
    ∃ errors, annotated r o g = .ok (g', errors) ∧ sink' = sink ++ errors.map (·.diagnostic .annotate) ∧
      (out = .ok () ↔ errors = []) := by
  obtain ⟨errors, hmade, rfl, rfl⟩ := annotate_ends h
  exact ⟨errors, hmade, rfl, check_errors_iff hsink⟩

namespace Compiler

variable {c : Compiler} {source : String} {pipeline : Pipeline} {p : Program} {built g : Graph} {outs : List Outcome}
variable {kept errors reported : Diagnostics} {result : CompileResult}

/-! ### How compilations go -/

/-- The options give a pipeline, and the text a program. -/
structure Reads (c : Compiler) (source : String) (pipeline : Pipeline) (p : Program) : Prop where
  options : Pipeline.ofOptions c.options = .ok pipeline
  program : parseSource c.registry source = .ok p

/-- The program is lowered to a graph, without an error. -/
structure Lowers (c : Compiler) (source : String) (pipeline : Pipeline) (p : Program) (g : Graph) : Prop
    extends c.Reads source pipeline p where
  lowered : ∃ st, Lowering.lower c.registry Lowering.defaultName p = .ok st ∧ st.errors = [] ∧ st.graph = g

/-- The graph is annotated, without an error. -/
structure Annotates (c : Compiler) (source : String) (pipeline : Pipeline) (p : Program) (built g : Graph) : Prop
    extends c.Lowers source pipeline p built where
  annotated : Requirements.annotated c.registry c.options built = .ok (g, [])

/-- One round of a pipeline or more leave the trail. -/
def Leaves (c : Compiler) (pipeline : Pipeline) (g : Graph) (outs : List Outcome) : Prop :=
  ∃ rounds, 0 < rounds ∧ rounds ≤ pipeline.rounds ∧
    Pipeline.trail ⟨c.registry, pipeline.thermalCeiling⟩ (List.replicate rounds pipeline.passes).flatten
      g = .ok outs

/-- **The compilation stops in a stage**: the stages before go through, with what they report kept, and the stage
reports errors.  Passes of the optimize stage that go through before the one that fails are kept as well. -/
inductive Stops (c : Compiler) (source : String) : Stage → Diagnostics → Diagnostics → Prop
  | configure {e : CompileError} : Pipeline.ofOptions c.options = .error e →
      Stops c source .configure [] [e.diagnostic .configure]
  | parse {pipeline : Pipeline} {errors : List SourceError} : Pipeline.ofOptions c.options = .ok pipeline →
      parseSource c.registry source = .error errors → Stops c source .parse [] (errors.map SourceError.diagnostic)
  | build {pipeline : Pipeline} {p : Program} {st : Lowering.State} : c.Reads source pipeline p →
      Lowering.lower c.registry Lowering.defaultName p = .ok st → st.errors ≠ [] →
      Stops c source .build [] (st.errors.map (·.diagnostic .build))
  | annotate {pipeline : Pipeline} {p : Program} {built g : Graph} {errors : List CompileError} :
      c.Lowers source pipeline p built → Requirements.annotated c.registry c.options built = .ok (g, errors) →
      errors ≠ [] → Stops c source .annotate (Lowering.unused built) (errors.map (·.diagnostic .annotate))
  | optimize {pipeline : Pipeline} {p : Program} {built g : Graph} {outs : List Outcome} {e : CompileError} :
      c.Annotates source pipeline p built g → c.Leaves pipeline g outs → Pipeline.EndsWith outs (.error e) →
      Stops c source .optimize (Lowering.unused built ++ outs.flatMap (·.reported)) [e.diagnostic .optimize]

/-- **The compilation comes to its end**: all passes go through, and the graph is that of the last one.  Besides
the stages, only the pipeline may report, that it had to stop while passes were changing the graph. -/
inductive Completes (c : Compiler) (source : String) : Program → Graph → Diagnostics → Prop
  | intro {pipeline : Pipeline} {p : Program} {built g : Graph} {outs : List Outcome} {late : Diagnostics} :
      c.Annotates source pipeline p built g → c.Leaves pipeline g outs → Pipeline.Passed outs →
      late = [] ∨ late = [pipeline.unsettled] →
      Completes c source p (Pipeline.lastGraph g outs)
        (Lowering.unused built ++ outs.flatMap (·.reported) ++ late)

/-! ### What stages hand on -/

lemma Lowers.isBuilt (h : c.Lowers source pipeline p g) : g.Built fun x => x.isNaN = false := by
  obtain ⟨st, hst, -, rfl⟩ := h.lowered
  -- what the graph computes does not matter here
  let I : Interpretation Unit := ⟨fun _ => (), fun _ _ _ => ()⟩
  exact ((Lowering.lower_yields I (fun _ => ()) c.registry _ (parseSource_plain h.program)).of_ok hst).1

lemma Lowers.presents (h : c.Lowers source pipeline p g) : g.Presents p := by
  obtain ⟨st, hst, hclean, rfl⟩ := h.lowered
  exact Lowering.lower_presents (check_of_parseSource h.program) hst hclean

lemma Annotates.reattributed (h : c.Annotates source pipeline p built g) : built.Reattributed g := by
  have hbuilt := h.toLowers.isBuilt
  exact (Requirements.annotated_yields hbuilt.wellFormed.ordered hbuilt.acyclic).of_ok h.annotated

lemma Annotates.sound (h : c.Annotates source pipeline p built g) : g.Sound :=
  h.reattributed.sound h.toLowers.isBuilt.sound

lemma Annotates.made (h : c.Annotates source pipeline p built g) : ∀ grp ∈ g.hints.groups, grp.Made := by
  rw [h.reattributed.hints_eq, h.toLowers.isBuilt.hints]
  exact fun grp hgrp => absurd hgrp List.not_mem_nil

/-- The passes of some rounds are those of the options. -/
lemma Reads.exists_ids (h : c.Reads source pipeline p) : ValidCeiling pipeline.thermalCeiling ∧
    ∀ rounds, ∃ ids : List PassId, (List.replicate rounds pipeline.passes).flatten = ids.map PassId.pass := by
  obtain ⟨hceiling, ids, hpasses⟩ := ofOptions_spec h.options
  refine ⟨hceiling, fun rounds => ⟨(List.replicate rounds ids).flatten, ?_⟩⟩
  rw [hpasses, List.map_flatten, List.map_replicate]

lemma Reads.leaves_warns (h : c.Reads source pipeline p) (hleaves : c.Leaves pipeline g outs) :
    Warns .optimize (outs.flatMap (·.reported)) := by
  obtain ⟨rounds, -, -, htrail⟩ := hleaves
  obtain ⟨ids, hids⟩ := h.exists_ids.2 rounds
  refine (Pipeline.trail_remarks (fun q hq => ?_) htrail).warns
  rw [hids] at hq
  obtain ⟨id, -, rfl⟩ := List.mem_map.1 hq
  exact ⟨id, rfl⟩

lemma Annotates.rewrites (h : c.Annotates source pipeline p built g) (hleaves : c.Leaves pipeline g outs)
    (hpassed : Pipeline.Passed outs) : ∃ ids, Rewrites c.registry ids g (Pipeline.lastGraph g outs) := by
  obtain ⟨rounds, -, -, htrail⟩ := hleaves
  obtain ⟨hceiling, hpasses⟩ := h.toReads.exists_ids
  obtain ⟨ids, hids⟩ := hpasses rounds
  rw [hids] at htrail
  exact ⟨ids, trail_rewrites hceiling h.sound.toWellFormed h.sound.acyclic (List.Subset.refl ids) htrail hpassed⟩

lemma Completes.program (h : c.Completes source p g reported) : parseSource c.registry source = .ok p := by
  obtain ⟨hannotates, -⟩ := h
  exact hannotates.program

/-- **What a compilation ends with** is sound, has groups that were added, and presents the program. -/
theorem Completes.graph (h : c.Completes source p g reported) :
    g.Sound ∧ (∀ grp ∈ g.hints.groups, grp.Made) ∧ g.Presents p := by
  obtain ⟨hannotates, hleaves, hpassed, -⟩ := h
  obtain ⟨ids, hchain⟩ := hannotates.rewrites hleaves hpassed
  refine ⟨Rewrites.sound hchain hannotates.sound, Rewrites.made hchain hannotates.made, ?_⟩
  have hbefore := hannotates.reattributed.sameInterface.presents hannotates.toLowers.presents
  exact (Rewrites.sameInterface hchain hannotates.sound.toWellFormed).presents hbefore

/-! ### What is reported -/

/-- What has been reported when a stage goes on: warnings in the order of the stages, none of a later stage. -/
structure Earlier (stage : Stage) (ds : Diagnostics) : Prop where
  staged : ds.Staged
  warning : ∀ d ∈ ds, d.severity = .warning
  upTo : ∀ d ∈ ds, d.stage.rank ≤ stage.rank

lemma earlier_nil : Earlier stage [] where
  staged := List.Pairwise.nil
  warning := fun _ hd => absurd hd List.not_mem_nil
  upTo := fun _ hd => absurd hd List.not_mem_nil

lemma Earlier.append (h : Earlier stage ds) (hmore : Warns stage more) : Earlier stage (ds ++ more) where
  staged := h.staged.append h.upTo fun d hd => (hmore d hd).2
  warning := by
    intro d hd
    rcases List.mem_append.1 hd with hd | hd
    · exact h.warning d hd
    · exact (hmore d hd).1
  upTo := by
    intro d hd
    rcases List.mem_append.1 hd with hd | hd
    · exact h.upTo d hd
    · rw [(hmore d hd).2]

lemma Earlier.harmless (h : Earlier stage ds) : Harmless ds := by
  intro d hd
  unfold Diagnostic.isError
  rw [h.warning d hd]
  rfl

lemma earlier_unused (g : Graph) (hstage : Stage.build.rank ≤ stage.rank) : Earlier stage (Lowering.unused g) where
  staged := staged_of_stage fun d hd => (Lowering.unused_warns g d hd).2
  warning := fun d hd => (Lowering.unused_warns g d hd).1
  upTo := fun d hd => (Lowering.unused_warns g d hd).2 ▸ hstage

/-- What is reported up to the end of the passes. -/
lemma earlier_passes (h : c.Annotates source pipeline p built g) (hleaves : c.Leaves pipeline g outs) :
    Earlier .optimize (Lowering.unused built ++ outs.flatMap (·.reported)) :=
  (earlier_unused built (by decide)).append (h.toReads.leaves_warns hleaves)

/-- **A compilation that stops** has warnings before and errors of its last stage after. -/
theorem Stops.reports (h : c.Stops source stage kept errors) :
    Earlier stage kept ∧ errors ≠ [] ∧ ∀ d ∈ errors, d.isError = true ∧ d.stage = stage := by
  have herrors : ∀ (stage : Stage) (es : List CompileError), ∀ d ∈ es.map (·.diagnostic stage),
      d.isError = true ∧ d.stage = stage := by
    intro stage es d hd
    obtain ⟨e, -, rfl⟩ := List.mem_map.1 hd
    exact ⟨rfl, rfl⟩
  cases h with
  | @configure e _ => exact ⟨earlier_nil, List.cons_ne_nil _ _, herrors .configure [e]⟩
  | parse _ hparse =>
    refine ⟨earlier_nil, fun hnil => parseSource_errors hparse (List.map_eq_nil_iff.1 hnil), fun d hd => ?_⟩
    obtain ⟨e, -, rfl⟩ := List.mem_map.1 hd
    exact ⟨rfl, rfl⟩
  | build _ _ hne => exact ⟨earlier_nil, fun hnil => hne (List.map_eq_nil_iff.1 hnil), herrors .build _⟩
  | annotate _ _ hne =>
    exact ⟨earlier_unused _ (by decide), fun hnil => hne (List.map_eq_nil_iff.1 hnil), herrors .annotate _⟩
  | @optimize _ _ _ _ _ e hannotates hleaves _ =>
    exact ⟨earlier_passes hannotates hleaves, List.cons_ne_nil _ _, herrors .optimize [e]⟩

/-- **A compilation that comes to its end** has reported warnings. -/
theorem Completes.reports (h : c.Completes source p g reported) : Earlier .optimize reported := by
  obtain ⟨hannotates, hleaves, -, hlate⟩ := h
  refine (earlier_passes hannotates hleaves).append ?_
  rcases hlate with rfl | rfl
  · exact .nil
  · exact Pipeline.warns_unsettled _

/-! ### The result -/

lemma finish_cases (h : c.Annotates source pipeline p built g)
    (hok : c.finish pipeline g (Lowering.unused built) = .ok result) :
    (∃ stage kept errors summary, c.Stops source stage kept errors ∧ result = .failed (kept ++ errors) summary) ∨
      ∃ g' reported s, c.Completes source p g' reported ∧ s.Fits g' ∧ result = .succeeded reported g' s := by
  unfold finish at hok
  obtain ⟨⟨optimized, sink⟩, hoptimize, hok⟩ := Checked.bind_eq_ok.1 hok
  obtain ⟨out, hiterate, hcases⟩ := Pipeline.optimize_cases hoptimize
  obtain ⟨rounds, hrounds, hpos, outs, htraced⟩ := Pipeline.iterate_traced hiterate
  have hleaves : c.Leaves pipeline g outs := ⟨rounds, hpos (rounds_pos h.options), hrounds, htraced.trail_eq⟩
  have hends := htraced.ends
  rw [htraced.reported_eq] at hcases
  rcases hcases with ⟨e, hresult, rfl, rfl⟩ | ⟨changed, late, hresult, hlate, rfl, rfl⟩
  · rw [hresult] at hends
    obtain rfl := Except.ok.inj hok
    exact .inl ⟨_, _, _, _, .optimize h hleaves hends, rfl⟩
  · rw [hresult] at hends
    have hcompletes := Completes.intro h hleaves hends hlate
    -- with warnings only, the check of the stage finds nothing
    have hharmless := hcompletes.reports.harmless
    rw [Diagnostics.check_eq_ok_iff.2 (not_failing_of_harmless hharmless), htraced.graph_eq] at hok
    obtain ⟨hsound, hmade, -⟩ := hcompletes.graph
    obtain ⟨s, hs, hfits⟩ := scheduleInto_fits hsound hmade
      (Lowering.unused built ++ outs.flatMap (·.reported) ++ late)
    obtain ⟨⟨scheduled, sink'⟩, hschedule, hok⟩ := Checked.bind_eq_ok.1 hok
    rw [hs] at hschedule
    cases hschedule
    obtain rfl := Except.ok.inj hok
    exact .inr ⟨_, _, s, hcompletes, hfits, rfl⟩

/-- **The result of a compilation** is that of a stage in which it stops, or of its end. -/
theorem compile_cases (hok : c.compile source = .ok result) :
    (∃ stage kept errors summary, c.Stops source stage kept errors ∧ result = .failed (kept ++ errors) summary) ∨
      ∃ p g reported s, c.Completes source p g reported ∧ s.Fits g ∧ result = .succeeded reported g s := by
  unfold compile configure at hok
  cases hoptions : Pipeline.ofOptions c.options with
  | error e =>
    rw [hoptions] at hok
    obtain rfl := Except.ok.inj hok
    exact .inl ⟨_, _, _, _, .configure hoptions, rfl⟩
  | ok pipeline =>
    rw [hoptions] at hok
    unfold parseInto at hok
    dsimp only at hok
    cases hparse : parseSource c.registry source with
    | error errors =>
      rw [hparse] at hok
      obtain rfl := Except.ok.inj hok
      exact .inl ⟨_, _, _, _, .parse hoptions hparse, rfl⟩
    | ok p =>
      rw [hparse] at hok
      have hreads : c.Reads source pipeline p := ⟨hoptions, hparse⟩
      dsimp only at hok
      unfold compileProgram at hok
      obtain ⟨⟨out, sink⟩, hbuild, hok⟩ := Checked.bind_eq_ok.1 hok
      obtain ⟨st, hst, ⟨hne, ⟨failed, rfl⟩, rfl⟩ | ⟨hclean, rfl, rfl⟩⟩ := Lowering.build_cases hbuild
      · obtain rfl := Except.ok.inj hok
        exact .inl ⟨_, _, _, _, .build hreads hst hne, rfl⟩
      have hlowers : c.Lowers source pipeline p st.graph := ⟨hreads, st, hst, hclean, rfl⟩
      dsimp only at hok
      obtain ⟨⟨g, annotated, sink⟩, hannotate, hok⟩ := Checked.bind_eq_ok.1 hok
      obtain ⟨errors, hannotated, rfl, hiff⟩ :=
        Requirements.annotate_cases (Lowering.unused_warns st.graph).harmless hannotate
      cases annotated with
      | error failed =>
        obtain rfl := Except.ok.inj hok
        have hne : errors ≠ [] := fun hnil => by cases hiff.2 hnil
        exact .inl ⟨_, _, _, _, .annotate hlowers hannotated hne, rfl⟩
      | ok _ =>
        obtain rfl := hiff.1 rfl
        rw [List.map_nil, List.append_nil] at hok
        rcases finish_cases ⟨hlowers, hannotated⟩ hok with hstops | ⟨g', reported, s, hcompletes⟩
        · exact .inl hstops
        · exact .inr ⟨p, g', reported, s, hcompletes⟩

/-! ### The contract -/

/-- **The contract of compilations.**  Whatever the text, the options and the registry, a compilation that gives a
result gives a coherent one, with its diagnostics in the order of the stages.

If it fails, it has stopped in one stage: its errors, at least one, are all of that stage, and they come after the
warnings of the stages and passes that went through.

If it succeeds, its graph presents the program of the text, and it becomes an artifact that executes the graph and
whose warnings are all diagnostics. -/
theorem compile_contract (hok : c.compile source = .ok result) :
    result.Coherent ∧ result.diagnostics.Staged ∧
    (result.success = false → ∃ stage kept errors, c.Stops source stage kept errors ∧
      result.diagnostics = kept ++ errors ∧ (∀ d ∈ kept, d.severity = .warning) ∧
      errors ≠ [] ∧ ∀ d ∈ errors, d.isError = true ∧ d.stage = stage) ∧
    (result.success = true → ∃ p g, parseSource c.registry source = .ok p ∧ result.graph = some g ∧
      c.Completes source p g result.diagnostics ∧ g.Presents p ∧
      ∀ program, ∃ a, Artifact.ofResult program result = .ok a ∧ a.Executes g ∧
        a.warnings = result.diagnostics) := by
  rcases compile_cases hok with
    ⟨stage, kept, errors, summary, hstops, rfl⟩ | ⟨p, g, reported, s, hcompletes, hfits, rfl⟩
  · obtain ⟨hearlier, hne, herrors⟩ := hstops.reports
    obtain ⟨d, hd⟩ := List.exists_mem_of_ne_nil _ hne
    refine ⟨coherent_failed ⟨d, List.mem_append_right _ hd, (herrors d hd).1⟩ summary, ?_, fun _ => ?_, ?_⟩
    · exact hearlier.staged.append hearlier.upTo fun d hd => (herrors d hd).2
    · exact ⟨stage, kept, errors, hstops, rfl, hearlier.warning, hne, herrors⟩
    · exact fun hsuccess => Bool.noConfusion hsuccess
  · obtain ⟨hsound, -, hpresents⟩ := hcompletes.graph
    have hreports := hcompletes.reports
    have hwarnings : reported.warnings = reported := by
      refine List.filter_eq_self.2 fun d hd => ?_
      rw [hreports.warning d hd]
      rfl
    refine ⟨coherent_succeeded hreports.harmless g s, hreports.staged, ?_, fun _ => ?_⟩
    · exact fun hfailed => Bool.noConfusion hfailed
    refine ⟨p, g, hcompletes.program, rfl, hcompletes, hpresents, fun program => ?_⟩
    obtain ⟨a, ha, hexecutes, hall⟩ :=
      Artifact.ofResult_executes hsound.ordered hsound.outputs hfits reported program
    exact ⟨a, ha, hexecutes, hall.trans hwarnings⟩

/-- A text with a value that reaches no output. -/
def idleText : String := "input a: scalar; output y: scalar; u = merge(a, a); y = interfere(a, a);"

/-- A text with a value that reaches no output, and with a code that cannot be encoded. -/
def idleGolayText : String :=
  "input a: scalar; output y: scalar; u = interfere(a, a); y = merge(a, a, correction: \"basic\", code: \"golay\");"

/-- The compilation ends with or without success, and has made so many reports. -/
def ended (success : Bool) (reports : Nat) : Checked CompileResult → Bool
  | .ok result => result.success == success && result.diagnostics.length == reports
  | .error _ => false

lemma exists_of_ended {success : Bool} {reports : Nat} {x : Checked CompileResult}
    (h : ended success reports x = true) :
    ∃ result, x = .ok result ∧ result.success = success ∧ result.diagnostics.length = reports := by
  unfold ended at h
  split at h
  · next result =>
    rw [Bool.and_eq_true, beq_iff_eq, beq_iff_eq] at h
    exact ⟨result, rfl, h⟩
  · cases h

theorem compile_contract_idle :
    (∃ result g a, (withOptions .standard).compile idleText = .ok result ∧ result.success = true ∧
      result.graph = some g ∧ Artifact.ofResult "idle" result = .ok a ∧ a.Executes g ∧
      a.warnings = result.diagnostics ∧ a.warnings.length = 1) ∧
    ∃ result stage kept errors, (withOptions .standard).compile idleGolayText = .ok result ∧
      result.success = false ∧ result.diagnostics = kept ++ errors ∧ result.diagnostics.length = 2 ∧
      (∀ d ∈ kept, d.severity = .warning) ∧ errors ≠ [] ∧ ∀ d ∈ errors, d.isError = true ∧
        d.stage = stage := by
  have hidle : ended true 1 ((withOptions .standard).compile idleText) = true := by decide +kernel
  have hgolay : ended false 2 ((withOptions .standard).compile idleGolayText) = true := by decide +kernel
  -- for any text, so that these are not read in full
  have hall : ∀ source result, (withOptions .standard).compile source = .ok result → _ :=
    fun source result hok => compile_contract hok
  obtain ⟨good, hgood, hsuccess, hone⟩ := exists_of_ended hidle
  obtain ⟨bad, hbad, hfailed, htwo⟩ := exists_of_ended hgolay
  obtain ⟨-, -, -, hsucceeds⟩ := hall idleText good hgood
  obtain ⟨-, -, hstops, -⟩ := hall idleGolayText bad hbad
  obtain ⟨p, g, -, hgraph, -, -, hartifact⟩ := hsucceeds hsuccess
  obtain ⟨a, ha, hexecutes, hwarnings⟩ := hartifact "idle"
  obtain ⟨stage, kept, errors, -, hdiagnostics, hkept, hne, herrors⟩ := hstops hfailed
  refine ⟨⟨good, g, a, hgood, hsuccess, hgraph, ha, hexecutes, hwarnings, hwarnings ▸ hone⟩, ?_⟩
  exact ⟨bad, stage, kept, errors, hbad, hfailed, hdiagnostics, htwo, hkept, hne, herrors⟩

end Compiler

end Waveflow
