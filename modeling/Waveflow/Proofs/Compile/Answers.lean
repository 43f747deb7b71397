import Waveflow.Proofs.Compile.Contract
import Waveflow.Proofs.Pass.Allocation
import Waveflow.Proofs.Schedule.Budgets
import Waveflow.Proofs.Source.Places

/-!
# Compilations give answers

A compilation can fail with diagnostics, and it can be kept from its end by a counter that leaves its range.  There are
three kinds of counters: numbers of nodes, which are given out one after the other; levels of requirements, which come
from the text, the options and the registry; and what a node still waits for.  `Compiler.Allocates c source count`
says that a compilation gives out a number and has then given out `count` in all, `Compiler.Moderate c source` that no
level in the three places is beyond what its distance allows.  If all counts are in range and all levels are moderate
there is always a result (`compile_answers`): the counters of waiting nodes never leave their range, as every edge is
paid for once, and nothing else is looked up without being there.

The counts have a bound that is linear in the text (`Allocates.le_demand`), so a text that is not enormous can do
without the first condition.
-/

namespace Waveflow

open Relation (ReflTransGen)

lemma Lowering.exists_build {r : Registry} {name : String} {p : Program}
    (hroom : ∀ count, Allocates r name p count → count < wordLimit) (sink : Diagnostics) :
    ∃ out, build r name p sink = .ok out := by
  obtain ⟨st, hst⟩ := exists_lower hroom
  unfold build
  rw [hst, Checked.ok_bind]
  dsimp only
  split <;> exact ⟨_, rfl⟩

lemma Pipeline.exists_optimize {r : Registry} {g : Graph} {pipeline : Pipeline} {ids : List PassId}
    (hpasses : pipeline.passes = ids.map PassId.pass) (hg : g.Workable)
    (hroom : ∀ count, Allocates ⟨r, pipeline.thermalCeiling⟩ ids pipeline.rounds g count → count < wordLimit)
    (sink : Diagnostics) : ∃ out, pipeline.optimize r g sink = .ok out := by
  obtain ⟨out, hout⟩ := exists_iterate hg hroom
  unfold optimize
  rw [hpasses, hout, Checked.ok_bind]
  dsimp only
  split
  · exact ⟨_, rfl⟩
  · split <;> exact ⟨_, rfl⟩

namespace Compiler

variable {c : Compiler} {source : String} {pipeline : Pipeline} {p : Program} {built g : Graph} {count : Nat}

/-! ### Numbers and levels of a compilation -/

/-- While a text is compiled a number is given out, and then it is so many. -/
inductive Allocates (c : Compiler) (source : String) : Nat → Prop
  | lowering {pipeline : Pipeline} {p : Program} {count : Nat} : c.Reads source pipeline p →
      Lowering.Allocates c.registry Lowering.defaultName p count → Allocates c source count
  | passes {pipeline : Pipeline} {p : Program} {built g : Graph} {ids : List PassId} {count : Nat} :
      c.Annotates source pipeline p built g → pipeline.passes = ids.map PassId.pass →
      Pipeline.Allocates ⟨c.registry, pipeline.thermalCeiling⟩ ids pipeline.rounds g count →
      Allocates c source count

/-- The levels of the options, of the registry and of the text have distances in range. -/
structure Moderate (c : Compiler) (source : String) : Prop where
  options : c.options.defaultCorrection.Moderate
  registry : c.registry.Moderate
  text : ∀ p, parseSource c.registry source = .ok p → ∀ a ∈ Statement.argumentsAll p.statements,
    ∀ level, a.level? = some level → level ≤ Correction.maxLevel

/-! ### With enough numbers and moderate levels there is a result -/

lemma Lowers.exists_build (h : c.Lowers source pipeline p g) :
    ∃ sink, Lowering.build c.registry Lowering.defaultName p [] = .ok (.ok g, sink) := by
  obtain ⟨st, hst, hnone, rfl⟩ := h.lowered
  unfold Lowering.build
  rw [hst, Checked.ok_bind, hnone]
  exact ⟨_, rfl⟩

/-- The annotation of a graph that has been built ends, and all requirements are moderate. -/
lemma Lowers.exists_annotate (h : c.Lowers source pipeline p g) (hlevels : c.Moderate source) (sink : Diagnostics) :
    ∃ g' annotated sink', Requirements.annotate c.registry c.options g sink = .ok (g', annotated, sink') ∧
      g'.Moderate := by
  have hbuilt := h.isBuilt
  obtain ⟨_, hbuild⟩ := h.exists_build
  have hclean : ∀ n ∈ g.nodes, Requirements.nodeError? c.registry c.options n = none := fun n hn =>
    Requirements.nodeError?_of_build (check_of_parseSource h.program) hbuild hn
  refine Requirements.exists_annotate hbuilt.wellFormed hbuilt.acyclic hclean (fun n hn => ?_) sink
  refine Requirements.moderate_base hlevels.options hlevels.registry (hclean n hn) fun level hlevel => ?_
  obtain ⟨a, ha, hgiven⟩ := Lowering.exists_level_of_build hbuild hn hlevel
  exact hlevels.text p h.program a ha level hgiven

lemma Annotates.annotate_eq (h : c.Annotates source pipeline p built g) :
    ∃ annotated sink, Requirements.annotate c.registry c.options built [] = .ok (g, annotated, sink) := by
  unfold Requirements.annotate
  rw [h.annotated]
  exact ⟨_, _, rfl⟩

lemma Annotates.workable (h : c.Annotates source pipeline p built g) (hlevels : c.Moderate source) : g.Workable where
  toWellFormed := h.sound.toWellFormed
  acyclic := h.sound.acyclic
  moderate := by
    obtain ⟨g', annotated, sink, hannotate, hmoderate⟩ := h.toLowers.exists_annotate hlevels []
    obtain ⟨_, _, heq⟩ := h.annotate_eq
    cases heq.symm.trans hannotate
    exact hmoderate

lemma exists_finish (hannotates : c.Annotates source pipeline p built g) (hlevels : c.Moderate source)
    (hroom : ∀ count, c.Allocates source count → count < wordLimit) (sink : Diagnostics) :
    ∃ result, c.finish pipeline g sink = .ok result := by
  have hsound := hannotates.sound
  obtain ⟨hceiling, ids, hpasses⟩ := ofOptions_spec hannotates.options
  obtain ⟨⟨optimized, sink'⟩, hoptimize⟩ := Pipeline.exists_optimize hpasses
    (hannotates.workable hlevels) (fun count h => hroom count (.passes hannotates hpasses h)) sink
  unfold finish
  rw [hoptimize, Checked.ok_bind]
  cases optimized with
  | error failed => exact ⟨_, rfl⟩
  | ok g' =>
    obtain ⟨out, changed, hiterate, hresult, rfl⟩ := Pipeline.iterate_of_optimize hoptimize
    rw [hpasses] at hiterate
    have hends := ((iterate_yields hceiling hsound.toWellFormed hsound.acyclic ids _).of_ok hiterate).1
    rw [hresult] at hends
    obtain ⟨s, hs, -⟩ := scheduleInto_fits (Rewrites.sound hends hsound) (Rewrites.made hends hannotates.made) sink'
    dsimp only
    rw [hs, Checked.ok_bind]
    exact ⟨_, rfl⟩

/-- **With enough numbers and moderate levels every compilation ends.** -/
theorem exists_compile (hlevels : c.Moderate source)
    (hroom : ∀ count, c.Allocates source count → count < wordLimit) :
    ∃ result, c.compile source = .ok result := by
  unfold compile configure
  cases hoptions : Pipeline.ofOptions c.options with
  | error e => exact ⟨_, rfl⟩
  | ok pipeline =>
    unfold parseInto
    dsimp only
    cases hparse : parseSource c.registry source with
    | error errors => exact ⟨_, rfl⟩
    | ok p =>
      have hreads : c.Reads source pipeline p := ⟨hoptions, hparse⟩
      obtain ⟨⟨out, sink⟩, hbuild⟩ := Lowering.exists_build (fun count h => hroom count (.lowering hreads h)) []
      dsimp only
      unfold compileProgram
      rw [hbuild, Checked.ok_bind]
      obtain ⟨st, hst, ⟨-, ⟨failed, rfl⟩, -⟩ | ⟨hnone, rfl, rfl⟩⟩ := Lowering.build_cases hbuild
      · exact ⟨_, rfl⟩
      have hlowers : c.Lowers source pipeline p st.graph := ⟨hreads, st, hst, hnone, rfl⟩
      obtain ⟨g, annotated, sink, hannotate, -⟩ := hlowers.exists_annotate hlevels (Lowering.unused st.graph)
      dsimp only
      rw [hannotate, Checked.ok_bind]
      cases annotated with
      | error failed => exact ⟨_, rfl⟩
      | ok _ =>
        obtain ⟨errors, hannotated, rfl, hiff⟩ :=
          Requirements.annotate_cases (Lowering.unused_warns st.graph).harmless hannotate
        obtain rfl := hiff.1 rfl
        exact exists_finish ⟨hlowers, hannotated⟩ hlevels hroom _

/-! ### How many numbers that are -/

lemma Annotates.unmarked (h : c.Annotates source pipeline p built g) : g.Unmarked := by
  have hbuilt := h.toLowers.isBuilt
  obtain ⟨_, hbuild⟩ := h.toLowers.exists_build
  obtain ⟨_, _, hannotate⟩ := h.annotate_eq
  have hnone : built.Unmarked := by
    intro n hn
    rw [((Lowering.operations_of_build hbuild).1 n hn).1]
    rfl
  exact (Requirements.annotate_unmarked hbuilt.wellFormed.ordered hbuilt.acyclic hnone []).of_ok hannotate

lemma Annotates.nextId_le_demand (h : c.Annotates source pipeline p built g) : g.nextId ≤ p.demand c.registry := by
  obtain ⟨st, hst, -, rfl⟩ := h.toLowers.lowered
  obtain ⟨f, rfl⟩ := h.reattributed
  exact Lowering.nextId_le_demand hst

/-- **No more numbers are given out than 33793 for each that lowering may need.** -/
theorem Allocates.le_demand (h : c.Allocates source count) :
    ∃ p, parseSource c.registry source = .ok p ∧ count ≤ 33793 * p.demand c.registry := by
  cases h with
  | @lowering pipeline p _ hreads h =>
    have hle := h.le_demand
    exact ⟨p, hreads.program, by omega⟩
  | @passes pipeline p built g ids _ hannotates hpasses h =>
    have hsound := hannotates.sound
    have hreach := h.le_reach hsound.toWellFormed hsound.acyclic
    have hbound := hannotates.unmarked.reach_le hsound.toWellFormed
    have hdemand := hannotates.nextId_le_demand
    exact ⟨p, hannotates.program, by omega⟩

/-- All levels are moderate, and the bound on numbers is in range. -/
def modest (c : Compiler) (source : String) : Bool :=
  decide c.options.defaultCorrection.Moderate &&
  (c.registry.specs.entries.all fun e => e.2.defaultCorrection.all fun d => decide d.Moderate) &&
  match parseSource c.registry source with
  | .error _ => true
  | .ok p =>
    decide (33793 * p.demand c.registry < wordLimit) &&
      (Statement.argumentsAll p.statements).all fun a => a.level?.all fun level => level ≤ Correction.maxLevel

lemma moderate_of_modest (h : c.modest source = true) : c.Moderate source := by
  unfold modest at h
  rw [Bool.and_eq_true, Bool.and_eq_true] at h
  obtain ⟨⟨ho, hr⟩, htext⟩ := h
  refine ⟨of_decide_eq_true ho, Registry.moderate_of_all hr, fun p hp a ha level hlevel => ?_⟩
  rw [hp] at htext
  have hall := List.all_eq_true.1 (Bool.and_eq_true_iff.1 htext).2 a ha
  rw [hlevel] at hall
  exact of_decide_eq_true hall

lemma allocates_of_modest (h : c.modest source = true) : ∀ count, c.Allocates source count → count < wordLimit := by
  intro count hcount
  obtain ⟨p, hp, hle⟩ := hcount.le_demand
  have htext := (Bool.and_eq_true_iff.1 h).2
  rw [hp] at htext
  exact Nat.lt_of_le_of_lt hle (of_decide_eq_true (Bool.and_eq_true_iff.1 htext).1)

/-! ### Answers -/

/-- **Compilations give answers.**  Whatever the text, the options and the registry, if the levels in all three are
moderate, and as many numbers of nodes as are ever given out are in range, the compilation gives a result.  No strength
and no distance leaves its range in a graph that moves lead to; wherever the lexer stands, and for every token and
error, it has cut the text between characters; spans that are joined have a length; and a schedule in the making can
always go on, with the budget of its node in every slot and a slot for every member of a group that is still to come. -/
theorem compile_answers (hlevels : c.Moderate source)
    (hroom : ∀ count, c.Allocates source count → count < wordLimit) :
    (∃ result, c.compile source = .ok result) ∧
    (∀ pipeline p built g g', c.Annotates source pipeline p built g → Moves c.registry g g' → ∀ n ∈ g'.nodes,
      (∃ strength, n.attrs.correction.strength = .ok strength) ∧
        ∃ distance, n.attrs.correction.distance = .ok distance) ∧
    (∀ before rest, source.toList = before ++ rest →
      String.Pos.Raw.IsValid source ⟨(Cursor.start.after before).offset⟩) ∧
    ((∀ ts, tokenize source = .ok ts →
        (∀ t ∈ ts.tokens, t.span.FallsBetween source) ∧ ts.ending.FallsBetween source) ∧
      ∀ e, tokenize source = .error e → e.span.FallsBetween source) ∧
    (∀ a b : Span, a.offset ≤ (a.join b).stop ∧ (a.join b).stop = max b.stop a.stop) ∧
    ∀ p g reported, c.Completes source p g reported →
      (∃ order, g.order = .ok (.ok order)) ∧
      ∀ q, ReflTransGen Greedy.Advances (Greedy.start g) q →
        (∃ next, Greedy.advance q = .ok next) ∧
        (∀ s ∈ q.slots, ∃ n, g.node? s.id = some n ∧ s.budget = n.attrs.coherence) ∧
        ∀ grp ∈ q.pending, (Greedy.memberSlots q.slots grp).map (·.id) = grp.members := by
  refine ⟨exists_compile hlevels hroom, ?levels, fun _ _ h => Cursor.isValid_after h, tokenize_spans source,
    Span.stop_join, ?schedule⟩
  case levels =>
    intro pipeline p built g g' hannotates hmoves n hn
    have hmoderate := (Moves.workable hmoves (hannotates.workable hlevels)).moderate n hn
    exact ⟨⟨_, Correction.strength_eq hmoderate.rank_lt⟩, hmoderate.exists_distance⟩
  case schedule =>
    intro p g reported hcompletes
    obtain ⟨hsound, hmade, -⟩ := hcompletes.graph
    obtain ⟨order, horder, -⟩ := Graph.order_of_acyclic hsound.ordered hsound.acyclic
    refine ⟨⟨order, horder⟩, fun q hreach => ?_⟩
    have hpriced := Greedy.priced_of_reaches hsound.ordered hreach
    refine ⟨Greedy.exists_advance hsound.ordered (fun grp hgrp => (hmade grp hgrp).solid) hreach, ?_, ?_⟩
    · exact fun s hs => hpriced.budget hsound.ordered hs
    · exact fun grp hgrp => hpriced.members hgrp

/-- A hot operation of the highest level whose distance is in range. -/
def crestText : String :=
  "input a: scalar; output y: scalar; " ++
    "y = split(a, correction: \"fault_tolerant\", level: 2147483647, thermal: 5);"

/-- All passes under a low ceiling, with the same level for what says nothing itself. -/
def crest : Compiler where
  registry := .builtin
  options := { Options.standard with
    thermalCeiling := some 2.0
    defaultCorrection := .faultTolerant 2147483647 "surface" }

theorem compile_answers_crest : crest.Moderate crestText ∧
    (∀ count, crest.Allocates crestText count → count < wordLimit) ∧
    ∃ result, crest.compile crestText = .ok result ∧ result.success = true := by
  have hmodest : crest.modest crestText = true := by decide +kernel
  have hended : ended true 0 (crest.compile crestText) = true := by decide +kernel
  have hlevels := moderate_of_modest hmodest
  have hroom := allocates_of_modest hmodest
  obtain ⟨⟨result, hresult⟩, -⟩ := compile_answers hlevels hroom
  obtain ⟨_, hother, hsuccess, -⟩ := exists_of_ended hended
  obtain rfl := Except.ok.inj (hresult.symm.trans hother)
  exact ⟨hlevels, hroom, result, hresult, hsuccess⟩

end Compiler

end Waveflow
