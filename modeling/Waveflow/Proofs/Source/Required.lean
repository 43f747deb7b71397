import Waveflow.Proofs.Source.Lawful

/-!
# Required parameters

An operation can mark any of its parameters as required, operands and attributes alike.  In a program that breaks no
rule every call, at any depth, is given the operand parameters that are required (`Rules.supplies_of_check`).  The mark
of an attribute parameter is not looked at: what the rules accept, they accept under other marks of attribute
parameters, too, and so a call can do without an attribute that is required (`Rules.unsupplied_mark`).
-/

namespace Waveflow

/-- The parameter is given, by an argument of the call or, if it is an attribute, by a block around the call. -/
def Call.Supplies (around : Params) (c : Call) (q : ParamSpec) : Prop :=
  (∃ a ∈ c.arguments, a.name = some q.name) ∨ (q.role = .attribute ∧ (around.get? q.name).isSome)

/-! ### Marks of attribute parameters -/

/-- The parameter, with the mark taken off if it is an attribute. -/
def ParamSpec.unmarked (q : ParamSpec) : ParamSpec :=
  match q.role with
  | .operand => q
  | .attribute => { q with required := false }

/-- The operation, with the marks of its attribute parameters taken off. -/
def OpSpec.unmarked (spec : OpSpec) : OpSpec := { spec with params := spec.params.map ParamSpec.unmarked }

/-- The registries have the same operations, up to marks of attribute parameters. -/
def Registry.Matches (r r' : Registry) : Prop :=
  ∀ name, (r.get? name).map OpSpec.unmarked = (r'.get? name).map OpSpec.unmarked

namespace ParamSpec

@[simp] lemma unmarked_name (q : ParamSpec) : q.unmarked.name = q.name := by
  unfold unmarked
  split <;> rfl

@[simp] lemma unmarked_role (q : ParamSpec) : q.unmarked.role = q.role := by
  unfold unmarked
  split <;> rfl

lemma unmarked_of_operand {q : ParamSpec} (h : q.role = .operand) : q.unmarked = q := by
  unfold unmarked
  rw [h]

end ParamSpec

variable {r r' : Registry} {known : String → Prop} {around : Params} {spec : OpSpec} {c : Call}

@[simp] lemma OpSpec.unmarked_internal (spec : OpSpec) : spec.unmarked.internal = spec.internal := rfl

@[simp] lemma OpSpec.unmarked_sideEffecting (spec : OpSpec) : spec.unmarked.sideEffecting = spec.sideEffecting := rfl

lemma OpSpec.param?_unmarked (spec : OpSpec) (name : String) :
    spec.unmarked.param? name = (spec.param? name).map ParamSpec.unmarked := by
  have hname : (fun q : ParamSpec => q.name == name) ∘ ParamSpec.unmarked = fun q => q.name == name := by
    funext q
    simp
  unfold param? unmarked
  dsimp only
  rw [List.find?_map, hname]
  cases spec.params.find? (·.name == name) with
  | some q => rfl
  | none =>
    dsimp only [Option.map_none]
    split <;> rfl

lemma Argument.fits_unmarked {a : Argument} : a.Fits spec.unmarked ↔ a.Fits spec := by
  unfold Fits
  cases a.name with
  | none => rfl
  | some name =>
    dsimp only
    rw [OpSpec.param?_unmarked]
    cases spec.param? name with
    | none => simp
    | some q => simp

lemma Call.attributes_unmarked : c.attributes spec.unmarked = c.attributes spec := by
  unfold attributes OpSpec.isAttribute
  simp only [OpSpec.param?_unmarked]
  congr 2
  funext e
  cases spec.param? e.1 with
  | none => rfl
  | some q => simp

lemma Call.isComplete_unmarked : c.IsComplete spec.unmarked ↔ c.IsComplete spec := by
  unfold IsComplete OpSpec.unmarked
  simp only [List.forall_mem_map, ParamSpec.unmarked_role, ParamSpec.unmarked_name]
  refine forall₂_congr fun q _ => forall_congr' fun hrole => ?_
  rw [ParamSpec.unmarked_of_operand hrole]

/-- The rules on calls do not read the mark of an attribute parameter. -/
lemma Call.obeys_unmarked : c.Obeys known around spec.unmarked ↔ c.Obeys known around spec := by
  have hchecked : spec.unmarked.checkParams (around.merge (c.attributes spec.unmarked)) =
      spec.checkParams (around.merge (c.attributes spec)) := by
    rw [attributes_unmarked]
    rfl
  constructor
  · rintro ⟨harity, hfits, hrefers, honce, hcomplete, haccepted⟩
    exact ⟨harity, fun a ha => Argument.fits_unmarked.1 (hfits a ha), hrefers, honce, isComplete_unmarked.1 hcomplete,
      hchecked.symm.trans haccepted⟩
  · rintro ⟨harity, hfits, hrefers, honce, hcomplete, haccepted⟩
    exact ⟨harity, fun a ha => Argument.fits_unmarked.2 (hfits a ha), hrefers, honce, isComplete_unmarked.2 hcomplete,
      hchecked.trans haccepted⟩

namespace Registry

lemma Matches.callable? (h : r.Matches r') {name : String} (hspec : r.callable? name = some spec) :
    ∃ spec', r'.callable? name = some spec' ∧ spec'.unmarked = spec.unmarked := by
  obtain ⟨hget, hinternal⟩ := Option.filter_eq_some_iff.1 hspec
  have hname := h name
  rw [hget, Option.map_some] at hname
  obtain ⟨spec', hget', hunmarked⟩ := Option.map_eq_some_iff.1 hname.symm
  have hinternal' : spec'.internal = spec.internal := by
    rw [← spec'.unmarked_internal, hunmarked, spec.unmarked_internal]
  exact ⟨spec', Option.filter_eq_some_iff.2 ⟨hget', by rwa [hinternal']⟩, hunmarked⟩

/-- What obeys the rules obeys them under other marks of attribute parameters. -/
lemma Matches.obeys (h : r.Matches r') {s : Statement} (hs : s.Obeys r known around) : s.Obeys r' known around := by
  have hcall {c : Call} {spec : OpSpec} (hspec : r.callable? c.operation = some spec) (hc : c.Obeys known around spec) :
      ∃ spec', r'.callable? c.operation = some spec' ∧ c.Obeys known around spec' ∧
        spec'.sideEffecting = spec.sideEffecting := by
    obtain ⟨spec', hspec', hunmarked⟩ := h.callable? hspec
    refine ⟨spec', hspec', Call.obeys_unmarked.1 ?_, ?_⟩
    · rw [hunmarked]
      exact Call.obeys_unmarked.2 hc
    · rw [← spec'.unmarked_sideEffecting, hunmarked, spec.unmarked_sideEffecting]
  cases s with
  | assignment target c span =>
    obtain ⟨spec, hspec, hc⟩ := hs
    obtain ⟨spec', hspec', hc', -⟩ := hcall hspec hc
    exact ⟨spec', hspec', hc'⟩
  | call c =>
    obtain ⟨spec, hspec, hc, hused⟩ := hs
    obtain ⟨spec', hspec', hc', heffect⟩ := hcall hspec hc
    exact ⟨spec', hspec', hc', heffect ▸ hused⟩
  | block label parameters body span => exact hs

end Registry

namespace Rules

/-- **Calls that break no rule are given the operand parameters that are required**, and which attribute parameters are
marked as required makes no difference. -/
theorem supplies_of_check {p : Program} (h : check r p = []) :
    (∀ (s : Statement) (around : Params) (c : Call), s.Occurs around Dict.empty p.statements → s.call? = some c →
      ∃ spec, r.callable? c.operation = some spec ∧
        ∀ q ∈ spec.params, q.required → q.role = .operand → c.Supplies around q) ∧
    ∀ r', r.Matches r' → check r' p = [] := by
  obtain ⟨hnames, hobeys⟩ := check_eq_nil_iff.1 h
  refine ⟨fun s around c hs hc => ?_, fun r' hr' => ?_⟩
  · obtain ⟨spec, hspec, hobeys⟩ := (hobeys s around hs).exists_spec hc
    exact ⟨spec, hspec, fun q hq hrequired hrole => .inl (hobeys.complete q hq hrole hrequired)⟩
  · exact check_eq_nil_iff.2 ⟨hnames, fun s around hs => hr'.obeys (hobeys s around hs)⟩

/-! ### A required attribute -/

/-- An operation with an attribute parameter, marked or not. -/
def stamp (required : Bool) : OpSpec :=
  { OpSpec.plain (.custom "stamp") with params := [⟨"mark", .attribute, required⟩] }

/-- The usual operations and that one. -/
def stamping (required : Bool) : Registry := ⟨Registry.builtin.specs.insert "stamp" (stamp required)⟩

lemma stamping_matches (required required' : Bool) : (stamping required).Matches (stamping required') := by
  intro name
  unfold stamping Registry.get?
  rw [Dict.get?_insert, Dict.get?_insert]
  split <;> rfl

/-- A call without the attribute. -/
def stamped : Call := ⟨"stamp", [⟨none, .identifier "a", .nowhere⟩], .nowhere⟩

/-- A call with a required operand. -/
def shifted : Call :=
  ⟨"phase_shift", [⟨none, .identifier "t", .nowhere⟩, ⟨some "phase", .identifier "b", .nowhere⟩], .nowhere⟩

/-- Both calls, in a block. -/
def imprint : Program where
  declarations :=
    [⟨.input, "a", .scalar, .nowhere⟩, ⟨.input, "b", .scalar, .nowhere⟩, ⟨.output, "y", .scalar, .nowhere⟩]
  statements :=
    [.block Parser.blockLabel [⟨some "level", .literal (.number 2.0), .nowhere⟩]
      [.assignment "t" stamped .nowhere, .assignment "y" shifted .nowhere] .nowhere]

/-- The literals in that block. -/
def inside : Params := Dict.empty.merge (literalsOf [⟨some "level", .literal (.number 2.0), .nowhere⟩])

lemma occurs_imprint {s : Statement} (h : s ∈ [.assignment "t" stamped .nowhere, .assignment "y" shifted .nowhere]) :
    s.Occurs inside Dict.empty imprint.statements := .inside List.mem_cons_self (.here h)

lemma check_imprint : check (stamping true) imprint = [] := List.isEmpty_iff.1 (by decide +kernel)

theorem supplies_of_check_imprint : check (stamping true) imprint = [] ∧
    shifted.Supplies inside ⟨"phase", .operand, true⟩ ∧ check (stamping false) imprint = [] := by
  obtain ⟨hsupplies, hmarks⟩ := supplies_of_check check_imprint
  have hinside := occurs_imprint (List.mem_cons_of_mem _ List.mem_cons_self)
  obtain ⟨spec, hspec, hshifted⟩ := hsupplies _ inside shifted hinside rfl
  have hparams : ((stamping true).callable? shifted.operation).map OpSpec.params =
      some [⟨"phase", .operand, true⟩] := by decide +kernel
  rw [hspec, Option.map_some, Option.some_inj] at hparams
  exact ⟨check_imprint, hshifted _ (hparams ▸ List.mem_cons_self) rfl rfl, hmarks _ (stamping_matches true false)⟩

/-- A required attribute that is given nowhere is no breach of the rules. -/
theorem unsupplied_mark : Registry.builtin.register (stamp true) = .ok (stamping true) ∧
    check (stamping true) imprint = [] ∧
    ∃ (s : Statement) (around : Params), s.Occurs around Dict.empty imprint.statements ∧ s.call? = some stamped ∧
      (stamping true).callable? stamped.operation = some (stamp true) ∧
      ∃ q ∈ (stamp true).params, q.required ∧ ¬ stamped.Supplies around q := by
  have hnew : Registry.builtin.specs.contains (stamp true).name = false := by decide +kernel
  refine ⟨?_, check_imprint, _, inside, occurs_imprint List.mem_cons_self, rfl, ?_, _, List.mem_cons_self, rfl, ?_⟩
  · unfold Registry.register
    rw [hnew]
    rfl
  · unfold Registry.callable? stamping Registry.get?
    rw [Dict.get?_insert]
    rfl
  · unfold Call.Supplies
    decide +kernel

end Rules

end Waveflow
