import Waveflow.Proofs.Source.Settings

/-!
# The rules that a program keeps

`Program.Lawful` says what a program has to satisfy, without errors, in words of the program alone: which names it may
give, which parameters its blocks may have and what its calls may look like, at any depth.  `Statement.Occurs` finds
the statements at any depth, each with the literals of the blocks around it.  The rules list no breach exactly for the
lawful programs (`Rules.accepts_iff_lawful`).  In particular all calls of such a program are of known operations, and
text stands only for attribute parameters (`Rules.calls_pass`).
-/

namespace Waveflow

/-! ### Statements at any depth -/

/-- The statement stands in a body under the literals `outer`, at any depth, and the literals `around` hold for it:
`outer`, and over them those of the blocks between, inner over outer. -/
inductive Statement.Occurs (s : Statement) (around : Params) : Params → List Statement → Prop
  | here {body : List Statement} : s ∈ body → Occurs s around around body
  | inside {outer : Params} {label : String} {parameters : List Argument} {inner : List Statement} {span : Span}
      {body : List Statement} : .block label parameters inner span ∈ body →
      Occurs s around (outer.merge (literalsOf parameters)) inner → Occurs s around outer body

/-- The call that a statement makes itself. -/
def Statement.call? : Statement → Option Call
  | .assignment _ c _ => some c
  | .call c => some c
  | .block .. => none

namespace Statement

variable {s t : Statement} {around outer : Params} {c : Call}

lemma occurs_nil : ¬ s.Occurs around outer [] := by
  rintro (hs | ⟨hs, -⟩)
  · cases hs
  · cases hs

lemma occurs_cons (t : Statement) (rest : List Statement) :
    s.Occurs around outer (t :: rest) ↔ s.Occurs around outer [t] ∨ s.Occurs around outer rest := by
  constructor
  · rintro (hs | ⟨hs, hinside⟩)
    · rcases List.mem_cons.1 hs with rfl | hs
      · exact .inl (.here List.mem_cons_self)
      · exact .inr (.here hs)
    · rcases List.mem_cons.1 hs with rfl | hs
      · exact .inl (.inside List.mem_cons_self hinside)
      · exact .inr (.inside hs hinside)
  · rintro ((hs | ⟨hs, hinside⟩) | (hs | ⟨hs, hinside⟩))
    · exact .here (List.mem_cons.2 (.inl (List.mem_singleton.1 hs)))
    · exact .inside (List.mem_cons.2 (.inl (List.mem_singleton.1 hs))) hinside
    · exact .here (List.mem_cons_of_mem _ hs)
    · exact .inside (List.mem_cons_of_mem _ hs) hinside

lemma occurs_block {label : String} {parameters : List Argument} {inner : List Statement} {span : Span} :
    s.Occurs around outer [.block label parameters inner span] ↔
      (around = outer ∧ s = .block label parameters inner span) ∨
        s.Occurs around (outer.merge (literalsOf parameters)) inner := by
  constructor
  · rintro (hs | ⟨hs, hinside⟩)
    · exact .inl ⟨rfl, List.mem_singleton.1 hs⟩
    · cases List.mem_singleton.1 hs
      exact .inr hinside
  · rintro (⟨rfl, rfl⟩ | hinside)
    · exact .here List.mem_cons_self
    · exact .inside List.mem_cons_self hinside

lemma occurs_singleton (ht : ∀ label parameters inner span, t ≠ .block label parameters inner span) :
    s.Occurs around outer [t] ↔ around = outer ∧ s = t := by
  constructor
  · rintro (hs | ⟨hs, -⟩)
    · exact ⟨rfl, List.mem_singleton.1 hs⟩
    · exact absurd (List.mem_singleton.1 hs).symm (ht _ _ _ _)
  · rintro ⟨rfl, rfl⟩
    exact .here List.mem_cons_self

mutual

theorem mem_calls (outer : Params) : (t : Statement) →
    (c ∈ t.calls ↔ ∃ (s : Statement) (around : Params), s.Occurs around outer [t] ∧ s.call? = some c)
  | .assignment target d span => by
    simp [calls, occurs_singleton (t := .assignment target d span) nofun, call?, eq_comm]
  | .call d => by
    simp [calls, occurs_singleton (t := .call d) nofun, call?, eq_comm]
  | .block label parameters body span => by
    unfold calls
    rw [mem_callsAll (outer.merge (literalsOf parameters)) body]
    simp only [occurs_block]
    constructor
    · rintro ⟨s, around, hs, hc⟩
      exact ⟨s, around, .inr hs, hc⟩
    · rintro ⟨s, around, ⟨rfl, rfl⟩ | hs, hc⟩
      · cases hc
      · exact ⟨s, around, hs, hc⟩

/-- The calls of a body are those that the statements in it make, at any depth. -/
theorem mem_callsAll (outer : Params) : (body : List Statement) →
    (c ∈ callsAll body ↔ ∃ (s : Statement) (around : Params), s.Occurs around outer body ∧ s.call? = some c)
  | [] => by
    simp [callsAll, occurs_nil]
  | t :: rest => by
    unfold callsAll
    rw [List.mem_append, mem_calls outer t, mem_callsAll outer rest]
    simp only [occurs_cons t rest, or_and_right, exists_or]

end

end Statement

/-! ### What is asked -/

/-- The operand parameters that the operation requires are given. -/
def Call.IsComplete (spec : OpSpec) (c : Call) : Prop :=
  ∀ q ∈ spec.params, q.role = .operand → q.required → ∃ a ∈ c.arguments, a.name = some q.name

/-- What is asked of a call of an operation, where `known` names may be referred to and the literals `around` hold. -/
structure Call.Obeys (known : String → Prop) (around : Params) (spec : OpSpec) (c : Call) : Prop where
  /-- There are neither too few nor too many positional operands. -/
  arity : spec.minOperands ≤ c.positional.length ∧ c.positional.length ≤ spec.maxOperands
  fits : ∀ a ∈ c.arguments, a.Fits spec
  refers : ∀ a ∈ c.arguments, a.Refers known
  /-- No name is given to two arguments. -/
  once : (c.arguments.filterMap (·.name)).Nodup
  complete : c.IsComplete spec
  /-- The operation accepts the literals that hold for the call, its own over those around it. -/
  accepted : spec.checkParams (around.merge (c.attributes spec)) = .ok ()

/-- What is asked of a statement, apart from those inside it: a call has to obey an operation that can be called, and
one with side effects if the result is not used; a block may give literals for common parameters, which have to fit
those around it. -/
def Statement.Obeys (r : Registry) (known : String → Prop) (around : Params) : Statement → Prop
  | .assignment _ c _ => ∃ spec, r.callable? c.operation = some spec ∧ c.Obeys known around spec
  | .call c => ∃ spec, r.callable? c.operation = some spec ∧ c.Obeys known around spec ∧ spec.sideEffecting
  | .block _ parameters _ _ =>
    (∀ a ∈ parameters, ∃ name value, a.name = some name ∧ name ∈ commonParams ∧
      a.value = .literal value) ∧
      checkCommonParams (around.merge (literalsOf parameters)) = .ok ()

lemma Statement.Obeys.exists_spec {r : Registry} {known : String → Prop} {around : Params} {s : Statement} {c : Call}
    (hs : s.Obeys r known around) (hc : s.call? = some c) :
    ∃ spec, r.callable? c.operation = some spec ∧ c.Obeys known around spec := by
  cases s with
  | assignment target d span =>
    cases hc
    exact hs
  | call d =>
    cases hc
    obtain ⟨spec, hspec, hd, -⟩ := hs
    exact ⟨spec, hspec, hd⟩
  | block label parameters body span => cases hc

/-- The name is declared or assigned somewhere. -/
def Program.Knows (p : Program) (name : String) : Prop := name ∈ p.declarations.map (·.name) ∨ name ∈ p.targets

/-- What is asked of a program. -/
structure Program.Lawful (r : Registry) (p : Program) : Prop where
  declared_once : (p.declarations.map (·.name)).Nodup
  /-- No input is assigned. -/
  inputs_kept : ∀ t ∈ p.targets, t ∉ p.inputs.map (·.name)
  assigned_once : p.targets.Nodup
  /-- Statements at any depth obey the rules. -/
  obeys : ∀ (s : Statement) (around : Params), s.Occurs around Dict.empty p.statements → s.Obeys r p.Knows around

/-! ### What is checked -/

namespace Rules

variable {r : Registry} {known : List String} {around : Params} {spec : OpSpec} {c : Call}

lemma missingParameters_eq_nil_iff : missingParameters spec c = [] ↔ c.IsComplete spec := by
  unfold missingParameters OpSpec.operandParams Call.parameter? Call.IsComplete
  rw [List.map_eq_nil_iff, List.filter_eq_nil_iff]
  simp only [List.mem_filter, beq_iff_eq, and_imp, Bool.and_eq_true, Option.isNone_iff_eq_none, not_and,
    ← Option.isSome_iff_ne_none, List.find?_isSome]

lemma errors_reportOf_eq_nil_iff : (reportOf known around spec c).errors = [] ↔
    (∀ a ∈ c.arguments, a.Fits spec ∧ a.Refers (· ∈ known)) ∧ (c.arguments.filterMap (·.name)).Nodup := by
  unfold reportOf
  rw [foldl_checkArgument_eq_nil_iff]
  simp

lemma checkKnown_eq_nil_iff {bound : Bool} : checkKnown known around bound spec c = [] ↔
    c.Obeys (· ∈ known) around spec ∧ (bound ∨ spec.sideEffecting) := by
  have hreport : c.arguments.foldl (checkArgument known spec c) ⟨around, [], []⟩ =
      reportOf known around spec c := rfl
  have haccepts : spec.accepts c.positional.length = true ↔
      spec.minOperands ≤ c.positional.length ∧ c.positional.length ≤ spec.maxOperands := by simp [OpSpec.accepts]
  unfold checkKnown
  simp only [hreport, List.append_eq_nil_iff, missingParameters_eq_nil_iff, ite_eq_left_iff, Bool.or_eq_true,
    reduceCtorEq, imp_false, not_not, haccepts]
  constructor
  · rintro ⟨⟨⟨⟨herrors, harity⟩, hcomplete⟩, hparams⟩, hused⟩
    obtain ⟨harguments, honce⟩ := errors_reportOf_eq_nil_iff.1 herrors
    rw [attributes_reportOf herrors] at hparams
    refine ⟨⟨harity, fun a ha => (harguments a ha).1, fun a ha => (harguments a ha).2, honce, hcomplete, ?_⟩,
      hused⟩
    split at hparams
    · next haccepted => exact haccepted
    · cases hparams
  · rintro ⟨⟨harity, hfits, hrefers, honce, hcomplete, haccepted⟩, hused⟩
    have herrors : (reportOf known around spec c).errors = [] :=
      errors_reportOf_eq_nil_iff.2 ⟨fun a ha => ⟨hfits a ha, hrefers a ha⟩, honce⟩
    rw [attributes_reportOf herrors, haccepted]
    exact ⟨⟨⟨⟨herrors, harity⟩, hcomplete⟩, rfl⟩, hused⟩

/-- A call leaves no error exactly if it obeys an operation that can be called, and that one has side effects or the
result is used. -/
lemma checkCall_eq_nil_iff {bound : Bool} : checkCall r known around bound c = [] ↔
    ∃ spec, r.callable? c.operation = some spec ∧ c.Obeys (· ∈ known) around spec ∧
      (bound ∨ spec.sideEffecting) := by
  unfold checkCall
  cases r.callable? c.operation with
  | none => simp
  | some spec => simp [checkKnown_eq_nil_iff]

lemma blockErrors_eq_nil_iff {parameters : List Argument} : blockErrors parameters = [] ↔
    ∀ a ∈ parameters, ∃ name value, a.name = some name ∧ name ∈ commonParams ∧
      a.value = .literal value := by
  unfold blockErrors
  rw [List.filterMap_eq_nil_iff]
  refine forall₂_congr fun a _ => ?_
  cases hparameter : blockParameter a with
  | ok e =>
    obtain ⟨hname, hcommon, hvalue⟩ := blockParameter_eq_ok_iff.1 hparameter
    exact ⟨fun _ => ⟨e.1, e.2, hname, hcommon, hvalue⟩, fun _ => rfl⟩
  | error e =>
    simp only [reduceCtorEq, false_iff]
    rintro ⟨name, value, hgiven⟩
    have hok : blockParameter a = .ok (name, value) := blockParameter_eq_ok_iff.2 hgiven
    cases hparameter.symm.trans hok

lemma checkDefaults_eq_nil_iff {span : Span} : checkDefaults around span = [] ↔
    checkCommonParams around = .ok () := by
  unfold checkDefaults
  cases checkCommonParams around <;> simp

mutual

/-- A statement leaves no error exactly if it and the statements inside it obey the rules. -/
theorem checkStatement_eq_nil_iff (known : List String) (outer : Params) : (t : Statement) →
    (checkStatement r known outer t = [] ↔ ∀ (s : Statement) (around : Params),
      s.Occurs around outer [t] → s.Obeys r (· ∈ known) around)
  | .assignment target c span => by
    unfold checkStatement
    rw [checkCall_eq_nil_iff]
    simp only [Statement.occurs_singleton (t := .assignment target c span) nofun, and_imp, forall_eq,
      Statement.Obeys, true_or, and_true]
  | .call c => by
    unfold checkStatement
    rw [checkCall_eq_nil_iff]
    simp only [Statement.occurs_singleton (t := .call c) nofun, and_imp, forall_eq,
      Statement.Obeys, Bool.false_eq_true, false_or]
  | .block label parameters body span => by
    unfold checkStatement
    simp only [List.append_eq_nil_iff, blockErrors_eq_nil_iff, checkDefaults_eq_nil_iff, Statement.occurs_block, or_imp,
      forall_and, and_imp, forall_eq, Statement.Obeys, checkAll_eq_nil_iff known _ body]
    constructor
    · rintro ⟨⟨hparameters, hdefaults⟩, hbody⟩
      rw [blockDefaults_eq (blockErrors_eq_nil_iff.2 hparameters)] at hdefaults hbody
      exact ⟨⟨hparameters, hdefaults⟩, hbody⟩
    · rintro ⟨⟨hparameters, hdefaults⟩, hbody⟩
      rw [blockDefaults_eq (blockErrors_eq_nil_iff.2 hparameters)]
      exact ⟨⟨hparameters, hdefaults⟩, hbody⟩

/-- Statements leave no error exactly if they and the statements inside them obey the rules. -/
theorem checkAll_eq_nil_iff (known : List String) (outer : Params) : (body : List Statement) →
    (checkAll r known outer body = [] ↔ ∀ (s : Statement) (around : Params),
      s.Occurs around outer body → s.Obeys r (· ∈ known) around)
  | [] => by
    unfold checkAll
    exact ⟨fun _ s around hs => absurd hs Statement.occurs_nil, fun _ => rfl⟩
  | t :: rest => by
    unfold checkAll
    rw [List.append_eq_nil_iff, checkStatement_eq_nil_iff known outer t, checkAll_eq_nil_iff known outer rest]
    simp only [Statement.occurs_cons t rest, or_imp, forall_and]

end

/-- A program leaves no error exactly if its names have one meaning and all its statements obey the rules. -/
lemma check_eq_nil_iff {p : Program} : check r p = [] ↔ (names p).2 = [] ∧ ∀ (s : Statement) (around : Params),
    s.Occurs around Dict.empty p.statements → s.Obeys r p.Knows around := by
  have hknown : (· ∈ (names p).1.known) = p.Knows := funext fun name => propext mem_known_names
  unfold check
  dsimp only
  rw [List.append_eq_nil_iff, checkAll_eq_nil_iff, hknown]

/-- **The rules accept exactly the lawful programs.** -/
theorem accepts_iff_lawful (r : Registry) (p : Program) : check r p = [] ↔ p.Lawful r := by
  rw [check_eq_nil_iff, names_eq_nil_iff]
  constructor
  · rintro ⟨⟨hdeclared, hinputs, hassigned⟩, hobeys⟩
    exact ⟨hdeclared, hinputs, hassigned, hobeys⟩
  · rintro ⟨hdeclared, hinputs, hassigned, hobeys⟩
    exact ⟨⟨hdeclared, hinputs, hassigned⟩, hobeys⟩

/-! ### Calls -/

/-- The argument may be text only if it is given for an attribute parameter. -/
def Admits (spec : OpSpec) (a : Argument) : Prop := ∀ s, a.value = .literal (.text s) →
  ∃ name param, a.name = some name ∧ spec.param? name = some param ∧ param.role = .attribute

lemma admits_of_fits {a : Argument} (h : a.Fits spec) : Admits spec a := by
  intro s hs
  unfold Argument.Fits at h
  split at h
  · exact absurd ⟨s, hs⟩ h
  · next name hname =>
    obtain ⟨q, hq, hsuits⟩ := h
    unfold Argument.Suits at hsuits
    split at hsuits
    · next hrole => exact ⟨name, q, hname, hq, hrole⟩
    · exact absurd ⟨s, hs⟩ hsuits

/-- The call is of a known operation, which admits its arguments. -/
def Passes (r : Registry) (c : Call) : Prop :=
  ∃ spec, r.callable? c.operation = some spec ∧ ∀ a ∈ c.arguments, Admits spec a

/-- **A program that breaks no rule calls known operations, with text only for attribute parameters.** -/
theorem calls_pass {p : Program} (h : check r p = []) : ∀ c ∈ Statement.callsAll p.statements, Passes r c := by
  intro c hc
  obtain ⟨s, around, hs, hcall⟩ := (Statement.mem_callsAll Dict.empty p.statements).1 hc
  obtain ⟨spec, hspec, hobeys⟩ := ((check_eq_nil_iff.1 h).2 s around hs).exists_spec hcall
  exact ⟨spec, hspec, fun a ha => admits_of_fits (hobeys.fits a ha)⟩

end Rules

end Waveflow
