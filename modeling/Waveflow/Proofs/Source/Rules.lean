import Waveflow.Source.Rules
import Mathlib.Data.List.Nodup
import Mathlib.Tactic.Lemma
import Mathlib.Tactic.Tauto

/-!
# Programs that break no rule

What it takes for the steps of the rules to leave no error.  Names: no name is declared twice, no input is assigned and
no name is assigned twice (`Rules.names_eq_nil_iff`); known are then the declared names and the targets of assignments.
Arguments: each fits the operation and refers to nothing unknown, and no name is given twice
(`Rules.foldl_checkArgument_eq_nil_iff`).
-/

namespace Waveflow

/-- The targets of the assignments of a program, inside blocks too. -/
def Program.targets (p : Program) : List String := (Statement.assignmentsAll p.statements).map (·.1)

namespace Rules

variable {acc : Names × List SourceError} {d : Declaration} {ds : List Declaration} {a : String × Span}
variable {targets : List (String × Span)} {x : String}

/-- Every known name is an input, an output or assigned. -/
def Names.Settled (n : Names) : Prop := ∀ x, x ∈ n.known ↔ x ∈ n.inputs ∨ x ∈ n.outputs ∨ x ∈ n.assigned

/-! ### Declarations -/

/-- What a declaration does: one of a known name leaves an error, one of a new name makes it an input or an output,
and known. -/
lemma declare_cases (acc : Names × List SourceError) (d : Declaration) :
    (d.name ∈ acc.1.known ∧ declare acc d = (acc.1, acc.2 ++ [.duplicateName d.name d.span])) ∨
    (d.name ∉ acc.1.known ∧ d.direction = .input ∧
      declare acc d = ({ acc.1 with known := d.name :: acc.1.known, inputs := d.name :: acc.1.inputs }, acc.2)) ∨
    (d.name ∉ acc.1.known ∧ d.direction = .output ∧
      declare acc d = ({ acc.1 with known := d.name :: acc.1.known, outputs := d.name :: acc.1.outputs }, acc.2)) := by
  by_cases hknown : d.name ∈ acc.1.known
  · exact .inl ⟨hknown, if_pos (List.contains_iff_mem.2 hknown)⟩
  refine .inr ?_
  unfold declare
  dsimp only
  rw [if_neg (mt List.contains_iff_mem.1 hknown)]
  cases d.direction with
  | input => exact .inl ⟨hknown, rfl, rfl⟩
  | output => exact .inr ⟨hknown, rfl, rfl⟩

lemma mem_known_declare : x ∈ (declare acc d).1.known ↔ x = d.name ∨ x ∈ acc.1.known := by
  rcases declare_cases acc d with ⟨hknown, heq⟩ | ⟨-, -, heq⟩ | ⟨-, -, heq⟩ <;> rw [heq]
  · exact ⟨.inr, fun h => h.elim (fun hx => hx ▸ hknown) id⟩
  · exact List.mem_cons
  · exact List.mem_cons

lemma declare_eq_nil_iff : (declare acc d).2 = [] ↔ acc.2 = [] ∧ d.name ∉ acc.1.known := by
  rcases declare_cases acc d with ⟨hknown, heq⟩ | ⟨hnew, -, heq⟩ | ⟨hnew, -, heq⟩ <;> rw [heq]
  · simp [hknown]
  · simp [hnew]
  · simp [hnew]

lemma settled_declare (h : acc.1.Settled) : (declare acc d).1.Settled := by
  intro x
  rcases declare_cases acc d with ⟨-, heq⟩ | ⟨-, -, heq⟩ | ⟨-, -, heq⟩ <;> rw [heq]
  · exact h x
  · simp only [List.mem_cons, h x]
    tauto
  · simp only [List.mem_cons, h x]
    tauto

lemma mem_inputs_declare (hnew : d.name ∉ acc.1.known) :
    x ∈ (declare acc d).1.inputs ↔ (d.direction = .input ∧ x = d.name) ∨ x ∈ acc.1.inputs := by
  rcases declare_cases acc d with ⟨hknown, -⟩ | ⟨-, hdirection, heq⟩ | ⟨-, hdirection, heq⟩
  · exact absurd hknown hnew
  · simp [heq, hdirection]
  · simp [heq, hdirection]

/-- Declarations leave no error exactly if their names are new, each once. -/
lemma foldl_declare_eq_nil_iff : (ds.foldl declare acc).2 = [] ↔
    acc.2 = [] ∧ (ds.map (·.name)).Nodup ∧ ∀ d ∈ ds, d.name ∉ acc.1.known := by
  induction ds generalizing acc with
  | nil => simp
  | cons d rest ih =>
    rw [List.foldl_cons, ih, declare_eq_nil_iff]
    simp only [mem_known_declare, List.map_cons, List.nodup_cons, List.mem_map, List.forall_mem_cons, not_or,
      not_exists, not_and]
    constructor
    · rintro ⟨⟨hacc, hd⟩, hnodup, hrest⟩
      exact ⟨hacc, ⟨fun e he => (hrest e he).1, hnodup⟩, hd, fun e he => (hrest e he).2⟩
    · rintro ⟨hacc, ⟨hapart, hnodup⟩, hd, hrest⟩
      exact ⟨⟨hacc, hd⟩, hnodup, fun e he => ⟨hapart e he, hrest e he⟩⟩

lemma mem_known_foldl_declare :
    x ∈ (ds.foldl declare acc).1.known ↔ x ∈ ds.map (·.name) ∨ x ∈ acc.1.known := by
  induction ds generalizing acc with
  | nil => simp
  | cons d rest ih =>
    rw [List.foldl_cons, ih, mem_known_declare, List.map_cons, List.mem_cons]
    tauto

lemma settled_foldl_declare (h : acc.1.Settled) : (ds.foldl declare acc).1.Settled := by
  induction ds generalizing acc with
  | nil => exact h
  | cons d rest ih => exact ih (settled_declare h)

lemma mem_inputs_foldl_declare (h : (ds.foldl declare acc).2 = []) : x ∈ (ds.foldl declare acc).1.inputs ↔
    x ∈ (ds.filter (·.direction == .input)).map (·.name) ∨ x ∈ acc.1.inputs := by
  induction ds generalizing acc with
  | nil => simp
  | cons d rest ih =>
    have hnew := (foldl_declare_eq_nil_iff.1 h).2.2 d List.mem_cons_self
    rw [List.foldl_cons, ih h, mem_inputs_declare hnew]
    cases hdirection : d.direction with
    | input => simp [hdirection, or_assoc, or_left_comm]
    | output => simp [hdirection]

lemma assigned_foldl_declare : (ds.foldl declare acc).1.assigned = acc.1.assigned := by
  induction ds generalizing acc with
  | nil => rfl
  | cons d rest ih =>
    rw [List.foldl_cons, ih]
    rcases declare_cases acc d with ⟨-, heq⟩ | ⟨-, -, heq⟩ | ⟨-, -, heq⟩ <;> rw [heq]

/-! ### Assignments -/

/-- What an assignment does where known names are settled: one to an input or to an assigned name leaves an error, any
other one makes its target assigned, and known. -/
lemma assign_cases (h : acc.1.Settled) (a : String × Span) :
    ((a.1 ∈ acc.1.inputs ∨ a.1 ∈ acc.1.assigned) ∧ ∃ e, assign acc a = (acc.1, acc.2 ++ [e])) ∨
    (a.1 ∉ acc.1.inputs ∧ a.1 ∉ acc.1.assigned ∧
      ∃ known, (∀ x, x ∈ known ↔ x = a.1 ∨ x ∈ acc.1.known) ∧
      assign acc a = ({ acc.1 with known := known, assigned := a.1 :: acc.1.assigned }, acc.2)) := by
  unfold assign
  dsimp only
  by_cases hinput : a.1 ∈ acc.1.inputs
  · exact .inl ⟨.inl hinput, _, if_pos (List.contains_iff_mem.2 hinput)⟩
  rw [if_neg (mt List.contains_iff_mem.1 hinput)]
  by_cases hassigned : a.1 ∈ acc.1.assigned
  · exact .inl ⟨.inr hassigned, _, if_pos (List.contains_iff_mem.2 hassigned)⟩
  rw [if_neg (mt List.contains_iff_mem.1 hassigned)]
  refine .inr ⟨hinput, hassigned, ?_⟩
  by_cases houtput : a.1 ∈ acc.1.outputs
  · refine ⟨acc.1.known, fun x => ⟨.inr, ?_⟩, if_pos (List.contains_iff_mem.2 houtput)⟩
    rintro (rfl | hx)
    · exact (h a.1).2 (.inr (.inl houtput))
    · exact hx
  rw [if_neg (mt List.contains_iff_mem.1 houtput)]
  -- a target that is known, and neither an input nor an output, has been assigned before
  have hnew : a.1 ∉ acc.1.known := by
    rw [h a.1]
    tauto
  exact ⟨a.1 :: acc.1.known, fun x => List.mem_cons, if_neg (mt List.contains_iff_mem.1 hnew)⟩

lemma settled_assign (h : acc.1.Settled) (a : String × Span) : (assign acc a).1.Settled := by
  rcases assign_cases h a with ⟨-, e, heq⟩ | ⟨-, -, known, hknown, heq⟩ <;> rw [heq]
  · exact h
  · intro x
    simp only [hknown, List.mem_cons, h x]
    tauto

lemma mem_known_assign (h : acc.1.Settled) : x ∈ (assign acc a).1.known ↔ x = a.1 ∨ x ∈ acc.1.known := by
  rcases assign_cases h a with ⟨hold, e, heq⟩ | ⟨-, -, known, hknown, heq⟩ <;> rw [heq]
  · have htarget : a.1 ∈ acc.1.known := by
      rw [h a.1]
      tauto
    exact ⟨.inr, fun hx => hx.elim (fun hx => hx ▸ htarget) id⟩
  · exact hknown x

/-- Assignments leave no error exactly if their targets are neither inputs nor assigned before, each once. -/
lemma foldl_assign_eq_nil_iff (h : acc.1.Settled) : (targets.foldl assign acc).2 = [] ↔
    acc.2 = [] ∧ (targets.map (·.1)).Nodup ∧
      ∀ t ∈ targets.map (·.1), t ∉ acc.1.inputs ∧ t ∉ acc.1.assigned := by
  induction targets generalizing acc with
  | nil => simp
  | cons a rest ih =>
    rw [List.foldl_cons, ih (settled_assign h a), List.map_cons, List.nodup_cons, List.forall_mem_cons]
    rcases assign_cases h a with ⟨hold, e, heq⟩ | ⟨hinput, hassigned, known, -, heq⟩ <;> rw [heq]
    · simp only [List.append_eq_nil_iff]
      tauto
    · simp only [List.mem_cons, not_or]
      constructor
      · rintro ⟨hacc, hnodup, hrest⟩
        exact ⟨hacc, ⟨fun hmem => (hrest a.1 hmem).2.1 rfl, hnodup⟩, ⟨hinput, hassigned⟩,
          fun t ht => ⟨(hrest t ht).1, (hrest t ht).2.2⟩⟩
      · rintro ⟨hacc, ⟨hapart, hnodup⟩, -, hrest⟩
        exact ⟨hacc, hnodup, fun t ht => ⟨(hrest t ht).1, fun heq => hapart (heq ▸ ht), (hrest t ht).2⟩⟩

lemma mem_known_foldl_assign (h : acc.1.Settled) :
    x ∈ (targets.foldl assign acc).1.known ↔ x ∈ targets.map (·.1) ∨ x ∈ acc.1.known := by
  induction targets generalizing acc with
  | nil => simp
  | cons a rest ih =>
    rw [List.foldl_cons, ih (settled_assign h a), mem_known_assign h, List.map_cons, List.mem_cons]
    tauto

/-! ### All names -/

lemma settled_declarations : (ds.foldl declare (Names.none, [])).1.Settled :=
  settled_foldl_declare fun x => by simp [Names.none]

/-- **The names of a program have one meaning** if no name is declared twice, no input assigned and no name assigned
twice, and only then. -/
theorem names_eq_nil_iff {p : Program} : (names p).2 = [] ↔
    (p.declarations.map (·.name)).Nodup ∧ (∀ t ∈ p.targets, t ∉ p.inputs.map (·.name)) ∧
      p.targets.Nodup := by
  unfold names
  rw [foldl_assign_eq_nil_iff settled_declarations, assigned_foldl_declare]
  simp only [foldl_declare_eq_nil_iff, Names.none, List.not_mem_nil, not_false_eq_true, implies_true, and_true,
    true_and]
  refine and_congr_right fun hdeclared => ?_
  have hinputs (t : String) :
      t ∈ (p.declarations.foldl declare (Names.none, [])).1.inputs ↔ t ∈ p.inputs.map (·.name) := by
    rw [mem_inputs_foldl_declare (foldl_declare_eq_nil_iff.2 (by simpa [Names.none] using hdeclared))]
    simp [Names.none, Program.inputs]
  simp only [← hinputs]
  exact and_comm

/-- The names that arguments can refer to are the declared ones and the targets of assignments anywhere. -/
lemma mem_known_names {p : Program} :
    x ∈ (names p).1.known ↔ x ∈ p.declarations.map (·.name) ∨ x ∈ p.targets := by
  unfold names
  rw [mem_known_foldl_assign settled_declarations, mem_known_foldl_declare]
  simp only [Names.none, List.not_mem_nil, or_false]
  exact or_comm

/-- **A program that breaks no rule declares every name once.** -/
theorem declarations_nodup {r : Registry} {p : Program} (h : check r p = []) :
    (p.declarations.map (·.name)).Nodup := by
  unfold check at h
  exact (names_eq_nil_iff.1 (List.append_eq_nil_iff.1 h).1).1

end Rules

/-! ### Arguments -/

namespace Argument

/-- The argument is text. -/
def IsText (a : Argument) : Prop := ∃ s, a.value = .literal (.text s)

/-- An attribute is a literal, an operand is no text. -/
def Suits (a : Argument) : ParamRole → Prop
  | .attribute => ∃ value, a.value = .literal value
  | .operand => ¬ a.IsText

/-- The argument fits the operation: a positional one is an operand, a named one suits the parameter of that name. -/
def Fits (spec : OpSpec) (a : Argument) : Prop :=
  match a.name with
  | none => a.Suits .operand
  | some name => ∃ q, spec.param? name = some q ∧ a.Suits q.role

/-- A name that the argument refers to is known. -/
def Refers (known : String → Prop) (a : Argument) : Prop := ∀ name, a.value = .identifier name → known name

end Argument

namespace Rules

variable {known : List String} {spec : OpSpec} {c : Call} {report : CallReport} {a : Argument}
variable {arguments : List Argument}

lemma CallReport.errors_report {errors : List SourceError} (h : (report.report errors).errors = []) :
    report.errors = [] ∧ errors = [] := List.append_eq_nil_iff.1 h

lemma checkReference_eq_nil_iff : checkReference known a = [] ↔ a.Refers (· ∈ known) := by
  unfold checkReference Argument.identifier? Argument.Refers
  cases a.value with
  | literal value => simp
  | identifier name => simp

lemma checkPositional_eq_nil_iff : (checkPositional known c report a).errors = [] ↔
    report.errors = [] ∧ a.Suits .operand ∧ a.Refers (· ∈ known) := by
  unfold checkPositional CallReport.report Argument.Suits Argument.IsText
  rw [← checkReference_eq_nil_iff]
  simp only [List.append_eq_nil_iff]
  refine and_congr_right fun _ => and_congr_left fun _ => ?_
  split
  · next s hs => simp [hs]
  · next hs => simpa using hs

lemma checkParameter_eq_nil_iff {q : ParamSpec} {name : String} :
    (checkParameter known c q name report a).errors = [] ↔
      report.errors = [] ∧ a.Suits q.role ∧ a.Refers (· ∈ known) := by
  rw [← checkReference_eq_nil_iff]
  unfold checkParameter checkReference Argument.identifier? Argument.Suits Argument.IsText CallReport.report
  rcases q.role with _ | _ <;> rcases a.value with (_ | _) | _ <;> simp

lemma checkArgument_eq_nil_iff : (checkArgument known spec c report a).errors = [] ↔
    report.errors = [] ∧ a.Fits spec ∧ a.Refers (· ∈ known) ∧ ∀ name, a.name = some name →
      name ∉ report.seen := by
  unfold checkArgument Argument.Fits
  cases a.name with
  | none => simp [checkPositional_eq_nil_iff]
  | some name =>
    dsimp only
    by_cases hseen : name ∈ report.seen
    · simp [hseen, CallReport.report]
    rw [if_neg (mt List.contains_iff_mem.1 hseen)]
    cases spec.param? name with
    | none => simp [CallReport.report]
    | some q => simp [checkParameter_eq_nil_iff, hseen]

lemma seen_checkParameter {q : ParamSpec} {name : String} :
    (checkParameter known c q name report a).seen = report.seen := by
  unfold checkParameter
  split <;> rfl

lemma mem_seen_checkArgument {x : String} :
    x ∈ (checkArgument known spec c report a).seen ↔ a.name = some x ∨ x ∈ report.seen := by
  unfold checkArgument
  cases a.name with
  | none => simp [checkPositional, CallReport.report]
  | some name =>
    dsimp only
    by_cases hseen : name ∈ report.seen
    · rw [if_pos (List.contains_iff_mem.2 hseen)]
      exact ⟨.inr, fun h => h.elim (fun hx => Option.some.inj hx ▸ hseen) id⟩
    rw [if_neg (mt List.contains_iff_mem.1 hseen)]
    cases spec.param? name with
    | none => simp [CallReport.report, eq_comm]
    | some q => simp [seen_checkParameter, eq_comm]

/-- Arguments leave no error exactly if each fits the operation and refers to nothing unknown, and their names are new,
each once. -/
lemma foldl_checkArgument_eq_nil_iff : (arguments.foldl (checkArgument known spec c) report).errors = [] ↔
    report.errors = [] ∧ (∀ a ∈ arguments, a.Fits spec ∧ a.Refers (· ∈ known)) ∧
      (arguments.filterMap (·.name)).Nodup ∧ ∀ name ∈ arguments.filterMap (·.name), name ∉ report.seen := by
  induction arguments generalizing report with
  | nil => simp
  | cons a rest ih =>
    rw [List.foldl_cons, ih, checkArgument_eq_nil_iff, List.forall_mem_cons]
    simp only [mem_seen_checkArgument, not_or]
    cases hname : a.name with
    | none =>
      simp only [List.filterMap_cons_none hname, reduceCtorEq, false_imp_iff, implies_true, not_false_eq_true, true_and]
      tauto
    | some name =>
      simp only [List.filterMap_cons_some hname, List.nodup_cons, List.forall_mem_cons, Option.some.injEq, forall_eq']
      constructor
      · rintro ⟨⟨hreport, hfits, hrefers, hseen⟩, hrest, hnodup, hnames⟩
        exact ⟨hreport, ⟨⟨hfits, hrefers⟩, hrest⟩, ⟨fun hmem => (hnames name hmem).1 rfl, hnodup⟩, hseen,
          fun n hn => (hnames n hn).2⟩
      · rintro ⟨hreport, ⟨⟨hfits, hrefers⟩, hrest⟩, ⟨hapart, hnodup⟩, hseen, hnames⟩
        exact ⟨⟨hreport, hfits, hrefers, hseen⟩, hrest, hnodup,
          fun n hn => ⟨fun heq => hapart (heq ▸ hn), hnames n hn⟩⟩

end Rules

lemma check_of_parseSource {r : Registry} {source : String} {p : Program} (h : parseSource r source = .ok p) :
    Rules.check r p = [] := by
  unfold parseSource at h
  split at h
  · cases h
  split at h
  · cases h
  split at h
  · next hcheck =>
    obtain rfl := Except.ok.inj h
    exact hcheck
  · cases h

end Waveflow
