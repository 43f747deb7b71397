import Waveflow.Proofs.Meaning.Program
import Waveflow.Proofs.Source.Rules

/-!
# The literals of calls

`Program.settings` lists the calls of a program with the literals that hold for them, read off the text: those of the
blocks around a call, inner over outer, and over them its own attribute parameters.  `Rules.found` lists the calls
with the literals that the rules have computed for them, from the same accumulators that the check goes by.  In a
program that breaks no rule the two lists are equal, they cover all calls in order, and every operation accepts the
literals of its calls (`Rules.found_of_check`).
-/

namespace Waveflow

/-- A call, its operation and the literals that hold for it. -/
structure Setting where
  call : Call
  spec : OpSpec
  literals : Params

/-! ### As the text says -/

/-- The setting of a call under the literals of the blocks around it. -/
def Call.setting? (r : Registry) (around : Params) (c : Call) : Option Setting :=
  (r.callable? c.operation).map fun spec => ⟨c, spec, around.merge (c.attributes spec)⟩

namespace Statement

mutual

/-- The settings of the calls of a statement. -/
def settings (r : Registry) (around : Params) : Statement → List Setting
  | .assignment _ c _ => (c.setting? r around).toList
  | .call c => (c.setting? r around).toList
  | .block _ parameters body _ => settingsAll r (around.merge (literalsOf parameters)) body

/-- The settings of the calls of several statements. -/
def settingsAll (r : Registry) (around : Params) : List Statement → List Setting
  | [] => []
  | s :: rest => s.settings r around ++ settingsAll r around rest

end

end Statement

/-- The settings of the calls of a program. -/
def Program.settings (r : Registry) (p : Program) : List Setting := Statement.settingsAll r Dict.empty p.statements

/-! ### As the rules go by -/

namespace Rules

variable {r : Registry} {known : List String} {spec : OpSpec} {c : Call} {report : CallReport} {a : Argument}
variable {defaults : Params} {arguments : List Argument}

/-- What the check of a call of a known operation has looked at. -/
def reportOf (known : List String) (defaults : Params) (spec : OpSpec) (c : Call) : CallReport :=
  c.arguments.foldl (checkArgument known spec c) ⟨defaults, [], []⟩

/-- The call with the literals that its check goes by. -/
def finding? (r : Registry) (known : List String) (defaults : Params) (c : Call) : Option Setting :=
  (r.callable? c.operation).map fun spec => ⟨c, spec, (reportOf known defaults spec c).attributes⟩

mutual

/-- The calls of a statement with the literals that their checks go by. -/
def findings (r : Registry) (known : List String) (defaults : Params) : Statement → List Setting
  | .assignment _ c _ => (finding? r known defaults c).toList
  | .call c => (finding? r known defaults c).toList
  | .block _ parameters body _ => findingsAll r known (blockDefaults defaults parameters) body

/-- The calls of several statements with the literals that their checks go by. -/
def findingsAll (r : Registry) (known : List String) (defaults : Params) : List Statement → List Setting
  | [] => []
  | s :: rest => findings r known defaults s ++ findingsAll r known defaults rest

end

/-- The calls of a program with the literals that their checks go by. -/
def found (r : Registry) (p : Program) : List Setting :=
  findingsAll r (names p).1.known Dict.empty p.statements

/-! ### Without an error the two agree -/

/-- An argument without an error sets the literal that it gives for an attribute parameter, and no other. -/
lemma attributes_checkArgument (h : (checkArgument known spec c report a).errors = []) :
    (checkArgument known spec c report a).attributes =
      (a.entry?.toList.filter fun e => spec.isAttribute e.1).foldl (fun acc e => acc.insert e.1 e.2)
        report.attributes := by
  unfold checkArgument at h ⊢
  unfold Argument.entry? OpSpec.isAttribute
  cases hname : a.name with
  | none => rfl
  | some name =>
    rw [hname] at h
    dsimp only at h ⊢
    split at h
    · cases (CallReport.errors_report h).2
    · next hseen =>
      rw [if_neg hseen]
      cases hparam : spec.param? name with
      | none =>
        rw [hparam] at h
        cases (CallReport.errors_report h).2
      | some param =>
        rw [hparam] at h
        dsimp only at h ⊢
        unfold checkParameter at h ⊢
        split at h
        · next value hrole hvalue =>
          rw [hvalue]
          simp [hparam, hrole]
        · cases (CallReport.errors_report h).2
        · cases (CallReport.errors_report h).2
        · next hrole _ =>
          cases hvalue : a.value with
          | identifier other => rfl
          | literal value => simp [hparam, hrole, CallReport.report]

/-- The literals that the check of arguments has found are the attribute parameters among them. -/
lemma attributes_checkArguments (h : (arguments.foldl (checkArgument known spec c) report).errors = []) :
    (arguments.foldl (checkArgument known spec c) report).attributes =
      ((arguments.filterMap Argument.entry?).filter fun e => spec.isAttribute e.1).foldl
        (fun acc e => acc.insert e.1 e.2) report.attributes := by
  induction arguments generalizing report with
  | nil => rfl
  | cons a rest ih =>
    rw [List.foldl_cons] at h ⊢
    have hfirst := (foldl_checkArgument_eq_nil_iff.1 h).1
    rw [ih h, attributes_checkArgument hfirst, ← List.foldl_append, ← List.filter_append]
    cases hentry : a.entry? <;> simp [hentry]

/-- A call whose arguments leave no error has the literals around it, and its own attribute parameters over them. -/
lemma attributes_reportOf (h : (reportOf known defaults spec c).errors = []) :
    (reportOf known defaults spec c).attributes = defaults.merge (c.attributes spec) := by
  unfold reportOf at h ⊢
  unfold Call.attributes
  rw [attributes_checkArguments h, Dict.foldl_insert_eq_merge]

/-- A call without an error has those literals, and its operation accepts them. -/
lemma reportOf_of_checkKnown {bound : Bool} (h : checkKnown known defaults bound spec c = []) :
    (reportOf known defaults spec c).attributes = defaults.merge (c.attributes spec) ∧
      spec.checkParams (reportOf known defaults spec c).attributes = .ok () := by
  unfold checkKnown at h
  simp only [List.append_eq_nil_iff] at h
  obtain ⟨⟨⟨⟨herrors, -⟩, -⟩, hparams⟩, -⟩ := h
  refine ⟨attributes_reportOf herrors, ?_⟩
  split at hparams
  · next accepted hok => exact hok
  · cases hparams

/-- A block parameter is a literal under the name of a common parameter. -/
lemma blockParameter_eq_ok_iff {e : String × Literal} :
    blockParameter a = .ok e ↔ a.name = some e.1 ∧ e.1 ∈ commonParams ∧ a.value = .literal e.2 := by
  obtain ⟨key, value⟩ := e
  unfold blockParameter
  cases a.name with
  | none => simp
  | some name =>
    dsimp only
    by_cases hcommon : name ∈ commonParams
    · rw [if_neg (by simpa using hcommon)]
      cases a.value with
      | literal given =>
        simp only [Except.ok.injEq, Prod.mk.injEq, Option.some.injEq, ArgumentValue.literal.injEq]
        exact ⟨fun h => ⟨h.1, h.1 ▸ hcommon, h.2⟩, fun h => ⟨h.1, h.2.2⟩⟩
      | identifier other => simp
    · rw [if_pos (by simpa using hcommon)]
      simp only [reduceCtorEq, Option.some.injEq, false_iff]
      rintro ⟨rfl, hkey, -⟩
      exact hcommon hkey

/-- Blocks without an error hand down their literals over those around them. -/
lemma blockDefaults_eq {parameters : List Argument} (h : blockErrors parameters = []) :
    blockDefaults defaults parameters = defaults.merge (literalsOf parameters) := by
  have hfold : blockDefaults defaults parameters =
      (parameters.filterMap Argument.entry?).foldl (fun acc e => acc.insert e.1 e.2) defaults := by
    induction parameters generalizing defaults with
    | nil => rfl
    | cons a rest ih =>
      unfold blockErrors at h ih
      unfold blockDefaults
      cases hparameter : blockParameter a with
      | error e =>
        rw [List.filterMap_cons, hparameter] at h
        cases h
      | ok entry =>
        rw [List.filterMap_cons, hparameter] at h
        obtain ⟨hname, -, hvalue⟩ := blockParameter_eq_ok_iff.1 hparameter
        have hentry : a.entry? = some entry := by
          unfold Argument.entry?
          rw [hname, hvalue]
        rw [List.filterMap_cons, hentry, List.foldl_cons]
        exact ih h
  rw [hfold, Dict.foldl_insert_eq_merge]
  rfl

/-- The rules have gone by the literals that the text gives to the calls, and every operation accepts them. -/
structure Accounts (found settings : List Setting) (calls : List Call) : Prop where
  eq : found = settings
  calls : found.map (·.call) = calls
  accepted : ∀ f ∈ found, f.spec.checkParams f.literals = .ok ()

lemma Accounts.append {found settings found' settings' : List Setting} {calls calls' : List Call}
    (h : Accounts found settings calls) (h' : Accounts found' settings' calls') :
    Accounts (found ++ found') (settings ++ settings') (calls ++ calls') where
  eq := by rw [h.eq, h'.eq]
  calls := by rw [List.map_append, h.calls, h'.calls]
  accepted := by
    intro f hf
    rcases List.mem_append.1 hf with hf | hf
    · exact h.accepted f hf
    · exact h'.accepted f hf

lemma finding?_of_checkCall {bound : Bool} (h : checkCall r known defaults bound c = []) :
    Accounts (finding? r known defaults c).toList (c.setting? r defaults).toList [c] := by
  unfold checkCall at h
  unfold finding? Call.setting?
  split at h
  · next spec hspec =>
    obtain ⟨hliterals, haccepted⟩ := reportOf_of_checkKnown h
    rw [hspec, Option.map_some, Option.map_some, Option.toList_some, Option.toList_some]
    refine ⟨by rw [hliterals], rfl, fun f hf => ?_⟩
    rw [List.mem_singleton.1 hf]
    exact haccepted
  · cases h

mutual

theorem findings_of_checkStatement (known : List String) (defaults : Params) :
    (s : Statement) → checkStatement r known defaults s = [] →
      Accounts (findings r known defaults s) (s.settings r defaults) s.calls
  | .assignment target c span, h => by
    unfold checkStatement at h
    unfold findings Statement.settings Statement.calls
    exact finding?_of_checkCall h
  | .call c, h => by
    unfold checkStatement at h
    unfold findings Statement.settings Statement.calls
    exact finding?_of_checkCall h
  | .block label parameters body span, h => by
    unfold checkStatement at h
    unfold findings Statement.settings Statement.calls
    obtain ⟨hhead, hbody⟩ := List.append_eq_nil_iff.1 h
    rw [← blockDefaults_eq (List.append_eq_nil_iff.1 hhead).1]
    exact findings_of_checkAll known _ body hbody

theorem findings_of_checkAll (known : List String) (defaults : Params) :
    (body : List Statement) → checkAll r known defaults body = [] →
      Accounts (findingsAll r known defaults body) (Statement.settingsAll r defaults body) (Statement.callsAll body)
  | [], _ => by
    unfold findingsAll Statement.settingsAll Statement.callsAll
    exact ⟨rfl, rfl, fun _ hf => absurd hf List.not_mem_nil⟩
  | s :: rest, h => by
    unfold checkAll at h
    unfold findingsAll Statement.settingsAll Statement.callsAll
    obtain ⟨hfirst, hrest⟩ := List.append_eq_nil_iff.1 h
    exact (findings_of_checkStatement known defaults s hfirst).append (findings_of_checkAll known defaults rest hrest)

end

/-- **The rules go by the literals that the text gives to the calls.** -/
theorem found_of_check {p : Program} (h : check r p = []) :
    Accounts (found r p) (p.settings r) (Statement.callsAll p.statements) := by
  unfold check at h
  exact findings_of_checkAll _ _ _ (List.append_eq_nil_iff.1 h).2

end Rules

end Waveflow
