import Waveflow.Proofs.Requirements.Validated

/-!
# Levels within range

The strength of a fault-tolerant requirement is one more than its level, and the distance of its code is twice the
level and one.  Up to `Correction.maxLevel` both are in range.  A requirement of a node comes from the options, from
the registry, from the literals of a call or from an input of the node, and the literals of a call come from the
arguments of the text, so if the levels in these places are moderate, all of them are (`exists_annotate`).
-/

namespace Waveflow

/-! ### Moderate requirements -/

namespace Correction

/-- The highest level whose distance is in range. -/
def maxLevel : Nat := 2147483647

/-- The level, if there is one, has a distance in range. -/
def Moderate : Correction → Prop
  | faultTolerant level _ => level ≤ maxLevel
  | _ => True

instance decidableModerate : (c : Correction) → Decidable c.Moderate
  | none | basic _ => isTrue trivial
  | faultTolerant level _ => inferInstanceAs (Decidable (level ≤ maxLevel))

variable {c : Correction} {level : Option Nat} {code : Option String}

lemma Moderate.rank_lt (h : c.Moderate) : c.rank < wordLimit := by
  cases c with
  | none | basic _ => simp [rank, wordLimit]
  | faultTolerant level code =>
    have hle : level ≤ maxLevel := h
    show 1 + level < wordLimit
    unfold wordLimit
    unfold maxLevel at hle
    omega

/-- **The distance of a moderate requirement is in range.** -/
lemma Moderate.exists_distance (h : c.Moderate) : ∃ d, c.distance = .ok d := by
  cases c with
  | none | basic _ => exact ⟨_, rfl⟩
  | faultTolerant level code =>
    have hle : level ≤ maxLevel := h
    unfold maxLevel at hle
    have htwice : mulWord 2 level = .ok (2 * level) := if_pos (by unfold wordLimit; omega)
    have hsum : addWord (2 * level) 1 = .ok (2 * level + 1) := addWord_eq_ok (by unfold wordLimit; omega)
    refine ⟨some (2 * level + 1), ?_⟩
    show (mulWord 2 level >>= fun twice => some <$> addWord twice 1) = _
    rw [htwice, Checked.ok_bind, hsum]
    rfl

lemma moderate_atLevel {level : Nat} (h : level ≤ maxLevel) : (atLevel level).Moderate :=
  Nat.max_le.2 ⟨h, by decide⟩

lemma Moderate.withCode (h : c.Moderate) (code : String) : (c.withCode code).Moderate := by
  cases c with
  | none | basic _ => trivial
  | faultTolerant level old => exact h

lemma Moderate.withCode? (h : c.Moderate) (code : Option String) :
    (match code with
      | some code => c.withCode code
      | Option.none => c).Moderate := by
  cases code with
  | none => exact h
  | some code => exact h.withCode code

lemma moderate_ofParts {name : String} (hlevel : ∀ k, level = some k → k ≤ maxLevel)
    (h : ofParts name level code = .ok c) : c.Moderate := by
  unfold ofParts at h
  dsimp only at h
  split at h
  · split at h
    · cases h
    · obtain rfl := Except.ok.inj h
      trivial
  split at h
  · split at h
    · cases h
    · obtain rfl := Except.ok.inj h
      refine Moderate.withCode? ?_ _
      trivial
  split at h
  · obtain rfl := Except.ok.inj h
    refine (moderate_atLevel ?_).withCode? _
    cases level with
    | none => decide
    | some k => exact hlevel k rfl
  · cases h

end Correction

/-- The requirements of all nodes are moderate. -/
def Graph.Moderate (g : Graph) : Prop := ∀ n ∈ g.nodes, n.attrs.correction.Moderate

/-- The requirements that operations bring with them are moderate. -/
def Registry.Moderate (r : Registry) : Prop :=
  ∀ name spec c, r.get? name = some spec → spec.defaultCorrection = some c → c.Moderate

lemma Registry.moderate_of_all {r : Registry}
    (h : (r.specs.entries.all fun e => e.2.defaultCorrection.all fun c => decide c.Moderate) = true) : r.Moderate := by
  intro name spec c hspec hc
  have hall := List.all_eq_true.1 h _ (Dict.mem_entries_iff.2 hspec)
  dsimp only at hall
  rw [hc] at hall
  exact of_decide_eq_true hall

/-! ### Levels in the text -/

/-- The level that an argument gives. -/
def Argument.level? (a : Argument) : Option Nat :=
  if a.name = some "level" then a.literal?.bind Literal.positive? else none

namespace Statement

mutual

/-- The arguments of the calls and blocks of a statement. -/
def arguments : Statement → List Argument
  | .assignment _ c _ => c.arguments
  | .call c => c.arguments
  | .block _ parameters body _ => parameters ++ argumentsAll body

/-- The arguments of the calls and blocks of several statements. -/
def argumentsAll : List Statement → List Argument
  | [] => []
  | s :: rest => s.arguments ++ argumentsAll rest

end

end Statement

variable {r : Registry} {o : Options} {n : Node} {k : Nat} {around : Params} {f : Setting}

lemma levelOf_merge {d later : Params} (h : levelOf (d.merge later) = some k) :
    levelOf later = some k ∨ levelOf d = some k := by
  unfold levelOf at h ⊢
  rw [Dict.get?_merge] at h
  cases hlater : later.get? "level" with
  | none =>
    rw [hlater, Option.none_or] at h
    exact .inr h
  | some value =>
    rw [hlater, Option.some_or] at h
    exact .inl h

/-- A level among literals is that of an argument that gives one of the literals. -/
lemma exists_level_of_ofList {arguments : List Argument} {entries : List (String × Literal)}
    (hentries : entries ⊆ arguments.filterMap Argument.entry?) (h : levelOf (Dict.ofList entries) = some k) :
    ∃ a ∈ arguments, a.level? = some k := by
  unfold levelOf Dict.ofList at h
  rw [Dict.get?_foldl, Dict.get?_empty, Option.or_none] at h
  obtain ⟨value, hfind, hvalue⟩ := Option.bind_eq_some_iff.1 h
  obtain ⟨⟨key, literal⟩, hentry, rfl⟩ := Option.map_eq_some_iff.1 hfind
  have hkey : (key == "level") = true := List.find?_some (p := fun e : String × Literal => e.1 == "level") hentry
  obtain rfl : key = "level" := beq_iff_eq.1 hkey
  have hmem := hentries (List.mem_reverse.1 (List.mem_of_find?_eq_some hentry))
  obtain ⟨a, ha, haentry⟩ := List.mem_filterMap.1 hmem
  refine ⟨a, ha, ?_⟩
  unfold Argument.entry? at haentry
  split at haentry
  · next name value hname hliteral =>
    cases haentry
    unfold Argument.level? Argument.literal?
    rw [if_pos hname, hliteral]
    exact hvalue
  · cases haentry

lemma exists_level_of_setting? {c : Call} (hf : f ∈ (c.setting? r around).toList)
    (hlevel : levelOf f.literals = some k) : levelOf around = some k ∨ ∃ a ∈ c.arguments, a.level? = some k := by
  obtain ⟨spec, -, rfl⟩ := Option.map_eq_some_iff.1 (Option.mem_toList.1 hf)
  rcases levelOf_merge hlevel with hown | haround
  · exact .inr (exists_level_of_ofList (List.filter_subset_self _) hown)
  · exact .inl haround

mutual

/-- A level that holds for a call of a statement held around the statement, or an argument in it gives it. -/
theorem exists_level_of_settings {around : Params} : (s : Statement) → f ∈ s.settings r around →
    levelOf f.literals = some k → levelOf around = some k ∨ ∃ a ∈ s.arguments, a.level? = some k
  | .assignment target c span, hf, hlevel => by
    unfold Statement.settings at hf
    unfold Statement.arguments
    exact exists_level_of_setting? hf hlevel
  | .call c, hf, hlevel => by
    unfold Statement.settings at hf
    unfold Statement.arguments
    exact exists_level_of_setting? hf hlevel
  | .block label parameters body span, hf, hlevel => by
    unfold Statement.settings at hf
    unfold Statement.arguments
    rcases exists_level_of_settingsAll body hf hlevel with hinside | ⟨a, ha, hak⟩
    · rcases levelOf_merge hinside with hown | haround
      · obtain ⟨a, ha, hak⟩ := exists_level_of_ofList (List.Subset.refl _) hown
        exact .inr ⟨a, List.mem_append_left _ ha, hak⟩
      · exact .inl haround
    · exact .inr ⟨a, List.mem_append_right _ ha, hak⟩

/-- The same for several statements. -/
theorem exists_level_of_settingsAll {around : Params} : (body : List Statement) →
    f ∈ Statement.settingsAll r around body → levelOf f.literals = some k →
      levelOf around = some k ∨ ∃ a ∈ Statement.argumentsAll body, a.level? = some k
  | [], hf, _ => by
    unfold Statement.settingsAll at hf
    exact absurd hf List.not_mem_nil
  | s :: rest, hf, hlevel => by
    unfold Statement.settingsAll at hf
    unfold Statement.argumentsAll
    rcases List.mem_append.1 hf with hf | hf
    · rcases exists_level_of_settings s hf hlevel with haround | ⟨a, ha, hak⟩
      · exact .inl haround
      · exact .inr ⟨a, List.mem_append_left _ ha, hak⟩
    · rcases exists_level_of_settingsAll rest hf hlevel with haround | ⟨a, ha, hak⟩
      · exact .inl haround
      · exact .inr ⟨a, List.mem_append_right _ ha, hak⟩

end

/-- **The levels of a graph are those of the text.** -/
lemma Lowering.exists_level_of_build {name : String} {p : Program} {g : Graph} {sink sink' : Diagnostics}
    (hbuild : build r name p sink = .ok (.ok g, sink')) (hn : n ∈ g.nodes) (hlevel : levelOf n.params = some k) :
    ∃ a ∈ Statement.argumentsAll p.statements, a.level? = some k := by
  obtain ⟨hbare, hoperations⟩ := operations_of_build hbuild
  cases hop : n.op? with
  | none =>
    rw [(hbare n hn).2 hop] at hlevel
    cases hlevel
  | some op =>
    have hmem : (op, n.params) ∈ g.operations := List.mem_filterMap.2 ⟨n, hn, by rw [Node.operation?, hop]; rfl⟩
    rw [hoperations] at hmem
    obtain ⟨f, hf, hfn⟩ := List.mem_map.1 hmem
    rw [← (Prod.mk.inj hfn).2] at hlevel
    rcases exists_level_of_settingsAll p.statements hf hlevel with hnone | hgiven
    · cases hnone
    · exact hgiven

namespace Requirements

/-! ### Single nodes -/

lemma moderate_leveled {c : Correction} {level : Option Nat} (h : c.Moderate)
    (hlevel : ∀ k, level = some k → k ≤ Correction.maxLevel) :
    (match level, c with
      | some level, .faultTolerant _ code => Correction.faultTolerant level code
      | some level, _ => Correction.atLevel level
      | none, current => current).Moderate := by
  cases level with
  | none => exact h
  | some k =>
    cases c with
    | none | basic _ => exact Correction.moderate_atLevel (hlevel k rfl)
    | faultTolerant old code => exact hlevel k rfl

lemma moderate_refine {c : Correction} {level : Option Nat} (h : c.Moderate)
    (hlevel : ∀ k, level = some k → k ≤ Correction.maxLevel) (code : Option String) :
    (refine c level code).Moderate := by
  unfold refine
  cases code with
  | none => exact moderate_leveled h hlevel
  | some code => exact (moderate_leveled h hlevel).withCode code

lemma moderate_defaults (ho : o.defaultCorrection.Moderate) (hr : r.Moderate) (n : Node) :
    (defaults r o n).correction.Moderate := by
  unfold defaults
  dsimp only
  split
  · exact ho
  · trivial
  · split
    · exact ho
    · next spec hspec =>
      show (spec.defaultCorrection.getD o.defaultCorrection).Moderate
      cases hc : spec.defaultCorrection with
      | none => exact ho
      | some c => exact hr _ spec c hspec hc

/-- The requirement of a node by itself. -/
lemma moderate_base (ho : o.defaultCorrection.Moderate) (hr : r.Moderate) (hclean : nodeError? r o n = none)
    (hlevel : ∀ k, levelOf n.params = some k → k ≤ Correction.maxLevel) : (base r o n).Moderate := by
  have hparam := correctionParam_of_clean hclean
  unfold correctionParam at hparam
  split at hparam
  · exact Correction.moderate_ofParts hlevel hparam
  · rw [← Except.ok.inj hparam]
    exact moderate_refine (moderate_defaults ho hr n) hlevel _

/-! ### The stage -/

/-- **If every node has a moderate requirement by itself, annotation ends**, and inheritance brings no other. -/
theorem exists_annotate {g : Graph} (hg : g.WellFormed) (ha : g.Acyclic)
    (hclean : ∀ n ∈ g.nodes, nodeError? r o n = none) (hbase : ∀ n ∈ g.nodes, (base r o n).Moderate)
    (sink : Diagnostics) : ∃ g' result sink', annotate r o g sink = .ok (g', result, sink') ∧ g'.Moderate := by
  obtain ⟨final, hannotated, horigin, -⟩ := annotated_eq hg ha hclean fun n hn => (hbase n hn).rank_lt
  refine ⟨concluded r o g final, ?result, ?reported, ?run, fun m hm => ?_⟩
  case run =>
    unfold annotate
    rw [hannotated]
    rfl
  · obtain ⟨n, hn, rfl⟩ := mem_concluded.1 hm
    obtain ⟨x, hx, heq⟩ := horigin n hn
    show (final n.id).Moderate
    exact heq ▸ hbase x hx

end Requirements

end Waveflow
