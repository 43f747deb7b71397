import Waveflow.Proofs.Source.Phrases

/-!
# What phrases take

A phrase is taken from the front of the tokens.  `Takes` says this of the outcome of reading one, whether or not it is
found: what is left are tokens at the end, and a phrase that is found has taken some.  It passes from phrases to longer
ones (`Takes.bind`), so that one line is enough for most of them.

After an error something is taken as well.  `recover` stops before a closing brace, and so takes nothing there; outside
blocks `resume` skips the brace, and inside a block no statement is looked for at one.
-/

namespace Waveflow.Parser

variable {α β : Type} {ending : Span} {ts rest : List Token} {m n : Nat}

/-! ### Taking tokens -/

/-- Reading leaves tokens at the end of `ts`, and where a phrase is found it has taken `n` of them at least. -/
inductive Takes (ts : List Token) (n : Nat) : Except Halt (α × List Token) → Prop
  | ok {a : α} {rest : List Token} : rest <:+ ts → rest.length + n ≤ ts.length → Takes ts n (.ok (a, rest))
  | error {e : SourceError} {rest : List Token} : rest <:+ ts → Takes ts n (.error (e, rest))

lemma Takes.mono {x : Except Halt (α × List Token)} (h : Takes ts n x) (hmn : m ≤ n) : Takes ts m x := by
  cases h with
  | ok hrest hlen => exact .ok hrest (by omega)
  | error hrest => exact .error hrest

/-- Tokens that have been taken before count too. -/
lemma Takes.of_suffix {x : Except Halt (α × List Token)} (h : Takes rest n x) (hrest : rest <:+ ts)
    (hlen : rest.length + m ≤ ts.length) : Takes ts m x := by
  cases h with
  | ok hleft _ => exact .ok (hleft.trans hrest) (by have := hleft.length_le; omega)
  | error hleft => exact .error (hleft.trans hrest)

lemma Takes.refl {a : α} : Takes ts 0 (.ok (a, ts)) := .ok (List.suffix_refl ts) (Nat.le_refl _)

/-- What the first step takes is taken, and later ones take of what it leaves. -/
lemma Takes.bind {x : Except Halt (α × List Token)} {f : α × List Token → Except Halt (β × List Token)}
    (hx : Takes ts m x) (hf : ∀ a rest, Takes rest n (f (a, rest))) : Takes ts m (x >>= f) := by
  cases hx with
  | ok hrest hlen => exact (hf _ _).of_suffix hrest hlen
  | error hrest => exact .error hrest

lemma Takes.suffix_of_ok {a : α} {x : Except Halt (α × List Token)} (h : Takes ts n x) (hok : x = .ok (a, rest)) :
    rest <:+ ts ∧ rest.length + n ≤ ts.length := by
  cases h with
  | ok hrest hlen =>
    obtain ⟨-, rfl⟩ := Prod.mk.inj (Except.ok.inj hok)
    exact ⟨hrest, hlen⟩
  | error _ => cases hok

lemma Takes.suffix_of_error {e : SourceError} {x : Except Halt (α × List Token)} (h : Takes ts n x)
    (herror : x = .error (e, rest)) : rest <:+ ts := by
  cases h with
  | ok _ _ => cases herror
  | error hrest =>
    obtain ⟨-, rfl⟩ := Prod.mk.inj (Except.error.inj herror)
    exact hrest

/-! ### Single tokens -/

lemma expect_takes (kind : TokenKind) : Takes ts 1 (expect ending kind ts) := by
  unfold expect
  split
  · split
    · exact .ok (List.suffix_cons ..) (Nat.le_refl _)
    · exact .error (List.suffix_refl _)
  · exact .error (List.suffix_refl _)

lemma expectIdent_takes (what : String) : Takes ts 1 (expectIdent ending what ts) := by
  unfold expectIdent
  split
  · exact .ok (List.suffix_cons ..) (Nat.le_refl _)
  · exact .error (List.suffix_refl _)

/-- A token that is seen is taken with the tail. -/
lemma length_tail_of_nextIs {kind : TokenKind} (h : nextIs kind ts = true) : ts.tail.length + 1 ≤ ts.length := by
  cases ts with
  | nil => cases h
  | cons t rest => exact Nat.le_refl _

/-! ### Declarations -/

lemma dimensions_takes : Takes ts 1 (dimensions ending ts) := by
  fun_induction dimensions ending ts with
  | case1 => exact .error (List.suffix_refl _)
  | case2 t rest e _ => exact .error (List.suffix_cons ..)
  | case3 t n _ c more _ ns left hmore ih =>
    obtain ⟨hleft, hlen⟩ := ih.suffix_of_ok hmore
    exact .ok (hleft.trans ⟨[t, c], rfl⟩) (by simp only [List.length_cons]; omega)
  | case4 t n _ c more _ e hmore ih =>
    obtain ⟨e, left⟩ := e
    exact .error ((ih.suffix_of_error hmore).trans ⟨[t, c], rfl⟩)
  | case5 t n _ c more _ => exact .ok (List.suffix_cons ..) (Nat.le_refl _)
  | case6 t n _ => exact .ok (List.nil_suffix) (by simp)

lemma shape_takes (start : Span) : Takes ts 0 (shape ending start ts) := by
  unfold shape
  split
  · have hdims : Takes ts 0 (dimensions ending ts.tail) := dimensions_takes.of_suffix (List.tail_suffix ts) (by simp)
    exact hdims.bind fun _ _ => (expect_takes _).bind fun _ _ => .refl
  · exact .refl

lemma valueType_takes : Takes ts 1 (valueType ending ts) := by
  refine (expectIdent_takes "type").bind (n := 0) fun word rest => ?_
  dsimp only
  split
  · exact .error (List.suffix_refl _)
  · refine (shape_takes word.2).bind (n := 0) fun ns rest => ?_
    dsimp only
    split
    · exact .refl
    · exact .error (List.suffix_refl _)

lemma declaration_takes : Takes ts 1 (declaration ending ts) :=
  (expectIdent_takes _).bind fun _ _ => (expectIdent_takes _).bind fun _ _ => (expect_takes _).bind fun _ _ =>
    valueType_takes.bind fun _ _ => (expect_takes _).bind fun _ _ => .refl

/-! ### Calls -/

/-- A value that is missing has taken the token in its place. -/
lemma argumentValue_takes : Takes ts 1 (argumentValue ending ts) := by
  unfold argumentValue
  split
  · exact .ok (List.suffix_cons ..) (Nat.le_refl _)
  · exact .ok (List.suffix_cons ..) (Nat.le_refl _)
  · exact .ok (List.suffix_cons ..) (Nat.le_refl _)
  · next minus rest =>
    split
    · next number span left => exact .ok ⟨[_, _], rfl⟩ (by simp only [List.length_cons]; omega)
    · exact .error ((List.tail_suffix _).trans (List.suffix_cons ..))
  · exact .error (List.tail_suffix _)

lemma argument_takes : Takes ts 1 (argument ending ts) := by
  unfold argument
  split
  · next name start colon rest =>
    have hvalue : Takes (⟨.ident name, start⟩ :: ⟨.colon, colon⟩ :: rest) 1 (argumentValue ending rest) :=
      argumentValue_takes.of_suffix ⟨[_, _], rfl⟩ (by simp only [List.length_cons]; omega)
    exact hvalue.bind fun _ _ => .refl
  · exact argumentValue_takes.bind fun _ _ => .refl

/-- What is left after an argument is shorter. -/
lemma length_argument {a : Argument} (h : argument ending ts = .ok (a, rest)) : rest.length < ts.length :=
  (argument_takes.suffix_of_ok h).2

lemma argumentsWithin_takes {fuel : Nat} : Takes ts 1 (argumentsWithin ending fuel ts) := by
  induction fuel generalizing ts with
  | zero => exact .error (List.suffix_refl _)
  | succ fuel ih =>
    rw [argumentsWithin]
    split
    · next hnext => exact .ok (List.tail_suffix ts) (length_tail_of_nextIs hnext)
    · refine argument_takes.bind (n := 0) fun a rest => ?_
      dsimp only
      split
      · have hmore : Takes rest 0 (argumentsWithin ending fuel rest.tail) :=
          ih.of_suffix (List.tail_suffix rest) (by simp)
        exact hmore.bind fun _ _ => .refl
      · exact ((expect_takes .rparen).mono (Nat.zero_le 1)).bind fun _ _ => .refl

/-- **The arguments of a call end before the bound on their number is met.** -/
lemma argumentsWithin_eq {fuel : Nat} (hfuel : ts.length < fuel) :
    argumentsWithin ending fuel ts = arguments ending ts := by
  have hmore : ∀ (fuel fuel' : Nat) (ts : List Token), ts.length < fuel → ts.length < fuel' →
      argumentsWithin ending fuel ts = argumentsWithin ending fuel' ts := by
    intro fuel
    induction fuel with
    | zero => exact fun _ _ hlen _ => absurd hlen (Nat.not_lt_zero _)
    | succ fuel ih =>
      intro fuel' ts hlen hlen'
      obtain ⟨fuel', rfl⟩ := Nat.exists_eq_add_one_of_ne_zero (Nat.ne_zero_of_lt hlen')
      rw [argumentsWithin, argumentsWithin]
      split
      · rfl
      cases hread : argument ending ts with
      | error halt => rfl
      | ok read =>
        obtain ⟨a, left⟩ := read
        have hleft := length_argument hread
        have htail : left.tail.length ≤ left.length := by simp
        rw [Checked.ok_bind, Checked.ok_bind]
        dsimp only
        rw [ih fuel' left.tail (by omega) (by omega)]
  exact hmore _ _ ts hfuel (Nat.lt_succ_self _)

lemma arguments_takes : Takes ts 1 (arguments ending ts) := argumentsWithin_takes

lemma call_takes : Takes ts 1 (call ending ts) :=
  (expectIdent_takes _).bind fun _ _ => (expect_takes _).bind fun _ _ => arguments_takes.bind fun _ _ => .refl

/-! ### Statements -/

lemma assignment_takes : Takes ts 1 (assignment ending ts) :=
  (expectIdent_takes _).bind fun _ _ => (expect_takes _).bind fun _ _ => call_takes.bind fun _ _ =>
    (expect_takes _).bind fun _ _ => .refl

lemma bareCall_takes : Takes ts 1 (bareCall ending ts) :=
  call_takes.bind fun _ _ => (expect_takes _).bind fun _ _ => .refl

lemma blockParameters_takes : Takes ts 0 (blockParameters ending ts) := by
  unfold blockParameters
  split
  · have harguments : Takes ts 0 (arguments ending ts.tail) :=
      arguments_takes.of_suffix (List.tail_suffix ts) (by simp)
    exact harguments.bind fun _ _ => .refl
  · exact .refl

lemma blockHead_takes : Takes ts 1 (blockHead ending ts) :=
  (expectIdent_takes _).bind fun _ _ => blockParameters_takes.bind fun _ _ => (expect_takes _).bind fun _ _ => .refl

/-! ### Skipping -/

lemma recover_suffix (ts : List Token) : recover ts <:+ ts := by
  induction ts with
  | nil => exact List.suffix_refl _
  | cons t rest ih =>
    rw [recover]
    split
    · exact List.suffix_refl _
    · exact List.suffix_cons ..
    · exact ih.trans (List.suffix_cons ..)

/-- Recovery takes a token, unless it stands before a closing brace. -/
lemma length_recover_lt (hts : ts ≠ []) (hclose : nextIs .rbrace ts = false) : (recover ts).length < ts.length := by
  cases ts with
  | nil => exact absurd rfl hts
  | cons t rest =>
    rw [recover]
    split
    · next hkind =>
      have hnext : nextIs .rbrace (t :: rest) = true := (TokenKind.beq_iff_of_isMark rfl _).2 hkind
      exact absurd hnext (by simp [hclose])
    · exact Nat.lt_succ_self _
    · exact Nat.lt_succ_of_le (recover_suffix rest).length_le

lemma resume_suffix (ts : List Token) : resume ts <:+ ts := by
  unfold resume
  dsimp only
  split
  · exact (List.tail_suffix _).trans (recover_suffix ts)
  · exact recover_suffix ts

/-- Outside blocks a closing brace is taken too. -/
lemma length_resume_lt (hts : ts ≠ []) : (resume ts).length < ts.length := by
  unfold resume
  dsimp only
  by_cases hnext : nextIs .rbrace (recover ts) = true
  · rw [if_pos hnext]
    have htail := length_tail_of_nextIs hnext
    have hle := (recover_suffix ts).length_le
    omega
  · rw [if_neg hnext]
    refine length_recover_lt hts (Bool.eq_false_iff.2 fun hclose => hnext ?_)
    cases ts with
    | nil => cases hclose
    | cons t rest =>
      have hkind : t.kind = .rbrace := (TokenKind.beq_iff_of_isMark rfl _).1 hclose
      rw [recover, hkind]
      exact hclose

lemma skipBlock_suffix (depth : Nat) (ts : List Token) : skipBlock depth ts <:+ ts := by
  induction ts generalizing depth with
  | nil => exact List.suffix_refl _
  | cons t rest ih =>
    rw [skipBlock]
    split
    · exact (ih _).trans (List.suffix_cons ..)
    · split
      · exact List.suffix_cons ..
      · exact (ih _).trans (List.suffix_cons ..)
    · exact (ih _).trans (List.suffix_cons ..)

/-- One turn of the skipping takes a token, and ends it or goes on. -/
lemma skipBlock_cons (depth : Nat) (t : Token) (rest : List Token) :
    skipBlock depth (t :: rest) = rest ∨ ∃ depth', skipBlock depth (t :: rest) = skipBlock depth' rest := by
  rw [skipBlock]
  split
  · exact .inr ⟨_, rfl⟩
  · split
    · exact .inl rfl
    · exact .inr ⟨_, rfl⟩
  · exact .inr ⟨_, rfl⟩

lemma length_skipBlock_lt (depth : Nat) (hts : ts ≠ []) : (skipBlock depth ts).length < ts.length := by
  obtain ⟨t, rest, rfl⟩ := List.exists_cons_of_ne_nil hts
  rcases skipBlock_cons depth t rest with hend | ⟨depth', hmore⟩
  · rw [hend]
    exact Nat.lt_succ_self _
  · rw [hmore]
    exact Nat.lt_succ_of_le (skipBlock_suffix depth' rest).length_le

/-- One turn of the recovery ends it, before the token or behind it, or takes the token and goes on. -/
lemma recover_cons (t : Token) (rest : List Token) :
    recover (t :: rest) = t :: rest ∨ recover (t :: rest) = rest ∨ recover (t :: rest) = recover rest := by
  rw [recover]
  split
  · exact .inl rfl
  · exact .inr (.inl rfl)
  · exact .inr (.inr rfl)

end Waveflow.Parser
