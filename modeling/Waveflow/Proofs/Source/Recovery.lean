import Waveflow.Proofs.Source.Consumption
import Waveflow.Proofs.Source.Parses

/-!
# Recovery from malformed statements

After an error the parser goes on behind the next semicolon.  Statements that stand one after the other, each with its
semicolon, are therefore reported one by one, with one exception: where a semicolon stands in the place of a value, the
error has taken it, and the parser goes on behind the semicolon of the following statement.

`Confined` compares what is read from a run of tokens up to a semicolon with what is read when more tokens follow:
the same, and all of what follows is left.  `Swallows` is the exception, and `LacksValue` says of the tokens
themselves when it arises.
-/

namespace Waveflow.Parser

open Grammar

variable {α β : Type} {ending : Span} {ts more : List Token} {ks : List TokenKind} {Q R : List Token → Prop}

/-! ### Runs of tokens -/

/-- Tokens up to a semicolon, with no brace among them. -/
inductive IsRun : List Token → Prop
  | stop {t : Token} : t.kind = .semi → IsRun [t]
  | more {t : Token} {ts : List Token} : t.kind ≠ .semi → t.kind ≠ .lbrace → t.kind ≠ .rbrace → IsRun ts →
      IsRun (t :: ts)

/-- A run that does not begin with a declaration. -/
structure IsChunk (ts : List Token) : Prop where
  run : IsRun ts
  undeclared : ∀ (direction : Direction) (name : String) (ks : List TokenKind),
    kinds ts ≠ .ident direction.word :: .ident name :: ks

lemma IsRun.ne_nil (h : IsRun ts) : ts ≠ [] := by
  cases h <;> simp

lemma IsRun.tail {t : Token} (h : IsRun (t :: ts)) (ht : t.kind ≠ .semi) : IsRun ts := by
  cases h with
  | stop hstop => exact absurd hstop ht
  | more _ _ _ hts => exact hts

lemma IsRun.eq_nil {t : Token} (h : IsRun (t :: ts)) (ht : t.kind = .semi) : ts = [] := by
  cases h with
  | stop _ => rfl
  | more hne _ _ _ => exact absurd ht hne

lemma IsRun.not_mem {k : TokenKind} (h : IsRun ts) (hk : k = .lbrace ∨ k = .rbrace) : k ∉ kinds ts := by
  induction h with
  | stop hstop => rcases hk with rfl | rfl <;> simp [hstop]
  | more _ hopen hclose _ ih => rcases hk with rfl | rfl <;> simp_all [eq_comm]

/-! ### What follows a run does not matter -/

/-- The first is what is read from a run and the second what is read when `more` follows it: a phrase that leaves
what `R` says, or an error that leaves some of the run or has taken its semicolon. -/
inductive Confined (more : List Token) (R : List Token → Prop) :
    Except Halt (α × List Token) → Except Halt (α × List Token) → Prop
  | ok {a : α} {rest : List Token} : R rest → Confined more R (.ok (a, rest)) (.ok (a, rest ++ more))
  | error {e : SourceError} {rest : List Token} : IsRun rest →
      Confined more R (.error (e, rest)) (.error (e, rest ++ more))
  | swallowed {e : SourceError} : Confined more R (.error (e, [])) (.error (e, more))

lemma Confined.bind {x y : Except Halt (α × List Token)} {f g : α × List Token → Except Halt (β × List Token)}
    (hx : Confined more Q x y)
    (hf : ∀ a rest, x = .ok (a, rest) → Q rest → Confined more R (f (a, rest)) (g (a, rest ++ more))) :
    Confined more R (x >>= f) (y >>= g) := by
  cases hx with
  | ok hrest => exact hf _ _ rfl hrest
  | error hrest => exact .error hrest
  | swallowed => exact .swallowed

lemma Confined.left {x y : Except Halt (α × List Token)} {a : α} {rest : List Token} (h : Confined more R x y)
    (hok : x = .ok (a, rest)) : R rest := by
  cases h with
  | ok hrest =>
    obtain ⟨-, rfl⟩ := Prod.mk.inj (Except.ok.inj hok)
    exact hrest
  | error _ | swallowed => cases hok

lemma expect_confined (kind : TokenKind) (hmark : kind.isMark = true) (hkind : kind ≠ .semi) (h : IsRun ts)
    (more : List Token) : Confined more IsRun (expect ending kind ts) (expect ending kind (ts ++ more)) := by
  cases ts with
  | nil => exact absurd rfl h.ne_nil
  | cons t rest =>
    simp only [expect, List.cons_append]
    split
    · next heq =>
      have ht : t.kind = kind := (TokenKind.beq_iff_of_isMark hmark _).1 heq
      exact .ok (h.tail (ht ▸ hkind))
    · exact .error h

lemma expect_semi_confined (h : IsRun ts) (more : List Token) :
    Confined more (· = []) (expect ending .semi ts) (expect ending .semi (ts ++ more)) := by
  cases ts with
  | nil => exact absurd rfl h.ne_nil
  | cons t rest =>
    simp only [expect, List.cons_append]
    split
    · next heq => exact .ok (h.eq_nil ((TokenKind.beq_iff_of_isMark rfl _).1 heq))
    · exact .error h

lemma expectIdent_confined (what : String) (h : IsRun ts) (more : List Token) :
    Confined more IsRun (expectIdent ending what ts) (expectIdent ending what (ts ++ more)) := by
  cases ts with
  | nil => exact absurd rfl h.ne_nil
  | cons t rest =>
    obtain ⟨kind, span⟩ := t
    cases kind with
    | ident name => exact .ok (h.tail nofun)
    | number _ | str _ => exact .error h
    | colon | semi | comma | eq | minus | lparen | rparen | lbrace | rbrace | lbracket | rbracket => exact .error h

lemma argumentValue_confined (h : IsRun ts) (more : List Token) :
    Confined more IsRun (argumentValue ending ts) (argumentValue ending (ts ++ more)) := by
  cases ts with
  | nil => exact absurd rfl h.ne_nil
  | cons t rest =>
    obtain ⟨kind, span⟩ := t
    cases kind with
    | ident _ | number _ | str _ => exact .ok (h.tail nofun)
    | minus =>
      have hrest := h.tail nofun
      cases rest with
      | nil => exact absurd rfl hrest.ne_nil
      | cons t rest =>
        obtain ⟨kind, span⟩ := t
        cases kind with
        | number _ => exact .ok (hrest.tail nofun)
        | semi =>
          obtain rfl := hrest.eq_nil rfl
          exact .swallowed
        | ident _ | str _ => exact .error (hrest.tail nofun)
        | colon | comma | eq | minus | lparen | rparen | lbrace | rbrace | lbracket | rbracket =>
          exact .error (hrest.tail nofun)
    | semi =>
      obtain rfl := h.eq_nil rfl
      exact .swallowed
    | colon | comma | eq | lparen | rparen | lbrace | rbrace | lbracket | rbracket => exact .error (h.tail nofun)

/-- A name with a colon after it names an argument; anything else is read as a value. -/
lemma argument_confined (h : IsRun ts) (more : List Token) :
    Confined more IsRun (argument ending ts) (argument ending (ts ++ more)) := by
  have hvalue : Confined more IsRun (argumentValue ending ts) (argumentValue ending (ts ++ more)) :=
    argumentValue_confined h more
  cases ts with
  | nil => exact absurd rfl h.ne_nil
  | cons t rest =>
    obtain ⟨kind, span⟩ := t
    cases kind with
    | ident name =>
      have hrest := h.tail nofun
      cases rest with
      | nil => exact absurd rfl hrest.ne_nil
      | cons t rest =>
        obtain ⟨kind, span⟩ := t
        cases kind with
        | colon => exact (argumentValue_confined (hrest.tail nofun) more).bind fun _ _ _ hleft => .ok hleft
        | ident _ | number _ | str _ => exact hvalue.bind fun _ _ _ hleft => .ok hleft
        | semi | comma | eq | minus | lparen | rparen | lbrace | rbrace | lbracket | rbracket =>
          exact hvalue.bind fun _ _ _ hleft => .ok hleft
    | number _ | str _ => exact hvalue.bind fun _ _ _ hleft => .ok hleft
    | colon | semi | comma | eq | minus | lparen | rparen | lbrace | rbrace | lbracket | rbracket =>
      exact hvalue.bind fun _ _ _ hleft => .ok hleft

lemma nextIs_append (kind : TokenKind) (h : IsRun ts) (more : List Token) :
    nextIs kind (ts ++ more) = nextIs kind ts := by
  cases h <;> rfl

lemma nextSpan_append (h : IsRun ts) (more : List Token) : nextSpan ending (ts ++ more) = nextSpan ending ts := by
  cases h <;> rfl

lemma tail_append (h : IsRun ts) (more : List Token) : (ts ++ more).tail = ts.tail ++ more := by
  cases h <;> rfl

/-- A run goes on after a mark that is not its semicolon. -/
lemma IsRun.tail_of_nextIs (kind : TokenKind) (h : IsRun ts) (hmark : kind.isMark = true) (hkind : kind ≠ .semi)
    (hnext : nextIs kind ts = true) : IsRun ts.tail := by
  cases ts with
  | nil => cases hnext
  | cons t rest => exact h.tail (((TokenKind.beq_iff_of_isMark hmark _).1 hnext).symm ▸ hkind)

lemma argumentsWithin_confined {fuel fuel' : Nat} (hfuel : ts.length < fuel) (hfuel' : ts.length < fuel')
    (h : IsRun ts) (more : List Token) :
    Confined more IsRun (argumentsWithin ending fuel ts) (argumentsWithin ending fuel' (ts ++ more)) := by
  induction fuel generalizing ts fuel' with
  | zero => cases hfuel
  | succ fuel ih =>
    obtain ⟨fuel', rfl⟩ := Nat.exists_eq_add_one_of_ne_zero (Nat.ne_zero_of_lt hfuel')
    rw [argumentsWithin, argumentsWithin, nextIs_append _ h]
    split
    · next hnext =>
      rw [nextSpan_append h, tail_append h]
      exact .ok (h.tail_of_nextIs .rparen rfl (by rintro ⟨⟩) hnext)
    refine (argument_confined h more).bind fun a left hread hleft => ?_
    have hlen := length_argument hread
    dsimp only
    rw [nextIs_append _ hleft]
    split
    · next hcomma =>
      have htail : left.tail.length ≤ left.length := by simp
      rw [tail_append hleft]
      exact (ih (by omega) (by omega) (hleft.tail_of_nextIs .comma rfl (by rintro ⟨⟩) hcomma)).bind
        fun _ _ _ hrest =>
        .ok hrest
    · exact (expect_confined .rparen rfl (by rintro ⟨⟩) hleft more).bind fun _ _ _ hrest => .ok hrest

lemma arguments_confined (h : IsRun ts) (more : List Token) :
    Confined more IsRun (arguments ending ts) (arguments ending (ts ++ more)) :=
  argumentsWithin_confined (Nat.lt_succ_self _) (by rw [List.length_append]; omega) h more

lemma call_confined (h : IsRun ts) (more : List Token) :
    Confined more IsRun (call ending ts) (call ending (ts ++ more)) :=
  (expectIdent_confined _ h more).bind fun _ _ _ h₁ =>
    (expect_confined .lparen rfl nofun h₁ more).bind fun _ _ _ h₂ =>
      (arguments_confined h₂ more).bind fun _ _ _ h₃ => .ok h₃

lemma assignment_confined (h : IsRun ts) (more : List Token) :
    Confined more (· = []) (assignment ending ts) (assignment ending (ts ++ more)) :=
  (expectIdent_confined _ h more).bind fun _ _ _ h₁ =>
    (expect_confined .eq rfl nofun h₁ more).bind fun _ _ _ h₂ =>
      (call_confined h₂ more).bind fun _ _ _ h₃ =>
        (expect_semi_confined h₃ more).bind fun _ _ _ h₄ => .ok h₄

lemma bareCall_confined (h : IsRun ts) (more : List Token) :
    Confined more (· = []) (bareCall ending ts) (bareCall ending (ts ++ more)) :=
  (call_confined h more).bind fun _ _ _ h₁ => (expect_semi_confined h₁ more).bind fun _ _ _ h₂ => .ok h₂

lemma blockParameters_confined (h : IsRun ts) (more : List Token) :
    Confined more IsRun (blockParameters ending ts) (blockParameters ending (ts ++ more)) := by
  rw [blockParameters, blockParameters, nextIs_append _ h]
  split
  · next hnext =>
    rw [tail_append h]
    exact (arguments_confined (h.tail_of_nextIs .lparen rfl nofun hnext) more).bind fun _ _ _ h₁ => .ok h₁
  · exact .ok h

/-- A block is not opened in a run. -/
lemma blockHead_confined (h : IsRun ts) (more : List Token) :
    Confined more (fun _ => False) (blockHead ending ts) (blockHead ending (ts ++ more)) :=
  (expectIdent_confined _ h more).bind fun _ _ _ h₁ =>
    (blockParameters_confined h₁ more).bind fun _ left _ h₂ =>
      (expect_confined .lbrace rfl nofun h₂ more).bind fun _ _ hopen _ => by
        refine absurd ?_ (h₂.not_mem (.inl rfl))
        simp [expect_sound rfl hopen]

lemma atBlock_append (h : IsRun ts) (more : List Token) : atBlock (ts ++ more) = atBlock ts := by
  cases ts with
  | nil => exact absurd rfl h.ne_nil
  | cons t rest =>
    obtain ⟨kind, span⟩ := t
    cases kind <;> rfl

/-- Outside blocks a statement is an assignment, a call, or neither. -/
lemma statement_confined {body : List Token → Body} (hat : atBlock ts = false) (h : IsRun ts) (more : List Token) :
    ∃ x y, Confined more (· = []) x y ∧ statement ending body ts = .ofParsed x ∧
      statement ending body (ts ++ more) = .ofParsed y := by
  unfold statement
  rw [atBlock_append h, hat, if_neg Bool.false_ne_true, if_neg Bool.false_ne_true]
  have hneither : Confined more (· = []) (.error (expected ending "declaration or statement" ts, ts))
      (.error (expected ending "declaration or statement" ts, ts ++ more) : Except Halt (Statement × List Token)) :=
    .error h
  cases ts with
  | nil => exact absurd rfl h.ne_nil
  | cons t rest =>
    obtain ⟨kind, span⟩ := t
    cases kind with
    | ident name =>
      have hrest := h.tail nofun
      cases rest with
      | nil => exact absurd rfl hrest.ne_nil
      | cons t rest =>
        obtain ⟨kind, span⟩ := t
        cases kind with
        | eq => exact ⟨_, _, assignment_confined h more, rfl, rfl⟩
        | lparen => exact ⟨_, _, bareCall_confined h more, rfl, rfl⟩
        | ident _ | number _ | str _ => exact ⟨_, _, hneither, rfl, rfl⟩
        | colon | semi | comma | minus | rparen | lbrace | rbrace | lbracket | rbracket =>
          exact ⟨_, _, hneither, rfl, rfl⟩
    | number _ | str _ => exact ⟨_, _, hneither, rfl, rfl⟩
    | colon | semi | comma | eq | minus | lparen | rparen | lbrace | rbrace | lbracket | rbracket =>
      exact ⟨_, _, hneither, rfl, rfl⟩

lemma block_confined {body : List Token → Body} (h : IsRun ts) (more : List Token) :
    ∃ x y, Confined more (· = []) x y ∧ block ending body ts = .ofParsed x ∧
      block ending body (ts ++ more) = .ofParsed y := by
  have hhead : Confined more (fun _ => False) (blockHead ending ts) (blockHead ending (ts ++ more)) :=
    blockHead_confined h more
  unfold block
  generalize blockHead ending ts = x at hhead ⊢
  generalize blockHead ending (ts ++ more) = y at hhead ⊢
  cases hhead with
  | ok hfalse => exact hfalse.elim
  | error hrest => exact ⟨_, _, .error hrest, rfl, rfl⟩
  | swallowed => exact ⟨_, _, .swallowed, rfl, rfl⟩

/-- A statement is read from a run whatever follows. -/
theorem topStatement_confined (ending : Span) (h : IsRun ts) (more : List Token) :
    ∃ x y, Confined more (· = []) x y ∧ topStatement ending ts = .ofParsed x ∧
      topStatement ending (ts ++ more) = .ofParsed y := by
  by_cases hat : atBlock ts = true
  · unfold topStatement statement
    rw [atBlock_append h, hat, if_pos rfl, if_pos rfl]
    exact block_confined h more
  · exact statement_confined (Bool.eq_false_iff.2 hat) h more

/-! ### Semicolons in the place of a value -/

/-- An error has taken the semicolon of its run. -/
def Swallows (x : Except Halt (α × List Token)) : Prop := ∃ e, x = .error (e, [])

lemma swallows_bind {x : Except Halt (α × List Token)} {f : α × List Token → Except Halt (β × List Token)} :
    Swallows (x >>= f) ↔ Swallows x ∨ ∃ a rest, x = .ok (a, rest) ∧ Swallows (f (a, rest)) := by
  cases x with
  | ok found =>
    obtain ⟨a, rest⟩ := found
    simp [Swallows]
  | error halt => simp [Swallows]

lemma not_swallows_ok {a : α} {rest : List Token} : ¬ Swallows (.ok (a, rest) : Except Halt (α × List Token)) := by
  rintro ⟨_, h⟩
  cases h

lemma not_swallows_expect {kind : TokenKind} (h : IsRun ts) : ¬ Swallows (expect ending kind ts) := by
  rintro ⟨e, he⟩
  cases ts with
  | nil => exact h.ne_nil rfl
  | cons t rest =>
    rw [expect] at he
    split at he <;> cases he

lemma not_swallows_expectIdent {what : String} (h : IsRun ts) : ¬ Swallows (expectIdent ending what ts) := by
  rintro ⟨e, he⟩
  unfold expectIdent at he
  split at he
  · cases he
  · cases he
    exact h.ne_nil rfl

/-- What may stand of an argument before its value. -/
inductive IsLead : List TokenKind → Prop
  | none : IsLead []
  | sign : IsLead [.minus]
  | name (s : String) : IsLead [.ident s, .colon]
  | nameAndSign (s : String) : IsLead [.ident s, .colon, .minus]

/-- Arguments that break off where a value is due. -/
inductive BreaksOff : List TokenKind → Prop
  | here {ks : List TokenKind} : IsLead ks → BreaksOff ks
  | later {ks ls : List TokenKind} {a : Argument} : IsArgument ks a → BreaksOff ls → BreaksOff (ks ++ .comma :: ls)

/-- A statement with a semicolon where the value of an argument is due. -/
inductive LacksValue : List TokenKind → Prop
  | call {ks : List TokenKind} (operation : String) : BreaksOff ks →
      LacksValue (.ident operation :: .lparen :: (ks ++ [.semi]))
  | assignment {ks : List TokenKind} {target : String} (operation : String) : target ≠ blockLabel → BreaksOff ks →
      LacksValue (.ident target :: .eq :: .ident operation :: .lparen :: (ks ++ [.semi]))

lemma swallows_argumentValue (h : IsRun ts) :
    Swallows (argumentValue ending ts) ↔ kinds ts = [.semi] ∨ kinds ts = [.minus, .semi] := by
  cases ts with
  | nil => exact absurd rfl h.ne_nil
  | cons t rest =>
    obtain ⟨kind, span⟩ := t
    cases kind with
    | ident _ | number _ | str _ => simp [argumentValue, Swallows]
    | minus =>
      have hrest := h.tail nofun
      cases rest with
      | nil => exact absurd rfl hrest.ne_nil
      | cons t rest =>
        obtain ⟨kind, span⟩ := t
        cases kind with
        | number _ => simp [argumentValue, Swallows]
        | semi =>
          obtain rfl := hrest.eq_nil rfl
          simp [argumentValue, Swallows]
        | ident _ | str _ => simp [argumentValue, Swallows, (hrest.tail nofun).ne_nil]
        | colon | comma | eq | minus | lparen | rparen | lbrace | rbrace | lbracket | rbracket =>
          simp [argumentValue, Swallows, (hrest.tail nofun).ne_nil]
    | semi =>
      obtain rfl := h.eq_nil rfl
      simp [argumentValue, Swallows]
    | colon | comma | eq | lparen | rparen | lbrace | rbrace | lbracket | rbracket =>
      simp [argumentValue, Swallows, (h.tail nofun).ne_nil]

lemma swallows_of_bind_ok {x : Except Halt (α × List Token)} {f : α × List Token → β × List Token} :
    Swallows (x >>= fun p => .ok (f p)) ↔ Swallows x := by
  rw [swallows_bind, or_iff_left]
  rintro ⟨a, rest, -, h⟩
  exact not_swallows_ok h

/-- An argument without a name and a colon in front is a value. -/
lemma argument_eq_value (h : ¬ ∃ name ls, kinds ts = .ident name :: .colon :: ls) :
    argument ending ts = (do
      let ((value, span), ts) ← argumentValue ending ts
      return (⟨none, value, span⟩, ts)) := by
  unfold argument
  split
  · exact absurd ⟨_, _, rfl⟩ h
  · rfl

lemma swallows_argument (h : IsRun ts) :
    Swallows (argument ending ts) ↔ ∃ ks, IsLead ks ∧ kinds ts = ks ++ [.semi] := by
  by_cases hnamed : ∃ name ls, kinds ts = .ident name :: .colon :: ls
  · obtain ⟨name, ls, hls⟩ := hnamed
    obtain ⟨start, rest, rfl, hrest⟩ := exists_of_kinds_cons hls
    obtain ⟨colon, rest, rfl, rfl⟩ := exists_of_kinds_cons hrest
    refine (swallows_of_bind_ok.trans (swallows_argumentValue ((h.tail nofun).tail nofun))).trans ?_
    constructor
    · rintro (hsemi | hsemi)
      · exact ⟨_, .name name, by simp [hsemi]⟩
      · exact ⟨_, .nameAndSign name, by simp [hsemi]⟩
    · rintro ⟨ks, hlead, heq⟩
      cases hlead <;> simp_all
  · rw [argument_eq_value hnamed]
    refine (swallows_of_bind_ok.trans (swallows_argumentValue h)).trans ?_
    constructor
    · rintro (hsemi | hsemi)
      · exact ⟨_, .none, hsemi⟩
      · exact ⟨_, .sign, hsemi⟩
    · rintro ⟨ks, hlead, heq⟩
      cases hlead with
      | none => exact .inl heq
      | sign => exact .inr heq
      | name s | nameAndSign s => exact absurd ⟨s, _, heq⟩ hnamed

/-- Arguments whose reading takes the semicolon break off where a value is due. -/
lemma breaksOff_of_swallows {fuel : Nat} (h : IsRun ts) (hswallows : Swallows (argumentsWithin ending fuel ts)) :
    ∃ ks, BreaksOff ks ∧ kinds ts = ks ++ [.semi] := by
  induction fuel generalizing ts with
  | zero =>
    obtain ⟨e, he⟩ := hswallows
    cases he
    exact absurd rfl h.ne_nil
  | succ fuel ih =>
    rw [argumentsWithin] at hswallows
    split at hswallows
    · exact absurd hswallows not_swallows_ok
    rcases swallows_bind.1 hswallows with hargument | ⟨a, left, hread, hswallows⟩
    · obtain ⟨ks, hlead, hks⟩ := (swallows_argument h).1 hargument
      exact ⟨ks, .here hlead, hks⟩
    have hleft : IsRun left := (argument_confined h []).left hread
    obtain ⟨ks, hks, harg⟩ := argument_sound hread
    dsimp only at hswallows
    split at hswallows
    · next hcomma =>
      obtain ⟨ls, hbreaks, hls⟩ :=
        ih (hleft.tail_of_nextIs .comma rfl (by rintro ⟨⟩) hcomma) (swallows_of_bind_ok.1 hswallows)
      refine ⟨_, .later harg hbreaks, ?_⟩
      rw [hks, kinds_of_nextIs rfl hcomma, hls]
      simp
    · exact absurd (swallows_of_bind_ok.1 hswallows) (not_swallows_expect hleft)

/-- And where arguments break off so, their reading takes the semicolon. -/
lemma swallows_of_breaksOff {fuel : Nat} (hbreaks : BreaksOff ks) (hts : kinds ts = ks ++ [.semi]) (h : IsRun ts)
    (hfuel : ts.length < fuel) : Swallows (argumentsWithin ending fuel ts) := by
  induction hbreaks generalizing ts fuel with
  | here hlead =>
    obtain ⟨fuel, rfl⟩ := Nat.exists_eq_add_one_of_ne_zero (Nat.ne_zero_of_lt hfuel)
    have hnext : nextIs .rparen ts = false := nextIs_eq_false rfl (by cases hlead <;> simp [hts])
    rw [argumentsWithin, hnext, if_neg Bool.false_ne_true]
    exact swallows_bind.2 (.inl ((swallows_argument h).2 ⟨_, hlead, hts⟩))
  | @later ks ls a harg _ ih =>
    obtain ⟨fuel, rfl⟩ := Nat.exists_eq_add_one_of_ne_zero (Nat.ne_zero_of_lt hfuel)
    have hsplit : kinds ts = ks ++ .comma :: (ls ++ [.semi]) := by simpa using hts
    obtain ⟨k, ms, rfl, hk⟩ := exists_head_of_isArgument harg
    have hnext : nextIs .rparen ts = false := nextIs_eq_false rfl (by simpa [hts] using hk)
    obtain ⟨a', left, hread, -, hleft⟩ := argument_complete ending harg hsplit (by simp)
    have hcomma : nextIs .comma left = true := nextIs_of_kinds rfl hleft
    have hrun : IsRun left.tail :=
      ((argument_confined h []).left hread).tail_of_nextIs .comma rfl (by rintro ⟨⟩) hcomma
    have htail : kinds left.tail = ls ++ [.semi] := by
      obtain ⟨span, tail, rfl, htail⟩ := exists_of_kinds_cons hleft
      exact htail
    have hlen := length_argument hread
    have hless : left.tail.length ≤ left.length := by simp
    rw [argumentsWithin, hnext, if_neg Bool.false_ne_true, hread]
    refine swallows_bind.2 (.inr ⟨a', left, rfl, ?_⟩)
    dsimp only
    rw [if_pos hcomma]
    exact swallows_of_bind_ok.2 (ih htail hrun (by omega))

lemma swallows_arguments (h : IsRun ts) :
    Swallows (arguments ending ts) ↔ ∃ ks, BreaksOff ks ∧ kinds ts = ks ++ [.semi] := by
  constructor
  · exact breaksOff_of_swallows h
  · rintro ⟨ks, hbreaks, hks⟩
    exact swallows_of_breaksOff hbreaks hks h (Nat.lt_succ_self _)

lemma swallows_call (h : IsRun ts) : Swallows (call ending ts) ↔
    ∃ operation ks, BreaksOff ks ∧ kinds ts = .ident operation :: .lparen :: (ks ++ [.semi]) := by
  constructor
  · intro hswallows
    rcases swallows_bind.1 hswallows with hident | ⟨⟨operation, start⟩, ts₁, hident, hswallows⟩
    · exact absurd hident (not_swallows_expectIdent h)
    have h₁ : IsRun ts₁ := (expectIdent_confined _ h []).left hident
    rcases swallows_bind.1 hswallows with hparen | ⟨_, ts₂, hparen, hswallows⟩
    · exact absurd hparen (not_swallows_expect h₁)
    have h₂ : IsRun ts₂ := (expect_confined .lparen rfl nofun h₁ []).left hparen
    obtain ⟨ks, hbreaks, hks⟩ := (swallows_arguments h₂).1 (swallows_of_bind_ok.1 hswallows)
    exact ⟨operation, ks, hbreaks, by rw [expectIdent_sound hident, expect_sound rfl hparen, hks]⟩
  · rintro ⟨operation, ks, hbreaks, hks⟩
    obtain ⟨start, ts₁, hident, hts₁⟩ := expectIdent_complete ending "operation name" hks
    obtain ⟨_, ts₂, hparen, hts₂⟩ := expect_complete ending rfl hts₁
    have h₂ : IsRun ts₂ :=
      (expect_confined .lparen rfl nofun ((expectIdent_confined _ h []).left hident) []).left hparen
    refine swallows_bind.2 (.inr ⟨_, ts₁, hident, swallows_bind.2 (.inr ⟨_, ts₂, hparen, ?_⟩)⟩)
    exact swallows_of_bind_ok.2 ((swallows_arguments h₂).2 ⟨ks, hbreaks, hts₂⟩)

lemma swallows_assignment (h : IsRun ts) : Swallows (assignment ending ts) ↔ ∃ target operation ks, BreaksOff ks ∧
    kinds ts = .ident target :: .eq :: .ident operation :: .lparen :: (ks ++ [.semi]) := by
  constructor
  · intro hswallows
    rcases swallows_bind.1 hswallows with hident | ⟨⟨target, start⟩, ts₁, hident, hswallows⟩
    · exact absurd hident (not_swallows_expectIdent h)
    have h₁ : IsRun ts₁ := (expectIdent_confined _ h []).left hident
    rcases swallows_bind.1 hswallows with heq | ⟨_, ts₂, heq, hswallows⟩
    · exact absurd heq (not_swallows_expect h₁)
    have h₂ : IsRun ts₂ := (expect_confined .eq rfl nofun h₁ []).left heq
    rcases swallows_bind.1 hswallows with hcall | ⟨c, ts₃, hcall, hswallows⟩
    · obtain ⟨operation, ks, hbreaks, hks⟩ := (swallows_call h₂).1 hcall
      exact ⟨target, operation, ks, hbreaks, by rw [expectIdent_sound hident, expect_sound rfl heq, hks]⟩
    · exact absurd (swallows_of_bind_ok.1 hswallows) (not_swallows_expect ((call_confined h₂ []).left hcall))
  · rintro ⟨target, operation, ks, hbreaks, hks⟩
    obtain ⟨start, ts₁, hident, hts₁⟩ := expectIdent_complete ending "assignment target" hks
    obtain ⟨_, ts₂, heq, hts₂⟩ := expect_complete ending rfl hts₁
    have h₂ : IsRun ts₂ := (expect_confined .eq rfl nofun ((expectIdent_confined _ h []).left hident) []).left heq
    refine swallows_bind.2 (.inr ⟨_, ts₁, hident, swallows_bind.2 (.inr ⟨_, ts₂, heq, ?_⟩)⟩)
    exact swallows_bind.2 (.inl ((swallows_call h₂).2 ⟨operation, ks, hbreaks, hts₂⟩))

lemma swallows_bareCall (h : IsRun ts) : Swallows (bareCall ending ts) ↔
    ∃ operation ks, BreaksOff ks ∧ kinds ts = .ident operation :: .lparen :: (ks ++ [.semi]) := by
  rw [← swallows_call h]
  constructor
  · intro hswallows
    rcases swallows_bind.1 hswallows with hcall | ⟨c, ts₁, hcall, hswallows⟩
    · exact hcall
    · exact absurd (swallows_of_bind_ok.1 hswallows) (not_swallows_expect ((call_confined h []).left hcall))
  · exact fun hcall => swallows_bind.2 (.inl hcall)

lemma swallows_blockHead (h : IsRun ts) : Swallows (blockHead ending ts) ↔
    ∃ label ks, BreaksOff ks ∧ kinds ts = .ident label :: .lparen :: (ks ++ [.semi]) := by
  constructor
  · intro hswallows
    rcases swallows_bind.1 hswallows with hident | ⟨⟨label, start⟩, ts₁, hident, hswallows⟩
    · exact absurd hident (not_swallows_expectIdent h)
    have h₁ : IsRun ts₁ := (expectIdent_confined _ h []).left hident
    rcases swallows_bind.1 hswallows with hparams | ⟨as, ts₂, hparams, hswallows⟩
    · unfold blockParameters at hparams
      split at hparams
      · next hnext =>
        have h₂ := h₁.tail_of_nextIs .lparen rfl nofun hnext
        obtain ⟨ks, hbreaks, hks⟩ := (swallows_arguments h₂).1 (swallows_of_bind_ok.1 hparams)
        exact ⟨label, ks, hbreaks, by rw [expectIdent_sound hident, kinds_of_nextIs rfl hnext, hks]⟩
      · exact absurd hparams not_swallows_ok
    · have h₂ : IsRun ts₂ := (blockParameters_confined h₁ []).left hparams
      exact absurd (swallows_of_bind_ok.1 hswallows) (not_swallows_expect h₂)
  · rintro ⟨label, ks, hbreaks, hks⟩
    obtain ⟨start, ts₁, hident, hts₁⟩ := expectIdent_complete ending blockLabel hks
    have h₁ : IsRun ts₁ := (expectIdent_confined _ h []).left hident
    have hnext : nextIs .lparen ts₁ = true := nextIs_of_kinds rfl hts₁
    have htail : kinds ts₁.tail = ks ++ [.semi] := by
      obtain ⟨span, tail, rfl, htail⟩ := exists_of_kinds_cons hts₁
      exact htail
    refine swallows_bind.2 (.inr ⟨_, ts₁, hident, swallows_bind.2 (.inl ?_)⟩)
    rw [blockParameters, if_pos hnext]
    exact swallows_of_bind_ok.2
      ((swallows_arguments (h₁.tail_of_nextIs .lparen rfl nofun hnext)).2 ⟨ks, hbreaks, htail⟩)

/-- A statement that is not there has taken the semicolon of its run. -/
def Outcome.Swallows (out : Outcome) : Prop := ∃ e, out = ⟨[], .error e, []⟩

lemma Outcome.swallows_ofParsed {x : Except Halt (Statement × List Token)} :
    (Outcome.ofParsed x).Swallows ↔ Parser.Swallows x := by
  cases x with
  | ok found => simp [Outcome.Swallows, Outcome.ofParsed, Parser.Swallows]
  | error halt =>
    obtain ⟨e, rest⟩ := halt
    simp [Outcome.Swallows, Outcome.ofParsed, Parser.Swallows]

lemma swallows_block {body : List Token → Body} (h : IsRun ts) :
    (block ending body ts).Swallows ↔ Swallows (blockHead ending ts) := by
  have hhead : Confined [] (fun _ => False) (blockHead ending ts) (blockHead ending (ts ++ [])) :=
    blockHead_confined h []
  unfold block
  generalize blockHead ending (ts ++ []) = y at hhead
  generalize blockHead ending ts = x at hhead ⊢
  cases hhead with
  | ok hfalse => exact hfalse.elim
  | error _ | swallowed => simp [Outcome.Swallows, Swallows]

/-- **A statement takes the semicolon of its run by mistake exactly where it lacks a value right before it.** -/
theorem swallows_topStatement (ending : Span) (h : IsRun ts) : (topStatement ending ts).Swallows ↔
    LacksValue (kinds ts) := by
  unfold topStatement statement
  split
  · next hat =>
    obtain ⟨ls, hls⟩ := atBlock_iff.1 hat
    rw [swallows_block h, swallows_blockHead h]
    constructor
    · rintro ⟨label, ks, hbreaks, hks⟩
      exact hks ▸ .call label hbreaks
    · intro hlacks
      rw [hls] at hlacks
      cases hlacks with
      | call operation hbreaks => exact ⟨_, _, hbreaks, hls⟩
      | assignment operation hne _ => exact absurd rfl hne
  · next hat =>
    have hflat : atBlock ts = false := Bool.eq_false_iff.2 hat
    split
    · next name _ _ rest =>
      rw [Outcome.swallows_ofParsed, swallows_assignment h]
      constructor
      · rintro ⟨target, operation, ks, hbreaks, hks⟩
        exact hks ▸ .assignment operation (ne_blockLabel hflat hks) hbreaks
      · intro hlacks
        generalize hks : kinds _ = ks at hlacks
        cases hlacks with
        | call operation hbreaks => cases hks
        | assignment operation _ hbreaks => exact ⟨_, _, _, hbreaks, rfl⟩
    · next name _ _ rest =>
      rw [Outcome.swallows_ofParsed, swallows_bareCall h]
      constructor
      · rintro ⟨operation, ks, hbreaks, hks⟩
        exact hks ▸ .call operation hbreaks
      · intro hlacks
        generalize hks : kinds _ = ks at hlacks
        cases hlacks with
        | call operation hbreaks => exact ⟨_, _, hbreaks, rfl⟩
        | assignment operation _ _ => cases hks
    · next hneither hnocall =>
      constructor
      · rintro ⟨e, he⟩
        exact absurd (congrArg Outcome.rest he) h.ne_nil
      · intro hlacks
        generalize hks : kinds ts = ks at hlacks
        cases hlacks with
        | call operation _ =>
          obtain ⟨_, tail, rfl, htail⟩ := exists_of_kinds_cons hks
          obtain ⟨_, tail, rfl, -⟩ := exists_of_kinds_cons htail
          exact absurd rfl (hnocall _ _ _ _)
        | assignment operation _ _ =>
          obtain ⟨_, tail, rfl, htail⟩ := exists_of_kinds_cons hks
          obtain ⟨_, tail, rfl, -⟩ := exists_of_kinds_cons htail
          exact absurd rfl (hneither _ _ _ _)

end Waveflow.Parser
