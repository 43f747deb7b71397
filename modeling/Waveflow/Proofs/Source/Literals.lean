import Waveflow.Source.Rules
import Waveflow.Proofs.Checked
import Waveflow.Proofs.Decimal.Bits
import Waveflow.Proofs.Decimal.Double

/-!
# Numbers of a source text

The lexer lets only finite numbers pass, and the parser makes no numbers of its own but by a sign.  So a
property that holds of the numbers among the tokens, and that a sign does not change, holds of all numbers
that a program gives as arguments.

Where there is an error the parser goes on at some later token, but then there is no program: what is shown
of the tokens that are left is shown where nothing went wrong.
-/

namespace Waveflow

variable {P : Float → Prop}

/-- A number that the token is satisfies `P`. -/
def Token.Plain (P : Float → Prop) (t : Token) : Prop := ∀ x, t.kind = .number x → P x

/-- A number that the argument is satisfies `P`. -/
def Argument.Plain (P : Float → Prop) (a : Argument) : Prop := ∀ x, a.value = .literal (.number x) → P x.value

/-- The numbers among the arguments satisfy `P`. -/
def Call.Plain (P : Float → Prop) (c : Call) : Prop := ∀ a ∈ c.arguments, a.Plain P

/-! ### Tokens -/

namespace Lexer

lemma ofChar?_ne_number {c : Char} {x : Float} : TokenKind.ofChar? c ≠ some (.number x) := by
  unfold TokenKind.ofChar?
  split <;> simp

/-- The numbers that become tokens are finite. -/
lemma numberToken_finite {cs taken : List Char} {kind : TokenKind} (h : numberToken cs = .ok (kind, taken)) :
    ∀ x, kind = .number x → x.isFinite = true := by
  rintro x rfl
  unfold numberToken at h
  dsimp only at h
  split at h
  · cases h
  · split at h
    · split at h
      · cases h
      · split at h
        · next hfinite =>
          injection h with hpair
          injection hpair with hkind _
          exact TokenKind.number.inj hkind ▸ hfinite
        · cases h
    · split at h
      · next hfinite =>
        injection h with hpair
        injection hpair with hkind _
        exact TokenKind.number.inj hkind ▸ hfinite
      · cases h

lemma token_finite {c : Char} {rest taken : List Char} {kind : TokenKind} (h : token c rest = .ok (kind, taken)) :
    ∀ x, kind = .number x → x.isFinite = true := by
  unfold token at h
  split at h
  · split at h
    · rintro x rfl
      cases h
    · cases h
  · split at h
    · exact numberToken_finite h
    · split at h
      · rintro x rfl
        cases h
      · split at h
        · next kind' hkind =>
          rintro x rfl
          injection h with hpair
          injection hpair with hsame _
          exact absurd (hsame ▸ hkind) ofChar?_ne_number
        · cases h

theorem scan_finite {fuel : Nat} {place : Cursor} {cs : List Char} {ts : Tokens} (h : scan fuel place cs = .ok ts) :
    ∀ t ∈ ts.tokens, t.Plain (fun x => x.isFinite = true) := by
  induction fuel generalizing place cs ts with
  | zero =>
    obtain rfl := Except.ok.inj h
    exact fun t ht => absurd ht List.not_mem_nil
  | succ fuel ih =>
    unfold scan at h
    dsimp only at h
    split at h
    · obtain rfl := Except.ok.inj h
      exact fun t ht => absurd ht List.not_mem_nil
    · split at h
      · cases h
      · next kind taken htoken =>
        obtain ⟨following, hfollowing, hrest⟩ := Checked.bind_eq_ok.1 h
        obtain rfl := Except.ok.inj hrest
        intro t ht
        rcases List.mem_cons.1 ht with rfl | ht
        · exact token_finite htoken
        · exact ih hfollowing t ht

end Lexer

/-! ### Phrases -/

namespace Parser

variable {α β : Type} {Q : α → Prop} {R : β → Prop} {ending : Span} {ts : List Token}

/-- What is read has the property and the tokens that are left are plain, unless there is an error. -/
def Reads (P : Float → Prop) (Q : α → Prop) : Except Halt (α × List Token) → Prop
  | .ok (a, rest) => Q a ∧ ∀ t ∈ rest, t.Plain P
  | .error _ => True

lemma Reads.bind {x : Except Halt (α × List Token)} {f : α × List Token → Except Halt (β × List Token)}
    (h : Reads P Q x) (hf : ∀ a rest, Q a → (∀ t ∈ rest, t.Plain P) → Reads P R (f (a, rest))) :
    Reads P R (x >>= f) := by
  cases x with
  | error _ => trivial
  | ok out => exact hf out.1 out.2 h.1 h.2

lemma plain_tail {t : Token} (h : ∀ u ∈ t :: ts, u.Plain P) : ∀ u ∈ ts, u.Plain P :=
  fun u hu => h u (List.mem_cons_of_mem _ hu)

lemma expect_reads (h : ∀ t ∈ ts, t.Plain P) (kind : TokenKind) :
    Reads P (fun _ => True) (expect ending kind ts) := by
  unfold expect
  split
  · split
    · exact ⟨trivial, plain_tail h⟩
    · trivial
  · trivial

lemma expectIdent_reads (h : ∀ t ∈ ts, t.Plain P) (what : String) :
    Reads P (fun _ => True) (expectIdent ending what ts) := by
  unfold expectIdent
  split
  · exact ⟨trivial, plain_tail h⟩
  · trivial

/-! ### Calls -/

section Calls

variable (hneg : ∀ x, P x → P (-x))

include hneg

lemma argumentValue_reads (h : ∀ t ∈ ts, t.Plain P) :
    Reads P (fun a => ∀ x, a.1 = .literal (.number x) → P x.value) (argumentValue ending ts) := by
  unfold argumentValue
  split
  · next x span rest =>
    refine ⟨fun y hy => ?_, plain_tail h⟩
    obtain rfl : .ofFloat x = y := by simpa using hy
    rw [Double.value_ofFloat]
    exact h _ (List.mem_cons_self ..) x rfl
  · exact ⟨fun x hx => ArgumentValue.noConfusion hx fun hl => Literal.noConfusion hl, plain_tail h⟩
  · exact ⟨fun x hx => ArgumentValue.noConfusion hx, plain_tail h⟩
  · split
    · next x span rest =>
      have hrest := plain_tail h
      refine ⟨fun y hy => ?_, plain_tail hrest⟩
      obtain rfl : .ofFloat (-x) = y := by simpa using hy
      rw [Double.value_ofFloat]
      exact hneg x (hrest _ (List.mem_cons_self ..) x rfl)
    · trivial
  · trivial

lemma argument_reads (h : ∀ t ∈ ts, t.Plain P) : Reads P (Argument.Plain P) (argument ending ts) := by
  unfold argument
  split
  · refine (argumentValue_reads hneg (plain_tail (plain_tail h))).bind ?_
    exact fun a rest ha hrest => ⟨ha, hrest⟩
  · refine (argumentValue_reads hneg h).bind ?_
    exact fun a rest ha hrest => ⟨ha, hrest⟩

lemma argumentsWithin_reads (fuel : Nat) (h : ∀ t ∈ ts, t.Plain P) :
    Reads P (fun as => ∀ a ∈ as.1, a.Plain P) (argumentsWithin ending fuel ts) := by
  induction fuel generalizing ts with
  | zero => trivial
  | succ fuel ih =>
    unfold argumentsWithin
    split
    · exact ⟨fun a ha => absurd ha List.not_mem_nil, fun t ht => h t (List.mem_of_mem_tail ht)⟩
    · refine (argument_reads hneg h).bind fun a rest ha hrest => ?_
      dsimp only
      split
      · refine (ih fun t ht => hrest t (List.mem_of_mem_tail ht)).bind fun as left has hleft => ⟨?_, hleft⟩
        exact List.forall_mem_cons.2 ⟨ha, has⟩
      · refine (expect_reads hrest _).bind fun stop left _ hleft => ⟨?_, hleft⟩
        exact List.forall_mem_singleton.2 ha

lemma call_reads (h : ∀ t ∈ ts, t.Plain P) : Reads P (Call.Plain P) (call ending ts) := by
  unfold call arguments
  refine (expectIdent_reads h _).bind fun _ ts₁ _ h₁ => ?_
  refine (expect_reads h₁ _).bind fun _ ts₂ _ h₂ => ?_
  exact (argumentsWithin_reads hneg _ h₂).bind fun as ts₃ has h₃ => ⟨has, h₃⟩

lemma assignment_reads (h : ∀ t ∈ ts, t.Plain P) :
    Reads P (fun s => ∀ c ∈ s.calls, c.Plain P) (assignment ending ts) := by
  unfold assignment
  refine (expectIdent_reads h _).bind fun _ ts₁ _ h₁ => ?_
  refine (expect_reads h₁ _).bind fun _ ts₂ _ h₂ => ?_
  refine (call_reads hneg h₂).bind fun c ts₃ hc h₃ => ?_
  refine (expect_reads h₃ _).bind fun _ ts₄ _ h₄ => ⟨?_, h₄⟩
  unfold Statement.calls
  exact List.forall_mem_singleton.2 hc

lemma bareCall_reads (h : ∀ t ∈ ts, t.Plain P) :
    Reads P (fun s => ∀ c ∈ s.calls, c.Plain P) (bareCall ending ts) := by
  unfold bareCall
  refine (call_reads hneg h).bind fun c ts₁ hc h₁ => ?_
  refine (expect_reads h₁ _).bind fun _ ts₂ _ h₂ => ⟨?_, h₂⟩
  unfold Statement.calls
  exact List.forall_mem_singleton.2 hc

lemma blockParameters_reads (h : ∀ t ∈ ts, t.Plain P) : Reads P (fun _ => True) (blockParameters ending ts) := by
  unfold blockParameters arguments
  split
  · refine (argumentsWithin_reads hneg _ fun t ht => h t (List.mem_of_mem_tail ht)).bind ?_
    exact fun as left _ hleft => ⟨trivial, hleft⟩
  · exact ⟨trivial, h⟩

lemma blockHead_reads (h : ∀ t ∈ ts, t.Plain P) : Reads P (fun _ => True) (blockHead ending ts) := by
  unfold blockHead
  refine (expectIdent_reads h _).bind fun _ ts₁ _ h₁ => ?_
  refine (blockParameters_reads hneg h₁).bind fun _ ts₂ _ h₂ => ?_
  exact (expect_reads h₂ _).bind fun _ ts₃ _ h₃ => ⟨trivial, h₃⟩

end Calls

/-! ### Statements -/

/-- Where there is no error inside, the numbers of the statement satisfy `P` and the tokens left are plain. -/
def Outcome.Reads (P : Float → Prop) (out : Outcome) : Prop :=
  out.inner = [] → ∀ s, out.result = .ok s → (∀ c ∈ s.calls, c.Plain P) ∧ ∀ t ∈ out.rest, t.Plain P

/-- Where there is no error, the numbers of the statements satisfy `P` and the tokens left are plain. -/
def Body.Reads (P : Float → Prop) (b : Body) : Prop :=
  b.errors = [] → (∀ c ∈ Statement.callsAll b.statements, c.Plain P) ∧ ∀ t ∈ b.rest, t.Plain P

lemma Outcome.ofParsed_reads {x : Except Halt (Statement × List Token)}
    (h : Parser.Reads P (fun s => ∀ c ∈ s.calls, c.Plain P) x) : (Outcome.ofParsed x).Reads P := by
  intro _ s hs
  cases x with
  | error _ => cases hs
  | ok out =>
    obtain rfl := Except.ok.inj hs
    exact h

section Statements

variable (hneg : ∀ x, P x → P (-x))

include hneg

lemma block_reads {body : List Token → Body} (hbody : ∀ ts, (∀ t ∈ ts, t.Plain P) → (body ts).Reads P)
    (h : ∀ t ∈ ts, t.Plain P) : (block ending body ts).Reads P := by
  have hhead : Reads P (fun _ => True) (blockHead ending ts) := blockHead_reads hneg h
  unfold block
  split
  · intro _ s hs
    cases hs
  · next label start parameters rest hok =>
    rw [hok] at hhead
    dsimp only
    split
    · intro _ s hs
      cases hs
    · next stop left hexpect =>
      intro hinner s hs
      obtain rfl := Except.ok.inj hs
      obtain ⟨hcalls, hrest⟩ := hbody rest hhead.2 hinner
      have hleft : Reads P (fun _ => True) (expect ending .rbrace (body rest).rest) := expect_reads hrest .rbrace
      rw [hexpect] at hleft
      refine ⟨?_, hleft.2⟩
      unfold Statement.calls
      exact hcalls

lemma statement_reads {body : List Token → Body} (hbody : ∀ ts, (∀ t ∈ ts, t.Plain P) → (body ts).Reads P)
    (h : ∀ t ∈ ts, t.Plain P) : (statement ending body ts).Reads P := by
  unfold statement
  split
  · exact block_reads hneg hbody h
  · split
    · exact Outcome.ofParsed_reads (assignment_reads hneg h)
    · exact Outcome.ofParsed_reads (bareCall_reads hneg h)
    · intro _ s hs
      cases hs

end Statements

lemma bodyWithin_reads {deepest : Bool} {one : List Token → Outcome}
    (hone : ∀ ts, (∀ t ∈ ts, t.Plain P) → (one ts).Reads P) (fuel : Nat) (h : ∀ t ∈ ts, t.Plain P) :
    (bodyWithin ending deepest one fuel ts).Reads P := by
  induction fuel generalizing ts with
  | zero => exact fun _ => ⟨fun c hc => absurd hc List.not_mem_nil, h⟩
  | succ fuel ih =>
    unfold bodyWithin
    split
    · exact fun _ => ⟨fun c hc => absurd hc List.not_mem_nil, h⟩
    · split
      · exact fun herrors => by cases herrors
      · split
        · exact fun herrors => by cases herrors
        · dsimp only
          split
          · next s hs =>
            intro herrors
            obtain ⟨hinner, hmore⟩ := List.append_eq_nil_iff.1 herrors
            obtain ⟨hcalls, hrest⟩ := hone ts h hinner s hs
            obtain ⟨hcallsMore, hleft⟩ := ih hrest hmore
            refine ⟨fun c hc => ?_, hleft⟩
            unfold Statement.callsAll at hc
            rcases List.mem_append.1 hc with hc | hc
            · exact hcalls c hc
            · exact hcallsMore c hc
          · intro herrors
            cases (List.append_eq_nil_iff.1 herrors).2

lemma body_reads (hneg : ∀ x, P x → P (-x)) (room : Nat) (h : ∀ t ∈ ts, t.Plain P) :
    (body ending room ts).Reads P := by
  induction room generalizing ts with
  | zero =>
    unfold body
    refine bodyWithin_reads (fun ts hts => statement_reads hneg ?_ hts) _ h
    exact fun ts hts _ => ⟨fun c hc => absurd hc List.not_mem_nil, hts⟩
  | succ room ih =>
    unfold body
    exact bodyWithin_reads (fun ts hts => statement_reads hneg (fun ts hts => ih hts) hts) _ h

/-! ### Programs -/

lemma dimensions_reads (h : ∀ t ∈ ts, t.Plain P) : Reads P (fun _ => True) (dimensions ending ts) := by
  fun_induction dimensions ending ts with
  | case1 => trivial
  | case2 => trivial
  | case3 t n hn c more hcomma ns left hmore ih =>
    rw [hmore] at ih
    exact ih (plain_tail (plain_tail h))
  | case4 => trivial
  | case5 => exact ⟨trivial, plain_tail h⟩
  | case6 => exact ⟨trivial, plain_tail h⟩

lemma shape_reads {start : Span} (h : ∀ t ∈ ts, t.Plain P) : Reads P (fun _ => True) (shape ending start ts) := by
  unfold shape
  split
  · refine (dimensions_reads fun t ht => h t (List.mem_of_mem_tail ht)).bind fun _ ts₁ _ h₁ => ?_
    exact (expect_reads h₁ _).bind fun _ ts₂ _ h₂ => ⟨trivial, h₂⟩
  · exact ⟨trivial, h⟩

lemma valueType_reads (h : ∀ t ∈ ts, t.Plain P) : Reads P (fun _ => True) (valueType ending ts) := by
  unfold valueType
  refine (expectIdent_reads h _).bind fun _ ts₁ _ h₁ => ?_
  dsimp only
  split
  · trivial
  · refine (shape_reads h₁).bind fun _ ts₂ _ h₂ => ?_
    dsimp only
    split
    · exact ⟨trivial, h₂⟩
    · trivial

lemma declaration_reads (h : ∀ t ∈ ts, t.Plain P) : Reads P (fun _ => True) (declaration ending ts) := by
  unfold declaration
  refine (expectIdent_reads h _).bind fun _ ts₁ _ h₁ => ?_
  refine (expectIdent_reads h₁ _).bind fun _ ts₂ _ h₂ => ?_
  refine (expect_reads h₂ _).bind fun _ ts₃ _ h₃ => ?_
  refine (valueType_reads h₃).bind fun _ ts₄ _ h₄ => ?_
  exact (expect_reads h₄ _).bind fun _ ts₅ _ h₅ => ⟨trivial, h₅⟩

/-- What is read without an error. -/
def Reading.Reads (P : Float → Prop) (reading : Reading) : Prop :=
  reading.errors = [] → ∀ c ∈ Statement.callsAll reading.statements, c.Plain P

lemma readWithin_reads (hneg : ∀ x, P x → P (-x)) (fuel : Nat) (late : Bool) (h : ∀ t ∈ ts, t.Plain P) :
    (readWithin ending fuel late ts).Reads P := by
  induction fuel generalizing late ts with
  | zero => exact fun _ c hc => absurd hc List.not_mem_nil
  | succ fuel ih =>
    unfold readWithin
    split
    · exact fun _ c hc => absurd hc List.not_mem_nil
    · split
      · have hdeclaration : Parser.Reads P (fun _ => True) (declaration ending ts) := declaration_reads h
        split
        · next d rest hok =>
          rw [hok] at hdeclaration
          dsimp only
          split
          · exact fun herrors => by cases herrors
          · exact ih late hdeclaration.2
        · exact fun herrors => by cases herrors
      · dsimp only
        split
        · next s hs =>
          intro herrors
          obtain ⟨hinner, hmore⟩ := List.append_eq_nil_iff.1 herrors
          have hone : (topStatement ending ts).Reads P :=
            statement_reads hneg (fun ts hts => body_reads hneg _ hts) h
          obtain ⟨hcalls, hrest⟩ := hone hinner s hs
          intro c hc
          unfold Statement.callsAll at hc
          rcases List.mem_append.1 hc with hc | hc
          · exact hcalls c hc
          · exact ih true hrest hmore c hc
        · intro herrors
          cases (List.append_eq_nil_iff.1 herrors).2

lemma program_plain (hneg : ∀ x, P x → P (-x)) {ts : Tokens} {p : Program} (h : ∀ t ∈ ts.tokens, t.Plain P)
    (hp : program ts = .ok p) : ∀ c ∈ Statement.callsAll p.statements, c.Plain P := by
  unfold program at hp
  dsimp only at hp
  split at hp
  · next hempty =>
    obtain rfl := Except.ok.inj hp
    exact readWithin_reads hneg _ _ h (List.isEmpty_iff.1 hempty)
  · cases hp

lemma program_errors {ts : Tokens} {errors : List SourceError} (h : program ts = .error errors) : errors ≠ [] := by
  unfold program at h
  dsimp only at h
  split at h
  · cases h
  · next hempty =>
    obtain rfl := Except.error.inj h
    exact fun hnil => hempty (List.isEmpty_iff.2 hnil)

end Parser

/-! ### Source texts -/

/-- **The numbers of a program are numbers.** -/
theorem parseSource_plain {r : Registry} {source : String} {p : Program} (h : parseSource r source = .ok p) :
    ∀ c ∈ Statement.callsAll p.statements, c.Plain (fun x => x.isNaN = false) := by
  unfold parseSource at h
  split at h
  · cases h
  · next ts hts =>
    split at h
    · cases h
    · next program hprogram =>
      split at h
      · obtain rfl := Except.ok.inj h
        have htokens : ∀ t ∈ ts.tokens, t.Plain (fun x => x.isNaN = false) :=
          fun t ht x hx => Decimal.isNaN_of_isFinite (Lexer.scan_finite hts t ht x hx)
        exact Parser.program_plain (P := fun x => x.isNaN = false) (fun x hx => Decimal.isNaN_neg hx) htokens hprogram
      · cases h

/-- A text that is refused has an error. -/
theorem parseSource_errors {r : Registry} {source : String} {errors : List SourceError}
    (h : parseSource r source = .error errors) : errors ≠ [] := by
  unfold parseSource at h
  split at h
  · obtain rfl := Except.error.inj h
    exact List.cons_ne_nil _ _
  · split at h
    · next hprogram =>
      obtain rfl := Except.error.inj h
      exact Parser.program_errors hprogram
    · split at h
      · cases h
      · next hcheck =>
        obtain rfl := Except.error.inj h
        exact hcheck

end Waveflow
