import Mathlib.Data.List.Induction
import Mathlib.Data.String.Basic
import Waveflow.Proofs.Source.Written

/-!
# Spans are exact

Every token stands in the source text where its span says, and is what that part of the text is read as by itself.
Before, between and after the tokens there are separators only.  Lines and columns are those of the characters before
the span, and where the text cannot be read, so are those of the error.

Reading takes a separator and a token in turn, and goes on at the place after them.  `Laid` records this course; the
parts of the main statement (`tokenize_exact`) are read off it one by one.
-/

namespace Waveflow

/-! ### Stretches of a text -/

/-- The part of a text between two bytes. -/
def between (source : String) (start stop : Nat) : String := String.Pos.Raw.extract source ⟨start⟩ ⟨stop⟩

namespace Span

/-- The text of a span. -/
def slice (s : Span) (source : String) : String := between source s.offset s.stop

/-- The characters before a span. -/
def leading (s : Span) (source : String) : List Char := (between source 0 s.offset).toList

/-- The span lies between characters of the text, its line is one more than the newlines before it, and its column is
one more than the characters since the last of them. -/
structure Exact (s : Span) (source : String) : Prop extends s.FallsBetween source where
  line : s.line = 1 + (s.leading source).count '\n'
  column : s.column = 1 + ((s.leading source).reverse.takeWhile (· != '\n')).length

end Span

namespace Tokens

/-- From a byte on, the stretches before tokens. -/
def gapsFrom (start : Nat) : List Token → List (Nat × Nat)
  | [] => []
  | t :: rest => (start, t.span.offset) :: gapsFrom t.span.stop rest

/-- The end of the last token, or the byte from which on there is none. -/
def lastStop (start : Nat) : List Token → Nat
  | [] => start
  | t :: rest => lastStop t.span.stop rest

/-- The tokens stand in the text in order, each exactly at its span, and by itself the text of a span is read as its
token; all else is separators. -/
structure Exact (ts : Tokens) (source : String) : Prop where
  spans : ∀ t ∈ ts.tokens, t.span.Exact source
  nonempty : ∀ t ∈ ts.tokens, t.span.offset < t.span.stop
  apart : ts.tokens.Pairwise fun a b => a.span.stop ≤ b.span.offset
  gaps : ∀ gap ∈ gapsFrom 0 ts.tokens, gap.1 ≤ gap.2 ∧ Lexer.IsSeparator (between source gap.1 gap.2).toList
  trailer : Lexer.IsTrailer (between source (lastStop 0 ts.tokens) ts.ending.offset).toList
  alone : ∀ t ∈ ts.tokens, ∃ span ending, tokenize (t.span.slice source) = .ok ⟨[⟨t.kind, span⟩], ending⟩
  ending : ts.ending.Exact source ∧ ts.ending.offset = source.utf8ByteSize ∧ ts.ending.len = 0

end Tokens

/-! ### Places -/

namespace Cursor

variable {source : String} {before text rest : List Char}

lemma line_after (p : Cursor) (cs : List Char) : (p.after cs).line = p.line + cs.count '\n' := by
  induction cs generalizing p with
  | nil => rfl
  | cons c rest ih =>
    show ((p.advance c).after rest).line = _
    rw [ih]
    by_cases hc : c = '\n'
    · simp [advance, hc]
      omega
    · simp [advance, hc]

/-- The column counts the characters since the last newline. -/
lemma column_after (cs : List Char) :
    (start.after cs).column = 1 + (cs.reverse.takeWhile (· != '\n')).length := by
  induction cs using List.reverseRecOn with
  | nil => rfl
  | append_singleton cs c ih =>
    have hstep : start.after (cs ++ [c]) = (start.after cs).advance c := after_append start cs [c]
    rw [hstep, List.reverse_append, List.reverse_singleton, List.singleton_append]
    by_cases hc : c = '\n'
    · simp [advance, hc]
    · simp [advance, hc, ih]
      omega

lemma offset_start_after (cs : List Char) : (start.after cs).offset = String.utf8Len cs := by
  rw [offset_after, String.utf8ByteSize_ofList]
  exact Nat.zero_add _

lemma offset_after_append (as bs : List Char) :
    (start.after (as ++ bs)).offset = (start.after as).offset + String.utf8Len bs := by
  rw [offset_start_after, offset_start_after, String.utf8Len_append]

lemma stop_spanOf (before text : List Char) :
    ((start.after before).spanOf text).stop = (start.after (before ++ text)).offset := by
  have hle := offset_after_append before text
  unfold spanOf Span.stop
  rw [← after_append]
  dsimp only
  omega

/-- Characters that follow others stand between the places before and after them. -/
lemma between_after (h : source.toList = before ++ (text ++ rest)) :
    between source (start.after before).offset (start.after (before ++ text)).offset = String.ofList text := by
  have hsource : source = String.ofList (before ++ text ++ rest) := by
    rw [List.append_assoc, ← h, String.ofList_toList]
  rw [offset_start_after, offset_start_after, String.utf8Len_append, hsource]
  exact String.extract_of_valid before text rest

/-- The span of characters that follow others is exact. -/
lemma exact_spanOf (h : source.toList = before ++ (text ++ rest)) :
    ((start.after before).spanOf text).Exact source := by
  have hleading : ((start.after before).spanOf text).leading source = before := by
    have hbetween : between source (start.after []).offset (start.after ([] ++ before)).offset = String.ofList before :=
      between_after h
    exact (congrArg String.toList hbetween).trans String.toList_ofList
  refine ⟨fallsBetween_spanOf text h, ?_, ?_⟩
  · rw [hleading]
    exact line_after start before
  · rw [hleading]
    exact column_after before

end Cursor

namespace Lexer

open Cursor (start)

variable {source : String} {c : Char} {cs before sep rest taken : List Char} {kind : TokenKind} {ts : Tokens}

/-! ### Separators -/

lemma IsTrailer.blank (hc : isBlank c = true) (h : IsTrailer cs) : IsTrailer (c :: cs) := by
  cases h with
  | plain hsep => exact .plain (.blank hc hsep)
  | comment hsep hbody => exact .comment (.blank hc hsep) hbody

lemma IsTrailer.line {body : List Char} (hbody : '\n' ∉ body) (h : IsTrailer cs) :
    IsTrailer ('/' :: '/' :: (body ++ '\n' :: cs)) := by
  cases h with
  | plain hsep => exact .plain (.comment hbody hsep)
  | @comment sep last hsep hlast =>
    have hsplit : '/' :: '/' :: (body ++ '\n' :: (sep ++ '/' :: '/' :: last)) =
        '/' :: '/' :: (body ++ '\n' :: sep) ++ '/' :: '/' :: last := by simp
    rw [hsplit]
    exact .comment (.comment hbody hsep) hlast

/-- The characters separate what was before them from the rest: they are a separator, and where there is no rest they
may end in a comment. -/
def Separates (sep rest : List Char) : Prop := IsTrailer sep ∧ (rest ≠ [] → IsSeparator sep)

/-- What is taken inside a comment: the rest of its line and what separates after that, or all that is left. -/
lemma separator_true_spec (cs : List Char)
    (ih : ∀ ds, ds.length < cs.length → Separates (separator false ds).1 (separator false ds).2) :
    Separates ('/' :: '/' :: (separator true cs).1) (separator true cs).2 := by
  by_cases hline : '\n' ∈ cs
  · obtain ⟨body, more, rfl, hbody⟩ := List.eq_append_cons_of_mem hline
    have hmore := ih more (by simp; omega)
    rw [separator_comment hbody]
    exact ⟨hmore.1.line hbody, fun hne => .comment hbody (hmore.2 hne)⟩
  · rw [separator_lastComment hline]
    exact ⟨.comment .nil hline, fun hne => absurd rfl hne⟩

/-- **What is skipped before a token separates.** -/
theorem separator_spec (cs : List Char) : Separates (separator false cs).1 (separator false cs).2 := by
  induction hlength : cs.length using Nat.strongRecOn generalizing cs with
  | ind length ih =>
    subst hlength
    have hshorter : ∀ ds : List Char, ds.length < cs.length →
        Separates (separator false ds).1 (separator false ds).2 :=
      fun ds hds => ih ds.length hds ds rfl
    cases cs with
    | nil => exact ⟨.plain .nil, fun _ => .nil⟩
    | cons c rest =>
      by_cases hblank : isBlank c = true
      · obtain ⟨htrailer, hseparator⟩ := hshorter rest (by simp)
        simp only [separator, hblank, Bool.false_eq_true, if_false, if_true]
        exact ⟨htrailer.blank hblank, fun hne => .blank hblank (hseparator hne)⟩
      · by_cases hslash : c = '/' ∧ rest.head? = some '/'
        · obtain ⟨rfl, hhead⟩ := hslash
          obtain ⟨more, rfl⟩ : ∃ more, rest = '/' :: more := List.head?_eq_some_iff.1 hhead
          rw [separator_slashes]
          exact separator_true_spec more fun ds hds => hshorter ds (by simp; omega)
        · have hstop : separator false (c :: rest) = ([], c :: rest) := by
            simp only [separator, hblank, Bool.false_eq_true, if_false]
            rw [if_neg (by simpa using hslash)]
          rw [hstop]
          exact ⟨.plain .nil, fun _ => .nil⟩

/-! ### Tokens by themselves -/

/-- The characters are one token, and nothing before or after it. -/
def IsToken (kind : TokenKind) : List Char → Prop
  | [] => False
  | c :: more => isBlank c = false ∧ c ≠ '/' ∧ token c more = .ok (kind, c :: more)

/-- The parts of a number that has its exponent where it has a mark are those of a literal. -/
lemma isLiteral_numberParts (hc : isDigit c = true)
    (hexponent : (numberParts (c :: rest)).mark ≠ [] → (numberParts (c :: rest)).exponent ≠ []) :
    (numberParts (c :: rest)).IsLiteral where
  whole := ⟨by simp [numberParts, hc], fun d hd => List.mem_takeWhile_imp hd⟩
  fraction := by
    unfold numberParts fractionPart
    dsimp only
    split
    · next more _ =>
      by_cases hnone : more.takeWhile isDigit = []
      · exact .inl (if_pos hnone)
      · exact .inr ⟨more.takeWhile isDigit, ⟨hnone, fun d hd => List.mem_takeWhile_imp hd⟩, if_neg hnone⟩
    · exact .inl rfl
  exponent := by
    by_cases hmark : (numberParts (c :: rest)).mark = []
    · refine .inl ⟨hmark, ?_⟩
      unfold numberParts at hmark ⊢
      exact if_pos hmark
    · refine .inr ⟨?_, hexponent hmark, fun d hd => ?_⟩
      · unfold numberParts exponentMark at hmark ⊢
        dsimp only at hmark ⊢
        split at hmark
        · split at hmark
          · next hletter =>
            rcases Bool.or_eq_true_iff.1 hletter with hletter | hletter <;> rw [beq_iff_eq.1 hletter] <;> simp <;>
              split <;> decide
          · exact absurd rfl hmark
        · exact absurd rfl hmark
      · unfold numberParts at hmark hd
        dsimp only at hmark hd
        rw [if_neg hmark] at hd
        exact List.mem_takeWhile_imp hd

/-- What is read as a number writes it out. -/
lemma spells_of_numberToken (hc : isDigit c = true) (h : numberToken (c :: rest) = .ok (kind, taken)) :
    Spells kind taken := by
  unfold numberToken at h
  dsimp only at h
  split at h
  · cases h
  · next hwhole =>
    have hliteral : (numberParts (c :: rest)).IsLiteral :=
      isLiteral_numberParts hc fun hmark hnone => hwhole ⟨hmark, hnone⟩
    split at h
    · split at h
      · cases h
      · split at h
        · next hfinite =>
          cases h
          exact .number hliteral hfinite
        · cases h
    · split at h
      · next hfinite =>
        cases h
        exact .number hliteral hfinite
      · cases h

lemma spells_of_ofChar? (h : TokenKind.ofChar? c = some kind) : Spells kind [c] := by
  have hmark : kind.isMark = true ∧ kind.text.toList = [c] := by
    unfold TokenKind.ofChar? at h
    split at h <;> cases h <;> exact ⟨rfl, rfl⟩
  rw [← hmark.2]
  exact .mark hmark.1

/-- A quoted text with characters in front is one that goes on after them. -/
lemma Quoted.after_eq_ok {front meant : List Char} {q : Quoted} (h : q.after front c = .ok (taken, meant)) :
    ∃ ts ms, q = .ok (ts, ms) ∧ taken = front ++ ts ∧ meant = c :: ms := by
  cases q with
  | error ts => cases h
  | ok part =>
    obtain ⟨ts, ms⟩ := part
    cases h
    exact ⟨ts, ms, rfl, rfl, rfl⟩

/-- A quoted text is read as itself where nothing follows it. -/
lemma quotedPart_alone {meant : List Char} (h : quotedPart cs = .ok (taken, meant)) :
    quotedPart taken = .ok (taken, meant) := by
  fun_induction quotedPart cs generalizing taken meant with
  | case1 => cases h
  | case2 rest =>
    cases h
    rfl
  | case3 rest => cases h
  | case4 rest ih =>
    obtain ⟨ts, ms, hrest, rfl, rfl⟩ := Quoted.after_eq_ok h
    simp [quotedPart, ih hrest, Quoted.after]
  | case5 rest ih =>
    obtain ⟨ts, ms, hrest, rfl, rfl⟩ := Quoted.after_eq_ok h
    simp [quotedPart, ih hrest, Quoted.after]
  | case6 c rest hquote hline hescaped hslashes ih =>
    obtain ⟨ts, ms, hrest, rfl, rfl⟩ := Quoted.after_eq_ok h
    -- what was taken begins as the rest does, so no escape comes about at its start
    have hstart : ∀ d more, ts = d :: more → ∃ more', rest = d :: more' := by
      rintro d more rfl
      obtain ⟨left, hleft⟩ : d :: more <+: rest := by simpa [hrest, quotedChars] using quotedPart_isPrefix rest
      exact ⟨more ++ left, hleft.symm⟩
    rw [List.singleton_append, quotedPart, ih hrest]
    · rfl
    · exact hquote
    · exact hline
    · intro more hc hmore
      obtain ⟨more', hrest'⟩ := hstart _ _ hmore
      exact hescaped more' hc hrest'
    · intro more hc hmore
      obtain ⟨more', hrest'⟩ := hstart _ _ hmore
      exact hslashes more' hc hrest'

lemma isToken_of_spells (h : Spells kind taken) : IsToken kind taken := by
  obtain ⟨c, more, rfl, hblank, hslash, -⟩ := exists_head_of_spells h
  have hstops : Stops [] := nofun
  refine ⟨hblank, hslash, ?_⟩
  simpa using token_spelled h fun _ => hstops

/-- **A token is read as itself where nothing follows it.** -/
theorem isToken_of_token (h : token c rest = .ok (kind, taken)) : IsToken kind taken := by
  unfold token at h
  split at h
  · next hquote =>
    -- a text may have been written with backslashes that escape nothing, so it need not be spelled as it would be
    subst hquote
    split at h
    · next hpart =>
      cases h
      refine ⟨by decide, by decide, ?_⟩
      rw [token, if_pos rfl, quotedPart_alone hpart]
    · cases h
  · split at h
    · next hdigit => exact isToken_of_spells (spells_of_numberToken hdigit h)
    · split at h
      · next hstarts =>
        cases h
        exact isToken_of_spells (.name hstarts fun d hd => List.mem_takeWhile_imp hd)
      · split at h
        · next hkind =>
          cases h
          exact isToken_of_spells (spells_of_ofChar? hkind)
        · cases h

/-- The characters of one token are read as that token. -/
lemma tokenize_of_isToken (h : IsToken kind taken) :
    ∃ span ending, tokenize (String.ofList taken) = .ok ⟨[⟨kind, span⟩], ending⟩ := by
  cases taken with
  | nil => exact h.elim
  | cons c more =>
    obtain ⟨hblank, hslash, htoken⟩ := h
    have hstarts : StartsToken (c :: more) := by
      rintro _ ⟨⟩
      exact ⟨hblank, hslash⟩
    refine ⟨start.spanOf (c :: more), (start.after (c :: more)).spanOf [], ?_⟩
    unfold tokenize
    rw [String.toList_ofList]
    dsimp only
    rw [scan, separator_of_startsToken hstarts]
    dsimp only
    rw [htoken]
    dsimp only
    rw [List.drop_length, List.length_cons, scan]
    rfl

/-! ### The course of reading -/

/-- The text after `before` is laid out as the tokens: separators and tokens in turn, each token at its place. -/
inductive Laid : List Char → List Char → Tokens → Prop
  | done {before sep : List Char} : IsTrailer sep → Laid before sep ⟨[], (start.after (before ++ sep)).spanOf []⟩
  | token {before sep taken rest : List Char} {kind : TokenKind} {ts : Tokens} :
      IsSeparator sep → IsToken kind taken →
      Laid (before ++ sep ++ taken) rest ts →
      Laid before (sep ++ (taken ++ rest)) ⟨⟨kind, (start.after (before ++ sep)).spanOf taken⟩ :: ts.tokens,
        ts.ending⟩

/-- What reading from a place on ends with: tokens as the text is laid out, or an error about some of its characters. -/
def Reads (before cs : List Char) : Except SourceError Tokens → Prop
  | .ok ts => Laid before cs ts
  | .error e => ∃ skipped taken rest, cs = skipped ++ (taken ++ rest) ∧
      e.span = (start.after (before ++ skipped)).spanOf taken

/-- **Reading follows the layout of the text.** -/
theorem scan_reads {fuel : Nat} (hfuel : cs.length < fuel) (before : List Char) :
    Reads before cs (scan fuel (start.after before) cs) := by
  induction fuel generalizing before cs with
  | zero => exact absurd hfuel (Nat.not_lt_zero _)
  | succ fuel ih =>
    have hsplit := separator_append false cs
    have hseparates := separator_spec cs
    rw [scan]
    generalize separator false cs = parts at hsplit hseparates ⊢
    obtain ⟨sep, rest⟩ := parts
    dsimp only at hsplit hseparates ⊢
    rw [← Cursor.after_append]
    cases rest with
    | nil =>
      rw [List.append_nil] at hsplit
      subst hsplit
      exact .done hseparates.1
    | cons c more =>
      obtain ⟨htaken, hflaw⟩ := token_isPrefix c more
      dsimp only
      cases htoken : token c more with
      | error flaw =>
        obtain ⟨left, hleft⟩ := hflaw flaw htoken
        exact ⟨sep, flaw.chars, left, by rw [hleft, hsplit], Flaw.span_error _ flaw⟩
      | ok found =>
        obtain ⟨kind, taken⟩ := found
        obtain ⟨left, hleft⟩ := htaken kind taken htoken
        have hstands := isToken_of_token htoken
        have hshorter : left.length < fuel := by
          have hpos : 0 < taken.length := by
            cases taken with
            | nil => exact hstands.elim
            | cons d ds => exact Nat.succ_pos _
          have hlength := congrArg List.length hsplit
          rw [← hleft] at hlength
          simp only [List.length_append] at hlength
          omega
        have hrest := ih hshorter (before ++ sep ++ taken)
        rw [Cursor.after_append] at hrest
        rw [← hsplit, ← hleft]
        dsimp only
        rw [List.drop_left]
        cases hscan : scan fuel ((start.after (before ++ sep)).after taken) left with
        | error e =>
          rw [hscan] at hrest
          obtain ⟨skipped, chars, after, rfl, hspan⟩ := hrest
          exact ⟨sep ++ (taken ++ skipped), chars, after, by simp, by simpa using hspan⟩
        | ok following =>
          rw [hscan] at hrest
          exact .token (hseparates.2 (List.cons_ne_nil _ _)) hstands hrest

/-! ### What the layout says -/

namespace Laid

lemma spans (h : Laid before cs ts) (hsource : source.toList = before ++ cs) :
    ∀ t ∈ ts.tokens, t.span.Exact source := by
  induction h with
  | done _ => exact nofun
  | @token before sep taken rest kind ts _ _ _ ih =>
    have hnext : source.toList = (before ++ sep) ++ (taken ++ rest) := by simpa using hsource
    exact List.forall_mem_cons.2 ⟨Cursor.exact_spanOf hnext, ih (by simpa using hsource)⟩

/-- A token is not empty, and starts no earlier than the text that is laid out. -/
lemma ascends (h : Laid before cs ts) :
    ∀ t ∈ ts.tokens, (start.after before).offset ≤ t.span.offset ∧ t.span.offset < t.span.stop := by
  induction h with
  | done _ => exact nofun
  | @token before sep taken rest kind ts _ htoken _ ih =>
    have hsep := Cursor.offset_after_append before sep
    have htaken := Cursor.offset_after_append (before ++ sep) taken
    have hpos : 0 < String.utf8Len taken := by
      cases taken with
      | nil => exact htoken.elim
      | cons c more => exact Nat.add_pos_right _ c.utf8Size_pos
    refine List.forall_mem_cons.2 ⟨⟨?_, ?_⟩, fun t ht => ⟨?_, (ih t ht).2⟩⟩
    · show (start.after before).offset ≤ (start.after (before ++ sep)).offset
      omega
    · rw [Cursor.stop_spanOf]
      show (start.after (before ++ sep)).offset < (start.after (before ++ sep ++ taken)).offset
      omega
    · have hlater := (ih t ht).1
      omega

lemma apart (h : Laid before cs ts) : ts.tokens.Pairwise fun a b => a.span.stop ≤ b.span.offset := by
  induction h with
  | done _ => exact .nil
  | token _ _ hrest ih =>
    refine .cons (fun t ht => ?_) ih
    rw [Cursor.stop_spanOf]
    exact (hrest.ascends t ht).1

/-- Before every token there is a separator. -/
lemma gaps (h : Laid before cs ts) (hsource : source.toList = before ++ cs) :
    ∀ gap ∈ Tokens.gapsFrom (start.after before).offset ts.tokens,
      gap.1 ≤ gap.2 ∧ IsSeparator (between source gap.1 gap.2).toList := by
  induction h with
  | done _ => exact nofun
  | @token before sep taken rest kind ts hsep _ hrest ih =>
    refine List.forall_mem_cons.2 ⟨⟨?_, ?_⟩, ?_⟩
    · show (start.after before).offset ≤ (start.after (before ++ sep)).offset
      rw [Cursor.offset_after_append]
      exact Nat.le_add_right ..
    · show IsSeparator (between source (start.after before).offset (start.after (before ++ sep)).offset).toList
      rw [Cursor.between_after hsource, String.toList_ofList]
      exact hsep
    · rw [Cursor.stop_spanOf]
      exact ih (by simpa using hsource)

/-- After the last token there is a separator, or a comment up to the end. -/
lemma trailer (h : Laid before cs ts) (hsource : source.toList = before ++ cs) :
    IsTrailer (between source (Tokens.lastStop (start.after before).offset ts.tokens) ts.ending.offset).toList := by
  induction h with
  | @done before sep hsep =>
    have hends : source.toList = before ++ (sep ++ []) := by rwa [List.append_nil]
    show IsTrailer (between source (start.after before).offset (start.after (before ++ sep)).offset).toList
    rw [Cursor.between_after hends, String.toList_ofList]
    exact hsep
  | @token before sep taken rest kind ts _ _ _ ih =>
    show IsTrailer (between source (Tokens.lastStop _ ts.tokens) ts.ending.offset).toList
    rw [Cursor.stop_spanOf]
    exact ih (by simpa using hsource)

lemma alone (h : Laid before cs ts) (hsource : source.toList = before ++ cs) :
    ∀ t ∈ ts.tokens, ∃ span ending, tokenize (t.span.slice source) = .ok ⟨[⟨t.kind, span⟩], ending⟩ := by
  induction h with
  | done _ => exact nofun
  | @token before sep taken rest kind ts _ htoken _ ih =>
    refine List.forall_mem_cons.2 ⟨?_, ih (by simpa using hsource)⟩
    have hsplit : source.toList = before ++ sep ++ (taken ++ rest) := by rw [hsource, List.append_assoc]
    have hslice : ((start.after (before ++ sep)).spanOf taken).slice source = String.ofList taken := by
      unfold Span.slice
      rw [Cursor.stop_spanOf]
      exact Cursor.between_after hsplit
    rw [hslice]
    exact tokenize_of_isToken htoken

/-- The end is behind everything. -/
lemma ending (h : Laid before cs ts) : ts.ending = (start.after (before ++ cs)).spanOf [] := by
  induction h with
  | done _ => rfl
  | token _ _ _ ih => simpa using ih

end Laid

end Lexer

/-- **Spans are exact.**  Where a source text can be read, its tokens come in order and do not overlap, each stands
exactly at its span, between characters and on the line and column of its first, and its part of the text is read as
the same token by itself; all around them is blanks and comments; and the end is an empty span behind everything.
Where the text cannot be read, the span of the error is exact. -/
theorem tokenize_exact (source : String) :
    match tokenize source with
    | .ok ts => ts.Exact source
    | .error e => e.span.Exact source := by
  have hreads : Lexer.Reads [] source.toList (tokenize source) :=
    Lexer.scan_reads (Nat.lt_succ_self _) []
  cases htokens : tokenize source with
  | error e =>
    rw [htokens] at hreads
    obtain ⟨skipped, taken, rest, hsource, hspan⟩ := hreads
    dsimp only
    rw [hspan]
    exact Cursor.exact_spanOf hsource
  | ok ts =>
    rw [htokens] at hreads
    have hlaid : Lexer.Laid [] source.toList ts := hreads
    have hsource : source.toList = [] ++ source.toList := rfl
    have hend : source.toList = source.toList ++ ([] ++ []) := by simp
    refine ⟨hlaid.spans hsource, fun t ht => (hlaid.ascends t ht).2, hlaid.apart, hlaid.gaps hsource,
      hlaid.trailer hsource, hlaid.alone hsource, ?_⟩
    rw [hlaid.ending, List.nil_append]
    refine ⟨Cursor.exact_spanOf hend, ?_, ?_⟩
    · show (Cursor.start.after source.toList).offset = _
      rw [Cursor.offset_start_after, String.utf8Len_toList]
    · exact Nat.sub_self _

example : (tokenize "\"é\" //é\né").toOption.isNone ∧ (tokenize "\"é\" //é\n b").toOption.map
    (fun ts => ts.tokens.map (·.span)) = some [⟨0, 4, 1, 1⟩, ⟨11, 1, 2, 2⟩] := by decide +kernel

end Waveflow
