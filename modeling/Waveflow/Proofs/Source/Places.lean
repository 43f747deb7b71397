import Waveflow.Source.Lexer
import Mathlib.Data.List.TakeWhile
import Mathlib.Tactic.Lemma

/-!
# Places between characters

Places in a text are counted in bytes, but the lexer goes on by whole characters.  So wherever it stands, the bytes
before are those of the characters that it has taken (`isValid_after`), and what it takes for a token is a prefix of
what is left (`token_isPrefix`).  The spans of tokens, and that of the error where there is one, therefore start and
end between characters (`tokenize_spans`).
-/

namespace Waveflow

/-- The span starts and ends between characters of the text. -/
structure Span.FallsBetween (s : Span) (source : String) : Prop where
  start : String.Pos.Raw.IsValid source ⟨s.offset⟩
  stop : String.Pos.Raw.IsValid source ⟨s.stop⟩

/-- The end of a span that joins two is never before its start. -/
lemma Span.stop_join (a b : Span) : a.offset ≤ (a.join b).stop ∧ (a.join b).stop = max b.stop a.stop := by
  unfold join stop
  dsimp only
  omega

namespace Cursor

lemma offset_advance (p : Cursor) (c : Char) : (p.advance c).offset = p.offset + c.utf8Size := by
  unfold advance
  split <;> rfl

lemma after_append (p : Cursor) (cs ds : List Char) : p.after (cs ++ ds) = (p.after cs).after ds :=
  List.foldl_append

lemma offset_after (p : Cursor) (cs : List Char) :
    (p.after cs).offset = p.offset + (String.ofList cs).utf8ByteSize := by
  induction cs generalizing p with
  | nil => rfl
  | cons c rest ih =>
    have hsize : (String.ofList (c :: rest)).utf8ByteSize = c.utf8Size + (String.ofList rest).utf8ByteSize := by
      rw [← List.singleton_append, String.ofList_append, String.utf8ByteSize_append]
      simp
    rw [after, List.foldl_cons, ← after, ih, offset_advance, hsize, Nat.add_assoc]

/-- **After whole characters the lexer stands between characters.** -/
theorem isValid_after {source : String} {before rest : List Char} (h : source.toList = before ++ rest) :
    String.Pos.Raw.IsValid source ⟨(start.after before).offset⟩ := by
  refine String.Pos.Raw.isValid_iff_exists_append.2 ⟨String.ofList before, String.ofList rest, ?_, ?_⟩
  · rw [← String.ofList_append, ← h, String.ofList_toList]
  · rw [offset_after]
    show _ = (⟨_⟩ : String.Pos.Raw)
    congr 1
    exact Nat.zero_add _

/-- The span of characters that follow starts and ends between characters. -/
lemma fallsBetween_spanOf {source : String} {before rest : List Char} (taken : List Char)
    (h : source.toList = before ++ (taken ++ rest)) :
    ((start.after before).spanOf taken).FallsBetween source where
  start := isValid_after h
  stop := by
    have hle := offset_after (start.after before) taken
    have hstop : ((start.after before).spanOf taken).stop = (start.after (before ++ taken)).offset := by
      rw [after_append]
      unfold spanOf Span.stop
      dsimp only
      omega
    rw [hstop]
    exact isValid_after (h.trans (List.append_assoc ..).symm)

end Cursor

namespace Lexer

variable {source : String} {cs : List Char}

/-! ### What is taken is a prefix -/

lemma separator_append (comment : Bool) (cs : List Char) :
    (separator comment cs).1 ++ (separator comment cs).2 = cs := by
  induction cs generalizing comment with
  | nil => rfl
  | cons c rest ih =>
    unfold separator
    split
    · exact congrArg (c :: ·) (ih _)
    · split
      · exact congrArg (c :: ·) (ih _)
      · split
        · exact congrArg (c :: ·) (ih _)
        · rfl

/-- The characters that were concerned. -/
def Flaw.chars : Flaw → List Char
  | .character c => [c]
  | .openString taken => taken
  | .number taken => taken

lemma Flaw.span_error (place : Cursor) (flaw : Flaw) : (flaw.error place).span = place.spanOf flaw.chars := by
  cases flaw <;> rfl

/-- Prefixes one after the other are a prefix. -/
lemma append_isPrefix {xs ys zs : List Char} (hxs : xs <+: zs) (hys : ys <+: zs.drop xs.length) : xs ++ ys <+: zs := by
  obtain ⟨rest, rfl⟩ := hxs
  rw [List.drop_left] at hys
  exact (List.prefix_append_right_inj xs).2 hys

lemma fractionPart_isPrefix (cs : List Char) : fractionPart cs <+: cs := by
  unfold fractionPart
  split
  · split
    · exact List.nil_prefix
    · exact (List.cons_prefix_cons).2 ⟨rfl, List.takeWhile_prefix _⟩
  · exact List.nil_prefix

lemma exponentMark_isPrefix (cs : List Char) : exponentMark cs <+: cs := by
  unfold exponentMark
  split
  · split
    · split <;> simp
    · exact List.nil_prefix
  · exact List.nil_prefix

lemma numberParts_isPrefix (cs : List Char) : (numberParts cs).text <+: cs := by
  unfold numberParts NumberParts.text
  dsimp only
  have hwhole : cs.takeWhile isDigit <+: cs := List.takeWhile_prefix _
  have hfraction := append_isPrefix hwhole (fractionPart_isPrefix _)
  refine append_isPrefix (append_isPrefix hfraction ?mark) ?exponent
  case mark =>
    rw [List.length_append, ← List.drop_drop]
    exact exponentMark_isPrefix _
  case exponent =>
    rw [List.length_append, List.length_append, ← List.drop_drop, ← List.drop_drop]
    split
    · exact List.nil_prefix
    · exact List.takeWhile_prefix _

/-- The characters of a quoted text that have been taken, whether or not it is closed. -/
def quotedChars : Quoted → List Char
  | .ok (taken, _) => taken
  | .error taken => taken

lemma quotedChars_after (front : List Char) (c : Char) (q : Quoted) :
    quotedChars (Quoted.after front c q) = front ++ quotedChars q := by
  cases q <;> rfl

lemma quotedPart_isPrefix (cs : List Char) : quotedChars (quotedPart cs) <+: cs := by
  fun_induction quotedPart cs with
  | case1 => exact List.nil_prefix
  | case2 rest => exact ⟨rest, rfl⟩
  | case3 rest => exact List.nil_prefix
  | case4 rest ih =>
    rw [quotedChars_after]
    exact (List.prefix_append_right_inj _).2 ih
  | case5 rest ih =>
    rw [quotedChars_after]
    exact (List.prefix_append_right_inj _).2 ih
  | case6 c rest _ _ _ _ ih =>
    rw [quotedChars_after]
    exact (List.prefix_append_right_inj [c]).2 ih

lemma numberToken_isPrefix (cs : List Char) : (∀ kind taken, numberToken cs = .ok (kind, taken) → taken <+: cs) ∧
    ∀ flaw, numberToken cs = .error flaw → flaw.chars <+: cs := by
  have hparts := numberParts_isPrefix cs
  have hnext : ∀ rest : List Char, cs.drop (numberParts cs).text.length = rest →
      (numberParts cs).text ++ rest.takeWhile inName <+: cs :=
    fun rest hrest => append_isPrefix hparts (hrest ▸ List.takeWhile_prefix _)
  unfold numberToken
  dsimp only
  constructor
  · intro kind taken h
    split at h
    · cases h
    · split at h
      · split at h
        · cases h
        · split at h
          · cases h
            exact hparts
          · cases h
      · split at h
        · cases h
          exact hparts
        · cases h
  · intro flaw h
    split at h
    · cases h
      exact hparts
    · split at h
      · next c more hrest =>
        split at h
        · cases h
          exact hnext _ rfl
        · split at h
          · cases h
          · cases h
            exact hparts
      · split at h
        · cases h
        · cases h
          exact hparts

/-- **What is taken for a token, or is concerned where there is none, is a prefix.** -/
theorem token_isPrefix (c : Char) (rest : List Char) :
    (∀ kind taken, token c rest = .ok (kind, taken) → taken <+: c :: rest) ∧
      ∀ flaw, token c rest = .error flaw → flaw.chars <+: c :: rest := by
  have hquoted := quotedPart_isPrefix rest
  unfold token
  constructor
  · intro kind taken h
    split at h
    · split at h
      · next hpart =>
        cases h
        rw [hpart] at hquoted
        exact List.cons_prefix_cons.2 ⟨rfl, hquoted⟩
      · cases h
    · split at h
      · exact (numberToken_isPrefix _).1 _ _ h
      · split at h
        · cases h
          exact List.cons_prefix_cons.2 ⟨rfl, List.takeWhile_prefix _⟩
        · split at h
          · cases h
            exact List.cons_prefix_cons.2 ⟨rfl, List.nil_prefix⟩
          · cases h
  · intro flaw h
    split at h
    · split at h
      · cases h
      · next hpart =>
        cases h
        rw [hpart] at hquoted
        exact List.cons_prefix_cons.2 ⟨rfl, hquoted⟩
    · split at h
      · exact (numberToken_isPrefix _).2 _ h
      · split at h
        · cases h
        · split at h
          · cases h
          · cases h
            exact List.cons_prefix_cons.2 ⟨rfl, List.nil_prefix⟩

/-! ### Spans -/

/-- From a place between characters on, all spans fall between characters. -/
theorem scan_spans {fuel : Nat} (before : List Char) (h : source.toList = before ++ cs) :
    (∀ ts, scan fuel (Cursor.start.after before) cs = .ok ts →
      (∀ t ∈ ts.tokens, t.span.FallsBetween source) ∧ ts.ending.FallsBetween source) ∧
    ∀ e, scan fuel (Cursor.start.after before) cs = .error e → e.span.FallsBetween source := by
  induction fuel generalizing before cs with
  | zero =>
    refine ⟨fun ts hok => ?_, fun e he => by cases he⟩
    cases hok
    exact ⟨fun _ ht => absurd ht List.not_mem_nil, Cursor.fallsBetween_spanOf [] h⟩
  | succ fuel ih =>
    have hsplit := separator_append false cs
    rw [scan]
    generalize separator false cs = parts at hsplit ⊢
    obtain ⟨blank, rest⟩ := parts
    have hrest : source.toList = (before ++ blank) ++ rest := by
      rw [h, ← hsplit, List.append_assoc]
    dsimp only
    rw [← Cursor.after_append]
    cases rest with
    | nil =>
      refine ⟨fun ts hok => ?_, fun e he => by cases he⟩
      cases hok
      exact ⟨fun _ ht => absurd ht List.not_mem_nil, Cursor.fallsBetween_spanOf [] hrest⟩
    | cons c more =>
      dsimp only
      obtain ⟨htaken, hflaw⟩ := token_isPrefix c more
      cases htoken : token c more with
      | error flaw =>
        obtain ⟨left, hleft⟩ := hflaw flaw htoken
        refine ⟨fun ts hok => (by cases hok), fun e he => ?_⟩
        cases he
        rw [Flaw.span_error]
        exact Cursor.fallsBetween_spanOf _ (hrest.trans (by rw [hleft]))
      | ok found =>
        obtain ⟨kind, taken⟩ := found
        obtain ⟨left, hleft⟩ := htaken kind taken htoken
        have hspan : source.toList = (before ++ blank) ++ (taken ++ left) := hrest.trans (by rw [hleft])
        have hthere := Cursor.fallsBetween_spanOf taken hspan
        have hnext : source.toList = ((before ++ blank) ++ taken) ++ left :=
          hspan.trans (List.append_assoc ..).symm
        obtain ⟨hok', herror'⟩ := ih _ hnext
        have hdrop : (c :: more).drop taken.length = left := by rw [← hleft, List.drop_left]
        dsimp only
        rw [hdrop, ← Cursor.after_append]
        cases hscan : scan fuel (Cursor.start.after (before ++ blank ++ taken)) left with
        | error e =>
          refine ⟨fun ts hok => (by cases hok), fun e' he => ?_⟩
          cases he
          exact herror' e hscan
        | ok following =>
          obtain ⟨htokens, hending⟩ := hok' following hscan
          refine ⟨fun ts hok => ?_, fun e he => by cases he⟩
          cases hok
          exact ⟨List.forall_mem_cons.2 ⟨hthere, htokens⟩, hending⟩

end Lexer

/-- **Tokens and errors lie between characters.** -/
theorem tokenize_spans (source : String) :
    (∀ ts, tokenize source = .ok ts →
      (∀ t ∈ ts.tokens, t.span.FallsBetween source) ∧ ts.ending.FallsBetween source) ∧
    ∀ e, tokenize source = .error e → e.span.FallsBetween source :=
  Lexer.scan_spans [] rfl

end Waveflow
