import Waveflow.Source.Lexer
import Waveflow.Proofs.Source.Phrases
import Waveflow.Proofs.Source.Places

/-!
# Written tokens are read back

A token list is written out token by token: a name as it is, a text in quotes with its quotes and backslashes escaped, a
number as a decimal literal, any other token as its character.  Between the tokens stand separators, blanks and
comments, and at least one blank or comment where two words meet.  However this is done, the text is read as those
tokens.

What a token is read as depends on what follows it only if it is a word, and then it is enough that a word ends there
(`Stops`).  One lemma a token says so (`token_spelled`), and the text follows token by token (`scan_written`).
-/

namespace Waveflow

/-- The token is a name or a number, which what follows could go on. -/
def TokenKind.isWord : TokenKind → Bool
  | ident _ | number _ => true
  | _ => false

namespace Lexer

variable {c : Char} {cs ds rest sep : List Char} {kind : TokenKind} {n : NumberParts}

/-! ### Written texts -/

/-- One or more digits. -/
def IsDigits (cs : List Char) : Prop := cs ≠ [] ∧ ∀ c ∈ cs, isDigit c = true

/-- The ways to write the mark of an exponent. -/
def exponentMarks : List (List Char) := [['e'], ['E'], ['e', '+'], ['E', '+'], ['e', '-'], ['E', '-']]

/-- The parts of a literal `digits[.digits][(e|E)[+|-]digits]`. -/
structure NumberParts.IsLiteral (n : NumberParts) : Prop where
  whole : IsDigits n.whole
  fraction : n.fraction = [] ∨ ∃ ds, IsDigits ds ∧ n.fraction = '.' :: ds
  exponent : n.mark = [] ∧ n.exponent = [] ∨ n.mark ∈ exponentMarks ∧ IsDigits n.exponent

/-- A character inside quotes. -/
def escape (c : Char) : List Char := if c = '"' ∨ c = '\\' then ['\\', c] else [c]

/-- The characters write the token out. -/
inductive Spells : TokenKind → List Char → Prop
  | name {c : Char} {cs : List Char} : startsName c = true → (∀ d ∈ cs, inName d = true) →
      Spells (.ident (String.ofList (c :: cs))) (c :: cs)
  | text (s : String) : '\n' ∉ s.toList → Spells (.str s) ('"' :: (s.toList.flatMap escape ++ ['"']))
  | number {n : NumberParts} : n.IsLiteral → n.value.isFinite = true → Spells (.number n.value) n.text
  | mark {kind : TokenKind} : kind.isMark = true → Spells kind kind.text.toList

/-- Blanks, and comments that end with their line. -/
inductive IsSeparator : List Char → Prop
  | nil : IsSeparator []
  | blank {c : Char} {cs : List Char} : isBlank c = true → IsSeparator cs → IsSeparator (c :: cs)
  | comment {body cs : List Char} : '\n' ∉ body → IsSeparator cs →
      IsSeparator ('/' :: '/' :: (body ++ '\n' :: cs))

/-- A separator at the end of a text, where a last comment needs no end of line. -/
inductive IsTrailer : List Char → Prop
  | plain {cs : List Char} : IsSeparator cs → IsTrailer cs
  | comment {cs body : List Char} : IsSeparator cs → '\n' ∉ body → IsTrailer (cs ++ '/' :: '/' :: body)

/-- The text writes the tokens out with separators before, between and after them.  `glued` tells that a word stands
right before the text, so that a word must not follow at once. -/
inductive IsWritten : Bool → List TokenKind → List Char → Prop
  | done {glued : Bool} {cs : List Char} : IsTrailer cs → IsWritten glued [] cs
  | token {glued : Bool} {kind : TokenKind} {kinds : List TokenKind} {sep cs rest : List Char} : IsSeparator sep →
      (glued = true → kind.isWord = true → sep ≠ []) → Spells kind cs → IsWritten kind.isWord kinds rest →
      IsWritten glued (kind :: kinds) (sep ++ (cs ++ rest))

/-! ### Characters -/

lemma isDigit_iff : isDigit c = true ↔ 48 ≤ c.toNat ∧ c.toNat ≤ 57 := by
  simp only [isDigit, Bool.and_eq_true, decide_eq_true_eq, Char.le_def, UInt32.le_iff_toNat_le]
  rfl

lemma isLetter_iff : isLetter c = true ↔ 97 ≤ c.toNat ∧ c.toNat ≤ 122 ∨
    65 ≤ c.toNat ∧ c.toNat ≤ 90 := by
  simp only [isLetter, Bool.or_eq_true, Bool.and_eq_true, decide_eq_true_eq, Char.le_def, UInt32.le_iff_toNat_le]
  rfl

lemma inName_of_isDigit (h : isDigit c = true) : inName c = true := by
  simp [inName, h]

lemma inName_of_startsName (h : startsName c = true) : inName c = true := by
  simp only [startsName, inName, Bool.or_eq_true] at h ⊢
  tauto

/-- A character of another class is another character. -/
lemma ne_of_class {p : Char → Bool} {d : Char} (hc : p c = true) (hd : p d = false) : c ≠ d := by
  rintro rfl
  rw [hc] at hd
  cases hd

/-- What is not of a class is of none of its parts. -/
lemma eq_false_of_class {a b : Bool} (hpart : a = true → b = true) (hb : b = false) : a = false := by
  cases a with
  | false => rfl
  | true => exact absurd (hpart rfl) (by simp [hb])

lemma isDigit_of_startsName (h : startsName c = true) : isDigit c = false := by
  rw [← Bool.not_eq_true, isDigit_iff]
  rintro ⟨hlow, hhigh⟩
  simp only [startsName, Bool.or_eq_true, isLetter_iff, beq_iff_eq] at h
  rcases h with h | rfl
  · omega
  · exact absurd hhigh (by decide)

lemma isBlank_of_inName (h : inName c = true) : isBlank c = false := by
  have hne : ∀ d, inName d = false → c ≠ d := fun d hd => ne_of_class h hd
  simp [isBlank, hne ' ' (by decide), hne '\t' (by decide), hne '\n' (by decide), hne '\x0c' (by decide),
    hne '\r' (by decide)]

/-! ### Separators -/

/-- A token can begin here: no blank and no comment does. -/
def StartsToken (cs : List Char) : Prop := ∀ c ∈ cs.head?, isBlank c = false ∧ c ≠ '/'

lemma separator_comment {body : List Char} (hbody : '\n' ∉ body) (rest : List Char) :
    separator true (body ++ '\n' :: rest) =
      (body ++ '\n' :: (separator false rest).1, (separator false rest).2) := by
  induction body with
  | nil => simp [separator]
  | cons c body ih =>
    obtain ⟨hc, hbody⟩ := not_or.1 (mt List.mem_cons.2 hbody)
    have hgoes : (c != '\n') = true := by simpa using Ne.symm hc
    simp [separator, hgoes, ih hbody]

lemma separator_lastComment {body : List Char} (hbody : '\n' ∉ body) : separator true body = (body, []) := by
  induction body with
  | nil => rfl
  | cons c body ih =>
    obtain ⟨hc, hbody⟩ := not_or.1 (mt List.mem_cons.2 hbody)
    have hgoes : (c != '\n') = true := by simpa using Ne.symm hc
    simp [separator, hgoes, ih hbody]

/-- A comment that begins here is read as one. -/
lemma separator_slashes (cs : List Char) :
    separator false ('/' :: '/' :: cs) = ('/' :: '/' :: (separator true cs).1, (separator true cs).2) := by
  simp [separator, show isBlank '/' = false by decide]

/-- A separator is taken off and nothing else. -/
lemma separator_append_of_isSeparator (hsep : IsSeparator sep) (rest : List Char) :
    separator false (sep ++ rest) = (sep ++ (separator false rest).1, (separator false rest).2) := by
  induction hsep with
  | nil => rfl
  | blank hc _ ih => simp [separator, hc, ih]
  | comment hbody _ ih => simp [separator_slashes, separator_comment hbody, ih]

lemma separator_of_startsToken (h : StartsToken cs) : separator false cs = ([], cs) := by
  cases cs with
  | nil => rfl
  | cons c rest =>
    obtain ⟨hblank, hslash⟩ := h c rfl
    simp [separator, hblank, hslash]

lemma separator_of_isTrailer (h : IsTrailer cs) : separator false cs = (cs, []) := by
  cases h with
  | plain hsep => simpa [separator] using separator_append_of_isSeparator hsep []
  | comment hsep hbody =>
    rw [separator_append_of_isSeparator hsep, separator_slashes, separator_lastComment hbody]

/-! ### Where words end -/

/-- No word goes on here. -/
def Stops (cs : List Char) : Prop := ∀ c ∈ cs.head?, inName c = false ∧ c ≠ '.'

lemma takeWhile_append_of_stops {p : Char → Bool} (hcs : ∀ c ∈ cs, p c = true)
    (hrest : ∀ c ∈ rest.head?, p c = false) : (cs ++ rest).takeWhile p = cs := by
  rw [List.takeWhile_append_of_pos hcs]
  cases rest with
  | nil => simp
  | cons c rest => simp [hrest c rfl]

lemma stops_of_isSeparator (h : IsSeparator sep) (hne : sep ≠ []) (rest : List Char) : Stops (sep ++ rest) := by
  cases h with
  | nil => exact absurd rfl hne
  | blank hc _ =>
    rintro _ ⟨⟩
    exact ⟨Bool.eq_false_iff.2 fun hname => by simp [isBlank_of_inName hname] at hc, ne_of_class hc (by decide)⟩
  | comment _ _ =>
    rintro _ ⟨⟩
    decide

lemma stops_of_isTrailer (h : IsTrailer cs) : Stops cs := by
  cases h with
  | plain hsep =>
    by_cases hne : cs = []
    · subst hne
      rintro _ ⟨⟩
    · simpa using stops_of_isSeparator hsep hne []
  | @comment sep body hsep _ =>
    by_cases hne : sep = []
    · subst hne
      rintro _ ⟨⟩
      decide
    · exact stops_of_isSeparator hsep hne _

/-- A token begins with a character that is neither blank nor slash; if it is no word, with one that ends every word. -/
lemma exists_head_of_spells (h : Spells kind cs) : ∃ c more, cs = c :: more ∧ isBlank c = false ∧ c ≠ '/' ∧
    (kind.isWord = false → inName c = false ∧ c ≠ '.') := by
  cases h with
  | @name c cs hc _ =>
    have hname := inName_of_startsName hc
    exact ⟨c, cs, rfl, isBlank_of_inName hname, ne_of_class hname (by decide), fun hw => by cases hw⟩
  | text s _ => exact ⟨'"', _, rfl, by decide, by decide, fun _ => by decide⟩
  | @number n hn _ =>
    obtain ⟨hne, hdigits⟩ := hn.whole
    obtain ⟨c, more, hwhole⟩ := List.exists_cons_of_ne_nil hne
    have hname := inName_of_isDigit (hdigits c (by simp [hwhole]))
    refine ⟨c, more ++ n.fraction ++ n.mark ++ n.exponent, by simp [NumberParts.text, hwhole],
      isBlank_of_inName hname, ne_of_class hname (by decide), fun hw => by cases hw⟩
  | mark hmark =>
    cases kind with
    | ident _ | number _ | str _ => cases hmark
    | colon | semi | comma | eq | minus | lparen | rparen | lbrace | rbrace | lbracket | rbracket =>
      exact ⟨_, [], rfl, by decide, by decide, fun _ => by decide⟩

/-- After a word no word goes on. -/
lemma stops_of_isWritten {kinds : List TokenKind} (h : IsWritten true kinds cs) : Stops cs := by
  cases h with
  | done htrailer => exact stops_of_isTrailer htrailer
  | @token _ kind _ sep cs rest hsep hgap hspells _ =>
    by_cases hne : sep = []
    · subst hne
      obtain ⟨c, more, rfl, -, -, hend⟩ := exists_head_of_spells hspells
      have hword : kind.isWord = false := Bool.eq_false_iff.2 fun hword => hgap rfl hword rfl
      rintro _ ⟨⟩
      exact hend hword
    · exact stops_of_isSeparator hsep hne _

/-! ### Numbers -/

/-- What follows a number goes on neither its digits nor its point. -/
lemma head_of_stops (h : Stops cs) : ∀ c ∈ cs.head?, isDigit c = false ∧ c ≠ '.' := by
  intro c hc
  obtain ⟨hname, hpoint⟩ := h c hc
  exact ⟨eq_false_of_class inName_of_isDigit hname, hpoint⟩

/-- Nor does the exponent of a number, whether there is one or not. -/
lemma head_of_exponent (hn : n.IsLiteral) (hstop : Stops rest) :
    ∀ c ∈ (n.mark ++ (n.exponent ++ rest)).head?, isDigit c = false ∧ c ≠ '.' := by
  rcases hn.exponent with ⟨hmark, hexponent⟩ | ⟨hmark, -⟩
  · simpa only [hmark, hexponent, List.nil_append] using head_of_stops hstop
  · simp only [exponentMarks, List.mem_cons, List.not_mem_nil, or_false] at hmark
    rcases hmark with hmark | hmark | hmark | hmark | hmark | hmark <;>
    · rw [hmark]
      rintro _ ⟨⟩
      decide

lemma head_of_fraction (hn : n.IsLiteral) (hstop : Stops rest) :
    ∀ c ∈ (n.fraction ++ (n.mark ++ (n.exponent ++ rest))).head?, isDigit c = false := by
  rcases hn.fraction with hfraction | ⟨ds, -, hfraction⟩
  · rw [hfraction]
    exact fun c hc => (head_of_exponent hn hstop c hc).1
  · rw [hfraction]
    rintro _ ⟨⟩
    decide

lemma fractionPart_append (hn : n.IsLiteral) (hrest : ∀ c ∈ rest.head?, isDigit c = false ∧ c ≠ '.') :
    fractionPart (n.fraction ++ rest) = n.fraction := by
  rcases hn.fraction with hfraction | ⟨ds, ⟨hne, hdigits⟩, hfraction⟩
  · rw [hfraction]
    cases rest with
    | nil => rfl
    | cons c rest =>
      obtain ⟨-, hpoint⟩ := hrest c rfl
      rw [List.nil_append, fractionPart]
      simpa using hpoint
  · rw [hfraction, List.cons_append, fractionPart,
      takeWhile_append_of_stops hdigits fun c hc => (hrest c hc).1, if_neg hne]

lemma exponentMark_append (hn : n.IsLiteral) (hstop : Stops rest) :
    exponentMark (n.mark ++ (n.exponent ++ rest)) = n.mark := by
  rcases hn.exponent with ⟨hmark, hexponent⟩ | ⟨hmark, hne, hdigits⟩
  · rw [hmark, hexponent]
    cases rest with
    | nil => rfl
    | cons c rest =>
      have hname : inName c = false := (hstop c rfl).1
      have hsmall : c ≠ 'e' := by rintro rfl; cases hname
      have hcapital : c ≠ 'E' := by rintro rfl; cases hname
      simp [exponentMark, hsmall, hcapital]
  · -- the digits after the mark begin with no sign
    obtain ⟨d, more, hexponent⟩ := List.exists_cons_of_ne_nil hne
    have hdigit : isDigit d = true := hdigits d (by simp [hexponent])
    have hplus : d ≠ '+' := ne_of_class hdigit (by decide)
    have hminus : d ≠ '-' := ne_of_class hdigit (by decide)
    simp only [exponentMarks, List.mem_cons, List.not_mem_nil, or_false] at hmark
    rcases hmark with hmark | hmark | hmark | hmark | hmark | hmark <;>
      simp [hmark, hexponent, exponentMark, hplus, hminus]

/-- A literal is split into its parts. -/
lemma numberParts_append (hn : n.IsLiteral) (hstop : Stops rest) : numberParts (n.text ++ rest) = n := by
  have hsplit : n.text ++ rest = n.whole ++ (n.fraction ++ (n.mark ++ (n.exponent ++ rest))) := by
    simp [NumberParts.text]
  have hwhole := takeWhile_append_of_stops hn.whole.2 (head_of_fraction hn hstop)
  have hfraction := fractionPart_append hn (head_of_exponent hn hstop)
  have hexponent : (if n.mark = [] then [] else (n.exponent ++ rest).takeWhile isDigit) = n.exponent := by
    rcases hn.exponent with ⟨hmark, hexponent⟩ | ⟨hmark, -, hdigits⟩
    · rw [if_pos hmark, hexponent]
    · have hne : n.mark ≠ [] := by
        rintro hnil
        rw [hnil] at hmark
        revert hmark
        decide
      rw [if_neg hne, takeWhile_append_of_stops hdigits fun c hc => (head_of_stops hstop c hc).1]
  rw [hsplit, numberParts]
  simp only [hwhole, List.drop_left, hfraction, exponentMark_append hn hstop, hexponent]

/-- A literal is read as its value. -/
lemma numberToken_append (hn : n.IsLiteral) (hfinite : n.value.isFinite = true) (hstop : Stops rest) :
    numberToken (n.text ++ rest) = .ok (.number n.value, n.text) := by
  have hwhole : ¬ (n.mark ≠ [] ∧ n.exponent = []) := by
    rintro ⟨hmark, hexponent⟩
    rcases hn.exponent with ⟨hnone, -⟩ | ⟨-, hne, -⟩
    · exact hmark hnone
    · exact hne hexponent
  rw [numberToken]
  simp only [numberParts_append hn hstop, List.drop_left, if_neg hwhole, hfinite, if_true]
  cases rest with
  | nil => rfl
  | cons c rest =>
    have hname : startsName c = false := eq_false_of_class inName_of_startsName (hstop c rfl).1
    simp [hname]

/-! ### Quoted texts -/

/-- A quoted text is read up to its closing quote. -/
lemma quotedPart_escape (hcs : '\n' ∉ cs) (rest : List Char) :
    quotedPart (cs.flatMap escape ++ '"' :: rest) = .ok (cs.flatMap escape ++ ['"'], cs) := by
  induction cs with
  | nil => rfl
  | cons c cs ih =>
    obtain ⟨hc, hcs⟩ := not_or.1 (mt List.mem_cons.2 hcs)
    have hrest := ih hcs
    by_cases hescaped : c = '"' ∨ c = '\\'
    · have hchars : escape c = ['\\', c] := if_pos hescaped
      rcases hescaped with rfl | rfl
      · simp [hchars, quotedPart, hrest, Quoted.after]
      · simp [hchars, quotedPart, hrest, Quoted.after]
    · have hchars : escape c = [c] := if_neg hescaped
      obtain ⟨hquote, hslash⟩ := not_or.1 hescaped
      rw [List.flatMap_cons, hchars, List.singleton_append, List.cons_append, quotedPart, hrest]
      · rfl
      all_goals simp [hquote, hslash, Ne.symm hc]

/-! ### Tokens and texts -/

/-- **A written token is read back.**  A word is, where no word goes on after it. -/
theorem token_spelled (h : Spells kind (c :: cs)) (hstop : kind.isWord = true → Stops rest) :
    token c (cs ++ rest) = .ok (kind, c :: cs) := by
  generalize hchars : c :: cs = chars at h
  cases h with
  | @name d ds hd hds =>
    obtain ⟨rfl, rfl⟩ := List.cons.inj hchars
    have hquote : c ≠ '"' := ne_of_class hd (by decide)
    have htaken := takeWhile_append_of_stops hds fun e he => (hstop rfl e he).1
    simp [token, hquote, isDigit_of_startsName hd, hd, htaken]
  | text s hs =>
    obtain ⟨rfl, rfl⟩ := List.cons.inj hchars
    rw [token, if_pos rfl, List.append_assoc, List.singleton_append, quotedPart_escape hs]
    dsimp only
    rw [String.ofList_toList]
  | @number n hn hfinite =>
    obtain ⟨hne, hdigits⟩ := hn.whole
    obtain ⟨d, ds, hwhole⟩ := List.exists_cons_of_ne_nil hne
    have hdigit : isDigit c = true := by
      obtain rfl : c = d := by simpa [NumberParts.text, hwhole] using congrArg List.head? hchars
      exact hdigits c (by simp [hwhole])
    rw [token, if_neg (ne_of_class hdigit (by decide)), if_pos hdigit, ← List.cons_append, hchars]
    exact numberToken_append hn hfinite (hstop rfl)
  | mark hmark =>
    cases kind with
    | ident _ | number _ | str _ => cases hmark
    | colon | semi | comma | eq | minus | lparen | rparen | lbrace | rbrace | lbracket | rbracket =>
      obtain ⟨rfl, rfl⟩ := List.cons.inj hchars
      rfl

/-- **A written text is read back,** from any place on and up to its end. -/
theorem scan_written {glued : Bool} {ks : List TokenKind} (h : IsWritten glued ks cs) {fuel : Nat}
    (hfuel : cs.length < fuel) (place : Cursor) :
    ∃ ts, scan fuel place cs = .ok ts ∧ kinds ts.tokens = ks ∧ ts.ending = (place.after cs).spanOf [] := by
  induction h generalizing fuel place with
  | done htrailer =>
    obtain ⟨fuel, rfl⟩ := Nat.exists_eq_add_one_of_ne_zero (Nat.ne_zero_of_lt hfuel)
    rw [scan, separator_of_isTrailer htrailer]
    exact ⟨_, rfl, rfl, rfl⟩
  | @token _ kind ks sep cs rest hsep hgap hspells hwritten ih =>
    obtain ⟨fuel, rfl⟩ := Nat.exists_eq_add_one_of_ne_zero (Nat.ne_zero_of_lt hfuel)
    obtain ⟨c, more, rfl, hblank, hslash, -⟩ := exists_head_of_spells hspells
    have hstarts : StartsToken (c :: more ++ rest) := by
      rintro _ ⟨⟩
      exact ⟨hblank, hslash⟩
    have hstop : kind.isWord = true → Stops rest := fun hword => stops_of_isWritten (hword ▸ hwritten)
    have hlen : rest.length < fuel := by
      simp only [List.length_append, List.length_cons] at hfuel
      omega
    obtain ⟨ts, hscan, hkinds, hending⟩ := ih hlen ((place.after sep).after (c :: more))
    refine ⟨⟨⟨kind, (place.after sep).spanOf (c :: more)⟩ :: ts.tokens, ts.ending⟩,
      ?_, by simp [hkinds], ?_⟩
    · rw [scan, separator_append_of_isSeparator hsep, separator_of_startsToken hstarts]
      simp only [List.append_nil, List.cons_append, token_spelled hspells hstop]
      rw [← List.cons_append, List.drop_left, hscan]
      rfl
    · rw [Cursor.after_append, Cursor.after_append]
      exact hending

end Lexer

/-- **Tokens that are written out are read back,** whatever separates them, and nothing follows them but the end. -/
theorem tokenize_written {source : String} {ks : List TokenKind} (h : Lexer.IsWritten false ks source.toList) :
    ∃ ts, tokenize source = .ok ts ∧ kinds ts.tokens = ks ∧
      ts.ending = (Cursor.start.after source.toList).spanOf [] :=
  Lexer.scan_written h (Nat.lt_succ_self _) Cursor.start

/-- A literal with all its parts. -/
def crowdedNumber : Lexer.NumberParts := ⟨['2'], ['.', '5'], ['e', '-'], ['3']⟩

/-- A text with tokens of every class, most of them close together. -/
def crowdedText : String := "//f(\n f(2.5e-3,\"é\\\"//\")x //end"

def crowdedTokens : List TokenKind :=
  [.ident "f", .lparen, .number crowdedNumber.value, .comma, .str "é\"//", .rparen, .ident "x"]

theorem tokenize_written_crowded : Lexer.IsWritten false crowdedTokens crowdedText.toList ∧
    ∃ ts, tokenize crowdedText = .ok ts ∧ kinds ts.tokens = crowdedTokens := by
  have hsplit : crowdedText.toList = ('/' :: '/' :: (['f', '('] ++ '\n' :: [' '])) ++ (['f'] ++ ([] ++ (['('] ++
      ([] ++ (crowdedNumber.text ++ ([] ++ ([','] ++ ([] ++ (('"' :: ("é\"//".toList.flatMap Lexer.escape ++ ['"'])) ++
      ([] ++ ([')'] ++ ([] ++ (['x'] ++ ([' '] ++ '/' :: '/' :: ['e', 'n', 'd'])))))))))))))) := by
    decide +kernel
  have hnumber : crowdedNumber.IsLiteral :=
    ⟨⟨nofun, List.forall_mem_singleton.2 rfl⟩,
      .inr ⟨['5'], ⟨nofun, List.forall_mem_singleton.2 rfl⟩, rfl⟩,
      .inr ⟨by decide, nofun, List.forall_mem_singleton.2 rfl⟩⟩
  have hwritten : Lexer.IsWritten false crowdedTokens crowdedText.toList := by
    rw [hsplit]
    refine .token (.comment (by decide) (.blank rfl .nil)) nofun (.name rfl nofun) ?_
    refine .token .nil nofun (.mark rfl) ?_
    refine .token .nil nofun (.number hnumber (by decide +kernel)) ?_
    refine .token .nil nofun (.mark rfl) ?_
    refine .token .nil nofun (.text _ (by decide)) ?_
    refine .token .nil nofun (.mark rfl) ?_
    refine .token .nil nofun (.name rfl nofun) ?_
    exact .done (.comment (.blank rfl .nil) (by decide))
  obtain ⟨ts, hread, hkinds, -⟩ := tokenize_written hwritten
  exact ⟨hwritten, ts, hread, hkinds⟩

end Waveflow
