import Waveflow.Json.Printer
import Waveflow.Json.Reader
import Mathlib.Data.List.Basic
import Mathlib.Data.List.TakeWhile

/-!
# Written JSON text is read back

A text `ReadsAs` a value if the reader takes it as that value whatever stands behind it, as long as no number goes
on there. Quoted texts and whole numbers read as what they were written from; arrays and objects do if their parts
do, with any blanks in between.  So compact and indented text are read as the value that was written
(`parse?_render`), provided that this is so of the doubles in it (`ReadsBack`).
-/

namespace Waveflow.Json

variable {c : Char} {cs ds rest more b b' gap : List Char} {j x : Json} {p : Json × List Char} {fuel : Nat}

/-! ### Blanks -/

/-- Blanks only. -/
def IsBlank (b : List Char) : Prop := ∀ c ∈ b, c = ' ' ∨ c = '\n'

lemma skipBlank_append (h : IsBlank b) (cs : List Char) : skipBlank (b ++ cs) = skipBlank cs := by
  refine List.dropWhile_append_of_pos fun c hc => ?_
  rcases h c hc with rfl | rfl <;> rfl

lemma skipBlank_quote (cs : List Char) : skipBlank ('"' :: cs) = '"' :: cs := rfl

lemma skipBlank_colon (cs : List Char) : skipBlank (':' :: cs) = ':' :: cs := rfl

lemma skipBlank_comma (cs : List Char) : skipBlank (',' :: cs) = ',' :: cs := rfl

lemma value?_append (h : IsBlank b) (fuel : Nat) (cs : List Char) : value? fuel (b ++ cs) = value? fuel cs := by
  cases fuel with
  | zero => rw [value?, value?]
  | succ fuel => rw [value?, value?, skipBlank_append h]

lemma items?_append (h : IsBlank b) (fuel : Nat) (cs : List Char) : items? fuel (b ++ cs) = items? fuel cs := by
  cases fuel with
  | zero => rw [items?, items?]
  | succ fuel => rw [items?, items?, value?_append h]

lemma fields?_append (h : IsBlank b) (fuel : Nat) (cs : List Char) : fields? fuel (b ++ cs) = fields? fuel cs := by
  cases fuel with
  | zero => rw [fields?, fields?]
  | succ fuel => rw [fields?, fields?, skipBlank_append h]

lemma isBlank_nil : IsBlank [] := nofun

lemma isBlank_newline (depth : Nat) : IsBlank (newline depth).toList := by
  intro c hc
  simp only [newline, String.toList_ofList, List.mem_cons, List.mem_replicate] at hc
  rcases hc with rfl | ⟨-, rfl⟩
  · exact .inr rfl
  · exact .inl rfl

/-! ### Lists of options -/

/-- What was mapped is got back, if each of its items is. -/
lemma mapM_map_eq_some {α β : Type} {f : α → β} {g : β → Option α} {as : List α}
    (h : ∀ a ∈ as, g (f a) = some a) :
    (as.map f).mapM g = some as := by
  induction as with
  | nil => rfl
  | cons a as ih =>
    have htail := ih fun b hb => h b (List.mem_cons_of_mem _ hb)
    simp [List.mapM_cons, h a (List.mem_cons_self ..), htail]

lemma textOf?_map_some (s : String) : textOf? (s.toList.map some) = some s := by
  have hall : (s.toList.map some).mapM id = some s.toList := mapM_map_eq_some fun _ _ => rfl
  rw [textOf?, hall, Option.map_some, String.ofList_toList]

lemma ofFields_map (fs : List (String × Json)) : ofFields (fs.map fun e => (some e.1, e.2)) = obj fs := by
  have hall : (fs.map fun e => (some e.1, e.2)).mapM (fun e => e.1.map fun name => (name, e.2)) = some fs :=
    mapM_map_eq_some fun _ _ => rfl
  rw [ofFields, hall]

/-! ### Quoted text -/

lemma hexValue?_hexDigit : ∀ n < 16, hexValue? (hexDigit n) = some n := by decide

/-- A control character is written by its number. -/
lemma escaped?_number (h : c.toNat < 32) (cs : List Char) :
    escaped? ('u' :: '0' :: '0' :: hexDigit (c.toNat / 16) :: hexDigit (c.toNat % 16) :: cs) = some (some c, cs) := by
  have hzero : hexValue? '0' = some 0 := by decide
  have hhigh := hexValue?_hexDigit (c.toNat / 16) (by omega)
  have hlow := hexValue?_hexDigit (c.toNat % 16) (by omega)
  have hsum : 4096 * 0 + 256 * 0 + 16 * (c.toNat / 16) + c.toNat % 16 = c.toNat := by omega
  simp only [escaped?, hexWord?, hzero, hhigh, hlow, hsum, Option.bind_eq_bind, Option.bind_some]
  rw [if_neg (by omega), if_neg (by omega), Char.ofNat_toNat]

lemma quoted?_backslash (fuel : Nat) (h : escaped? cs = some (some c, rest)) :
    quoted? (fuel + 1) ('\\' :: cs) = (quoted? fuel rest).map fun p => (some c :: p.1, p.2) := by
  rw [quoted?, if_neg (by decide), if_pos rfl, h]
  simp only [Option.bind_eq_bind, Option.bind_some]
  cases quoted? fuel rest <;> rfl

/-- An escaped character is read as that character. -/
lemma quoted?_escape (fuel : Nat) (c : Char) (cs : List Char) :
    quoted? (fuel + 1) (escape c ++ cs) = (quoted? fuel cs).map fun p => (some c :: p.1, p.2) := by
  unfold escape
  split
  case h_8 hquote hbackslash _ _ _ _ _ =>
    split
    · next hcontrol => exact quoted?_backslash fuel (escaped?_number hcontrol cs)
    · next hcontrol =>
      rw [List.singleton_append, quoted?, if_neg hquote, if_neg hbackslash, if_neg hcontrol]
      cases quoted? fuel cs <;> rfl
  all_goals exact quoted?_backslash fuel rfl

lemma quoted?_flatMap_escape (s rest : List Char) (h : s.length < fuel) :
    quoted? fuel (s.flatMap escape ++ '"' :: rest) = some (s.map some, rest) := by
  induction s generalizing fuel with
  | nil =>
    obtain ⟨fuel, rfl⟩ := Nat.exists_eq_add_of_lt h
    simp [quoted?]
  | cons c s ih =>
    cases fuel with
    | zero => cases h
    | succ fuel =>
      rw [List.flatMap_cons, List.append_assoc, quoted?_escape, ih (Nat.lt_of_succ_lt_succ h)]
      rfl

lemma length_le_flatMap_escape (s : List Char) : s.length ≤ (s.flatMap escape).length := by
  induction s with
  | nil => exact Nat.le_refl _
  | cons c s ih =>
    have hpos : 0 < (escape c).length := by
      unfold escape
      repeat' split
      all_goals exact Nat.succ_pos _
    simp only [List.flatMap_cons, List.length_append, List.length_cons]
    omega

lemma toList_quote (s : String) : (quote s).toList = '"' :: (s.toList.flatMap escape ++ ['"']) := by
  simp [quote]

/-- Behind its opening quote a quoted text is read up to its closing one. -/
lemma quoted?_quote (s : String) (rest : List Char) :
    let tail := s.toList.flatMap escape ++ '"' :: rest
    quoted? (tail.length + 1) tail = some (s.toList.map some, rest) := by
  refine quoted?_flatMap_escape s.toList rest ?_
  have hle := length_le_flatMap_escape s.toList
  simp only [List.length_append]
  omega

/-! ### Numbers -/

/-- A number may go on with the character. -/
def inNumber (c : Char) : Bool := isDigit c || c == '.' || c == 'e' || c == 'E'

/-- No number goes on here. -/
def Stops (rest : List Char) : Prop := ∀ c ∈ rest.head?, inNumber c = false

lemma stops_nil : Stops [] := nofun

lemma stops_cons (h : inNumber c = false) (cs : List Char) : Stops (c :: cs) := by
  rintro d ⟨⟩
  exact h

/-- What is taken from a text does not depend on what stands behind it, if no number goes on there. -/
def Local {α : Type} (f : List Char → Option (α × List Char)) : Prop :=
  ∀ cs left rest a, Stops rest → f cs = some (a, left) → f (cs ++ rest) = some (a, left ++ rest)

section Local

variable {α β : Type} {f g h : List Char → Option (α × List Char)}

lemma Local.map (hf : Local f) (g : α → β) : Local fun cs => (f cs).map fun p => (g p.1, p.2) := by
  intro cs left rest b hstop hcs
  obtain ⟨⟨a, left'⟩, ha, heq⟩ := Option.map_eq_some_iff.1 hcs
  cases heq
  simp only [hf _ _ _ _ hstop ha, Option.map_some]

lemma Local.bind {k : α → List Char → Option (β × List Char)} (hf : Local f) (hk : ∀ a, Local (k a)) :
    Local fun cs => (f cs).bind fun p => k p.1 p.2 := by
  intro cs left rest b hstop hcs
  obtain ⟨⟨a, middle⟩, ha, hb⟩ := Option.bind_eq_some_iff.1 hcs
  simp only [hf _ _ _ _ hstop ha, Option.bind_some]
  exact hk a _ _ _ _ hstop hb

/-- A choice by the first character, which is one of a number or without which nothing is taken from an empty text. -/
lemma Local.choice (d : Char) (hg : Local g) (hh : Local h) (hsome : ∀ cs, f (d :: cs) = g cs)
    (hnone : ∀ cs, cs.head? ≠ some d → f cs = h cs) (hd : inNumber d = true ∨ h [] = none) : Local f := by
  intro cs left rest a hstop hcs
  cases cs with
  | nil =>
    rw [hnone [] nofun] at hcs
    rcases hd with hd | hd
    · have hrest : rest.head? ≠ some d := fun hhead => by simpa [hd] using hstop d hhead
      rw [List.nil_append, hnone rest hrest]
      exact hh [] left rest a hstop hcs
    · rw [hd] at hcs
      cases hcs
  | cons c cs =>
    by_cases hc : c = d
    · subst hc
      rw [hsome] at hcs
      rw [List.cons_append, hsome]
      exact hg _ _ _ _ hstop hcs
    · have hhead : ∀ cs, f (c :: cs) = h (c :: cs) := fun cs => hnone _ (by simpa using hc)
      rw [hhead] at hcs
      rw [List.cons_append, hhead]
      exact hh _ _ _ _ hstop hcs

lemma local_some (a : α) : Local fun cs => some (a, cs) := by
  rintro cs _ rest _ - ⟨⟩
  rfl

end Local

lemma Stops.isDigit (h : Stops rest) : ∀ c ∈ rest.head?, isDigit c = false := by
  intro c hc
  have hstop := h c hc
  simp only [inNumber, Bool.or_eq_false_iff] at hstop
  exact hstop.1.1.1

lemma digits?_local : Local digits? := by
  intro cs left rest ds hstop hcs
  have htake : rest.takeWhile isDigit = [] := by
    cases rest with
    | nil => rfl
    | cons c rest => simp [hstop.isDigit c rfl]
  have hdrop : rest.dropWhile isDigit = rest := by
    have hsplit := List.takeWhile_append_dropWhile (p := isDigit) (l := rest)
    rwa [htake] at hsplit
  have htake' : (cs ++ rest).takeWhile isDigit = cs.takeWhile isDigit := by
    rw [List.takeWhile_append, htake, List.append_nil]
    split
    · next hall => exact ((List.takeWhile_prefix _).eq_of_length hall).symm
    · rfl
  have hdrop' : (cs ++ rest).dropWhile isDigit = cs.dropWhile isDigit ++ rest := by
    rw [List.dropWhile_append, hdrop]
    split
    · next hnone => rw [List.isEmpty_iff.1 hnone, List.nil_append]
    · rfl
  unfold digits? at hcs ⊢
  rw [htake', hdrop']
  split at hcs
  · cases hcs
  · cases hcs
    rfl

lemma whole?_of_head? (h : cs.head? ≠ some '0') : whole? cs = digits? cs := by
  unfold whole?
  split <;> simp_all

lemma whole?_local : Local whole? := by
  refine .choice '0' (fun cs left rest ds hstop hcs => ?_) digits?_local (fun _ => rfl)
    (fun _ => whole?_of_head?) (.inr rfl)
  cases cs with
  | nil =>
    cases hcs
    cases rest with
    | nil => rfl
    | cons c rest => simp [whole?, hstop.isDigit c rfl]
  | cons c cs =>
    simp only [whole?, List.cons_append] at hcs ⊢
    split at hcs
    · cases hcs
    · next hc =>
      cases hcs
      rw [if_neg hc]
      rfl

/-- A sequence of digits, with a minus sign or without one. -/
lemma signed_local : Local fun cs => match cs with
    | '-' :: rest => (digits? rest).map fun p => (-(Decimal.natOf p.1 : Int), p.2)
    | _ => (digits? cs).map fun p => ((Decimal.natOf p.1 : Int), p.2) := by
  have hunsigned := digits?_local.map fun ds => (Decimal.natOf ds : Int)
  refine .choice '-' (digits?_local.map fun ds => -(Decimal.natOf ds : Int)) hunsigned (fun _ => rfl)
    (fun cs hcs => ?_) (.inr rfl)
  split <;> simp_all

lemma exponent?_local : Local exponent? := by
  have hunsigned := digits?_local.map fun ds => (Decimal.natOf ds : Int)
  refine .choice '+' hunsigned signed_local (fun _ => rfl) (fun cs hcs => ?_) (.inr rfl)
  unfold exponent?
  split <;> simp_all

lemma fraction?_local : Local fraction? := by
  refine .choice '.' (digits?_local.map some) (local_some none) (fun _ => rfl) (fun cs hcs => ?_) (.inl rfl)
  unfold fraction?
  split <;> simp_all

/-- An exponent with a capital mark, if there is one. -/
lemma capital_local : Local fun cs => match cs with
    | 'E' :: rest => (exponent? rest).map fun p => (some p.1, p.2)
    | _ => some (none, cs) := by
  refine .choice 'E' (exponent?_local.map some) (local_some none) (fun _ => rfl) (fun cs hcs => ?_) (.inl rfl)
  split <;> simp_all

lemma scale?_local : Local scale? := by
  refine .choice 'e' (exponent?_local.map some) capital_local (fun _ => rfl) (fun cs hcs => ?_) (.inl rfl)
  unfold scale?
  split <;> simp_all

lemma ofParts_local (negative : Bool) (whole : List Char) (fraction : Option (List Char)) (exponent : Option Int) :
    Local fun rest => match fraction, exponent with
      | none, none => some (ofParts negative whole none, rest)
      | _, _ => some (ofParts negative whole (some (fraction.getD [], exponent.getD 0)), rest) := by
  cases fraction <;> cases exponent <;> exact local_some _

lemma unsigned?_local (negative : Bool) : Local (unsigned? negative) :=
  whole?_local.bind fun whole => fraction?_local.bind fun fraction =>
    scale?_local.bind (ofParts_local negative whole fraction)

lemma number?_of_head? (h : cs.head? ≠ some '-') : number? cs = unsigned? false cs := by
  unfold number?
  split <;> simp_all

/-- A number is read up to where it stops. -/
lemma number?_local : Local number? :=
  .choice '-' (unsigned?_local true) (unsigned?_local false) (fun _ => rfl) (fun _ => number?_of_head?) (.inr rfl)

/-- No whole number but zero begins with a zero. -/
lemma head?_toDigits (n : Nat) (hn : n ≠ 0) : (Nat.toDigits 10 n).head? ≠ some '0' := by
  induction n using Nat.strongRecOn with
  | ind n ih =>
    by_cases hlt : n < 10
    · have hdigit : ∀ m < 10, m ≠ 0 → m.digitChar ≠ '0' := by decide
      rw [Nat.toDigits_of_lt_base hlt]
      simpa using hdigit n hlt hn
    · rw [Nat.toDigits_of_base_le (by omega) (by omega), List.head?_append_of_ne_nil _ Nat.toDigits_ne_nil]
      exact ih (n / 10) (by omega) (by omega)

lemma isDigit_of_mem_toDigits {n : Nat} (h : c ∈ Nat.toDigits 10 n) : isDigit c = true := by
  have hdigit := Nat.isDigit_of_mem_toDigits (by decide) (by decide) h
  simpa [isDigit, Char.isDigit, Char.le_def] using hdigit

lemma digits?_toDigits (n : Nat) : digits? (Nat.toDigits 10 n) = some (Nat.toDigits 10 n, []) := by
  have htake : (Nat.toDigits 10 n).takeWhile isDigit = Nat.toDigits 10 n :=
    List.takeWhile_eq_self_iff.2 fun _ => isDigit_of_mem_toDigits
  have hdrop : (Nat.toDigits 10 n).dropWhile isDigit = [] :=
    List.dropWhile_eq_nil_iff.2 fun _ => isDigit_of_mem_toDigits
  obtain ⟨d, ds, heq⟩ := List.exists_cons_of_ne_nil (Nat.toDigits_ne_nil (n := n) (b := 10))
  rw [digits?, htake, hdrop, heq]

/-- A whole number is read as written. -/
lemma number?_toString {n : Nat} (h : n < longLimit) : number? (toString n).toList = some (int n, []) := by
  have hvalue : Decimal.natOf (Nat.toDigits 10 n) = n := calc
    Decimal.natOf (Nat.toDigits 10 n) = Nat.ofDigitChars 10 (Nat.toDigits 10 n) 0 := Nat.ofDigitChars_eq_foldl.symm
    _ = n := Nat.ofDigitChars_ten_toDigits
  have hwhole : whole? (Nat.toDigits 10 n) = some (Nat.toDigits 10 n, []) := by
    by_cases hn : n = 0
    · subst hn
      rfl
    · rw [whole?_of_head? (head?_toDigits n hn), digits?_toDigits]
  have hsign : (Nat.toDigits 10 n).head? ≠ some '-' := by
    intro hhead
    cases isDigit_of_mem_toDigits (List.mem_of_head? hhead)
  rw [Nat.toString_eq_ofList_toDigits, String.toList_ofList, number?_of_head? hsign, unsigned?, hwhole]
  simp [fraction?, scale?, ofParts, hvalue, h]

/-- The text of the double is a number that is read as the double.  A reader that rounds twice may miss a double
with many digits in its last place. -/
def ReadsBack (x : Float) : Prop := number? (number.finite x).toList = some (float x, [])

/-- A finite double that reads back. -/
structure Exact (x : Float) : Prop where
  finite : x.isFinite = true
  readsBack : ReadsBack x

/-! ### Values -/

/-- The text is read as the value, whatever stands behind it, if no number goes on there.  Each character of the
text pays for two steps of the reader: an item is one step, and its value another. -/
def ReadsAs (cs : List Char) (j : Json) : Prop :=
  ∀ (fuel : Nat) (rest : List Char), 2 * cs.length ≤ fuel → Stops rest →
    value? fuel (cs ++ rest) = some (j, rest)

/-- A value that is read begins with no closing bracket. -/
lemma skipBlank_ne_rbracket (h : value? fuel cs = some p) (rest : List Char) : skipBlank cs ≠ ']' :: rest := by
  intro hcs
  cases fuel with
  | zero =>
    rw [value?] at h
    cases h
  | succ fuel =>
    rw [value?, hcs] at h
    cases h

/-- A number begins with a digit or a sign. -/
lemma head?_of_number? (h : number? cs = some p) : ∃ c, cs.head? = some c ∧ (isDigit c = true ∨ c = '-') := by
  cases cs with
  | nil => cases h
  | cons c cs =>
    refine ⟨c, rfl, or_iff_not_imp_right.2 fun hminus => ?_⟩
    by_contra hdigit
    have hzero : c ≠ '0' := by
      rintro rfl
      exact hdigit rfl
    have hnone : whole? (c :: cs) = none := by
      rw [whole?_of_head? (by simpa using hzero), digits?, List.takeWhile_cons_of_neg hdigit]
    rw [number?_of_head? (by simpa using hminus), unsigned?, hnone] at h
    cases h

lemma value?_of_number? (h : number? cs = some p) (fuel : Nat) : value? (fuel + 1) cs = some p := by
  obtain ⟨c, hhead, hc⟩ := head?_of_number? h
  cases cs with
  | nil => cases hhead
  | cons d cs =>
    cases hhead
    have hne : ∀ d, isDigit d = false ∧ d ≠ '-' → c ≠ d := by
      rintro d ⟨hdigit, hminus⟩ rfl
      rcases hc with hc | hc
      · rw [hdigit] at hc
        cases hc
      · exact hminus hc
    have hskip : skipBlank (c :: cs) = c :: cs := by
      simp [skipBlank, hne ' ' (by decide), hne '\n' (by decide), hne '\t' (by decide), hne '\r' (by decide)]
    rw [value?, hskip, ← h]
    simp [hne 'n' (by decide), hne 't' (by decide), hne 'f' (by decide), hne '"' (by decide), hne '[' (by decide),
      hne '\x7b' (by decide)]

lemma readsAs_of_number? (h : number? cs = some (j, [])) : ReadsAs cs j := by
  intro fuel rest hfuel hstop
  cases fuel with
  | zero =>
    have hnil : cs = [] := List.length_eq_zero_iff.1 (by omega)
    subst hnil
    cases h
  | succ fuel => exact value?_of_number? (number?_local _ _ _ _ hstop h) fuel

lemma readsAs_null : ReadsAs "null".toList null := by
  intro fuel rest hfuel _
  cases fuel with
  | zero => cases hfuel
  | succ fuel =>
    rw [value?]
    rfl

lemma readsAs_bool (b : Bool) : ReadsAs (if b then "true" else "false").toList (bool b) := by
  intro fuel rest hfuel _
  cases fuel with
  | zero => cases b <;> cases hfuel
  | succ fuel =>
    rw [value?]
    cases b <;> rfl

lemma readsAs_quote (s : String) : ReadsAs (quote s).toList (str s) := by
  intro fuel rest hfuel _
  rw [toList_quote] at hfuel ⊢
  cases fuel with
  | zero => cases hfuel
  | succ fuel =>
    have hvalue : ∀ cs, value? (fuel + 1) ('"' :: cs) =
        (quoted? (cs.length + 1) cs).map fun p => (ofText (textOf? p.1), p.2) := fun cs => by rw [value?]; rfl
    rw [List.cons_append, List.append_assoc, List.singleton_append, hvalue, quoted?_quote, Option.map_some,
      textOf?_map_some]
    rfl

/-! ### Arrays and objects -/

section Parts

variable {text : Json → List Char} {xs : List Json} {f : String × Json} {fs : List (String × Json)}

/-- The items of an array after the first, with blanks before each. -/
def itemsText (text : Json → List Char) (b : List Char) (xs : List Json) : List Char :=
  xs.flatMap fun x => ',' :: (b ++ text x)

/-- A field of an object, with blanks before its value. -/
def fieldText (text : Json → List Char) (gap : List Char) (f : String × Json) : List Char :=
  (quote f.1).toList ++ ':' :: (gap ++ text f.2)

/-- The fields of an object after the first, with blanks before each. -/
def fieldsText (text : Json → List Char) (gap b : List Char) (fs : List (String × Json)) : List Char :=
  fs.flatMap fun f => ',' :: (b ++ fieldText text gap f)

lemma stops_blank (hb : IsBlank b) (hc : inNumber c = false) (rest : List Char) : Stops (b ++ c :: rest) := by
  cases b with
  | nil => exact stops_cons hc rest
  | cons d b =>
    refine stops_cons ?_ _
    rcases hb d (List.mem_cons_self ..) with rfl | rfl <;> rfl

lemma items?_last (h : ReadsAs (text x) x) (hfuel : 2 * (text x).length ≤ fuel) (hstop : Stops rest)
    (hskip : skipBlank rest = ']' :: more) : items? (fuel + 1) (text x ++ rest) = some ([x], more) := by
  rw [items?, h fuel rest hfuel hstop]
  simp only [Option.bind_eq_bind, Option.bind_some, hskip]

lemma items?_next (h : ReadsAs (text x) x) (hfuel : 2 * (text x).length ≤ fuel)
    (hmore : items? fuel more = some (xs, rest)) : items? (fuel + 1) (text x ++ ',' :: more) =
      some (x :: xs, rest) := by
  rw [items?, h fuel _ hfuel (stops_cons rfl more)]
  simp only [Option.bind_eq_bind, Option.bind_some, skipBlank_comma, hmore]

/-- Items are read up to the closing bracket. -/
lemma items?_of_readsAs (hb : IsBlank b) (hb' : IsBlank b') (h : ∀ y ∈ x :: xs, ReadsAs (text y) y)
    (hfuel : 2 * (text x ++ itemsText text b xs).length < fuel) (rest : List Char) :
    items? fuel (text x ++ (itemsText text b xs ++ (b' ++ ']' :: rest))) = some (x :: xs, rest) := by
  induction xs generalizing x fuel with
  | nil =>
    obtain ⟨fuel, rfl⟩ := Nat.exists_eq_succ_of_ne_zero (Nat.ne_zero_of_lt hfuel)
    rw [itemsText, List.flatMap_nil, List.append_nil] at hfuel
    exact items?_last (h x (List.mem_cons_self ..)) (by omega) (stops_blank hb' rfl rest) (skipBlank_append hb' _)
  | cons y ys ih =>
    obtain ⟨fuel, rfl⟩ := Nat.exists_eq_succ_of_ne_zero (Nat.ne_zero_of_lt hfuel)
    have hlen : (itemsText text b (y :: ys)).length = b.length + (text y ++ itemsText text b ys).length + 1 := by
      simp only [itemsText, List.flatMap_cons, List.length_cons, List.length_append]
      omega
    rw [List.length_append, hlen] at hfuel
    have hys := ih (fun z hz => h z (List.mem_cons_of_mem _ hz)) (by omega : _ < fuel)
    have htext : itemsText text b (y :: ys) ++ (b' ++ ']' :: rest) =
        ',' :: (b ++ (text y ++ (itemsText text b ys ++ (b' ++ ']' :: rest)))) := by simp [itemsText]
    rw [htext]
    exact items?_next (h x (List.mem_cons_self ..)) (by omega) (by rw [items?_append hb, hys])

lemma value?_bracket (fuel : Nat) (cs : List Char) :
    value? (fuel + 1) ('[' :: cs) = match skipBlank cs with
      | ']' :: rest => some (arr [], rest)
      | _ => (items? fuel cs).map fun p => (arr p.1, p.2) := by
  rw [value?]
  rfl

lemma value?_brace (fuel : Nat) (cs : List Char) :
    value? (fuel + 1) ('\x7b' :: cs) = match skipBlank cs with
      | '\x7d' :: rest => some (obj [], rest)
      | _ => (fields? fuel cs).map fun p => (ofFields p.1, p.2) := by
  rw [value?]
  rfl

lemma value?_bracket_of_ne {cs : List Char} (fuel : Nat) (h : ∀ rest, skipBlank cs ≠ ']' :: rest) :
    value? (fuel + 1) ('[' :: cs) = (items? fuel cs).map fun p => (arr p.1, p.2) := by
  rw [value?_bracket]
  split
  · next rest heq => exact absurd heq (h rest)
  · rfl

/-- An array is read if its items are. -/
lemma readsAs_arr (text : Json → List Char) (hb : IsBlank b) (hb' : IsBlank b')
    (h : ∀ y ∈ x :: xs, ReadsAs (text y) y) :
    ReadsAs ('[' :: (b ++ (text x ++ (itemsText text b xs ++ (b' ++ [']']))))) (arr (x :: xs)) := by
  intro fuel rest hfuel _
  simp only [List.length_cons, List.length_append, List.length_nil] at hfuel
  obtain ⟨fuel, rfl⟩ := Nat.exists_eq_succ_of_ne_zero (show fuel ≠ 0 by omega)
  have hlen : 2 * (text x ++ itemsText text b xs).length < fuel := by
    rw [List.length_append]
    omega
  have hitems := items?_of_readsAs hb hb' h hlen rest
  have hstop : Stops (itemsText text b xs ++ (b' ++ ']' :: rest)) := by
    cases xs with
    | nil => exact stops_blank hb' rfl rest
    | cons y ys => exact stops_cons rfl _
  have hopen : ∀ more, skipBlank (b ++ (text x ++ (itemsText text b xs ++ (b' ++ ']' :: rest)))) ≠ ']' :: more := by
    rw [skipBlank_append hb]
    exact skipBlank_ne_rbracket (h x (List.mem_cons_self ..) _ _ (Nat.le_refl _) hstop)
  simp only [List.cons_append, List.append_assoc, List.nil_append]
  rw [value?_bracket_of_ne fuel hopen, items?_append hb, hitems]
  rfl

lemma value?_field (hgap : IsBlank gap) (h : ReadsAs (text f.2) f.2)
    (hfuel : 2 * (fieldText text gap f).length ≤ fuel)
    (hstop : Stops rest) : value? fuel (gap ++ (text f.2 ++ rest)) = some (f.2, rest) := by
  rw [value?_append hgap]
  refine h fuel rest ?_ hstop
  simp only [fieldText, List.length_append, List.length_cons] at hfuel
  omega

lemma fieldText_append (text : Json → List Char) (gap : List Char) (f : String × Json) (rest : List Char) :
    fieldText text gap f ++ rest =
      '"' :: (f.1.toList.flatMap escape ++ '"' :: (':' :: (gap ++ (text f.2 ++ rest)))) := by
  simp [fieldText, toList_quote]

lemma fields?_last (hgap : IsBlank gap) (h : ReadsAs (text f.2) f.2)
    (hfuel : 2 * (fieldText text gap f).length ≤ fuel)
    (hstop : Stops rest) (hskip : skipBlank rest = '\x7d' :: more) :
    fields? (fuel + 1) (fieldText text gap f ++ rest) = some ([(some f.1, f.2)], more) := by
  rw [fieldText_append, fields?, skipBlank_quote]
  simp only [quoted?_quote, Option.bind_eq_bind, Option.bind_some, skipBlank_colon, value?_field hgap h hfuel hstop,
    hskip, textOf?_map_some]

lemma fields?_next {es : List (Option String × Json)} (hgap : IsBlank gap) (h : ReadsAs (text f.2) f.2)
    (hfuel : 2 * (fieldText text gap f).length ≤ fuel) (hmore : fields? fuel more = some (es, rest)) :
    fields? (fuel + 1) (fieldText text gap f ++ ',' :: more) = some ((some f.1, f.2) :: es, rest) := by
  have hstop : Stops (',' :: more) := stops_cons rfl more
  rw [fieldText_append, fields?, skipBlank_quote]
  simp only [quoted?_quote, Option.bind_eq_bind, Option.bind_some, skipBlank_colon, value?_field hgap h hfuel hstop,
    skipBlank_comma, textOf?_map_some, hmore]

/-- Fields are read up to the closing brace. -/
lemma fields?_of_readsAs (hb : IsBlank b) (hb' : IsBlank b') (hgap : IsBlank gap)
    (h : ∀ e ∈ f :: fs, ReadsAs (text e.2) e.2)
    (hfuel : 2 * (fieldText text gap f ++ fieldsText text gap b fs).length < fuel) (rest : List Char) :
    fields? fuel (fieldText text gap f ++ (fieldsText text gap b fs ++ (b' ++ '\x7d' :: rest))) =
      some ((f :: fs).map fun e => (some e.1, e.2), rest) := by
  induction fs generalizing f fuel with
  | nil =>
    obtain ⟨fuel, rfl⟩ := Nat.exists_eq_succ_of_ne_zero (Nat.ne_zero_of_lt hfuel)
    rw [fieldsText, List.flatMap_nil, List.append_nil] at hfuel
    exact fields?_last hgap (h f (List.mem_cons_self ..)) (by omega) (stops_blank hb' rfl rest) (skipBlank_append hb' _)
  | cons e es ih =>
    obtain ⟨fuel, rfl⟩ := Nat.exists_eq_succ_of_ne_zero (Nat.ne_zero_of_lt hfuel)
    have hlen : (fieldsText text gap b (e :: es)).length =
        b.length + (fieldText text gap e ++ fieldsText text gap b es).length + 1 := by
      simp only [fieldsText, List.flatMap_cons, List.length_cons, List.length_append]
      omega
    rw [List.length_append, hlen] at hfuel
    have hes := ih (fun z hz => h z (List.mem_cons_of_mem _ hz)) (by omega : _ < fuel)
    have htext : fieldsText text gap b (e :: es) ++ (b' ++ '\x7d' :: rest) =
        ',' :: (b ++ (fieldText text gap e ++ (fieldsText text gap b es ++ (b' ++ '\x7d' :: rest)))) := by
      simp [fieldsText]
    rw [htext]
    exact fields?_next hgap (h f (List.mem_cons_self ..)) (by omega) (by rw [fields?_append hb, hes])

/-- An object is read if the values of its fields are. -/
lemma readsAs_obj (text : Json → List Char) (hb : IsBlank b) (hb' : IsBlank b') (hgap : IsBlank gap)
    (h : ∀ e ∈ f :: fs, ReadsAs (text e.2) e.2) :
    ReadsAs ('\x7b' :: (b ++ (fieldText text gap f ++ (fieldsText text gap b fs ++ (b' ++ ['\x7d'])))))
      (obj (f :: fs)) := by
  intro fuel rest hfuel _
  simp only [List.length_cons, List.length_append, List.length_nil] at hfuel
  obtain ⟨fuel, rfl⟩ := Nat.exists_eq_succ_of_ne_zero (show fuel ≠ 0 by omega)
  have hlen : 2 * (fieldText text gap f ++ fieldsText text gap b fs).length < fuel := by
    rw [List.length_append]
    omega
  have hfields := fields?_of_readsAs hb hb' hgap h hlen rest
  simp only [List.cons_append, List.append_assoc, List.nil_append]
  rw [value?_brace, skipBlank_append hb, fields?_append hb, hfields, fieldText_append, skipBlank_quote, Option.map_some,
    ofFields_map]
  rfl

end Parts

/-! ### Whole texts -/

/-- The text of the value can be read: its counters have at most 64 bits, and its doubles are finite and read back. -/
inductive Legible : Json → Prop
  | null : Legible null
  | bool (b : Bool) : Legible (bool b)
  | nat {n : Nat} : n < longLimit → Legible (nat n)
  | float {x : Float} : Exact x → Legible (float x)
  | str (s : String) : Legible (str s)
  | arr {xs : List Json} : (∀ x ∈ xs, Legible x) → Legible (arr xs)
  | obj {fs : List (String × Json)} : (∀ f ∈ fs, Legible f.2) → Legible (obj fs)

lemma readsAs_nat {n : Nat} (h : n < longLimit) : ReadsAs (toString (n : Int)).toList (nat n) :=
  readsAs_of_number? (number?_toString h)

lemma readsAs_float {y : Float} (h : Exact y) : ReadsAs (floatText y).toList (float y) := by
  rw [floatText, if_pos h.finite]
  exact readsAs_of_number? h.readsBack

lemma readsAs_empty : ReadsAs "[]".toList (arr []) ∧ ReadsAs "\x7b\x7d".toList (obj []) := by
  refine ⟨fun fuel rest hfuel _ => ?_, fun fuel rest hfuel _ => ?_⟩ <;> cases fuel with
  | zero => cases hfuel
  | succ fuel =>
    rw [value?]
    rfl

lemma toList_compactItems (xs : List Json) :
    (compactItems xs).toList = itemsText (fun x => (compact x).toList) [] xs := by
  induction xs with
  | nil => simp [compactItems, itemsText]
  | cons x xs ih => simp [compactItems, ih, itemsText]

lemma toList_compactFields (fs : List (String × Json)) :
    (compactFields fs).toList = fieldsText (fun x => (compact x).toList) [] [] fs := by
  induction fs with
  | nil => simp [compactFields, fieldsText]
  | cons f fs ih => simp [compactFields, ih, fieldsText, fieldText]

/-- Compact text is read as the value. -/
theorem readsAs_compact (h : Legible j) : ReadsAs (compact j).toList j := by
  induction h with
  | null => exact readsAs_null
  | bool b => exact readsAs_bool b
  | nat hn => exact readsAs_nat hn
  | float hexact => exact readsAs_float hexact
  | str s => exact readsAs_quote s
  | @arr xs _ ih =>
    cases xs with
    | nil => exact readsAs_empty.1
    | cons x xs =>
      have hread := readsAs_arr (fun x => (compact x).toList) isBlank_nil isBlank_nil ih
      simpa [compact, toList_compactItems] using hread
  | @obj fs _ ih =>
    cases fs with
    | nil => exact readsAs_empty.2
    | cons f fs =>
      have hread := readsAs_obj (fun x => (compact x).toList) isBlank_nil isBlank_nil isBlank_nil ih
      simpa [compact, toList_compactFields, fieldText] using hread

lemma toList_indentedItems (depth : Nat) (xs : List Json) :
    (indentedItems depth xs).toList = itemsText (fun x => (indented depth x).toList) (newline depth).toList xs := by
  induction xs with
  | nil => simp [indentedItems, itemsText]
  | cons x xs ih => simp [indentedItems, ih, itemsText]

lemma toList_indentedFields (depth : Nat) (fs : List (String × Json)) : (indentedFields depth fs).toList =
    fieldsText (fun x => (indented depth x).toList) [' '] (newline depth).toList fs := by
  induction fs with
  | nil => simp [indentedFields, fieldsText]
  | cons f fs ih => simp [indentedFields, ih, fieldsText, fieldText]

/-- Indented text is read as the value, at any depth. -/
theorem readsAs_indented (h : Legible j) (depth : Nat) : ReadsAs (indented depth j).toList j := by
  induction h generalizing depth with
  | null => exact readsAs_null
  | bool b => exact readsAs_bool b
  | nat hn => exact readsAs_nat hn
  | float hexact => exact readsAs_float hexact
  | str s => exact readsAs_quote s
  | @arr xs _ ih =>
    cases xs with
    | nil => exact readsAs_empty.1
    | cons x xs =>
      have hread := readsAs_arr (fun x => (indented (depth + 1) x).toList) (isBlank_newline (depth + 1))
        (isBlank_newline depth) fun y hy => ih y hy (depth + 1)
      simpa [indented, toList_indentedItems] using hread
  | @obj fs _ ih =>
    cases fs with
    | nil => exact readsAs_empty.2
    | cons f fs =>
      have hgap : IsBlank [' '] := by simp [IsBlank]
      have hread := readsAs_obj (fun x => (indented (depth + 1) x).toList) (isBlank_newline (depth + 1))
        (isBlank_newline depth) hgap fun e he => ih e he (depth + 1)
      simpa [indented, toList_indentedFields, fieldText] using hread

/-- **Written text is read back**, compact or indented. -/
theorem parse?_render (h : Legible j) (pretty : Bool) : parse? (render pretty j) = some j := by
  have hread : ReadsAs (render pretty j).toList j := by
    cases pretty with
    | false => exact readsAs_compact h
    | true => exact readsAs_indented h 0
  have hvalue := hread (2 * (render pretty j).toList.length + 2) [] (by omega) stops_nil
  rw [List.append_nil] at hvalue
  simp only [parse?, hvalue]
  rfl

end Waveflow.Json
