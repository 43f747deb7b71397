import Waveflow.Proofs.Checked
import Waveflow.Proofs.Source.Placed

/-!
# Phrases read from tokens

Two things are shown of every phrase.  Where the parser finds one, the tokens that it has taken derive it (`_sound`),
and where the phrase has places, these are made of the tokens (`_placed`); and where tokens derive a phrase and
something follows that cannot belong to it, the parser finds that phrase and leaves what follows (`_complete`).
Here are the phrases without statements: arguments and calls, types and declarations.
-/

namespace Waveflow

namespace TokenKind

/-- A token that is only a mark. -/
def isMark : TokenKind → Bool
  | ident _ | number _ | str _ => false
  | _ => true

lemma beq_iff_of_isMark {k : TokenKind} (h : k.isMark = true) (t : TokenKind) : (t == k) = true ↔ t = k := by
  cases k with
  | ident _ | number _ | str _ => cases h
  | colon | semi | comma | eq | minus | lparen | rparen | lbrace | rbrace | lbracket | rbracket =>
    constructor
    · intro heq
      cases t <;> first | rfl | cases heq
    · rintro rfl
      rfl

end TokenKind

namespace Parser

open Grammar

variable {ending : Span} {ts rest : List Token} {kind : TokenKind} {ks more : List TokenKind} {what : String}

/-! ### Single tokens -/

lemma nextIs_iff (h : kind.isMark = true) : nextIs kind ts = true ↔ (kinds ts).head? = some kind := by
  cases ts with
  | nil => simp [nextIs]
  | cons t rest => simp [nextIs, TokenKind.beq_iff_of_isMark h]

lemma eq_of_nextIs (ending : Span) (h : kind.isMark = true) (hnext : nextIs kind ts = true) :
    ts = ⟨kind, nextSpan ending ts⟩ :: ts.tail := by
  cases ts with
  | nil => cases hnext
  | cons t rest =>
    rw [← (TokenKind.beq_iff_of_isMark h _).1 hnext]
    rfl

lemma kinds_of_nextIs (h : kind.isMark = true) (hnext : nextIs kind ts = true) : kinds ts = kind :: kinds ts.tail :=
  congrArg kinds (eq_of_nextIs .nowhere h hnext)

lemma expect_eq {span : Span} (h : kind.isMark = true) (hok : expect ending kind ts = .ok (span, rest)) :
    ts = ⟨kind, span⟩ :: rest := by
  unfold expect at hok
  split at hok
  · next t tail =>
    split at hok
    · next hkind =>
      cases hok
      rw [← (TokenKind.beq_iff_of_isMark h _).1 hkind]
    · cases hok
  · cases hok

lemma expect_sound {span : Span} (h : kind.isMark = true) (hok : expect ending kind ts = .ok (span, rest)) :
    kinds ts = kind :: kinds rest :=
  congrArg kinds (expect_eq h hok)

lemma expect_complete (ending : Span) (h : kind.isMark = true) (hts : kinds ts = kind :: more) :
    ∃ span rest, expect ending kind ts = .ok (span, rest) ∧ kinds rest = more := by
  obtain ⟨span, rest, rfl, hrest⟩ := exists_of_kinds_cons hts
  refine ⟨span, rest, ?_, hrest⟩
  unfold expect
  dsimp only
  rw [if_pos ((TokenKind.beq_iff_of_isMark h _).2 rfl)]

lemma expectIdent_eq {name : String} {span : Span} (hok : expectIdent ending what ts = .ok ((name, span), rest)) :
    ts = ⟨.ident name, span⟩ :: rest := by
  unfold expectIdent at hok
  split at hok
  · cases hok
    rfl
  · cases hok

lemma expectIdent_sound {name : String} {span : Span}
    (hok : expectIdent ending what ts = .ok ((name, span), rest)) : kinds ts = .ident name :: kinds rest :=
  congrArg kinds (expectIdent_eq hok)

lemma expectIdent_complete (ending : Span) (what : String) {name : String} (hts : kinds ts = .ident name :: more) :
    ∃ span rest, expectIdent ending what ts = .ok ((name, span), rest) ∧ kinds rest = more := by
  obtain ⟨span, rest, rfl, hrest⟩ := exists_of_kinds_cons hts
  exact ⟨span, rest, rfl, hrest⟩

lemma nextIs_of_kinds (h : kind.isMark = true) (hts : kinds ts = kind :: more) : nextIs kind ts = true :=
  (nextIs_iff h).2 (by rw [hts]; rfl)

lemma nextIs_eq_false (h : kind.isMark = true) (hts : (kinds ts).head? ≠ some kind) : nextIs kind ts = false :=
  Bool.eq_false_iff.2 fun hnext => hts ((nextIs_iff h).1 hnext)

/-! ### Arguments -/

lemma argumentValue_placed {v : ArgumentValue} {span : Span} (hok : argumentValue ending ts = .ok ((v, span), rest)) :
    ∃ taken, ts = taken ++ rest ∧ IsValue (kinds taken) v ∧ span.Made taken := by
  unfold argumentValue at hok
  split at hok
  · cases hok
    exact ⟨[_], rfl, .number _, .one _⟩
  · cases hok
    exact ⟨[_], rfl, .text _, .one _⟩
  · cases hok
    exact ⟨[_], rfl, .name _, .one _⟩
  · split at hok
    · next number _ =>
      cases hok
      exact ⟨[_, _], rfl, .negative _, .join _ [] (.one ⟨.number _, number⟩)⟩
    · cases hok
  · cases hok

lemma argumentValue_complete (ending : Span) {v : ArgumentValue} (h : IsValue ks v) (hts : kinds ts = ks ++ more) :
    ∃ span rest, argumentValue ending ts = .ok ((v, span), rest) ∧ kinds rest = more := by
  cases h with
  | number x =>
    obtain ⟨span, rest, rfl, hrest⟩ := exists_of_kinds_cons hts
    exact ⟨_, rest, rfl, hrest⟩
  | negative x =>
    obtain ⟨start, tail, rfl, htail⟩ := exists_of_kinds_cons hts
    obtain ⟨span, rest, rfl, hrest⟩ := exists_of_kinds_cons htail
    exact ⟨_, rest, rfl, hrest⟩
  | text s =>
    obtain ⟨span, rest, rfl, hrest⟩ := exists_of_kinds_cons hts
    exact ⟨_, rest, rfl, hrest⟩
  | name s =>
    obtain ⟨span, rest, rfl, hrest⟩ := exists_of_kinds_cons hts
    exact ⟨_, rest, rfl, hrest⟩

lemma argument_placed {a : Argument} (hok : argument ending ts = .ok (a, rest)) :
    ∃ taken, ts = taken ++ rest ∧ Placed.IsArgument Span.Made taken a := by
  unfold argument at hok
  split at hok
  · next name start colon tail =>
    obtain ⟨⟨⟨v, span⟩, left⟩, hvalue, hok⟩ := Checked.bind_eq_ok.1 hok
    cases hok
    obtain ⟨taken, rfl, hv, hspan⟩ := argumentValue_placed hvalue
    exact ⟨⟨.ident name, start⟩ :: ⟨.colon, colon⟩ :: taken, rfl, .named name hv,
      .join ⟨.ident name, start⟩ [_] hspan⟩
  · obtain ⟨⟨⟨v, span⟩, left⟩, hvalue, hok⟩ := Checked.bind_eq_ok.1 hok
    cases hok
    obtain ⟨taken, htaken, hv, hspan⟩ := argumentValue_placed hvalue
    exact ⟨taken, htaken, .positional hv, hspan⟩

lemma argument_sound {a : Argument} (hok : argument ending ts = .ok (a, rest)) :
    ∃ ks, kinds ts = ks ++ kinds rest ∧ IsArgument ks a.unplaced := by
  obtain ⟨taken, rfl, ha, -⟩ := argument_placed hok
  exact ⟨kinds taken, kinds_append taken rest, ha⟩

/-- What is a value by itself is not taken for a name, unless a colon follows. -/
lemma argument_eq_positional {v : ArgumentValue} (h : IsValue ks v) (hts : kinds ts = ks ++ more)
    (hmore : more.head? ≠ some .colon) :
    argument ending ts = (do
      let ((value, span), ts) ← argumentValue ending ts
      return (⟨none, value, span⟩, ts)) := by
  unfold argument
  split
  · next name start colon tail =>
    exfalso
    rw [kinds_cons, kinds_cons] at hts
    cases h with
    | name s =>
      have hmore' : TokenKind.colon :: kinds tail = more := (List.cons.inj hts).2
      rw [← hmore'] at hmore
      exact hmore rfl
    | number _ | negative _ | text _ => cases hts
  · rfl

lemma argument_complete (ending : Span) {a : Argument} (h : IsArgument ks a) (hts : kinds ts = ks ++ more)
    (hmore : more.head? ≠ some .colon) :
    ∃ a' rest, argument ending ts = .ok (a', rest) ∧ a'.unplaced = a ∧ kinds rest = more := by
  cases h with
  | named name hv =>
    obtain ⟨start, tail, rfl, htail⟩ := exists_of_kinds_cons hts
    obtain ⟨colon, left, rfl, hleft⟩ := exists_of_kinds_cons htail
    obtain ⟨span, rest, hvalue, hrest⟩ := argumentValue_complete ending hv hleft
    refine ⟨⟨some name, _, start.join span⟩, rest, ?_, rfl, hrest⟩
    unfold argument
    dsimp only
    rw [hvalue]
    rfl
  | positional hv =>
    obtain ⟨span, rest, hvalue, hrest⟩ := argumentValue_complete ending hv hts
    refine ⟨⟨none, _, span⟩, rest, ?_, rfl, hrest⟩
    rw [argument_eq_positional hv hts hmore, hvalue]
    rfl

/-- An argument starts with a token that starts no other thing. -/
lemma exists_head_of_isArgument {a : Argument} (h : IsArgument ks a) :
    ∃ k ls, ks = k :: ls ∧ k ≠ .rparen := by
  cases h with
  | named name _ => exact ⟨_, _, rfl, by simp⟩
  | positional hv =>
    cases hv with
    | number x | negative x | text x | name x => exact ⟨_, _, rfl, by simp⟩

lemma argumentsWithin_placed {fuel : Nat} {as : List Argument} {stop : Span}
    (hok : argumentsWithin ending fuel ts = .ok ((as, stop), rest)) :
    ∃ taken, ts = taken ++ ⟨.rparen, stop⟩ :: rest ∧ Placed.IsArguments Span.Made taken as := by
  induction fuel generalizing ts as stop rest with
  | zero => cases hok
  | succ fuel ih =>
    rw [argumentsWithin] at hok
    split at hok
    · next hnext =>
      cases hok
      exact ⟨[], eq_of_nextIs ending rfl hnext, .none⟩
    obtain ⟨⟨a, left⟩, ha, hok⟩ := Checked.bind_eq_ok.1 hok
    obtain ⟨taken, htaken, hisa⟩ := argument_placed ha
    dsimp only at hok
    split at hok
    · next hcomma =>
      obtain ⟨⟨⟨as, stop⟩, rest⟩, has, hok⟩ := Checked.bind_eq_ok.1 hok
      cases hok
      obtain ⟨more, hmore, hisas⟩ := ih has
      refine ⟨taken ++ ⟨.comma, nextSpan ending left⟩ :: more, ?_, .more _ hisa hisas⟩
      rw [htaken, eq_of_nextIs ending rfl hcomma, hmore]
      simp [nextSpan]
    · obtain ⟨⟨stop, rest⟩, hstop, hok⟩ := Checked.bind_eq_ok.1 hok
      cases hok
      exact ⟨taken, by rw [htaken, expect_eq rfl hstop], .last hisa⟩

/-- One argument is read, and what follows tells whether there are more. -/
lemma argumentsWithin_succ (ending : Span) (fuel : Nat) {a : Argument} (h : IsArgument ks a)
    (hts : kinds ts = ks ++ more) (hmore : more.head? ≠ some .colon) :
    ∃ a' left, a'.unplaced = a ∧ kinds left = more ∧ argumentsWithin ending (fuel + 1) ts =
      if nextIs .comma left then do
        let ((as, stop), ts) ← argumentsWithin ending fuel left.tail
        return ((a' :: as, stop), ts)
      else do
        let (stop, ts) ← expect ending .rparen left
        return (([a'], stop), ts) := by
  obtain ⟨k, ls, rfl, hk⟩ := exists_head_of_isArgument h
  have hnext : nextIs .rparen ts = false := nextIs_eq_false rfl (by simpa [hts] using hk)
  obtain ⟨a', left, hread, ha', hleft⟩ := argument_complete ending h hts hmore
  refine ⟨a', left, ha', hleft, ?_⟩
  rw [argumentsWithin, if_neg (by simp [hnext]), hread]
  rfl

lemma argumentsWithin_complete (ending : Span) {fuel : Nat} {as : List Argument} (h : Opt IsArguments ks as)
    (hts : kinds ts = ks ++ .rparen :: more) (hfuel : ks.length < fuel) :
    ∃ as' stop rest, argumentsWithin ending fuel ts = .ok ((as', stop), rest) ∧
      as'.map Argument.unplaced = as ∧ kinds rest = more := by
  induction fuel generalizing ks as ts with
  | zero => cases hfuel
  | succ fuel ih =>
    cases h with
    | none =>
      obtain ⟨span, rest, rfl, hrest⟩ := exists_of_kinds_cons hts
      refine ⟨[], span, rest, ?_, rfl, hrest⟩
      rw [argumentsWithin, if_pos (nextIs_of_kinds rfl hts)]
      rfl
    | some h =>
      have hcons : ∀ {ls ms : List TokenKind} {a : Argument} {as : List Argument}, IsArgument ls a →
          Opt IsArguments ms as → ks = ls ++ .comma :: ms → ∃ as' stop rest,
            argumentsWithin ending (fuel + 1) ts = .ok ((as', stop), rest) ∧
              as'.map Argument.unplaced = a :: as ∧ kinds rest = more := by
        rintro ls ms a as ha has rfl
        have hsplit : kinds ts = ls ++ .comma :: (ms ++ .rparen :: more) := by simpa using hts
        obtain ⟨a', left, ha', hleft, hread⟩ := argumentsWithin_succ ending fuel ha hsplit (by simp)
        have htail : kinds left.tail = ms ++ .rparen :: more := by
          obtain ⟨span, tail, rfl, htail⟩ := exists_of_kinds_cons hleft
          exact htail
        have hless : ms.length < fuel := by
          simp only [List.length_append, List.length_cons] at hfuel
          omega
        obtain ⟨as', stop, rest, hmore, has', hrest⟩ := ih has htail hless
        refine ⟨a' :: as', stop, rest, ?_, by simp [ha', has'], hrest⟩
        rw [hread, if_pos (nextIs_of_kinds rfl hleft), hmore]
        rfl
      cases h with
      | last ha =>
        obtain ⟨a', left, ha', hleft, hread⟩ := argumentsWithin_succ ending fuel ha hts (by simp)
        have hnext : nextIs .comma left = false := nextIs_eq_false rfl (by simp [hleft])
        obtain ⟨stop, rest, hstop, hrest⟩ := expect_complete ending rfl hleft
        refine ⟨[a'], stop, rest, ?_, by simp [ha'], hrest⟩
        rw [hread, if_neg (by simp [hnext]), hstop]
        rfl
      | trailing ha => exact hcons ha .none rfl
      | more ha has => exact hcons ha (.some has) rfl

/-! ### Calls -/

lemma arguments_placed {as : List Argument} {stop : Span} (hok : arguments ending ts = .ok ((as, stop), rest)) :
    ∃ taken, ts = taken ++ ⟨.rparen, stop⟩ :: rest ∧ Placed.IsArguments Span.Made taken as :=
  argumentsWithin_placed hok

lemma arguments_complete (ending : Span) {as : List Argument} (h : Opt IsArguments ks as)
    (hts : kinds ts = ks ++ .rparen :: more) :
    ∃ as' stop rest, arguments ending ts = .ok ((as', stop), rest) ∧ as'.map Argument.unplaced = as ∧
      kinds rest = more := by
  refine argumentsWithin_complete ending h hts ?_
  rw [← length_kinds, hts, List.length_append]
  omega

lemma call_placed {c : Call} (hok : call ending ts = .ok (c, rest)) :
    ∃ taken, ts = taken ++ rest ∧ Placed.IsCall Span.Made taken c := by
  unfold call at hok
  obtain ⟨⟨⟨operation, start⟩, ts₁⟩, hident, hok⟩ := Checked.bind_eq_ok.1 hok
  obtain ⟨⟨lparen, ts₂⟩, hparen, hok⟩ := Checked.bind_eq_ok.1 hok
  obtain ⟨⟨⟨as, stop⟩, ts₃⟩, has, hok⟩ := Checked.bind_eq_ok.1 hok
  cases hok
  obtain rfl := expectIdent_eq hident
  obtain rfl := expect_eq rfl hparen
  obtain ⟨taken, rfl, hisas⟩ := arguments_placed has
  refine ⟨⟨.ident operation, start⟩ :: ⟨.lparen, lparen⟩ :: (taken ++ [⟨.rparen, stop⟩]), by simp, ?_⟩
  exact .mk operation start (.mk lparen stop hisas)
    (.join ⟨.ident operation, start⟩ (_ :: taken) (.one ⟨.rparen, stop⟩))

lemma call_complete (ending : Span) {c : Call} (h : IsCall ks c) (hts : kinds ts = ks ++ more) :
    ∃ c' rest, call ending ts = .ok (c', rest) ∧ c'.unplaced = c ∧ kinds rest = more := by
  cases h with
  | @mk ks as operation has =>
    have hts' : kinds ts = .ident operation :: .lparen :: (ks ++ .rparen :: more) := by simpa using hts
    obtain ⟨start, ts₁, hident, h₁⟩ := expectIdent_complete ending "operation name" hts'
    obtain ⟨_, ts₂, hparen, h₂⟩ := expect_complete ending rfl h₁
    obtain ⟨as', stop, rest, hargs, has', hrest⟩ := arguments_complete ending has h₂
    refine ⟨⟨operation, as', start.join stop⟩, rest, ?_, ?_, hrest⟩
    · unfold call
      rw [hident, Checked.ok_bind]
      dsimp only
      rw [hparen, Checked.ok_bind]
      dsimp only
      rw [hargs]
      rfl
    · rw [Call.unplaced, has']

/-! ### Types -/

lemma dimension_eq_ok_iff {t : Token} {n : Nat} :
    dimension t = .ok n ↔ ∃ x, t.kind = .number x ∧ Decimal.Exactly x n ∧ n < wordLimit := by
  unfold dimension
  split
  · next x hkind =>
    rw [hkind]
    have hiff := Decimal.counter_iff (x := x) (n := n)
    constructor
    · intro hok
      split at hok
      · next hcond => exact ⟨x, rfl, hiff.1 ⟨hcond, Except.ok.inj hok⟩⟩
      · cases hok
    · rintro ⟨y, hy, hexact⟩
      obtain rfl := TokenKind.number.inj hy
      obtain ⟨hcond, hn⟩ := hiff.2 hexact
      rw [if_pos hcond, hn]
  · next hkind =>
    constructor
    · intro hok
      cases hok
    · rintro ⟨x, hx, -⟩
      exact absurd hx (hkind x)

lemma dimensions_sound {ns : List Nat} (hok : dimensions ending ts = .ok (ns, rest)) :
    ∃ taken, ts = taken ++ rest ∧ IsDimensions (kinds taken) ns := by
  have hone : ∀ {t : Token} {n : Nat}, dimension t = .ok n → IsDimensions (kinds [t]) [n] := by
    intro t n hn
    obtain ⟨x, hx, hexact, hlt⟩ := dimension_eq_ok_iff.1 hn
    rw [kinds_cons, hx]
    exact .last hexact hlt
  fun_induction dimensions ending ts generalizing ns rest with
  | case1 => cases hok
  | case2 => cases hok
  | case3 t n hn c tail hcomma left ms hmore ih =>
    cases hok
    obtain ⟨x, hx, hexact, hlt⟩ := dimension_eq_ok_iff.1 hn
    obtain ⟨taken, rfl, hdims⟩ := ih hmore
    refine ⟨t :: c :: taken, rfl, ?_⟩
    rw [kinds_cons, kinds_cons, hx, (TokenKind.beq_iff_of_isMark rfl _).1 hcomma]
    exact .more hexact hlt hdims
  | case4 => cases hok
  | case5 t n hn c tail hcomma =>
    cases hok
    exact ⟨[t], rfl, hone hn⟩
  | case6 t n hn =>
    cases hok
    exact ⟨[t], rfl, hone hn⟩

lemma dimensions_complete (ending : Span) {ns : List Nat} (h : IsDimensions ks ns) (hts : kinds ts = ks ++ more)
    (hmore : more.head? ≠ some .comma) : ∃ rest, dimensions ending ts = .ok (ns, rest) ∧ kinds rest = more := by
  induction h generalizing ts with
  | @last x n hexact hlt =>
    obtain ⟨span, rest, rfl, hrest⟩ := exists_of_kinds_cons hts
    refine ⟨rest, ?_, hrest⟩
    have hn : dimension ⟨.number x, span⟩ = .ok n := dimension_eq_ok_iff.2 ⟨x, rfl, hexact, hlt⟩
    unfold dimensions
    rw [hn]
    cases rest with
    | nil => rfl
    | cons c tail =>
      have hc : (c.kind == .comma) = false := by
        rw [Bool.eq_false_iff, ne_eq, TokenKind.beq_iff_of_isMark rfl]
        rintro hc
        rw [kinds_cons, hc] at hrest
        have hrest' : TokenKind.comma :: kinds tail = more := hrest
        rw [← hrest'] at hmore
        exact hmore rfl
      dsimp only
      rw [if_neg (by simp [hc])]
  | @more x n ks ns hexact hlt _ ih =>
    obtain ⟨span, tail, rfl, htail⟩ := exists_of_kinds_cons hts
    obtain ⟨comma, left, rfl, hleft⟩ := exists_of_kinds_cons htail
    have hn : dimension ⟨.number x, span⟩ = .ok n := dimension_eq_ok_iff.2 ⟨x, rfl, hexact, hlt⟩
    obtain ⟨rest, hread, hrest⟩ := ih hleft
    refine ⟨rest, ?_, hrest⟩
    unfold dimensions
    rw [hn]
    dsimp only
    rw [if_pos ((TokenKind.beq_iff_of_isMark rfl _).2 rfl), hread]

lemma shape_sound {start stop : Span} {ns : List Nat} (hok : shape ending start ts = .ok ((ns, stop), rest)) :
    ∃ taken, ts = taken ++ rest ∧ IsShape (kinds taken) ns := by
  unfold shape at hok
  split at hok
  · next hnext =>
    obtain ⟨⟨ns, left⟩, hdims, hok⟩ := Checked.bind_eq_ok.1 hok
    obtain ⟨⟨stop, rest⟩, hclose, hok⟩ := Checked.bind_eq_ok.1 hok
    cases hok
    obtain rfl := expect_eq rfl hclose
    obtain ⟨taken, htaken, hisdims⟩ := dimensions_sound hdims
    refine ⟨⟨.lbracket, nextSpan ending ts⟩ :: (taken ++ [⟨.rbracket, stop⟩]), ?_,
      by simpa using IsShape.some hisdims⟩
    rw [eq_of_nextIs ending rfl hnext, htaken]
    simp [nextSpan]
  · cases hok
    exact ⟨[], rfl, .none⟩

lemma shape_complete (ending start : Span) {ns : List Nat} (h : IsShape ks ns) (hts : kinds ts = ks ++ more)
    (hmore : more.head? ≠ some .lbracket) :
    ∃ stop rest, shape ending start ts = .ok ((ns, stop), rest) ∧ kinds rest = more := by
  unfold shape
  cases h with
  | none =>
    have hnext : nextIs .lbracket ts = false := nextIs_eq_false rfl (by rw [hts]; exact hmore)
    exact ⟨start, ts, by rw [if_neg (by simp [hnext])], hts⟩
  | @some ks ns h =>
    have hts' : kinds ts = .lbracket :: (ks ++ .rbracket :: more) := by simpa using hts
    obtain ⟨open', tail, rfl, htail⟩ := exists_of_kinds_cons hts'
    obtain ⟨left, hdims, hleft⟩ := dimensions_complete ending h htail (by simp)
    obtain ⟨stop, rest, hclose, hrest⟩ := expect_complete ending rfl hleft
    refine ⟨stop, rest, ?_, hrest⟩
    rw [if_pos (nextIs_of_kinds rfl hts'), List.tail_cons, hdims, Checked.ok_bind]
    dsimp only
    rw [hclose]
    rfl

lemma valueType_sound {ty : ValueType} (hok : valueType ending ts = .ok (ty, rest)) :
    ∃ taken, ts = taken ++ rest ∧ IsType (kinds taken) ty := by
  unfold valueType at hok
  obtain ⟨⟨⟨word, start⟩, left⟩, hident, hok⟩ := Checked.bind_eq_ok.1 hok
  dsimp only at hok
  split at hok
  · cases hok
  next element helement =>
  obtain ⟨⟨⟨ns, stop⟩, rest⟩, hshape, hok⟩ := Checked.bind_eq_ok.1 hok
  dsimp only at hok
  split at hok
  · next ty hmake =>
    cases hok
    obtain rfl := expectIdent_eq hident
    obtain ⟨taken, rfl, hisshape⟩ := shape_sound hshape
    exact ⟨⟨.ident word, start⟩ :: taken, rfl, .mk helement hisshape hmake⟩
  · cases hok

lemma valueType_complete (ending : Span) {ty : ValueType} (h : IsType ks ty) (hts : kinds ts = ks ++ more)
    (hmore : more.head? ≠ some .lbracket) : ∃ rest, valueType ending ts = .ok (ty, rest) ∧ kinds rest = more := by
  cases h with
  | mk helement hshape hmake =>
    obtain ⟨start, left, hident, hleft⟩ := expectIdent_complete ending "type" hts
    obtain ⟨stop, rest, hread, hrest⟩ := shape_complete ending start hshape hleft hmore
    refine ⟨rest, ?_, hrest⟩
    unfold valueType
    rw [hident, Checked.ok_bind]
    dsimp only
    rw [helement]
    dsimp only
    rw [hread, Checked.ok_bind]
    dsimp only
    rw [hmake]
    rfl

/-! ### Declarations -/

lemma atDeclaration_iff : atDeclaration ts = true ↔
    ∃ (direction : Direction) (name : String) (ls : List TokenKind),
      kinds ts = .ident direction.word :: .ident name :: ls := by
  constructor
  · intro h
    unfold atDeclaration at h
    split at h
    · next word _ name _ tail =>
      rw [Bool.or_eq_true, beq_iff_eq, beq_iff_eq] at h
      rcases h with rfl | rfl
      · exact ⟨.input, name, kinds tail, rfl⟩
      · exact ⟨.output, name, kinds tail, rfl⟩
    · cases h
  · rintro ⟨direction, name, ls, hts⟩
    obtain ⟨_, tail, rfl, htail⟩ := exists_of_kinds_cons hts
    obtain ⟨_, left, rfl, hleft⟩ := exists_of_kinds_cons htail
    cases direction with
    | input => rfl
    | output => rfl

lemma declaration_placed {d : Declaration} (hat : atDeclaration ts = true)
    (hok : declaration ending ts = .ok (d, rest)) :
    ∃ taken, ts = taken ++ rest ∧ Placed.IsDeclaration Span.Made taken d := by
  obtain ⟨direction, _, _, hword⟩ := atDeclaration_iff.1 hat
  unfold declaration at hok
  obtain ⟨⟨⟨word, start⟩, ts₁⟩, hident, hok⟩ := Checked.bind_eq_ok.1 hok
  obtain ⟨⟨⟨name, place⟩, ts₂⟩, hname, hok⟩ := Checked.bind_eq_ok.1 hok
  obtain ⟨⟨colon, ts₃⟩, hcolon, hok⟩ := Checked.bind_eq_ok.1 hok
  obtain ⟨⟨ty, ts₄⟩, hty, hok⟩ := Checked.bind_eq_ok.1 hok
  obtain ⟨⟨stop, ts₅⟩, hsemi, hok⟩ := Checked.bind_eq_ok.1 hok
  cases hok
  obtain rfl := expectIdent_eq hident
  obtain rfl := expectIdent_eq hname
  obtain rfl := expect_eq rfl hcolon
  obtain rfl := expect_eq rfl hsemi
  obtain ⟨taken, rfl, histy⟩ := valueType_sound hty
  obtain rfl : word = direction.word := TokenKind.ident.inj (List.cons.inj hword).1
  have hdirection : (if direction.word = "input" then Direction.input else Direction.output) = direction := by
    cases direction with
    | input => rfl
    | output => rfl
  have hspan :=
    Span.Made.join ⟨.ident direction.word, start⟩ (⟨.ident name, place⟩ :: ⟨.colon, colon⟩ :: taken)
    (.one ⟨.semi, stop⟩)
  refine ⟨_, ?_, ?_, hspan⟩
  · simp
  · unfold Declaration.unplaced
    dsimp only
    rw [hdirection]
    simpa using IsDeclaration.mk direction name histy

lemma declaration_complete (ending : Span) {d : Declaration} (h : IsDeclaration ks d) (hts : kinds ts = ks ++ more) :
    atDeclaration ts = true ∧
      ∃ d' rest, declaration ending ts = .ok (d', rest) ∧ d'.unplaced = d ∧ kinds rest = more := by
  cases h with
  | @mk ks ty direction name h =>
    have hts' : kinds ts = .ident direction.word :: .ident name :: .colon :: (ks ++ .semi :: more) := by simpa using hts
    refine ⟨atDeclaration_iff.2 ⟨direction, name, _, hts'⟩, ?_⟩
    obtain ⟨start, ts₁, hident, h₁⟩ := expectIdent_complete ending "'input' or 'output'" hts'
    obtain ⟨_, ts₂, hname, h₂⟩ := expectIdent_complete ending "declaration name" h₁
    obtain ⟨_, ts₃, hcolon, h₃⟩ := expect_complete ending rfl h₂
    obtain ⟨ts₄, hty, h₄⟩ := valueType_complete ending h h₃ (by simp)
    obtain ⟨stop, rest, hsemi, hrest⟩ := expect_complete ending rfl h₄
    refine ⟨⟨direction, name, ty, start.join stop⟩, rest, ?_, rfl, hrest⟩
    unfold declaration
    rw [hident, Checked.ok_bind]
    dsimp only
    rw [hname, Checked.ok_bind]
    dsimp only
    rw [hcolon, Checked.ok_bind]
    dsimp only
    rw [hty, Checked.ok_bind]
    dsimp only
    rw [hsemi]
    cases direction with
    | input => rfl
    | output => rfl

end Parser

end Waveflow
