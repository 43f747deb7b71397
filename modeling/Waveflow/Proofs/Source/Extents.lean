import Waveflow.Proofs.Source.Parses
import Waveflow.Proofs.Source.Spans

/-!
# Where the parts of a program stand

The place of every part of a program starts with the first token of that part and ends with the last one
(`Placed.IsProgram Span.Covers`).  The parser joins places of tokens; that the result reaches from one to the other
is so because tokens stand apart and in order (`Span.Made.covers`).

Then a part of a part stands inside it, and parts side by side stand in order and apart (`Program.Orderly`): they cover
tokens of it one after the other (`Row`).
-/

namespace Waveflow

open Waveflow.Parser (blockLabel)

variable {ts us vs : List Token} {s t whole : Span} {spans spans' : List Span}

/-! ### Parts of places -/

/-- The parts of a stretch stand inside it, in order and apart. -/
structure Span.Parts (whole : Span) (parts : List Span) : Prop where
  inside : ∀ s ∈ parts, whole.offset ≤ s.offset ∧ s.stop ≤ whole.stop
  apart : parts.Pairwise fun s t => s.stop ≤ t.offset

/-- The arguments are parts of the call. -/
def Call.Orderly (c : Call) : Prop := c.span.Parts (c.arguments.map (·.span))

/-- The call is a part of its assignment, and the parameters and the statements of a block are parts of it, however deep
it is nested. -/
inductive Statement.Orderly : Statement → Prop
  | assignment {target c span} : span.Parts [c.span] → c.Orderly → Orderly (.assignment target c span)
  | call {c} : c.Orderly → Orderly (.call c)
  | block {label as body span} : span.Parts (as.map (·.span) ++ body.map Statement.span) →
      (∀ s ∈ body, Orderly s) →
      Orderly (.block label as body span)

/-- The parts of a program stand in order and apart, each inside of what it is a part of. -/
structure Program.Orderly (p : Program) : Prop where
  apart : (p.declarations.map (·.span) ++ p.statements.map Statement.span).Pairwise fun s t => s.stop ≤ t.offset
  statements : ∀ s ∈ p.statements, s.Orderly

/-! ### From token to token -/

/-- Each token ends before the ones after it start. -/
def Apart (ts : List Token) : Prop := ts.Pairwise fun a b => a.span.stop ≤ b.span.offset

lemma Span.offset_le_stop (s : Span) : s.offset ≤ s.stop := Nat.le_add_right ..

namespace Apart

variable {a b : Token}

lemma sublist (h : Apart ts) (hsub : us.Sublist ts) : Apart us := List.Pairwise.sublist hsub h

lemma tail (h : Apart (a :: ts)) : Apart ts := h.sublist (List.sublist_cons_self ..)

lemma left (h : Apart (ts ++ us)) : Apart ts := h.sublist (List.sublist_append_left ..)

lemma right (h : Apart (ts ++ us)) : Apart us := h.sublist (List.sublist_append_right ..)

lemma first_le (h : Apart ts) (hfirst : ts.head? = some a) (hb : b ∈ ts) : a.span.offset ≤ b.span.offset := by
  obtain ⟨rest, rfl⟩ := List.head?_eq_some_iff.1 hfirst
  rcases List.mem_cons.1 hb with rfl | hb
  · exact Nat.le_refl _
  · have hlater := List.rel_of_pairwise_cons h hb
    have hends := a.span.offset_le_stop
    omega

lemma le_last (h : Apart ts) (hlast : ts.getLast? = some b) (ha : a ∈ ts) : a.span.stop ≤ b.span.stop := by
  obtain ⟨front, rfl⟩ := List.getLast?_eq_some_iff.1 hlast
  rcases List.mem_append.1 ha with ha | ha
  · have hlater := (List.pairwise_append.1 h).2.2 a ha b (List.mem_singleton_self b)
    have hends := b.span.offset_le_stop
    omega
  · rw [List.mem_singleton.1 ha]

end Apart

namespace Span

lemma Covers.inside (hts : Apart ts) (hwhole : whole.Covers ts) (hs : s.Covers us) (hsub : us.Sublist ts) :
    whole.offset ≤ s.offset ∧ s.stop ≤ whole.stop := by
  obtain ⟨first, hfirst, hstart, -⟩ := hwhole.first
  obtain ⟨last, hlast, hstop⟩ := hwhole.last
  obtain ⟨a, ha, hastart, -⟩ := hs.first
  obtain ⟨b, hb, hbstop⟩ := hs.last
  have hleft := hts.first_le hfirst (hsub.subset (List.mem_of_head? ha))
  have hright := hts.le_last hlast (hsub.subset (List.mem_of_getLast? hb))
  omega

lemma Covers.before (h : Apart (us ++ vs)) (hs : s.Covers us) (ht : t.Covers vs) : s.stop ≤ t.offset := by
  obtain ⟨b, hb, hstop⟩ := hs.last
  obtain ⟨a, ha, hstart, -⟩ := ht.first
  have hapart := (List.pairwise_append.1 h).2.2 b (List.mem_of_getLast? hb) a (List.mem_of_head? ha)
  omega

/-- **A place that is made of the places of tokens that stand apart covers them.** -/
lemma Made.covers (h : s.Made ts) (hts : Apart ts) : s.Covers ts := by
  induction h with
  | one t => exact ⟨⟨t, rfl, rfl, rfl, rfl⟩, ⟨t, rfl, rfl⟩⟩
  | @join ts s t between _ ih =>
    obtain ⟨last, hlast, hstop⟩ := (ih hts.tail.right).last
    have hreaches : t.span.stop ≤ s.stop := by
      have hlater := List.rel_of_pairwise_cons hts (List.mem_append_right between (List.mem_of_getLast? hlast))
      have hends := last.span.offset_le_stop
      omega
    refine ⟨⟨t, rfl, rfl, rfl, rfl⟩, ⟨last, ?_, ?_⟩⟩
    · rw [← List.cons_append, List.getLast?_append, hlast]
      rfl
    · rw [(stop_join t.span s).2, Nat.max_eq_left hreaches, hstop]

end Span

/-! ### Places that cover -/

namespace Placed

variable {as : List Argument} {c : Call} {d : Declaration} {p : Program} {chunks : List (List Token)}

lemma IsDeclaration.covered (h : IsDeclaration Span.Made ts d) (hts : Apart ts) : IsDeclaration Span.Covers ts d :=
  ⟨h.1, h.2.covers hts⟩

lemma IsArguments.covered (h : IsArguments Span.Made ts as) (hts : Apart ts) : IsArguments Span.Covers ts as := by
  induction h with
  | none => exact .none
  | last h => exact .last ⟨h.1, h.2.covers hts⟩
  | more comma h _ ih => exact .more comma ⟨h.1, h.2.covers hts.left⟩ (ih hts.right.tail)

lemma IsList.covered (h : IsList Span.Made ts as) (hts : Apart ts) : IsList Span.Covers ts as := by
  cases h with
  | mk lparen rparen has => exact .mk lparen rparen (has.covered hts.tail.left)

lemma IsCall.covered (h : IsCall Span.Made ts c) (hts : Apart ts) : IsCall Span.Covers ts c := by
  cases h with
  | mk operation name hlist hspan => exact .mk operation name (hlist.covered hts.tail) (hspan.covers hts)

lemma IsParameters.covered (h : IsParameters Span.Made ts as) (hts : Apart ts) : IsParameters Span.Covers ts as := by
  cases h with
  | none => exact .none
  | some hlist => exact .some (hlist.covered hts)

/-- What holds of tokens that stand apart holds of each of the chunks that they are made up of. -/
lemma forall₂_of_apart {α : Type} {R : List Token → α → Prop} {xs : List α}
    (h : List.Forall₂ (fun ts x => Apart ts → R ts x) chunks xs) (hts : Apart chunks.flatten) :
    List.Forall₂ R chunks xs := by
  induction h with
  | nil => exact .nil
  | cons hx _ ih =>
    rw [List.flatten_cons] at hts
    exact .cons (hx hts.left) (ih hts.right)

lemma forall_of_apart {α : Type} {P : α → Prop} {xs : List α}
    (h : List.Forall₂ (fun ts x => Apart ts → P x) chunks xs) (hts : Apart chunks.flatten) : ∀ x ∈ xs, P x := by
  have hall : List.Forall₂ (fun x (_ : List Token) => P x ∧ True) xs chunks :=
    (forall₂_of_apart h hts).flip.imp fun _ _ hx => ⟨hx, trivial⟩
  exact ((List.forall₂_and_left xs chunks).1 hall).1

lemma IsStatement.covered {s : Statement} (h : IsStatement Span.Made ts s) (hts : Apart ts) :
    IsStatement Span.Covers ts s := by
  revert hts
  refine h.ind ?assignment ?call ?block
  case assignment =>
    intro ts c target span name eq semi hne hcall hspan hts
    exact .assignment name eq semi hne (hcall.covered hts.tail.tail.left) (hspan.covers hts)
  case call =>
    intro ts c semi hne hcall hts
    exact .call semi hne (hcall.covered hts.left)
  case block =>
    intro ts as chunks ss span name lbrace rbrace hparams hss hspan hts
    exact .block name lbrace rbrace (hparams.covered hts.tail.left) (forall₂_of_apart hss hts.tail.right.tail.left)
      (hspan.covers hts)

lemma IsProgram.covered (h : IsProgram Span.Made ts p) (hts : Apart ts) : IsProgram Span.Covers ts p := by
  cases h with
  | mk hds hss hdepth =>
    exact .mk (forall₂_of_apart (hds.imp fun _ _ hd => hd.covered) hts.left)
      (forall₂_of_apart (hss.imp fun _ _ hs => hs.covered) hts.right) hdepth

end Placed

/-! ### Places in a row -/

/-- The spans cover some of the tokens, one after the other. -/
inductive Row : List Token → List Span → Prop
  | done (ts : List Token) : Row ts []
  | next {ts us : List Token} {s : Span} {spans : List Span} (skipped : List Token) : s.Covers ts → Row us spans →
      Row (skipped ++ (ts ++ us)) (s :: spans)

namespace Row

lemma single (h : s.Covers ts) : Row ts [s] := by simpa using Row.next [] h (.done [])

lemma skip (skipped : List Token) (h : Row ts spans) : Row (skipped ++ ts) spans := by
  cases h with
  | done => exact .done _
  | next before hs hrest =>
    rw [← List.append_assoc]
    exact .next (skipped ++ before) hs hrest

lemma append (h : Row ts spans) (h' : Row us spans') : Row (ts ++ us) (spans ++ spans') := by
  induction h with
  | done ts => exact h'.skip ts
  | next skipped hs _ ih =>
    rw [List.append_assoc, List.append_assoc]
    exact .next skipped hs ih

lemma before (h : Row ts spans) (us : List Token) : Row (ts ++ us) spans := by
  simpa using h.append (.done us)

lemma exists_of_mem (h : Row ts spans) (hs : s ∈ spans) : ∃ us, us.Sublist ts ∧ s.Covers us := by
  induction h with
  | done => cases hs
  | @next ts us t spans skipped ht _ ih =>
    rcases List.mem_cons.1 hs with rfl | hs
    · exact ⟨ts, (List.sublist_append_left ..).trans (List.sublist_append_right ..), ht⟩
    · obtain ⟨vs, hsub, hvs⟩ := ih hs
      exact ⟨vs, hsub.trans ((List.sublist_append_right ..).trans (List.sublist_append_right ..)), hvs⟩

lemma apart (h : Row ts spans) (hts : Apart ts) : spans.Pairwise fun s t => s.stop ≤ t.offset := by
  induction h with
  | done => exact .nil
  | @next ts us s spans skipped hs hrest ih =>
    refine .cons (fun t ht => ?_) (ih hts.right.right)
    obtain ⟨vs, hsub, hvs⟩ := hrest.exists_of_mem ht
    exact hs.before (hts.right.sublist (hsub.append_left ts)) hvs

/-- **What covers tokens in a row is part of what covers them all.** -/
lemma parts (h : Row ts spans) (hts : Apart ts) (hwhole : whole.Covers ts) : whole.Parts spans where
  inside s hs := by
    obtain ⟨us, hsub, hus⟩ := h.exists_of_mem hs
    exact hwhole.inside hts hus hsub
  apart := h.apart hts

end Row

/-! ### Parts of programs -/

namespace Placed

variable {as : List Argument} {c : Call} {p : Program} {chunks : List (List Token)}

lemma IsArguments.row (h : IsArguments Span.Covers ts as) : Row ts (as.map (·.span)) := by
  induction h with
  | none => exact .done []
  | last h => exact .single h.2
  | more comma h _ ih => exact (Row.single h.2).append (ih.skip [⟨.comma, comma⟩])

lemma IsList.row (h : IsList Span.Covers ts as) : Row ts (as.map (·.span)) := by
  cases h with
  | mk lparen rparen has => exact (has.row.before [⟨.rparen, rparen⟩]).skip [⟨.lparen, lparen⟩]

lemma IsParameters.row (h : IsParameters Span.Covers ts as) : Row ts (as.map (·.span)) := by
  cases h with
  | none => exact .done []
  | some hlist => exact hlist.row

lemma IsCall.covers (h : IsCall Span.Covers ts c) : c.span.Covers ts := by
  cases h with
  | mk _ _ _ hspan => exact hspan

lemma IsCall.orderly (h : IsCall Span.Covers ts c) (hts : Apart ts) : c.Orderly := by
  cases h with
  | mk operation name hlist hspan => exact (hlist.row.skip [⟨.ident operation, name⟩]).parts hts hspan

lemma row_flatten {α : Type} {span : α → Span} {xs : List α}
    (h : List.Forall₂ (fun ts x => Row ts [span x]) chunks xs) : Row chunks.flatten (xs.map span) := by
  induction h with
  | nil => exact .done []
  | cons hx _ ih => exact hx.append ih

/-- A statement covers its tokens, but for the semicolon of a bare call, and its parts are in order. -/
lemma IsStatement.row_orderly {s : Statement} (h : IsStatement Span.Covers ts s) :
    Row ts [s.span] ∧ (Apart ts → s.Orderly) := by
  refine h.ind ?assignment ?call ?block
  case assignment =>
    intro ts c target span name eq semi _ hcall hspan
    have hrow : Row (⟨.ident target, name⟩ :: ⟨.eq, eq⟩ :: (ts ++ [⟨.semi, semi⟩])) [c.span] :=
      ((Row.single hcall.covers).before [⟨.semi, semi⟩]).skip [⟨.ident target, name⟩, ⟨.eq, eq⟩]
    exact ⟨.single hspan, fun hts => .assignment (hrow.parts hts hspan) (hcall.orderly hts.tail.tail.left)⟩
  case call =>
    intro ts c semi _ hcall
    exact ⟨(Row.single hcall.covers).before _, fun hts => .call (hcall.orderly hts.left)⟩
  case block =>
    intro ts as chunks ss span name lbrace rbrace hparams hss hspan
    have hbody : Row chunks.flatten (ss.map Statement.span) := row_flatten (hss.imp fun _ _ hs => hs.1)
    have hrow := (hparams.row.append ((hbody.before [⟨.rbrace, rbrace⟩]).skip [⟨.lbrace, lbrace⟩])).skip
      [⟨.ident blockLabel, name⟩]
    exact ⟨.single hspan, fun hts => .block (hrow.parts hts hspan)
      (forall_of_apart (hss.imp fun _ _ hs => hs.2) hts.tail.right.tail.left)⟩

/-- **The parts of a program are in order.** -/
lemma IsProgram.orderly (h : IsProgram Span.Covers ts p) (hts : Apart ts) : p.Orderly := by
  cases h with
  | @mk front ds back ss hds hss _ =>
    have hfront : Row front.flatten (ds.map (·.span)) := row_flatten (hds.imp fun _ _ hd => .single hd.2)
    have hback : Row back.flatten (ss.map Statement.span) := row_flatten (hss.imp fun _ _ hs => hs.row_orderly.1)
    refine ⟨(hfront.append hback).apart hts, ?_⟩
    exact forall_of_apart (hss.imp fun _ _ hs => hs.row_orderly.2) hts.right

end Placed

/-! ### Source texts -/

lemma apart_of_tokenize {source : String} {ts : Tokens} (h : tokenize source = .ok ts) : Apart ts.tokens := by
  have hreads : Lexer.Reads [] source.toList (tokenize source) := Lexer.scan_reads (Nat.lt_succ_self _) []
  rw [h] at hreads
  exact Lexer.Laid.apart hreads

/-- **Places cover exactly their tokens.**  Where a source text is read as a program, the program derives from the
tokens of the text, and of every declaration, assignment, block, call and argument in it, however deep, the place
starts with the first of the tokens that it is derived from, on its line and column, and ends with the last of them.
 So whatever is part of something else stands inside it, and what stands side by side stands in order and apart. -/
theorem program_covers {source : String} {ts : Tokens} {p : Program} (htokens : tokenize source = .ok ts)
    (hread : Parser.program ts = .ok p) : Placed.IsProgram Span.Covers ts.tokens p ∧ p.Orderly := by
  have hapart := apart_of_tokenize htokens
  have hcovers := (Parser.program_placed hread).covered hapart
  exact ⟨hcovers, hcovers.orderly hapart⟩

/-- A program on several lines, with a comment, negative numbers, commas after last arguments and a block in a block. -/
def terraced : String :=
  "//é\ninput a: scalar; output y: field[2, 3];\n" ++
  "maintain_coherence(level: -2,) \x7b y = split(\"é\", by: -1.5,) ;\n" ++
    " maintain_coherence\x7bsplit(a,);\x7d \x7d"

/-- Its declarations, then the outer block with an assignment, a call and the inner block with a bare call; and the
arguments of both calls. -/
theorem program_covers_terraced : ∃ ts p, tokenize terraced = .ok ts ∧ Parser.program ts = .ok p ∧
    p.parts.map Part.span = [⟨5, 16, 2, 1⟩, ⟨22, 22, 2, 18⟩, ⟨45, 95, 3, 1⟩,
      ⟨78, 28, 3, 34⟩, ⟨82, 22, 3, 38⟩, ⟨108, 30, 4, 2⟩, ⟨127, 9, 4, 21⟩] ∧
    (Statement.callsAll p.statements).flatMap (·.arguments.map (·.span)) =
      [⟨88, 4, 3, 44⟩, ⟨94, 8, 3, 49⟩, ⟨133, 1, 4, 27⟩] ∧
    Placed.IsProgram Span.Covers ts.tokens p ∧ p.Orderly := by
  have hrun : ((tokenize terraced).toOption.bind fun ts => (Parser.program ts).toOption.map fun p =>
      (p.parts.map Part.span, (Statement.callsAll p.statements).flatMap (·.arguments.map (·.span)))) =
      some ([⟨5, 16, 2, 1⟩, ⟨22, 22, 2, 18⟩, ⟨45, 95, 3, 1⟩, ⟨78, 28, 3, 34⟩,
        ⟨82, 22, 3, 38⟩, ⟨108, 30, 4, 2⟩,
        ⟨127, 9, 4, 21⟩], [⟨88, 4, 3, 44⟩, ⟨94, 8, 3, 49⟩, ⟨133, 1, 4, 27⟩]) := by decide +kernel
  obtain ⟨ts, htokens, hrun⟩ := Option.bind_eq_some_iff.1 hrun
  obtain ⟨p, hread, hspans⟩ := Option.map_eq_some_iff.1 hrun
  obtain ⟨hparts, harguments⟩ := Prod.mk.inj hspans
  have htokens : tokenize terraced = .ok ts := Checked.toOption_eq_some.1 htokens
  have hread : Parser.program ts = .ok p := Checked.toOption_eq_some.1 hread
  exact ⟨ts, p, htokens, hread, hparts, harguments, program_covers htokens hread⟩

end Waveflow
