import Mathlib.Data.List.Forall2
import Waveflow.Proofs.Source.Grammar

/-!
# The grammar with places

Tokens have places, and so have the parts of a program.  The relations here are those of the grammar on tokens and trees
with their places: they say of every part of a tree, however deep, of which tokens it is made.  What its place has to do
with those tokens is left open (`C`); without places, the derivations are those of the grammar (`IsProgram.unplaced`).
Of two such conditions there is use: the places that the parser makes are joined from those of tokens (`Span.Made`), and
what is wanted of them is that they cover theirs (`Span.Covers`).
-/

namespace Waveflow

variable {ts : List Token}

/-! ### Kinds -/

/-- The kinds of tokens. -/
def kinds (ts : List Token) : List TokenKind := ts.map (·.kind)

@[simp] lemma kinds_nil : kinds [] = [] := rfl

@[simp] lemma kinds_cons (t : Token) (ts : List Token) : kinds (t :: ts) = t.kind :: kinds ts := rfl

@[simp] lemma kinds_append (ts us : List Token) : kinds (ts ++ us) = kinds ts ++ kinds us := List.map_append ..

lemma kinds_eq_nil : kinds ts = [] ↔ ts = [] := List.map_eq_nil_iff

lemma length_kinds (ts : List Token) : (kinds ts).length = ts.length := List.length_map ..

/-- Tokens that start with a kind. -/
lemma exists_of_kinds_cons {k : TokenKind} {ks : List TokenKind} (h : kinds ts = k :: ks) :
    ∃ span rest, ts = ⟨k, span⟩ :: rest ∧ kinds rest = ks := by
  cases ts with
  | nil => cases h
  | cons t rest =>
    obtain ⟨rfl, hrest⟩ := List.cons.inj h
    exact ⟨t.span, rest, rfl, hrest⟩

/-! ### Places of parts -/

namespace Span

/-- The span is that of a token, or it is joined from that of the first token and one that is made of the last ones. -/
inductive Made : List Token → Span → Prop
  | one (t : Token) : Made [t] t.span
  | join {ts s} (t : Token) (between : List Token) : Made ts s → Made (t :: (between ++ ts)) (t.span.join s)

/-- The span starts where the first of the tokens starts, and ends where the last of them ends. -/
structure Covers (ts : List Token) (s : Span) : Prop where
  first : ∃ t, ts.head? = some t ∧ s.offset = t.span.offset ∧ s.line = t.span.line ∧ s.column = t.span.column
  last : ∃ t, ts.getLast? = some t ∧ s.stop = t.span.stop

end Span

/-- An argument before others. -/
lemma Grammar.isArguments_cons {a : Argument} {as : List Argument} {ks ls : List TokenKind} (h : IsArgument ks a)
    (hs : Opt IsArguments ls as) : IsArguments (ks ++ .comma :: ls) (a :: as) := by
  cases hs with
  | none => exact .trailing h
  | some hs => exact .more h hs

/-! ### Phrases -/

namespace Placed

open Waveflow.Parser (blockLabel maxBlockDepth)

variable (C : List Token → Span → Prop)

def IsArgument (ts : List Token) (a : Argument) : Prop := Grammar.IsArgument (kinds ts) a.unplaced ∧ C ts a.span

/-- Arguments with commas between them; one may follow the last. -/
inductive IsArguments : List Token → List Argument → Prop
  | none : IsArguments [] []
  | last {ts a} : IsArgument C ts a → IsArguments ts [a]
  | more {ts a us as} (comma : Span) : IsArgument C ts a → IsArguments us as →
      IsArguments (ts ++ ⟨.comma, comma⟩ :: us) (a :: as)

/-- Arguments in parentheses. -/
inductive IsList : List Token → List Argument → Prop
  | mk {ts as} (lparen rparen : Span) : IsArguments C ts as →
      IsList (⟨.lparen, lparen⟩ :: (ts ++ [⟨.rparen, rparen⟩])) as

inductive IsCall : List Token → Call → Prop
  | mk {ts as span} (operation : String) (name : Span) : IsList C ts as →
      C (⟨.ident operation, name⟩ :: ts) span →
      IsCall (⟨.ident operation, name⟩ :: ts) ⟨operation, as, span⟩

def IsDeclaration (ts : List Token) (d : Declaration) : Prop :=
  Grammar.IsDeclaration (kinds ts) d.unplaced ∧ C ts d.span

inductive IsParameters : List Token → List Argument → Prop
  | none : IsParameters [] []
  | some {ts as} : IsList C ts as → IsParameters ts as

/-- A statement.  The place of an assignment is one for its semicolon too; that of a bare call is one for the call. -/
inductive IsStatement : List Token → Statement → Prop
  | assignment {ts c target span} (name eq semi : Span) : target ≠ blockLabel → IsCall C ts c →
      C (⟨.ident target, name⟩ :: ⟨.eq, eq⟩ :: (ts ++ [⟨.semi, semi⟩])) span →
      IsStatement (⟨.ident target, name⟩ :: ⟨.eq, eq⟩ :: (ts ++ [⟨.semi, semi⟩]))
        (.assignment target c span)
  | call {ts c} (semi : Span) : c.operation ≠ blockLabel → IsCall C ts c →
      IsStatement (ts ++ [⟨.semi, semi⟩]) (.call c)
  | block {ts as chunks ss span} (name lbrace rbrace : Span) : IsParameters C ts as →
      List.Forall₂ IsStatement chunks ss →
      C (⟨.ident blockLabel, name⟩ ::
        (ts ++ ⟨.lbrace, lbrace⟩ :: (chunks.flatten ++ [⟨.rbrace, rbrace⟩]))) span →
      IsStatement (⟨.ident blockLabel, name⟩ ::
        (ts ++ ⟨.lbrace, lbrace⟩ :: (chunks.flatten ++ [⟨.rbrace, rbrace⟩]))) (.block blockLabel as ss span)

/-- A program, with blocks nested only so deep. -/
inductive IsProgram : List Token → Program → Prop
  | mk {front ds back ss} : List.Forall₂ (IsDeclaration C) front ds → List.Forall₂ (IsStatement C) back ss →
      Statement.nestingAll ss ≤ maxBlockDepth → IsProgram (front.flatten ++ back.flatten) ⟨ds, ss⟩

variable {C} {as : List Argument} {c : Call} {s : Statement} {p : Program}

/-- Induction on statements.  What is shown of a block may use what is shown of each of the statements inside. -/
@[elab_as_elim]
lemma IsStatement.ind {motive : List Token → Statement → Prop}
    (assignment : ∀ {ts c target span} (name eq semi : Span), target ≠ blockLabel → IsCall C ts c →
      C (⟨.ident target, name⟩ :: ⟨.eq, eq⟩ :: (ts ++ [⟨.semi, semi⟩])) span →
      motive (⟨.ident target, name⟩ :: ⟨.eq, eq⟩ :: (ts ++ [⟨.semi, semi⟩])) (.assignment target c span))
    (call : ∀ {ts c} (semi : Span), c.operation ≠ blockLabel → IsCall C ts c →
      motive (ts ++ [⟨.semi, semi⟩]) (.call c))
    (block : ∀ {ts as chunks ss span} (name lbrace rbrace : Span), IsParameters C ts as →
      List.Forall₂ motive chunks ss →
      C (⟨.ident blockLabel, name⟩ ::
        (ts ++ ⟨.lbrace, lbrace⟩ :: (chunks.flatten ++ [⟨.rbrace, rbrace⟩]))) span →
      motive (⟨.ident blockLabel, name⟩ ::
        (ts ++ ⟨.lbrace, lbrace⟩ :: (chunks.flatten ++ [⟨.rbrace, rbrace⟩]))) (.block blockLabel as ss span))
    {ts : List Token} {s : Statement} (h : IsStatement C ts s) : motive ts s :=
  @IsStatement.rec C (fun ts s _ => motive ts s) (fun chunks ss _ => List.Forall₂ motive chunks ss) assignment call
    (fun name lbrace rbrace hparams _ hspan hss => block name lbrace rbrace hparams hss hspan) .nil
    (fun _ _ hs hss => .cons hs hss) ts s h

/-! ### Without places -/

lemma IsArguments.unplaced (h : IsArguments C ts as) :
    Grammar.Opt Grammar.IsArguments (kinds ts) (as.map Argument.unplaced) := by
  induction h with
  | none => exact .none
  | last h => exact .some (.last h.1)
  | more comma h hs ih =>
    rw [kinds_append, kinds_cons]
    exact .some (Grammar.isArguments_cons h.1 ih)

lemma IsCall.unplaced (h : IsCall C ts c) : Grammar.IsCall (kinds ts) c.unplaced := by
  cases h with
  | mk operation name hlist _ =>
    cases hlist with
    | mk lparen rparen has => simpa [Call.unplaced] using Grammar.IsCall.mk operation has.unplaced

lemma IsParameters.unplaced (h : IsParameters C ts as) :
    Grammar.IsParameters (kinds ts) (as.map Argument.unplaced) := by
  cases h with
  | none => exact .none
  | some hlist =>
    cases hlist with
    | mk lparen rparen has => simpa using Grammar.IsParameters.some has.unplaced

/-- Phrases in a row without their places. -/
lemma star_of_forall₂ {α : Type} {D : List TokenKind → α → Prop} {chunks : List (List Token)}
    {f : α → α} {xs : List α} (h : List.Forall₂ (fun ts x => D (kinds ts) (f x)) chunks xs) :
    Grammar.Star D (kinds chunks.flatten) (xs.map f) := by
  induction h with
  | nil => exact .nil
  | cons hx _ ih =>
    rw [List.flatten_cons, kinds_append]
    exact .cons hx ih

lemma unplacedAll_eq (ss : List Statement) : Statement.unplacedAll ss = ss.map Statement.unplaced := by
  induction ss with
  | nil => rfl
  | cons s rest ih => rw [Statement.unplacedAll, ih, List.map_cons]

lemma IsStatement.unplaced (h : IsStatement C ts s) : Grammar.IsStatement (kinds ts) s.unplaced := by
  refine h.ind ?assignment ?call ?block
  case assignment =>
    intro ts c target span name eq semi hne hcall _
    simpa [Statement.unplaced] using Grammar.IsStatement.assignment hne hcall.unplaced
  case call =>
    intro ts c semi hne hcall
    simpa [Statement.unplaced] using Grammar.IsStatement.call (c := c.unplaced) hne hcall.unplaced
  case block =>
    intro ts as chunks ss span name lbrace rbrace hparams hss _
    simpa [Statement.unplaced, unplacedAll_eq] using Grammar.IsStatement.block hparams.unplaced (star_of_forall₂ hss)

/-- **Without its places a program is one of the grammar.** -/
lemma IsProgram.unplaced (h : IsProgram C ts p) : Grammar.IsProgram (kinds ts) p.unplaced := by
  cases h with
  | mk hds hss hdepth =>
    rw [kinds_append, Program.unplaced, unplacedAll_eq]
    refine .mk (star_of_forall₂ (hds.imp fun _ _ hd => hd.1))
      (star_of_forall₂ (hss.imp fun _ _ hs => hs.unplaced)) ?_
    rw [← unplacedAll_eq, Statement.nestingAll_unplacedAll]
    exact hdepth

end Placed

end Waveflow
