import Mathlib.Logic.Function.Iterate
import Mathlib.Logic.Relation
import Mathlib.Order.Basic
import Waveflow.Proofs.Source.Consumption

/-!
# The loops of the parser

The parser has a loop for the program and one for the inside of each block, and a block within a block starts one loop
within another.  Here the loops take turns: a `Position` keeps the blocks that are open, what has been read and the
tokens left, and `Position.turn` makes one turn of the innermost loop.  Nothing but the tokens bounds the number of
turns, and nothing but the check before a block bounds the number of loops, so that both bounds have to be shown.

A turn takes a token or leaves a block (`turn_forward`), so the turns end.  They read what the parser reads
(`traverses_body` inside blocks, `reaches_readWithin` outside), and so what is shown of turns holds of the parser:
it ends on every list of tokens, its loops are never more than `maxBlockDepth` deep inside one another, and it
reports an error for every token at most (`program_ends`).
-/

namespace Waveflow.Parser

variable {ending : Span}

/-! ### Turns -/

/-- The head of a block that has been opened, and the statements before it. -/
structure Frame where
  label : String
  start : Span
  parameters : List Argument
  before : List Statement

/-- Where the loops are: the blocks that are open, the innermost first, what has been read, and the tokens left.  The
statements are those of the innermost block, or of the program. -/
structure Position where
  opened : List Frame
  errors : List SourceError
  declarations : List Declaration
  statements : List Statement
  rest : List Token

namespace Position

/-- Nothing has been read yet. -/
def start (ts : List Token) : Position := ⟨[], [], [], [], ts⟩

/-- What is left after an error: outside blocks a closing brace is skipped too. -/
def skip (opened : List Frame) (ts : List Token) : List Token :=
  if opened.isEmpty then resume ts else recover ts

/-- Note an error and skip what it has spoilt. -/
def fail (p : Position) (e : SourceError) (ts : List Token) : Position :=
  { p with errors := p.errors ++ [e], rest := skip p.opened ts }

/-- Go on after a statement, or after the error in its place. -/
def take (p : Position) (out : Outcome) : Position :=
  match out.result with
  | .ok s => { p with errors := p.errors ++ out.inner, statements := p.statements ++ [s], rest := out.rest }
  | .error e => { p with errors := p.errors ++ out.inner }.fail e out.rest

/-- A declaration outside all blocks. -/
def declare (ending : Span) (p : Position) : Position :=
  match declaration ending p.rest with
  | .ok (d, ts) =>
    if p.statements.isEmpty then { p with declarations := p.declarations ++ [d], rest := ts }
    else { p with errors := p.errors ++ [.lateDeclaration d.name d.span], rest := ts }
  | .error (e, ts) => p.fail e ts

/-- A statement.  A block is only opened; where none starts, nothing is read with the reader of its inside. -/
def read (ending : Span) (p : Position) : Position :=
  if atBlock p.rest then
    match blockHead ending p.rest with
    | .ok ((label, start, parameters), ts) =>
      { p with opened := ⟨label, start, parameters, p.statements⟩ :: p.opened, statements := [], rest := ts }
    | .error (e, ts) => p.fail e ts
  else p.take (statement ending (fun ts => ⟨[], [], ts⟩) p.rest)

/-- The innermost block ends. -/
def close (ending : Span) (o : Frame) (os : List Frame) (p : Position) : Position :=
  match expect ending .rbrace p.rest with
  | .ok (stop, ts) =>
    { p with
      opened := os
      statements := o.before ++ [.block o.label o.parameters p.statements (o.start.join stop)]
      rest := ts }
  | .error (e, ts) => { p with opened := os, statements := o.before }.fail e ts

/-- No statement follows inside a block. -/
def atClose (ts : List Token) : Bool := ts.isEmpty || nextIs .rbrace ts

/-- One turn of the innermost loop; there is none at the end of the program. -/
def turn (ending : Span) (p : Position) : Option Position :=
  match p.opened with
  | [] =>
    if p.rest.isEmpty then none
    else if atDeclaration p.rest then some (p.declare ending)
    else some (p.read ending)
  | o :: os =>
    if atClose p.rest then some (p.close ending o os)
    else if atDeclaration p.rest then
      some (p.fail (.lateDeclaration (declaredName p.rest) (nextSpan ending p.rest)) p.rest)
    else if decide (maxBlockDepth ≤ p.opened.length) && atBlock p.rest then
      some { p with
        errors := p.errors ++ [.nestingTooDeep maxBlockDepth (nextSpan ending p.rest)]
        rest := skipBlock 0 p.rest }
    else some (p.read ending)

/-- The program that has been read, or the errors. -/
def result (p : Position) : Except (List SourceError) Program :=
  if p.errors.isEmpty then .ok ⟨p.declarations, p.statements⟩ else .error p.errors

end Position

/-- One turn leads from one position to the other. -/
def Turn (ending : Span) (p q : Position) : Prop := p.turn ending = some q

/-! ### What a turn takes -/

/-- What a turn does: it takes tokens and opens one block at most, or it leaves a block.  Blocks do not get deeper than
they may be.  The errors are paid for with the tokens that are taken; a block that is open has one token left to pay
with, in case its closing brace is missing. -/
structure Forward (p q : Position) : Prop where
  rest : q.rest <:+ p.rest
  advances : q.rest.length < p.rest.length ∧ q.opened.length ≤ p.opened.length + 1 ∨
    q.opened.length + 1 = p.opened.length
  depth : p.opened.length ≤ maxBlockDepth → q.opened.length ≤ maxBlockDepth
  reports : q.errors.length + q.opened.length + q.rest.length ≤ p.errors.length + p.opened.length + p.rest.length

variable {p q : Position} {ts : List Token}

/-- A loop inside a block stands at a statement, or at something in its place. -/
structure Position.Standing (p : Position) : Prop where
  ne_nil : p.rest ≠ []
  open_brace : p.opened ≠ [] → nextIs .rbrace p.rest = false

/-- A turn that leaves the blocks as they are takes a token for the error that it may report. -/
lemma Forward.of_eq (hopened : q.opened = p.opened) (hrest : q.rest <:+ p.rest)
    (hlen : q.rest.length < p.rest.length) (herrors : q.errors.length ≤ p.errors.length + 1) : Forward p q where
  rest := hrest
  advances := .inl ⟨hlen, by rw [hopened]; exact Nat.le_succ _⟩
  depth := by rw [hopened]; exact id
  reports := by rw [hopened]; omega

lemma skip_of_outside (ts : List Token) : Position.skip [] ts = resume ts := rfl

lemma skip_of_inside {opened : List Frame} (hopened : opened ≠ []) (ts : List Token) :
    Position.skip opened ts = recover ts :=
  if_neg (by simpa using hopened)

lemma skip_suffix (opened : List Frame) (ts : List Token) : Position.skip opened ts <:+ ts := by
  cases opened with
  | nil => exact resume_suffix ts
  | cons o os => exact recover_suffix ts

lemma fail_forward (e : SourceError) (hp : p.Standing) (hts : ts <:+ p.rest) : Forward p (p.fail e ts) := by
  have hskip := skip_suffix p.opened ts
  refine .of_eq rfl (hskip.trans hts) ?_ (by simp [Position.fail])
  -- where the phrase has taken nothing, the skipping does
  rcases Nat.lt_or_eq_of_le hts.length_le with hlt | heq
  · exact Nat.lt_of_le_of_lt hskip.length_le hlt
  obtain rfl := hts.eq_of_length heq
  unfold Position.fail
  dsimp only
  by_cases hopened : p.opened = []
  · rw [hopened, skip_of_outside]
    exact length_resume_lt hp.ne_nil
  · rw [skip_of_inside hopened]
    exact length_recover_lt hp.ne_nil (hp.open_brace hopened)

lemma declare_forward (ending : Span) (hp : p.Standing) : Forward p (p.declare ending) := by
  unfold Position.declare
  have htakes : Takes p.rest 1 (declaration ending p.rest) := declaration_takes
  split
  · next d ts hok =>
    obtain ⟨hts, hlen⟩ := htakes.suffix_of_ok hok
    split
    · exact .of_eq rfl hts hlen (Nat.le_succ _)
    · exact .of_eq rfl hts hlen (by simp)
  · next e ts herror => exact fail_forward e hp (htakes.suffix_of_error herror)

/-- Where no block starts a statement is a single phrase. -/
lemma statement_takes (ending : Span) (body : List Token → Body) (hflat : atBlock ts = false) :
    ∃ x, Takes ts 1 x ∧ statement ending body ts = .ofParsed x := by
  unfold statement
  rw [if_neg (by simp [hflat])]
  split
  · exact ⟨_, assignment_takes, rfl⟩
  · exact ⟨_, bareCall_takes, rfl⟩
  · exact ⟨.error (expected ending "declaration or statement" ts, ts), .error (List.suffix_refl _), rfl⟩

lemma read_forward (ending : Span) (hp : p.Standing)
    (hroom : atBlock p.rest = true → p.opened.length < maxBlockDepth) : Forward p (p.read ending) := by
  unfold Position.read
  split
  · next hat =>
    have htakes : Takes p.rest 1 (blockHead ending p.rest) := blockHead_takes
    split
    · next ts hok =>
      obtain ⟨hts, hlen⟩ := htakes.suffix_of_ok hok
      exact { rest := hts, advances := .inl ⟨hlen, Nat.le_refl _⟩, depth := fun _ => hroom hat,
              reports := by simp only [List.length_cons]; omega }
    · next e ts herror => exact fail_forward e hp (htakes.suffix_of_error herror)
  · next hat =>
    obtain ⟨x, htakes, hx⟩ := statement_takes ending (fun ts => ⟨[], [], ts⟩) (Bool.eq_false_iff.2 hat)
    rw [hx]
    cases htakes with
    | ok hts hlen => exact .of_eq rfl hts hlen (by simp [Position.take, Outcome.ofParsed])
    | @error e ts hts =>
      have hfail : p.take (.ofParsed (.error (e, ts))) = p.fail e ts := by simp [Position.take, Outcome.ofParsed]
      rw [hfail]
      exact fail_forward e hp hts

lemma close_forward (ending : Span) {o : Frame} {os : List Frame} (hopened : p.opened = o :: os) :
    Forward p (p.close ending o os) := by
  have hlen : p.opened.length = os.length + 1 := by rw [hopened, List.length_cons]
  have htakes : Takes p.rest 1 (expect ending .rbrace p.rest) := expect_takes .rbrace
  unfold Position.close
  split
  · next stop ts hok =>
    obtain ⟨hts, hless⟩ := htakes.suffix_of_ok hok
    refine { rest := hts, advances := .inr hlen.symm, depth := fun h => ?_, reports := ?_ }
    · dsimp only
      omega
    · dsimp only
      omega
  · next e ts herror =>
    have hts := (skip_suffix os ts).trans (htakes.suffix_of_error herror)
    have hle := hts.length_le
    refine { rest := hts, advances := .inr hlen.symm, depth := fun h => ?_, reports := ?_ }
    · dsimp only [Position.fail]
      omega
    · simp only [Position.fail, List.length_append, List.length_singleton]
      omega

/-- **A turn takes a token or leaves a block**, and opens one only where there is room. -/
theorem turn_forward (h : Turn ending p q) : Forward p q := by
  unfold Turn Position.turn at h
  split at h
  · next hopened =>
    split at h
    · cases h
    next hrest =>
    have hp : p.Standing := ⟨by simpa using hrest, fun hne => absurd hopened hne⟩
    split at h
    · exact Option.some.inj h ▸ declare_forward ending hp
    · refine Option.some.inj h ▸ read_forward ending hp fun _ => ?_
      rw [hopened]
      decide
  · next o os hopened =>
    split at h
    · exact Option.some.inj h ▸ close_forward ending hopened
    next hclose =>
    simp only [Position.atClose, Bool.or_eq_true, not_or, List.isEmpty_iff, Bool.not_eq_true] at hclose
    have hp : p.Standing := ⟨hclose.1, fun _ => hclose.2⟩
    split at h
    · exact Option.some.inj h ▸ fail_forward _ hp (List.suffix_refl _)
    split at h
    · exact Option.some.inj h ▸
        .of_eq rfl (skipBlock_suffix 0 p.rest) (length_skipBlock_lt 0 hp.ne_nil) (by simp)
    · next hdeep =>
      refine Option.some.inj h ▸ read_forward ending hp fun hat => ?_
      simpa [hat] using hdeep

/-! ### Runs -/

/-- What a run keeps. -/
lemma run_kept (h : Relation.ReflTransGen (Turn ending) p q) :
    q.rest <:+ p.rest ∧ (p.opened.length ≤ maxBlockDepth → q.opened.length ≤ maxBlockDepth) ∧
      q.errors.length + q.opened.length + q.rest.length ≤ p.errors.length + p.opened.length + p.rest.length := by
  induction h with
  | refl => exact ⟨List.suffix_refl _, id, Nat.le_refl _⟩
  | tail _ hturn ih =>
    have hforward := turn_forward hturn
    exact ⟨hforward.rest.trans ih.1, hforward.depth ∘ ih.2.1, Nat.le_trans hforward.reports ih.2.2⟩

/-- A loop that has its next turn has come further: what lies between takes a token, unless it leaves blocks only. -/
lemma run_advances (h : Relation.TransGen (Turn ending) p q) :
    q.rest.length < p.rest.length ∨ q.opened.length < p.opened.length := by
  induction h with
  | single hturn =>
    rcases (turn_forward hturn).advances with ⟨hlt, -⟩ | hleft
    · exact .inl hlt
    · exact .inr (by omega)
  | tail hrun hturn ih =>
    have hforward := turn_forward hturn
    have hle := hforward.rest.length_le
    rcases hforward.advances with ⟨hlt, -⟩ | hleft
    · exact .inl (Nat.lt_of_lt_of_le hlt (run_kept hrun.to_reflTransGen).1.length_le)
    · rcases ih with hlt | hless
      · exact .inl (by omega)
      · exact .inr (by omega)

/-- The turns there can still be: a token may open a block, which is left later. -/
def Position.weight (p : Position) : Nat := 2 * p.rest.length + p.opened.length

lemma weight_lt (h : Turn ending p q) : q.weight < p.weight := by
  have hforward := turn_forward h
  have hle := hforward.rest.length_le
  unfold Position.weight
  rcases hforward.advances with ⟨hlt, hopened⟩ | hleft
  · omega
  · omega

/-- A run has as many turns as it lowers the weight, or fewer. -/
lemma exists_turns (h : Relation.ReflTransGen (Turn ending) p q) :
    ∃ n, n + q.weight ≤ p.weight ∧ (Option.bind · (Position.turn ending))^[n] (some p) = some q := by
  induction h with
  | refl => exact ⟨0, Nat.le_of_eq (Nat.zero_add _), rfl⟩
  | tail _ hturn ih =>
    obtain ⟨n, hn, hrun⟩ := ih
    have hless := weight_lt hturn
    refine ⟨n + 1, by omega, ?_⟩
    rw [Function.iterate_succ_apply', hrun]
    exact hturn

/-! ### Turns read what the parser reads -/

namespace Position

/-- What has been read inside a block is added. -/
def inside (p : Position) (b : Body) : Position :=
  { p with errors := p.errors ++ b.errors, statements := p.statements ++ b.statements, rest := b.rest }

/-- What has been read of the program is added, and nothing is left. -/
def finish (p : Position) (r : Reading) : Position :=
  { p with
    errors := p.errors ++ r.errors
    declarations := p.declarations ++ r.declarations
    statements := p.statements ++ r.statements
    rest := [] }

end Position

lemma take_of_error {out : Outcome} {e : SourceError} (h : out.result = .error e) : p.take out =
    { p with errors := p.errors ++ out.inner ++ [e], rest := Position.skip p.opened out.rest } := by
  simp [Position.take, Position.fail, h]

lemma take_of_ok {out : Outcome} {x : Statement} (h : out.result = .ok x) : p.take out =
    { p with errors := p.errors ++ out.inner, statements := p.statements ++ [x], rest := out.rest } := by
  simp [Position.take, h]

lemma turn_inside (ending : Span) (hp : p.opened ≠ []) (hclose : Position.atClose p.rest = false) :
    p.turn ending = some (
      if atDeclaration p.rest then
        p.fail (.lateDeclaration (declaredName p.rest) (nextSpan ending p.rest)) p.rest
      else if decide (maxBlockDepth ≤ p.opened.length) && atBlock p.rest then
        { p with
          errors := p.errors ++ [.nestingTooDeep maxBlockDepth (nextSpan ending p.rest)]
          rest := skipBlock 0 p.rest }
      else p.read ending) := by
  unfold Position.turn
  split
  · next hopened => exact absurd hopened hp
  · rw [if_neg (by simp [hclose])]
    split_ifs <;> rfl

lemma turn_outside (ending : Span) (hp : p.opened = []) (hrest : p.rest ≠ []) :
    p.turn ending = some (if atDeclaration p.rest then p.declare ending else p.read ending) := by
  unfold Position.turn
  split
  · rw [if_neg (by simpa using hrest)]
    split_ifs <;> rfl
  · next hopened => rw [hp] at hopened; cases hopened

/-- The turns inside blocks that lie `depth` deep come to where `body` stops, and read what it reads. -/
def Traverses (ending : Span) (depth : Nat) (body : List Token → Body) : Prop :=
  ∀ p : Position, p.opened.length = depth →
    Relation.ReflTransGen (Turn ending) p (p.inside (body p.rest)) ∧ Position.atClose (body p.rest).rest = true

lemma reaches_block {body : List Token → Body} (hat : atBlock p.rest = true)
    (hbody : Traverses ending (p.opened.length + 1) body) (hturn : Turn ending p (p.read ending)) :
    Relation.TransGen (Turn ending) p (p.take (block ending body p.rest)) := by
  rw [Position.read, if_pos hat] at hturn
  unfold block
  cases hhead : blockHead ending p.rest with
  | error halt =>
    obtain ⟨e, ts⟩ := halt
    rw [hhead] at hturn
    have hfail : p.fail e ts = p.take ⟨[], .error e, ts⟩ := by simp [Position.take]
    exact .single (hfail ▸ hturn)
  | ok head =>
    obtain ⟨⟨label, start, parameters⟩, ts⟩ := head
    rw [hhead] at hturn
    dsimp only at hturn ⊢
    obtain ⟨hrun, hend⟩ :=
      hbody ⟨⟨label, start, parameters, p.statements⟩ :: p.opened, p.errors, p.declarations, [], ts⟩ rfl
    refine (Relation.TransGen.single hturn).trans_left hrun |>.tail ?_
    unfold Turn Position.turn Position.inside
    dsimp only at hend ⊢
    rw [if_pos hend, Position.close]
    dsimp only
    cases expect ending .rbrace (body ts).rest with
    | error halt => rfl
    | ok found => rfl

/-- The turns of a statement end behind it. -/
lemma reaches_statement {body : List Token → Body}
    (hbody : atBlock p.rest = true → Traverses ending (p.opened.length + 1) body)
    (hturn : Turn ending p (p.read ending)) :
    Relation.TransGen (Turn ending) p (p.take (statement ending body p.rest)) := by
  by_cases hat : atBlock p.rest = true
  · have hblock : statement ending body p.rest = block ending body p.rest := by
      unfold statement
      rw [if_pos hat]
    rw [hblock]
    exact reaches_block hat (hbody hat) hturn
  · have hsame : p.read ending = p.take (statement ending body p.rest) := by
      unfold Position.read statement
      rw [if_neg hat, if_neg hat, if_neg hat]
    exact .single (hsame ▸ hturn)

section Inside

variable {deepest : Bool} {one : List Token → Outcome} {depth : Nat}

/-- A round of the loop inside a block: after some turns the loop stands at what is left to it. -/
lemma exists_round (hp : p.opened.length = depth) (hdepth : 0 < depth)
    (hdeepest : deepest = decide (maxBlockDepth ≤ depth)) (hclose : Position.atClose p.rest = false)
    (hone : (deepest && atBlock p.rest) = false → Turn ending p (p.read ending) →
      Relation.TransGen (Turn ending) p (p.take (one p.rest))) :
    ∃ q : Position, Relation.TransGen (Turn ending) p q ∧ q.opened = p.opened ∧ ∀ fuel,
      p.inside (bodyWithin ending deepest one (fuel + 1) p.rest) =
        q.inside (bodyWithin ending deepest one fuel q.rest) := by
  have hinside : p.opened ≠ [] := List.ne_nil_of_length_pos (hp ▸ hdepth)
  have hturn := turn_inside ending hinside hclose
  rw [hp, ← hdeepest] at hturn
  have hgo : ¬ (p.rest.isEmpty || nextIs .rbrace p.rest) = true := by simpa [Position.atClose] using hclose
  by_cases hdecl : atDeclaration p.rest = true
  · rw [if_pos hdecl, Position.fail, skip_of_inside hinside] at hturn
    refine ⟨_, .single hturn, rfl, fun fuel => ?_⟩
    rw [bodyWithin, if_neg hgo, if_pos hdecl]
    simp [Position.inside]
  rw [if_neg hdecl] at hturn
  by_cases hdeep : (deepest && atBlock p.rest) = true
  · rw [if_pos hdeep] at hturn
    refine ⟨_, .single hturn, rfl, fun fuel => ?_⟩
    rw [bodyWithin, if_neg hgo, if_neg hdecl, if_pos hdeep]
    simp [Position.inside]
  rw [if_neg hdeep] at hturn
  have hrun := hone (Bool.eq_false_iff.2 hdeep) hturn
  cases hresult : (one p.rest).result with
  | ok x =>
    rw [take_of_ok hresult] at hrun
    refine ⟨_, hrun, rfl, fun fuel => ?_⟩
    rw [bodyWithin, if_neg hgo, if_neg hdecl, if_neg hdeep]
    simp [Position.inside, hresult]
  | error e =>
    rw [take_of_error hresult, skip_of_inside hinside] at hrun
    refine ⟨_, hrun, rfl, fun fuel => ?_⟩
    rw [bodyWithin, if_neg hgo, if_neg hdecl, if_neg hdeep]
    simp [Position.inside, hresult]

lemma traverses_bodyWithin (hdepth : 0 < depth) (hdeepest : deepest = decide (maxBlockDepth ≤ depth))
    (hone : ∀ p : Position, p.opened.length = depth → (deepest && atBlock p.rest) = false →
      Turn ending p (p.read ending) → Relation.TransGen (Turn ending) p (p.take (one p.rest))) :
    Traverses ending depth fun ts => bodyWithin ending deepest one (ts.length + 1) ts := by
  suffices hfuel : ∀ (fuel : Nat) (p : Position), p.opened.length = depth → p.rest.length < fuel →
      Relation.ReflTransGen (Turn ending) p (p.inside (bodyWithin ending deepest one fuel p.rest)) ∧
        Position.atClose (p.inside (bodyWithin ending deepest one fuel p.rest)).rest = true from
    fun p hp => hfuel _ p hp (Nat.lt_succ_self _)
  intro fuel
  induction fuel with
  | zero => exact fun _ _ hlen => absurd hlen (Nat.not_lt_zero _)
  | succ fuel ih =>
    intro p hp hlen
    cases hclose : Position.atClose p.rest with
    | true =>
      have hstop : bodyWithin ending deepest one (fuel + 1) p.rest = ⟨[], [], p.rest⟩ := if_pos hclose
      rw [hstop]
      refine ⟨?_, hclose⟩
      simp only [Position.inside, List.append_nil]
      exact .refl
    | false =>
      obtain ⟨q, hrun, hq, hround⟩ := exists_round hp hdepth hdeepest hclose (hone p hp)
      have hless : q.rest.length < fuel := by
        have hadvances := run_advances hrun
        rw [hq] at hadvances
        omega
      obtain ⟨hmore, hend⟩ := ih q (hq ▸ hp) hless
      rw [hround]
      exact ⟨hrun.to_reflTransGen.trans hmore, hend⟩

end Inside

/-- **The turns inside blocks read what the parser reads there**, as deep as blocks may be. -/
theorem traverses_body {room depth : Nat} (hroom : depth + room = maxBlockDepth) (hdepth : 0 < depth) :
    Traverses ending depth (body ending room) := by
  induction room generalizing depth with
  | zero =>
    have hdeepest : true = decide (maxBlockDepth ≤ depth) := (decide_eq_true (Nat.le_of_eq hroom.symm)).symm
    refine traverses_bodyWithin hdepth hdeepest fun p hp hflat hturn => reaches_statement (fun hat => ?_) hturn
    rw [hat] at hflat
    cases hflat
  | succ room ih =>
    have hdeepest : false = decide (maxBlockDepth ≤ depth) := (decide_eq_false (by omega)).symm
    refine traverses_bodyWithin hdepth hdeepest fun p hp _ hturn => reaches_statement (fun _ => ?_) hturn
    rw [hp]
    exact ih (by omega) (Nat.succ_pos _)

/-- Statements have been read, so that a declaration comes too late. -/
def Position.late (p : Position) : Bool := !p.statements.isEmpty

/-- A round of the loop of the program: after some turns the loop stands at what is left to it. -/
lemma exists_outer_round (hp : p.opened = []) (hrest : p.rest ≠ []) :
    ∃ q : Position, Relation.TransGen (Turn ending) p q ∧ q.opened = [] ∧ ∀ fuel,
      p.finish (readWithin ending (fuel + 1) p.late p.rest) = q.finish (readWithin ending fuel q.late q.rest) := by
  have hturn := turn_outside ending hp hrest
  have hgo : ¬ p.rest.isEmpty = true := by simpa using hrest
  by_cases hdecl : atDeclaration p.rest = true
  · rw [if_pos hdecl, Position.declare] at hturn
    cases hread : declaration ending p.rest with
    | ok found =>
      obtain ⟨d, ts⟩ := found
      rw [hread] at hturn
      dsimp only at hturn
      cases hempty : p.statements.isEmpty with
      | true =>
        rw [if_pos hempty] at hturn
        refine ⟨_, .single hturn, hp, fun fuel => ?_⟩
        rw [readWithin, if_neg hgo, if_pos hdecl, hread]
        simp [Position.finish, Position.late, hempty]
      | false =>
        rw [if_neg (by simp [hempty])] at hturn
        refine ⟨_, .single hturn, hp, fun fuel => ?_⟩
        rw [readWithin, if_neg hgo, if_pos hdecl, hread]
        simp [Position.finish, Position.late, hempty]
    | error halt =>
      obtain ⟨e, ts⟩ := halt
      rw [hread] at hturn
      dsimp only at hturn
      rw [Position.fail, hp, skip_of_outside] at hturn
      refine ⟨_, .single hturn, rfl, fun fuel => ?_⟩
      rw [readWithin, if_neg hgo, if_pos hdecl, hread]
      simp [Position.finish, Position.late, hp]
  · rw [if_neg hdecl] at hturn
    have hbody : Traverses ending (p.opened.length + 1) (body ending (maxBlockDepth - 1)) :=
      traverses_body (by rw [hp]; rfl) (Nat.succ_pos _)
    have hrun : Relation.TransGen (Turn ending) p (p.take (topStatement ending p.rest)) :=
      reaches_statement (fun _ => hbody) hturn
    cases hresult : (topStatement ending p.rest).result with
    | ok x =>
      rw [take_of_ok hresult] at hrun
      have hlate : (p.statements ++ [x]).isEmpty = false := by simp [List.isEmpty_eq_false_iff]
      refine ⟨_, hrun, hp, fun fuel => ?_⟩
      rw [readWithin, if_neg hgo, if_neg hdecl]
      simp [Position.finish, Position.late, hresult, hlate]
    | error e =>
      rw [take_of_error hresult, hp, skip_of_outside] at hrun
      refine ⟨_, hrun, rfl, fun fuel => ?_⟩
      rw [readWithin, if_neg hgo, if_neg hdecl]
      simp [Position.finish, Position.late, hresult, hp]

/-- **The turns read what the parser reads.** -/
theorem reaches_readWithin {fuel : Nat} (hp : p.opened = []) (hfuel : p.rest.length < fuel) :
    Relation.ReflTransGen (Turn ending) p (p.finish (readWithin ending fuel p.late p.rest)) := by
  induction fuel generalizing p with
  | zero => exact absurd hfuel (Nat.not_lt_zero _)
  | succ fuel ih =>
    by_cases hrest : p.rest = []
    · have hstop : readWithin ending (fuel + 1) p.late p.rest = ⟨[], [], []⟩ := if_pos (by simp [hrest])
      rw [hstop]
      simp only [Position.finish, List.append_nil, ← hrest]
      exact .refl
    · obtain ⟨q, hrun, hq, hround⟩ := exists_outer_round hp hrest
      have hless : q.rest.length < fuel := by
        have hadvances := run_advances hrun
        rw [hq, hp] at hadvances
        omega
      rw [hround]
      exact hrun.to_reflTransGen.trans (ih hq hless)

lemma result_finish (ts : Tokens) :
    ((Position.start ts.tokens).finish (readWithin ts.ending (ts.tokens.length + 1) false ts.tokens)).result =
      program ts := rfl

/-- What is kept on the way through a program. -/
lemma kept_of_start (h : Relation.ReflTransGen (Turn ending) (.start ts) p) :
    p.rest <:+ ts ∧ p.opened.length ≤ maxBlockDepth ∧ p.errors.length ≤ ts.length := by
  obtain ⟨hrest, hdepth, hreports⟩ := run_kept h
  refine ⟨hrest, hdepth (Nat.zero_le _), ?_⟩
  simp only [Position.start, List.length_nil] at hreports
  omega

/-- **Reading a program ends, with its loops nested no deeper than blocks may be.**  The loops of the parser, taken turn
by turn, come to their end in two turns a token, with what `program` gives.  On the way the tokens that are left are
always tokens at the end, blocks are open `maxBlockDepth` deep at most, and there is an error for every token at most.
From one turn to any later one tokens are taken or blocks are left.  Recovery and the skipping of blocks go on only
behind the token that they stand at, and the arguments of a call end before the number of turns that they are given
does. -/
theorem program_ends (ts : Tokens) :
    (∃ n p, n ≤ 2 * ts.tokens.length ∧
      (Option.bind · (Position.turn ts.ending))^[n] (some (.start ts.tokens)) = some p ∧
      p.turn ts.ending = none ∧ p.result = program ts) ∧
    (∀ p, Relation.ReflTransGen (Turn ts.ending) (.start ts.tokens) p →
      p.rest <:+ ts.tokens ∧ p.opened.length ≤ maxBlockDepth ∧ p.errors.length ≤ ts.tokens.length ∧
      ∀ q, Relation.TransGen (Turn ts.ending) p q →
        q.rest <:+ p.rest ∧ (q.rest.length < p.rest.length ∨ q.opened.length < p.opened.length)) ∧
    (∀ es, program ts = .error es → es.length ≤ ts.tokens.length) ∧
    (∀ t rest, recover (t :: rest) = t :: rest ∨ recover (t :: rest) = rest ∨
      recover (t :: rest) = recover rest) ∧
    (∀ depth t rest, skipBlock depth (t :: rest) = rest ∨
      ∃ depth', skipBlock depth (t :: rest) = skipBlock depth' rest) ∧
    ∀ fuel left, left.length < fuel → argumentsWithin ts.ending fuel left = arguments ts.ending left := by
  have hrun : Relation.ReflTransGen (Turn ts.ending) (.start ts.tokens)
      ((Position.start ts.tokens).finish (readWithin ts.ending (ts.tokens.length + 1) false ts.tokens)) :=
    reaches_readWithin rfl (Nat.lt_succ_self _)
  refine ⟨?_, fun p hp => ?_, fun es hes => ?_, recover_cons, skipBlock_cons, fun _ _ => argumentsWithin_eq⟩
  · obtain ⟨n, hn, hturns⟩ := exists_turns hrun
    refine ⟨n, _, ?_, hturns, rfl, result_finish ts⟩
    simp only [Position.weight, Position.start, List.length_nil] at hn
    omega
  · obtain ⟨hrest, hdepth, herrors⟩ := kept_of_start hp
    exact ⟨hrest, hdepth, herrors, fun q hq => ⟨(run_kept hq.to_reflTransGen).1, run_advances hq⟩⟩
  · obtain ⟨-, -, herrors⟩ := kept_of_start hrun
    have hresult := result_finish ts
    rw [hes, Position.result] at hresult
    split at hresult
    · cases hresult
    · obtain rfl := Except.error.inj hresult
      exact herrors

end Waveflow.Parser
