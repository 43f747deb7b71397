import Waveflow.Proofs.Source.Literals
import Waveflow.Proofs.Source.Phrases

/-!
# The parser reads the grammar

Statements, blocks and programs are read as the grammar says (`program_iff_grammar`), so that a list of tokens has
at most one tree; and its places are made of those of its tokens (`program_placed`).  The inside of a block is read by a
function that is handed down; the induction is on the room that is left for further blocks.  After an error the parser
goes on, but then it has recorded one, and a program comes only without any.
-/

namespace Waveflow.Parser

open Grammar

variable {ending : Span} {ts rest : List Token} {ks more : List TokenKind}

/-! ### Statements without blocks -/

lemma atBlock_iff : atBlock ts = true ↔ ∃ ls, kinds ts = .ident blockLabel :: ls := by
  constructor
  · intro h
    unfold atBlock at h
    split at h
    · next word _ tail =>
      rw [beq_iff_eq] at h
      exact ⟨kinds tail, by rw [h]; rfl⟩
    · cases h
  · rintro ⟨ls, hts⟩
    obtain ⟨span, tail, rfl, htail⟩ := exists_of_kinds_cons hts
    exact beq_self_eq_true blockLabel

lemma ne_blockLabel {name : String} {ls : List TokenKind} (hat : atBlock ts = false)
    (hts : kinds ts = .ident name :: ls) : name ≠ blockLabel := by
  rintro rfl
  rw [atBlock_iff.2 ⟨ls, hts⟩] at hat
  cases hat

lemma assignment_placed {s : Statement} (hat : atBlock ts = false) (hok : assignment ending ts = .ok (s, rest)) :
    ∃ taken, ts = taken ++ rest ∧ Placed.IsStatement Span.Made taken s ∧ s.nesting = 0 := by
  unfold assignment at hok
  obtain ⟨⟨⟨target, start⟩, ts₁⟩, hident, hok⟩ := Checked.bind_eq_ok.1 hok
  obtain ⟨⟨eq, ts₂⟩, heq, hok⟩ := Checked.bind_eq_ok.1 hok
  obtain ⟨⟨c, ts₃⟩, hcall, hok⟩ := Checked.bind_eq_ok.1 hok
  obtain ⟨⟨stop, ts₄⟩, hsemi, hok⟩ := Checked.bind_eq_ok.1 hok
  cases hok
  obtain rfl := expectIdent_eq hident
  obtain rfl := expect_eq rfl heq
  obtain rfl := expect_eq rfl hsemi
  obtain ⟨taken, rfl, hiscall⟩ := call_placed hcall
  have hspan := Span.Made.join ⟨.ident target, start⟩ (⟨.eq, eq⟩ :: taken) (.one ⟨.semi, stop⟩)
  exact ⟨_, by simp, .assignment start eq stop (ne_blockLabel hat rfl) hiscall hspan, rfl⟩

lemma assignment_complete (ending : Span) {target : String} {c : Call} (h : IsCall ks c)
    (hts : kinds ts = .ident target :: .eq :: (ks ++ .semi :: more)) :
    ∃ s rest, assignment ending ts = .ok (s, rest) ∧ s.unplaced = .assignment target c .nowhere ∧
      kinds rest = more := by
  obtain ⟨start, ts₁, hident, h₁⟩ := expectIdent_complete ending "assignment target" hts
  obtain ⟨_, ts₂, heq, h₂⟩ := expect_complete ending rfl h₁
  obtain ⟨c', ts₃, hcall, hc', h₃⟩ := call_complete ending h h₂
  obtain ⟨stop, rest, hsemi, hrest⟩ := expect_complete ending rfl h₃
  refine ⟨.assignment target c' (start.join stop), rest, ?_, by rw [Statement.unplaced, hc'], hrest⟩
  unfold assignment
  rw [hident, Checked.ok_bind]
  dsimp only
  rw [heq, Checked.ok_bind]
  dsimp only
  rw [hcall, Checked.ok_bind]
  dsimp only
  rw [hsemi]
  rfl

lemma bareCall_placed {s : Statement} (hat : atBlock ts = false) (hok : bareCall ending ts = .ok (s, rest)) :
    ∃ taken, ts = taken ++ rest ∧ Placed.IsStatement Span.Made taken s ∧ s.nesting = 0 := by
  unfold bareCall at hok
  obtain ⟨⟨c, ts₁⟩, hcall, hok⟩ := Checked.bind_eq_ok.1 hok
  obtain ⟨⟨semi, ts₂⟩, hsemi, hok⟩ := Checked.bind_eq_ok.1 hok
  cases hok
  obtain rfl := expect_eq rfl hsemi
  obtain ⟨taken, rfl, hiscall⟩ := call_placed hcall
  have hoperation : c.operation ≠ blockLabel := by
    cases hiscall with
    | mk operation _ _ _ => exact ne_blockLabel hat rfl
  exact ⟨_, by simp, .call semi hoperation hiscall, rfl⟩

lemma bareCall_complete (ending : Span) {c : Call} (h : IsCall ks c) (hts : kinds ts = ks ++ .semi :: more) :
    ∃ s rest, bareCall ending ts = .ok (s, rest) ∧ s.unplaced = .call c ∧ kinds rest = more := by
  obtain ⟨c', ts₁, hcall, hc', h₁⟩ := call_complete ending h hts
  obtain ⟨stop, rest, hsemi, hrest⟩ := expect_complete ending rfl h₁
  refine ⟨.call c', rest, ?_, by rw [Statement.unplaced, hc'], hrest⟩
  unfold bareCall
  rw [hcall, Checked.ok_bind]
  dsimp only
  rw [hsemi]
  rfl

/-! ### Blocks -/

lemma blockHead_placed {label : String} {start : Span} {as : List Argument}
    (hok : blockHead ending ts = .ok ((label, start, as), rest)) :
    ∃ taken lbrace, ts = ⟨.ident label, start⟩ :: (taken ++ ⟨.lbrace, lbrace⟩ :: rest) ∧
      Placed.IsParameters Span.Made taken as := by
  unfold blockHead at hok
  obtain ⟨⟨⟨label, start⟩, ts₁⟩, hident, hok⟩ := Checked.bind_eq_ok.1 hok
  obtain ⟨⟨as, ts₂⟩, hparams, hok⟩ := Checked.bind_eq_ok.1 hok
  obtain ⟨⟨lbrace, ts₃⟩, hbrace, hok⟩ := Checked.bind_eq_ok.1 hok
  cases hok
  obtain rfl := expectIdent_eq hident
  obtain rfl := expect_eq rfl hbrace
  unfold blockParameters at hparams
  split at hparams
  · next hnext =>
    obtain ⟨⟨⟨as, stop⟩, ts₂⟩, hargs, hparams⟩ := Checked.bind_eq_ok.1 hparams
    cases hparams
    obtain ⟨taken, htaken, hisas⟩ := arguments_placed hargs
    refine ⟨⟨.lparen, nextSpan ending ts₁⟩ :: (taken ++ [⟨.rparen, stop⟩]), lbrace, ?_,
      .some (.mk _ stop hisas)⟩
    rw [eq_of_nextIs ending rfl hnext, htaken]
    simp [nextSpan]
  · cases hparams
    exact ⟨[], lbrace, rfl, .none⟩

lemma blockHead_complete (ending : Span) {label : String} {as : List Argument} (h : IsParameters ks as)
    (hts : kinds ts = .ident label :: (ks ++ .lbrace :: more)) :
    ∃ start as' rest, blockHead ending ts = .ok ((label, start, as'), rest) ∧ as'.map Argument.unplaced = as ∧
      kinds rest = more := by
  obtain ⟨start, ts₁, hident, h₁⟩ := expectIdent_complete ending blockLabel hts
  have hparams : ∃ as' ts₂, blockParameters ending ts₁ = .ok (as', ts₂) ∧ as'.map Argument.unplaced = as ∧
      kinds ts₂ = .lbrace :: more := by
    unfold blockParameters
    cases h with
    | none =>
      have hnext : nextIs .lparen ts₁ = false := nextIs_eq_false rfl (by simp [h₁])
      exact ⟨[], ts₁, by rw [if_neg (by simp [hnext])], rfl, h₁⟩
    | @some ks as h =>
      have h₁' : kinds ts₁ = .lparen :: (ks ++ .rparen :: .lbrace :: more) := by simpa using h₁
      obtain ⟨_, tail, rfl, htail⟩ := exists_of_kinds_cons h₁'
      obtain ⟨as', stop, ts₂, hargs, has', h₂⟩ := arguments_complete ending h htail
      refine ⟨as', ts₂, ?_, has', h₂⟩
      rw [if_pos (nextIs_of_kinds rfl h₁'), List.tail_cons, hargs]
      rfl
  obtain ⟨as', ts₂, hread, has', h₂⟩ := hparams
  obtain ⟨_, rest, hbrace, hrest⟩ := expect_complete ending rfl h₂
  refine ⟨start, as', rest, ?_, has', hrest⟩
  unfold blockHead
  rw [hident, Checked.ok_bind]
  dsimp only
  rw [hread, Checked.ok_bind]
  dsimp only
  rw [hbrace]
  rfl

/-- Where a statement is found without an error inside, the tokens that are taken derive it, its places are made of
theirs, and its blocks are nested at most `depth` deep. -/
def Outcome.Derived (depth : Nat) (ts : List Token) (out : Outcome) : Prop :=
  out.inner = [] → ∀ s, out.result = .ok s →
    ∃ taken, ts = taken ++ out.rest ∧ Placed.IsStatement Span.Made taken s ∧ s.nesting ≤ depth

def Body.Derived (depth : Nat) (ts : List Token) (b : Body) : Prop :=
  b.errors = [] → ∃ chunks, ts = chunks.flatten ++ b.rest ∧
    List.Forall₂ (Placed.IsStatement Span.Made) chunks b.statements ∧ Statement.nestingAll b.statements ≤ depth

/-- The statement is found, and what follows is left. -/
def Outcome.Finds (s : Statement) (more : List TokenKind) (out : Outcome) : Prop :=
  out.inner = [] ∧ (∃ s', out.result = .ok s' ∧ s'.unplaced = s) ∧ kinds out.rest = more

def Body.Finds (ss : List Statement) (more : List TokenKind) (b : Body) : Prop :=
  b.errors = [] ∧ Statement.unplacedAll b.statements = ss ∧ kinds b.rest = more

lemma block_placed {body : List Token → Body} {room : Nat} (hbody : ∀ ts, (body ts).Derived room ts)
    (hat : atBlock ts = true) : (block ending body ts).Derived (room + 1) ts := by
  obtain ⟨_, hlabel⟩ := atBlock_iff.1 hat
  unfold block
  split
  · intro _ s hs
    cases hs
  next label start as left hhead =>
  obtain ⟨taken, lbrace, rfl, hisparams⟩ := blockHead_placed hhead
  dsimp only
  split
  · intro _ s hs
    cases hs
  next stop rest hclose =>
  intro herrors s hs
  cases hs
  obtain ⟨chunks, hchunks, hss, hnesting⟩ := hbody left herrors
  obtain rfl : label = blockLabel := TokenKind.ident.inj (List.cons.inj hlabel).1
  have hspan := Span.Made.join ⟨.ident blockLabel, start⟩ (taken ++ ⟨.lbrace, lbrace⟩ :: chunks.flatten)
    (.one ⟨.rbrace, stop⟩)
  refine ⟨_, ?_, .block start lbrace stop hisparams hss (by simpa using hspan), Nat.succ_le_succ hnesting⟩
  rw [hchunks, expect_eq rfl hclose]
  simp

lemma Outcome.ofParsed_placed {x : Except Halt (Statement × List Token)}
    (h : ∀ s rest, x = .ok (s, rest) →
      ∃ taken, ts = taken ++ rest ∧ Placed.IsStatement Span.Made taken s ∧ s.nesting = 0)
    (depth : Nat) : (Outcome.ofParsed x).Derived depth ts := by
  intro _ s hs
  cases x with
  | error e => cases hs
  | ok out =>
    cases hs
    obtain ⟨taken, htaken, hstatement, hflat⟩ := h _ _ rfl
    exact ⟨taken, htaken, hstatement, hflat ▸ Nat.zero_le depth⟩

lemma statement_placed {body : List Token → Body} {depth : Nat}
    (hblock : atBlock ts = true → ∃ room < depth, ∀ ts, (body ts).Derived room ts) :
    (statement ending body ts).Derived depth ts := by
  unfold statement
  split
  · next hat =>
    obtain ⟨room, hroom, hbody⟩ := hblock hat
    intro hinner s hs
    obtain ⟨taken, htaken, hstatement, hnesting⟩ := block_placed hbody hat hinner s hs
    exact ⟨taken, htaken, hstatement, Nat.le_trans hnesting hroom⟩
  next hat =>
  have hflat : atBlock ts = false := by simpa using hat
  split
  · exact Outcome.ofParsed_placed (fun s rest => assignment_placed hflat) depth
  · exact Outcome.ofParsed_placed (fun s rest => bareCall_placed hflat) depth
  · intro _ s hs
    cases hs

lemma bodyWithin_placed {deepest : Bool} {one : List Token → Outcome} {depth : Nat}
    (hone : ∀ ts, (deepest = true → atBlock ts = false) → (one ts).Derived depth ts)
    (fuel : Nat) (ts : List Token) :
    (bodyWithin ending deepest one fuel ts).Derived depth ts := by
  induction fuel generalizing ts with
  | zero => exact fun _ => ⟨[], rfl, .nil, Nat.zero_le depth⟩
  | succ fuel ih =>
    rw [bodyWithin]
    split
    · exact fun _ => ⟨[], rfl, .nil, Nat.zero_le depth⟩
    split
    · intro herrors
      cases herrors
    split
    · intro herrors
      cases herrors
    next hdeep =>
    have hfirst := hone ts fun hdeepest => by simpa [hdeepest] using hdeep
    dsimp only
    split
    · next s hs =>
      intro herrors
      obtain ⟨hinner, hmore⟩ := List.append_eq_nil_iff.1 herrors
      obtain ⟨taken, htaken, hstatement, hnesting⟩ := hfirst hinner s hs
      obtain ⟨chunks, hchunks, hss, hnestings⟩ := ih (one ts).rest hmore
      refine ⟨taken :: chunks, ?_, .cons hstatement hss, Nat.max_le.2 ⟨hnesting, hnestings⟩⟩
      rw [List.flatten_cons, List.append_assoc, ← hchunks]
      exact htaken
    · intro herrors
      obtain ⟨-, hmore⟩ := List.append_eq_nil_iff.1 herrors
      cases hmore

/-- **What is read inside a block derives from the grammar**, with places made of those of its tokens and with blocks
nested as deep as there is room. -/
lemma body_placed (ending : Span) (room : Nat) (ts : List Token) : (body ending room ts).Derived room ts := by
  induction room generalizing ts with
  | zero =>
    refine bodyWithin_placed (fun ts hflat => statement_placed fun hat => ?_) _ ts
    rw [hflat rfl] at hat
    cases hat
  | succ room ih =>
    exact bodyWithin_placed (fun ts _ => statement_placed fun _ => ⟨room, Nat.lt_succ_self room, ih⟩) _ ts

lemma topStatement_placed (ending : Span) (ts : List Token) : (topStatement ending ts).Derived maxBlockDepth ts :=
  statement_placed fun _ => ⟨maxBlockDepth - 1, by decide, body_placed ending _⟩

/-- A statement starts with a name and a mark, and with the name of blocks only if it is one. -/
lemma exists_head_of_isStatement {s : Statement} (h : IsStatement ks s) :
    ∃ name k ls, ks = .ident name :: k :: ls ∧ k.isMark = true ∧ (s.nesting = 0 → name ≠ blockLabel) := by
  cases h with
  | assignment hne _ => exact ⟨_, _, _, rfl, rfl, fun _ => hne⟩
  | call hne hcall =>
    cases hcall with
    | mk operation _ => exact ⟨_, _, _, rfl, rfl, fun _ => hne⟩
  | block hparams _ =>
    cases hparams with
    | none =>
      refine ⟨_, _, _, rfl, rfl, fun hflat => ?_⟩
      cases hflat
    | some _ =>
      refine ⟨_, _, _, rfl, rfl, fun hflat => ?_⟩
      cases hflat

lemma atDeclaration_eq_false {s : Statement} (h : IsStatement ks s) (hts : kinds ts = ks ++ more) :
    atDeclaration ts = false := by
  obtain ⟨name, k, ls, rfl, hmark, -⟩ := exists_head_of_isStatement h
  rw [Bool.eq_false_iff, ne_eq, atDeclaration_iff]
  rintro ⟨direction, other, tail, hdecl⟩
  obtain ⟨-, htail⟩ := List.cons.inj (hts.symm.trans hdecl)
  obtain ⟨rfl, -⟩ := List.cons.inj htail
  cases hmark

lemma atBlock_eq_false {s : Statement} (h : IsStatement ks s) (hflat : s.nesting = 0) (hts : kinds ts = ks ++ more) :
    atBlock ts = false := by
  obtain ⟨name, k, ls, rfl, -, hne⟩ := exists_head_of_isStatement h
  rw [Bool.eq_false_iff, ne_eq, atBlock_iff]
  rintro ⟨tail, hblock⟩
  exact hne hflat (TokenKind.ident.inj (List.cons.inj (hts.symm.trans hblock)).1)

/-- The function reads statements up to the closing brace, with blocks nested less than `depth` deep. -/
def Completes (depth : Nat) (body : List Token → Body) : Prop :=
  ∀ ⦃ts ls more ss⦄, Star IsStatement ls ss → Statement.nestingAll ss < depth →
    kinds ts = ls ++ .rbrace :: more → (body ts).Finds ss (.rbrace :: more)

lemma block_complete (ending : Span) {body : List Token → Body} {depth : Nat} (hbody : Completes depth body)
    {as : List Argument} {ls : List TokenKind} {ss : List Statement} (hparams : IsParameters ks as)
    (hss : Star IsStatement ls ss) (hdepth : Statement.nestingAll ss < depth)
    (hts : kinds ts = .ident blockLabel :: (ks ++ .lbrace :: (ls ++ .rbrace :: more))) :
    (block ending body ts).Finds (.block blockLabel as ss .nowhere) more := by
  obtain ⟨start, as', left, hhead, has', hleft⟩ := blockHead_complete ending hparams hts
  obtain ⟨herrors, hstatements, hrest⟩ := hbody hss hdepth hleft
  obtain ⟨stop, rest, hclose, hmore⟩ := expect_complete ending rfl hrest
  unfold block
  rw [hhead]
  dsimp only
  rw [hclose]
  refine ⟨herrors, ⟨_, rfl, ?_⟩, hmore⟩
  rw [Statement.unplaced, has', hstatements]

lemma statement_complete (ending : Span) {body : List Token → Body} {depth : Nat} (hbody : Completes depth body)
    {s : Statement} (h : IsStatement ks s) (hdepth : s.nesting ≤ depth) (hts : kinds ts = ks ++ more) :
    (statement ending body ts).Finds s more := by
  unfold statement
  cases h with
  | @assignment ks c target hne hcall =>
    have hflat : atBlock ts = false := atBlock_eq_false (.assignment hne hcall) rfl hts
    have hts' : kinds ts = .ident target :: .eq :: (ks ++ .semi :: more) := by simpa using hts
    obtain ⟨s, rest, hread, hs, hrest⟩ := assignment_complete ending hcall hts'
    rw [if_neg (by simp [hflat])]
    obtain ⟨_, tail, rfl, htail⟩ := exists_of_kinds_cons hts'
    obtain ⟨_, tail, rfl, -⟩ := exists_of_kinds_cons htail
    dsimp only
    rw [hread]
    exact ⟨rfl, ⟨s, rfl, hs⟩, hrest⟩
  | @call ks c hne hcall =>
    have hflat : atBlock ts = false := atBlock_eq_false (.call hne hcall) rfl hts
    have hts' : kinds ts = ks ++ .semi :: more := by simpa using hts
    obtain ⟨s, rest, hread, hs, hrest⟩ := bareCall_complete ending hcall hts'
    rw [if_neg (by simp [hflat])]
    cases hcall with
    | mk operation _ =>
      obtain ⟨_, tail, rfl, htail⟩ := exists_of_kinds_cons hts'
      obtain ⟨_, tail, rfl, -⟩ := exists_of_kinds_cons htail
      dsimp only
      rw [hread]
      exact ⟨rfl, ⟨s, rfl, hs⟩, hrest⟩
  | @block ks ls as ss hparams hss =>
    have hts' : kinds ts = .ident blockLabel :: (ks ++ .lbrace :: (ls ++ .rbrace :: more)) := by simpa using hts
    rw [if_pos (atBlock_iff.2 ⟨_, hts'⟩)]
    exact block_complete ending hbody hparams hss hdepth hts'

lemma bodyWithin_complete (ending : Span) {deepest : Bool} {one : List Token → Outcome} {depth : Nat}
    (hdeepest : deepest = true → depth = 0)
    (hone : ∀ ⦃ts ks more s⦄, IsStatement ks s → s.nesting ≤ depth →
      kinds ts = ks ++ more → (one ts).Finds s more)
    {fuel : Nat} {ls : List TokenKind} {ss : List Statement} (h : Star IsStatement ls ss)
    (hdepth : Statement.nestingAll ss ≤ depth) (hts : kinds ts = ls ++ .rbrace :: more) (hfuel : ls.length < fuel) :
    (bodyWithin ending deepest one fuel ts).Finds ss (.rbrace :: more) := by
  induction h generalizing ts fuel with
  | nil =>
    obtain ⟨fuel, rfl⟩ := Nat.exists_eq_succ_of_ne_zero (Nat.ne_of_gt hfuel)
    rw [bodyWithin, if_pos (by simp [nextIs_of_kinds rfl hts])]
    exact ⟨rfl, rfl, hts⟩
  | @cons ks ls s ss hs _ ih =>
    obtain ⟨fuel, rfl⟩ := Nat.exists_eq_succ_of_ne_zero (Nat.ne_of_gt (Nat.zero_lt_of_lt hfuel))
    obtain ⟨hfirst, hothers⟩ := Nat.max_le.1 hdepth
    rw [List.append_assoc] at hts
    obtain ⟨hinner, ⟨s', hresult, hs'⟩, hrest⟩ := hone hs hfirst hts
    have hhead := exists_head_of_isStatement hs
    have hgoes : (ts.isEmpty || nextIs .rbrace ts) = false := by
      obtain ⟨name, k, tail, rfl, -⟩ := hhead
      obtain ⟨span, left, rfl, -⟩ := exists_of_kinds_cons hts
      rfl
    have hblock : (deepest && atBlock ts) = false := by
      cases deepest with
      | false => rfl
      | true =>
        have hzero : s.nesting = 0 := Nat.le_zero.1 (hdeepest rfl ▸ hfirst)
        rw [atBlock_eq_false hs hzero hts]
        rfl
    have hless : ls.length < fuel := by
      obtain ⟨name, k, tail, rfl, -⟩ := hhead
      simp only [List.length_append, List.length_cons] at hfuel
      omega
    obtain ⟨herrors, hstatements, hleft⟩ := ih hothers hrest hless
    rw [bodyWithin, if_neg (by simp [hgoes]), if_neg (by simp [atDeclaration_eq_false hs hts]),
      if_neg (by simp [hblock])]
    dsimp only
    rw [hresult]
    refine ⟨?_, ?_, hleft⟩
    · dsimp only
      rw [hinner, herrors]
      rfl
    · dsimp only
      rw [Statement.unplacedAll, hs', hstatements]

lemma completes_body (ending : Span) (room : Nat) : Completes (room + 1) (body ending room) := by
  induction room with
  | zero =>
    intro ts ls more ss hss hdepth hts
    refine bodyWithin_complete ending (fun _ => rfl) ?_ hss (Nat.le_of_lt_succ hdepth) hts ?_
    · -- no block is opened here, so nothing is asked of the function that reads the inside of one
      have hnone : Completes 0 (fun ts => ⟨[], [], ts⟩) := fun _ _ _ _ _ hlt => absurd hlt (Nat.not_lt_zero _)
      exact fun ts ks more s hs hflat hts => statement_complete ending hnone hs hflat hts
    · rw [← length_kinds, hts, List.length_append]
      omega
  | succ room ih =>
    intro ts ls more ss hss hdepth hts
    refine bodyWithin_complete ending (fun hdeepest => ?_) ?_ hss (Nat.le_of_lt_succ hdepth) hts ?_
    · cases hdeepest
    · exact fun ts ks more s hs hle hts => statement_complete ending ih hs hle hts
    · rw [← length_kinds, hts, List.length_append]
      omega

/-! ### Programs -/

lemma isDeclaration_ne_nil {d : Declaration} (h : IsDeclaration ks d) : ks ≠ [] := by
  cases h with
  | mk _ _ _ => exact List.cons_ne_nil _ _

lemma length_lt_of_append {taken : List Token} (htaken : kinds taken ≠ []) (hts : ts = taken ++ rest) :
    rest.length < ts.length := by
  have hpos := List.length_pos_iff.2 htaken
  rw [length_kinds] at hpos
  rw [hts, List.length_append]
  omega

/-- What has been read without an error derives from the grammar, with places made of those of its tokens, and there
is no declaration after a statement. -/
lemma readWithin_placed (ending : Span) (fuel : Nat) (late : Bool) (ts : List Token) (hfuel : ts.length < fuel)
    (herrors : (readWithin ending fuel late ts).errors = []) :
    ∃ front back, ts = front.flatten ++ back.flatten ∧
      List.Forall₂ (Placed.IsDeclaration Span.Made) front (readWithin ending fuel late ts).declarations ∧
      List.Forall₂ (Placed.IsStatement Span.Made) back (readWithin ending fuel late ts).statements ∧
      Statement.nestingAll (readWithin ending fuel late ts).statements ≤ maxBlockDepth ∧
      (late = true → front = []) := by
  induction fuel generalizing late ts with
  | zero => cases hfuel
  | succ fuel ih =>
    rw [readWithin] at herrors ⊢
    by_cases hempty : ts.isEmpty = true
    · rw [if_pos hempty]
      rw [List.isEmpty_iff.1 hempty]
      exact ⟨[], [], rfl, .nil, .nil, Nat.zero_le _, fun _ => rfl⟩
    rw [if_neg hempty] at herrors ⊢
    by_cases hat : atDeclaration ts = true
    · rw [if_pos hat] at herrors ⊢
      cases hread : declaration ending ts with
      | error e =>
        rw [hread] at herrors
        cases herrors
      | ok out =>
        obtain ⟨d, rest⟩ := out
        rw [hread] at herrors
        dsimp only at herrors ⊢
        cases late with
        | true => cases herrors
        | false =>
          obtain ⟨taken, htaken, hd⟩ := declaration_placed hat hread
          have hless := length_lt_of_append (isDeclaration_ne_nil hd.1) htaken
          obtain ⟨front, back, hrest, hds, hss, hnesting, -⟩ := ih false rest (by omega) herrors
          refine ⟨taken :: front, back, ?_, .cons hd hds, hss, hnesting, fun h => by cases h⟩
          rw [htaken, hrest, List.flatten_cons, List.append_assoc]
    · rw [if_neg hat] at herrors ⊢
      dsimp only at herrors ⊢
      cases hresult : (topStatement ending ts).result with
      | error e =>
        rw [hresult] at herrors
        obtain ⟨-, hmore⟩ := List.append_eq_nil_iff.1 herrors
        cases hmore
      | ok s =>
        rw [hresult] at herrors
        dsimp only at herrors ⊢
        obtain ⟨hinner, hmore⟩ := List.append_eq_nil_iff.1 herrors
        obtain ⟨taken, htaken, hs, hdepth⟩ := topStatement_placed ending ts hinner s hresult
        have hne : kinds taken ≠ [] := by
          obtain ⟨name, k, tail, hkinds, -⟩ := exists_head_of_isStatement hs.unplaced
          exact hkinds ▸ List.cons_ne_nil _ _
        have hless := length_lt_of_append hne htaken
        obtain ⟨front, back, hrest, hds, hss, hnesting, hlate⟩ := ih true _ (by omega) hmore
        obtain rfl := hlate rfl
        refine ⟨[], taken :: back, ?_, hds, .cons hs hss, Nat.max_le.2 ⟨hdepth, hnesting⟩, fun _ => rfl⟩
        rw [List.flatten_cons, List.flatten_nil, List.nil_append]
        rw [List.flatten_nil, List.nil_append] at hrest
        rw [← hrest]
        exact htaken

lemma readWithin_statements (ending : Span) {fuel : Nat} (late : Bool) {ss : List Statement}
    (h : Star IsStatement ks ss) (hdepth : Statement.nestingAll ss ≤ maxBlockDepth) (hts : kinds ts = ks)
    (hfuel : ks.length < fuel) :
    (readWithin ending fuel late ts).errors = [] ∧ (readWithin ending fuel late ts).declarations = [] ∧
      Statement.unplacedAll (readWithin ending fuel late ts).statements = ss := by
  induction h generalizing ts fuel late with
  | nil =>
    obtain ⟨fuel, rfl⟩ := Nat.exists_eq_succ_of_ne_zero (Nat.ne_of_gt hfuel)
    rw [kinds_eq_nil.1 hts]
    exact ⟨rfl, rfl, rfl⟩
  | @cons ks ls s ss hs _ ih =>
    obtain ⟨fuel, rfl⟩ := Nat.exists_eq_succ_of_ne_zero (Nat.ne_of_gt (Nat.zero_lt_of_lt hfuel))
    obtain ⟨hfirst, hothers⟩ := Nat.max_le.1 hdepth
    obtain ⟨hinner, ⟨s', hresult, hs'⟩, hrest⟩ :=
      statement_complete ending (completes_body ending (maxBlockDepth - 1)) hs hfirst hts
    have hhead := exists_head_of_isStatement hs
    have hgoes : ts.isEmpty = false := by
      obtain ⟨name, k, tail, rfl, -⟩ := hhead
      obtain ⟨span, left, rfl, -⟩ := exists_of_kinds_cons hts
      rfl
    have hless : ls.length < fuel := by
      obtain ⟨name, k, tail, rfl, -⟩ := hhead
      simp only [List.length_append, List.length_cons] at hfuel
      omega
    obtain ⟨herrors, hdeclarations, hstatements⟩ := ih true hothers hrest hless
    have htop : (topStatement ending ts).result = .ok s' := hresult
    rw [readWithin, if_neg (by simp [hgoes]), if_neg (by simp [atDeclaration_eq_false hs hts])]
    dsimp only
    rw [htop]
    refine ⟨?_, hdeclarations, ?_⟩
    · show (topStatement ending ts).inner ++ _ = []
      rw [show (topStatement ending ts).inner = [] from hinner]
      exact herrors
    · show Statement.unplacedAll (s' :: _) = _
      rw [Statement.unplacedAll, hs']
      exact congrArg _ hstatements

lemma readWithin_complete (ending : Span) {fuel : Nat} {ds : List Declaration} {ss : List Statement}
    {ls : List TokenKind} (h : Star IsDeclaration ks ds) (hss : Star IsStatement ls ss)
    (hdepth : Statement.nestingAll ss ≤ maxBlockDepth) (hts : kinds ts = ks ++ ls)
    (hfuel : (ks ++ ls).length < fuel) :
    (readWithin ending fuel false ts).errors = [] ∧
      (readWithin ending fuel false ts).declarations.map Declaration.unplaced = ds ∧
      Statement.unplacedAll (readWithin ending fuel false ts).statements = ss := by
  induction h generalizing ts fuel with
  | nil =>
    obtain ⟨herrors, hdeclarations, hstatements⟩ := readWithin_statements ending false hss hdepth hts hfuel
    exact ⟨herrors, by rw [hdeclarations]; rfl, hstatements⟩
  | @cons ks ks' d ds hd _ ih =>
    obtain ⟨fuel, rfl⟩ := Nat.exists_eq_succ_of_ne_zero (Nat.ne_of_gt (Nat.zero_lt_of_lt hfuel))
    rw [List.append_assoc] at hts
    obtain ⟨hat, d', rest, hread, hd', hrest⟩ := declaration_complete ending hd hts
    have hgoes : ts.isEmpty = false := by
      cases ts with
      | nil => cases hat
      | cons t tail => rfl
    have hless : (ks' ++ ls).length < fuel := by
      have hpos := List.length_pos_iff.2 (isDeclaration_ne_nil hd)
      simp only [List.length_append] at hfuel ⊢
      omega
    obtain ⟨herrors, hdeclarations, hstatements⟩ := ih hrest hless
    rw [readWithin, if_neg (by simp [hgoes]), if_pos hat, hread]
    dsimp only
    rw [if_neg Bool.false_ne_true]
    exact ⟨herrors, by rw [List.map_cons, hd', hdeclarations], hstatements⟩

/-- **What the parser finds derives from the grammar**, with places made of those of its tokens. -/
lemma program_placed {ts : Tokens} {p : Program} (h : program ts = .ok p) :
    Placed.IsProgram Span.Made ts.tokens p := by
  unfold program at h
  dsimp only at h
  split at h
  · next hnone =>
    cases h
    obtain ⟨front, back, hts, hds, hss, hnesting, -⟩ :=
      readWithin_placed ts.ending _ false ts.tokens (Nat.lt_succ_self _) (List.isEmpty_iff.1 hnone)
    have hprogram := Placed.IsProgram.mk hds hss hnesting
    rwa [← hts] at hprogram
  · cases h

lemma program_sound {ts : Tokens} {p : Program} (h : program ts = .ok p) : IsProgram (kinds ts.tokens) p.unplaced :=
  (program_placed h).unplaced

lemma program_complete {ts : Tokens} {q : Program} (h : IsProgram (kinds ts.tokens) q) :
    ∃ p, program ts = .ok p ∧ p.unplaced = q := by
  generalize hks : kinds ts.tokens = ks at h
  cases h with
  | @mk ks ls ds ss hds hss hdepth =>
    have hfuel : (ks ++ ls).length < ts.tokens.length + 1 := by
      rw [← hks, length_kinds]
      exact Nat.lt_succ_self _
    obtain ⟨herrors, hdeclarations, hstatements⟩ := readWithin_complete ts.ending hds hss hdepth hks hfuel
    unfold program
    dsimp only
    rw [if_pos (List.isEmpty_iff.2 herrors)]
    refine ⟨_, rfl, ?_⟩
    rw [Program.unplaced, hdeclarations, hstatements]

/-- **The parser reads the grammar.**  Tokens are a program exactly if they derive one, and then what is read is,
but for its places, the one tree that they derive; otherwise there is an error to report. -/
theorem program_iff_grammar (ts : Tokens) :
    ((∃ p, program ts = .ok p) ↔ ∃ q, IsProgram (kinds ts.tokens) q) ∧
    (∀ p, program ts = .ok p → ∀ q, IsProgram (kinds ts.tokens) q ↔ q = p.unplaced) ∧
    (∀ errors, program ts = .error errors → errors ≠ []) := by
  refine ⟨⟨?_, ?_⟩, ?_, ?_⟩
  · rintro ⟨p, hp⟩
    exact ⟨p.unplaced, program_sound hp⟩
  · rintro ⟨q, hq⟩
    obtain ⟨p, hp, -⟩ := program_complete hq
    exact ⟨p, hp⟩
  · intro p hp q
    constructor
    · intro hq
      obtain ⟨p', hp', rfl⟩ := program_complete hq
      rw [Except.ok.inj (hp.symm.trans hp')]
    · rintro rfl
      exact program_sound hp
  · exact fun errors => program_errors

end Waveflow.Parser
