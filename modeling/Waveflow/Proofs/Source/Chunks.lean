import Waveflow.Proofs.Source.Recovery

/-!
# Every malformed statement is reported, but for one kind

A source text is taken as chunks, each up to a semicolon.  A chunk by itself gives no error if it is a statement,
and one error if it is not.  All chunks together give the errors that they give by themselves, one after the other,
except that a chunk that lacks a value at its semicolon hides the chunk after it.
-/

namespace Waveflow.Parser

open Grammar

variable {ending : Span} {c ts more : List Token} {chunks : List (List Token)}

/-- The errors that are reported of the tokens. -/
def reported (ts : Tokens) : List SourceError :=
  match program ts with
  | .ok _ => []
  | .error errors => errors

lemma reported_eq (ts : Tokens) :
    reported ts = (readWithin ts.ending (ts.tokens.length + 1) false ts.tokens).errors := by
  unfold reported program
  dsimp only
  split
  · next h =>
    split at h
    · next hnone => exact (List.isEmpty_iff.1 hnone).symm
    · cases h
  · next h =>
    split at h
    · cases h
    · exact (Except.error.inj h).symm

lemma exists_program {ts : Tokens} (h : reported ts = []) : ∃ p, program ts = .ok p := by
  rw [reported_eq] at h
  exact ⟨_, by rw [program, h]; rfl⟩

/-! ### One chunk -/

/-- A run is read as a statement exactly if it is one. -/
lemma topStatement_ok_iff (ending : Span) (h : IsRun ts) :
    (∃ s, (topStatement ending ts).result = .ok s) ↔ ∃ s, IsStatement (kinds ts) s := by
  constructor
  · rintro ⟨s, hs⟩
    obtain ⟨x, y, hconfined, hx, -⟩ := topStatement_confined ending h []
    have hderived := topStatement_placed ending ts
    rw [hx] at hs hderived
    cases hconfined with
    | ok hrest =>
      obtain ⟨taken, htaken, hstatement, -⟩ := hderived rfl s hs
      refine ⟨s.unplaced, ?_⟩
      simpa [htaken, Outcome.ofParsed, hrest] using hstatement.unplaced
    | error _ | swallowed => cases hs
  · rintro ⟨s, hs⟩
    have hflat : s.nesting ≤ maxBlockDepth := by
      generalize hks : kinds ts = ks at hs
      cases hs with
      | assignment _ _ | call _ _ => exact Nat.zero_le _
      | block _ _ => exact absurd (by simp [hks]) (h.not_mem (.inl rfl))
    have hfinds :=
      statement_complete ending (completes_body ending (maxBlockDepth - 1)) hs hflat (List.append_nil _).symm
    exact ⟨_, hfinds.2.1.choose_spec.1⟩

/-- What lacks a value is no statement. -/
lemma not_lacksValue (h : IsRun ts) (hok : ∃ s, IsStatement (kinds ts) s) : ¬ LacksValue (kinds ts) := by
  intro hlacks
  obtain ⟨s, hs⟩ := (topStatement_ok_iff .nowhere h).2 hok
  obtain ⟨e, he⟩ := (swallows_topStatement .nowhere h).2 hlacks
  rw [he] at hs
  cases hs

/-- The error of a run that is no statement. -/
def flaws (ending : Span) (ts : List Token) : List SourceError :=
  match (topStatement ending ts).result with
  | .ok _ => []
  | .error e => [e]

/-! ### Going on after a chunk -/

lemma recover_append (h : IsRun ts) (more : List Token) : recover (ts ++ more) = more := by
  induction h with
  | stop hstop => simp [recover, hstop]
  | more hsemi _ hclose _ ih =>
    rw [List.cons_append, recover]
    split
    · next hkind => exact absurd hkind hclose
    · next hkind => exact absurd hkind hsemi
    · exact ih

/-- No closing brace stands at the start of a chunk. -/
lemma nextIs_rbrace_flatten (h : ∀ c ∈ chunks, IsChunk c) : nextIs .rbrace chunks.flatten = false := by
  cases chunks with
  | nil => rfl
  | cons c rest =>
    have hrun := (h c (List.mem_cons_self ..)).run
    rw [List.flatten_cons, nextIs_append _ hrun]
    refine nextIs_eq_false rfl fun hhead => hrun.not_mem (.inr rfl) (List.mem_of_head? hhead)

lemma resume_append (hts : IsRun ts) (h : ∀ c ∈ chunks, IsChunk c) :
    resume (ts ++ chunks.flatten) = chunks.flatten := by
  simp [resume, recover_append hts, nextIs_rbrace_flatten h]

/-- Behind a semicolon that was taken by mistake the next chunk is passed over. -/
lemma resume_flatten (h : ∀ c ∈ chunks, IsChunk c) : resume chunks.flatten = (chunks.drop 1).flatten := by
  cases chunks with
  | nil => rfl
  | cons c rest => exact resume_append (h c (List.mem_cons_self ..)).run fun d hd => h d (List.mem_cons_of_mem _ hd)

lemma atDeclaration_append (h : IsChunk c) (more : List Token) : atDeclaration (c ++ more) = false := by
  rw [Bool.eq_false_iff, ne_eq, atDeclaration_iff]
  rintro ⟨direction, name, ls, hls⟩
  obtain ⟨hrun, hundeclared⟩ := h
  cases hrun with
  | stop hstop =>
    rw [List.cons_append, kinds_cons, hstop] at hls
    cases hls
  | @more t ts _ _ _ hts =>
    obtain ⟨u, us, rfl⟩ := List.exists_cons_of_ne_nil hts.ne_nil
    simp only [List.cons_append, kinds_cons, List.cons.injEq] at hls
    exact hundeclared direction name (kinds us) (by simp [hls.1, hls.2.1])

/-- The chunks that are read as such: behind one that lacks a value the next is passed over. -/
inductive Heard : List (List Token) → List (List Token) → Prop
  | nil : Heard [] []
  | next {c : List Token} {cs ds : List (List Token)} : ¬ LacksValue (kinds c) → Heard cs ds →
      Heard (c :: cs) (c :: ds)
  | past {c : List Token} {cs ds : List (List Token)} : LacksValue (kinds c) → Heard (cs.drop 1) ds →
      Heard (c :: cs) (c :: ds)

lemma Heard.eq {ds : List (List Token)} (h : Heard chunks ds) (hfull : ∀ c ∈ chunks, ¬ LacksValue (kinds c)) :
    ds = chunks := by
  induction h with
  | nil => rfl
  | next _ _ ih => rw [ih fun d hd => hfull d (List.mem_cons_of_mem _ hd)]
  | past hlacks _ _ => exact absurd hlacks (hfull _ (List.mem_cons_self ..))

lemma Heard.mem {ds : List (List Token)} (h : Heard chunks ds) : ∀ {d : List Token}, d ∈ ds → d ∈ chunks := by
  induction h with
  | nil => exact id
  | next _ _ ih =>
    rintro d (_ | ⟨_, hd⟩)
    · exact List.mem_cons_self ..
    · exact List.mem_cons_of_mem _ (ih hd)
  | past _ _ ih =>
    rintro d (_ | ⟨_, hd⟩)
    · exact List.mem_cons_self ..
    · exact List.mem_cons_of_mem _ (List.mem_of_mem_drop (ih hd))

/-- The errors in chunks are the errors of those that are heard, one after the other. -/
theorem exists_heard (ending : Span) {fuel : Nat} (late : Bool) (h : ∀ c ∈ chunks, IsChunk c)
    (hfuel : chunks.flatten.length < fuel) :
    ∃ ds, Heard chunks ds ∧ (readWithin ending fuel late chunks.flatten).errors = ds.flatMap (flaws ending) := by
  induction fuel generalizing chunks late with
  | zero => cases hfuel
  | succ fuel ih =>
    cases chunks with
    | nil => exact ⟨[], .nil, rfl⟩
    | cons c cs =>
      have hc := h c (List.mem_cons_self ..)
      have hcs : ∀ d ∈ cs, IsChunk d := fun d hd => h d (List.mem_cons_of_mem _ hd)
      have hpos := List.length_pos_iff.2 hc.run.ne_nil
      have hlen : cs.flatten.length < fuel := by
        simp only [List.flatten_cons, List.length_append] at hfuel
        omega
      have hlen' : (cs.drop 1).flatten.length ≤ cs.flatten.length := by cases cs <;> simp
      have hcs' : ∀ d ∈ cs.drop 1, IsChunk d := fun d hd => hcs d (List.mem_of_mem_drop hd)
      obtain ⟨x, y, hconfined, hx, hy⟩ := topStatement_confined ending hc.run cs.flatten
      have hswallows := swallows_topStatement ending hc.run
      have hok := topStatement_ok_iff ending hc.run
      rw [hx] at hswallows hok
      rw [List.flatten_cons, readWithin, if_neg (by simp [hc.run.ne_nil]),
        if_neg (by simp [atDeclaration_append hc]), hy]
      have hflaws : flaws ending c = match (Outcome.ofParsed x).result with
        | .ok _ => []
        | .error e => [e] := by rw [flaws, hx]
      cases hconfined with
      | @ok s rest hrest =>
        obtain ⟨ds, hheard, herrors⟩ := ih true hcs hlen
        refine ⟨c :: ds, .next (not_lacksValue hc.run (hok.1 ⟨s, rfl⟩)) hheard, ?_⟩
        rw [List.flatMap_cons, hflaws, hrest]
        exact herrors
      | @error e rest hrest =>
        obtain ⟨ds, hheard, herrors⟩ := ih late hcs hlen
        have hfull : ¬ LacksValue (kinds c) := by
          intro hlacks
          obtain ⟨e', he'⟩ := hswallows.2 hlacks
          exact hrest.ne_nil (congrArg Outcome.rest he')
        refine ⟨c :: ds, .next hfull hheard, ?_⟩
        rw [List.flatMap_cons, hflaws]
        simp only [Outcome.ofParsed, resume_append hrest hcs, herrors]
        rfl
      | @swallowed e =>
        obtain ⟨ds, hheard, herrors⟩ := ih late hcs' (by omega)
        refine ⟨c :: ds, .past (hswallows.1 ⟨e, rfl⟩) hheard, ?_⟩
        rw [List.flatMap_cons, hflaws]
        simp only [Outcome.ofParsed, resume_flatten hcs, herrors]
        rfl

/-- By itself a chunk gives its own error. -/
lemma reported_chunk (ending : Span) (h : IsChunk c) : reported ⟨c, ending⟩ = flaws ending c := by
  have hone : ∀ d ∈ [c], IsChunk d := by simpa using h
  obtain ⟨ds, hheard, herrors⟩ := exists_heard ending false hone (Nat.lt_succ_self _)
  have hds : ds = [c] := by
    cases hheard with
    | next _ hnone | past _ hnone =>
      cases hnone
      rfl
  rw [hds] at herrors
  simpa [reported_eq] using herrors

/-- **A malformed statement is reported once and hides no other, unless it lacks a value at its semicolon.**  By
itself a chunk gives no error if it is a statement, and one if it is not; chunks together give these errors in
order, those apart that stand right behind a chunk that lacks a value and is heard.  So all are reported where no
chunk lacks a value, and nothing is where all are statements. -/
theorem reported_chunks (ending : Span) (h : ∀ c ∈ chunks, IsChunk c) :
    (∀ c ∈ chunks, (∃ s, IsStatement (kinds c) s) ∧ reported ⟨c, ending⟩ = [] ∨
      (¬ ∃ s, IsStatement (kinds c) s) ∧ ∃ e, reported ⟨c, ending⟩ = [e]) ∧
    (∃ ds, Heard chunks ds ∧
      reported ⟨chunks.flatten, ending⟩ = ds.flatMap fun c => reported ⟨c, ending⟩) ∧
    ((∀ c ∈ chunks, ¬ LacksValue (kinds c)) →
      reported ⟨chunks.flatten, ending⟩ = chunks.flatMap fun c => reported ⟨c, ending⟩) ∧
    ((∀ c ∈ chunks, ∃ s, IsStatement (kinds c) s) → ∃ p, program ⟨chunks.flatten, ending⟩ = .ok p) := by
  have hchunk : ∀ c ∈ chunks, (∃ s, IsStatement (kinds c) s) ∧ reported ⟨c, ending⟩ = [] ∨
      (¬ ∃ s, IsStatement (kinds c) s) ∧ ∃ e, reported ⟨c, ending⟩ = [e] := by
    intro c hc
    rw [← topStatement_ok_iff ending (h c hc).run, reported_chunk ending (h c hc), flaws]
    cases (topStatement ending c).result with
    | ok s => exact .inl ⟨⟨s, rfl⟩, rfl⟩
    | error e => exact .inr ⟨nofun, e, rfl⟩
  obtain ⟨ds, hheard, herrors⟩ := exists_heard ending false h (Nat.lt_succ_self _)
  have hall : reported ⟨chunks.flatten, ending⟩ = ds.flatMap fun c => reported ⟨c, ending⟩ := by
    rw [reported_eq, herrors]
    exact List.flatMap_congr fun d hd => (reported_chunk ending (h d (hheard.mem hd))).symm
  have hfull : (∀ c ∈ chunks, ¬ LacksValue (kinds c)) →
      reported ⟨chunks.flatten, ending⟩ = chunks.flatMap fun c => reported ⟨c, ending⟩ :=
    fun hfull => hheard.eq hfull ▸ hall
  refine ⟨hchunk, ⟨ds, hheard, hall⟩, hfull, fun hstatements => exists_program ?_⟩
  rw [hfull fun c hc => not_lacksValue (h c hc).run (hstatements c hc), List.flatMap_eq_nil_iff]
  intro c hc
  rcases hchunk c hc with ⟨-, hnone⟩ | ⟨hmalformed, -⟩
  · exact hnone
  · exact absurd (hstatements c hc) hmalformed

/-- The tokens of three chunks, each of which is malformed: `f(x: -;`, `= ;` and `);`. -/
def crumbs : List (List Token) :=
  [[.ident "f", .lparen, .ident "x", .colon, .minus, .semi], [.eq, .semi], [.rparen, .semi]].map
    (List.map fun k => ⟨k, .nowhere⟩)

lemma isChunk_crumbs : ∀ c ∈ crumbs, IsChunk c := by
  simp only [crumbs, List.map_cons, List.map_nil, List.forall_mem_cons, List.not_mem_nil, false_implies, implies_true,
    and_true]
  refine ⟨⟨?_, ?_⟩, ⟨?_, ?_⟩, ?_, ?_⟩
  · iterate 5 refine .more nofun nofun nofun ?_
    exact .stop rfl
  · intro direction name ks h
    cases (List.cons.inj h).2
  · exact .more nofun nofun nofun (.stop rfl)
  · rintro direction name ks ⟨⟩
  · exact .more nofun nofun nofun (.stop rfl)
  · rintro direction name ks ⟨⟩

/-- The first crumb hides the second; the last two, without it, are both reported. -/
theorem reported_chunks_crumbs :
    (∃ ds, Heard crumbs ds ∧
      reported ⟨crumbs.flatten, .nowhere⟩ = ds.flatMap fun c => reported ⟨c, .nowhere⟩) ∧
    (∀ c ∈ crumbs.drop 1, ¬ LacksValue (kinds c)) ∧
    reported ⟨(crumbs.drop 1).flatten, .nowhere⟩ = (crumbs.drop 1).flatMap fun c => reported ⟨c, .nowhere⟩ := by
  have hfull : ∀ c ∈ crumbs.drop 1, ¬ LacksValue (kinds c) := by
    simp only [crumbs, List.map_cons, List.map_nil, List.drop_succ_cons, List.drop_zero, List.forall_mem_cons,
      List.not_mem_nil, false_implies, implies_true, and_true]
    exact ⟨nofun, nofun⟩
  have hdrop : ∀ c ∈ crumbs.drop 1, IsChunk c := fun c hc => isChunk_crumbs c (List.mem_of_mem_drop hc)
  exact ⟨(reported_chunks .nowhere isChunk_crumbs).2.1, hfull, (reported_chunks .nowhere hdrop).2.2.1 hfull⟩

/-- Not every malformed chunk is reported: of three that are no statements, two errors are heard. -/
theorem hidden_crumb : (∀ c ∈ crumbs, IsChunk c ∧ ¬ ∃ s, IsStatement (kinds c) s) ∧
    crumbs.length = 3 ∧ (reported ⟨crumbs.flatten, .nowhere⟩).length = 2 := by
  refine ⟨fun c hc => ⟨isChunk_crumbs c hc, ?_⟩, rfl, by decide +kernel⟩
  rw [← topStatement_ok_iff .nowhere (isChunk_crumbs c hc).run]
  have hbad : ∀ c ∈ crumbs, (topStatement .nowhere c).result.toOption.isNone := by decide +kernel
  rintro ⟨s, hs⟩
  have hnone := hbad c hc
  rw [hs] at hnone
  cases hnone

end Waveflow.Parser
