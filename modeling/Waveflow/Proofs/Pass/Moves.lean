import Waveflow.Proofs.Pass.Guard
import Waveflow.Proofs.Pass.Pipeline

/-!
# Moves

`Move r g g'` is one change that a pass makes to a graph, with what the pass has looked at before it made the change:
only the marks of paths and of reports are left on nodes that stay, a node that is merged away is not a part, a node
that is divided is neither a part nor divided before, and a node that is protected is a target.  Under a ceiling that
is no positive number a hot node may be divided into no part at all; that is a move as well, so whatever a move keeps
holds under every ceiling.

A pass that does not fail has made a chain of moves (`PassId.run_moves`), and so has a pipeline that gives a graph
(`Pipeline.optimize_moves`).
-/

namespace Waveflow

open Checked (Yields)

variable {r : Registry} {g g' : Graph} {n : Node} {ceiling : Option Float} {kept ids : List NodeId}

/-! ### One move -/

/-- One change that a pass makes. -/
inductive Move (r : Registry) (g : Graph) : Graph → Prop
  | mark {n : Node} (key : String) (value : AttrValue) :
      n ∈ g.nodes → key = pathMark ∨ key = warnedMark ∧ value = .flag true →
      Move r g (g.graft n.id (Node.marked key value) [])
  | merge {keep dup : Node} {op : OpKind} :
      keep ∈ g.nodes → dup ∈ g.nodes → keep.id ≠ dup.id → dup.kind = .operation op →
      CoherencePass.isDuplicate keep dup = true → dup.attrs.hasFlag partMark = false →
      Move r g (g.merged dup.id keep.id)
  | divide {n : Node} {op : OpKind} (load : Float) (parts : Nat) :
      n ∈ g.nodes → n.kind = .operation op → n.attrs.hasFlag partMark = false →
      n.attrs.mark? dividedMark = none →
      parts ≤ ThermalPass.maxParts → Move r g (ThermalPass.divided r g n load parts)
  | wrap {n : Node} (code : String) (distance : Nat) :
      n ∈ g.nodes → ProtectionPass.isTarget r n = true → Move r g (ProtectionPass.wrapped r g n code distance)
  | regroup (hints : Hints) : Move r g { g with hints := hints }

/-- Any number of moves. -/
abbrev Moves (r : Registry) : Graph → Graph → Prop := Relation.ReflTransGen (Move r)

/-- **A move keeps a graph well-formed.** -/
theorem Move.wellFormed (h : Move r g g') (hg : g.WellFormed) : g'.WellFormed := by
  cases h with
  | mark key value hn hkey => exact (graftable_mark hg hn).wellFormed hg
  | merge hkeep hdup hne hkind hsame hpart => exact hg.merged (Graph.id_mem_ids hkeep) hne
  | divide load parts hn hkind hpart hwhole hparts => exact (graftable_divide hg hn).wellFormed hg
  | wrap code distance hn htarget => exact (graftable_wrap hg hn).wellFormed hg
  | regroup hints => exact ⟨hg.ordered, hg.below, hg.closed⟩

/-- **A move leads to no cycle.** -/
theorem Move.acyclic (h : Move r g g') (hg : g.WellFormed) (ha : g.Acyclic) : g'.Acyclic := by
  obtain ⟨rank, hr⟩ := Graph.exists_ranked hg.ordered hg.closed ha
  have hranked : ∃ rank', g'.Ranked rank' := by
    cases h with
    | mark key value hn hkey =>
      exact hr.graft 1 (fun _ => 0) hg (graftable_mark hg hn) (fun _ => Nat.zero_lt_one)
        (fun i hi => .inl ⟨hg.closed _ hn i hi, hr _ hn i hi⟩) (fun _ hm => absurd hm List.not_mem_nil)
    | merge hkeep hdup hne hkind hsame hpart =>
      exact hr.merged hg.ordered hkeep hdup (isDuplicate_spec hsame hkind).2.1
    | divide load parts hn hkind hpart hwhole hparts => exact hr.divide hg hn
    | wrap code distance hn htarget => exact hr.wrap hg hn
    | regroup hints => exact ⟨rank, hr⟩
  obtain ⟨rank', hr'⟩ := hranked
  exact hr'.acyclic

lemma Moves.wellFormed (h : Moves r g g') (hg : g.WellFormed) : g'.WellFormed := by
  induction h with
  | refl => exact hg
  | tail _ hstep ih => exact hstep.wellFormed ih

lemma Moves.acyclic (h : Moves r g g') (hg : g.WellFormed) (ha : g.Acyclic) : g'.Acyclic := by
  induction h with
  | refl => exact ha
  | tail hchain hstep ih => exact hstep.acyclic (Moves.wellFormed hchain hg) ih

/-! ### The passes -/

namespace CoherencePass

/-- The candidates from here on are no parts. -/
def Whole (g : Graph) (ids : List NodeId) : Prop := ∀ n ∈ g.nodes, n.id ∈ ids → n.attrs.hasFlag partMark = false

lemma Whole.tail {id : NodeId} (h : Whole g (id :: ids)) : Whole g ids :=
  fun n hn hid => h n hn (List.mem_cons_of_mem _ hid)

lemma Whole.merged (h : Whole g ids) (dup keep : NodeId) : Whole (g.merged dup keep) ids := by
  intro n hn hid
  obtain ⟨m, hm, -, rfl⟩ := Graph.mem_merged.1 hn
  exact h m hm hid

lemma whole_candidates (hg : g.Ordered) : Whole g (candidates r g) :=
  fun _ hn hid => (mergeable_of_mem hg hn hid).2.1

/-- Merges that are not refused are moves. -/
lemma merge_moves {count : Nat} (hg : g.WellFormed) (hlisted : Listed g kept ids) (hwhole : Whole g ids)
    (hok : (merge g kept ids).result = .ok count) : Moves r g (merge g kept ids).graph := by
  induction ids generalizing g kept count with
  | nil => exact .refl
  | cons id rest ih =>
    rw [merge] at hok ⊢
    split at hok
    · next houtput =>
      rw [if_pos houtput]
      exact ih hg hlisted.moved hwhole.tail hok
    · next houtput =>
      rw [if_neg houtput]
      split at hok
      · exact ih hg hlisted.tail hwhole.tail hok
      · next n hn =>
        obtain ⟨hmem, rfl⟩ := (Graph.node?_eq_some_iff hg.ordered).1 hn
        split at hok
        · exact ih hg hlisted.moved hwhole.tail hok
        · next k hk =>
          obtain ⟨hkept, keep, hkeep, rfl, hsame⟩ := keeper?_eq_some hg.ordered hk
          have hne : keep.id ≠ n.id := fun e => hlisted.apart _ hkept (e ▸ List.mem_cons_self ..)
          obtain ⟨op, hkind⟩ := hlisted.operations n hmem (List.mem_cons_self ..)
          have hpart := hwhole n hmem (List.mem_cons_self ..)
          rcases mergeInto_ends (r := r) hg hkeep hmem hne hkind hsame (by simpa using houtput) with
            ⟨heq, -⟩ | ⟨⟨e, he⟩, -⟩
          · have hstep : Move r g (g.merged n.id keep.id) := .merge hkeep hmem hne hkind hsame hpart
            rw [heq] at hok ⊢
            obtain ⟨more, hmore, -⟩ := Checked.map_eq_ok.1 hok
            exact .head hstep (ih (hstep.wellFormed hg) (hlisted.tail.merged n.id keep.id)
              (hwhole.tail.merged n.id keep.id) hmore)
          · dsimp only at hok
            rw [he] at hok
            cases hok

lemma markAlong_moves (hg : g.WellFormed) (known : List (NodeId × Float)) (ids : List NodeId) :
    Moves r g (markAlong r g known ids).graph := by
  induction ids generalizing g known with
  | nil => exact .refl
  | cons id rest ih =>
    rw [markAlong]
    split
    · exact ih hg known
    · next n hn =>
      dsimp only
      split
      · exact ih hg _
      · obtain ⟨hmem, rfl⟩ := (Graph.node?_eq_some_iff hg.ordered).1 hn
        have hstep : Move r g
            (g.modify n.id (fun m => { m with attrs := m.attrs.mark pathMark (.number (pathOf r known n)) })) := by
          rw [Graph.modify_eq_graft hg.ordered]
          exact .mark pathMark _ hmem (.inl rfl)
        exact .head hstep (ih (hstep.wellFormed hg) _)

lemma run_moves {out : Outcome} {changed : Bool} (hg : g.WellFormed) (ha : g.Acyclic)
    (hrun : run ⟨r, ceiling⟩ g = .ok out) (hok : out.result = .ok changed) : Moves r g out.graph := by
  unfold run mergeAll at hrun
  dsimp only at hrun
  split at hrun
  · obtain rfl := Except.ok.inj hrun
    cases hok
  · next count hcount =>
    have hmerges := merge_moves (r := r) hg (listed_candidates hg.ordered) (whole_candidates hg.ordered) hcount
    have hg' := Moves.wellFormed hmerges hg
    obtain ⟨order, horder, -⟩ := Graph.order_of_acyclic hg'.ordered (Moves.acyclic hmerges hg ha)
    unfold markAll at hrun
    rw [horder] at hrun
    obtain rfl := Except.ok.inj hrun
    exact hmerges.trans (markAlong_moves hg' [] order)

end CoherencePass

namespace ThermalPass

lemma step_moves (ceiling : Float) (hg : g.WellFormed) (id : NodeId) :
    Yields (step r ceiling g id) fun out => (∃ changed, out.result = .ok changed) ∧ Moves r g out.graph := by
  refine (step_spec ceiling hg id).mono ?_
  rintro _ (rfl | ⟨n, hn, op, load, parts, hkind, hhot, hparts, rfl⟩ | ⟨n, hn, atomic, load, -, rfl⟩)
  · exact ⟨⟨_, rfl⟩, .refl⟩
  · obtain ⟨-, hpart, hwhole⟩ := isHot_spec hhot
    exact ⟨⟨_, rfl⟩, .single (.divide load parts hn hkind hpart hwhole (parts_le hparts))⟩
  · exact ⟨⟨_, rfl⟩, .single (.mark warnedMark _ hn (.inr ⟨rfl, rfl⟩))⟩

lemma steps_moves (ceiling : Float) (hg : g.WellFormed) (ids : List NodeId) :
    Yields (steps r ceiling ids g) fun out => Moves r g out.graph := by
  induction ids generalizing g with
  | nil => exact .refl
  | cons id rest ih =>
    rw [steps]
    refine (step_moves ceiling hg id).bind ?_
    rintro first ⟨⟨changed, hfirst⟩, hmoves⟩
    rw [hfirst]
    exact (ih (Moves.wellFormed hmoves hg)).bind fun more hmore => hmoves.trans hmore

end ThermalPass

/-- Every node has been protected as it asks, up to the first code that is not supported. -/
lemma ProtectionPass.wrapAll_moves (hg : g.WellFormed) (htargets : Targets r g ids) :
    Yields (wrapAll r ids g) fun a => Moves r g a.graph := by
  induction ids generalizing g with
  | nil => exact .refl
  | cons id rest ih =>
    rw [wrapAll]
    obtain ⟨n, hn, rfl⟩ := Graph.mem_ids.1 (htargets.present id (List.mem_cons_self ..))
    have htarget := htargets.wanted n hn (List.mem_cons_self ..)
    refine (wrap_yields hg hn htarget).bind ?_
    rintro _ (⟨code, distance, rfl⟩ | ⟨code, rfl, -⟩)
    · have hstep : Move r g (wrapped r g n code distance) := .wrap code distance hn htarget
      have hrest := htargets.tail.wrapped hg hn (List.nodup_cons.1 htargets.nodup).1 code distance
      exact (ih (hstep.wellFormed hg) hrest).mono fun a ha => .head hstep ha
    · exact .refl

lemma PerformancePass.run_moves {out : Outcome} {changed : Bool} (hrun : PerformancePass.run g = .ok out)
    (hok : out.result = .ok changed) : Moves r g out.graph := by
  unfold PerformancePass.run at hrun
  obtain ⟨levels, -, hrun⟩ := Checked.bind_eq_ok.1 hrun
  cases levels with
  | error e =>
    obtain rfl := Except.ok.inj hrun
    cases hok
  | ok hints =>
    obtain rfl := Except.ok.inj hrun
    split
    · exact .refl
    · exact .single (.regroup hints)

/-- **A pass that does not fail has made moves.** -/
theorem PassId.run_moves {out : Outcome} {changed : Bool} (hg : g.WellFormed) (ha : g.Acyclic) (p : PassId)
    (hrun : p.pass.run ⟨r, ceiling⟩ g = .ok out) (hok : out.result = .ok changed) : Moves r g out.graph := by
  cases p with
  | coherence => exact CoherencePass.run_moves hg ha hrun hok
  | thermal =>
    have hrun : ThermalPass.run ⟨r, ceiling⟩ g = .ok out := hrun
    unfold ThermalPass.run at hrun
    split at hrun
    · obtain rfl := Except.ok.inj hrun
      exact .refl
    · next x hx => exact (ThermalPass.steps_moves x hg g.ids).of_ok hrun
  | errorCorrection =>
    have hrun : ProtectionPass.run ⟨r, ceiling⟩ g = .ok out := hrun
    unfold ProtectionPass.run at hrun
    obtain ⟨a, ha, hrun⟩ := Checked.bind_eq_ok.1 hrun
    obtain rfl := Except.ok.inj hrun
    exact (ProtectionPass.wrapAll_moves hg (ProtectionPass.targets_all hg.ordered)).of_ok ha
  | performance => exact PerformancePass.run_moves hrun hok

/-! ### Pipelines -/

namespace Pipeline

variable {passes : List Pass} {ids : List PassId} {outs : List Outcome} {out : Outcome} {changed : Bool}

/-- Passes that leave a trail without a failure have made moves. -/
lemma trail_moves (hpasses : ∀ p ∈ passes, ∃ id : PassId, id.pass = p) (hg : g.WellFormed) (ha : g.Acyclic)
    (htrail : trail ⟨r, ceiling⟩ passes g = .ok outs) (hpassed : Passed outs) : Moves r g (lastGraph g outs) := by
  induction passes generalizing g outs with
  | nil =>
    cases htrail
    exact .refl
  | cons p rest ih =>
    obtain ⟨first, more, changed, rfl, hfirst, hresult, hmore, hpassed'⟩ := exists_of_trail_cons htrail hpassed
    obtain ⟨hrun, -⟩ := Guard.verify_of_run hfirst hresult
    obtain ⟨id, rfl⟩ := hpasses _ (List.mem_cons_self ..)
    have hmoves := id.run_moves hg ha hrun hresult
    rw [lastGraph_cons]
    exact hmoves.trans (ih (fun q hq => hpasses q (List.mem_cons_of_mem _ hq)) (Moves.wellFormed hmoves hg)
      (Moves.acyclic hmoves hg ha) hmore hpassed')

lemma Traced.moves (h : Traced ⟨r, ceiling⟩ passes g outs out) (hresult : out.result = .ok changed)
    (hpasses : ∀ p ∈ passes, ∃ id : PassId, id.pass = p) (hg : g.WellFormed) (ha : g.Acyclic) :
    Moves r g out.graph := by
  have hpassed : Passed outs := by
    have hends := h.ends
    rw [hresult] at hends
    exact hends
  rw [h.graph_eq]
  exact trail_moves hpasses hg ha h.trail_eq hpassed

/-- A round that does not fail has made moves. -/
lemma runAll_moves (hg : g.WellFormed) (ha : g.Acyclic)
    (hrun : runAll ⟨r, ceiling⟩ (ids.map PassId.pass) g = .ok out) (hresult : out.result = .ok changed) :
    Moves r g out.graph := by
  obtain ⟨outs, htraced⟩ := runAll_traced hrun
  refine htraced.moves hresult (fun q hq => ?_) hg ha
  obtain ⟨id, -, hid⟩ := List.mem_map.1 hq
  exact ⟨id, hid⟩

/-- **A pipeline of the four passes makes moves**, whatever its ceiling and its rounds. -/
theorem optimize_moves {p : Pipeline} {sink sink' : Diagnostics} (hpasses : p.passes = ids.map PassId.pass)
    (hg : g.WellFormed) (ha : g.Acyclic) (hok : p.optimize r g sink = .ok (.ok g', sink')) : Moves r g g' := by
  obtain ⟨out, changed, hiterate, hresult, rfl⟩ := iterate_of_optimize hok
  obtain ⟨k, -, -, outs, htraced⟩ := iterate_traced hiterate
  refine htraced.moves hresult (fun q hq => ?_) hg ha
  obtain ⟨round, hround, hq⟩ := List.mem_flatten.1 hq
  rw [List.eq_of_mem_replicate hround, hpasses] at hq
  obtain ⟨id, -, hid⟩ := List.mem_map.1 hq
  exact ⟨id, hid⟩

end Pipeline

end Waveflow
