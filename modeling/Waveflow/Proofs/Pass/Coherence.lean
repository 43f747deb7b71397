import Waveflow.Proofs.Graph.Edit
import Waveflow.Proofs.Pass.Sound

/-!
# The coherence pass rewrites

Merging goes through the candidates with the nodes kept so far; the two lists share no number, so a node
is never merged into itself.  On a sound graph no merge is refused: a candidate is an operation and not a
declared input, the outputs are left out, and nothing uses a node once its uses have been moved.
-/

namespace Waveflow

open Checked (Yields)

variable {r : Registry} {g : Graph} {n keep dup : Node} {op : OpKind} {kept ids : List NodeId} {id k : NodeId}

/-- A known operation without side effects that has inputs and is not a part. -/
def Node.Mergeable (r : Registry) (n : Node) : Prop :=
  n.inputs ≠ [] ∧ n.attrs.hasFlag partMark = false ∧
    ∃ op spec, n.kind = .operation op ∧ r.specOf? op = some spec ∧ spec.sideEffecting = false

namespace CoherencePass

/-! ### Candidates -/

lemma isCandidate_iff : isCandidate r n = true ↔ n.Mergeable r := by
  unfold isCandidate Node.Mergeable
  rw [Bool.and_eq_true, Bool.and_eq_true, Bool.not_eq_true', Bool.not_eq_true', List.isEmpty_eq_false_iff, and_assoc]
  refine and_congr_right fun _ => and_congr_right fun _ => ?_
  constructor
  · intro hknown
    split at hknown
    · next spec hspec =>
      obtain ⟨op, hop, hspec⟩ := Option.bind_eq_some_iff.1 hspec
      exact ⟨op, spec, Node.op?_eq_some_iff.1 hop, hspec, by simpa using hknown⟩
    · cases hknown
  · rintro ⟨op, spec, hkind, hspec, hpure⟩
    rw [Node.op?_eq_some_iff.2 hkind, Option.bind_some, hspec]
    dsimp only
    rw [hpure]
    rfl

/-- The numbers that merging goes through. -/
abbrev candidates (r : Registry) (g : Graph) : List NodeId := (g.nodes.filter (isCandidate r)).map (·.id)

lemma mem_candidates : id ∈ candidates r g ↔ ∃ n ∈ g.nodes, n.id = id ∧ n.Mergeable r := by
  simp only [List.mem_map, List.mem_filter, isCandidate_iff]
  constructor
  · rintro ⟨n, ⟨hn, hmergeable⟩, rfl⟩
    exact ⟨n, hn, rfl, hmergeable⟩
  · rintro ⟨n, hn, rfl, hmergeable⟩
    exact ⟨n, ⟨hn, hmergeable⟩, rfl⟩

lemma mergeable_of_mem (hg : g.Ordered) (hn : n ∈ g.nodes) (hid : n.id ∈ candidates r g) : n.Mergeable r := by
  obtain ⟨m, hm, hmn, hmergeable⟩ := mem_candidates.1 hid
  exact hg.eq_of_id_eq hm hn hmn ▸ hmergeable

lemma candidates_subset_ids : candidates r g ⊆ g.ids := by
  intro id hid
  obtain ⟨n, hn, rfl, -⟩ := mem_candidates.1 hid
  exact Graph.id_mem_ids hn

lemma candidates_ascend (hg : g.Ordered) : (candidates r g).Pairwise (· < ·) :=
  hg.ids_ascend.sublist (List.filter_sublist.map _)

/-! ### Merging -/

/-- A merge into another node drops the node, or it is refused because the node is declared as an input. -/
lemma mergeInto_cases (hg : g.Ordered) (hk : k ∈ g.ids) (hid : id ∈ g.ids) (hne : k ≠ id)
    (houtput : g.isOutput id = false) : mergeInto g id k = ⟨g.merged id k, .ok ()⟩ ∧ id ∉ g.inputs ∨
      (∃ e, (mergeInto g id k).result = .error e) ∧ id ∈ g.inputs := by
  obtain ⟨moved, hmoved⟩ : ∃ moved, g.replaceUses id k none = .ok (moved, _) := Graph.replaceUses_eq hg hk
  unfold mergeInto
  rw [hmoved]
  dsimp only
  by_cases hinput : id ∈ g.inputs
  · right
    refine ⟨?_, hinput⟩
    split
    · exact ⟨_, rfl⟩
    · next hremove => exact absurd hinput (Graph.remove_ok hremove).1
  · left
    obtain ⟨removed, hremoved⟩ := Graph.remove_eq hg hid hne hinput houtput
    rw [hremoved]
    exact ⟨rfl, hinput⟩

/-- A merge into an equal node is a rewrite, or it is refused and the graph was not sound. -/
lemma mergeInto_ends (hg : g.WellFormed) (hkeep : keep ∈ g.nodes) (hdup : dup ∈ g.nodes) (hne : keep.id ≠ dup.id)
    (hkind : dup.kind = .operation op) (hsame : isDuplicate keep dup = true) (houtput : g.isOutput dup.id = false) :
    (mergeInto g dup.id keep.id = ⟨g.merged dup.id keep.id, .ok ()⟩ ∧
      Rewrite r .coherence g (g.merged dup.id keep.id)) ∨
    ((∃ e, (mergeInto g dup.id keep.id).result = .error e) ∧ ¬ g.Sound) := by
  refine (mergeInto_cases hg.ordered (Graph.id_mem_ids hkeep) (Graph.id_mem_ids hdup) hne houtput).imp ?_ ?_
  · rintro ⟨heq, hinput⟩
    refine ⟨heq, .merge hkeep hdup hne hkind hsame hinput fun out hout hid => ?_⟩
    unfold Graph.isOutput at houtput
    rw [List.any_eq_false] at houtput
    exact houtput out hout (beq_iff_eq.2 hid)
  · rintro ⟨hrefused, hinput⟩
    refine ⟨hrefused, fun hs => ?_⟩
    obtain ⟨n, hn, hid, hn'⟩ := (hs.inputs dup.id).1 hinput
    obtain rfl := hg.ordered.eq_of_id_eq hn hdup hid
    rw [hkind] at hn'
    cases hn'

lemma keeper?_eq_some {k : NodeId} (hg : g.Ordered) (h : keeper? g kept n = some k) :
    k ∈ kept ∧ ∃ keep ∈ g.nodes, keep.id = k ∧ isDuplicate keep n = true := by
  unfold keeper? at h
  refine ⟨List.mem_of_find?_eq_some h, ?_⟩
  have hsame := List.find?_some h
  split at hsame
  · next keep hkeep =>
    obtain ⟨hmem, hid⟩ := (Graph.node?_eq_some_iff hg).1 hkeep
    exact ⟨keep, hmem, hid, hsame⟩
  · cases hsame

/-- The candidates are operations, none is listed twice, and none has been kept. -/
structure Listed (g : Graph) (kept ids : List NodeId) : Prop where
  operations : ∀ n ∈ g.nodes, n.id ∈ ids → ∃ op, n.kind = .operation op
  nodup : ids.Nodup
  apart : ∀ id ∈ kept, id ∉ ids

lemma Listed.tail {id : NodeId} (h : Listed g kept (id :: ids)) : Listed g kept ids where
  operations := fun n hn hid => h.operations n hn (List.mem_cons_of_mem _ hid)
  nodup := (List.nodup_cons.1 h.nodup).2
  apart := fun k hk hid => h.apart k hk (List.mem_cons_of_mem _ hid)

lemma Listed.moved {id : NodeId} (h : Listed g kept (id :: ids)) : Listed g (kept ++ [id]) ids where
  operations := h.tail.operations
  nodup := h.tail.nodup
  apart := by
    intro k hk
    rcases List.mem_append.1 hk with hk | hk
    · exact h.tail.apart k hk
    · rw [List.mem_singleton.1 hk]
      exact (List.nodup_cons.1 h.nodup).1

lemma Listed.merged (h : Listed g kept ids) (dup keep : NodeId) : Listed (g.merged dup keep) kept ids where
  operations := by
    intro n hn hid
    obtain ⟨m, hm, -, rfl⟩ := Graph.mem_merged.1 hn
    exact h.operations m hm hid
  nodup := h.nodup
  apart := h.apart

/-- The merges are a chain of rewrites. -/
theorem merge_ends (hg : g.WellFormed) (hlisted : Listed g kept ids) :
    Ends r [.coherence] g (merge g kept ids).graph (merge g kept ids).result := by
  induction ids generalizing g kept with
  | nil => exact .refl
  | cons id rest ih =>
    rw [merge]
    split
    · exact ih hg hlisted.moved
    · next houtput =>
      split
      · exact ih hg hlisted.tail
      · next n hn =>
        obtain ⟨hmem, rfl⟩ := (Graph.node?_eq_some_iff hg.ordered).1 hn
        split
        · exact ih hg hlisted.moved
        · next k hk =>
          obtain ⟨hkept, keep, hkeep, rfl, hsame⟩ := keeper?_eq_some hg.ordered hk
          have hne : keep.id ≠ n.id := fun e => hlisted.apart _ hkept (e ▸ List.mem_cons_self ..)
          obtain ⟨op, hkind⟩ := hlisted.operations n hmem (List.mem_cons_self ..)
          rcases mergeInto_ends (r := r) hg hkeep hmem hne hkind hsame (by simpa using houtput) with
            ⟨heq, hstep⟩ | ⟨⟨e, he⟩, hunsound⟩
          · rw [heq]
            have hrest := ih (hstep.wellFormed hg) (hlisted.tail.merged n.id keep.id)
            exact (hrest.map (· + 1)).after hg hstep.chain
          · -- only a graph that is not sound refuses the removal
            dsimp only
            rw [he]
            exact fun hs => absurd hs hunsound

lemma listed_candidates (hg : g.Ordered) : Listed g [] (candidates r g) where
  operations := by
    intro n hn hid
    obtain ⟨-, -, op, -, hkind, -⟩ := mergeable_of_mem hg hn hid
    exact ⟨op, hkind⟩
  nodup := (candidates_ascend hg).imp ne_of_lt
  apart := fun _ hk => absurd hk List.not_mem_nil

/-! ### Marking -/

/-- The marks are a chain of rewrites. -/
theorem markAlong_ends (hg : g.WellFormed) (known : List (NodeId × Float)) (ids : List NodeId) :
    Rewrites r [.coherence] g (markAlong r g known ids).graph ∧ Harmless (markAlong r g known ids).reported := by
  induction ids generalizing g known with
  | nil => exact ⟨.refl, .nil⟩
  | cons id rest ih =>
    rw [markAlong]
    split
    · exact ih hg known
    · next n hn =>
      dsimp only
      split
      · exact ih hg _
      · obtain ⟨hmem, rfl⟩ := (Graph.node?_eq_some_iff hg.ordered).1 hn
        have hkey : pathMark ≠ protectedMark := by decide
        have hstep : Rewrite r .coherence g
            (g.modify n.id (fun m => { m with attrs := m.attrs.mark pathMark (.number (pathOf r known n)) })) := by
          rw [Graph.modify_eq_graft hg.ordered]
          exact .mark pathMark _ hmem hkey
        obtain ⟨hchain, hharmless⟩ := ih (hstep.wellFormed hg) ((n.id, pathOf r known n) :: known)
        refine ⟨hstep.chain.trans hchain, Harmless.append ?_ hharmless⟩
        unfold exceeded
        intro d hd
        split at hd
        · rw [List.mem_singleton.1 hd]
          rfl
        · exact absurd hd List.not_mem_nil

/-- **The coherence pass rewrites.** -/
theorem run_yields (hg : g.WellFormed) (ha : g.Acyclic) (ceiling : Option Float) :
    Yields (run ⟨r, ceiling⟩ g) fun out => Ends r [.coherence] g out.graph out.result ∧
      Harmless out.reported := by
  have hmerged := merge_ends (r := r) hg (listed_candidates (r := r) hg.ordered)
  unfold run mergeAll
  dsimp only
  split
  · next e he =>
    rw [he] at hmerged
    exact ⟨hmerged, .nil⟩
  · next count hcount =>
    rw [hcount] at hmerged
    have hchain : Rewrites r [.coherence] g _ := hmerged
    have hg' := Rewrites.wellFormed hchain hg
    obtain ⟨order, horder, -⟩ := Graph.order_of_acyclic hg'.ordered (Rewrites.acyclic hchain hg ha)
    unfold markAll
    rw [horder]
    obtain ⟨hmarks, hharmless⟩ := markAlong_ends (r := r) hg' [] order
    exact ⟨hchain.trans hmarks, hharmless⟩

end CoherencePass

end Waveflow
