import Mathlib.Algebra.Ring.Nat
import Waveflow.Proofs.Graph.Cycles
import Waveflow.Proofs.Graph.Reach

/-!
# Ancestors by a queue

`Graph.ancestors` collects whole levels.  A search with a queue takes one node at a time: the first one has its turn,
and where it is met for the first time its inputs are put at the end, whether or not they wait there already.  Nothing
keeps a node from waiting many times over, and on a cycle nodes come back for ever, so it is not plain that the queue
runs empty.  It does: every turn takes a place off the queue, and the places that are added are the edges into nodes
that have not been met, each of which is paid for once (`Walk.toil_turn`).

What a turn preserves (`Walk.Sound`) says at an empty queue that the search has met the starts of the chains of edges
into the node and nothing else.  Those are its ancestors (`ancestors_exact`).
-/

namespace Waveflow.Graph

open Relation (TransGen ReflTransGen)

variable {g : Graph} {a b id : NodeId} {met : List NodeId}

/-! ### Edges -/

lemma inputsOf_eq_edgesInto (h : g.Ordered) (id : NodeId) : g.inputsOf id = g.edgesInto id := by
  unfold inputsOf
  cases hnode : g.node? id with
  | some n =>
    obtain ⟨hn, rfl⟩ := (node?_eq_some_iff h).1 hnode
    exact (edgesInto_eq h hn).symm
  | none =>
    have hnone : g.nodes.filter (·.id == id) = [] := by
      rw [List.filter_eq_nil_iff]
      intro n hn hid
      exact (node?_eq_none_iff h).1 hnode (mem_ids.2 ⟨n, hn, by simpa using hid⟩)
    unfold edgesInto
    rw [hnone]
    rfl

lemma mem_dangling_iff (h : g.Ordered) : (b, a) ∈ g.dangling ↔ g.Feeds a b ∧ a ∉ g.ids := by
  unfold dangling Feeds
  rw [← contains_iff h]
  simp only [List.mem_flatMap, List.mem_map, List.mem_filter, Prod.mk.injEq, Bool.not_eq_true', Bool.not_eq_true]
  constructor
  · rintro ⟨n, hn, i, ⟨hi, hmissing⟩, rfl, rfl⟩
    exact ⟨⟨n, hn, rfl, hi⟩, hmissing⟩
  · rintro ⟨⟨n, hn, rfl, hi⟩, hmissing⟩
    exact ⟨n, hn, a, ⟨hi, hmissing⟩, rfl, rfl⟩

/-! ### The search -/

/-- A search with a queue: the nodes that wait for their turn, and those that have been met. -/
structure Walk where
  queue : List NodeId
  met : List NodeId
deriving Repr, DecidableEq

namespace Walk

variable {w : Walk}

/-- The inputs of the node wait, and nothing has been met. -/
def start (g : Graph) (id : NodeId) : Walk := ⟨g.inputsOf id, []⟩

/-- The first node of the queue has its turn; with an empty queue nothing changes. -/
def turn (g : Graph) (w : Walk) : Walk :=
  match w.queue with
  | [] => w
  | id :: rest => if w.met.contains id then ⟨rest, w.met⟩ else ⟨rest ++ g.inputsOf id, id :: w.met⟩

/-! ### The search ends -/

/-- The number of edges into the nodes that have not been met. -/
def owed (met : List NodeId) (ns : List Node) : Nat :=
  ((ns.filter (fun n => !met.contains n.id)).map (·.inputs.length)).sum

/-- The turns that may still be needed: one for each place in the queue, one for each edge that can be added to it. -/
def toil (g : Graph) (w : Walk) : Nat := w.queue.length + owed w.met g.nodes

/-- A node that is met for the first time pays for the edges into it. -/
lemma owed_cons (hnew : id ∉ met) (ns : List Node) :
    owed met ns = ((ns.filter (·.id == id)).flatMap (·.inputs)).length + owed (id :: met) ns := by
  unfold owed
  induction ns with
  | nil => rfl
  | cons n ns ih =>
    by_cases hid : n.id = id
    · subst hid
      simp [hnew] at ih ⊢
      omega
    · by_cases hmet : n.id ∈ met
      · simpa [hid, hmet] using ih
      · simp [hid, hmet] at ih ⊢
        omega

/-- **Every turn brings the end of the search nearer.** -/
lemma toil_turn (h : g.Ordered) (hq : w.queue ≠ []) : (w.turn g).toil g + 1 = w.toil g := by
  obtain ⟨id, rest, hrest⟩ := List.exists_cons_of_ne_nil hq
  unfold turn toil
  rw [hrest]
  dsimp only
  split
  · simp only [List.length_cons]
    omega
  · next hnew =>
    have howed := owed_cons (by simpa using hnew) g.nodes
    simp only [List.length_append, List.length_cons, inputsOf_eq_edgesInto h, edgesInto]
    omega

lemma turn_of_empty (hq : w.queue = []) : w.turn g = w := by
  unfold turn
  rw [hq]

lemma iterate_turn_ends (h : g.Ordered) (n : Nat) (hn : w.toil g ≤ n) : ((turn g)^[n] w).queue = [] := by
  induction n generalizing w with
  | zero => exact List.length_eq_zero_iff.1 (Nat.eq_zero_of_add_eq_zero_right (Nat.le_zero.1 hn))
  | succ n ih =>
    rw [Function.iterate_succ_apply]
    by_cases hq : w.queue = []
    · rw [turn_of_empty hq, Function.iterate_fixed (turn_of_empty hq)]
      exact hq
    · have htoil := toil_turn h hq
      exact ih (by omega)

lemma toil_start (g : Graph) (id : NodeId) : (start g id).toil g = (g.inputsOf id).length + g.edgeCount := by
  unfold toil owed start edgeCount
  simp [List.sum]

/-! ### What the search meets -/

/-- Whatever waits or has been met has a chain of edges to the node, and the inputs of the node and of all that has been
met wait or have been met. -/
structure Sound (g : Graph) (id : NodeId) (w : Walk) : Prop where
  above : ∀ x ∈ w.queue ++ w.met, TransGen g.Feeds x id
  first : g.inputsOf id ⊆ w.queue ++ w.met
  closed : ∀ x ∈ w.met, g.inputsOf x ⊆ w.queue ++ w.met

lemma sound_start (h : g.Ordered) (id : NodeId) : Sound g id (start g id) where
  above x hx := .single ((mem_inputsOf_iff h).1 (by simpa [start] using hx))
  first := List.subset_append_left _ _
  closed x hx := by cases hx

/-- What a turn preserves. -/
lemma Sound.turn (h : g.Ordered) (hw : w.Sound g id) : (w.turn g).Sound g id := by
  unfold Walk.turn
  split
  · exact hw
  next x rest hqueue =>
  obtain ⟨above, first, closed⟩ := hw
  rw [hqueue] at above first closed
  split
  · next hmet =>
    have hmet : x ∈ w.met := by simpa using hmet
    have hsub : x :: rest ++ w.met ⊆ rest ++ w.met :=
      List.cons_subset.2 ⟨List.mem_append_right _ hmet, List.Subset.refl _⟩
    exact ⟨fun y hy => above y (List.mem_cons_of_mem _ hy), List.Subset.trans first hsub,
      fun y hy => List.Subset.trans (closed y hy) hsub⟩
  · have hsub : x :: rest ++ w.met ⊆ rest ++ g.inputsOf x ++ x :: w.met := by
      intro y hy
      simp only [List.cons_append, List.mem_cons, List.mem_append] at hy ⊢
      tauto
    refine ⟨fun y hy => ?_, List.Subset.trans first hsub, fun y hy => ?_⟩
    · have hx := above x (List.mem_cons_self ..)
      simp only [List.mem_append, List.mem_cons] at hy
      rcases hy with (hy | hy) | rfl | hy
      · exact above y (List.mem_cons_of_mem _ (List.mem_append_left _ hy))
      · exact hx.head ((mem_inputsOf_iff h).1 hy)
      · exact hx
      · exact above y (List.mem_cons_of_mem _ (List.mem_append_right _ hy))
    · rcases List.mem_cons.1 hy with rfl | hy
      · exact fun z hz => List.mem_append_left _ (List.mem_append_right _ hz)
      · exact List.Subset.trans (closed y hy) hsub

lemma Sound.iterate (h : g.Ordered) (hw : w.Sound g id) (n : Nat) : ((Walk.turn g)^[n] w).Sound g id := by
  induction n generalizing w with
  | zero => exact hw
  | succ n ih => exact ih (hw.turn h)

/-- When the queue is empty, all chains into the node have been followed to their starts. -/
lemma Sound.mem_met_iff (h : g.Ordered) (hw : w.Sound g id) (hq : w.queue = []) :
    a ∈ w.met ↔ TransGen g.Feeds a id := by
  obtain ⟨above, first, closed⟩ := hw
  rw [hq, List.nil_append] at above first
  refine ⟨above a, fun hchain => ?_⟩
  induction hchain using TransGen.head_induction_on with
  | single hedge => exact first ((mem_inputsOf_iff h).2 hedge)
  | head hedge _ ih =>
    have hmet := closed _ ih ((mem_inputsOf_iff h).2 hedge)
    rwa [hq, List.nil_append] at hmet

end Walk

/-! ### Ancestors -/

/-- Ascending lists with the same members are the same. -/
lemma ascending_congr {ks ls : List Nat} (h : ∀ k, k ∈ ks ↔ k ∈ ls) : ascending ks = ascending ls := by
  have hnodup : ∀ ms : List Nat, (ascending ms).Nodup := fun ms => (ascending_pairwise ms).imp Nat.ne_of_lt
  have hperm : (ascending ks).Perm (ascending ls) := by
    rw [List.perm_ext_iff_of_nodup (hnodup ks) (hnodup ls)]
    intro k
    rw [mem_ascending, mem_ascending, h]
  exact hperm.eq_of_pairwise (fun _ _ _ _ hlt hgt => absurd hlt (Nat.lt_asymm hgt)) (ascending_pairwise ks)
    (ascending_pairwise ls)

/-- A search with a queue runs empty, and then it has met the ancestors. -/
lemma walk_ends (h : g.Ordered) {n : Nat} (hn : (g.inputsOf id).length + g.edgeCount ≤ n) :
    ((Walk.turn g)^[n] (Walk.start g id)).queue = [] ∧
      ascending ((Walk.turn g)^[n] (Walk.start g id)).met = g.ancestors id := by
  have hends := Walk.iterate_turn_ends h n ((Walk.toil_start g id).trans_le hn)
  refine ⟨hends, ?_⟩
  have hascend : ascending (g.ancestors id) = g.ancestors id := ascending_of_pairwise (ascending_pairwise _)
  rw [← hascend]
  refine ascending_congr fun a => ?_
  rw [((Walk.sound_start h id).iterate h n).mem_met_iff h hends, mem_ancestors_iff h]

/-- **The ancestors of a node are the starts of the chains of edges into it, on every graph.**  A search with a queue
ends, whatever cycles and missing nodes there are, after no more turns than there are edges into the node and in the
graph together, and has met them.  A node is its own ancestor exactly on a cycle; a missing node is an ancestor exactly
where a dangling edge leads from it to the node or to one above. -/
theorem ancestors_exact (h : g.Ordered) (id : NodeId) :
    (∀ n, (g.inputsOf id).length + g.edgeCount ≤ n →
      ((Walk.turn g)^[n] (Walk.start g id)).queue = [] ∧
        ascending ((Walk.turn g)^[n] (Walk.start g id)).met = g.ancestors id) ∧
    (∀ a, a ∈ g.ancestors id ↔ TransGen g.Feeds a id) ∧
    (id ∈ g.ancestors id ↔ TransGen g.Feeds id id) ∧
    (∀ a, a ∉ g.ids → (a ∈ g.ancestors id ↔ ∃ b, (b, a) ∈ g.dangling ∧ ReflTransGen g.Feeds b id)) ∧
    (∀ a, a ≠ id → (g.reaches a id = true ↔ TransGen g.Feeds a id)) := by
  refine ⟨fun n hn => walk_ends h hn, fun a => mem_ancestors_iff h, mem_ancestors_iff h,
    fun a ha => ?_, fun a ha => ?_⟩
  · rw [mem_ancestors_iff h, TransGen.head'_iff]
    refine exists_congr fun b => and_congr_left fun _ => ?_
    rw [mem_dangling_iff h, and_iff_left ha]
  · unfold reaches
    simp [ha, mem_ancestors_iff h]

/-- In the eddy the node 3 has the cycle of 1 and 2 above it, and the missing node 9. -/
theorem ancestors_exact_eddy : eddy.Ordered ∧ eddy.ancestors 3 = [1, 2, 9] ∧
    ((Walk.turn eddy)^[11] (Walk.start eddy 3)).queue = [] ∧
    TransGen eddy.Feeds 2 2 ∧ (∃ b, (b, 9) ∈ eddy.dangling ∧ ReflTransGen eddy.Feeds b 3) ∧
    ¬ TransGen eddy.Feeds 3 2 := by
  have hordered : eddy.Ordered := ordered_iff.2 (by decide)
  have hrun : eddy.ancestors 3 = [1, 2, 9] := by rfl
  obtain ⟨hends, -, -, hmissing, -⟩ := ancestors_exact hordered 3
  obtain ⟨-, -, hcycle, -, hreaches⟩ := ancestors_exact hordered 2
  refine ⟨hordered, hrun, (hends 11 (by decide)).1, hcycle.1 (by decide),
    (hmissing 9 (by decide)).1 (by decide), ?_⟩
  rw [← hreaches 3 (by decide)]
  decide

end Waveflow.Graph
