import Waveflow.Proofs.Pass.Coherence
import Mathlib.Logic.Function.Basic

/-!
# Merging as a substitution

Merging sends nodes home to older ones.  After every step of it the graph is the graph at the start with the nodes that
have been sent home left out and all edges moved along (`Graph.gathered`); `Gathering` says which nodes were sent where.

The candidates come in ascending order.  Where every edge leads from a smaller to a larger number, sending a node home
leaves the nodes before it as they are, so that two nodes that have been told apart stay apart, and one pass through
the candidates finds all equal ones (`Gathering.apart`).
-/

namespace Waveflow

variable {r : Registry} {g : Graph} {home home' move : NodeId → NodeId} {done kept ids : List NodeId} {id k : NodeId}
  {m n keep : Node}

/-! ### Edges moved along -/

/-- The node with its edges moved along. -/
def Node.rewired (home : NodeId → NodeId) (n : Node) : Node := { n with inputs := n.inputs.map home }

lemma Node.rewired_rewired : (n.rewired home).rewired move = n.rewired (move ∘ home) := by
  unfold rewired
  dsimp only
  rw [List.map_map]

lemma Node.rewired_congr (h : ∀ i ∈ n.inputs, home i = home' i) : n.rewired home = n.rewired home' := by
  unfold rewired
  rw [List.map_congr_left h]

/-- Nodes that compute the same do so after their edges have been moved. -/
lemma CoherencePass.isDuplicate_rewired (h : isDuplicate m n = true) (move : NodeId → NodeId) :
    isDuplicate (m.rewired move) (n.rewired move) = true := by
  unfold isDuplicate at h ⊢
  simp only [Bool.and_eq_true] at h ⊢
  obtain ⟨⟨⟨⟨hkind, hinputs⟩, hparams⟩, hty⟩, hattrs⟩ := h
  have hmoved : m.inputs.map move = n.inputs.map move := by rw [beq_iff_eq.1 hinputs]
  exact ⟨⟨⟨⟨hkind, beq_iff_eq.2 hmoved⟩, hparams⟩, hty⟩, hattrs⟩

namespace Graph

/-- The nodes that have not been sent home, with their edges moved along. -/
def gathered (g : Graph) (home : NodeId → NodeId) : Graph :=
  { g with nodes := (g.nodes.filter (fun n => home n.id = n.id)).map (Node.rewired home) }

lemma mem_gathered : m ∈ (g.gathered home).nodes ↔ ∃ n ∈ g.nodes, home n.id = n.id ∧ m = n.rewired home := by
  unfold gathered
  simp only [List.mem_map, List.mem_filter, decide_eq_true_eq]
  constructor
  · rintro ⟨n, ⟨hn, hstays⟩, rfl⟩
    exact ⟨n, hn, hstays, rfl⟩
  · rintro ⟨n, hn, hstays, rfl⟩
    exact ⟨n, ⟨hn, hstays⟩, rfl⟩

lemma mem_ids_gathered : id ∈ (g.gathered home).ids ↔ id ∈ g.ids ∧ home id = id := by
  rw [mem_ids, mem_ids]
  constructor
  · rintro ⟨m, hm, rfl⟩
    obtain ⟨n, hn, hstays, rfl⟩ := mem_gathered.1 hm
    exact ⟨⟨n, hn, rfl⟩, hstays⟩
  · rintro ⟨⟨n, hn, rfl⟩, hstays⟩
    exact ⟨n.rewired home, mem_gathered.2 ⟨n, hn, hstays, rfl⟩, rfl⟩

lemma Ordered.gathered (h : g.Ordered) (home : NodeId → NodeId) : (g.gathered home).Ordered := by
  unfold Ordered Search.Ascending Graph.gathered
  rw [List.pairwise_map]
  exact h.sublist List.filter_sublist

lemma node?_gathered (h : g.Ordered) (hn : n ∈ g.nodes) (hstays : home n.id = n.id) :
    (g.gathered home).node? n.id = some (n.rewired home) :=
  (h.gathered home).node?_of_mem (mem_gathered.2 ⟨n, hn, hstays, rfl⟩)

lemma gathered_self (g : Graph) : g.gathered (fun id => id) = g := by
  have hrewired : Node.rewired (fun id => id) = fun n => n := by
    funext n
    unfold Node.rewired
    rw [List.map_id']
  unfold gathered
  rw [hrewired]
  simp

/-- A merge sends one more node home. -/
lemma gathered_merged (hdup : ∀ i, home i = id ↔ i = id) (hne : k ≠ id) :
    (g.gathered home).merged id k = g.gathered (Function.update home id k) := by
  have hhome : ∀ i, (if home i = id then k else home i) = Function.update home id k i := by
    intro i
    rw [Function.update_apply]
    simp only [hdup i]
  have hstays : ∀ n ∈ g.nodes, (n.id != id && decide (home n.id = n.id)) =
      decide (Function.update home id k n.id = n.id) := by
    intro n _
    rw [Function.update_apply]
    split
    · next hid => simp [hid, hne]
    · next hid => simp [hid]
  have hrewired : redirected id k ∘ Node.rewired home = Node.rewired (Function.update home id k) := by
    funext n
    show ({ n with inputs := (n.inputs.map home).map _ } : Node) = { n with inputs := n.inputs.map _ }
    rw [List.map_map]
    congr 1
    exact List.map_congr_left fun i _ => hhome i
  unfold merged gathered
  dsimp only
  rw [List.filter_map, List.filter_filter, List.map_map, hrewired]
  congr 2
  exact List.filter_congr hstays

end Graph

/-- What is declared as an input is an input. -/
def Graph.Declares (g : Graph) : Prop := ∀ n ∈ g.nodes, n.id ∈ g.inputs → n.isInput = true

namespace CoherencePass

/-! ### One step -/

/-- The nodes `done` have been looked at.  Those in `kept` stay, the others have been sent home to an older node that
computes the same.  No output is sent home; and along edges that ascend, no node that stays computes the same as one
before it, but for outputs. -/
structure Gathering (g : Graph) (done kept : List NodeId) (home : NodeId → NodeId) : Prop where
  fixed : ∀ id, id ∉ done → home id = id
  stays : ∀ id, id ∈ kept ↔ id ∈ done ∧ home id = id
  arrives : ∀ id ∈ done, home id ∈ kept
  sent : ∀ n ∈ g.nodes, home n.id ≠ n.id → g.isOutput n.id = false ∧ home n.id < n.id ∧
    ∃ keep ∈ g.nodes, keep.id = home n.id ∧ isDuplicate (keep.rewired home) (n.rewired home) = true
  apart : g.Ranked (fun id => id) → ∀ m ∈ g.nodes, ∀ n ∈ g.nodes, m.id ∈ kept →
      n.id ∈ kept → m.id < n.id →
    g.isOutput n.id = false → isDuplicate (m.rewired home) (n.rewired home) = false

lemma gathering_start : Gathering g [] [] (fun id => id) where
  fixed := fun _ _ => rfl
  stays := fun _ => by simp
  arrives := fun _ hid => absurd hid List.not_mem_nil
  sent := fun _ _ hne => absurd rfl hne
  apart := fun _ _ _ _ _ hm => absurd hm List.not_mem_nil

namespace Gathering

/-- Nothing has been sent to a node that is still to come. -/
lemma home_eq_iff (h : Gathering g done kept home) (hid : id ∉ done) (i : NodeId) : home i = id ↔ i = id := by
  constructor
  · intro hi
    by_cases hdone : i ∈ done
    · exact absurd (((h.stays _).1 (h.arrives i hdone)).1) (hi ▸ hid)
    · rw [← hi, h.fixed i hdone]
  · rintro rfl
    exact h.fixed i hid

/-- A home is a home to itself. -/
lemma home_home (h : Gathering g done kept home) (id : NodeId) : home (home id) = home id := by
  by_cases hdone : id ∈ done
  · exact ((h.stays _).1 (h.arrives id hdone)).2
  · rw [h.fixed id hdone, h.fixed id hdone]

/-- The next node stays. -/
lemma next_stays (h : Gathering g done kept home) (hlast : ∀ d ∈ done, d < id)
    (hnew : ∀ m ∈ g.nodes, ∀ n ∈ g.nodes, m.id ∈ kept → n.id = id → g.isOutput id = false →
      isDuplicate (m.rewired home) (n.rewired home) = false) :
    Gathering g (done ++ [id]) (kept ++ [id]) home := by
  have hid : id ∉ done := fun hmem => lt_irrefl _ (hlast id hmem)
  refine ⟨fun i hi => ?_, fun i => ?_, fun i hi => ?_, h.sent, fun hranked m hm n hn hmk hnk hlt hout => ?_⟩
  · exact h.fixed i fun hmem => hi (List.mem_append_left _ hmem)
  · rw [List.mem_append, List.mem_append, List.mem_singleton, h.stays]
    constructor
    · rintro (⟨hmem, heq⟩ | rfl)
      · exact ⟨.inl hmem, heq⟩
      · exact ⟨.inr rfl, h.fixed i hid⟩
    · rintro ⟨hmem | rfl, heq⟩
      · exact .inl ⟨hmem, heq⟩
      · exact .inr rfl
  · rcases List.mem_append.1 hi with hmem | hmem
    · exact List.mem_append_left _ (h.arrives i hmem)
    · rw [List.mem_singleton.1 hmem, h.fixed id hid]
      exact List.mem_append_right _ (List.mem_singleton_self id)
  · rcases List.mem_append.1 hnk with hnk | hnk
    · rcases List.mem_append.1 hmk with hmk | hmk
      · exact h.apart hranked m hm n hn hmk hnk hlt hout
      · -- the next node comes after all others
        rw [List.mem_singleton.1 hmk] at hlt
        exact absurd (hlast n.id ((h.stays _).1 hnk).1) (lt_asymm hlt)
    · have hnid := List.mem_singleton.1 hnk
      rcases List.mem_append.1 hmk with hmk | hmk
      · exact hnew m hm n hn hmk hnid (hnid ▸ hout)
      · rw [List.mem_singleton.1 hmk, hnid] at hlt
        exact absurd hlt (lt_irrefl _)

/-- Sending one more node home is a move after all others. -/
lemma update_eq_comp (h : Gathering g done kept home) (hid : id ∉ done) (k : NodeId) :
    Function.update home id k = Function.update (fun i => i) id k ∘ home := by
  funext i
  rw [Function.comp_apply, Function.update_apply, Function.update_apply]
  simp only [h.home_eq_iff hid i]

/-- What computes the same goes on to do so. -/
lemma isDuplicate_update (h : Gathering g done kept home) (hid : id ∉ done) (k : NodeId)
    (hsame : isDuplicate (m.rewired home) (n.rewired home) = true) :
    isDuplicate (m.rewired (Function.update home id k)) (n.rewired (Function.update home id k)) = true := by
  rw [h.update_eq_comp hid, ← Node.rewired_rewired, ← Node.rewired_rewired]
  exact isDuplicate_rewired hsame _

/-- Where edges ascend, those into the nodes that stay do not come from the next node. -/
lemma rewired_update (h : Gathering g done kept home) (hranked : g.Ranked fun id => id) (hlast : ∀ d ∈ done, d < id)
    (k : NodeId) (hm : m ∈ g.nodes) (hmk : m.id ∈ kept) :
    m.rewired (Function.update home id k) = m.rewired home := by
  refine Node.rewired_congr fun i hi => Function.update_of_ne (ne_of_lt ?_) _ _
  exact lt_trans (hranked m hm i hi) (hlast _ ((h.stays _).1 hmk).1)

/-- The next node is sent home. -/
lemma next_sent (h : Gathering g done kept home) (hg : g.Ordered) (hlast : ∀ d ∈ done, d < n.id)
    (hn : n ∈ g.nodes) (hkeep : keep ∈ g.nodes) (hkept : keep.id ∈ kept)
    (hsame : isDuplicate (keep.rewired home) (n.rewired home) = true) (hout : g.isOutput n.id = false) :
    Gathering g (done ++ [n.id]) kept (Function.update home n.id keep.id) := by
  have hid : n.id ∉ done := fun hmem => lt_irrefl _ (hlast n.id hmem)
  have hkdone := ((h.stays keep.id).1 hkept).1
  have hold : ∀ i ∈ done, Function.update home n.id keep.id i = home i :=
    fun i hi => Function.update_of_ne (ne_of_lt (hlast i hi)) _ _
  refine ⟨fun i hi => ?_, fun i => ?_, fun i hi => ?_, fun a ha hsent => ?_,
    fun hranked a ha b hb hak hbk hlt hbout => ?_⟩
  · rw [List.mem_append, List.mem_singleton, not_or] at hi
    rw [Function.update_of_ne hi.2]
    exact h.fixed i hi.1
  · rw [List.mem_append, List.mem_singleton, h.stays]
    constructor
    · rintro ⟨hmem, heq⟩
      exact ⟨.inl hmem, by rw [hold i hmem, heq]⟩
    · rintro ⟨hmem | rfl, heq⟩
      · exact ⟨hmem, by rw [← hold i hmem, heq]⟩
      · rw [Function.update_self] at heq
        exact absurd (heq ▸ hkdone) hid
  · rcases List.mem_append.1 hi with hmem | hmem
    · rw [hold i hmem]
      exact h.arrives i hmem
    · rw [List.mem_singleton.1 hmem, Function.update_self]
      exact hkept
  · by_cases heq : a.id = n.id
    · obtain rfl := hg.eq_of_id_eq ha hn heq
      rw [Function.update_self]
      exact ⟨hout, hlast _ hkdone, keep, hkeep, rfl, h.isDuplicate_update hid _ hsame⟩
    · rw [Function.update_of_ne heq] at hsent ⊢
      obtain ⟨haout, halt, keeper, hkeeper, hkid, hsame'⟩ := h.sent a ha hsent
      exact ⟨haout, halt, keeper, hkeeper, hkid, h.isDuplicate_update hid _ hsame'⟩
  · rw [h.rewired_update hranked hlast _ ha hak, h.rewired_update hranked hlast _ hb hbk]
    exact h.apart hranked a ha b hb hak hbk hlt hbout

end Gathering

/-! ### All steps -/

lemma keeper?_eq_none (hg : g.Ordered) (h : keeper? g kept n = none) (hm : m ∈ g.nodes) (hmk : m.id ∈ kept) :
    isDuplicate m n = false := by
  unfold keeper? at h
  have hm' := List.find?_eq_none.1 h m.id hmk
  rw [hg.node?_of_mem hm] at hm'
  simpa using hm'

/-- **Merging gathers**, or a candidate is declared as an input and merging stops there. -/
theorem merge_gathers (hg : g.Ordered) (h : Gathering g done kept home) (hasc : (done ++ ids).Pairwise (· < ·))
    (hin : ids ⊆ g.ids) :
    (∃ count kept' home', merge (g.gathered home) kept ids = ⟨g.gathered home', .ok count⟩ ∧
      Gathering g (done ++ ids) kept' home') ∨
    (∃ e, (merge (g.gathered home) kept ids).result = .error e) ∧ ∃ id ∈ ids, id ∈ g.inputs := by
  induction ids generalizing done kept home with
  | nil =>
    rw [List.append_nil]
    exact .inl ⟨0, kept, home, rfl, h⟩
  | cons id rest ih =>
    obtain ⟨n, hn, rfl⟩ := Graph.mem_ids.1 (hin (List.mem_cons_self ..))
    have hlast : ∀ d ∈ done, d < n.id :=
      fun d hd => (List.pairwise_append.1 hasc).2.2 d hd n.id (List.mem_cons_self ..)
    have hid : n.id ∉ done := fun hmem => lt_irrefl _ (hlast n.id hmem)
    have hnode : (g.gathered home).node? n.id = some (n.rewired home) := Graph.node?_gathered hg hn (h.fixed n.id hid)
    have hrest : rest ⊆ g.ids := fun i hi => hin (List.mem_cons_of_mem _ hi)
    have hstop : ∀ {p : Prop}, p ∧ (∃ i ∈ rest, i ∈ g.inputs) → p ∧
        ∃ i ∈ n.id :: rest, i ∈ g.inputs :=
      fun ⟨hp, i, hi, hinput⟩ => ⟨hp, i, List.mem_cons_of_mem _ hi, hinput⟩
    rw [List.append_cons] at hasc ⊢
    rw [merge]
    split
    · next hout =>
      refine (ih (h.next_stays hlast fun _ _ _ _ _ _ hno => ?_) hasc hrest).imp_right hstop
      exact absurd (hno.symm.trans hout) Bool.false_ne_true
    next hout =>
    rw [hnode]
    dsimp only
    split
    · next hnone =>
      refine (ih (h.next_stays hlast fun m hm n' hn' hmk hn'id _ => ?_) hasc hrest).imp_right hstop
      obtain rfl := hg.eq_of_id_eq hn' hn hn'id
      refine keeper?_eq_none (hg.gathered home) hnone (Graph.mem_gathered.2 ⟨m, hm, ?_, rfl⟩) hmk
      exact ((h.stays _).1 hmk).2
    · next k hk =>
      obtain ⟨hkept, _, hrewired, rfl, hsame⟩ := keeper?_eq_some (hg.gathered home) hk
      obtain ⟨keep, hkeep, hstays, rfl⟩ := Graph.mem_gathered.1 hrewired
      have hkid : keep.id ≠ n.id := ne_of_lt (hlast _ ((h.stays _).1 hkept).1)
      have houtput : g.isOutput n.id = false := Bool.eq_false_iff.2 hout
      rcases mergeInto_cases (hg.gathered home) (Graph.mem_ids_gathered.2 ⟨Graph.id_mem_ids hkeep, hstays⟩)
        (Graph.mem_ids_gathered.2 ⟨Graph.id_mem_ids hn, h.fixed _ hid⟩) hkid houtput with
          ⟨heq, -⟩ | ⟨⟨e, he⟩, hinput⟩
      · have hsend := h.next_sent hg hlast hn hkeep hkept hsame houtput
        rw [show (keep.rewired home).id = keep.id from rfl, heq, Graph.gathered_merged (h.home_eq_iff hid) hkid]
        rcases ih hsend hasc hrest with ⟨count, kept', home', hmerge, hgathers⟩ | ⟨⟨e, he⟩, hinput⟩
        · exact .inl ⟨count + 1, kept', home', by rw [hmerge]; rfl, hgathers⟩
        · refine .inr (hstop ⟨⟨e, ?_⟩, hinput⟩)
          dsimp only
          rw [he]
          rfl
      · right
        rw [show (keep.rewired home).id = keep.id from rfl, he]
        exact ⟨⟨e, rfl⟩, n.id, List.mem_cons_self .., hinput⟩

theorem mergeAll_gathers (hg : g.Ordered) (r : Registry) :
    (∃ count kept home, mergeAll r g = ⟨g.gathered home, .ok count⟩ ∧
      Gathering g (candidates r g) kept home) ∨
    (∃ e, (mergeAll r g).result = .error e) ∧ ¬ g.Declares := by
  have hasc : ([] ++ candidates r g).Pairwise (· < ·) := candidates_ascend hg
  have hmerge := merge_gathers hg gathering_start hasc candidates_subset_ids
  rw [Graph.gathered_self] at hmerge
  rcases hmerge with ⟨count, kept, home, hmerge, hgathers⟩ | ⟨hrefused, id, hid, hinput⟩
  · exact .inl ⟨count, kept, home, hmerge, hgathers⟩
  · refine .inr ⟨hrefused, fun hdeclares => ?_⟩
    -- a candidate is an operation
    obtain ⟨n, hn, rfl, -, -, op, -, hkind, -⟩ := mem_candidates.1 hid
    have hisInput := hdeclares n hn hinput
    rw [Node.isInput_of_operation hkind] at hisInput
    cases hisInput

end CoherencePass

end Waveflow
