import Waveflow.Graph.Reach
import Waveflow.Proofs.Graph.Hints
import Waveflow.Proofs.Graph.Course

/-!
# Ancestors

The search for the ancestors of a node goes level by level.  Whatever it meets has a chain of edges to the node
(`collect_forall`).  When it ends, it has met the inputs of all that it has met (`collect_closed`): a level either
brings a node of the graph that was not there before, or it brings missing nodes only, and then the next one is empty.
So the ancestors are exactly the starts of the chains that end in the node (`mem_ancestors_iff`), on every graph.
-/

namespace Waveflow.Graph

open Relation (TransGen ReflTransGen)

variable {g : Graph} {a b i id : NodeId} {level seen : List NodeId} {fuel : Nat}

/-! ### Inputs -/

lemma mem_inputsOf_iff (h : g.Ordered) : i ∈ g.inputsOf id ↔ g.Feeds i id := by
  unfold inputsOf
  constructor
  · intro hi
    cases hnode : g.node? id with
    | none =>
      rw [hnode] at hi
      cases hi
    | some n =>
      rw [hnode] at hi
      obtain ⟨hn, rfl⟩ := (node?_eq_some_iff h).1 hnode
      exact ⟨n, hn, rfl, hi⟩
  · rintro ⟨n, hn, rfl, hi⟩
    rw [h.node?_of_mem hn]
    exact hi

/-! ### What the search meets -/

/-- What the search collects shares every property that passes from a node to its inputs. -/
lemma collect_forall (P : NodeId → Prop) (hinputs : ∀ id, P id → ∀ i ∈ g.inputsOf id, P i) (fuel : Nat)
    (hlevel : ∀ id ∈ level, P id) (hseen : ∀ id ∈ seen, P id) : ∀ id ∈ g.collect fuel level seen, P id := by
  induction fuel generalizing level seen with
  | zero => exact hseen
  | succ fuel ih =>
    rw [collect]
    split
    · exact hseen
    · have hfresh : ∀ id ∈ (ascending level).filter (fun id => !seen.contains id), P id :=
        fun id hid => hlevel id (mem_ascending.1 (List.mem_filter.1 hid).1)
      refine ih (fun id hid => ?_) fun id hid => ?_
      · obtain ⟨x, hx, hid⟩ := List.mem_flatMap.1 hid
        exact hinputs x (hfresh x hx) id hid
      · rcases List.mem_append.1 hid with hid | hid
        · exact hfresh id hid
        · exact hseen id hid

/-- A chain of edges leads from every ancestor to the node. -/
theorem transGen_of_mem_ancestors (h : g.Ordered) (ha : a ∈ g.ancestors b) : TransGen g.Feeds a b := by
  unfold ancestors at ha
  refine collect_forall (fun id => TransGen g.Feeds id b) (fun id hid i hi => ?_) _ (fun id hid => ?_)
    (fun id hid => by cases hid) a (mem_ascending.1 ha)
  · exact hid.head ((mem_inputsOf_iff h).1 hi)
  · exact .single ((mem_inputsOf_iff h).1 hid)

/-! ### How the search ends -/

/-- The number of nodes that the search has not met. -/
def unmet (g : Graph) (seen : List NodeId) : Nat := (g.ids.filter (fun id => !seen.contains id)).length

/-- A node that is met for the first time leaves fewer that have not been met. -/
lemma unmet_lt {fresh : List NodeId} (hmem : id ∈ fresh) (hid : id ∈ g.ids) (hnew : id ∉ seen) :
    g.unmet (fresh ++ seen) < g.unmet seen := by
  unfold unmet
  have hrest : g.ids.filter (fun id => !(fresh ++ seen).contains id) =
      (g.ids.filter (fun id => !seen.contains id)).filter (fun id => !fresh.contains id) := by
    rw [List.filter_filter]
    refine List.filter_congr fun x _ => ?_
    simp
  rw [hrest]
  refine List.length_filter_lt_length_iff_exists.2 ⟨id, ?_, by simpa using hmem⟩
  exact List.mem_filter.2 ⟨hid, by simpa using hnew⟩

/-- **The search ends with the inputs of all that it has met.**  The induction is on the levels that are left; they are
enough as long as they are more than the nodes that have not been met. -/
lemma collect_closed (h : g.Ordered) (hfuel : level = [] ∨ g.unmet seen < fuel)
    (hseen : ∀ id ∈ seen, ∀ i ∈ g.inputsOf id, i ∈ seen ∨ i ∈ level) :
    level ⊆ g.collect fuel level seen ∧ seen ⊆ g.collect fuel level seen ∧
      ∀ id ∈ g.collect fuel level seen, g.inputsOf id ⊆ g.collect fuel level seen := by
  induction fuel generalizing level seen with
  | zero =>
    obtain rfl := hfuel.resolve_right (Nat.not_lt_zero _)
    exact ⟨List.nil_subset _, List.Subset.refl _,
      fun id hid i hi => (hseen id hid i hi).resolve_right List.not_mem_nil⟩
  | succ fuel ih =>
    rw [collect]
    have hfresh : ∀ id, id ∈ (ascending level).filter (fun id => !seen.contains id) ↔
        id ∈ level ∧ id ∉ seen := by
      intro id
      rw [List.mem_filter, mem_ascending]
      simp
    generalize (ascending level).filter (fun id => !seen.contains id) = fresh at hfresh ⊢
    have hcovers : ∀ id ∈ level, id ∈ fresh ∨ id ∈ seen := fun id hid =>
      (em (id ∈ seen)).elim .inr fun hnew => .inl ((hfresh id).2 ⟨hid, hnew⟩)
    split
    · next hempty =>
      obtain rfl := List.isEmpty_iff.1 hempty
      have hlevel : level ⊆ seen := fun id hid => (hcovers id hid).resolve_left List.not_mem_nil
      refine ⟨hlevel, List.Subset.refl _, fun id hid i hi => ?_⟩
      rcases hseen id hid i hi with hi | hi
      · exact hi
      · exact hlevel hi
    · next hsome =>
      have henough : fresh.flatMap g.inputsOf = [] ∨ g.unmet (fresh ++ seen) < fuel := by
        by_cases hnode : ∃ id ∈ fresh, id ∈ g.ids
        · right
          obtain ⟨id, hmem, hid⟩ := hnode
          obtain ⟨hlevel, hnew⟩ := (hfresh id).1 hmem
          have hfuel := hfuel.resolve_left (List.ne_nil_of_mem hlevel)
          have hless := unmet_lt hmem hid hnew
          omega
        · left
          refine List.flatMap_eq_nil_iff.2 fun id hid => List.eq_nil_iff_forall_not_mem.2 fun i hi => ?_
          exact hnode ⟨id, hid, ((mem_inputsOf_iff h).1 hi).mem_ids⟩
      obtain ⟨-, hsub, hclosed⟩ := ih henough fun id hid i hi => by
        rcases List.mem_append.1 hid with hid | hid
        · exact .inr (List.mem_flatMap.2 ⟨id, hid, hi⟩)
        · rcases hseen id hid i hi with hi | hi
          · exact .inl (List.mem_append_right _ hi)
          · exact .inl (List.mem_append.2 (hcovers i hi))
      exact ⟨fun id hid => hsub (List.mem_append.2 (hcovers id hid)),
        fun id hid => hsub (List.mem_append_right _ hid), hclosed⟩

/-- **The ancestors of a node are the starts of the chains of edges that end in it.** -/
theorem mem_ancestors_iff (h : g.Ordered) : a ∈ g.ancestors b ↔ TransGen g.Feeds a b := by
  refine ⟨transGen_of_mem_ancestors h, fun hchain => ?_⟩
  have hfuel : g.unmet [] < g.nodes.length + 2 := by
    have hle := List.length_filter_le (fun id => !([] : List NodeId).contains id) g.ids
    unfold unmet
    unfold ids at hle ⊢
    rw [List.length_map] at hle
    omega
  obtain ⟨hlevel, -, hclosed⟩ :=
    @collect_closed g (g.inputsOf b) [] (g.nodes.length + 2) h (.inr hfuel) fun id hid => by cases hid
  unfold ancestors
  rw [mem_ascending]
  induction hchain using TransGen.head_induction_on with
  | single hedge => exact hlevel ((mem_inputsOf_iff h).2 hedge)
  | head hedge _ ih => exact hclosed _ ih ((mem_inputsOf_iff h).2 hedge)

/-- A node depends on an input exactly if a chain of edges leads to it from one, which may be the node itself. -/
lemma dependsOnInput_iff (h : g.Ordered) : g.dependsOnInput id = true ↔
    ∃ i ∈ g.inputs, ReflTransGen g.Feeds i id := by
  unfold dependsOnInput
  simp only [Bool.or_eq_true, List.contains_eq_mem, decide_eq_true_eq, List.any_eq_true, mem_ancestors_iff h,
    Relation.reflTransGen_iff_eq_or_transGen]
  constructor
  · rintro (hid | ⟨i, hi, hchain⟩)
    · exact ⟨id, hid, .inl rfl⟩
    · exact ⟨i, hi, .inr hchain⟩
  · rintro ⟨i, hi, rfl | hchain⟩
    · exact .inl hi
    · exact .inr ⟨i, hi, hchain⟩

end Waveflow.Graph
