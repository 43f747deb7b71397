import Waveflow.Pass.Pipeline
import Waveflow.Proofs.Graph.Graft
import Waveflow.Proofs.Graph.Hints
import Waveflow.Proofs.Graph.Order

/-!
# Rewrites

`Rewrite r p g g'` is one rewrite that the pass `p` may make under the registry `r`: leave a mark on a
node, merge a node into an equal one, divide a node, put a node between an encoding and a decoding, or
exchange the hints.  What passes keep is shown here for one rewrite at a time; the modules on the single
passes show that their runs are chains of rewrites.

After a division or a protection, edges no longer lead from smaller to larger numbers.  That nothing
goes round is therefore shown with a measure: a node that is replaced leaves room in it for what takes
its place (`Graph.Ranked.graft`).
-/

namespace Waveflow

variable {r : Registry} {p : PassId} {g g' : Graph} {n keep dup : Node} {op : OpKind}

/-! ### What takes the place of a node -/

/-- The parts of a divided node, under the next numbers. -/
def ThermalPass.shares (n : Node) (load : Float) (parts first : Nat) : List Node :=
  (List.range' first parts).map (fun id => { part n load parts with id := id, inputs := n.inputs })

/-- What becomes of a divided node: the join of its parts. -/
def ThermalPass.gathered (r : Registry) (parts first : Nat) (n : Node) : Node :=
  joined r parts { n with inputs := List.range' first parts }

/-- The encoding of the inputs of a node. -/
def ProtectionPass.encoding (r : Registry) (g : Graph) (n : Node) (code : String) (distance : Nat) : Node :=
  { Node.plain g.nextId (.operation (.encode code distance)) n.inputs
      (encodedType r g n (.encode code distance)) with
    attrs := sealed { n.attrs with thermal := thermalOf r (.encode code distance) } }

/-- The node itself, on its encoded inputs. -/
def ProtectionPass.core (g : Graph) (n : Node) : Node :=
  { n with id := g.nextId + 1, name := none, inputs := [g.nextId], attrs := sealed n.attrs }

/-- What becomes of a protected node: the decoding of its result. -/
def ProtectionPass.decoding (r : Registry) (g : Graph) (code : String) (distance : Nat) (n : Node) : Node :=
  { n with
    kind := .operation (.decode code distance)
    inputs := [g.nextId + 1]
    params := Dict.empty
    attrs := sealed { n.attrs with thermal := thermalOf r (.decode code distance) } }

/-- The node with a mark. -/
def Node.marked (key : String) (value : AttrValue) (n : Node) : Node :=
  { n with attrs := n.attrs.mark key value }

/-! ### One rewrite -/

/-- One rewrite of a pass. -/
inductive Rewrite (r : Registry) : PassId → Graph → Graph → Prop
  | mark {p : PassId} {g : Graph} {n : Node} (key : String) (value : AttrValue) :
      n ∈ g.nodes → key ≠ protectedMark → Rewrite r p g (g.graft n.id (Node.marked key value) [])
  | merge {g : Graph} {keep dup : Node} {op : OpKind} :
      keep ∈ g.nodes → dup ∈ g.nodes → keep.id ≠ dup.id → dup.kind = .operation op →
      CoherencePass.isDuplicate keep dup = true → dup.id ∉ g.inputs →
      (∀ out ∈ g.outputs, out.node ≠ dup.id) →
      Rewrite r .coherence g (g.merged dup.id keep.id)
  | divide {g : Graph} {n : Node} {op : OpKind} (load : Float) {parts : Nat} :
      n ∈ g.nodes → n.kind = .operation op → 0 < parts →
      Rewrite r .thermal g
        (g.graft n.id (ThermalPass.gathered r parts g.nextId) (ThermalPass.shares n load parts g.nextId))
  | wrap {g : Graph} {n : Node} {op : OpKind} (code : String) (distance : Nat) :
      n ∈ g.nodes → n.kind = .operation op →
      Rewrite r .errorCorrection g (g.graft n.id (ProtectionPass.decoding r g code distance)
        [ProtectionPass.encoding r g n code distance, ProtectionPass.core g n])
  | regroup {g : Graph} {hints : Hints} :
      (∀ grp ∈ hints.groups, grp.Made) → Rewrite r .performance g { g with hints := hints }

/-- Any number of rewrites of some passes. -/
abbrev Rewrites (r : Registry) (ids : List PassId) : Graph → Graph → Prop :=
  Relation.ReflTransGen (fun g g' => ∃ p ∈ ids, Rewrite r p g g')

lemma Rewrite.chain (h : Rewrite r p g g') : Rewrites r [p] g g' := .single ⟨p, List.mem_cons_self .., h⟩

/-- Equal computations have one kind and the same inputs, and their literals are equal. -/
lemma isDuplicate_spec (hdup : CoherencePass.isDuplicate keep dup = true) (hkind : dup.kind = .operation op) :
    keep.kind = .operation op ∧ keep.inputs = dup.inputs ∧ (keep.params == dup.params) = true := by
  unfold CoherencePass.isDuplicate at hdup
  simp only [Bool.and_eq_true, beq_iff_eq] at hdup
  obtain ⟨⟨⟨⟨hk, hinputs⟩, hparams⟩, -⟩, -⟩ := hdup
  refine ⟨?_, hinputs, hparams⟩
  rw [hkind] at hk
  cases hkeep : keep.kind with
  | input =>
    rw [hkeep] at hk
    cases hk
  | constant x =>
    rw [hkeep] at hk
    cases hk
  | operation op' =>
    rw [hkeep] at hk
    have hop : (op' == op) = true := hk
    rw [beq_iff_eq.1 hop]

/-! ### The grafts are grafts -/

lemma graftable_mark {key : String} {value : AttrValue} (hg : g.WellFormed) (hn : n ∈ g.nodes) :
    g.Graftable n (Node.marked key value) [] where
  mem := hn
  id := rfl
  numbers := rfl
  changed := fun i hi => .inl (hg.closed n hn i hi)
  added := fun _ hm => absurd hm List.not_mem_nil

lemma ThermalPass.map_id_shares (n : Node) (load : Float) (parts first : Nat) :
    (shares n load parts first).map (·.id) = List.range' first parts := by
  unfold shares
  rw [List.map_map]
  exact List.map_id _

lemma ThermalPass.length_shares (n : Node) (load : Float) (parts first : Nat) :
    (shares n load parts first).length = parts := by
  rw [shares, List.length_map, List.length_range']

lemma graftable_divide {load : Float} {parts : Nat} (hg : g.WellFormed) (hn : n ∈ g.nodes) :
    g.Graftable n (ThermalPass.gathered r parts g.nextId) (ThermalPass.shares n load parts g.nextId) := by
  refine ⟨hn, rfl, ?_, ?_, ?_⟩
  · rw [ThermalPass.map_id_shares, ThermalPass.length_shares]
  · intro i hi
    rw [ThermalPass.map_id_shares]
    exact .inr hi
  · intro m hm i hi
    obtain ⟨id, -, rfl⟩ := List.mem_map.1 hm
    exact .inl (hg.closed n hn i hi)

lemma graftable_wrap {code : String} {distance : Nat} (hg : g.WellFormed) (hn : n ∈ g.nodes) :
    g.Graftable n (ProtectionPass.decoding r g code distance)
      [ProtectionPass.encoding r g n code distance, ProtectionPass.core g n] := by
  have hnumbers : [ProtectionPass.encoding r g n code distance, ProtectionPass.core g n].map (·.id) =
      [g.nextId, g.nextId + 1] := rfl
  refine ⟨hn, rfl, rfl, ?_, ?_⟩
  · intro i hi
    rw [hnumbers]
    exact .inr (List.mem_cons_of_mem _ hi)
  · intro m hm i hi
    rw [hnumbers]
    simp only [List.mem_cons, List.not_mem_nil, or_false] at hm
    rcases hm with rfl | rfl
    · exact .inl (hg.closed n hn i hi)
    · rw [List.mem_singleton.1 hi]
      exact .inr (List.mem_cons_self ..)

/-- **A rewrite keeps a graph well-formed.** -/
theorem Rewrite.wellFormed (h : Rewrite r p g g') (hg : g.WellFormed) : g'.WellFormed := by
  cases h with
  | mark key value hn hkey => exact (graftable_mark hg hn).wellFormed hg
  | merge hkeep hdup hne hkind hsame hinput houtput => exact hg.merged (Graph.id_mem_ids hkeep) hne
  | divide load hn hkind hparts => exact (graftable_divide hg hn).wellFormed hg
  | wrap code distance hn hkind => exact (graftable_wrap hg hn).wellFormed hg
  | regroup _ => exact ⟨hg.ordered, hg.below, hg.closed⟩

/-- The groups of the hints have been added, before a rewrite and after it. -/
lemma Rewrite.made (h : Rewrite r p g g') (hmade : ∀ grp ∈ g.hints.groups, grp.Made) :
    ∀ grp ∈ g'.hints.groups, grp.Made := by
  cases h with
  | mark | merge | divide | wrap => exact hmade
  | regroup hnew => exact hnew

/-! ### Nothing goes round -/

/-- A graft keeps a measure: what takes the place of a node stands, in steps below `width`, where the
node stood. -/
theorem Graph.Ranked.graft {rank : NodeId → Nat} {f : Node → Node} {fresh : List Node} (hr : g.Ranked rank)
    (width : Nat) (off : NodeId → Nat) (hg : g.WellFormed) (hgraft : g.Graftable n f fresh)
    (hwidth : ∀ id, off id < width) (hchanged : ∀ i ∈ (f n).inputs,
      i ∈ g.ids ∧ rank i < rank n.id ∨ i ∈ fresh.map (·.id) ∧ off i < off n.id)
    (hadded : ∀ m ∈ fresh, ∀ i ∈ m.inputs,
      i ∈ g.ids ∧ rank i < rank n.id ∨ i ∈ fresh.map (·.id) ∧ off i < off m.id) :
    ∃ rank', (g.graft n.id f fresh).Ranked rank' := by
  let home (id : NodeId) : NodeId := if id < g.nextId then id else n.id
  let rank' (id : NodeId) : Nat := rank (home id) * width + off id
  have hold : ∀ id ∈ g.ids, home id = id := fun id hid => if_pos (hg.lt_nextId hid)
  have hnew : ∀ id ∈ fresh.map (·.id), home id = n.id := by
    intro id hid
    obtain ⟨m, hm, rfl⟩ := List.mem_map.1 hid
    exact if_neg (Nat.not_lt.2 (hgraft.nextId_le hm).1)
  -- an edge into the place of another node, or from one step of a place to a later one
  have hstep : ∀ a b, rank (home a) < rank (home b) → rank' a < rank' b := by
    intro a b hlt
    have hmul : (rank (home a) + 1) * width ≤ rank (home b) * width := Nat.mul_le_mul_right _ hlt
    have hoff := hwidth a
    show rank (home a) * width + off a < rank (home b) * width + off b
    rw [Nat.add_mul] at hmul
    omega
  have hinside : ∀ a b, home a = home b → off a < off b → rank' a < rank' b := by
    intro a b hhome hlt
    show rank (home a) * width + off a < rank (home b) * width + off b
    rw [hhome]
    omega
  have hn : home n.id = n.id := hold _ (Graph.id_mem_ids hgraft.mem)
  refine ⟨rank', fun m hm i hi => ?_⟩
  rcases (hgraft.mem_iff hg.ordered).1 hm with ⟨hm, -⟩ | rfl | hm
  · refine hstep i m.id ?_
    rw [hold i (hg.closed m hm i hi), hold m.id (Graph.id_mem_ids hm)]
    exact hr m hm i hi
  · rw [hgraft.id]
    rcases hchanged i hi with ⟨hin, hlt⟩ | ⟨hin, hlt⟩
    · exact hstep i n.id (by rwa [hold i hin, hn])
    · exact hinside i n.id (by rw [hnew i hin, hn]) hlt
  · have hhome := hnew m.id (List.mem_map_of_mem hm)
    rcases hadded m hm i hi with ⟨hin, hlt⟩ | ⟨hin, hlt⟩
    · exact hstep i m.id (by rwa [hold i hin, hhome])
    · exact hinside i m.id (by rw [hnew i hin, hhome]) hlt

/-- Merged nodes move down to the lower of their places, which is above all their inputs. -/
theorem Graph.Ranked.merged {rank : NodeId → Nat} (hr : g.Ranked rank) (hg : g.Ordered) (hkeep : keep ∈ g.nodes)
    (hdup : dup ∈ g.nodes) (hinputs : keep.inputs = dup.inputs) :
    ∃ rank', (g.merged dup.id keep.id).Ranked rank' := by
  let rank' (id : NodeId) : Nat := if id = keep.id then min (rank keep.id) (rank dup.id) else rank id
  have hle : ∀ id, rank' id ≤ rank id := by
    intro id
    show (if id = keep.id then min (rank keep.id) (rank dup.id) else rank id) ≤ rank id
    split
    · next hid =>
      rw [hid]
      exact Nat.min_le_left ..
    · exact Nat.le_refl _
  have hkeep' : rank' keep.id = min (rank keep.id) (rank dup.id) := if_pos rfl
  -- an edge that came from either node comes from below its other end
  have hmoved : ∀ j k, rank j < k → rank' (if j = dup.id then keep.id else j) < k := by
    intro j k hlt
    split
    · next hj =>
      rw [hj] at hlt
      rw [hkeep']
      exact Nat.lt_of_le_of_lt (Nat.min_le_right ..) hlt
    · exact Nat.lt_of_le_of_lt (hle j) hlt
  refine ⟨rank', fun m hm i hi => ?_⟩
  obtain ⟨x, hx, -, rfl⟩ := Graph.mem_merged.1 hm
  obtain ⟨j, hj, rfl⟩ := List.mem_map.1 hi
  refine hmoved j _ ?_
  show rank j < rank' x.id
  by_cases hid : x.id = keep.id
  · obtain rfl := hg.eq_of_id_eq hx hkeep hid
    rw [hkeep']
    exact Nat.lt_min.2 ⟨hr x hx j hj, hr dup hdup j (hinputs ▸ hj)⟩
  · have hsame : rank' x.id = rank x.id := if_neg hid
    rw [hsame]
    exact hr x hx j hj

/-- The shares of a divided node stand at its place, and their join right after them. -/
lemma Graph.Ranked.divide {rank : NodeId → Nat} {load : Float} {parts : Nat} (hr : g.Ranked rank) (hg : g.WellFormed)
    (hn : n ∈ g.nodes) : ∃ rank', (g.graft n.id (ThermalPass.gathered r parts g.nextId)
      (ThermalPass.shares n load parts g.nextId)).Ranked rank' := by
  have hgraft : g.Graftable n (ThermalPass.gathered r parts g.nextId) (ThermalPass.shares n load parts g.nextId) :=
    graftable_divide hg hn
  refine hr.graft 2 (fun id => if id = n.id then 1 else 0) hg hgraft ?_ ?_ ?_
  · intro id
    split <;> decide
  · intro i hi
    have hin : i ∈ (ThermalPass.shares n load parts g.nextId).map (·.id) := by
      rcases hgraft.changed i hi with hold | hnew
      · have hlow : g.nextId ≤ i := (List.mem_range'_1.1 hi).1
        exact absurd (hg.lt_nextId hold) (Nat.not_lt.2 hlow)
      · exact hnew
    have hne : i ≠ n.id := by
      rintro rfl
      exact absurd (hg.below n hn) (Nat.not_lt.2 (List.mem_range'_1.1 hi).1)
    rw [if_neg hne, if_pos rfl]
    exact .inr ⟨hin, Nat.zero_lt_one⟩
  · intro m hm i hi
    obtain ⟨id, -, rfl⟩ := List.mem_map.1 hm
    exact .inl ⟨hg.closed n hn i hi, hr n hn i hi⟩

/-- At the place of a wrapped node stand the encoding, the operation and the decoding, in this order. -/
lemma Graph.Ranked.wrap {rank : NodeId → Nat} {code : String} {distance : Nat} (hr : g.Ranked rank)
    (hg : g.WellFormed) (hn : n ∈ g.nodes) : ∃ rank', (g.graft n.id (ProtectionPass.decoding r g code distance)
      [ProtectionPass.encoding r g n code distance, ProtectionPass.core g n]).Ranked rank' := by
  have hlt := hg.below n hn
  refine hr.graft 3 (fun id => if id = n.id then 2 else if id = g.nextId then 0 else 1) hg
    (graftable_wrap hg hn) ?_ ?_ ?_
  · intro id
    split
    · decide
    · split <;> decide
  · intro i hi
    have hi : i = g.nextId + 1 := List.mem_singleton.1 hi
    have hne : g.nextId + 1 ≠ n.id := Nat.ne_of_gt (Nat.lt_succ_of_lt hlt)
    have hne' : g.nextId + 1 ≠ g.nextId := Nat.succ_ne_self _
    rw [hi, if_neg hne, if_neg hne', if_pos rfl]
    exact .inr ⟨List.mem_cons_of_mem _ (List.mem_cons_self ..), Nat.one_lt_two⟩
  · intro m hm i hi
    simp only [List.mem_cons, List.not_mem_nil, or_false] at hm
    rcases hm with rfl | rfl
    · exact .inl ⟨hg.closed n hn i hi, hr n hn i hi⟩
    · have hi : i = g.nextId := List.mem_singleton.1 hi
      have hne : g.nextId ≠ n.id := Nat.ne_of_gt hlt
      have hne' : (ProtectionPass.core g n).id ≠ n.id := Nat.ne_of_gt (Nat.lt_succ_of_lt hlt)
      have hne'' : (ProtectionPass.core g n).id ≠ g.nextId := Nat.succ_ne_self _
      rw [hi, if_neg hne, if_pos rfl, if_neg hne', if_neg hne'']
      exact .inr ⟨List.mem_cons_self .., Nat.zero_lt_one⟩

/-- **A rewrite leads to no cycle.** -/
theorem Rewrite.ranked {rank : NodeId → Nat} (h : Rewrite r p g g') (hg : g.WellFormed) (hr : g.Ranked rank) :
    ∃ rank', g'.Ranked rank' := by
  cases h with
  | mark key value hn hkey =>
    exact hr.graft 1 (fun _ => 0) hg (graftable_mark hg hn) (fun _ => Nat.zero_lt_one)
      (fun i hi => .inl ⟨hg.closed _ hn i hi, hr _ hn i hi⟩) (fun _ hm => absurd hm List.not_mem_nil)
  | merge hkeep hdup hne hkind hsame hinput houtput =>
    exact hr.merged hg.ordered hkeep hdup (isDuplicate_spec hsame hkind).2.1
  | divide load hn hkind hparts => exact hr.divide hg hn
  | wrap code distance hn hkind => exact hr.wrap hg hn
  | regroup _ => exact ⟨rank, hr⟩

lemma Rewrite.acyclic (h : Rewrite r p g g') (hg : g.WellFormed) (ha : g.Acyclic) : g'.Acyclic := by
  obtain ⟨rank, hr⟩ := Graph.exists_ranked hg.ordered hg.closed ha
  obtain ⟨rank', hr'⟩ := h.ranked hg hr
  exact hr'.acyclic

end Waveflow
