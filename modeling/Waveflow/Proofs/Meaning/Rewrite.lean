import Waveflow.Proofs.Meaning.Basic
import Waveflow.Proofs.Pass.Rewrite

/-!
# Rewrites keep the meaning

An interpretation is lawful if equal literals count as equal, a join of equal values is that value, and
an operation between an encoding and a decoding computes what it computes without them.  Under a lawful
interpretation every solution of the equations of a graph is one of the rewritten graph, once the new
numbers have been given their values (`Rewrite.solves`).
-/

namespace Waveflow

variable {V : Type*} {I : Interpretation V} {ρ val : NodeId → V}
variable {r : Registry} {p : PassId} {g g' : Graph} {n keep dup : Node} {op : OpKind}

/-- What passes rely on. -/
structure Interpretation.Lawful (I : Interpretation V) : Prop where
  /-- Literals matter up to their equality. -/
  literals : ∀ op (a b : Params) vs, (a == b) = true → I.apply op a vs = I.apply op b vs
  /-- A join of one or more equal values is that value. -/
  join : ∀ k v, I.apply .join Dict.empty (List.replicate (k + 1) v) = v
  /-- Encoding the inputs and decoding the result does not show. -/
  decode : ∀ code distance op params vs,
    I.apply (.decode code distance) Dict.empty
      [I.apply op params [I.apply (.encode code distance) Dict.empty vs]] = I.apply op params vs

lemma Graph.Solves.operation (hs : g.Solves I ρ val) (hn : n ∈ g.nodes) (hkind : n.kind = .operation op) :
    val n.id = I.apply op n.params (n.inputs.map val) := by
  rw [hs n hn]
  simp only [Node.value, hkind]

/-! ### Grafts -/

/-- A valuation with other values from a number on. -/
def extended (first : NodeId) (val new : NodeId → V) (id : NodeId) : V := if id < first then val id else new id

lemma extended_old (hg : g.WellFormed) {new : NodeId → V} {id : NodeId} (hid : id ∈ g.ids) :
    extended g.nextId val new id = val id :=
  if_pos (hg.lt_nextId hid)

lemma map_extended (hg : g.WellFormed) {new : NodeId → V} (hn : n ∈ g.nodes) :
    n.inputs.map (extended g.nextId val new) = n.inputs.map val :=
  List.map_congr_left fun i hi => extended_old hg (hg.closed n hn i hi)

/-- A solution is extended over a graft by solving the equations that are new or changed. -/
theorem Graph.Solves.graft {f : Node → Node} {fresh : List Node} (hs : g.Solves I ρ val) (hg : g.WellFormed)
    (hgraft : g.Graftable n f fresh) (new : NodeId → V)
    (hchanged : val n.id = (f n).value I ρ (extended g.nextId val new))
    (hadded : ∀ m ∈ fresh, new m.id = m.value I ρ (extended g.nextId val new)) :
    (g.graft n.id f fresh).Solves I ρ (extended g.nextId val new) := by
  intro m hm
  rcases (hgraft.mem_iff hg.ordered).1 hm with ⟨hm, -⟩ | rfl | hm
  · rw [extended_old hg (Graph.id_mem_ids hm), hs m hm]
    exact Node.value_congr fun i hi => (extended_old hg (hg.closed m hm i hi)).symm
  · rw [hgraft.id, extended_old hg (Graph.id_mem_ids hgraft.mem), hchanged]
  · have hnew : extended g.nextId val new m.id = new m.id := if_neg (Nat.not_lt.2 (hgraft.nextId_le hm).1)
    rw [hnew, hadded m hm]

/-- The parts of a divided node compute what it computed, and so does their join. -/
lemma solves_divide {load : Float} {parts : Nat} (hI : I.Lawful) (hg : g.WellFormed) (hs : g.Solves I ρ val)
    (hn : n ∈ g.nodes) (hkind : n.kind = .operation op) (hparts : 0 < parts) :
    ∃ new, (g.graft n.id (ThermalPass.gathered r parts g.nextId) (ThermalPass.shares n load parts g.nextId)).Solves
      I ρ (extended g.nextId val new) := by
  refine ⟨fun _ => val n.id, hs.graft hg (graftable_divide hg hn) _ ?_ ?_⟩
  · -- all inputs of the join are new numbers
    have hvalues : (List.range' g.nextId parts).map (extended g.nextId val fun _ => val n.id) =
        List.replicate parts (val n.id) := by
      refine List.eq_replicate_iff.2 ⟨by simp, fun v hv => ?_⟩
      obtain ⟨i, hi, rfl⟩ := List.mem_map.1 hv
      exact if_neg (Nat.not_lt.2 (List.mem_range'_1.1 hi).1)
    obtain ⟨k, rfl⟩ := Nat.exists_eq_add_one_of_ne_zero (Nat.ne_of_gt hparts)
    show val n.id = I.apply .join Dict.empty ((List.range' g.nextId (k + 1)).map _)
    rw [hvalues, hI.join]
  · intro m hm
    obtain ⟨id, -, rfl⟩ := List.mem_map.1 hm
    simp only [Node.value, ThermalPass.part, hkind]
    rw [map_extended hg hn]
    exact hs.operation hn hkind

/-- Encoding, operation and decoding together compute what the operation computed. -/
lemma solves_wrap {code : String} {distance : Nat} (hI : I.Lawful) (hg : g.WellFormed) (hs : g.Solves I ρ val)
    (hn : n ∈ g.nodes) (hkind : n.kind = .operation op) :
    ∃ new, (g.graft n.id (ProtectionPass.decoding r g code distance)
      [ProtectionPass.encoding r g n code distance, ProtectionPass.core g n]).Solves
      I ρ (extended g.nextId val new) := by
  let encoded : V := I.apply (.encode code distance) Dict.empty (n.inputs.map val)
  let computed : V := I.apply op n.params [encoded]
  let new (id : NodeId) : V := if id = g.nextId then encoded else computed
  have hencoded : extended g.nextId val new g.nextId = encoded := by
    unfold extended
    rw [if_neg (Nat.lt_irrefl _)]
    exact if_pos rfl
  have hcomputed : extended g.nextId val new (g.nextId + 1) = computed := by
    unfold extended
    rw [if_neg (Nat.not_lt.2 (Nat.le_succ _))]
    exact if_neg (Nat.succ_ne_self _)
  refine ⟨new, hs.graft hg (graftable_wrap hg hn) new ?_ ?_⟩
  · show val n.id = I.apply (.decode code distance) Dict.empty [extended g.nextId val new (g.nextId + 1)]
    rw [hcomputed, hI.decode]
    exact hs.operation hn hkind
  · intro m hm
    simp only [List.mem_cons, List.not_mem_nil, or_false] at hm
    rcases hm with rfl | rfl
    · show new g.nextId = I.apply (.encode code distance) Dict.empty (n.inputs.map _)
      rw [map_extended hg hn]
      exact if_pos rfl
    · have hcore : (ProtectionPass.core g n).value I ρ (extended g.nextId val new) =
          I.apply op n.params [extended g.nextId val new g.nextId] := by
        simp only [Node.value, ProtectionPass.core, hkind, List.map_cons, List.map_nil]
      rw [hcore, hencoded]
      exact if_neg (Nat.succ_ne_self _)

/-! ### Merges -/

/-- Equal computations have equal values. -/
lemma Graph.Solves.eq_of_isDuplicate (hI : I.Lawful) (hs : g.Solves I ρ val) (hkeep : keep ∈ g.nodes)
    (hdup : dup ∈ g.nodes) (hkind : dup.kind = .operation op) (hsame : CoherencePass.isDuplicate keep dup = true) :
    val keep.id = val dup.id := by
  obtain ⟨hkind', hinputs, hparams⟩ := isDuplicate_spec hsame hkind
  rw [hs.operation hkeep hkind', hs.operation hdup hkind, hinputs]
  exact hI.literals op _ _ _ hparams

lemma Graph.Solves.merged (hs : g.Solves I ρ val) (heq : val keep.id = val dup.id) :
    (g.merged dup.id keep.id).Solves I ρ val := by
  intro m hm
  obtain ⟨n, hn, -, rfl⟩ := Graph.mem_merged.1 hm
  have hinputs : (Graph.redirected dup.id keep.id n).inputs.map val = n.inputs.map val := by
    unfold Graph.redirected
    rw [List.map_map]
    refine List.map_congr_left fun i _ => ?_
    dsimp only [Function.comp]
    split
    · next hi => rw [hi, heq]
    · rfl
  show val n.id = _
  rw [hs n hn]
  unfold Node.value
  rw [hinputs]
  rfl

/-! ### All rewrites -/

/-- **A rewrite keeps the value of every number that was there.** -/
theorem Rewrite.solves (h : Rewrite r p g g') (hI : I.Lawful) (hg : g.WellFormed) (hs : g.Solves I ρ val) :
    ∃ val', g'.Solves I ρ val' ∧ ∀ id < g.nextId, val' id = val id := by
  cases h with
  | mark key value hn hkey =>
    refine ⟨_, hs.graft hg (graftable_mark hg hn) val ?_ fun _ hm => absurd hm List.not_mem_nil, ?_⟩
    · rw [hs _ hn]
      exact Node.value_congr fun i hi => (extended_old hg (hg.closed _ hn i hi)).symm
    · exact fun id hid => if_pos hid
  | merge hkeep hdup hne hkind hsame hinput houtput =>
    exact ⟨val, hs.merged (hs.eq_of_isDuplicate hI hkeep hdup hkind hsame), fun _ _ => rfl⟩
  | divide load hn hkind hparts =>
    obtain ⟨new, hnew⟩ := solves_divide hI hg hs hn hkind hparts
    exact ⟨_, hnew, fun id hid => if_pos hid⟩
  | wrap code distance hn hkind =>
    obtain ⟨new, hnew⟩ := solves_wrap hI hg hs hn hkind
    exact ⟨_, hnew, fun id hid => if_pos hid⟩
  | regroup _ => exact ⟨val, hs, fun _ _ => rfl⟩

end Waveflow
