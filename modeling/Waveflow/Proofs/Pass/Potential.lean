import Waveflow.Proofs.Pass.Coherence
import Waveflow.Proofs.Pass.Protection
import Waveflow.Proofs.Pass.Thermal
import Mathlib.Algebra.Ring.Nat

/-!
# What is left for passes to do

The passes make work for each other: the parts of a divided node may have to be protected, and what protects a node
may be too hot.  The potential of a graph bounds this work.  It adds up over the nodes, and that of a node is a
product of three factors: one for the protection that it may still get, one for the division and one for the report.
Whatever takes the place of a node has less potential in all than the node had, because all of it carries the mark
that keeps the pass from doing the same again (`potential_divided`, `potential_wrapped`, `potential_warned`), and a
merged node is gone.  Marks of paths and hints cost nothing.
-/

namespace Waveflow

open Checked (Yields)

variable {r : Registry} {g : Graph} {n : Node} {a : Attributes} {key : String} {value : AttrValue}

/-! ### Nodes -/

namespace Attributes

/-- The node may still be put between an encoding and a decoding, which makes three nodes of it. -/
def shelter (a : Attributes) : Nat := if a.hasFlag protectedMark then 1 else 4

/-- The node may still be divided, which makes a join and at most `maxParts` parts of it. -/
def division (a : Attributes) : Nat :=
  if a.hasFlag partMark || (a.mark? dividedMark).isSome then 1 else ThermalPass.maxParts + 2

/-- The node may still be reported as too hot. -/
def alarm (a : Attributes) : Nat := if a.hasFlag warnedMark then 1 else 2

/-- What passes may still make of a node. -/
def potential (a : Attributes) : Nat := a.shelter * a.division * a.alarm

lemma mark?_mark_of_ne {k : String} (h : k ≠ key) : (a.mark key value).mark? k = a.mark? k := by
  unfold mark mark?
  rw [Dict.get?_insert, if_neg h]

lemma mark?_mark_self : (a.mark key value).mark? key = some value := by
  unfold mark mark?
  rw [Dict.get?_insert, if_pos rfl]

lemma shelter_mark (h : protectedMark ≠ key) : (a.mark key value).shelter = a.shelter := by
  unfold shelter
  rw [hasFlag_mark_of_ne h]

lemma division_mark (h : partMark ≠ key) (h' : dividedMark ≠ key) : (a.mark key value).division = a.division := by
  unfold division
  rw [hasFlag_mark_of_ne h, mark?_mark_of_ne h']

lemma division_part : (a.mark partMark (.flag true)).division = 1 := by
  unfold division
  rw [hasFlag_mark_self]
  rfl

lemma division_divided : (a.mark dividedMark value).division = 1 := by
  unfold division
  rw [mark?_mark_self]
  simp

lemma alarm_mark (h : warnedMark ≠ key) : (a.mark key value).alarm = a.alarm := by
  unfold alarm
  rw [hasFlag_mark_of_ne h]

lemma potential_pos (a : Attributes) : 0 < a.potential := by
  unfold potential shelter division alarm
  split <;> split <;> split <;> decide

lemma potential_path : (a.mark pathMark value).potential = a.potential := by
  unfold potential
  rw [shelter_mark (by decide), division_mark (by decide) (by decide), alarm_mark (by decide)]

/-- Protection uses up three quarters of the potential. -/
lemma potential_sealed (h : a.hasFlag protectedMark = false) :
    4 * (ProtectionPass.sealed a).potential = a.potential := by
  have hafter : (ProtectionPass.sealed a).shelter = 1 := if_pos hasFlag_mark_self
  have hbefore : a.shelter = 4 := if_neg (by simp [h])
  have hdivision : (ProtectionPass.sealed a).division = a.division := division_mark (by decide) (by decide)
  have halarm : (ProtectionPass.sealed a).alarm = a.alarm := alarm_mark (by decide)
  unfold potential
  rw [hafter, hbefore, hdivision, halarm, Nat.one_mul, Nat.mul_assoc]

/-- A report uses up half of the potential. -/
lemma potential_warned (h : a.hasFlag warnedMark = false) :
    2 * (a.mark warnedMark (.flag true)).potential = a.potential := by
  have hafter : (a.mark warnedMark (.flag true)).alarm = 1 := if_pos hasFlag_mark_self
  have hbefore : a.alarm = 2 := if_neg (by simp [h])
  unfold potential
  rw [hafter, hbefore, shelter_mark (by decide), division_mark (by decide) (by decide), Nat.mul_one, Nat.mul_comm]

/-- A part, and the join of parts, has a small share of the potential. -/
lemma potential_of_division {b : Attributes} (hb : b.division = 1) (ha : a.division = ThermalPass.maxParts + 2)
    (hshelter : b.shelter = a.shelter) (halarm : b.alarm = a.alarm) :
    (ThermalPass.maxParts + 2) * b.potential = a.potential := by
  unfold potential
  rw [hb, ha, hshelter, halarm, Nat.mul_one, ← Nat.mul_assoc, Nat.mul_comm (ThermalPass.maxParts + 2)]

end Attributes

/-! ### Graphs -/

namespace Graph

/-- What passes may still make of a list of nodes. -/
def potentialOf (ns : List Node) : Nat := (ns.map (·.attrs.potential)).sum

/-- What passes may still make of a graph. -/
def potential (g : Graph) : Nat := potentialOf g.nodes

@[simp] lemma potentialOf_nil : potentialOf [] = 0 := rfl

@[simp] lemma potentialOf_cons (ns : List Node) : potentialOf (n :: ns) = n.attrs.potential + potentialOf ns := rfl

@[simp] lemma potentialOf_append (ns more : List Node) :
    potentialOf (ns ++ more) = potentialOf ns + potentialOf more := by
  unfold potentialOf
  rw [List.map_append, List.sum_append]

lemma potentialOf_map {ns : List Node} {f : Node → Node}
    (h : ∀ m ∈ ns, (f m).attrs.potential = m.attrs.potential) :
    potentialOf (ns.map f) = potentialOf ns := by
  unfold potentialOf
  rw [List.map_map]
  exact congrArg List.sum (List.map_congr_left h)

/-- A node stands alone under its number. -/
lemma Ordered.exists_split (hg : g.Ordered) (hn : n ∈ g.nodes) :
    ∃ before after, g.nodes = before ++ n :: after ∧ ∀ m ∈ before ++ after, m.id ≠ n.id := by
  obtain ⟨before, after, hsplit⟩ := List.append_of_mem hn
  have hnodup := hg.nodes_nodup
  rw [hsplit, List.nodup_middle] at hnodup
  refine ⟨before, after, hsplit, fun m hm hid => ?_⟩
  have hmem : m ∈ g.nodes := by
    rw [hsplit]
    simp only [List.mem_append, List.mem_cons] at hm ⊢
    tauto
  exact (List.nodup_cons.1 hnodup).1 (hg.eq_of_id_eq hmem hn hid ▸ hm)

/-- A graft exchanges the potential of the node for that of what takes its place. -/
lemma potential_graft (hg : g.Ordered) (hn : n ∈ g.nodes) (f : Node → Node) (fresh : List Node) :
    (g.graft n.id f fresh).potential + n.attrs.potential =
      g.potential + (f n).attrs.potential + potentialOf fresh := by
  obtain ⟨before, after, hsplit, hothers⟩ := hg.exists_split hn
  have hbefore : potentialOf (before.map (fun m => if m.id = n.id then f m else m)) = potentialOf before :=
    potentialOf_map fun m hm => by rw [if_neg (hothers m (List.mem_append_left _ hm))]
  have hafter : potentialOf (after.map (fun m => if m.id = n.id then f m else m)) = potentialOf after :=
    potentialOf_map fun m hm => by rw [if_neg (hothers m (List.mem_append_right _ hm))]
  unfold potential graft
  rw [hsplit]
  simp only [List.map_append, List.map_cons, potentialOf_append, potentialOf_cons, hbefore, hafter, if_pos]
  omega

/-- A merge gives up the potential of the node that is dropped. -/
lemma potential_merged (hg : g.Ordered) (hn : n ∈ g.nodes) (keep : NodeId) :
    (g.merged n.id keep).potential + n.attrs.potential = g.potential := by
  obtain ⟨before, after, hsplit, hothers⟩ := hg.exists_split hn
  have hbefore : before.filter (fun m => m.id != n.id) = before :=
    List.filter_eq_self.2 fun m hm => by simpa using hothers m (List.mem_append_left _ hm)
  have hafter : after.filter (fun m => m.id != n.id) = after :=
    List.filter_eq_self.2 fun m hm => by simpa using hothers m (List.mem_append_right _ hm)
  have hkept : (g.merged n.id keep).potential = potentialOf (g.nodes.filter (fun m => m.id != n.id)) :=
    potentialOf_map fun _ _ => rfl
  rw [hkept, potential, hsplit, List.filter_append, List.filter_cons, if_neg (by simp), hbefore, hafter]
  simp only [potentialOf_append, potentialOf_cons]
  omega

/-- Potential has been used up, or the graph is the same and no change is reported. -/
def Spends (g g' : Graph) (changed : Bool) : Prop := g'.potential < g.potential ∨ g' = g ∧ changed = false

lemma Spends.le {g' : Graph} {changed : Bool} (h : g.Spends g' changed) : g'.potential ≤ g.potential := by
  rcases h with h | ⟨rfl, -⟩
  · exact Nat.le_of_lt h
  · exact Nat.le_refl _

lemma Spends.trans {g' g'' : Graph} {changed changed' : Bool} (h : g.Spends g' changed)
    (h' : g'.Spends g'' changed') : g.Spends g'' (changed || changed') := by
  rcases h with h | ⟨rfl, rfl⟩
  · exact .inl (Nat.lt_of_le_of_lt h'.le h)
  · simpa using h'

end Graph

/-! ### Dividing -/

namespace ThermalPass

variable {load ceiling : Float} {parts : Nat} {ids : List NodeId} {out : Outcome} {changed : Bool}

lemma division_of_whole (hpart : n.attrs.hasFlag partMark = false) (hwhole : n.attrs.mark? dividedMark = none) :
    n.attrs.division = maxParts + 2 := by
  unfold Attributes.division
  rw [hpart, hwhole]
  rfl

lemma potential_part (hdivision : n.attrs.division = maxParts + 2) (parts : Nat) :
    (maxParts + 2) * (part n load parts).attrs.potential = n.attrs.potential :=
  Attributes.potential_of_division Attributes.division_part hdivision
    (Attributes.shelter_mark (by decide)) (Attributes.alarm_mark (by decide))

lemma potential_gathered (hdivision : n.attrs.division = maxParts + 2) (parts first : Nat) :
    (maxParts + 2) * (gathered r parts first n).attrs.potential = n.attrs.potential :=
  Attributes.potential_of_division Attributes.division_divided hdivision
    (Attributes.shelter_mark (by decide)) (Attributes.alarm_mark (by decide))

lemma potential_shares (first : Nat) :
    Graph.potentialOf (shares n load parts first) = parts * (part n load parts).attrs.potential := by
  unfold Graph.potentialOf shares
  simp [Function.comp_def]

/-- **The parts of a node and their join have less potential than the node.** -/
theorem potential_divided (hg : g.Ordered) (hn : n ∈ g.nodes) (hpart : n.attrs.hasFlag partMark = false)
    (hwhole : n.attrs.mark? dividedMark = none) (hparts : parts ≤ maxParts) :
    (divided r g n load parts).potential < g.potential := by
  have hdivision := division_of_whole hpart hwhole
  have hgraft := Graph.potential_graft hg hn (gathered r parts g.nextId) (shares n load parts g.nextId)
  have hshare : (maxParts + 2) * (part n load parts).attrs.potential = n.attrs.potential :=
    potential_part hdivision parts
  have hpos := (part n load parts).attrs.potential_pos
  have hjoin : (gathered r parts g.nextId n).attrs.potential = (part n load parts).attrs.potential :=
    Nat.eq_of_mul_eq_mul_left (by decide) ((potential_gathered hdivision parts g.nextId).trans hshare.symm)
  -- the join and at most `maxParts` parts, where there is room for one more
  have hroom : parts * (part n load parts).attrs.potential ≤ maxParts * (part n load parts).attrs.potential :=
    Nat.mul_le_mul_right _ hparts
  rw [potential_shares, hjoin] at hgraft
  rw [Nat.add_mul] at hshare
  show (g.graft n.id _ _).potential < _
  omega

lemma step_spends {id : NodeId} (hceiling : Valid ceiling) (hg : g.WellFormed) (h : step r ceiling g id = .ok out)
    (hresult : out.result = .ok changed) : g.Spends out.graph changed := by
  rcases (step_cases hceiling hg id).of_ok h with
    rfl | ⟨n, hn, op, load, parts, -, hhot, -, hparts, rfl⟩ | ⟨n, hn, atomic, load, hwarned, rfl⟩
  · exact .inr ⟨rfl, (Except.ok.inj hresult).symm⟩
  · obtain ⟨-, hpart, hwhole⟩ := isHot_spec hhot
    exact .inl (potential_divided hg.ordered hn hpart hwhole hparts)
  · have hgraft := Graph.potential_graft hg.ordered hn (Node.marked warnedMark (.flag true)) []
    have hhalf : 2 * (Node.marked warnedMark (.flag true) n).attrs.potential = n.attrs.potential :=
      Attributes.potential_warned hwarned
    have hpos := n.attrs.potential_pos
    simp only [Graph.potentialOf_nil] at hgraft
    left
    dsimp only
    omega

/-- **The thermal pass uses up potential when it changes something.** -/
theorem steps_spends (hceiling : Valid ceiling) (hg : g.WellFormed) (h : steps r ceiling ids g = .ok out)
    (hresult : out.result = .ok changed) : g.Spends out.graph changed := by
  induction ids generalizing g out changed with
  | nil =>
    obtain rfl := Except.ok.inj h
    exact .inr ⟨rfl, (Except.ok.inj hresult).symm⟩
  | cons id rest ih =>
    rw [steps] at h
    obtain ⟨first, hfirst, h⟩ := Checked.bind_eq_ok.1 h
    obtain ⟨⟨c, hc⟩, hchain, -⟩ := (step_yields hceiling hg id).of_ok hfirst
    rw [hc] at h
    obtain ⟨more, hmore, h⟩ := Checked.bind_eq_ok.1 h
    obtain rfl := Except.ok.inj h
    obtain ⟨c', hc', rfl⟩ := Checked.map_eq_ok.1 hresult
    have hrest := ih (Rewrites.wellFormed hchain hg) hmore hc'
    exact (step_spends hceiling hg hfirst hc).trans hrest

end ThermalPass

/-! ### Protecting -/

namespace ProtectionPass

variable {ids : List NodeId} {a : Attempt Unit}

/-- **A protected node, its encoding and its decoding have less potential than the node.** -/
theorem potential_wrapped (hg : g.Ordered) (hn : n ∈ g.nodes) (hflag : n.attrs.hasFlag protectedMark = false)
    (code : String) (distance : Nat) : (wrapped r g n code distance).potential < g.potential := by
  have hgraft := Graph.potential_graft hg hn (decoding r g code distance)
    [encoding r g n code distance, core g n]
  -- the thermal budget does not count, so all three have the potential of the sealed node
  have hsealed := Attributes.potential_sealed hflag
  have hdecoding : (decoding r g code distance n).attrs.potential = (sealed n.attrs).potential := rfl
  have hencoding : (encoding r g n code distance).attrs.potential = (sealed n.attrs).potential := rfl
  have hcore : (core g n).attrs.potential = (sealed n.attrs).potential := rfl
  have hpos := n.attrs.potential_pos
  simp only [Graph.potentialOf_cons, Graph.potentialOf_nil, hdecoding, hencoding, hcore] at hgraft
  show (g.graft n.id _ _).potential < _
  omega

/-- **The error-correction pass uses up potential at every node that it protects.** -/
theorem wrapAll_spends (hg : g.WellFormed) (htargets : Targets r g ids) (h : wrapAll r ids g = .ok a)
    (hresult : a.result = .ok ()) : g.Spends a.graph (!ids.isEmpty) := by
  induction ids generalizing g a with
  | nil =>
    obtain rfl := Except.ok.inj h
    exact .inr ⟨rfl, rfl⟩
  | cons id rest ih =>
    rw [wrapAll] at h
    obtain ⟨first, hfirst, h⟩ := Checked.bind_eq_ok.1 h
    obtain ⟨n, hn, rfl⟩ := Graph.mem_ids.1 (htargets.present id (List.mem_cons_self ..))
    have htarget := htargets.wanted n hn (List.mem_cons_self ..)
    rcases (wrap_yields hg hn htarget).of_ok hfirst with ⟨code, distance, rfl⟩ | ⟨code, rfl, -, -⟩
    · have hless := potential_wrapped (r := r) hg.ordered hn (isTarget_spec htarget).1 code distance
      have hrest := htargets.tail.wrapped hg hn (List.nodup_cons.1 htargets.nodup).1 code distance
      have hmore := ih ((graftable_wrap hg hn).wellFormed hg) hrest h hresult
      exact .inl (Nat.lt_of_le_of_lt hmore.le hless)
    · obtain rfl := Except.ok.inj h
      cases hresult

end ProtectionPass

/-! ### Merging -/

namespace CoherencePass

variable {kept ids : List NodeId} {count : Nat}

/-- **Merges use up the potential of the nodes that they drop.** -/
theorem merge_spends (hg : g.WellFormed) (hlisted : Listed g kept ids) :
    ∀ count, (merge g kept ids).result = .ok count → g.Spends (merge g kept ids).graph (0 < count) := by
  induction ids generalizing g kept with
  | nil =>
    intro count hresult
    obtain rfl := Except.ok.inj hresult
    exact .inr ⟨rfl, rfl⟩
  | cons id rest ih =>
    rw [merge]
    split
    · exact ih hg hlisted.moved
    · next houtput =>
      split
      · exact ih hg hlisted.tail
      · next n hn =>
        obtain ⟨hmem, rfl⟩ := (Graph.node?_eq_some_iff hg.ordered).1 hn
        split
        · exact ih hg hlisted.moved
        · next k hk =>
          obtain ⟨hkept, keep, hkeep, rfl, hsame⟩ := keeper?_eq_some hg.ordered hk
          have hne : keep.id ≠ n.id := fun e => hlisted.apart _ hkept (e ▸ List.mem_cons_self ..)
          obtain ⟨op, hkind⟩ := hlisted.operations n hmem (List.mem_cons_self ..)
          intro count hresult
          rcases mergeInto_ends (r := .builtin) hg hkeep hmem hne hkind hsame (by simpa using houtput) with
            ⟨heq, -⟩ | ⟨⟨e, he⟩, -⟩
          · rw [heq] at hresult ⊢
            obtain ⟨more, hmore, rfl⟩ := Checked.map_eq_ok.1 hresult
            have hrest := ih (hg.merged (Graph.id_mem_ids hkeep) hne) (hlisted.tail.merged n.id keep.id) more hmore
            have hdropped := Graph.potential_merged hg.ordered hmem keep.id
            have hpos := n.attrs.potential_pos
            have hle := hrest.le
            left
            dsimp only
            omega
          · dsimp only at hresult
            rw [he] at hresult
            cases hresult

end CoherencePass

end Waveflow
