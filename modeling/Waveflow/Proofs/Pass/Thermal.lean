import Waveflow.Proofs.Graph.Edit
import Waveflow.Proofs.Pass.Sound

/-!
# The thermal pass rewrites

A division appends the parts of a node and turns the node into their join.  The edits for it are never
refused: the node is an operation, and its inputs are there.
-/

namespace Waveflow.ThermalPass

open Checked (Yields)

variable {r : Registry} {g : Graph} {n : Node} {op : OpKind} {inputs : List NodeId}

/-! ### Dividing -/

/-- Copies are appended one after the other. -/
lemma insertCopies_yields (hg : g.Numbered) (hkind : n.isInput = false) (hin : ∀ i ∈ inputs, i ∈ g.ids)
    (count : Nat) :
    Yields (insertCopies n inputs count g) fun a =>
      a = ⟨g.appended ((List.range' g.nextId count).map (fun id => { n with id := id, inputs := inputs })),
        .ok (List.range' g.nextId count)⟩ ∧ a.graph.Numbered := by
  induction count generalizing g with
  | zero => exact ⟨by simp [Graph.appended], hg⟩
  | succ count ih =>
    rw [insertCopies]
    refine (Graph.insertLike_yields hg.ordered hkind hin).bind ?_
    rintro _ rfl
    have hg' := hg.appended_one (n := { n with id := g.nextId, inputs := inputs }) rfl
    have hin' : ∀ i ∈ inputs, i ∈ (g.appended [{ n with id := g.nextId, inputs := inputs }]).ids := by
      intro i hi
      rw [Graph.ids_appended]
      exact List.mem_append_left _ (hin i hi)
    refine (ih hg' hin').bind ?_
    rintro more ⟨rfl, hmore⟩
    refine ⟨?_, hmore⟩
    dsimp only
    rw [Graph.appended_appended]
    rfl

/-- The graph with a node divided into parts. -/
abbrev divided (r : Registry) (g : Graph) (n : Node) (load : Float) (parts : Nat) : Graph :=
  g.graft n.id (gathered r parts g.nextId) (shares n load parts g.nextId)

/-- The edits that divide an operation are never refused. -/
lemma divide_yields (hg : g.WellFormed) (hn : n ∈ g.nodes) (hkind : n.kind = .operation op) (load : Float)
    (parts : Nat) : Yields (divide r g n load parts) (· = ⟨divided r g n load parts, .ok ()⟩) := by
  have hinput : (part n load parts).isInput = false := Node.isInput_of_operation (n := part n load parts) hkind
  unfold divide
  refine (insertCopies_yields hg.numbered hinput (fun i hi => hg.closed n hn i hi) parts).bind ?_
  rintro _ ⟨rfl, hnumbered⟩
  have hshares : (List.range' g.nextId parts).map (fun id => { part n load parts with id := id, inputs := n.inputs }) =
      shares n load parts g.nextId := rfl
  rw [hshares] at hnumbered ⊢
  have hgraft : g.Graftable n (gathered r parts g.nextId) (shares n load parts g.nextId) := graftable_divide hg hn
  have hin : ∀ i ∈ List.range' g.nextId parts, i ∈ (g.appended (shares n load parts g.nextId)).ids := by
    intro i hi
    rw [Graph.ids_appended, List.mem_append]
    exact hgraft.changed i hi
  obtain ⟨g', hset, hmodify⟩ := Graph.setInputs_modify (f := joined r parts) hnumbered.ordered hn
    (Node.isInput_of_operation hkind) hin (hgraft.ne_of_mem hg)
  unfold Attempt.andThen
  dsimp only
  rw [hset]
  dsimp only
  rw [hmodify]
  exact rfl

/-! ### The pass -/

/-- The ceiling is a positive number. -/
def Valid (ceiling : Float) : Prop := ceiling.isFinite = true ∧ ¬ ceiling ≤ 0.0

lemma parts_le {load ceiling : Float} {parts : Nat} (h : parts? load ceiling = some parts) : parts ≤ maxParts := by
  unfold parts? at h
  dsimp only at h
  split at h
  · cases h
  split at h
  · split at h
    · cases h
    · obtain rfl := Option.some.inj h
      exact Nat.zero_le _
  split at h
  · next hle =>
    obtain rfl := Option.some.inj h
    exact Int.toNat_le.2 hle
  · cases h

/-- What one node brings about under any ceiling: nothing, its division if it is too hot, or a report if it has had
none. -/
lemma step_spec (ceiling : Float) (hg : g.WellFormed) (id : NodeId) :
    Yields (step r ceiling g id) fun out =>
      out = ⟨g, .ok false, []⟩ ∨
      (∃ n ∈ g.nodes, ∃ op load parts, n.kind = .operation op ∧ isHot ceiling n load = true ∧
        parts? load ceiling = some parts ∧ out = ⟨divided r g n load parts, .ok true, []⟩) ∨
      ∃ n ∈ g.nodes, ∃ atomic load, n.attrs.hasFlag warnedMark = false ∧
        out = ⟨g.graft n.id (Node.marked warnedMark (.flag true)) [], .ok true,
          [warning atomic n load ceiling]⟩ := by
  unfold step
  split
  · exact .inl rfl
  · next n hn =>
    obtain ⟨hmem, rfl⟩ := (Graph.node?_eq_some_iff hg.ordered).1 hn
    split
    · next spec load hspec hload =>
      obtain ⟨op, hop, -⟩ := Option.bind_eq_some_iff.1 hspec
      have hkind : n.kind = .operation op := Node.op?_eq_some_iff.1 hop
      split
      · exact .inl rfl
      · next hhot =>
        have hhot : isHot ceiling n load = true := by simpa using hhot
        split
        · next parts hparts =>
          have hcount : parts? load ceiling = some parts := by
            split at hparts
            · cases hparts
            · exact hparts
          refine (divide_yields hg hmem hkind load parts).bind ?_
          rintro _ rfl
          exact .inr (.inl ⟨n, hmem, op, load, parts, hkind, hhot, hcount, rfl⟩)
        · split
          · exact .inl rfl
          · next hwarned =>
            refine .inr (.inr ⟨n, hmem, spec.atomic, load, by simpa using hwarned, ?_⟩)
            rw [← Graph.modify_eq_graft hg.ordered]
            rfl
    · exact .inl rfl

/-- A node is too hot only above the ceiling, and if it is neither a part nor divided. -/
lemma isHot_spec {ceiling load : Float} (h : isHot ceiling n load = true) :
    ¬ load ≤ ceiling ∧ n.attrs.hasFlag partMark = false ∧ n.attrs.mark? dividedMark = none := by
  unfold isHot at h
  simp only [Bool.and_eq_true, Bool.not_eq_true', decide_eq_false_iff_not, Option.isNone_iff_eq_none] at h
  exact ⟨h.1.1, h.1.2, h.2⟩

/-- Under a valid ceiling a division makes at least one part, and not too many. -/
lemma step_cases {ceiling : Float} (hceiling : Valid ceiling) (hg : g.WellFormed) (id : NodeId) :
    Yields (step r ceiling g id) fun out =>
      out = ⟨g, .ok false, []⟩ ∨
      (∃ n ∈ g.nodes, ∃ op load parts, n.kind = .operation op ∧ isHot ceiling n load = true ∧ 0 < parts ∧
        parts ≤ maxParts ∧ out = ⟨divided r g n load parts, .ok true, []⟩) ∨
      ∃ n ∈ g.nodes, ∃ atomic load, n.attrs.hasFlag warnedMark = false ∧
        out = ⟨g.graft n.id (Node.marked warnedMark (.flag true)) [], .ok true,
          [warning atomic n load ceiling]⟩ := by
  refine (step_spec ceiling hg id).mono ?_
  rintro _ (rfl | ⟨n, hn, op, load, parts, hkind, hhot, hcount, rfl⟩ | ⟨n, hn, atomic, load, hwarned, rfl⟩)
  · exact .inl rfl
  · have hpos : 0 < parts := one_le_parts hceiling.1 hceiling.2 (isHot_spec hhot).1 hcount
    exact .inr (.inl ⟨n, hn, op, load, parts, hkind, hhot, hpos, parts_le hcount, rfl⟩)
  · exact .inr (.inr ⟨n, hn, atomic, load, hwarned, rfl⟩)

/-- What one node brings about is a rewrite or nothing. -/
lemma step_yields {ceiling : Float} (hceiling : Valid ceiling) (hg : g.WellFormed) (id : NodeId) :
    Yields (step r ceiling g id) fun out =>
      (∃ changed, out.result = .ok changed) ∧ Rewrites r [.thermal] g out.graph ∧ Harmless out.reported := by
  refine (step_cases hceiling hg id).mono ?_
  rintro _ (rfl | ⟨n, hn, op, load, parts, hkind, -, hpos, -, rfl⟩ | ⟨n, hn, atomic, load, -, rfl⟩)
  · exact ⟨⟨_, rfl⟩, .refl, .nil⟩
  · exact ⟨⟨_, rfl⟩, (Rewrite.divide load hn hkind hpos).chain, .nil⟩
  · have hkey : warnedMark ≠ protectedMark := by decide
    refine ⟨⟨_, rfl⟩, (Rewrite.mark warnedMark _ hn hkey).chain, fun d hd => ?_⟩
    rw [List.mem_singleton.1 hd]
    rfl

lemma steps_yields {ceiling : Float} (hceiling : Valid ceiling) (hg : g.WellFormed) (ids : List NodeId) :
    Yields (steps r ceiling ids g) fun out =>
      (∃ changed, out.result = .ok changed) ∧ Rewrites r [.thermal] g out.graph ∧ Harmless out.reported := by
  induction ids generalizing g with
  | nil => exact ⟨⟨_, rfl⟩, .refl, .nil⟩
  | cons id rest ih =>
    rw [steps]
    refine (step_yields hceiling hg id).bind ?_
    rintro first ⟨⟨changed, hfirst⟩, hchain, hharmless⟩
    rw [hfirst]
    refine (ih (Rewrites.wellFormed hchain hg)).bind ?_
    rintro more ⟨⟨changed', hmore⟩, hchain', hharmless'⟩
    refine ⟨⟨changed || changed', ?_⟩, hchain.trans hchain', hharmless.append hharmless'⟩
    dsimp only
    rw [hmore]
    rfl

/-- **The thermal pass rewrites.** -/
theorem run_yields {ceiling : Option Float} (hceiling : ∀ x, ceiling = some x → Valid x) (hg : g.WellFormed) :
    Yields (run ⟨r, ceiling⟩ g) fun out => Ends r [.thermal] g out.graph out.result ∧ Harmless out.reported := by
  unfold run
  split
  · exact ⟨.refl, .nil⟩
  · next x hx =>
    refine (steps_yields (hceiling x hx) hg g.ids).mono ?_
    rintro out ⟨⟨changed, hresult⟩, hchain, hharmless⟩
    rw [hresult]
    exact ⟨hchain, hharmless⟩

end Waveflow.ThermalPass
