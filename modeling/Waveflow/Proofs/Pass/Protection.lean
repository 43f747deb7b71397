import Waveflow.Proofs.Graph.Edit
import Waveflow.Proofs.Pass.Sound

/-!
# The error-correction pass rewrites

The nodes to be protected are listed before the first of them is changed.  A rewrite changes no other
node of the list, so each is still as it was when its turn comes; the pass fails only at a node whose
code is not supported.
-/

namespace Waveflow.ProtectionPass

open Checked (Yields)

variable {r : Registry} {g : Graph} {n : Node} {op : OpKind} {ids : List NodeId}

/-- The graph with a node put between an encoding and a decoding. -/
abbrev wrapped (r : Registry) (g : Graph) (n : Node) (code : String) (distance : Nat) : Graph :=
  g.graft n.id (decoding r g code distance) [encoding r g n code distance, core g n]

/-! ### One node -/

/-- The edits that protect an operation are never refused. -/
lemma wrapIn_yields (hg : g.WellFormed) (hn : n ∈ g.nodes) (hkind : n.kind = .operation op) (code : String)
    (distance : Nat) : Yields (wrapIn r g n code distance) (· = ⟨wrapped r g n code distance, .ok ()⟩) := by
  have hinput : n.isInput = false := Node.isInput_of_operation hkind
  have hgraft : g.Graftable n (decoding r g code distance) [encoding r g n code distance, core g n] :=
    graftable_wrap hg hn
  unfold wrapIn
  refine (Graph.addOperation_yields hg.ordered _ _ fun i hi => hg.closed n hn i hi).bind ?_
  rintro _ rfl
  unfold Attempt.andThen Attempt.ofEdit
  dsimp only
  rw [Graph.modify_appended_one hg.numbered rfl]
  -- the encoding stands, the operation is put on it
  have hencoded : (g.appended [encoding r g n code distance]).Numbered := hg.numbered.appended_one rfl
  have hpresent : ∀ i ∈ [g.nextId], i ∈ (g.appended [encoding r g n code distance]).ids := by
    intro i hi
    rw [List.mem_singleton.1 hi, Graph.ids_appended]
    exact List.mem_append_right _ (List.mem_cons_self ..)
  have hcopied : ({ n with name := none, attrs := sealed n.attrs } : Node).isInput = false := hinput
  refine (Graph.insertLike_yields hencoded.ordered hcopied hpresent).bind ?_
  rintro _ rfl
  dsimp only
  have hboth : (g.appended [encoding r g n code distance]).appended [core g n] =
      g.appended [encoding r g n code distance, core g n] := Graph.appended_appended _
  have hnumbered : (g.appended [encoding r g n code distance, core g n]).Numbered :=
    hboth ▸ hencoded.appended_one rfl
  have hin : ∀ i ∈ [g.nextId + 1], i ∈ (g.appended [encoding r g n code distance, core g n]).ids := by
    intro i hi
    rw [Graph.ids_appended, List.mem_append]
    exact hgraft.changed i hi
  let decode (m : Node) : Node :=
    { m with
      kind := .operation (.decode code distance)
      params := Dict.empty
      attrs := sealed { m.attrs with thermal := thermalOf r (.decode code distance) } }
  obtain ⟨g', hset, hmodify⟩ := Graph.setInputs_modify (f := decode) hnumbered.ordered hn hinput hin
    (hgraft.ne_of_mem hg)
  rw [← hboth] at hset
  have hset' : ((g.appended [encoding r g n code distance]).appended
      [{ n with
          id := (g.appended [encoding r g n code distance]).nextId, name := none, inputs := [g.nextId],
          attrs := sealed n.attrs }]).setInputs n.id [(g.appended [encoding r g n code distance]).nextId] =
      .ok g' := hset
  rw [hset']
  dsimp only
  rw [hmodify]
  exact rfl

lemma isTarget_spec (h : isTarget r n = true) :
    n.attrs.hasFlag protectedMark = false ∧ n.attrs.correction.isNone = false ∧
    ∃ op spec, n.kind = .operation op ∧ r.specOf? op = some spec ∧ spec.internal = false := by
  unfold isTarget at h
  rw [Bool.and_eq_true, Bool.and_eq_true, Bool.not_eq_true', Bool.not_eq_true'] at h
  obtain ⟨⟨hwanted, hflag⟩, hknown⟩ := h
  refine ⟨hflag, hwanted, ?_⟩
  split at hknown
  · next spec hspec =>
    obtain ⟨op, hop, hspec⟩ := Option.bind_eq_some_iff.1 hspec
    exact ⟨op, spec, Node.op?_eq_some_iff.1 hop, hspec, by simpa using hknown⟩
  · cases hknown

/-- A requirement has a code and a distance. -/
lemma distance_yields {c : Correction} (h : c.isNone = false) :
    Yields c.distance fun distance => ∃ code d, c.code? = some code ∧ distance = some d := by
  cases c with
  | none => cases h
  | basic code => exact ⟨code, 3, rfl, rfl⟩
  | faultTolerant level code =>
    refine (Checked.yields_mulWord 2 level).bind fun twice _ => Yields.map ?_
    exact (Checked.yields_addWord twice 1).mono fun d _ => ⟨code, d, rfl, rfl⟩

/-- A node to be protected is wrapped, or its code is not supported and nothing changes. -/
lemma wrap_yields (hg : g.WellFormed) (hn : n ∈ g.nodes) (htarget : isTarget r n = true) :
    Yields (wrap r g n.id) fun a => (∃ code distance, a = ⟨wrapped r g n code distance, .ok ()⟩) ∨
      ∃ code, a = ⟨g, .error (.unsupportedCode n.id code)⟩ ∧ n.attrs.correction.code? = some code ∧
        code ∉ supportedCodes := by
  obtain ⟨-, hwanted, op, -, hkind, -⟩ := isTarget_spec htarget
  unfold wrap
  rw [hg.ordered.node?_of_mem hn]
  refine (distance_yields hwanted).bind ?_
  rintro _ ⟨code, distance, hcode, rfl⟩
  rw [hcode]
  dsimp only
  split
  · refine (wrapIn_yields hg hn hkind code distance).mono ?_
    rintro _ rfl
    exact .inl ⟨code, distance, rfl⟩
  · next hunsupported => exact .inr ⟨code, rfl, rfl, by simpa using hunsupported⟩

/-! ### All nodes -/

/-- The numbers of some nodes that are to be protected. -/
structure Targets (r : Registry) (g : Graph) (ids : List NodeId) : Prop where
  present : ∀ id ∈ ids, id ∈ g.ids
  nodup : ids.Nodup
  wanted : ∀ n ∈ g.nodes, n.id ∈ ids → isTarget r n = true

lemma Targets.tail {id : NodeId} (h : Targets r g (id :: ids)) : Targets r g ids where
  present := fun i hi => h.present i (List.mem_cons_of_mem _ hi)
  nodup := (List.nodup_cons.1 h.nodup).2
  wanted := fun n hn hid => h.wanted n hn (List.mem_cons_of_mem _ hid)

/-- Wrapping a node leaves the other nodes to be protected as they are. -/
lemma Targets.wrapped (h : Targets r g ids) (hg : g.WellFormed) (hn : n ∈ g.nodes) (hnot : n.id ∉ ids)
    (code : String) (distance : Nat) : Targets r (wrapped r g n code distance) ids where
  present := by
    intro id hid
    rw [(graftable_wrap hg hn).ids_eq hg.ordered]
    exact List.mem_append_left _ (h.present id hid)
  nodup := h.nodup
  wanted := by
    have hgraft : g.Graftable n (decoding r g code distance) [encoding r g n code distance, core g n] :=
      graftable_wrap hg hn
    intro m hm hid
    rcases (hgraft.mem_iff hg.ordered).1 hm with ⟨hm, -⟩ | rfl | hm
    · exact h.wanted m hm hid
    · exact absurd hid hnot
    · exact absurd (hg.lt_nextId (h.present _ hid)) (Nat.not_lt.2 (hgraft.nextId_le hm).1)

theorem wrapAll_yields (hg : g.WellFormed) (htargets : Targets r g ids) :
    Yields (wrapAll r ids g) fun a => Ends r [.errorCorrection] g a.graph a.result := by
  induction ids generalizing g with
  | nil => exact .refl
  | cons id rest ih =>
    rw [wrapAll]
    obtain ⟨n, hn, rfl⟩ := Graph.mem_ids.1 (htargets.present id (List.mem_cons_self ..))
    have htarget := htargets.wanted n hn (List.mem_cons_self ..)
    obtain ⟨hflag, -, op, spec, hkind, hspec, hinternal⟩ := isTarget_spec htarget
    refine (wrap_yields hg hn htarget).bind ?_
    rintro _ (⟨code, distance, rfl⟩ | ⟨code, rfl, hcode, hunsupported⟩)
    · have hstep : Rewrite r .errorCorrection g (wrapped r g n code distance) := .wrap code distance hn hkind
      have hrest := htargets.tail.wrapped hg hn (List.nodup_cons.1 htargets.nodup).1 code distance
      exact (ih (hstep.wellFormed hg) hrest).mono fun a ha => ha.after hg hstep.chain
    · have hwants : g.Wants r code := ⟨n, hn, op, spec, hkind, hspec, hinternal, hflag, hcode⟩
      exact fun _ _ => ⟨List.mem_cons_self .., n.id, code, rfl, hwants, hunsupported⟩

lemma targets_all (hg : g.Ordered) : Targets r g ((g.nodes.filter (isTarget r)).map (·.id)) where
  present := by
    intro id hid
    obtain ⟨n, hn, rfl⟩ := List.mem_map.1 hid
    exact Graph.id_mem_ids (List.mem_filter.1 hn).1
  nodup := hg.ids_nodup.sublist (List.filter_sublist.map _)
  wanted := by
    intro n hn hid
    obtain ⟨m, hm, hmn⟩ := List.mem_map.1 hid
    obtain ⟨hm, htarget⟩ := List.mem_filter.1 hm
    obtain rfl := hg.eq_of_id_eq hm hn hmn
    exact htarget

/-- **The error-correction pass rewrites.** -/
theorem run_yields (hg : g.WellFormed) (ceiling : Option Float) :
    Yields (run ⟨r, ceiling⟩ g) fun out =>
      Ends r [.errorCorrection] g out.graph out.result ∧ Harmless out.reported := by
  unfold run
  refine (wrapAll_yields (r := r) hg (targets_all hg.ordered)).bind fun a ha => ?_
  exact ⟨ha.map _, .nil⟩

end Waveflow.ProtectionPass
