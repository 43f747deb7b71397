import Waveflow.Proofs.Decimal.Double
import Waveflow.Proofs.Operation.Registry
import Waveflow.Proofs.Pass.Rewrite

/-!
# What rewrites leave alone

`Graph.Within c g g'` says that `g'` differs from `g` only in ways that the capabilities `c` allow:
inputs, outputs and types stay, and nodes are removed, rewired or inserted only where this is declared.
Rewrites of a pass stay within the capabilities of the pass, and so do chains of them.

`Graph.Sound` collects what the guard and the edits ask of a graph.  Rewrites keep a graph sound, and a
pass that stays within its capabilities and leaves a sound graph passes the guard (`guard_accepts`).
-/

namespace Waveflow

variable {r : Registry} {p : PassId} {c : Capabilities} {g g' g'' : Graph} {n keep dup : Node}

/-! ### Within capabilities -/

/-- The second graph differs from the first only as the capabilities allow. -/
structure Graph.Within (c : Capabilities) (g g' : Graph) : Prop where
  inputs : g'.inputs = g.inputs
  outputs : g'.outputs = g.outputs
  nextId : g.nextId ≤ g'.nextId
  /-- A node that is still there has its type, and its kind and edges unless they may change. -/
  kept : ∀ n ∈ g.nodes, ∀ n' ∈ g'.nodes, n'.id = n.id → n'.ty = n.ty ∧
    (n'.kind = n.kind ∨ c.insert = true ∧ c.rewire = true) ∧ (n'.inputs = n.inputs ∨ c.rewire = true)
  removed : c.remove = true ∨ ∀ id ∈ g.ids, id ∈ g'.ids
  inserted : ∀ id ∈ g'.ids, id ∈ g.ids ∨ g.nextId ≤ id ∧ c.insert = true
  /-- A node with an output is not removed. -/
  needed : ∀ out ∈ g.outputs, out.node ∈ g.ids → out.node ∈ g'.ids

lemma Graph.Within.refl (c : Capabilities) (hg : g.Ordered) : g.Within c g where
  inputs := rfl
  outputs := rfl
  nextId := Nat.le_refl _
  kept := by
    intro n hn n' hn' hid
    obtain rfl := hg.eq_of_id_eq hn' hn hid
    exact ⟨rfl, .inl rfl, .inl rfl⟩
  removed := .inr fun _ hid => hid
  inserted := fun _ hid => .inl hid
  needed := fun _ _ hid => hid

/-- A number of the first graph that the third one has is also in the second: new numbers are larger. -/
lemma Graph.Within.mem_of_mem (h : g.Within c g') (h' : g'.Within c g'') (hg : g.WellFormed) {id : NodeId}
    (hid : id ∈ g.ids) (hid'' : id ∈ g''.ids) : id ∈ g'.ids := by
  rcases h'.inserted id hid'' with hin | ⟨hlow, -⟩
  · exact hin
  · exact absurd (Nat.lt_of_lt_of_le (hg.lt_nextId hid) h.nextId) (Nat.not_lt.2 hlow)

lemma Graph.Within.trans (h : g.Within c g') (h' : g'.Within c g'') (hg : g.WellFormed) : g.Within c g'' where
  inputs := h'.inputs.trans h.inputs
  outputs := h'.outputs.trans h.outputs
  nextId := Nat.le_trans h.nextId h'.nextId
  kept := by
    intro n hn n'' hn'' hid
    obtain ⟨n', hn', hid'⟩ := Graph.mem_ids.1
      (h.mem_of_mem h' hg (hid ▸ Graph.id_mem_ids hn) (Graph.id_mem_ids hn''))
    obtain ⟨hty, hkind, hinputs⟩ := h.kept n hn n' hn' (hid'.trans hid)
    obtain ⟨hty', hkind', hinputs'⟩ := h'.kept n' hn' n'' hn'' hid'.symm
    refine ⟨hty'.trans hty, ?_, ?_⟩
    · rcases hkind with hkind | hmay
      · rcases hkind' with hkind' | hmay
        · exact .inl (hkind'.trans hkind)
        · exact .inr hmay
      · exact .inr hmay
    · rcases hinputs with hinputs | hmay
      · rcases hinputs' with hinputs' | hmay
        · exact .inl (hinputs'.trans hinputs)
        · exact .inr hmay
      · exact .inr hmay
  removed := by
    rcases h.removed with hmay | hall
    · exact .inl hmay
    · rcases h'.removed with hmay | hall'
      · exact .inl hmay
      · exact .inr fun id hid => hall' id (hall id hid)
  inserted := by
    intro id hid
    rcases h'.inserted id hid with hid | ⟨hlow, hmay⟩
    · exact h.inserted id hid
    · exact .inr ⟨Nat.le_trans h.nextId hlow, hmay⟩
  needed := fun out hout hid => h'.needed out (h.outputs ▸ hout) (h.needed out hout hid)

/-- A graft that keeps the type of the node is within capabilities to insert and rewire; without new
nodes, edges and kinds, within all. -/
lemma Graph.Graftable.within {f : Node → Node} {fresh : List Node} (h : g.Graftable n f fresh) (hg : g.WellFormed)
    (hty : (f n).ty = n.ty)
    (hmay : c.insert = true ∧ c.rewire = true ∨ (f n).kind = n.kind ∧ (f n).inputs = n.inputs ∧ fresh = []) :
    g.Within c (g.graft n.id f fresh) where
  inputs := rfl
  outputs := rfl
  nextId := Nat.le_add_right ..
  kept := by
    intro x hx x' hx' hid
    rcases (h.mem_iff hg.ordered).1 hx' with ⟨hx', -⟩ | rfl | hx'
    · obtain rfl := hg.ordered.eq_of_id_eq hx' hx hid
      exact ⟨rfl, .inl rfl, .inl rfl⟩
    · obtain rfl := hg.ordered.eq_of_id_eq hx h.mem (hid.symm.trans h.id)
      rcases hmay with hmay | ⟨hkind, hinputs, -⟩
      · exact ⟨hty, .inr hmay, .inr hmay.2⟩
      · exact ⟨hty, .inl hkind, .inl hinputs⟩
    · have hlow := (h.nextId_le hx').1
      rw [hid] at hlow
      exact absurd (hg.below x hx) (Nat.not_lt.2 hlow)
  removed := by
    refine .inr fun id hid => ?_
    rw [h.ids_eq hg.ordered]
    exact List.mem_append_left _ hid
  inserted := by
    intro id hid
    rw [h.ids_eq hg.ordered, List.mem_append] at hid
    rcases hid with hid | hid
    · exact .inl hid
    · obtain ⟨m, hm, rfl⟩ := List.mem_map.1 hid
      rcases hmay with hmay | ⟨-, -, rfl⟩
      · exact .inr ⟨(h.nextId_le hm).1, hmay.1⟩
      · exact absurd hm List.not_mem_nil
  needed := by
    intro out _ hid
    rw [h.ids_eq hg.ordered]
    exact List.mem_append_left _ hid

/-- **A rewrite of a pass stays within its capabilities.** -/
theorem Rewrite.within (h : Rewrite r p g g') (hg : g.WellFormed) : g.Within p.pass.capabilities g' := by
  cases h with
  | mark key value hn hkey => exact (graftable_mark hg hn).within hg rfl (.inr ⟨rfl, rfl, rfl⟩)
  | @merge _ keep dup op hkeep hdup hne hkind hsame hinput houtput =>
    refine ⟨rfl, rfl, Nat.le_refl _, ?_, .inl rfl, ?_, ?_⟩
    · intro x hx x' hx' hid
      obtain ⟨y, hy, -, rfl⟩ := Graph.mem_merged.1 hx'
      obtain rfl := hg.ordered.eq_of_id_eq hy hx hid
      exact ⟨rfl, .inl rfl, .inr rfl⟩
    · exact fun id hid => .inl (Graph.mem_ids_merged.1 hid).1
    · exact fun out hout hid => Graph.mem_ids_merged.2 ⟨hid, houtput out hout⟩
  | divide load hn hkind hparts => exact (graftable_divide hg hn).within hg rfl (.inl ⟨rfl, rfl⟩)
  | wrap code distance hn hkind => exact (graftable_wrap hg hn).within hg rfl (.inl ⟨rfl, rfl⟩)
  | regroup _ =>
    have hsame := Graph.Within.refl PassId.performance.pass.capabilities hg.ordered
    exact ⟨hsame.inputs, hsame.outputs, hsame.nextId, hsame.kept, hsame.removed, hsame.inserted, hsame.needed⟩

/-! ### Where nodes come from -/

lemma Attributes.hasFlag_mark_of_ne {a : Attributes} {key k : String} {value : AttrValue} (h : k ≠ key) :
    (a.mark key value).hasFlag k = a.hasFlag k := by
  unfold hasFlag mark mark?
  rw [Dict.get?_insert, if_neg h]

lemma Attributes.hasFlag_mark_self {a : Attributes} {key : String} : (a.mark key (.flag true)).hasFlag key = true := by
  unfold hasFlag mark mark?
  rw [Dict.get?_insert, if_pos rfl]

/-- The node asks for the protection that another asks for, and has none unless the other has. -/
structure Node.Derives (m n : Node) : Prop where
  kind : m.kind = n.kind
  correction : m.attrs.correction = n.attrs.correction
  unprotected : m.attrs.hasFlag protectedMark = false → n.attrs.hasFlag protectedMark = false

lemma Node.Derives.refl (n : Node) : n.Derives n := ⟨rfl, rfl, fun h => h⟩

/-- Every node after a rewrite derives from one before, or it is a join or protected. -/
theorem Rewrite.origin (h : Rewrite r p g g') (hg : g.WellFormed) {m : Node} (hm : m ∈ g'.nodes) :
    (∃ n ∈ g.nodes, m.Derives n) ∨
      ∃ op, m.kind = .operation op ∧ (op = .join ∨ m.attrs.hasFlag protectedMark = true) := by
  cases h with
  | @mark _ _ n key value hn hkey =>
    rcases ((graftable_mark hg hn).mem_iff hg.ordered).1 hm with ⟨hm, -⟩ | rfl | hm
    · exact .inl ⟨m, hm, .refl m⟩
    · refine .inl ⟨n, hn, rfl, rfl, fun hflag => ?_⟩
      rwa [← Attributes.hasFlag_mark_of_ne hkey.symm]
    · exact absurd hm List.not_mem_nil
  | merge hkeep hdup hne hkind hsame hinput houtput =>
    obtain ⟨x, hx, -, rfl⟩ := Graph.mem_merged.1 hm
    exact .inl ⟨x, hx, rfl, rfl, fun hflag => hflag⟩
  | @divide _ n op load parts hn hkind hparts =>
    rcases ((graftable_divide hg hn).mem_iff hg.ordered).1 hm with ⟨hm, -⟩ | rfl | hm
    · exact .inl ⟨m, hm, .refl m⟩
    · exact .inr ⟨.join, rfl, .inl rfl⟩
    · obtain ⟨id, -, rfl⟩ := List.mem_map.1 hm
      refine .inl ⟨n, hn, rfl, rfl, fun hflag => ?_⟩
      have hne : protectedMark ≠ partMark := by decide
      rwa [← Attributes.hasFlag_mark_of_ne hne]
  | @wrap _ n op code distance hn hkind =>
    rcases ((graftable_wrap hg hn).mem_iff hg.ordered).1 hm with ⟨hm, -⟩ | rfl | hm
    · exact .inl ⟨m, hm, .refl m⟩
    · exact .inr ⟨_, rfl, .inr Attributes.hasFlag_mark_self⟩
    · simp only [List.mem_cons, List.not_mem_nil, or_false] at hm
      rcases hm with rfl | rfl
      · exact .inr ⟨_, rfl, .inr Attributes.hasFlag_mark_self⟩
      · exact .inr ⟨op, hkind, .inr Attributes.hasFlag_mark_self⟩
  | regroup _ => exact .inl ⟨m, hm, .refl m⟩

/-- Some operation that is known, not internal and not protected asks for protection in the code. -/
def Graph.Wants (g : Graph) (r : Registry) (code : String) : Prop :=
  ∃ n ∈ g.nodes, ∃ op spec, n.kind = .operation op ∧ r.specOf? op = some spec ∧ spec.internal = false ∧
    n.attrs.hasFlag protectedMark = false ∧ n.attrs.correction.code? = some code

/-- A rewrite brings no new wish for protection: joins are internal, and what protects is protected. -/
theorem Rewrite.wants (h : Rewrite r p g g') (hg : g.WellFormed) (hr : r.Extends) {code : String}
    (hwants : g'.Wants r code) : g.Wants r code := by
  obtain ⟨m, hm, op, spec, hkind, hspec, hinternal, hflag, hcode⟩ := hwants
  rcases h.origin hg hm with ⟨n, hn, hder⟩ | ⟨op', hkind', rfl | hprotected⟩
  · exact ⟨n, hn, op, spec, hder.kind ▸ hkind, hspec, hinternal, hder.unprotected hflag,
      hder.correction ▸ hcode⟩
  · obtain ⟨joins, hjoins, hjoin⟩ := hr.specOf?_join
    obtain rfl : op = .join := NodeKind.operation.inj (hkind.symm.trans hkind')
    obtain rfl := Option.some.inj (hspec.symm.trans hjoins)
    rw [hjoin] at hinternal
    cases hinternal
  · rw [hprotected] at hflag
    cases hflag

/-! ### Sound graphs -/

/-- Well-formed, without cycles, the outputs there, the inputs listed exactly, and all constants numbers. -/
structure Graph.Sound (g : Graph) : Prop extends g.WellFormed where
  acyclic : g.Acyclic
  outputs : ∀ out ∈ g.outputs, out.node ∈ g.ids
  inputs : ∀ id, id ∈ g.inputs ↔ ∃ n ∈ g.nodes, n.id = id ∧ n.kind = .input
  numbers : ∀ n ∈ g.nodes, ∀ x, n.kind = .constant x → x.value.isNaN = false

/-- A graft on an operation that adds operations keeps the input nodes. -/
lemma Graph.Graftable.input_iff {f : Node → Node} {fresh : List Node} (h : g.Graftable n f fresh) (hg : g.WellFormed)
    (hkind : (f n).kind = .input ↔ n.kind = .input) (hfresh : ∀ m ∈ fresh, m.kind ≠ .input) (id : NodeId) :
    (∃ m ∈ (g.graft n.id f fresh).nodes, m.id = id ∧ m.kind = .input) ↔
      ∃ m ∈ g.nodes, m.id = id ∧ m.kind = .input := by
  constructor
  · rintro ⟨m, hm, rfl, hinput⟩
    rcases (h.mem_iff hg.ordered).1 hm with ⟨hm, -⟩ | rfl | hm
    · exact ⟨m, hm, rfl, hinput⟩
    · exact ⟨n, h.mem, h.id.symm, hkind.1 hinput⟩
    · exact absurd hinput (hfresh m hm)
  · rintro ⟨m, hm, rfl, hinput⟩
    by_cases hid : m.id = n.id
    · obtain rfl := hg.ordered.eq_of_id_eq hm h.mem hid
      exact ⟨f m, (h.mem_iff hg.ordered).2 (.inr (.inl rfl)), h.id, hkind.2 hinput⟩
    · exact ⟨m, (h.mem_iff hg.ordered).2 (.inl ⟨hm, hid⟩), rfl, hinput⟩

/-- A rewrite keeps the input nodes. -/
lemma Rewrite.input_iff (h : Rewrite r p g g') (hg : g.WellFormed) (id : NodeId) :
    (∃ m ∈ g'.nodes, m.id = id ∧ m.kind = .input) ↔ ∃ m ∈ g.nodes, m.id = id ∧ m.kind = .input := by
  cases h with
  | mark key value hn hkey =>
    exact (graftable_mark hg hn).input_iff hg Iff.rfl (fun _ hm => absurd hm List.not_mem_nil) id
  | @merge _ keep dup op hkeep hdup hne hkind hsame _ houtput =>
    constructor
    · rintro ⟨m, hm, rfl, hinput⟩
      obtain ⟨x, hx, -, rfl⟩ := Graph.mem_merged.1 hm
      exact ⟨x, hx, rfl, hinput⟩
    · rintro ⟨m, hm, rfl, hinput⟩
      have hne : m.id ≠ dup.id := by
        intro hid
        obtain rfl := hg.ordered.eq_of_id_eq hm hdup hid
        rw [hinput] at hkind
        cases hkind
      exact ⟨_, Graph.mem_merged.2 ⟨m, hm, hne, rfl⟩, rfl, hinput⟩
  | @divide _ n op load parts hn hkind hparts =>
    refine (graftable_divide hg hn).input_iff hg ?_ ?_ id
    · rw [hkind]
      exact ⟨fun h => (by cases h), fun h => (by cases h)⟩
    · intro m hm hinput
      obtain ⟨id, -, rfl⟩ := List.mem_map.1 hm
      exact absurd (hkind.symm.trans hinput) (by simp)
  | @wrap _ n op code distance hn hkind =>
    refine (graftable_wrap hg hn).input_iff hg ?_ ?_ id
    · rw [hkind]
      exact ⟨fun h => (by cases h), fun h => (by cases h)⟩
    · intro m hm hinput
      simp only [List.mem_cons, List.not_mem_nil, or_false] at hm
      rcases hm with rfl | rfl
      · cases hinput
      · exact absurd (hkind.symm.trans hinput) (by simp)
  | regroup _ => exact Iff.rfl

/-- **A rewrite keeps a graph sound.** -/
theorem Rewrite.sound (h : Rewrite r p g g') (hg : g.Sound) : g'.Sound where
  toWellFormed := h.wellFormed hg.toWellFormed
  acyclic := h.acyclic hg.toWellFormed hg.acyclic
  outputs := by
    have hwithin := h.within hg.toWellFormed
    intro out hout
    rw [hwithin.outputs] at hout
    exact hwithin.needed out hout (hg.outputs out hout)
  inputs := by
    intro id
    rw [(h.within hg.toWellFormed).inputs, h.input_iff hg.toWellFormed]
    exact hg.inputs id
  numbers := by
    intro m hm x hx
    rcases h.origin hg.toWellFormed hm with ⟨n, hn, hder⟩ | ⟨op, hkind, -⟩
    · exact hg.numbers n hn x (hder.kind ▸ hx)
    · rw [hx] at hkind
      cases hkind

/-! ### The guard -/

lemma NodeKind.beq_self {k : NodeKind} (h : ∀ x, k = .constant x → x.value.isNaN = false) : (k == k) = true := by
  cases k with
  | input => rfl
  | constant x => exact Decimal.beq_self (h x rfl)
  | operation op => exact beq_self_eq_true op

lemma structureBreach?_eq_none (hg : g.Sound) : Guard.structureBreach? g = .ok none := by
  obtain ⟨order, horder, -⟩ := Graph.order_of_acyclic hg.ordered hg.acyclic
  have houtputs : g.outputs.find? (fun out => !g.contains out.node) = none := by
    rw [List.find?_eq_none]
    intro out hout
    rw [(Graph.contains_iff hg.ordered).2 (hg.outputs out hout)]
    decide
  unfold Guard.structureBreach?
  rw [(Graph.dangling_eq_nil_iff hg.ordered).2 hg.closed]
  dsimp only [List.head?_nil]
  rw [houtputs]
  dsimp only
  rw [horder]
  rfl

lemma interfaceBreach?_eq_none (h : g.Within c g') : Guard.interfaceBreach? g g' = none := by
  unfold Guard.interfaceBreach?
  rw [h.inputs, h.outputs, if_neg fun hne => hne rfl, if_neg fun hne => hne rfl, Option.map_eq_none_iff,
    List.find?_eq_none]
  intro pair hpair
  have heq : pair.1 = pair.2 := by
    rw [List.zip, List.zipWith_self] at hpair
    obtain ⟨out, -, rfl⟩ := List.mem_map.1 hpair
    rfl
  simp [heq]

lemma nodeBreach?_eq_none (h : g.Within c g') (hs : g'.Sound) (hattributes : c.attributes = true)
    (hn : n ∈ g.nodes) : Guard.nodeBreach? c g' n = none := by
  unfold Guard.nodeBreach?
  split
  · next hnone =>
    rcases h.removed with hmay | hall
    · rw [hmay]
      rfl
    · exact absurd (hall _ (Graph.id_mem_ids hn)) ((Graph.node?_eq_none_iff hs.ordered).1 hnone)
  · next n' hsome =>
    obtain ⟨hn', hid⟩ := (Graph.node?_eq_some_iff hs.ordered).1 hsome
    obtain ⟨hty, hkind, hinputs⟩ := h.kept n hn n' hn' hid
    have hkinds : (!(n'.kind == n.kind) && !(c.insert && c.rewire)) = false := by
      rcases hkind with hkind | ⟨hinsert, hrewire⟩
      · rw [← hkind, NodeKind.beq_self (hs.numbers n' hn')]
        rfl
      · rw [hinsert, hrewire]
        exact Bool.and_false _
    have hedges : ¬ (n'.inputs ≠ n.inputs ∧ c.rewire = false) := by
      rintro ⟨hne, hfixed⟩
      rcases hinputs with hsame | hmay
      · exact hne hsame
      · rw [hmay] at hfixed
        cases hfixed
    rw [if_neg fun hne => hne hty, hkinds, if_neg Bool.false_ne_true, if_neg hedges, hattributes, Bool.not_true,
      Bool.and_false, if_neg Bool.false_ne_true]

/-- **The guard accepts what stays within the capabilities and is sound.** -/
theorem guard_accepts (h : g.Within c g') (hg : g.Ordered) (hs : g'.Sound) (hattributes : c.attributes = true)
    (name : String) : Guard.verify name c g g' = .ok (.ok ()) := by
  have hnodes : g.byNumber.findSome? (Guard.nodeBreach? c g') = none := by
    rw [Graph.byNumber_eq hg, List.findSome?_eq_none_iff]
    exact fun n hn => nodeBreach?_eq_none h hs hattributes hn
  have hinserted : Guard.insertedBreach? c g g' = none := by
    unfold Guard.insertedBreach?
    split
    · rfl
    · next hnot =>
      rw [Option.map_eq_none_iff, List.find?_eq_none]
      intro n hn
      rcases h.inserted n.id (Graph.id_mem_ids hn) with hold | ⟨-, hmay⟩
      · simpa using hold
      · exact absurd hmay hnot
  have hhints : Guard.hintsBreach? c g g' = none := by
    unfold Guard.hintsBreach?
    rw [hattributes, if_neg]
    rintro ⟨-, hfalse⟩
    cases hfalse
  have hchange : Guard.changeBreach? c g g' = none := by
    unfold Guard.changeBreach?
    rw [interfaceBreach?_eq_none h, hnodes, hinserted, hhints]
    rfl
  unfold Guard.verify Guard.breach?
  rw [structureBreach?_eq_none hs, Checked.ok_bind, hchange]
  rfl

/-! ### Chains of rewrites -/

namespace Rewrites

variable {ids : List PassId}

lemma mono {more : List PassId} (h : Rewrites r ids g g') (hsub : ids ⊆ more) : Rewrites r more g g' := by
  induction h with
  | refl => exact .refl
  | tail _ hstep ih =>
    obtain ⟨p, hp, hstep⟩ := hstep
    exact ih.tail ⟨p, hsub hp, hstep⟩

lemma wellFormed (h : Rewrites r ids g g') (hg : g.WellFormed) : g'.WellFormed := by
  induction h with
  | refl => exact hg
  | tail _ hstep ih =>
    obtain ⟨p, -, hstep⟩ := hstep
    exact hstep.wellFormed ih

lemma acyclic (h : Rewrites r ids g g') (hg : g.WellFormed) (ha : g.Acyclic) : g'.Acyclic := by
  induction h with
  | refl => exact ha
  | tail hchain hstep ih =>
    obtain ⟨p, -, hstep⟩ := hstep
    exact hstep.acyclic (wellFormed hchain hg) ih

lemma made (h : Rewrites r ids g g') (hmade : ∀ grp ∈ g.hints.groups, grp.Made) :
    ∀ grp ∈ g'.hints.groups, grp.Made := by
  induction h with
  | refl => exact hmade
  | tail _ hstep ih =>
    obtain ⟨p, -, hstep⟩ := hstep
    exact hstep.made ih

lemma sound (h : Rewrites r ids g g') (hg : g.Sound) : g'.Sound := by
  induction h with
  | refl => exact hg
  | tail _ hstep ih =>
    obtain ⟨p, -, hstep⟩ := hstep
    exact hstep.sound ih

lemma within (h : Rewrites r [p] g g') (hg : g.WellFormed) : g.Within p.pass.capabilities g' := by
  induction h with
  | refl => exact .refl _ hg.ordered
  | tail hchain hstep ih =>
    obtain ⟨q, hq, hstep⟩ := hstep
    obtain rfl := List.mem_singleton.1 hq
    exact ih.trans (hstep.within (wellFormed hchain hg)) hg

lemma wants (h : Rewrites r ids g g') (hg : g.WellFormed) (hr : r.Extends) {code : String}
    (hwants : g'.Wants r code) : g.Wants r code := by
  induction h with
  | refl => exact hwants
  | tail hchain hstep ih =>
    obtain ⟨p, -, hstep⟩ := hstep
    exact ih (hstep.wants (wellFormed hchain hg) hr hwants)

end Rewrites

/-! ### How passes end -/

variable {ids : List PassId} {α β : Type} {graph : Graph} {result : Except CompileError α}

/-- The error of a code that some node wants and that cannot be encoded. -/
def Graph.Unsupported (g : Graph) (r : Registry) (e : CompileError) : Prop :=
  ∃ id code, e = .unsupportedCode id code ∧ g.Wants r code ∧ code ∉ ProtectionPass.supportedCodes

/-- Passes end with a chain of rewrites.  On a sound graph and with the usual operations, the only pass
that may fail is the error-correction pass, and only because of a code that is not supported. -/
def Ends (r : Registry) (ids : List PassId) (g graph : Graph) : Except CompileError α → Prop
  | .ok _ => Rewrites r ids g graph
  | .error e => g.Sound → r.Extends → .errorCorrection ∈ ids ∧ g.Unsupported r e

lemma Ends.map (h : Ends r ids g graph result) (f : α → β) : Ends r ids g graph (result.map f) := by
  cases result with
  | ok a => exact h
  | error e => exact h

lemma Ends.mono {more : List PassId} (h : Ends r ids g graph result) (hsub : ids ⊆ more) :
    Ends r more g graph result := by
  cases result with
  | ok a => exact Rewrites.mono h hsub
  | error e =>
    intro hs hr
    obtain ⟨hp, hunsupported⟩ := h hs hr
    exact ⟨hsub hp, hunsupported⟩

/-- What comes after a chain of rewrites ends as if it came from its start. -/
lemma Ends.after (h : Ends r ids g' graph result) (hg : g.WellFormed) (hchain : Rewrites r ids g g') :
    Ends r ids g graph result := by
  cases result with
  | ok a => exact hchain.trans h
  | error e =>
    intro hs hr
    obtain ⟨hp, id, code, he, hwants, hcode⟩ := h (Rewrites.sound hchain hs) hr
    exact ⟨hp, id, code, he, Rewrites.wants hchain hg hr hwants, hcode⟩

/-- Nothing that is reported stops the compilation. -/
def Harmless (ds : List Diagnostic) : Prop := ∀ d ∈ ds, d.isError = false

lemma Harmless.nil : Harmless [] := fun _ hd => absurd hd List.not_mem_nil

lemma Harmless.append {ds more : List Diagnostic} (h : Harmless ds) (h' : Harmless more) :
    Harmless (ds ++ more) := by
  intro d hd
  rcases List.mem_append.1 hd with hd | hd
  · exact h d hd
  · exact h' d hd

end Waveflow
