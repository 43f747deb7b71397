import Waveflow.Proofs.Pass.Allocation
import Waveflow.Proofs.Pass.Turns

/-!
# What the error-correction pass leaves

Every operation of a program that asks for protection and has none (`Node.Exposed`) is put between an encoding of its
inputs and a decoding of its result, in the code and at the distance of its requirement (`Encloses`).  The nodes take
their turns in the order of their numbers; the first whose code cannot be encoded ends the run with an error that names
it.  All nodes of an enclosure are marked, so a second run finds nothing to do (`ProtectionPass.run_protects`).
-/

namespace Waveflow

open Checked (Yields)

variable {r : Registry} {g g' : Graph} {n : Node} {ns : List Node}

/-- The node is a known operation of a program that asks for protection, and it is not marked. -/
def Node.Exposed (r : Registry) (n : Node) : Prop :=
  n.attrs.correction ≠ .none ∧ n.attrs.hasFlag protectedMark = false ∧
    ∃ op spec, n.kind = .operation op ∧ r.specOf? op = some spec ∧ spec.internal = false

/-- The code of the requirement is one that can be encoded. -/
def Node.Encodable (n : Node) : Prop :=
  ∃ code, n.attrs.correction.code? = some code ∧ code ∈ ProtectionPass.supportedCodes

/-- `dec` decodes the result of `core`, which is `n` on its inputs encoded by `enc`, all of them marked. -/
structure Node.Encloses (n enc core dec : Node) (code : String) (distance : Nat) : Prop where
  required : n.attrs.correction.code? = some code ∧ n.attrs.correction.distance = .ok (some distance)
  decodes : dec.id = n.id ∧ dec.kind = .operation (.decode code distance) ∧ dec.inputs = [core.id]
  computes : core.kind = n.kind ∧ core.params = n.params ∧ core.ty = n.ty ∧ core.inputs = [enc.id]
  encodes : enc.kind = .operation (.encode code distance) ∧ enc.inputs = n.inputs
  marked : ∀ m ∈ [dec, enc, core], m.attrs.hasFlag protectedMark = true

namespace ProtectionPass

lemma isTarget_iff : isTarget r n = true ↔ n.Exposed r := by
  constructor
  · intro h
    obtain ⟨hflag, hwanted, hknown⟩ := isTarget_spec h
    refine ⟨fun hnone => ?_, hflag, hknown⟩
    rw [hnone] at hwanted
    cases hwanted
  · rintro ⟨hwanted, hflag, op, spec, hkind, hspec, hinternal⟩
    have hnone : n.attrs.correction.isNone = false := by
      cases hc : n.attrs.correction with
      | none => exact absurd hc hwanted
      | basic | faultTolerant => rfl
    have hop : n.op?.bind r.specOf? = some spec := by
      rw [Node.op?_eq_some_iff.2 hkind]
      exact hspec
    simp [isTarget, hnone, hflag, hop, hinternal]

instance decidableExposed (r : Registry) (n : Node) : Decidable (n.Exposed r) := decidable_of_iff _ isTarget_iff

/-! ### One turn -/

/-- The turn of a node that is put between an encoding and a decoding. -/
def wrapTurn (r : Registry) (g : Graph) (n : Node) (code : String) (distance : Nat) : Turn where
  before := n
  after := decoding r g code distance n
  first := g.nextId
  fresh := [encoding r g n code distance, core g n]
  reported := []
  id := rfl
  numbers := rfl
  edges := by
    intro m hm i hi
    simp only [List.mem_cons, List.not_mem_nil, or_false] at hm
    rcases hm with rfl | rfl | rfl
    · exact .inr (List.mem_cons_of_mem _ hi)
    · exact .inl hi
    · rw [List.mem_singleton.1 hi]
      exact .inr (List.mem_cons_self ..)
  about := Turn.about_nil n

/-- The turn puts its node between an encoding and a decoding. -/
def Protects (t : Turn) : Prop :=
  ∃ enc core code distance, t.fresh = [enc, core] ∧ t.before.Encloses enc core t.after code distance

lemma wrapTurn_protects {code : String} {distance : Nat} (hcode : n.attrs.correction.code? = some code)
    (hdistance : n.attrs.correction.distance = .ok (some distance)) : Protects (wrapTurn r g n code distance) := by
  refine ⟨_, _, code, distance, rfl, ⟨hcode, hdistance⟩, ⟨rfl, rfl, rfl⟩,
    ⟨rfl, rfl, rfl, rfl⟩, ⟨rfl, rfl⟩, ?_⟩
  intro m hm
  simp only [List.mem_cons, List.not_mem_nil, or_false] at hm
  rcases hm with rfl | rfl | rfl <;> exact Attributes.hasFlag_mark_self

/-- A node that asks for protection has its turn, or its code cannot be encoded and nothing changes. -/
lemma wrap_turn (hg : g.WellFormed) (hn : n ∈ g.nodes) (htarget : isTarget r n = true) :
    Yields (wrap r g n.id) fun a =>
      (n.Encodable ∧ ∃ t : Turn, t.before = n ∧ t.Fits g ∧ Protects t ∧ a = ⟨t.graft g, .ok ()⟩) ∨
      ∃ code, n.attrs.correction.code? = some code ∧ code ∉ supportedCodes ∧
        a = ⟨g, .error (.unsupportedCode n.id code)⟩ := by
  obtain ⟨-, hwanted, op, -, hkind, -⟩ := isTarget_spec htarget
  have hyields := distance_yields hwanted
  unfold wrap
  rw [hg.ordered.node?_of_mem hn]
  dsimp only
  cases hdistance : n.attrs.correction.distance with
  | error f =>
    rw [hdistance] at hyields
    exact hyields
  | ok d =>
    obtain ⟨code, distance, hcode, rfl⟩ := hyields.of_ok hdistance
    rw [Checked.ok_bind, hcode]
    dsimp only
    split
    · next hsupported =>
      refine (wrapIn_yields hg hn hkind code distance).mono ?_
      rintro _ rfl
      have hgraft : wrapped r g n code distance = (wrapTurn r g n code distance).graft g :=
        Graph.graft_eq_const hg.ordered hn _ _
      rw [hgraft]
      exact .inl ⟨⟨code, hcode, by simpa using hsupported⟩, wrapTurn r g n code distance, rfl, ⟨hn, rfl⟩,
        wrapTurn_protects hcode hdistance, rfl⟩
    · next hunsupported => exact .inr ⟨code, rfl, by simpa using hunsupported, rfl⟩

lemma nextId_wrap_le {id : NodeId} {a : Attempt Unit} (h : wrap r g id = .ok a) :
    a.graph.nextId ≤ g.nextId + 2 := by
  unfold wrap at h
  split at h
  · cases h
    exact Nat.le_add_right ..
  · obtain ⟨distance, -, h⟩ := Checked.bind_eq_ok.1 h
    split at h
    · split at h
      · exact (wrapIn_allots ..).next_le h
      · cases h
        exact Nat.le_add_right ..
    · cases h
      exact Nat.le_add_right ..

/-- With two for each node, the numbers suffice. -/
lemma Allocates.le_of_pairs {ids : List NodeId} {count : Nat} (h : Allocates r ids g count) :
    count ≤ g.nextId + 2 * ids.length := by
  induction h with
  | wrap =>
    rw [List.length_cons]
    omega
  | later hwrap _ ih =>
    have hnext := nextId_wrap_le hwrap
    rw [List.length_cons]
    dsimp only at hnext
    omega

/-! ### All turns -/

/-- The first node whose code cannot be encoded is named, with its code. -/
def Refuses (ns : List Node) (e : CompileError) : Prop :=
  ∃ before n after code, ns = before ++ n :: after ∧ (∀ m ∈ before, m.Encodable) ∧
    n.attrs.correction.code? = some code ∧ code ∉ supportedCodes ∧ e = .unsupportedCode n.id code

lemma Refuses.exists_not_encodable {e : CompileError} (h : Refuses ns e) : ∃ n ∈ ns, ¬ n.Encodable := by
  obtain ⟨before, n, after, code, rfl, -, hcode, hunsupported, -⟩ := h
  refine ⟨n, by simp, fun ⟨code', hcode', hsupported⟩ => hunsupported ?_⟩
  rwa [Option.some.inj (hcode.symm.trans hcode')]

/-- All nodes have had their turns, or one of them could not. -/
def Concludes (g : Graph) (ns : List Node) (a : Attempt Unit) : Prop :=
  (a.result = .ok () ∧ (∀ n ∈ ns, n.Encodable) ∧
    ∃ ts, Turns g ts a.graph ∧ ts.map (·.before) = ns ∧ ∀ t ∈ ts, Protects t) ∨
  ∃ e, a.result = .error e ∧ Refuses ns e

/-- The nodes are in the graph, ask for protection, and are listed once. -/
structure Queued (r : Registry) (g : Graph) (ns : List Node) : Prop where
  present : ∀ n ∈ ns, n ∈ g.nodes
  wanted : ∀ n ∈ ns, isTarget r n = true
  nodup : (ns.map (·.id)).Nodup

lemma Queued.tail {t : Turn} (h : Queued r g (t.before :: ns)) (hg : g.WellFormed) (hfits : t.Fits g) :
    Queued r (t.graft g) ns where
  present := hfits.present hg h.present h.nodup
  wanted := fun m hm => h.wanted m (List.mem_cons_of_mem _ hm)
  nodup := (List.nodup_cons.1 h.nodup).2

theorem wrapAll_concludes (hg : g.WellFormed) (h : Queued r g ns) :
    Yields (wrapAll r (ns.map (·.id)) g) (Concludes g ns) := by
  induction ns generalizing g with
  | nil => exact .inl ⟨rfl, fun _ hn => absurd hn List.not_mem_nil, [], .nil, rfl,
      fun _ ht => absurd ht List.not_mem_nil⟩
  | cons n ns ih =>
    rw [List.map_cons, wrapAll]
    refine (wrap_turn hg (h.present n (List.mem_cons_self ..)) (h.wanted n (List.mem_cons_self ..))).bind ?_
    rintro _ (⟨hencodable, t, rfl, hfits, hprotects, rfl⟩ | ⟨code, hcode, hunsupported, rfl⟩)
    · refine (ih (hfits.wellFormed hg) (h.tail hg hfits)).mono ?_
      rintro a (⟨hresult, hall, ts, hturns, hbefore, hts⟩ | ⟨e, hresult, hrefuses⟩)
      · refine .inl ⟨hresult, ?_, t :: ts, .cons hfits hturns, by rw [List.map_cons, hbefore], ?_⟩
        · exact List.forall_mem_cons.2 ⟨hencodable, hall⟩
        · exact List.forall_mem_cons.2 ⟨hprotects, hts⟩
      · obtain ⟨before, n, after, code, rfl, hbefore, hrest⟩ := hrefuses
        exact .inr ⟨e, hresult, t.before :: before, n, after, code, rfl,
          List.forall_mem_cons.2 ⟨hencodable, hbefore⟩, hrest⟩
    · exact .inr ⟨_, rfl, [], n, ns, code, rfl, fun _ hm => absurd hm List.not_mem_nil, hcode, hunsupported, rfl⟩

/-! ### The pass -/

/-- The nodes that the pass is about, in the order of their numbers. -/
def exposed (r : Registry) (g : Graph) : List Node := g.nodes.filter fun n => n.Exposed r

lemma exposed_eq (r : Registry) (g : Graph) : exposed r g = g.nodes.filter (isTarget r) := by
  refine List.filter_congr fun n _ => ?_
  rw [Bool.eq_iff_iff, decide_eq_true_iff, isTarget_iff]

lemma mem_exposed : n ∈ exposed r g ↔ n ∈ g.nodes ∧ n.Exposed r := by simp [exposed]

lemma queued_exposed (hg : g.Ordered) : Queued r g (exposed r g) where
  present := fun _ hn => (mem_exposed.1 hn).1
  wanted := fun _ hn => isTarget_iff.2 (mem_exposed.1 hn).2
  nodup := hg.ids_nodup.sublist (List.filter_sublist.map _)

/-- **Every exposed node is enclosed, and nothing else changes.** -/
structure Protected (r : Registry) (g g' : Graph) : Prop where
  wellFormed : g'.WellFormed
  /-- The nodes of an enclosure are in the graph, the inner two under new numbers, and only the enclosure uses them. -/
  enclosed : ∀ n ∈ g.nodes, n.Exposed r → ∃ enc core dec code distance,
      n.Encloses enc core dec code distance ∧
    dec ∈ g'.nodes ∧ core ∈ g'.nodes ∧ enc ∈ g'.nodes ∧ g.nextId ≤ core.id ∧ g.nextId ≤ enc.id ∧
    g'.consumers core.id = [n.id] ∧ g'.consumers enc.id = [core.id]
  others : ∀ n ∈ g.nodes, ¬ n.Exposed r → n ∈ g'.nodes
  count : g'.nodes.length = g.nodes.length + 2 * (exposed r g).length
  beside : g' = { g with nodes := g'.nodes, nextId := g'.nextId }

lemma not_exposed_of_flag (h : n.attrs.hasFlag protectedMark = true) : ¬ n.Exposed r := by
  rintro ⟨-, hflag, -⟩
  rw [h] at hflag
  cases hflag

section Turned

variable {ts : List Turn}

/-- The turns are those of the exposed nodes. -/
lemma mem_before_iff (hbefore : ts.map (·.before) = exposed r g) : (∃ t ∈ ts, t.before = n) ↔
    n ∈ g.nodes ∧ n.Exposed r := by
  rw [← mem_exposed, ← hbefore, List.mem_map]

/-- A node without a turn is not exposed. -/
lemma not_exposed_of_not_mem (hbefore : ts.map (·.before) = exposed r g) (hn : n ∈ g.nodes)
    (hnot : n.id ∉ ts.map (·.before.id)) : ¬ n.Exposed r := by
  intro hexposed
  obtain ⟨t, ht, rfl⟩ := (mem_before_iff hbefore).2 ⟨hn, hexposed⟩
  exact hnot (List.mem_map_of_mem ht)

lemma consumers_of_turns (hg : g.WellFormed) (hturns : Turns g ts g') (hlisted : Turns.Listed ts g) {t : Turn}
    (ht : t ∈ ts) {enc core : Node} {code : String} {distance : Nat} (hfresh : t.fresh = [enc, core])
    (hencloses : t.before.Encloses enc core t.after code distance) :
    g'.consumers core.id = [t.before.id] ∧ g'.consumers enc.id = [core.id] := by
  have hg' := hturns.wellFormed hg
  have hmem : ∀ m ∈ t.after :: t.fresh, m ∈ g'.nodes :=
    fun m hm => (hturns.mem_iff hg hlisted).2 (.inr ⟨t, ht, hm⟩)
  have hold : ∀ i ∈ t.before.inputs, i < t.first := fun i hi =>
    Nat.lt_of_lt_of_le (hg.lt_nextId (hg.closed _ (hlisted.present t ht) i hi)) (hturns.next_le_first ht)
  have hids := t.numbers
  rw [hfresh] at hids
  obtain ⟨henc, hcore⟩ : enc.id = t.first ∧ core.id = t.first + 1 := by simpa [List.range'] using hids
  obtain ⟨hid, -, hdec⟩ := hencloses.decodes
  obtain ⟨-, -, -, hcin⟩ := hencloses.computes
  have hein := hencloses.encodes.2
  constructor
  · rw [← hid]
    refine Graph.consumers_eq_singleton hg'.ordered (hmem _ (List.mem_cons_self ..)) (by simp [hdec]) ?_
    intro m hm huse
    have hin := hturns.uses hg hlisted ht (by simp [hfresh]) hm huse
    rw [hfresh] at hin
    simp only [List.mem_cons, List.not_mem_nil, or_false] at hin
    rcases hin with rfl | rfl | rfl
    · rfl
    · rw [hein] at huse
      have hlt := hold _ huse
      rw [hcore] at hlt
      exact absurd hlt (Nat.not_lt.2 (Nat.le_succ _))
    · rw [hcin, List.mem_singleton, henc, hcore] at huse
      exact absurd huse (Nat.succ_ne_self _)
  · refine Graph.consumers_eq_singleton hg'.ordered (hmem _ (by simp [hfresh])) (by simp [hcin]) ?_
    intro m hm huse
    have hin := hturns.uses hg hlisted ht (by simp [hfresh]) hm huse
    rw [hfresh] at hin
    simp only [List.mem_cons, List.not_mem_nil, or_false] at hin
    rcases hin with rfl | rfl | rfl
    · rw [hdec, List.mem_singleton, henc, hcore] at huse
      exact absurd huse.symm (Nat.succ_ne_self _)
    · rw [hein] at huse
      have hlt := hold _ huse
      rw [henc] at hlt
      exact absurd hlt (Nat.lt_irrefl _)
    · rfl

lemma protected_of_turns (hg : g.WellFormed) (hturns : Turns g ts g') (hbefore : ts.map (·.before) = exposed r g)
    (hts : ∀ t ∈ ts, Protects t) : Protected r g g' := by
  have hlisted : Turns.Listed ts g := Turns.listed_of_sublist hg.ordered (hbefore ▸ List.filter_sublist)
  refine ⟨hturns.wellFormed hg, ?_, ?_, ?_, hturns.beside⟩
  · intro n hn hexposed
    obtain ⟨t, ht, rfl⟩ := (mem_before_iff hbefore).2 ⟨hn, hexposed⟩
    obtain ⟨enc, core, code, distance, hfresh, hencloses⟩ := hts t ht
    have hmem : ∀ m ∈ t.after :: t.fresh, m ∈ g'.nodes :=
      fun m hm => (hturns.mem_iff hg hlisted).2 (.inr ⟨t, ht, hm⟩)
    have hnew : ∀ m ∈ t.fresh, g.nextId ≤ m.id := fun m hm =>
      Nat.le_trans (hturns.next_le_first ht) (t.mem_numbers.1 (List.mem_map_of_mem hm)).1
    exact ⟨enc, core, t.after, code, distance, hencloses, hmem _ (by simp), hmem _ (by simp [hfresh]),
      hmem _ (by simp [hfresh]), hnew _ (by simp [hfresh]), hnew _ (by simp [hfresh]),
      consumers_of_turns hg hturns hlisted ht hfresh hencloses⟩
  · intro n hn hnot
    refine (hturns.mem_iff hg hlisted).2 (.inl ⟨hn, fun hid => hnot ?_⟩)
    obtain ⟨t, ht, hid⟩ := List.mem_map.1 hid
    obtain rfl := hg.ordered.eq_of_id_eq (hlisted.present t ht) hn hid
    exact ((mem_before_iff hbefore).1 ⟨t, ht, rfl⟩).2
  · rw [hturns.length_eq, List.length_flatMap, ← hbefore, List.length_map]
    have htwo : ts.map (·.fresh.length) = ts.map (fun _ => 2) := by
      refine List.map_congr_left fun t ht => ?_
      obtain ⟨enc, core, code, distance, hfresh, -⟩ := hts t ht
      rw [hfresh]
      rfl
    rw [htwo, List.map_const', List.sum_replicate_nat, Nat.mul_comm]

/-- Nothing is left to be protected. -/
lemma settled_of_turns (hg : g.WellFormed) (hturns : Turns g ts g') (hbefore : ts.map (·.before) = exposed r g)
    (hts : ∀ t ∈ ts, Protects t) : exposed r g' = [] := by
  have hlisted : Turns.Listed ts g := Turns.listed_of_sublist hg.ordered (hbefore ▸ List.filter_sublist)
  refine List.filter_eq_nil_iff.2 fun m hm => ?_
  rw [decide_eq_true_iff]
  rcases (hturns.mem_iff hg hlisted).1 hm with ⟨hm, hnot⟩ | ⟨t, ht, hm⟩
  · exact not_exposed_of_not_mem hbefore hm hnot
  · obtain ⟨enc, core, code, distance, hfresh, hencloses⟩ := hts t ht
    rw [hfresh] at hm
    exact not_exposed_of_flag (hencloses.marked m hm)

end Turned

lemma run_eq (ctx : PassContext) (g : Graph) : run ctx g = (do
    let wrapped ← wrapAll ctx.registry ((exposed ctx.registry g).map (·.id)) g
    return ⟨wrapped.graph, wrapped.result.map (fun _ => !(exposed ctx.registry g).isEmpty), []⟩) := by
  unfold run
  dsimp only
  rw [exposed_eq, List.isEmpty_map]

lemma run_settled (ctx : PassContext) (h : exposed ctx.registry g = []) : run ctx g = .ok ⟨g, .ok false, []⟩ := by
  rw [run_eq, h]
  rfl

/-- **The error-correction pass is exact and idempotent.**  If there are enough numbers it returns.  It fails exactly if
some exposed node has a code that cannot be encoded, and then names the first of them; else it encloses all exposed
nodes, and a second run changes nothing. -/
theorem run_protects (hg : g.WellFormed) (hlevels : g.Moderate) (ctx : PassContext) :
    (g.nextId + 2 * (exposed ctx.registry g).length < wordLimit → ∃ out, run ctx g = .ok out) ∧
    ∀ out, run ctx g = .ok out → out.reported = [] ∧
      ((∃ e, out.result = .error e) ↔ ∃ n ∈ g.nodes, n.Exposed ctx.registry ∧ ¬ n.Encodable) ∧
      (∀ e, out.result = .error e → Refuses (exposed ctx.registry g) e) ∧
      ∀ changed, out.result = .ok changed → (changed = true ↔ ∃ n ∈ g.nodes, n.Exposed ctx.registry) ∧
        Protected ctx.registry g out.graph ∧ run ctx out.graph = .ok ⟨out.graph, .ok false, []⟩ := by
  have hqueued : Queued ctx.registry g (exposed ctx.registry g) := queued_exposed hg.ordered
  constructor
  · intro hroom
    have htargets := targets_all (r := ctx.registry) hg.ordered
    rw [← exposed_eq] at htargets
    obtain ⟨a, ha⟩ := exists_wrapAll hg hlevels htargets fun count hcount =>
      Nat.lt_of_le_of_lt hcount.le_of_pairs (by rwa [List.length_map])
    rw [run_eq, ha]
    exact ⟨_, rfl⟩
  intro out hrun
  rw [run_eq] at hrun
  obtain ⟨a, ha, hrun⟩ := Checked.bind_eq_ok.1 hrun
  obtain rfl := Except.ok.inj hrun
  rcases (wrapAll_concludes hg hqueued).of_ok ha with
    ⟨hresult, hencodable, ts, hturns, hbefore, hts⟩ | ⟨e, hresult, hrefuses⟩
  · rw [hresult]
    refine ⟨rfl, ⟨?_, ?_⟩, ?_, ?_⟩
    · rintro ⟨e, he⟩
      cases he
    · rintro ⟨n, hn, hexposed, hnot⟩
      exact absurd (hencodable n (mem_exposed.2 ⟨hn, hexposed⟩)) hnot
    · intro e he
      cases he
    · intro changed hchanged
      obtain rfl := Except.ok.inj hchanged
      refine ⟨?_, protected_of_turns hg hturns hbefore hts,
        run_settled ctx (settled_of_turns hg hturns hbefore hts)⟩
      simp only [Bool.not_eq_true', List.isEmpty_eq_false_iff_exists_mem, mem_exposed]
  · rw [hresult]
    refine ⟨rfl, ⟨fun _ => ?_, fun _ => ⟨e, rfl⟩⟩, ?_, ?_⟩
    · obtain ⟨n, hn, hnot⟩ := hrefuses.exists_not_encodable
      obtain ⟨hn, hexposed⟩ := mem_exposed.1 hn
      exact ⟨n, hn, hexposed, hnot⟩
    · intro e' he'
      rwa [← Except.error.inj he']
    · intro changed hchanged
      cases hchanged

/-- Nodes that use each other and ask for protection, one of them at the highest level, beside one that has it. -/
def chained : Graph where
  name := "chained"
  nodes := [Node.plain 0 .input [] .scalar,
    { Node.plain 1 (.operation .interfere) [0, 0] .scalar with
      attrs := { Attributes.plain with correction := .faultTolerant 1 "surface" } },
    { Node.plain 2 (.operation .split) [1] .scalar with
      attrs := { Attributes.plain with correction := .basic "repetition" } },
    { Node.plain 3 (.operation .merge) [1, 2] .scalar with
      attrs := { Attributes.plain with correction := .faultTolerant 2147483647 "shor" } },
    { Node.plain 4 (.operation .correct) [1] .scalar with
      attrs := sealed { Attributes.plain with correction := .basic "color" } }]
  inputs := [0]
  outputs := [⟨"y", 3⟩, ⟨"z", 2⟩]
  hints := Hints.empty
  nextId := 5

theorem run_protects_chained : chained.WellFormed ∧ chained.Moderate ∧ ∃ g',
    run ⟨.builtin, none⟩ chained = .ok ⟨g', .ok true, []⟩ ∧ Protected .builtin chained g' ∧
    g'.nodes.length = 11 ∧
      run ⟨.builtin, none⟩ g' = .ok ⟨g', .ok false, []⟩ := by
  have hclosed : chained.Closed := by
    unfold Graph.Closed
    decide
  have hwf : chained.WellFormed := ⟨Graph.ordered_iff.2 (by decide), by decide, hclosed⟩
  have hlevels : chained.Moderate := by
    unfold Graph.Moderate
    decide
  obtain ⟨hreturns, hexact⟩ := run_protects hwf hlevels ⟨.builtin, none⟩
  obtain ⟨⟨g', result, reported⟩, hrun⟩ := hreturns (by decide +kernel)
  have hdone : (run ⟨.builtin, none⟩ chained).toOption.map
      (fun out => (out.graph.nodes.length, out.result.toOption)) = some (11, some true) := by decide +kernel
  rw [hrun] at hdone
  obtain ⟨hlength, hresult⟩ := Prod.mk.inj (Option.some.inj hdone)
  obtain ⟨rfl, -, -, hprotects⟩ := hexact _ hrun
  cases result with
  | error e => cases hresult
  | ok changed =>
    obtain rfl := Option.some.inj hresult
    obtain ⟨-, hprotected, hagain⟩ := hprotects true rfl
    exact ⟨hwf, hlevels, g', hrun, hprotected, hlength, hagain⟩

end ProtectionPass

end Waveflow
