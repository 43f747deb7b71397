import Waveflow.Proofs.Pass.Allocation
import Waveflow.Proofs.Pass.Turns

/-!
# What the thermal pass leaves

Every node meets one of three fates (`Fate`).  An operation above the ceiling that may be divided becomes the join of
its parts; one that may not is marked and reported, once; all other nodes stay.  Which fate a node meets is read off the
node before the pass (`Node.Meets`), and what is seen of it afterwards tells the fates apart (`Outcome.Shows`).  The
marks see to it that all nodes stay the next time, whatever the ceiling is (`ThermalPass.run_cools`).
-/

namespace Waveflow

open Checked (Yields)
open ThermalPass (parts? isHot step steps)

variable {r : Registry} {g g' : Graph} {n m : Node} {spec : OpSpec} {load ceiling : Float} {limit : Option Float}

/-- What a pass may make of a node. -/
inductive Fate where
  | kept
  | warned
  | divided (parts : Nat)
deriving Repr, DecidableEq

/-- The node is a known operation with a load above the ceiling, and neither a part nor divided. -/
structure Node.Overheats (r : Registry) (ceiling : Float) (n : Node) (spec : OpSpec) (load : Float) : Prop where
  known : ∃ op, n.kind = .operation op ∧ r.specOf? op = some spec
  carries : n.attrs.thermal.amount? = some load
  above : ¬ load ≤ ceiling
  whole : n.attrs.hasFlag partMark = false ∧ n.attrs.mark? dividedMark = none

/-- The operation may not be divided, or would need too many parts. -/
def OpSpec.Stays (spec : OpSpec) (load ceiling : Float) : Prop := spec.atomic = true ∨ parts? load ceiling = none

/-- The fate of a node under a ceiling, if there is one. -/
inductive Node.Meets (r : Registry) (limit : Option Float) (n : Node) : Fate → Prop
  | kept : (∀ ceiling spec load, limit = some ceiling → n.Overheats r ceiling spec load →
      spec.Stays load ceiling ∧ n.attrs.hasFlag warnedMark = true) → Meets r limit n .kept
  | warned {ceiling : Float} {spec : OpSpec} {load : Float} : limit = some ceiling →
      n.Overheats r ceiling spec load → spec.Stays load ceiling → n.attrs.hasFlag warnedMark = false →
      Meets r limit n .warned
  | divided {ceiling : Float} {spec : OpSpec} {load : Float} {k : Nat} : limit = some ceiling →
      n.Overheats r ceiling spec load → spec.atomic = false → parts? load ceiling = some k →
      Meets r limit n (.divided k)

/-- `join` has taken the place of `n` and joins the parts, which are copies of it. -/
structure Node.Divides (n join : Node) (parts : List Node) : Prop where
  whole : n.attrs.hasFlag partMark = false ∧ n.attrs.mark? dividedMark = none
  kind : join.kind = .operation .join
  same : join.id = n.id ∧ join.name = n.name ∧ join.ty = n.ty ∧ join.attrs.correction = n.attrs.correction ∧
    join.attrs.coherence = n.attrs.coherence
  inputs : join.inputs = parts.map (·.id)
  distinct : (parts.map (·.id)).Nodup
  copies : ∀ m ∈ parts, m.kind = n.kind ∧ m.params = n.params ∧ m.ty = n.ty ∧ m.inputs = n.inputs ∧
    m.attrs.correction = n.attrs.correction ∧ m.attrs.hasFlag partMark = true
  mark : join.attrs.mark? dividedMark = some (.number parts.length.toFloat)

/-- What is seen of the fate of a node of `g` after a pass. -/
def Outcome.Shows (g : Graph) (out : Outcome) (n : Node) : Fate → Prop
  | .kept => n ∈ out.graph.nodes ∧ out.reported.filter (fun d => d.node == some n.id) = []
  | .warned => n.attrs.hasFlag warnedMark = false ∧ n.marked warnedMark (.flag true) ∈ out.graph.nodes ∧
      ∃ d, out.reported.filter (fun d => d.node == some n.id) = [d] ∧ d.severity = .warning ∧
        d.kind = .budgetExceeded
  | .divided k => out.reported.filter (fun d => d.node == some n.id) = [] ∧ ∃ join ∈ out.graph.nodes, ∃ parts,
      n.Divides join parts ∧ parts.length = k ∧ ∀ m ∈ parts, m ∈ out.graph.nodes ∧ g.nextId ≤ m.id

/-! ### Fates -/

lemma Node.overheats_iff : n.Overheats r ceiling spec load ↔
    n.op?.bind r.specOf? = some spec ∧ n.attrs.thermal.amount? = some load ∧ isHot ceiling n load = true := by
  constructor
  · rintro ⟨⟨op, hkind, hspec⟩, hload, habove, hpart, hdivided⟩
    refine ⟨?_, hload, by simp [isHot, habove, hpart, hdivided]⟩
    rw [op?_eq_some_iff.2 hkind]
    exact hspec
  · rintro ⟨hspec, hload, hhot⟩
    obtain ⟨op, hop, hspec⟩ := Option.bind_eq_some_iff.1 hspec
    obtain ⟨habove, hwhole⟩ := ThermalPass.isHot_spec hhot
    exact ⟨⟨op, op?_eq_some_iff.1 hop, hspec⟩, hload, habove, hwhole⟩

lemma Node.meets_kept_of_marked (h : n.attrs.hasFlag partMark = true ∨ (n.attrs.mark? dividedMark).isSome) :
    n.Meets r limit .kept := by
  refine .kept fun ceiling spec load _ hover => ?_
  obtain ⟨hpart, hdivided⟩ := hover.whole
  rw [hpart, hdivided] at h
  rcases h with h | h <;> cases h

/-- A mark that does not matter for the load leaves a node as hot as it was. -/
lemma Node.Overheats.of_marked (h : (n.marked warnedMark (.flag true)).Overheats r ceiling spec load) :
    n.Overheats r ceiling spec load := by
  obtain ⟨hknown, hload, habove, hpart, hdivided⟩ := h
  have hne : partMark ≠ warnedMark := by decide
  have hne' : dividedMark ≠ warnedMark := by decide
  exact ⟨hknown, hload, habove, (Attributes.hasFlag_mark_of_ne hne).symm.trans hpart,
    (Attributes.mark?_mark_of_ne hne').symm.trans hdivided⟩

lemma Node.Overheats.unique {spec' : OpSpec} {load' : Float} (h : n.Overheats r ceiling spec load)
    (h' : n.Overheats r ceiling spec' load') : spec = spec' ∧ load = load' := by
  obtain ⟨hspec, hload, -⟩ := overheats_iff.1 h
  obtain ⟨hspec', hload', -⟩ := overheats_iff.1 h'
  exact ⟨Option.some.inj (hspec.symm.trans hspec'), Option.some.inj (hload.symm.trans hload')⟩

/-- A node that has been marked stays from then on. -/
lemma Node.meets_kept_warned (h : n.Meets r limit .warned) :
    (n.marked warnedMark (.flag true)).Meets r limit .kept := by
  cases h with
  | @warned ceiling spec load hlimit hover hstays _ =>
    refine .kept fun ceiling' spec' load' hlimit' hover' => ?_
    obtain rfl := Option.some.inj (hlimit.symm.trans hlimit')
    obtain ⟨rfl, rfl⟩ := hover.unique hover'.of_marked
    exact ⟨hstays, Attributes.hasFlag_mark_self⟩

lemma OpSpec.not_stays {k : Nat} (hatomic : spec.atomic = false) (hparts : parts? load ceiling = some k) :
    ¬ spec.Stays load ceiling := by
  rintro (h | h)
  · rw [hatomic] at h
    cases h
  · rw [hparts] at h
    cases h

/-- A node that stays has no other fate. -/
lemma Node.Meets.eq_kept {fate : Fate} (h : n.Meets r limit fate) (hkept : n.Meets r limit .kept) : fate = .kept := by
  cases hkept with
  | kept hkept =>
    cases h with
    | kept => rfl
    | warned hlimit hover _ hflag =>
      have hmarked := (hkept _ _ _ hlimit hover).2
      rw [hflag] at hmarked
      cases hmarked
    | divided hlimit hover hatomic hparts =>
      exact absurd (hkept _ _ _ hlimit hover).1 (OpSpec.not_stays hatomic hparts)

/-- **Fates are told apart by what is seen.** -/
theorem Outcome.Shows.unique {out : Outcome} {fate fate' : Fate} (hg : out.graph.Ordered) (h : out.Shows g n fate)
    (h' : out.Shows g n fate') : fate = fate' := by
  have hsame : ∀ {a b : Node}, a ∈ out.graph.nodes → b ∈ out.graph.nodes →
      a.id = n.id → b.id = n.id → a = b :=
    fun ha hb hid hid' => hg.eq_of_id_eq ha hb (hid.trans hid'.symm)
  -- a node that was not marked is neither the marked node nor a join
  have hmarked : n.attrs.hasFlag warnedMark = false → n ≠ n.marked warnedMark (.flag true) := by
    intro hflag heq
    have hself : (n.marked warnedMark (.flag true)).attrs.hasFlag warnedMark = true := Attributes.hasFlag_mark_self
    rw [← heq, hflag] at hself
    cases hself
  have hjoin : ∀ {join parts}, n.Divides join parts → n ≠ join ∧ n.marked warnedMark (.flag true) ≠ join := by
    intro join parts hdivides
    have hne : dividedMark ≠ warnedMark := by decide
    have hnone : (n.marked warnedMark (.flag true)).attrs.mark? dividedMark = none :=
      (Attributes.mark?_mark_of_ne hne).trans hdivides.whole.2
    refine ⟨fun heq => ?_, fun heq => ?_⟩
    · exact absurd (hdivides.whole.2.symm.trans (heq ▸ hdivides.mark)) (by simp)
    · exact absurd (hnone.symm.trans (heq ▸ hdivides.mark)) (by simp)
  cases fate with
  | kept =>
    cases fate' with
    | kept => rfl
    | warned => exact absurd (hsame h.1 h'.2.1 rfl rfl) (hmarked h'.1)
    | divided k =>
      obtain ⟨-, join, hmem, parts, hdivides, -⟩ := h'
      exact absurd (hsame h.1 hmem rfl hdivides.same.1) (hjoin hdivides).1
  | warned =>
    cases fate' with
    | kept => exact absurd (hsame h'.1 h.2.1 rfl rfl) (hmarked h.1)
    | warned => rfl
    | divided k =>
      obtain ⟨-, join, hmem, parts, hdivides, -⟩ := h'
      exact absurd (hsame h.2.1 hmem rfl hdivides.same.1) (hjoin hdivides).2
  | divided k =>
    obtain ⟨-, join, hmem, parts, hdivides, rfl, -⟩ := h
    cases fate' with
    | kept => exact absurd (hsame h'.1 hmem rfl hdivides.same.1) (hjoin hdivides).1
    | warned => exact absurd (hsame h'.2.1 hmem rfl hdivides.same.1) (hjoin hdivides).2
    | divided k' =>
      obtain ⟨-, join', hmem', parts', hdivides', rfl, -⟩ := h'
      obtain rfl := hsame hmem hmem' hdivides.same.1 hdivides'.same.1
      have hlength := congrArg List.length (hdivides.inputs.symm.trans hdivides'.inputs)
      rw [List.length_map, List.length_map] at hlength
      rw [hlength]

namespace ThermalPass

/-! ### One turn -/

/-- The turn of a node that stays. -/
def keepTurn (g : Graph) (n : Node) : Turn where
  before := n
  after := n
  first := g.nextId
  fresh := []
  reported := []
  id := rfl
  numbers := rfl
  edges := fun _ hm _ hi => .inl (List.mem_singleton.1 hm ▸ hi)
  about := Turn.about_nil n

/-- The turn of a node that is marked and reported. -/
def warnTurn (g : Graph) (n : Node) (atomic : Bool) (load ceiling : Float) : Turn where
  before := n
  after := n.marked warnedMark (.flag true)
  first := g.nextId
  fresh := []
  reported := [warning atomic n load ceiling]
  id := rfl
  numbers := rfl
  edges := by
    intro m hm i hi
    rw [List.mem_singleton.1 hm] at hi
    exact .inl hi
  about := by
    intro d hd
    rw [List.mem_singleton.1 hd]
    rfl

/-- The turn of a node that is divided. -/
def divideTurn (r : Registry) (g : Graph) (n : Node) (load : Float) (parts : Nat) : Turn where
  before := n
  after := gathered r parts g.nextId n
  first := g.nextId
  fresh := shares n load parts g.nextId
  reported := []
  id := rfl
  numbers := by rw [map_id_shares, length_shares]
  edges := by
    intro m hm i hi
    rw [map_id_shares]
    rcases List.mem_cons.1 hm with rfl | hm
    · exact .inr hi
    · obtain ⟨id, -, rfl⟩ := List.mem_map.1 hm
      exact .inl hi
  about := Turn.about_nil n

/-- What a turn does for a fate. -/
def Serves (t : Turn) : Fate → Prop
  | .kept => t.after = t.before ∧ t.fresh = [] ∧ t.reported = []
  | .warned => t.before.attrs.hasFlag warnedMark = false ∧ t.after = t.before.marked warnedMark (.flag true) ∧
      t.fresh = [] ∧ ∃ d, t.reported = [d] ∧ d.severity = .warning ∧ d.kind = .budgetExceeded
  | .divided k => t.before.Divides t.after t.fresh ∧ t.fresh.length = k ∧ t.reported = []

lemma keepTurn_graft (hg : g.Ordered) (hn : n ∈ g.nodes) : (keepTurn g n).graft g = g := by
  have hnodes : g.nodes.map (fun m => if m.id = n.id then n else m) = g.nodes := by
    conv_rhs => rw [← List.map_id g.nodes]
    refine List.map_congr_left fun m hm => ?_
    by_cases hid : m.id = n.id
    · rw [if_pos hid, hg.eq_of_id_eq hm hn hid]
      rfl
    · rw [if_neg hid]
      rfl
  show g.graft n.id (fun _ => n) [] = g
  unfold Graph.graft
  rw [hnodes, List.append_nil]
  rfl

lemma divideTurn_serves {parts : Nat} (hwhole : n.attrs.hasFlag partMark = false ∧ n.attrs.mark? dividedMark = none) :
    Serves (divideTurn r g n load parts) (.divided parts) := by
  refine ⟨⟨hwhole, rfl, ⟨rfl, rfl, rfl, rfl, rfl⟩, ?_, ?_, ?_, ?_⟩, length_shares .., rfl⟩
  · exact (map_id_shares ..).symm
  · show ((shares n load parts g.nextId).map (·.id)).Nodup
    rw [map_id_shares]
    exact List.nodup_range'
  · intro m hm
    obtain ⟨id, -, rfl⟩ := List.mem_map.1 hm
    exact ⟨rfl, rfl, rfl, rfl, rfl, Attributes.hasFlag_mark_self⟩
  · show _ = some (AttrValue.number (shares n load parts g.nextId).length.toFloat)
    rw [length_shares]
    exact Attributes.mark?_mark_self

/-- **A step is a turn for the fate of the node.** -/
theorem step_turn (ceiling : Float) (hg : g.WellFormed) (hn : n ∈ g.nodes) :
    Yields (step r ceiling g n.id) fun out => ∃ t fate, t.before = n ∧ t.Fits g ∧
      n.Meets r (some ceiling) fate ∧
      Serves t fate ∧ out = ⟨t.graft g, .ok (fate != .kept), t.reported⟩ := by
  have hkeep : n.Meets r (some ceiling) .kept → ∃ t fate, t.before = n ∧ t.Fits g ∧
      n.Meets r (some ceiling) fate ∧
      Serves t fate ∧ (⟨g, .ok false, []⟩ : Outcome) = ⟨t.graft g, .ok (fate != .kept), t.reported⟩ := by
    intro hmeets
    refine ⟨keepTurn g n, .kept, rfl, ⟨hn, rfl⟩, hmeets, ⟨rfl, rfl, rfl⟩, ?_⟩
    rw [keepTurn_graft hg.ordered hn]
    rfl
  unfold step
  rw [hg.ordered.node?_of_mem hn]
  dsimp only
  split
  · next spec load hspec hload =>
    split
    · next hcool =>
      refine hkeep (.kept fun ceiling' spec' load' hlimit hover => ?_)
      obtain rfl := Option.some.inj hlimit
      obtain ⟨-, hload', hhot⟩ := Node.overheats_iff.1 hover
      obtain rfl := Option.some.inj (hload.symm.trans hload')
      rw [hhot] at hcool
      cases hcool
    · next hhot =>
      have hover : n.Overheats r ceiling spec load := Node.overheats_iff.2 ⟨hspec, hload, by simpa using hhot⟩
      obtain ⟨op, hkind, -⟩ := hover.known
      split
      · next parts hparts =>
        obtain ⟨hatomic, hcount⟩ : spec.atomic = false ∧ parts? load ceiling = some parts := by
          split at hparts
          · cases hparts
          · next hatomic => exact ⟨by simpa using hatomic, hparts⟩
        refine (divide_yields hg hn hkind load parts).bind ?_
        rintro _ rfl
        refine ⟨divideTurn r g n load parts, .divided parts, rfl, ⟨hn, rfl⟩, .divided rfl hover hatomic hcount,
          divideTurn_serves hover.whole, ?_⟩
        have hgraft : divided r g n load parts = (divideTurn r g n load parts).graft g :=
          Graph.graft_eq_const hg.ordered hn _ _
        rw [← hgraft]
        rfl
      · next hparts =>
        have hstays : spec.Stays load ceiling := by
          split at hparts
          · next hatomic => exact .inl hatomic
          · exact .inr hparts
        split
        · next hwarned =>
          refine hkeep (.kept fun ceiling' spec' load' hlimit hover' => ?_)
          obtain rfl := Option.some.inj hlimit
          obtain ⟨rfl, rfl⟩ := hover.unique hover'
          exact ⟨hstays, hwarned⟩
        · next hwarned =>
          have hflag : n.attrs.hasFlag warnedMark = false := by simpa using hwarned
          refine ⟨warnTurn g n spec.atomic load ceiling, .warned, rfl, ⟨hn, rfl⟩, .warned rfl hover hstays hflag,
            ⟨hflag, rfl, rfl, _, rfl, rfl, rfl⟩, ?_⟩
          rw [Graph.modify_eq_graft hg.ordered, Graph.graft_eq_const hg.ordered hn]
          rfl
  · next hnone =>
    refine hkeep (.kept fun ceiling' spec' load' _ hover => ?_)
    obtain ⟨hspec, hload, -⟩ := Node.overheats_iff.1 hover
    exact absurd hload (hnone spec' load' hspec)

/-- What a turn leaves stays from then on. -/
lemma Serves.meets_kept {t : Turn} {fate : Fate} (h : Serves t fate) (hmeets : t.before.Meets r limit fate)
    (hm : m ∈ t.after :: t.fresh) : m.Meets r limit .kept := by
  cases fate with
  | kept =>
    obtain ⟨hafter, hfresh, -⟩ := h
    rw [hafter, hfresh, List.mem_singleton] at hm
    exact hm ▸ hmeets
  | warned =>
    obtain ⟨-, hafter, hfresh, -⟩ := h
    rw [hafter, hfresh, List.mem_singleton] at hm
    exact hm ▸ Node.meets_kept_warned hmeets
  | divided k =>
    obtain ⟨hdivides, -⟩ := h
    rcases List.mem_cons.1 hm with rfl | hm
    · exact Node.meets_kept_of_marked (.inr (hdivides.mark ▸ rfl))
    · exact Node.meets_kept_of_marked (.inl (hdivides.copies m hm).2.2.2.2.2)

/-- A node that stays brings nothing about. -/
lemma step_idle (hg : g.Ordered) (hn : n ∈ g.nodes) (h : n.Meets r (some ceiling) .kept) :
    step r ceiling g n.id = .ok ⟨g, .ok false, []⟩ := by
  unfold step
  rw [hg.node?_of_mem hn]
  dsimp only
  split
  · next spec load hspec hload =>
    split
    · rfl
    · next hhot =>
      have hover : n.Overheats r ceiling spec load := Node.overheats_iff.2 ⟨hspec, hload, by simpa using hhot⟩
      cases h with
      | kept h =>
        obtain ⟨hstays, hwarned⟩ := h _ _ _ rfl hover
        have hnone : (if spec.atomic then none else parts? load ceiling) = none := by
          rcases hstays with hatomic | hparts
          · rw [if_pos hatomic]
          · rw [hparts, ite_self]
        rw [hnone]
        dsimp only
        rw [if_pos hwarned]
  · rfl

/-! ### All turns -/

/-- The nodes have had their turns, each for its fate, and it is said whether one of them did not stay. -/
structure Attended (r : Registry) (ceiling : Float) (g : Graph) (ns : List Node) (out : Outcome) (ts : List Turn) :
    Prop where
  turns : Turns g ts out.graph
  before : ts.map (·.before) = ns
  serves : ∀ t ∈ ts, ∃ fate, t.before.Meets r (some ceiling) fate ∧ Serves t fate
  reported : out.reported = ts.flatMap (·.reported)
  result : ∃ changed, out.result = .ok changed ∧
    (changed = true ↔ ∃ n ∈ ns, ∃ fate, fate ≠ .kept ∧ n.Meets r (some ceiling) fate)

theorem steps_turns (ceiling : Float) {ns : List Node} (hg : g.WellFormed) (hpresent : ∀ n ∈ ns, n ∈ g.nodes)
    (hnodup : (ns.map (·.id)).Nodup) :
    Yields (steps r ceiling (ns.map (·.id)) g) fun out => ∃ ts, Attended r ceiling g ns out ts := by
  induction ns generalizing g with
  | nil =>
    refine ⟨[], .nil, rfl, fun _ ht => absurd ht List.not_mem_nil, rfl, false, rfl, ?_⟩
    simp
  | cons n ns ih =>
    rw [List.map_cons, steps]
    refine (step_turn ceiling hg (hpresent n (List.mem_cons_self ..))).bind ?_
    rintro _ ⟨t, fate, rfl, hfits, hmeets, hserves, rfl⟩
    have hpresent' := hfits.present hg hpresent hnodup
    refine (ih (hfits.wellFormed hg) hpresent' (List.nodup_cons.1 hnodup).2).bind ?_
    rintro out ⟨ts, hturns, hbefore, hall, hreported, changed, hresult, hchanged⟩
    refine ⟨t :: ts, .cons hfits hturns, by rw [List.map_cons, hbefore], ?_, ?_, (fate != .kept) || changed, ?_, ?_⟩
    · exact List.forall_mem_cons.2 ⟨⟨fate, hmeets, hserves⟩, hall⟩
    · dsimp only
      rw [hreported, List.flatMap_cons]
    · dsimp only
      rw [hresult]
      rfl
    · rw [Bool.or_eq_true, hchanged, bne_iff_ne]
      constructor
      · rintro (hfate | ⟨m, hm, other, hother⟩)
        · exact ⟨t.before, List.mem_cons_self .., fate, hfate, hmeets⟩
        · exact ⟨m, List.mem_cons_of_mem _ hm, other, hother⟩
      · rintro ⟨m, hm, other, hother, hmeets'⟩
        rcases List.mem_cons.1 hm with rfl | hm
        · refine .inl fun hkept => hother (hmeets'.eq_kept ?_)
          exact hkept ▸ hmeets
        · exact .inr ⟨m, hm, other, hother, hmeets'⟩

lemma steps_idle {ns : List Node} (hg : g.Ordered) (hpresent : ∀ n ∈ ns, n ∈ g.nodes)
    (h : ∀ n ∈ ns, n.Meets r (some ceiling) .kept) :
      steps r ceiling (ns.map (·.id)) g = .ok ⟨g, .ok false, []⟩ := by
  induction ns with
  | nil => rfl
  | cons n ns ih =>
    have hrest := ih (fun m hm => hpresent m (List.mem_cons_of_mem _ hm)) fun m hm => h m (List.mem_cons_of_mem _ hm)
    rw [List.map_cons, steps, step_idle hg (hpresent n (List.mem_cons_self ..)) (h n (List.mem_cons_self ..)),
      Checked.ok_bind]
    dsimp only
    rw [hrest]
    rfl

/-- With at most so many parts for each node, the numbers suffice. -/
lemma Allocates.le_of_parts {ids : List NodeId} {count : Nat} (h : Allocates r ceiling ids g count)
    (hg : g.WellFormed) : count ≤ g.nextId + maxParts * ids.length := by
  induction h with
  | divide _ _ _ _ _ hparts =>
    have hle := parts_le hparts
    rw [List.length_cons, Nat.mul_add]
    omega
  | @later id rest g out changed count hstep _ _ ih =>
    obtain ⟨-, hmoves⟩ := (step_moves ceiling hg id).of_ok hstep
    have hrest := ih (Moves.wellFormed hmoves hg)
    have hnext : out.graph.nextId ≤ g.nextId + maxParts := by
      rcases (step_spec ceiling hg id).of_ok hstep with
        rfl | ⟨n, -, op, load, parts, -, -, hparts, rfl⟩ | ⟨n, -, atomic, load, -, rfl⟩
      · exact Nat.le_add_right ..
      · show g.nextId + (shares n load parts g.nextId).length ≤ _
        rw [length_shares]
        exact Nat.add_le_add_left (parts_le hparts) _
      · exact Nat.le_add_right ..
    rw [List.length_cons, Nat.mul_add]
    omega

/-! ### The pass -/

/-- What a turn has done for a fate is seen in the end. -/
lemma Serves.shows {out : Outcome} {ts : List Turn} {t : Turn} {fate : Fate} (hg : g.WellFormed)
    (hturns : Turns g ts out.graph) (hlisted : Turns.Listed ts g) (hreported : out.reported = ts.flatMap (·.reported))
    (ht : t ∈ ts) (h : Serves t fate) : out.Shows g t.before fate := by
  have hmem : ∀ m ∈ t.after :: t.fresh, m ∈ out.graph.nodes :=
    fun m hm => (hturns.mem_iff hg hlisted).2 (.inr ⟨t, ht, hm⟩)
  have hafter := hmem _ (List.mem_cons_self ..)
  have hfilter := Turns.filter_reported hlisted.nodup ht
  rw [← hreported] at hfilter
  cases fate with
  | kept =>
    obtain ⟨hsame, -, hnone⟩ := h
    exact ⟨hsame ▸ hafter, hfilter.trans hnone⟩
  | warned =>
    obtain ⟨hflag, hmarked, -, d, hd, hsevere⟩ := h
    exact ⟨hflag, hmarked ▸ hafter, d, hfilter.trans hd, hsevere⟩
  | divided k =>
    obtain ⟨hdivides, hlength, hnone⟩ := h
    refine ⟨hfilter.trans hnone, t.after, hafter, t.fresh, hdivides, hlength, fun m hm => ?_⟩
    have hnew := (t.mem_numbers.1 (List.mem_map_of_mem hm)).1
    exact ⟨hmem m (List.mem_cons_of_mem _ hm), Nat.le_trans (hturns.next_le_first ht) hnew⟩

/-- What a run of the pass has done, by the fates of the nodes. -/
structure Cooled (r : Registry) (limit : Option Float) (g : Graph) (out : Outcome) : Prop where
  result : ∃ changed, out.result = .ok changed ∧
    (changed = true ↔ ∃ n ∈ g.nodes, ∃ fate, fate ≠ .kept ∧ n.Meets r limit fate)
  /-- Every node has met its fate, and one fate only is seen of it. -/
  fates : ∀ n ∈ g.nodes, ∃ fate, n.Meets r limit fate ∧ out.Shows g n fate ∧
      ∀ other, out.Shows g n other → other = fate
  about : ∀ d ∈ out.reported, ∃ n ∈ g.nodes, d.node = some n.id
  beside : out.graph = { g with nodes := out.graph.nodes, nextId := out.graph.nextId }

section Attended

variable {out : Outcome} {ts : List Turn}

lemma Attended.listed (h : Attended r ceiling g g.nodes out ts) (hg : g.Ordered) : Turns.Listed ts g :=
  Turns.listed_of_sublist hg (h.before ▸ List.Sublist.refl _)

lemma Attended.cooled (h : Attended r ceiling g g.nodes out ts) (hg : g.WellFormed) :
    Cooled r (some ceiling) g out where
  result := h.result
  fates := by
    intro n hn
    have hmem : n ∈ ts.map (·.before) := h.before ▸ hn
    obtain ⟨t, ht, rfl⟩ := List.mem_map.1 hmem
    obtain ⟨fate, hmeets, hserves⟩ := h.serves t ht
    have hshows := hserves.shows hg h.turns (h.listed hg.ordered) h.reported ht
    exact ⟨fate, hmeets, hshows, fun other hother => hother.unique (h.turns.wellFormed hg).ordered hshows⟩
  about := by
    intro d hd
    rw [h.reported] at hd
    obtain ⟨t, ht, hd⟩ := List.mem_flatMap.1 hd
    exact ⟨t.before, (h.listed hg.ordered).present t ht, t.about d hd⟩
  beside := h.turns.beside

/-- The nodes that there are in the end all stay. -/
lemma Attended.meets_kept (h : Attended r ceiling g g.nodes out ts) (hg : g.WellFormed) :
    ∀ m ∈ out.graph.nodes, m.Meets r (some ceiling) .kept := by
  intro m hm
  rcases (h.turns.mem_iff hg (h.listed hg.ordered)).1 hm with ⟨hm, hnot⟩ | ⟨t, ht, hm⟩
  · refine absurd ?_ hnot
    have hmem : m ∈ ts.map (·.before) := h.before ▸ hm
    obtain ⟨t, ht, rfl⟩ := List.mem_map.1 hmem
    exact List.mem_map_of_mem ht
  · obtain ⟨fate, hmeets, hserves⟩ := h.serves t ht
    exact hserves.meets_kept hmeets hm

end Attended

lemma cooled_unlimited (hg : g.Ordered) : Cooled r none g ⟨g, .ok false, []⟩ := by
  have hkept : ∀ n : Node, n.Meets r none .kept := fun n => .kept fun _ _ _ hnone => by cases hnone
  refine ⟨⟨false, rfl, ?_⟩, fun n hn => ?_, fun d hd => absurd hd List.not_mem_nil, rfl⟩
  · simp only [Bool.false_eq_true, false_iff]
    rintro ⟨n, -, fate, hne, hmeets⟩
    exact hne (hmeets.eq_kept (hkept n))
  · have hshows : Outcome.Shows g ⟨g, .ok false, []⟩ n .kept := ⟨hn, rfl⟩
    exact ⟨.kept, hkept n, hshows, fun other hother => hother.unique hg hshows⟩

/-- **The thermal pass is exact and idempotent**, under every ceiling.  If there are enough numbers it returns, and it
never fails.  Every node meets its fate and shows no other, only nodes change, and a second run finds all nodes as they
should be. -/
theorem run_cools (hg : g.WellFormed) (ctx : PassContext) :
    (g.nextId + maxParts * g.nodes.length < wordLimit → ∃ out, run ctx g = .ok out) ∧
    ∀ out, run ctx g = .ok out →
      Cooled ctx.registry ctx.thermalCeiling g out ∧ run ctx out.graph = .ok ⟨out.graph, .ok false, []⟩ := by
  unfold run
  cases ctx.thermalCeiling with
  | none =>
    refine ⟨fun _ => ⟨_, rfl⟩, fun out hrun => ?_⟩
    obtain rfl := Except.ok.inj hrun
    exact ⟨cooled_unlimited hg.ordered, rfl⟩
  | some ceiling =>
    dsimp only
    constructor
    · intro hroom
      refine exists_steps hg fun count hcount => Nat.lt_of_le_of_lt (hcount.le_of_parts hg) ?_
      rwa [Graph.ids, List.length_map]
    · intro out hrun
      obtain ⟨ts, hattended⟩ := (steps_turns ceiling hg (fun _ hn => hn) hg.ordered.ids_nodup).of_ok hrun
      have hordered := (hattended.turns.wellFormed hg).ordered
      exact ⟨hattended.cooled hg, steps_idle hordered (fun _ hm => hm) (hattended.meets_kept hg)⟩

/-- Hot nodes of all kinds: to be divided, atomic, beyond all parts, unknown, a part and a divided one, and one that has
been reported before. -/
def kiln : Graph where
  name := "kiln"
  nodes := [Node.plain 0 .input [] .scalar,
    { Node.plain 1 (.operation .interfere) [0, 0] .scalar with
      name := some "y"
      attrs := { Attributes.plain with thermal := .bounded 5.0, correction := .basic "surface" } },
    { Node.plain 2 (.operation .measure) [1] .scalar with
      attrs := { Attributes.plain with thermal := .bounded 3.0 } },
    { Node.plain 3 (.operation .fourier) [1] .scalar with
      attrs := { Attributes.plain with thermal := .bounded 1000.0 } },
    { Node.plain 4 (.operation (.custom "cast")) [1] .scalar with
      attrs := { Attributes.plain with thermal := .bounded 5.0 } },
    { Node.plain 5 (.operation .split) [0] .scalar with
      attrs := { Attributes.plain with thermal := .bounded 5.0 }.mark partMark (.flag true) },
    { Node.plain 6 (.operation .merge) [1, 2] .scalar with
      attrs := { Attributes.plain with thermal := .bounded 5.0 }.mark dividedMark (.number 2.0) },
    { Node.plain 7 (.operation .measure) [0] .scalar with
      attrs := { Attributes.plain with thermal := .bounded 3.0 }.mark warnedMark (.flag true) }]
  inputs := [0]
  outputs := [⟨"y", 1⟩]
  hints := Hints.empty
  nextId := 8

theorem run_cools_kiln : kiln.WellFormed ∧ ∃ out, run ⟨.builtin, some 2.0⟩ kiln = .ok out ∧
    Cooled .builtin (some 2.0) kiln out ∧ run ⟨.builtin, some 2.0⟩ out.graph =
      .ok ⟨out.graph, .ok false, []⟩ ∧
      out.graph.nodes.map (·.inputs.length) = [0, 3, 1, 1, 1, 1, 2, 1, 2, 2, 2] ∧
      out.reported.map (·.node) = [some 2, some 3] := by
  have hclosed : kiln.Closed := by
    unfold Graph.Closed
    decide
  have hwf : kiln.WellFormed := ⟨Graph.ordered_iff.2 (by decide), by decide, hclosed⟩
  obtain ⟨hreturns, hexact⟩ := run_cools hwf ⟨.builtin, some 2.0⟩
  obtain ⟨out, hrun⟩ := hreturns (by decide)
  have hdone : (run ⟨.builtin, some 2.0⟩ kiln).toOption.map
      (fun out => (out.graph.nodes.map (·.inputs.length), out.reported.map (·.node))) =
        some ([0, 3, 1, 1, 1, 1, 2, 1, 2, 2, 2], [some 2, some 3]) := by decide +kernel
  rw [hrun] at hdone
  obtain ⟨hinputs, hreported⟩ := Prod.mk.inj (Option.some.inj hdone)
  obtain ⟨hcooled, hagain⟩ := hexact out hrun
  exact ⟨hwf, out, hrun, hcooled, hagain, hinputs, hreported⟩

end ThermalPass

end Waveflow
