import Waveflow.Proofs.Lowering.Allocation
import Waveflow.Proofs.Pass.Divided
import Waveflow.Proofs.Pass.Strength
import Waveflow.Proofs.Requirements.Levels

/-!
# Numbers given out by passes

Two of the passes put nodes into a graph: a division takes one number for each part, and protection takes two.
`Pipeline.Allocates ctx ids rounds g count` says that this happens at some point of a pipeline, and that `count`
numbers have then been given out in all, those of the graph before it included.  If all these counts are in range, and
no level is beyond what its distance allows, a pipeline comes to its end (`Pipeline.exists_iterate`): the guard and the
passes find the orders that they need because no move makes a cycle.

Every number that is given out is paid for by potential (`Move.reach_le`), so the counts have a bound that is linear
in the size of the graph.
-/

namespace Waveflow

open Checked (Allots)

variable {r : Registry} {g g' : Graph} {n : Node} {ceiling : Option Float}

/-! ### What edits take -/

namespace Graph

lemma insertLike_allots (g : Graph) (template : Node) (inputs : List NodeId) :
    Allots g.nextId 1 g.nextAfter (g.insertLike template inputs) := by
  unfold insertLike
  split
  · exact Nat.le_add_right _ _
  · split
    · exact Nat.le_add_right _ _
    · have happend := append_allots g fun id => { template with id := id, inputs := inputs }
      cases hout : g.append fun id => { template with id := id, inputs := inputs } <;> rw [hout] at happend <;>
        exact happend

lemma nextId_setInputs {id : NodeId} {inputs : List NodeId} (h : g.setInputs id inputs = .ok g') :
    g'.nextId = g.nextId := by
  unfold setInputs at h
  split at h
  · cases h
  · split at h
    · cases h
    · split at h
      · cases h
      · rw [← Except.ok.inj h]
        exact nextId_modify g _ _

end Graph

namespace Attempt

variable {α β : Type} {a : Attempt α} {f : α → Graph → Checked (Attempt β)} {k : Nat}

lemma nextId_ofEdit (edited : Except Refusal (NodeId × Graph)) :
    (ofEdit g edited).graph.nextId = g.nextAfter edited := by
  cases edited <;> rfl

lemma andThen_allots (h : ∀ x, Allots a.graph.nextId k (·.graph.nextId) (f x a.graph)) :
    Allots a.graph.nextId k (·.graph.nextId) (a.andThen f) := by
  unfold andThen
  split
  · exact h _
  · exact Nat.le_add_right _ _

/-- What follows without taking numbers. -/
lemma andThen_keeps (h : ∀ x, ∃ b, f x a.graph = .ok b ∧ b.graph.nextId = a.graph.nextId) :
    ∃ b, a.andThen f = .ok b ∧ b.graph.nextId = a.graph.nextId := by
  unfold andThen
  split
  · exact h _
  · exact ⟨_, rfl, rfl⟩

/-- Changes in place take no numbers. -/
lemma rewire_keeps (g : Graph) (id : NodeId) (inputs : List NodeId) (change : Node → Node) :
    ∃ b : Attempt Unit, (match g.setInputs id inputs with
      | .error e => Except.ok ⟨g, .error (.graph e)⟩
      | .ok g => .ok ⟨g.modify id change, .ok ()⟩ : Checked (Attempt Unit)) = .ok b ∧
      b.graph.nextId = g.nextId := by
  split
  · exact ⟨_, rfl, rfl⟩
  · next hset => exact ⟨_, rfl, (Graph.nextId_modify _ _ _).trans (Graph.nextId_setInputs hset)⟩

end Attempt

lemma ThermalPass.insertCopies_allots (template : Node) (inputs : List NodeId) (parts : Nat) (g : Graph) :
    Allots g.nextId parts (·.graph.nextId) (insertCopies template inputs parts g) := by
  induction parts generalizing g with
  | zero => exact Nat.le_refl _
  | succ parts ih =>
    rw [insertCopies, Nat.add_comm]
    refine (Graph.insertLike_allots g template inputs).bind fun edited _ => ?_
    rw [← Attempt.nextId_ofEdit]
    exact Attempt.andThen_allots fun id => (ih _).andThen fun more => ⟨_, rfl, rfl⟩

/-- A division takes one number for each part. -/
lemma ThermalPass.divide_allots (g : Graph) (n : Node) (load : Float) (parts : Nat) :
    Allots g.nextId parts (·.graph.nextId) (divide r g n load parts) := by
  unfold divide
  refine (insertCopies_allots (part n load parts) n.inputs parts g).andThen fun copies => ?_
  exact Attempt.andThen_keeps fun _ => Attempt.rewire_keeps _ _ _ _

/-- Protection takes two numbers. -/
lemma ProtectionPass.wrapIn_allots (g : Graph) (n : Node) (code : String) (distance : Nat) :
    Allots g.nextId 2 (·.graph.nextId) (wrapIn r g n code distance) := by
  unfold wrapIn
  show Allots g.nextId (1 + 1) _ _
  refine (Graph.addOperation_allots g _ _ _).bind fun encoded _ => ?_
  rw [← Attempt.nextId_ofEdit]
  refine Attempt.andThen_allots fun e => ?_
  dsimp only
  rw [← Graph.nextId_modify]
  refine (Graph.insertLike_allots _ _ _).andThen fun core => ?_
  rw [← Attempt.nextId_ofEdit]
  exact Attempt.andThen_keeps fun _ => Attempt.rewire_keeps _ _ _ _

/-! ### Who takes numbers -/

/-- While nodes are dealt with one is divided, and then so many numbers have been given out. -/
inductive ThermalPass.Allocates (r : Registry) (ceiling : Float) : List NodeId → Graph → Nat → Prop
  | divide {id : NodeId} {rest : List NodeId} {g : Graph} {n : Node} {spec : OpSpec} {load : Float} {parts : Nat} :
      g.node? id = some n → n.op?.bind r.specOf? = some spec → n.attrs.thermal.amount? = some load →
      isHot ceiling n load = true → spec.atomic = false → parts? load ceiling = some parts →
      Allocates r ceiling (id :: rest) g (g.nextId + parts)
  | later {id : NodeId} {rest : List NodeId} {g : Graph} {out : Outcome} {changed : Bool} {count : Nat} :
      step r ceiling g id = .ok out → out.result = .ok changed → Allocates r ceiling rest out.graph count →
      Allocates r ceiling (id :: rest) g count

/-- While nodes are protected one is wrapped, and then so many numbers have been given out. -/
inductive ProtectionPass.Allocates (r : Registry) : List NodeId → Graph → Nat → Prop
  | wrap {id : NodeId} {rest : List NodeId} {g : Graph} {n : Node} {code : String} :
      g.node? id = some n → n.attrs.correction.code? = some code → supportedCodes.contains code = true →
      Allocates r (id :: rest) g (g.nextId + 2)
  | later {id : NodeId} {rest : List NodeId} {g g' : Graph} {count : Nat} :
      wrap r g id = .ok ⟨g', .ok ()⟩ → Allocates r rest g' count → Allocates r (id :: rest) g count

/-- While a pass runs numbers are given out, and then they are so many. -/
def PassId.Allocates (p : PassId) (ctx : PassContext) (g : Graph) (count : Nat) : Prop :=
  match p with
  | .thermal => ∃ ceiling, ctx.thermalCeiling = some ceiling ∧
      ThermalPass.Allocates ctx.registry ceiling g.ids g count
  | .errorCorrection => ProtectionPass.Allocates ctx.registry
      ((g.nodes.filter (ProtectionPass.isTarget ctx.registry)).map (·.id)) g count
  | .coherence | .performance => False

namespace Pipeline

/-- In one round numbers are given out, and then they are so many. -/
inductive RoundAllocates (ctx : PassContext) : List PassId → Graph → Nat → Prop
  | here {p : PassId} {rest : List PassId} {g : Graph} {count : Nat} :
      p.Allocates ctx g count → RoundAllocates ctx (p :: rest) g count
  | later {p : PassId} {rest : List PassId} {g : Graph} {out : Outcome} {changed : Bool} {count : Nat} :
      Guard.run p.pass ctx g = .ok out → out.result = .ok changed → RoundAllocates ctx rest out.graph count →
      RoundAllocates ctx (p :: rest) g count

/-- In some round of at most so many numbers are given out, and then they are so many. -/
inductive Allocates (ctx : PassContext) (ids : List PassId) : Nat → Graph → Nat → Prop
  | here {rounds : Nat} {g : Graph} {count : Nat} :
      RoundAllocates ctx ids g count → Allocates ctx ids (rounds + 1) g count
  | later {rounds : Nat} {g : Graph} {out : Outcome} {count : Nat} :
      runAll ctx (ids.map PassId.pass) g = .ok out → out.result = .ok true →
      Allocates ctx ids rounds out.graph count → Allocates ctx ids (rounds + 1) g count

end Pipeline

/-! ### With enough numbers passes end -/

/-- What passes need of a graph. -/
structure Graph.Workable (g : Graph) : Prop extends g.WellFormed where
  acyclic : g.Acyclic
  moderate : g.Moderate

lemma Moves.moderate (h : Moves r g g') (hg : g.WellFormed) (hlevels : g.Moderate) : g'.Moderate := by
  intro n hn
  obtain ⟨m, hm, heq⟩ := Moves.asks h hg ⟨n, hn, rfl⟩
  exact heq ▸ hlevels m hm

/-- **Moves keep what passes need.** -/
theorem Moves.workable (h : Moves r g g') (hg : g.Workable) : g'.Workable where
  toWellFormed := Moves.wellFormed h hg.toWellFormed
  acyclic := Moves.acyclic h hg.toWellFormed hg.acyclic
  moderate := Moves.moderate h hg.toWellFormed hg.moderate

namespace ThermalPass

variable {ceiling : Float} {id : NodeId} {ids : List NodeId}

lemma exists_step (hroom : ∀ count, Allocates r ceiling [id] g count → count < wordLimit) :
    ∃ out, step r ceiling g id = .ok out := by
  unfold step
  split
  · exact ⟨_, rfl⟩
  · next n hn =>
    split
    · next spec load hspec hload =>
      split
      · exact ⟨_, rfl⟩
      · next hhot =>
        split
        · next parts hparts =>
          obtain ⟨hdivisible, hcount⟩ : spec.atomic = false ∧ parts? load ceiling = some parts := by
            split at hparts
            · cases hparts
            · next hatomic => exact ⟨by simpa using hatomic, hparts⟩
          obtain ⟨a, ha⟩ := (divide_allots (r := r) g n load parts).exists_ok
            (hroom _ (.divide hn hspec hload (by simpa using hhot) hdivisible hcount))
          rw [ha]
          exact ⟨_, rfl⟩
        · split <;> exact ⟨_, rfl⟩
    · exact ⟨_, rfl⟩

lemma exists_steps (hg : g.WellFormed) (hroom : ∀ count, Allocates r ceiling ids g count → count < wordLimit) :
    ∃ out, steps r ceiling ids g = .ok out := by
  induction ids generalizing g with
  | nil => exact ⟨_, rfl⟩
  | cons id rest ih =>
    obtain ⟨first, hfirst⟩ : ∃ out, step r ceiling g id = .ok out := by
      refine exists_step fun count h => ?_
      cases h with
      | divide hn hspec hload hhot hdivisible hcount =>
        exact hroom _ (.divide hn hspec hload hhot hdivisible hcount)
      | later _ _ hnone => cases hnone
    obtain ⟨⟨changed, hresult⟩, hmoves⟩ := (step_moves ceiling hg id).of_ok hfirst
    obtain ⟨more, hmore⟩ := ih (Moves.wellFormed hmoves hg) fun count h => hroom count (.later hfirst hresult h)
    rw [steps, hfirst, Checked.ok_bind, hresult]
    dsimp only
    rw [hmore]
    exact ⟨_, rfl⟩

end ThermalPass

namespace ProtectionPass

variable {id : NodeId} {ids : List NodeId}

lemma exists_wrap (hg : g.Ordered) (hlevels : g.Moderate)
    (hroom : ∀ count, Allocates r [id] g count → count < wordLimit) : ∃ a, wrap r g id = .ok a := by
  unfold wrap
  split
  · exact ⟨_, rfl⟩
  · next n hn =>
    obtain ⟨hmem, -⟩ := (Graph.node?_eq_some_iff hg).1 hn
    obtain ⟨distance, hdistance⟩ := (hlevels n hmem).exists_distance
    rw [hdistance, Checked.ok_bind]
    split
    · next _ hcode =>
      split
      · next hsupported => exact (wrapIn_allots g n _ _).exists_ok (hroom _ (.wrap hn hcode hsupported))
      · exact ⟨_, rfl⟩
    · exact ⟨_, rfl⟩

lemma exists_wrapAll (hg : g.WellFormed) (hlevels : g.Moderate) (htargets : Targets r g ids)
    (hroom : ∀ count, Allocates r ids g count → count < wordLimit) : ∃ a, wrapAll r ids g = .ok a := by
  induction ids generalizing g with
  | nil => exact ⟨_, rfl⟩
  | cons id rest ih =>
    obtain ⟨a, ha⟩ : ∃ a, wrap r g id = .ok a := by
      refine exists_wrap hg.ordered hlevels fun count h => ?_
      cases h with
      | wrap hn hcode hsupported => exact hroom _ (.wrap hn hcode hsupported)
      | later _ hnone => cases hnone
    obtain ⟨n, hn, rfl⟩ := Graph.mem_ids.1 (htargets.present id (List.mem_cons_self ..))
    have htarget := htargets.wanted n hn (List.mem_cons_self ..)
    rw [wrapAll, ha, Checked.ok_bind]
    rcases (wrap_yields hg hn htarget).of_ok ha with ⟨code, distance, rfl⟩ | ⟨code, rfl, -⟩
    · have hmoves : Moves r g (wrapped r g n code distance) := .single (.wrap code distance hn htarget)
      have hrest := htargets.tail.wrapped hg hn (List.nodup_cons.1 htargets.nodup).1 code distance
      exact ih (Moves.wellFormed hmoves hg) (Moves.moderate hmoves hg hlevels) hrest
        fun count h => hroom count (.later ha h)
    · exact ⟨_, rfl⟩

end ProtectionPass

/-- **With enough numbers a pass ends.** -/
theorem PassId.exists_run (p : PassId) (hg : g.Workable)
    (hroom : ∀ count, p.Allocates ⟨r, ceiling⟩ g count → count < wordLimit) :
    ∃ out, p.pass.run ⟨r, ceiling⟩ g = .ok out := by
  cases p with
  | coherence =>
    show ∃ out, CoherencePass.run ⟨r, ceiling⟩ g = .ok out
    unfold CoherencePass.run CoherencePass.mergeAll
    dsimp only
    split
    · exact ⟨_, rfl⟩
    · next merged hmerged =>
      have hmoves := CoherencePass.merge_moves (r := r) hg.toWellFormed
        (CoherencePass.listed_candidates hg.ordered) (CoherencePass.whole_candidates hg.ordered) hmerged
      have hg' := Moves.workable hmoves hg
      obtain ⟨order, horder, -⟩ := Graph.order_of_acyclic hg'.ordered hg'.acyclic
      unfold CoherencePass.markAll
      rw [horder]
      exact ⟨_, rfl⟩
  | thermal =>
    show ∃ out, ThermalPass.run ⟨r, ceiling⟩ g = .ok out
    unfold ThermalPass.run
    split
    · exact ⟨_, rfl⟩
    · next x hx => exact ThermalPass.exists_steps hg.toWellFormed fun count h => hroom count ⟨x, hx, h⟩
  | errorCorrection =>
    show ∃ out, ProtectionPass.run ⟨r, ceiling⟩ g = .ok out
    obtain ⟨a, ha⟩ := ProtectionPass.exists_wrapAll hg.toWellFormed hg.moderate
      (ProtectionPass.targets_all hg.ordered) hroom
    unfold ProtectionPass.run
    dsimp only
    rw [ha]
    exact ⟨_, rfl⟩
  | performance =>
    show ∃ out, PerformancePass.run g = .ok out
    obtain ⟨order, horder, -⟩ := Graph.order_of_acyclic hg.ordered hg.acyclic
    unfold PerformancePass.run PerformancePass.levels Graph.depths
    rw [horder]
    exact ⟨_, rfl⟩

lemma Guard.exists_run (p : PassId) (hg : g.Workable)
    (hroom : ∀ count, p.Allocates ⟨r, ceiling⟩ g count → count < wordLimit) :
    ∃ out, run p.pass ⟨r, ceiling⟩ g = .ok out := by
  obtain ⟨out, hout⟩ := p.exists_run hg hroom
  unfold run
  rw [hout, Checked.ok_bind]
  cases hresult : out.result with
  | error e => exact ⟨_, rfl⟩
  | ok changed =>
    have hmoves := p.run_moves hg.toWellFormed hg.acyclic hout hresult
    have hg' := Moves.workable hmoves hg
    obtain ⟨decision, hdecision⟩ :=
      exists_verify (g := g) hg'.toWellFormed hg'.acyclic p.pass.name p.pass.capabilities
    dsimp only
    rw [hdecision, Checked.ok_bind]
    cases decision <;> exact ⟨_, rfl⟩

namespace Pipeline

variable {ids : List PassId} {rounds : Nat}

/-- With enough numbers a round ends. -/
lemma exists_runAll (hg : g.Workable)
    (hroom : ∀ count, RoundAllocates ⟨r, ceiling⟩ ids g count → count < wordLimit) :
    ∃ out, runAll ⟨r, ceiling⟩ (ids.map PassId.pass) g = .ok out := by
  induction ids generalizing g with
  | nil => exact ⟨_, rfl⟩
  | cons p rest ih =>
    obtain ⟨first, hfirst⟩ := Guard.exists_run p hg fun count h => hroom count (.here h)
    rw [List.map_cons, runAll, hfirst, Checked.ok_bind]
    cases hresult : first.result with
    | error e => exact ⟨_, rfl⟩
    | ok changed =>
      obtain ⟨hrun, -⟩ := Guard.verify_of_run hfirst hresult
      have hmoves := p.run_moves hg.toWellFormed hg.acyclic hrun hresult
      obtain ⟨more, hmore⟩ := ih (Moves.workable hmoves hg) fun count h => hroom count (.later hfirst hresult h)
      dsimp only
      rw [hmore]
      exact ⟨_, rfl⟩

/-- **With enough numbers a pipeline ends**, in whatever number of rounds. -/
theorem exists_iterate (hg : g.Workable)
    (hroom : ∀ count, Allocates ⟨r, ceiling⟩ ids rounds g count → count < wordLimit) :
    ∃ out, iterate ⟨r, ceiling⟩ (ids.map PassId.pass) rounds g = .ok out := by
  induction rounds generalizing g with
  | zero => exact ⟨_, rfl⟩
  | succ rounds ih =>
    obtain ⟨first, hfirst⟩ := exists_runAll hg fun count h => hroom count (.here h)
    rw [iterate, hfirst, Checked.ok_bind]
    cases hresult : first.result with
    | error e => exact ⟨_, rfl⟩
    | ok changed =>
      cases changed with
      | false => exact ⟨_, rfl⟩
      | true =>
        have hmoves := runAll_moves hg.toWellFormed hg.acyclic hfirst hresult
        obtain ⟨more, hmore⟩ := ih (Moves.workable hmoves hg) fun count h => hroom count (.later hfirst hresult h)
        dsimp only
        rw [hmore]
        exact ⟨_, rfl⟩

end Pipeline

/-! ### How many numbers that are -/

namespace Attributes

lemma potential_warned_le (a : Attributes) : (a.mark warnedMark (.flag true)).potential ≤ a.potential := by
  have halarm : (a.mark warnedMark (.flag true)).alarm ≤ a.alarm := by
    unfold alarm
    rw [if_pos hasFlag_mark_self]
    split <;> decide
  unfold potential
  rw [shelter_mark (by decide), division_mark (by decide) (by decide)]
  exact Nat.mul_le_mul_left _ halarm

lemma potential_unmarked {a : Attributes} (h : a.extra = Dict.empty) : a.potential = 528 := by
  unfold potential shelter division alarm hasFlag mark?
  rw [h]
  rfl

end Attributes

namespace Graph

/-- The numbers that have been given out, and those that the potential of the graph can pay for. -/
def reach (g : Graph) : Nat := g.nextId + ThermalPass.maxParts * g.potential

lemma potential_pos (hn : n ∈ g.nodes) : 0 < g.potential := by
  obtain ⟨before, after, hsplit⟩ := List.append_of_mem hn
  have hpos := n.attrs.potential_pos
  rw [potential, hsplit, potentialOf_append, potentialOf_cons]
  omega

/-- A node can pay for its own division. -/
lemma nextId_add_le_reach {k : Nat} (hn : n ∈ g.nodes) (hk : k ≤ ThermalPass.maxParts) :
    g.nextId + k ≤ g.reach := by
  have hpos := Nat.mul_le_mul_left ThermalPass.maxParts (potential_pos hn)
  unfold reach
  omega

lemma reach_le_of_potential_lt (hless : g'.potential < g.potential)
    (hnext : g'.nextId ≤ g.nextId + ThermalPass.maxParts) : g'.reach ≤ g.reach := by
  have hpaid := Nat.mul_le_mul_left ThermalPass.maxParts hless
  unfold reach
  rw [Nat.mul_succ] at hpaid
  omega

lemma reach_le_of_potential_le (hle : g'.potential ≤ g.potential) (hnext : g'.nextId = g.nextId) :
    g'.reach ≤ g.reach := by
  unfold reach
  rw [hnext]
  exact Nat.add_le_add_left (Nat.mul_le_mul_left _ hle) _

lemma length_nodes_le (hg : g.WellFormed) : g.nodes.length ≤ g.nextId := by
  have hsub : g.ids ⊆ List.range g.nextId := fun id hid => List.mem_range.2 (hg.lt_nextId hid)
  have hle := (List.subperm_of_subset hg.ordered.ids_nodup hsub).length_le
  rwa [ids, List.length_map, List.length_range] at hle

/-- Before the first pass the potential of a graph is the same for every node. -/
lemma Unmarked.reach_le (h : g.Unmarked) (hg : g.WellFormed) : g.reach ≤ 33793 * g.nextId := by
  have hconstant : g.nodes.map (·.attrs.potential) = g.nodes.map fun _ => 528 :=
    List.map_congr_left fun n hn => Attributes.potential_unmarked (h n hn)
  have hpotential : g.potential = g.nodes.length * 528 := by
    unfold potential potentialOf
    rw [hconstant, List.map_const', List.sum_replicate_nat]
  have hlength := length_nodes_le hg
  unfold reach
  rw [hpotential, show ThermalPass.maxParts = 64 from rfl]
  omega

end Graph

/-- **Numbers that a move takes are paid for by potential.** -/
theorem Move.reach_le (h : Move r g g') (hg : g.Ordered) : g'.reach ≤ g.reach := by
  cases h with
  | @mark n key value hn hkey =>
    have hgraft := Graph.potential_graft hg hn (Node.marked key value) []
    have hle : (Node.marked key value n).attrs.potential ≤ n.attrs.potential := by
      rcases hkey with rfl | ⟨rfl, rfl⟩
      · exact Attributes.potential_path.le
      · exact Attributes.potential_warned_le n.attrs
    rw [Graph.potentialOf_nil] at hgraft
    exact Graph.reach_le_of_potential_le (by omega) rfl
  | @merge keep dup op hkeep hdup hne hkind hsame hpart =>
    have hdropped := Graph.potential_merged hg hdup keep.id
    exact Graph.reach_le_of_potential_le (by omega) rfl
  | divide load parts hn hkind hpart hwhole hparts =>
    refine Graph.reach_le_of_potential_lt (ThermalPass.potential_divided hg hn hpart hwhole hparts) ?_
    show g.nextId + (ThermalPass.shares _ load parts g.nextId).length ≤ _
    rw [ThermalPass.shares, List.length_map, List.length_range']
    exact Nat.add_le_add_left hparts _
  | wrap code distance hn htarget =>
    have hflag := (ProtectionPass.isTarget_spec htarget).1
    refine Graph.reach_le_of_potential_lt (ProtectionPass.potential_wrapped hg hn hflag code distance) ?_
    exact Nat.add_le_add_left (by decide : 2 ≤ ThermalPass.maxParts) _
  | regroup hints => exact Nat.le_refl _

lemma Moves.reach_le (h : Moves r g g') (hg : g.WellFormed) : g'.reach ≤ g.reach := by
  induction h with
  | refl => exact Nat.le_refl _
  | tail hchain hstep ih => exact Nat.le_trans (hstep.reach_le (Moves.wellFormed hchain hg).ordered) ih

lemma ThermalPass.Allocates.le_reach {ceiling : Float} {ids : List NodeId} {count : Nat}
    (h : Allocates r ceiling ids g count) (hg : g.WellFormed) : count ≤ g.reach := by
  induction h with
  | divide hn hspec hload hhot hdivisible hcount =>
    obtain ⟨hmem, -⟩ := (Graph.node?_eq_some_iff hg.ordered).1 hn
    exact Graph.nextId_add_le_reach hmem (parts_le hcount)
  | later hstep hresult hrest ih =>
    obtain ⟨-, hmoves⟩ := (step_moves ceiling hg _).of_ok hstep
    exact Nat.le_trans (ih (Moves.wellFormed hmoves hg)) (Moves.reach_le hmoves hg)

lemma ProtectionPass.Allocates.le_reach {ids : List NodeId} {count : Nat} (h : Allocates r ids g count)
    (hg : g.WellFormed) (htargets : Targets r g ids) : count ≤ g.reach := by
  induction h with
  | wrap hn hcode hsupported =>
    obtain ⟨hmem, -⟩ := (Graph.node?_eq_some_iff hg.ordered).1 hn
    exact Graph.nextId_add_le_reach hmem (by decide)
  | later hwrap hrest ih =>
    obtain ⟨n, hn, rfl⟩ := Graph.mem_ids.1 (htargets.present _ (List.mem_cons_self ..))
    have htarget := htargets.wanted n hn (List.mem_cons_self ..)
    rcases (wrap_yields hg hn htarget).of_ok hwrap with ⟨code, distance, heq⟩ | ⟨code, heq, -⟩
    · obtain rfl := congrArg Attempt.graph heq
      have hmoves : Moves r _ (wrapped r _ n code distance) := .single (.wrap code distance hn htarget)
      have hrest' := htargets.tail.wrapped hg hn (List.nodup_cons.1 htargets.nodup).1 code distance
      exact Nat.le_trans (ih (Moves.wellFormed hmoves hg) hrest') (Moves.reach_le hmoves hg)
    · cases congrArg Attempt.result heq

lemma PassId.Allocates.le_reach {p : PassId} {count : Nat} (h : p.Allocates ⟨r, ceiling⟩ g count)
    (hg : g.WellFormed) : count ≤ g.reach := by
  cases p with
  | coherence | performance => exact h.elim
  | thermal =>
    obtain ⟨x, -, h⟩ := h
    exact ThermalPass.Allocates.le_reach h hg
  | errorCorrection => exact ProtectionPass.Allocates.le_reach h hg (ProtectionPass.targets_all hg.ordered)

namespace Pipeline

variable {ids : List PassId} {rounds count : Nat}

lemma RoundAllocates.le_reach (h : RoundAllocates ⟨r, ceiling⟩ ids g count) (hg : g.WellFormed) (ha : g.Acyclic) :
    count ≤ g.reach := by
  induction h with
  | here h => exact h.le_reach hg
  | later hfirst hresult hrest ih =>
    obtain ⟨hrun, -⟩ := Guard.verify_of_run hfirst hresult
    have hmoves := PassId.run_moves hg ha _ hrun hresult
    exact Nat.le_trans (ih (Moves.wellFormed hmoves hg) (Moves.acyclic hmoves hg ha)) (Moves.reach_le hmoves hg)

/-- **No more numbers are given out than the graph has given out and its potential can pay for.** -/
theorem Allocates.le_reach (h : Allocates ⟨r, ceiling⟩ ids rounds g count) (hg : g.WellFormed) (ha : g.Acyclic) :
    count ≤ g.reach := by
  induction h with
  | here h => exact h.le_reach hg ha
  | later hfirst hresult hrest ih =>
    have hmoves := runAll_moves hg ha hfirst hresult
    exact Nat.le_trans (ih (Moves.wellFormed hmoves hg) (Moves.acyclic hmoves hg ha)) (Moves.reach_le hmoves hg)

end Pipeline

end Waveflow
