import Waveflow.Proofs.Lowering.Calls
import Waveflow.Proofs.Operation.Registry
import Waveflow.Proofs.Pass.Moves
import Waveflow.Proofs.Pass.Potential
import Waveflow.Proofs.Requirements.Skeleton

/-!
# Divisions stay intact

A divided node is the join of its parts, and all parts are equal, so they look like the same computation done several
times.  What keeps them apart are their marks: a part is never merged away and never divided again.  A part may be
protected; then the decoding takes over its number and its mark.  The join itself is of an internal kind and is not
protected.  So in every graph that moves lead to, what is marked as divided still is the join of as many parts as the
mark says (`Move.partitioned`), provided that this is so in the first graph; and before the first pass nothing is
marked.
-/

namespace Waveflow

open Checked (Yields)

variable {r : Registry} {g g' : Graph} {n : Node} {value : AttrValue}

/-! ### Divided nodes -/

/-- The number is that of a part. -/
def Graph.IsPart (g : Graph) (id : NodeId) : Prop := ∃ m ∈ g.nodes, m.id = id ∧ m.attrs.hasFlag partMark = true

/-- The node is the join of parts, and the value tells how many there are. -/
structure Graph.Joins (g : Graph) (n : Node) (value : AttrValue) : Prop where
  kind : n.kind = .operation .join
  count : value = .number n.inputs.length.toFloat
  few : n.inputs.length ≤ ThermalPass.maxParts
  nodup : n.inputs.Nodup
  parts : ∀ i ∈ n.inputs, g.IsPart i

/-- Every node that is marked as divided is the join of as many parts as the mark says. -/
def Graph.Partitioned (g : Graph) : Prop :=
  ∀ n ∈ g.nodes, ∀ value, n.attrs.mark? dividedMark = some value → g.Joins n value

/-! ### Moves -/

lemma Graph.Joins.of_parts (h : g.Joins n value) (hparts : ∀ i, g.IsPart i → g'.IsPart i) : g'.Joins n value :=
  ⟨h.kind, h.count, h.few, h.nodup, fun i hi => hparts i (h.parts i hi)⟩

namespace Graph.Graftable

variable {f : Node → Node} {fresh : List Node}

/-- Parts stay parts where the changed node keeps the mark. -/
lemma isPart {i : NodeId} (h : g.Graftable n f fresh) (hg : g.Ordered)
    (hkeeps : n.attrs.hasFlag partMark = true → (f n).attrs.hasFlag partMark = true) (hi : g.IsPart i) :
    (g.graft n.id f fresh).IsPart i := by
  obtain ⟨m, hm, rfl, hflag⟩ := hi
  by_cases hid : m.id = n.id
  · obtain rfl := hg.eq_of_id_eq hm h.mem hid
    exact ⟨f m, (h.mem_iff hg).2 (.inr (.inl rfl)), h.id, hkeeps hflag⟩
  · exact ⟨m, (h.mem_iff hg).2 (.inl ⟨hm, hid⟩), rfl, hflag⟩

/-- A graft keeps divisions intact if the changed node is marked as divided only as a join of parts, and the new nodes
are not marked so. -/
lemma partitioned (h : g.Graftable n f fresh) (hg : g.Ordered) (hpartitioned : g.Partitioned)
    (hkeeps : n.attrs.hasFlag partMark = true → (f n).attrs.hasFlag partMark = true)
    (hchanged : ∀ value, (f n).attrs.mark? dividedMark = some value → (g.graft n.id f fresh).Joins (f n) value)
    (hadded : ∀ m ∈ fresh, m.attrs.mark? dividedMark = none) : (g.graft n.id f fresh).Partitioned := by
  intro m hm value hvalue
  rcases (h.mem_iff hg).1 hm with ⟨hm, -⟩ | rfl | hm
  · exact (hpartitioned m hm value hvalue).of_parts fun i hi => h.isPart hg hkeeps hi
  · exact hchanged value hvalue
  · rw [hadded m hm] at hvalue
    cases hvalue

end Graph.Graftable

/-- A divided node is not to be protected, as its kind is internal. -/
lemma Graph.Partitioned.mark?_of_isTarget (h : g.Partitioned) (hr : r.Extends) (hn : n ∈ g.nodes)
    (htarget : ProtectionPass.isTarget r n = true) : n.attrs.mark? dividedMark = none := by
  obtain ⟨-, -, op, spec, hkind, hspec, hinternal⟩ := ProtectionPass.isTarget_spec htarget
  obtain ⟨join, hjoin, hinternal'⟩ := hr.specOf?_join
  cases hmark : n.attrs.mark? dividedMark with
  | none => rfl
  | some value =>
    have hop : op = .join := NodeKind.operation.inj (hkind.symm.trans (h n hn value hmark).kind)
    rw [hop, hjoin] at hspec
    rw [Option.some.inj hspec, hinternal] at hinternal'
    cases hinternal'

/-- **A move keeps divisions intact.** -/
theorem Move.partitioned (hr : r.Extends) (h : Move r g g') (hg : g.WellFormed) (hpartitioned : g.Partitioned) :
    g'.Partitioned := by
  cases h with
  | @mark n key value hn hkey =>
    have hpart : partMark ≠ key := by rcases hkey with rfl | ⟨rfl, -⟩ <;> decide
    have hdivided : dividedMark ≠ key := by rcases hkey with rfl | ⟨rfl, -⟩ <;> decide
    have hkeeps : n.attrs.hasFlag partMark = true → (Node.marked key value n).attrs.hasFlag partMark = true :=
      fun hflag => (Attributes.hasFlag_mark_of_ne hpart).trans hflag
    have hgraft : g.Graftable n (Node.marked key value) [] := graftable_mark hg hn
    refine hgraft.partitioned hg.ordered hpartitioned hkeeps (fun v hv => ?_) fun _ hm => absurd hm List.not_mem_nil
    have hold := hpartitioned n hn v ((Attributes.mark?_mark_of_ne hdivided).symm.trans hv)
    exact ⟨hold.kind, hold.count, hold.few, hold.nodup,
      fun i hi => hgraft.isPart hg.ordered hkeeps (hold.parts i hi)⟩
  | @merge keep dup op hkeep hdup hne hkind hsame hpart =>
    -- the node that is gone was not a part, so no join has lost an input
    have hother : ∀ i, g.IsPart i → i ≠ dup.id := by
      rintro _ ⟨m, hm, rfl, hflag⟩ hid
      rw [hg.ordered.eq_of_id_eq hm hdup hid, hpart] at hflag
      cases hflag
    intro _ hmerged value hvalue
    obtain ⟨m, hm, -, rfl⟩ := Graph.mem_merged.1 hmerged
    have hold := hpartitioned m hm value hvalue
    have hinputs : (Graph.redirected dup.id keep.id m).inputs = m.inputs := by
      show m.inputs.map _ = m.inputs
      conv_rhs => rw [← List.map_id m.inputs]
      exact List.map_congr_left fun i hi => if_neg (hother i (hold.parts i hi))
    refine ⟨hold.kind, ?_, ?_, ?_, ?_⟩
    · rw [hinputs]
      exact hold.count
    · rw [hinputs]
      exact hold.few
    · rw [hinputs]
      exact hold.nodup
    · rw [hinputs]
      intro i hi
      obtain ⟨x, hx, rfl, hflag⟩ := hold.parts i hi
      exact ⟨_, Graph.mem_merged.2 ⟨x, hx, hother _ ⟨x, hx, rfl, hflag⟩, rfl⟩, rfl, hflag⟩
  | @divide n op load parts hn hkind hpart hwhole hparts =>
    have hgraft : g.Graftable n (ThermalPass.gathered r parts g.nextId) (ThermalPass.shares n load parts g.nextId) :=
      graftable_divide hg hn
    have hcount : (ThermalPass.gathered r parts g.nextId n).inputs.length = parts := List.length_range'
    refine hgraft.partitioned hg.ordered hpartitioned (fun hflag => ?_) (fun value hvalue => ?_) fun m hm => ?_
    · rw [hpart] at hflag
      cases hflag
    · have hmark : some (AttrValue.number parts.toFloat) = some value :=
        Attributes.mark?_mark_self.symm.trans hvalue
      refine ⟨rfl, ?_, ?_, List.nodup_range', fun i hi => ?_⟩
      · rw [hcount]
        exact (Option.some.inj hmark).symm
      · rwa [hcount]
      · refine ⟨{ ThermalPass.part n load parts with id := i, inputs := n.inputs }, ?_, rfl,
          Attributes.hasFlag_mark_self⟩
        exact (hgraft.mem_iff hg.ordered).2 (.inr (.inr (List.mem_map_of_mem hi)))
    · obtain ⟨id, -, rfl⟩ := List.mem_map.1 hm
      exact (Attributes.mark?_mark_of_ne (by decide)).trans hwhole
  | @wrap n code distance hn htarget =>
    have hwhole := hpartitioned.mark?_of_isTarget hr hn htarget
    have hsealed : ∀ thermal : Budget,
        (ProtectionPass.sealed { n.attrs with thermal := thermal }).mark? dividedMark = none :=
      fun thermal => (Attributes.mark?_mark_of_ne (by decide)).trans hwhole
    refine (graftable_wrap hg hn).partitioned hg.ordered hpartitioned (fun hflag => ?_) (fun value hvalue => ?_)
      fun m hm => ?_
    · exact (Attributes.hasFlag_mark_of_ne (by decide)).trans hflag
    · cases (hsealed _).symm.trans hvalue
    · simp only [List.mem_cons, List.not_mem_nil, or_false] at hm
      rcases hm with rfl | rfl
      · exact hsealed _
      · exact hsealed n.attrs.thermal
  | regroup hints => exact fun n hn value hvalue => (hpartitioned n hn value hvalue).of_parts fun _ hi => hi

lemma Moves.partitioned (hr : r.Extends) (h : Moves r g g') (hg : g.WellFormed) (hpartitioned : g.Partitioned) :
    g'.Partitioned := by
  induction h with
  | refl => exact hpartitioned
  | tail hchain hstep ih => exact hstep.partitioned hr (Moves.wellFormed hchain hg) ih

/-! ### Before the first pass -/

/-- No node has a mark. -/
def Graph.Unmarked (g : Graph) : Prop := ∀ n ∈ g.nodes, n.attrs.extra = Dict.empty

lemma Graph.Unmarked.of_skeleton (h : g.Unmarked) (hkeeps : g'.skeleton = g.skeleton) : g'.Unmarked := by
  have hnodes : g'.nodes.map Node.skeleton = g.nodes.map Node.skeleton := congrArg Graph.nodes hkeeps
  intro m hm
  obtain ⟨n, hn, hmn⟩ := List.mem_map.1 (hnodes ▸ List.mem_map_of_mem hm)
  exact (congrArg (·.attrs.extra) hmn).symm.trans (h n hn)

lemma Graph.Unmarked.partitioned (h : g.Unmarked) : g.Partitioned := by
  intro n hn value hvalue
  rw [Attributes.mark?, h n hn] at hvalue
  cases hvalue

namespace Requirements

variable {o : Options}

/-- Annotation leaves no marks. -/
lemma annotate_unmarked (hg : g.Ordered) (ha : g.Acyclic) (hnone : g.Unmarked) (sink : Diagnostics) :
    Yields (annotate r o g sink) fun out => out.1.Unmarked := by
  have hyields := annotate_yields (r := r) (o := o) hg ha sink
  cases hrun : annotate r o g sink with
  | error f =>
    rw [hrun] at hyields
    exact hyields
  | ok out => exact hnone.of_skeleton (skeleton_of_annotate hrun)

end Requirements

/-! ### The optimizer -/

namespace Pipeline

variable {p : Pipeline} {ids : List PassId} {o : Options} {program : Program} {built : Graph}

/-- **No pass undoes or corrupts a division.**  Let a program be lowered and annotated, and let a pipeline of the four
passes, under any ceiling and in any number of rounds, make a graph of the result, under a registry that extends the
usual one.  Every node of the graph that is marked as divided is a join, its inputs are as many as the mark says and
all different, and each of them is a part. -/
theorem optimize_keeps_divisions {r₀ r₁ : Registry} {name : String}
    {sink₀ sink₁ sink₂ sink₃ sink₄ sink₅ : Diagnostics} {annotated : Except StageFailed Unit}
    (hr : r.Extends) (hpasses : p.passes = ids.map PassId.pass)
    (hbuild : Lowering.build r₀ name program sink₀ = .ok (.ok built, sink₁))
    (hannotate : Requirements.annotate r₁ o built sink₂ = .ok (g, annotated, sink₃))
    (hok : p.optimize r g sink₄ = .ok (.ok g', sink₅)) :
    ∀ n ∈ g'.nodes, ∀ value, n.attrs.mark? dividedMark = some value → g'.Joins n value := by
  obtain ⟨⟨hbuilt, -⟩, -⟩ := (Lowering.build_yields (P := fun _ => True) Lowering.silent (fun _ => ()) r₀ name
    (fun _ _ _ _ _ _ => trivial) sink₀).of_ok hbuild
  have hordered := hbuilt.wellFormed.ordered
  have hnone : built.Unmarked := by
    intro n hn
    rw [((Lowering.operations_of_build hbuild).1 n hn).1]
    rfl
  obtain ⟨hother, -⟩ := (Requirements.annotate_yields hordered hbuilt.acyclic sink₂).of_ok hannotate
  have hnone' : g.Unmarked := (Requirements.annotate_unmarked hordered hbuilt.acyclic hnone sink₂).of_ok hannotate
  have hg := hother.wellFormed hbuilt.wellFormed
  exact Moves.partitioned hr (optimize_moves hpasses hg (hother.acyclic hbuilt.acyclic) hok) hg hnone'.partitioned

/-! ### Parts that could be merged and are protected -/

/-- A hot operation that asks for protection. -/
def furnace : Program where
  declarations := [⟨.input, "a", .scalar, .nowhere⟩, ⟨.output, "y", .scalar, .nowhere⟩]
  statements :=
    [.assignment "y" ⟨"split", [⟨none, .identifier "a", .nowhere⟩,
      ⟨some "correction", .literal (.text "fault_tolerant"), .nowhere⟩,
      ⟨some "thermal", .literal (.number 5.0), .nowhere⟩], .nowhere⟩ .nowhere]

/-- Divide, merge and protect, twice. -/
def cooling : Pipeline :=
  ofPasses ([PassId.thermal, .coherence, .errorCorrection].map PassId.pass) true 2 (some 2.0)

/-- A program is lowered, annotated and optimized, and there is a divided node with so many inputs. -/
def divides (p : Pipeline) (o : Options) (program : Program) (count : Nat) : Bool :=
  match Lowering.build .builtin "divides" program [] with
  | .ok (.ok built, sink) =>
    match Requirements.annotate .builtin o built sink with
    | .ok (g, _, sink) =>
      match p.optimize .builtin g sink with
      | .ok (.ok g', _) =>
        g'.nodes.any fun n => (n.attrs.mark? dividedMark).isSome && n.inputs.length == count
      | _ => false
    | .error _ => false
  | _ => false

theorem optimize_keeps_divisions_furnace : ∃ built g g' annotated sink sink' sink'',
    Lowering.build .builtin "divides" furnace [] = .ok (.ok built, sink) ∧
    Requirements.annotate .builtin .standard built sink = .ok (g, annotated, sink') ∧
    cooling.optimize .builtin g sink' = .ok (.ok g', sink'') ∧
    ∃ n ∈ g'.nodes, n.attrs.mark? dividedMark = some (.number (Nat.toFloat 3)) ∧ n.kind = .operation .join ∧
      n.inputs.Nodup ∧ ∀ i ∈ n.inputs, g'.IsPart i := by
  have hdivides : divides cooling .standard furnace 3 = true := by decide +kernel
  unfold divides at hdivides
  split at hdivides
  · next built sink hbuild =>
    split at hdivides
    · next g annotated sink' hannotate =>
      split at hdivides
      · next g' sink'' hrun =>
        obtain ⟨n, hn, hmarked⟩ := List.any_eq_true.1 hdivides
        obtain ⟨hsome, hcount⟩ := Bool.and_eq_true_iff.1 hmarked
        obtain ⟨value, hvalue⟩ := Option.isSome_iff_exists.1 hsome
        have hbuiltin : Registry.builtin.Extends := ⟨[], rfl⟩
        have hjoins := optimize_keeps_divisions hbuiltin rfl hbuild hannotate hrun n hn value hvalue
        refine ⟨built, g, g', annotated, sink, sink', sink'', hbuild, hannotate, hrun, n, hn, ?_,
          hjoins.kind, hjoins.nodup, hjoins.parts⟩
        rw [hvalue, hjoins.count, beq_iff_eq.1 hcount]
      · cases hdivides
    · cases hdivides
  · cases hdivides

end Pipeline

end Waveflow
