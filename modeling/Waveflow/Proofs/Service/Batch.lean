import Waveflow.Service.Batch
import Mathlib.Data.List.Forall2
import Mathlib.Data.List.Perm.Basic

/-!
# A batch answers every request

The tasks of a batch take their permits, end and are joined in any order.  Whatever the order, a batch that is not over
can go on, no course is longer than three events a task, and once a batch is over the items are those of the requests,
one each and in their order.  Without a time limit the item of a request is what its own compilation comes to.

A batch starts unless its service asks for more permits than tasks can share; then no request is answered.

`start_cases` says how a batch starts, `step_cases` what an event can do, `Invariant` what holds between two events.
-/

namespace Waveflow

/-- The item answers the request: with the result of compiling its source, or, if this very compilation could not be
brought to its end, with the fault. -/
inductive BatchItem.Answers (c : Compiler) (r : Request) : BatchItem → Prop
  | result {result : CompileResult} : c.compile r.source = .ok result → Answers c r ⟨r.name, .ok result⟩
  | fault {cause : Fault} : c.compile r.source = .error cause → Answers c r ⟨r.name, .error (.task cause)⟩

namespace Batch

variable {s : Service} {requests : List Request} {b b' : Batch} {e : BatchEvent} {events : List BatchEvent}

/-! ### Events -/

/-- The answer is one that the task of the request can leave: what its compilation comes to, or, under a time limit,
that the limit is passed. -/
def Leaves (s : Service) (r : Request) (a : Answer) : Prop :=
  a = s.compile r ∨ ∃ ms, s.settings.timeoutMs = some ms ∧ a = .error (.timeout ms)

/-- A batch starts with all its permits free and all its tasks waiting, unless there are too many permits. -/
lemma start_cases (s : Service) (requests : List Request) :
    (permitLimit < s.settings.maxConcurrency ∧ start s requests = .error .permits) ∨
    (s.settings.maxConcurrency ≤ permitLimit ∧ start s requests = .ok ⟨max s.settings.maxConcurrency 1,
      List.range requests.length, [], [], requests.map fun _ => none⟩) := by
  have hone : 1 ≤ permitLimit := by decide
  by_cases hmany : permitLimit < s.settings.maxConcurrency
  · exact .inl ⟨hmany, if_pos (by omega)⟩
  · exact .inr ⟨Nat.not_lt.1 hmany, if_neg (by omega)⟩

/-- The state after a task has taken a permit. -/
def afterStart (b : Batch) (i : Nat) : Batch :=
  { b with permits := b.permits - 1, waiting := b.waiting.erase i, running := i :: b.running }

/-- The state after the answer of a task has been put down. -/
def afterJoin (b : Batch) (i : Nat) (a : Answer) : Batch :=
  { b with ended := b.ended.filter (fun e => e.1 != i), answers := b.answers.set i (some a) }

/-- What an event can do: a waiting task takes a free permit, a running one leaves an answer of its own, or the
answer of one that has ended is put down. -/
lemma step_cases (h : step s requests b e = some b') :
    (∃ i ∈ b.waiting, 0 < b.permits ∧ b' = b.afterStart i) ∨
    (∃ i ∈ b.running, ∃ a, (∀ r, requests[i]? = some r → Leaves s r a) ∧ b' = b.release i a) ∨
    ∃ i a, (i, a) ∈ b.ended ∧ b' = b.afterJoin i a := by
  cases e with
  | start i =>
    simp only [step, Option.ite_none_right_eq_some, Bool.and_eq_true, List.contains_iff_mem, decide_eq_true_eq] at h
    obtain ⟨⟨hi, hfree⟩, heq⟩ := h
    exact .inl ⟨i, hi, hfree, (Option.some.inj heq).symm⟩
  | finish i =>
    simp only [step, Option.ite_none_right_eq_some, List.contains_iff_mem, Option.map_eq_some_iff] at h
    obtain ⟨hi, r, hr, rfl⟩ := h
    refine .inr (.inl ⟨i, hi, s.compile r, fun r' hr' => .inl ?_, rfl⟩)
    rw [Option.some.inj (hr.symm.trans hr')]
  | expire i =>
    simp only [step, Option.ite_none_right_eq_some, List.contains_iff_mem, Option.map_eq_some_iff] at h
    obtain ⟨hi, ms, hms, rfl⟩ := h
    exact .inr (.inl ⟨i, hi, _, fun _ _ => .inr ⟨ms, hms, rfl⟩, rfl⟩)
  | join i =>
    simp only [step, Option.map_eq_some_iff] at h
    obtain ⟨⟨j, a⟩, hfind, rfl⟩ := h
    obtain rfl : j = i := by simpa using List.find?_some hfind
    exact .inr (.inr ⟨j, a, List.mem_of_find?_eq_some hfind, rfl⟩)

/-! ### The tasks that are left -/

/-- The tasks that are not joined yet. -/
def unjoined (b : Batch) : List Nat := b.waiting ++ b.running ++ b.ended.map (·.1)

/-- The number of events that are left. -/
def remaining (b : Batch) : Nat := 3 * b.waiting.length + 2 * b.running.length + b.ended.length

lemma unjoined_afterStart {i : Nat} (hi : i ∈ b.waiting) : (b.afterStart i).unjoined.Perm b.unjoined := by
  have hmove : (b.waiting.erase i ++ i :: b.running).Perm (b.waiting ++ b.running) :=
    List.perm_middle.trans ((List.perm_cons_erase hi).symm.append_right b.running)
  exact hmove.append_right (b.ended.map (·.1))

lemma unjoined_release {i : Nat} (a : Answer) (hi : i ∈ b.running) : (b.release i a).unjoined.Perm b.unjoined := by
  have hmove : (b.running.erase i ++ i :: b.ended.map (·.1)).Perm (b.running ++ b.ended.map (·.1)) :=
    List.perm_middle.trans ((List.perm_cons_erase hi).symm.append_right _)
  simpa [unjoined, release] using hmove.append_left b.waiting

lemma unjoined_afterJoin_sublist (i : Nat) (a : Answer) : (b.afterJoin i a).unjoined.Sublist b.unjoined :=
  (List.Sublist.refl _).append (List.filter_sublist.map _)

lemma mem_unjoined_afterJoin {i j : Nat} (a : Answer) (hj : j ∈ b.unjoined) (hne : j ≠ i) :
    j ∈ (b.afterJoin i a).unjoined := by
  simp only [unjoined, afterJoin, List.mem_append, List.mem_map, List.mem_filter] at hj ⊢
  rcases hj with hj | ⟨e, he, rfl⟩
  · exact .inl hj
  · exact .inr ⟨e, ⟨he, by simpa using hne⟩, rfl⟩

lemma mem_unjoined_of_ended {i : Nat} {a : Answer} (h : (i, a) ∈ b.ended) : i ∈ b.unjoined :=
  List.mem_append_right _ (List.mem_map_of_mem (f := (·.1)) h)

/-- An event is used up. -/
lemma remaining_lt (h : step s requests b e = some b') : b'.remaining < b.remaining := by
  rcases step_cases h with ⟨i, hi, -, rfl⟩ | ⟨i, hi, a, -, rfl⟩ | ⟨i, a, hi, rfl⟩
  · have hlen := List.length_erase_add_one hi
    simp only [remaining, afterStart, List.length_cons]
    omega
  · have hlen := List.length_erase_add_one hi
    simp only [remaining, release, List.length_cons]
    omega
  · have hlen : (b.ended.filter (fun e => e.1 != i)).length < b.ended.length :=
      List.length_filter_lt_length_iff_exists.2 ⟨(i, a), hi, by simp⟩
    simp only [remaining, afterJoin]
    omega

/-! ### What holds between two events -/

/-- Permits are neither lost nor made, every task is somewhere once, and what has been put down for a request is
what its own task has left. -/
structure Invariant (s : Service) (requests : List Request) (b : Batch) : Prop where
  permits : b.permits + b.running.length = max s.settings.maxConcurrency 1
  nodup : b.unjoined.Nodup
  bounded : ∀ i ∈ b.unjoined, i < requests.length
  ended : ∀ i a, (i, a) ∈ b.ended → ∀ r, requests[i]? = some r → Leaves s r a
  length : b.answers.length = requests.length
  answered : ∀ i r, requests[i]? = some r → i ∉ b.unjoined → ∃ a, b.answers[i]? = some (some a) ∧
      Leaves s r a

/-- A batch that starts has three events for every request before it. -/
lemma invariant_start (h : start s requests = .ok b) :
    Invariant s requests b ∧ b.remaining = 3 * requests.length := by
  obtain ⟨-, herror⟩ | ⟨-, hok⟩ := start_cases s requests
  · cases herror.symm.trans h
  · obtain rfl := Except.ok.inj (hok.symm.trans h)
    refine ⟨⟨by simp, by simpa [unjoined] using List.nodup_range, fun i hi => by simpa [unjoined] using hi,
      fun i a hi => absurd hi List.not_mem_nil, by simp, fun i r hr hi => ?_⟩, by simp [remaining]⟩
    have hlt : i < requests.length := (List.getElem?_eq_some_iff.1 hr).1
    exact absurd (by simpa [unjoined] using hlt) hi

theorem Invariant.step (inv : Invariant s requests b) (h : Batch.step s requests b e = some b') :
    Invariant s requests b' := by
  rcases step_cases h with ⟨i, hi, hfree, rfl⟩ | ⟨i, hi, a, hleaves, rfl⟩ | ⟨i, a, hi, rfl⟩
  · have hperm := unjoined_afterStart hi
    refine ⟨?_, hperm.nodup_iff.2 inv.nodup, fun j hj => inv.bounded j (hperm.mem_iff.1 hj), inv.ended, inv.length,
      fun j r hr hj => inv.answered j r hr (mt hperm.mem_iff.2 hj)⟩
    have hpermits := inv.permits
    simp only [afterStart, List.length_cons]
    omega
  · have hperm := unjoined_release a hi
    refine ⟨?_, hperm.nodup_iff.2 inv.nodup, fun j hj => inv.bounded j (hperm.mem_iff.1 hj), ?_, inv.length,
      fun j r hr hj => inv.answered j r hr (mt hperm.mem_iff.2 hj)⟩
    · have hpermits := inv.permits
      have hlen := List.length_erase_add_one hi
      simp only [release]
      omega
    · intro j c hj r hr
      rcases List.mem_cons.1 hj with heq | hj
      · obtain ⟨rfl, rfl⟩ := Prod.mk.inj heq
        exact hleaves r hr
      · exact inv.ended j c hj r hr
  · have hsub := unjoined_afterJoin_sublist (b := b) i a
    refine ⟨inv.permits, inv.nodup.sublist hsub, fun j hj => inv.bounded j (hsub.subset hj),
      fun j c hj => inv.ended j c (List.mem_of_mem_filter hj), by simpa [afterJoin] using inv.length, ?_⟩
    intro j r hr hj
    by_cases heq : j = i
    · subst heq
      have hlt : j < b.answers.length := inv.length ▸ inv.bounded j (mem_unjoined_of_ended hi)
      exact ⟨a, by simp [afterJoin, hlt], inv.ended j a hi r hr⟩
    · obtain ⟨c, hc, hleaves⟩ := inv.answered j r hr fun hmem => hj (mem_unjoined_afterJoin a hmem heq)
      exact ⟨c, by simpa [afterJoin, List.getElem?_set_ne (Ne.symm heq)] using hc, hleaves⟩

/-- A course keeps what holds between two events and uses its events up. -/
theorem Invariant.run (inv : Invariant s requests b) (h : Batch.run s requests b events = some b') :
    Invariant s requests b' ∧ events.length + b'.remaining ≤ b.remaining := by
  induction events generalizing b with
  | nil =>
    obtain rfl := Option.some.inj h
    exact ⟨inv, by simp⟩
  | cons e rest ih =>
    simp only [Batch.run, List.foldlM_cons, Option.bind_eq_bind, Option.bind_eq_some_iff] at h
    obtain ⟨c, hstep, hrest⟩ := h
    obtain ⟨hinv, hle⟩ := ih (inv.step hstep) hrest
    have hlt := remaining_lt hstep
    exact ⟨hinv, by simp only [List.length_cons]; omega⟩

/-! ### Batches come to their end -/

lemma isOver_iff : b.isOver = true ↔ b.unjoined = [] := by
  simp [isOver, unjoined, and_assoc]

/-- A batch that is not over can go on: an answer can be put down, a running task can end, or else all permits are free
and a waiting task can take one. -/
theorem Invariant.exists_step (inv : Invariant s requests b) (hopen : b.isOver = false) :
    ∃ e b', Batch.step s requests b e = some b' := by
  cases hended : b.ended with
  | cons e rest =>
    exact ⟨.join e.1, _, by rw [Batch.step, hended, List.find?_cons_of_pos (by simp)]; rfl⟩
  | nil =>
  cases hrunning : b.running with
  | cons i rest =>
    have hlt : i < requests.length := inv.bounded i (by simp [unjoined, hrunning])
    exact ⟨.finish i, b.release i (s.compile requests[i]), by simp [Batch.step, hrunning, hlt]⟩
  | nil =>
  cases hwaiting : b.waiting with
  | cons i rest =>
    have hpermits := inv.permits
    have hfree : 0 < b.permits := by
      rw [hrunning] at hpermits
      simp only [List.length_nil] at hpermits
      omega
    exact ⟨.start i, b.afterStart i, by simp [Batch.step, afterStart, hwaiting, hfree]⟩
  | nil => simp [isOver, hended, hrunning, hwaiting] at hopen

lemma answers_of_leaves {r : Request} {a : Answer} (hlimit : s.settings.timeoutMs = none) (h : Leaves s r a) :
    BatchItem.Answers s.compiler r ⟨r.name, a⟩ := by
  rcases h with rfl | ⟨ms, hms, -⟩
  · rw [Service.compile]
    split
    · next result hok => exact .result hok
    · next cause hfault => exact .fault hfault
  · rw [hlimit] at hms
    cases hms

/-- The items of a batch that is over answer the requests one by one. -/
theorem Invariant.items_answer (inv : Invariant s requests b) (hlimit : s.settings.timeoutMs = none)
    (hover : b.isOver = true) : List.Forall₂ (BatchItem.Answers s.compiler) requests (b.items requests) := by
  refine List.forall₂_iff_get.2 ⟨by simp [items, inv.length], fun i hi hi' => ?_⟩
  have hr : requests[i]? = some requests[i] := List.getElem?_eq_getElem hi
  have hjoined : i ∉ b.unjoined := by simp [isOver_iff.1 hover]
  obtain ⟨a, ha, hleaves⟩ := inv.answered i requests[i] hr hjoined
  obtain ⟨hlt, hget⟩ := List.getElem?_eq_some_iff.1 ha
  simpa [items, hget] using answers_of_leaves hlimit hleaves

/-- The course in which the tasks run one after the other comes to its end. -/
lemma exists_run_oneByOne (s : Service) (requests : List Request) {permits : Nat}
    (hfree : 0 < permits) (first count : Nat)
    (hle : first + count ≤ requests.length) (answers : List (Option Answer)) :
    ∃ answers', Batch.run s requests ⟨permits, List.range' first count, [], [], answers⟩
      ((List.range' first count).flatMap fun i => [.start i, .finish i, .join i]) =
        some ⟨permits, [], [], [], answers'⟩ := by
  induction count generalizing first answers with
  | zero => exact ⟨answers, rfl⟩
  | succ count ih =>
    have hlt : first < requests.length := by omega
    have hpermits : permits - 1 + 1 = permits := by omega
    obtain ⟨answers', hrun⟩ := ih (first + 1) (by omega) (answers.set first (some (s.compile requests[first])))
    refine ⟨answers', ?_⟩
    simpa [Batch.run, Batch.step, release, List.range'_succ, hfree, hlt, hpermits] using hrun

lemma exists_batch (h : start s requests = .ok b) :
    ∃ b', Batch.run s requests b (oneByOne requests.length) = some b' ∧ b'.isOver = true ∧
      s.batch requests = .ok (b'.items requests) := by
  obtain ⟨-, herror⟩ | ⟨-, hok⟩ := start_cases s requests
  · cases herror.symm.trans h
  · obtain rfl := Except.ok.inj (hok.symm.trans h)
    obtain ⟨answers, hrun⟩ := exists_run_oneByOne s requests (Nat.le_max_right s.settings.maxConcurrency 1)
      0 requests.length (Nat.le_of_eq (Nat.zero_add _)) (requests.map fun _ => none)
    rw [← List.range_eq_range'] at hrun
    refine ⟨_, hrun, rfl, ?_⟩
    rw [Service.batch, hok]
    simp only [bind, Except.bind, pure, Except.pure, oneByOne, hrun, Option.getD_some]

end Batch

namespace Service

/-- Without a time limit a batch starts unless its service asks for more permits than tasks can share.  Then every
course of it stays short, can go on until the batch is over, and answers the requests one by one; so does the batch
whose tasks run one after the other.  A batch that does not start answers no request. -/
theorem batch_answers (s : Service) (requests : List Request) (hlimit : s.settings.timeoutMs = none) :
    (permitLimit < s.settings.maxConcurrency →
      Batch.start s requests = .error .permits ∧ s.batch requests = .error .permits) ∧
    (s.settings.maxConcurrency ≤ permitLimit → ∃ first items,
      Batch.start s requests = .ok first ∧
      (∀ events b, Batch.run s requests first events = some b →
        events.length ≤ 3 * requests.length ∧
        (b.isOver = false → ∃ e b', Batch.step s requests b e = some b') ∧
        (b.isOver = true → List.Forall₂ (BatchItem.Answers s.compiler) requests (b.items requests))) ∧
      s.batch requests = .ok items ∧ List.Forall₂ (BatchItem.Answers s.compiler) requests items) := by
  obtain ⟨hmany, herror⟩ | ⟨hfew, hok⟩ := Batch.start_cases s requests
  · refine ⟨fun _ => ⟨herror, by rw [batch, herror]; rfl⟩, fun hfew => absurd hmany (Nat.not_lt.2 hfew)⟩
  · obtain ⟨hstart, hleft⟩ := Batch.invariant_start hok
    obtain ⟨last, hlast, hover, hbatch⟩ := Batch.exists_batch hok
    refine ⟨fun hmany => absurd hmany (Nat.not_lt.2 hfew), fun _ => ⟨_, last.items requests, hok, ?_, hbatch,
      (hstart.run hlast).1.items_answer hlimit hover⟩⟩
    intro events b hrun
    obtain ⟨inv, hle⟩ := hstart.run hrun
    exact ⟨by omega, inv.exists_step, inv.items_answer hlimit⟩

/-- A service that asks for no permit at all. -/
def tight : Service := ⟨.withOptions .standard, ⟨none, 0⟩⟩

/-- A program that is compiled, and one that asks for a level without a distance. -/
def mixedRequests : List Request :=
  [⟨"plain", "input a: scalar; output y: scalar; y = split(a);"⟩,
   ⟨"peak", "input a: scalar; output y: scalar; y = split(a, correction: \"fault_tolerant\", level: 4294967295);"⟩]

/-- The second task comes first. -/
def crossedCourse : List BatchEvent := [.start 1, .finish 1, .start 0, .join 1, .finish 0, .join 0]

theorem batch_answers_crossed : tight.settings.timeoutMs = none ∧ tight.settings.maxConcurrency ≤ permitLimit ∧
    ∃ first b result cause, Batch.start tight mixedRequests = .ok first ∧
      Batch.run tight mixedRequests first crossedCourse = some b ∧ b.isOver = true ∧
      b.items mixedRequests = [⟨"plain", .ok result⟩, ⟨"peak", .error (.task cause)⟩] ∧
      result.success = true := by
  have hplain : (tight.compiler.compile mixedRequests[0].source).toOption.any (·.success) = true := by decide +kernel
  have hpeak : (tight.compiler.compile mixedRequests[1].source).toOption.isNone = true := by decide +kernel
  have hfew : tight.settings.maxConcurrency ≤ permitLimit := Nat.zero_le _
  -- for any two requests, so that these are not compiled along the way
  have hall : ∀ p q : Request, ∃ first b, Batch.start tight [p, q] = .ok first ∧
      Batch.run tight [p, q] first crossedCourse = some b ∧
      b.isOver = true ∧ List.Forall₂ (BatchItem.Answers tight.compiler) [p, q] (b.items [p, q]) := by
    intro p q
    obtain ⟨first, _, hstart, hcourse, -⟩ := (batch_answers tight [p, q] rfl).2 hfew
    obtain rfl := Except.ok.inj hstart
    have hrun := Eq.refl (Batch.run tight [p, q] ⟨1, [0, 1], [], [], [none, none]⟩ crossedCourse)
    exact ⟨_, _, rfl, hrun, rfl, (hcourse _ _ hrun).2.2 rfl⟩
  obtain ⟨first, b, hstart, hrun, hover, hanswers⟩ := hall mixedRequests[0] mixedRequests[1]
  obtain ⟨x, xs, hx, hrest, hitems⟩ := List.forall₂_cons_left_iff.1 hanswers
  obtain ⟨y, ys, hy, hnone, rfl⟩ := List.forall₂_cons_left_iff.1 hrest
  obtain rfl := List.forall₂_nil_left_iff.1 hnone
  cases hx with
  | fault hfault =>
    rw [hfault] at hplain
    cases hplain
  | result hok =>
    rw [hok] at hplain
    cases hy with
    | result hok' =>
      rw [hok'] at hpeak
      cases hpeak
    | fault hfault => exact ⟨rfl, hfew, first, b, _, _, hstart, hrun, hover, hitems, hplain⟩

/-- A configuration without a bound on the tasks that run at once. -/
def floodedConfig : Config := { Config.standard with service := ⟨none, longLimit - 1⟩ }

/-- The configuration is in range, and its service compiles the request, but not in a batch. -/
theorem flooded_unanswered : ∃ s result, ofConfig floodedConfig = .ok s ∧ s.settings.timeoutMs = none ∧
    s.compile mixedRequests[0] = .ok result ∧ result.success = true ∧
    s.batch [mixedRequests[0]] = .error .permits := by
  have hplain : ((Compiler.withOptions .standard).compile mixedRequests[0].source).toOption.any
      (·.success) = true := by
    decide +kernel
  have hvalid : floodedConfig.validate = .ok () := by rfl
  refine ⟨⟨.withOptions .standard, floodedConfig.service⟩, ?_⟩
  cases hrun : (Compiler.withOptions .standard).compile mixedRequests[0].source with
  | error cause =>
    rw [hrun] at hplain
    cases hplain
  | ok result =>
    rw [hrun] at hplain
    refine ⟨result, by rw [ofConfig, hvalid]; rfl, rfl, ?_, hplain, rfl⟩
    simp only [compile, hrun]

end Service

end Waveflow
