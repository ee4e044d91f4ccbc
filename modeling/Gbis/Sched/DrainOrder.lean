import Gbis.Sched.Conservation
import Gbis.Sched.Selection

/-!
# The order of the queue

A priority queue says which job comes first, not where it keeps the others; and the jobs that
`pack_jobs` leaves are pushed back in whatever order they were left in. None of it matters.

Jobs with distinct sequence numbers have distinct keys in the order of `pack_jobs`, and in that of
the queue, so there is one way to sort them (`stable_sort_eq_of_perm`); the sweep of `pack_jobs`
depends on nothing else. Two states of the scheduler that differ in the order of the queue only
(`Reordered`) take the same steps, to states that again differ in nothing else: the same jobs are
drained in the same order, and the same batches are packed (`Step.reordered`).
-/

namespace Gbis.Sched

open Gbis.Core Library

variable {o : Options} {s s' t : State} {a : Action} {queue queue' : List InferenceJob}

/-! ### Sorting -/

/-- What the sort of `pack_jobs` compares tells jobs apart by their sequence numbers at least. -/
theorem seq_eq_of_packKey_eq {now : ℤ} {x y : InferenceJob} (h : packKey now x = packKey now y) : x.seq = y.seq := by
  unfold packKey at h
  simp only [EmbeddingLike.apply_eq_iff_eq, Prod.mk.injEq] at h
  exact h.2.2.2

/-- **The sweep meets the candidates in an order of their own**, not in that in which they are given. -/
theorem packOrder_eq_of_perm (now : ℤ) {candidates candidates' : List InferenceJob}
    (h : List.Perm candidates candidates') (hn : (candidates.map InferenceJob.seq).Nodup) :
    packOrder now candidates = packOrder now candidates' :=
  stable_sort_eq_of_perm (packBefore_iff now) h fun _ hx _ hy hkey =>
    List.inj_on_of_nodup_map hn hx hy (seq_eq_of_packKey_eq hkey)

/-- What the priority queue compares, as a key in a linear order. -/
def queueKey (job : InferenceJob) : ℤ ×ₗ ℕ := toLex (-job.priority.toInt, job.seq)

theorem jobPriorityCompare_iff (x y : InferenceJob) : JobPriorityCompare y x = true ↔ queueKey x < queueKey y := by
  unfold JobPriorityCompare queueKey
  rw [Prod.Lex.toLex_lt_toLex]
  by_cases hp : x.priority = y.priority
  · simp [hp]
  · have hp' : x.priority.toInt ≠ y.priority.toInt := fun h => hp (Int32.toInt_inj.mp h)
    simp [Ne.symm hp, hp', Int32.lt_iff_toInt_lt]

/-- **The queue gives up its jobs in an order of their own.** -/
theorem drainOrder_eq_of_perm (h : List.Perm queue queue') (hn : (queue.map InferenceJob.seq).Nodup) :
    drainOrder queue = drainOrder queue' := by
  have hinj : ∀ x ∈ queue, ∀ y ∈ queue, queueKey x = queueKey y → x = y := fun _ hx _ hy hkey =>
    List.inj_on_of_nodup_map hn hx hy (Prod.mk.inj (toLex.injective hkey)).2
  exact stable_sort_eq_of_perm jobPriorityCompare_iff h hinj

/-! ### The scheduler -/

/-- The state with another queue. -/
def State.withQueue (s : State) (queue : List InferenceJob) : State := { s with queue_ := queue }

/-- Two states that differ at most in the order of the queue. -/
structure Reordered (s s' : State) : Prop where
  queue_ : List.Perm s.queue_ s'.queue_
  rest : s' = s.withQueue s'.queue_

theorem reordered_withQueue (h : List.Perm s.queue_ queue) : Reordered s (s.withQueue queue) := ⟨h, rfl⟩

/-- What a worker's call does to the shared state it does whatever is queued. -/
theorem effect_withQueue (s : State) (queue : List InferenceJob) (c : Call) :
    (s.withQueue queue).effect c = (s.effect c).withQueue queue := by
  cases c <;> rfl

theorem queue_effect (s : State) (c : Call) : (s.effect c).queue_ = s.queue_ := by
  cases c <;> rfl

/-- A client adds the same job to either queue. -/
theorem ClientStep.reordered (h : ClientStep s a t) (hq : List.Perm s.queue_ queue) :
    ∃ queue', List.Perm t.queue_ queue' ∧ ClientStep (s.withQueue queue) a (t.withQueue queue') := by
  cases h with
  | tick ns => exact ⟨queue, hq, .tick ns⟩
  | submit job => exact ⟨queue, hq, .submit job⟩
  | @push i job hi hm => exact ⟨_, hq.append_right _, .push (s := s.withQueue queue) hi hm⟩
  | count hi => exact ⟨queue, hq, .count hi⟩
  | notify hi => exact ⟨queue, hq, .notify hi⟩

theorem ControlStep.reordered (h : ControlStep o s a t) (hq : List.Perm s.queue_ queue) :
    ∃ queue', List.Perm t.queue_ queue' ∧ ControlStep o (s.withQueue queue) a (t.withQueue queue') := by
  refine ⟨queue, ?_, ?_⟩
  · cases h <;> exact hq
  · cases h with
    | start hc hs => exact .start hc hs
    | probe gpu_absent total hc => exact .probe gpu_absent total hc
    | spawn hc => exact .spawn hc
    | started hc => exact .started hc
    | stop hc hs => exact .stop hc hs
    | notify_queue hc => exact .notify_queue hc
    | notify_batch hc => exact .notify_batch hc
    | notify_space hc => exact .notify_space hc
    | join_dispatcher hc hd => exact .join_dispatcher hc hd
    | join_workers hc hw => exact .join_workers hc hw
    | stopped hc => exact .stopped hc

theorem WorkerStep.reordered (h : WorkerStep o s a t) (hq : List.Perm s.queue_ queue) :
    ∃ queue', List.Perm t.queue_ queue' ∧ WorkerStep o (s.withQueue queue) a (t.withQueue queue') := by
  refine ⟨queue, ?_, ?_⟩
  · cases h with
    | @call i w turn c k r hi hw hp hr => exact (queue_effect s c).symm ▸ hq
    | exit | pop | found_empty | block | done | throw | spurious => exact hq
  · cases h with
    | exit hi hw hm hs hb => exact .exit hi hw hm hs hb
    | pop hi hw hm hb => exact .pop hi hw hm hb
    | found_empty hi hw hm hs hb => exact .found_empty hi hw hm hs hb
    | block hi hw => exact .block hi hw
    | @call i w turn c k r hi hw hp hr =>
      have hcall := WorkerStep.call (o := o) (s := s.withQueue queue) hi hw hp hr
      rwa [effect_withQueue] at hcall
    | done hi hw hp => exact .done hi hw hp
    | throw hi hw hp => exact .throw hi hw hp
    | spurious hi hw => exact .spurious hi hw

/-- The dispatcher drains the same jobs, in the same order, from either queue. -/
theorem DispatcherStep.reordered (h : DispatcherStep o s a t) (hq : List.Perm s.queue_ queue)
    (hn : (s.queue_.map InferenceJob.seq).Nodup) :
    ∃ queue', List.Perm t.queue_ queue' ∧ DispatcherStep o (s.withQueue queue) a (t.withQueue queue') := by
  cases h with
  | space_exit hd hm hs => exact ⟨queue, hq, .space_exit hd hm hs⟩
  | space_pass hd hm hs hlt => exact ⟨queue, hq, .space_pass hd hm hs hlt⟩
  | space_false hd hm hs hge => exact ⟨queue, hq, .space_false hd hm hs hge⟩
  | space_block hd => exact ⟨queue, hq, .space_block hd⟩
  | queue_exit hd hs => exact ⟨queue, hq, .queue_exit hd hs⟩
  | drain hd hs hne =>
    have hqueue : queue ≠ [] := fun he => hne (List.perm_nil.mp (he ▸ hq))
    refine ⟨[], .refl _, ?_⟩
    rw [drainOrder_eq_of_perm hq hn]
    exact .drain (s := s.withQueue queue) hd hs hqueue
  | queue_false hd hs he => exact ⟨queue, hq, .queue_false hd hs (List.nil_perm.mp (he ▸ hq))⟩
  | queue_block hd => exact ⟨queue, hq, .queue_block hd⟩
  | no_gpu hd hg => exact ⟨queue, hq, .no_gpu hd hg⟩
  | keep hd hg he => exact ⟨queue, hq, .keep hd hg he⟩
  | filter hd hg hne => exact ⟨queue, hq, .filter hd hg hne⟩
  | reject hd => exact ⟨queue, hq, .reject hd⟩
  | fixed hd hb => exact ⟨queue, hq, .fixed hd hb⟩
  | no_free free hd hb hle => exact ⟨queue, hq, .no_free free hd hb hle⟩
  | free free hd hb hle => exact ⟨queue, hq, .free free hd hb hle⟩
  | budget hd => exact ⟨queue, hq, .budget (s := s.withQueue queue) hd⟩
  | pack hd => exact ⟨queue, hq, .pack hd⟩
  | requeue hd => exact ⟨_, hq.append_right _, .requeue (s := s.withQueue queue) hd⟩
  | nothing hd => exact ⟨queue, hq, .nothing hd⟩
  | reserve hd hne => exact ⟨queue, hq, .reserve hd hne⟩
  | push hd hm => exact ⟨queue, hq, .push hd hm⟩
  | notify hd hi hw => exact ⟨queue, hq, .notify hd hi hw⟩
  | notify_none hd hw => exact ⟨queue, hq, .notify_none hd hw⟩
  | spurious_space hd => exact ⟨queue, hq, .spurious_space hd⟩
  | spurious_queue hd => exact ⟨queue, hq, .spurious_queue hd⟩

/-- **From a state that differs in the order of the queue only** every step can be taken too, to a state that differs
in the order of the queue only. -/
theorem Step.reordered (h : Step o s a t) (hr : Reordered s s') (hn : (s.queue_.map InferenceJob.seq).Nodup) :
    ∃ t', Step o s' a t' ∧ Reordered t t' := by
  obtain ⟨hq, hs'⟩ := hr
  rw [hs']
  cases h with
  | client ht h =>
    obtain ⟨queue, hperm, hstep⟩ := h.reordered hq
    exact ⟨_, .client ht hstep, reordered_withQueue hperm⟩
  | control ht h =>
    obtain ⟨queue, hperm, hstep⟩ := h.reordered hq
    exact ⟨_, .control ht hstep, reordered_withQueue hperm⟩
  | dispatcher ht h =>
    obtain ⟨queue, hperm, hstep⟩ := h.reordered hq hn
    exact ⟨_, .dispatcher ht hstep, reordered_withQueue hperm⟩
  | worker ht h =>
    obtain ⟨queue, hperm, hstep⟩ := h.reordered hq
    exact ⟨_, .worker ht hstep, reordered_withQueue hperm⟩

theorem Reordered.refl (s : State) : Reordered s s := ⟨.refl _, rfl⟩

theorem Reordered.symm (h : Reordered s s') : Reordered s' s := by
  refine ⟨h.queue_.symm, ?_⟩
  rw [h.rest]
  rfl

theorem Reordered.trans (h : Reordered s s') (h' : Reordered s' t) : Reordered s t := by
  refine ⟨h.queue_.trans h'.queue_, ?_⟩
  rw [h'.rest, h.rest]
  rfl

/-- The jobs in the queue have distinct sequence numbers, as `submit()` assigns them. -/
theorem nodup_queue (h : Reachable (scheduler o) Always s) : (s.queue_.map InferenceJob.seq).Nodup :=
  nodup_hold h .queue

/-- The scheduler with a queue that may be put into another order at any time (`none`). -/
def shuffled (o : Options) : System State (Option Action) where
  init := (scheduler o).init
  step s a t := match a with
    | some a => (scheduler o).step s a t
    | none => Reordered s t

/-- **What a run comes to in which the queue is put into other orders**, one comes to in which it is not. -/
theorem reachable_of_shuffled (h : Reachable (shuffled o) Always s) :
    ∃ s', Reachable (scheduler o) Always s' ∧ Reordered s' s := by
  refine h.invariant (I := fun s => ∃ s', Reachable (scheduler o) Always s' ∧ Reordered s' s) ?_ ?_
  · intro s hinit
    exact ⟨s, .start hinit, .refl s⟩
  · intro s a t _ hI hstep _
    obtain ⟨s', hs', hr⟩ := hI
    cases a with
    | none => exact ⟨s', hs', hr.trans hstep⟩
    | some a =>
      have hn : (s.queue_.map InferenceJob.seq).Nodup := (hr.queue_.map _).nodup_iff.mp (nodup_queue hs')
      obtain ⟨t', hstep', hr'⟩ := Step.reordered hstep hr.symm hn
      exact ⟨t', hs'.tail hstep' trivial, hr'.symm⟩

/-- **Packing does not depend on the order of the candidates**, and no decision of the scheduler on that of the
queue: from states that differ in it alone the same actions lead to states that differ in it alone, and a run in
which the queue is put into another order at any time comes to nothing that a run without does not come to. -/
theorem packing_order_independent (o : Options) :
    (∀ (now : ℤ) (candidates candidates' : List InferenceJob) (budget_bytes : ℕ) (max_batch : Int32),
      List.Perm candidates candidates' → (candidates.map InferenceJob.seq).Nodup →
        pack_jobs now candidates budget_bytes max_batch = pack_jobs now candidates' budget_bytes max_batch) ∧
    (∀ s s' a t, Reachable (scheduler o) Always s → Reordered s s' → Step o s a t →
      ∃ t', Step o s' a t' ∧ Reordered t t') ∧
    ∀ s, Reachable (shuffled o) Always s → ∃ s', Reachable (scheduler o) Always s' ∧ Reordered s' s := by
  refine ⟨?_, ?_, ?_⟩
  · intro now candidates candidates' budget_bytes max_batch h hn
    unfold pack_jobs
    rw [packOrder_eq_of_perm now h hn]
  · intro s s' a t hs hr hstep
    exact hstep.reordered hr (nodup_queue hs)
  · intro s hs
    exact reachable_of_shuffled hs

/-- Two jobs of the same size and priority and without a submission time, in either order. -/
theorem packing_order_independent_pair :
    pack_jobs 0 [{ m := 1, n := 1, k := 1, seq := 1 }, { m := 1, n := 1, k := 1, seq := 2 }] 12 8 =
      pack_jobs 0 [{ m := 1, n := 1, k := 1, seq := 2 }, { m := 1, n := 1, k := 1, seq := 1 }] 12 8 :=
  (packing_order_independent {}).1 _ _ _ _ _ (.swap _ _ _) (by decide)

end Gbis.Sched
