import Gbis.Sched.Completion
import Mathlib.Tactic.Abel

/-!
# The counters of submitted and completed jobs

`submit()` puts a job into the queue and counts it in `submitted_` afterwards, so the job
may be completed in between. On the ways that fail jobs without executing them — there is
no GPU, or the job exceeds the device's memory — the dispatcher alone is fast enough:
`completed_ahead` is a run in which one job is completed and none submitted, going by the
counters. The tests assert that `completed()` is at most `submitted()`.

It is, in every run in which a job is completed only when its `submit()` has counted it
(`completed_le_submitted`). The jobs behind `completed_` are among those behind
`next_seq_` that no client has pushed and not counted: each step counts in `completed_`
as many jobs as it completes (`Step.completes`), and these are different ones.
-/

namespace Gbis.Sched

open Gbis.Core Library

variable {o : Options} {s t : State} {a : Action}

/-! ### What a step completes -/

/-- The jobs a worker has recorded and not yet counted. -/
def WorkerPc.uncountedSeqs : WorkerPc → Multiset ℕ
  | .running turn => ((turn.account.recorded.drop turn.account.counted).map JobMetrics.seq : List ℕ)
  | _ => 0

/-- The jobs recorded and not yet counted. -/
def State.uncountedSeqs (s : State) : Multiset ℕ := (s.workers.map fun w => w.pc.uncountedSeqs).sum

/-- The jobs a step counts as completed. -/
def completedBy (s : State) : Action → Multiset ℕ
  | .dispatcher =>
    match s.dispatcher with
    | .drained candidates => if s.gpu_absent_ then seqs candidates else 0
    | .rejecting large _ => seqs large
    | _ => 0
  | .answer i c _ =>
    match c with
    | .fail_batch batch => seqs batch
    | .add_completed _ => (s.workers[i]?).elim 0 fun w => w.pc.uncountedSeqs
    | _ => 0
  | _ => 0

/-- `done` are the jobs completed from `s` to `t`: they are counted, and what is recorded
besides is still to be counted. -/
structure Completes (s t : State) (done : Multiset ℕ) : Prop where
  recorded : t.hold .metrics + s.uncountedSeqs = s.hold .metrics + t.uncountedSeqs + done
  counted : t.completed_ = s.completed_ + done.card

/-- Nothing is recorded or counted. -/
theorem Completes.none (hm : t.metrics_ = s.metrics_) (hc : t.completed_ = s.completed_)
    (hu : t.uncountedSeqs = s.uncountedSeqs) : Completes s t 0 := by
  constructor
  · rw [State.hold, State.hold, hm, hu, add_zero]
  · rw [hc, Multiset.card_zero, add_zero]

theorem Worker.wake_uncountedSeqs (w : Worker) : w.wake.pc.uncountedSeqs = w.pc.uncountedSeqs := by
  unfold Worker.wake
  split
  · rename_i h; rw [h]; rfl
  · rfl

/-- What a worker's step makes of the jobs recorded and not counted. -/
theorem uncountedSeqs_set {i : ℕ} {w w' : Worker} (hi : s.workers[i]? = some w)
    (ht : t.workers = s.workers.set i w') :
    t.uncountedSeqs + w.pc.uncountedSeqs = s.uncountedSeqs + w'.pc.uncountedSeqs := by
  obtain ⟨rest, h₁, h₂⟩ := exists_sum_set (fun w : Worker => w.pc.uncountedSeqs) hi
  rw [State.uncountedSeqs, State.uncountedSeqs, ht, h₁, h₂]
  exact add_right_comm _ _ _

/-- A worker moves without recording or counting. -/
theorem Completes.set {i : ℕ} {w w' : Worker} (hi : s.workers[i]? = some w) (ht : t.workers = s.workers.set i w')
    (hu : w'.pc.uncountedSeqs = w.pc.uncountedSeqs) (hm : t.metrics_ = s.metrics_)
    (hc : t.completed_ = s.completed_) : Completes s t 0 := by
  refine Completes.none hm hc ?_
  have hset := uncountedSeqs_set hi ht
  rwa [hu, add_left_inj] at hset

/-- `fail_batch` completes the jobs it is given. -/
theorem Completes.fail {jobs : List InferenceJob} (hm : t.metrics_ = s.metrics_ ++ jobs.map failedMetrics)
    (hc : t.completed_ = s.completed_ + jobs.length) (hu : t.uncountedSeqs = s.uncountedSeqs) :
    Completes s t (seqs jobs) := by
  constructor
  · rw [State.hold, State.hold, hm, hu, List.map_append, List.map_map, seq_comp_failedMetrics, ← Multiset.coe_add]
    exact add_right_comm _ _ _
  · rw [hc, seqs, Multiset.coe_card, List.length_map]

theorem DispatcherStep.completes (h : DispatcherStep o s a t) : Completes s t (completedBy s a) := by
  cases h with
  | @no_gpu candidates hd hg =>
    have hby : completedBy s .dispatcher = seqs candidates := by rw [completedBy, hd]; exact if_pos hg
    rw [hby]
    exact Completes.fail rfl rfl rfl
  | @reject large candidates hd =>
    have hby : completedBy s .dispatcher = seqs large := by rw [completedBy, hd]
    rw [hby]
    exact Completes.fail rfl rfl rfl
  | keep hd hg | filter hd hg =>
    have hby : completedBy s .dispatcher = 0 := by rw [completedBy, hd]; exact if_neg (by simp [hg])
    rw [hby]
    exact Completes.none rfl rfl rfl
  | notify _ hi => exact Completes.set hi rfl (Worker.wake_uncountedSeqs _) rfl rfl
  | space_exit hd | space_pass hd | space_false hd | space_block hd | queue_exit hd | drain hd | queue_false hd
  | queue_block hd | fixed hd | budget hd | pack hd | requeue hd | nothing hd | reserve hd | push hd =>
    have hby : completedBy s .dispatcher = 0 := by rw [completedBy, hd]
    rw [hby]
    exact Completes.none rfl rfl rfl
  | no_free | free | notify_none | spurious_space | spurious_queue => exact Completes.none rfl rfl rfl

theorem ControlStep.completes (h : ControlStep o s a t) : Completes s t (completedBy s a) := by
  cases h with
  | spawn => exact Completes.none rfl rfl (by simp [State.uncountedSeqs, WorkerPc.uncountedSeqs])
  | notify_batch =>
    exact Completes.none rfl rfl (by simp [State.uncountedSeqs, Function.comp_def, Worker.wake_uncountedSeqs])
  | _ => exact Completes.none rfl rfl rfl

/-- The calls that record or count. -/
def settlesJobs : Call → Bool
  | .insert_metrics _ | .fail_batch _ | .add_completed _ => true
  | _ => false

/-- The other calls leave what a worker has recorded and counted. -/
theorem Account.apply_uncounted (acc : Account) {c : Call} (h : settlesJobs c = false) (r : c.Ret) :
    (acc.apply c r).recorded = acc.recorded ∧ (acc.apply c r).counted = acc.counted := by
  cases c with
  | cudaStreamCreateWithFlags | cudaStreamCreate | cudaEventCreate => cases r <;> exact ⟨rfl, rfl⟩
  | insert_metrics | fail_batch | add_completed => cases h
  | _ => exact ⟨rfl, rfl⟩

theorem State.effect_metrics (s : State) {c : Call} (h : settlesJobs c = false) :
    (s.effect c).metrics_ = s.metrics_ ∧ (s.effect c).completed_ = s.completed_ := by
  cases c with
  | insert_metrics | fail_batch | add_completed => cases h
  | _ => exact ⟨rfl, rfl⟩

theorem completedBy_answer {i : ℕ} {c : Call} (r : c.Ret) (h : settlesJobs c = false) :
    completedBy s (.answer i c r) = 0 := by
  cases c with
  | insert_metrics | fail_batch | add_completed => cases h
  | _ => rfl

theorem uncountedSeqs_running {w : Worker} {turn : Turn} (hw : w.pc = .running turn)
    (h : turn.account.counted = turn.account.recorded.length) : w.pc.uncountedSeqs = 0 := by
  rw [hw, WorkerPc.uncountedSeqs, h, List.drop_length]
  rfl

/-- A call of a worker that records or counts. -/
theorem Completes.call {i : ℕ} {w : Worker} {turn : Turn} {c : Call}
    {k : c.Ret → Prog Call Call.Ret (Except Exn Unit × Locals)} {r : c.Ret}
    (hi : s.workers[i]? = some w) (hw : w.pc = .running turn) (hpre : accountPre turn.batch c turn.account)
    (ht : t = (s.effect c).setWorker i { w with pc := .running (turn.after c r (k r)) }) :
    Completes s t (completedBy s (.answer i c r)) := by
  have hworkers : t.workers = s.workers.set i { w with pc := .running (turn.after c r (k r)) } := by
    rw [ht, State.setWorker, s.effect_workers]
  have hset := uncountedSeqs_set hi hworkers
  by_cases hs : settlesJobs c = true
  · cases c with
    | insert_metrics out =>
      obtain ⟨hrec, hcount, -⟩ := hpre
      have hbefore : w.pc.uncountedSeqs = 0 := uncountedSeqs_running hw (by rw [hrec, hcount]; rfl)
      have hafter : (WorkerPc.running (turn.after (.insert_metrics out) r (k r))).uncountedSeqs =
          (out.map JobMetrics.seq : List ℕ) := by
        simp [WorkerPc.uncountedSeqs, Turn.after, Account.apply, hrec, hcount]
      rw [hbefore, add_zero, hafter] at hset
      constructor
      · rw [hset, ht]
        simp [State.hold, State.setWorker, State.effect, completedBy, ← Multiset.coe_add, add_assoc, add_comm]
      · rw [ht]
        rfl
    | add_completed n =>
      have hafter : (WorkerPc.running (turn.after (.add_completed n) r (k r))).uncountedSeqs = 0 := by
        have hall : turn.account.counted + n = turn.account.recorded.length := hpre
        simp [WorkerPc.uncountedSeqs, Turn.after, Account.apply, hall]
      have hby : completedBy s (.answer i (.add_completed n) r) = w.pc.uncountedSeqs := by
        simp [completedBy, hi]
      rw [hafter, add_zero] at hset
      constructor
      · rw [hby, ← hset, ht]
        simp [State.hold, State.setWorker, State.effect, add_assoc]
      · have hall : turn.account.counted + n = turn.account.recorded.length := hpre
        rw [hby, hw, ht]
        simp only [State.setWorker, State.effect, WorkerPc.uncountedSeqs, Multiset.coe_card, List.length_map,
          List.length_drop]
        omega
    | fail_batch failed =>
      obtain ⟨hrec, hcount, -⟩ := hpre
      have hbefore : w.pc.uncountedSeqs = 0 := uncountedSeqs_running hw (by rw [hrec, hcount]; rfl)
      have hafter : (WorkerPc.running (turn.after (.fail_batch failed) r (k r))).uncountedSeqs = 0 := by
        simp [WorkerPc.uncountedSeqs, Turn.after, Account.apply, hrec, hcount]
      rw [hbefore, hafter, add_zero, add_zero] at hset
      exact Completes.fail (by rw [ht]; rfl) (by rw [ht]; rfl) hset
    | _ => cases hs
  · have hs : settlesJobs c = false := by simpa using hs
    obtain ⟨hrec, hcount⟩ := turn.account.apply_uncounted hs r
    obtain ⟨hm, hc⟩ := s.effect_metrics hs
    rw [completedBy_answer r hs]
    refine Completes.set hi hworkers ?_ (by rw [ht]; exact hm) (by rw [ht]; exact hc)
    simp only [WorkerPc.uncountedSeqs, Turn.after, hw, hrec, hcount]

theorem WorkerStep.completes (h : WorkerStep o s a t)
    (hb : ∀ w ∈ s.workers, ∀ turn, w.pc = .running turn →
      turn.prog.wp (accountWorld turn.batch) (Host.ends (fun _ _ => Settled turn.batch)
        (fun _ _ acc => acc = aborted turn.batch)) turn.account) : Completes s t (completedBy s a) := by
  cases h with
  | exit hi hw | found_empty hi hw | block hi hw | pop hi hw => exact Completes.set hi rfl (by rw [hw]; rfl) rfl rfl
  | spurious hi => exact Completes.set hi rfl (Worker.wake_uncountedSeqs _) rfl rfl
  | throw => exact Completes.none rfl rfl rfl
  | @done i w turn l hi hw hp =>
    have hset := hb w (List.mem_of_getElem? hi) turn hw
    rw [hp] at hset
    have hset : Settled turn.batch turn.account := hset
    exact Completes.set hi rfl (uncountedSeqs_running hw hset.counted).symm rfl rfl
  | call hi hw hp =>
    have hwp := hb _ (List.mem_of_getElem? hi) _ hw
    rw [hp] at hwp
    exact Completes.call hi hw hwp.1 rfl

/-- **A step counts the jobs it completes.** -/
theorem Step.completes (h : Step o s a t) (hr : Reachable (scheduler o) Always s) :
    Completes s t (completedBy s a) := by
  cases h with
  | client _ h => cases h <;> exact Completes.none rfl rfl rfl
  | control _ h => exact h.completes
  | dispatcher _ h => exact h.completes
  | worker _ h => exact h.completes (turn_books hr)

/-! ### The jobs not counted in `submitted_` -/

/-- The job a client has pushed and not counted. -/
def SubmitPc.pushedSeq : SubmitPc → Multiset ℕ
  | .pushed seq => {seq}
  | _ => 0

/-- The jobs pushed and not counted. -/
def State.pushedSeqs (s : State) : Multiset ℕ := (s.submits.map SubmitPc.pushedSeq).sum

theorem mem_pushedSeqs {seq : ℕ} : seq ∈ s.pushedSeqs ↔ SubmitPc.pushed seq ∈ s.submits := by
  unfold State.pushedSeqs
  induction s.submits with
  | nil => simp
  | cons p submits ih =>
    rw [List.map_cons, List.sum_cons, Multiset.mem_add, ih, List.mem_cons]
    refine or_congr_left ?_
    cases p <;> simp [SubmitPc.pushedSeq]

/-- A step pushes a new job and completes none, or pushes none. -/
theorem Step.pushedSeqs (h : Step o s a t) :
    t.pushedSeqs = s.next_seq_ ::ₘ s.pushedSeqs ∧ t.next_seq_ = s.next_seq_ + 1 ∧ completedBy s a = 0 ∨
      t.pushedSeqs ≤ s.pushedSeqs := by
  rcases h.client_cases with h | h
  · cases h with
    | tick => exact .inr le_rfl
    | submit => exact .inr (by simp [State.pushedSeqs, SubmitPc.pushedSeq])
    | push hi =>
      obtain ⟨rest, h₁, h₂⟩ := exists_sum_set SubmitPc.pushedSeq hi
      have hbefore : s.pushedSeqs = rest + 0 := h₁
      have hafter : _ = rest + {s.next_seq_} := h₂ (.pushed s.next_seq_)
      refine .inl ⟨?_, rfl, rfl⟩
      rw [hbefore, add_zero, ← Multiset.singleton_add]
      exact hafter.trans (add_comm _ _)
    | count hi | notify hi =>
      obtain ⟨rest, h₁, h₂⟩ := exists_sum_set SubmitPc.pushedSeq hi
      refine .inr ?_
      rw [State.pushedSeqs, State.pushedSeqs, h₁, h₂]
      exact add_le_add_right (Multiset.zero_le _) rest
  · rw [State.pushedSeqs, h.submits]
    exact .inr le_rfl

/-- The jobs pushed and not counted are different ones. -/
theorem nodup_pushedSeqs (h : Reachable (scheduler o) Always s) :
    s.pushedSeqs.Nodup ∧ ∀ seq ∈ s.pushedSeqs, seq < s.next_seq_ := by
  refine h.invariant (I := fun s => s.pushedSeqs.Nodup ∧ ∀ seq ∈ s.pushedSeqs, seq < s.next_seq_) ?_ ?_
  · rintro _ ⟨t, rfl⟩
    exact ⟨Multiset.nodup_zero, by simp [State.pushedSeqs]⟩
  · intro s a t _ hs hstep _
    obtain ⟨hnodup, hlt⟩ := hs
    rcases Step.pushedSeqs hstep with ⟨hpush, hnext, -⟩ | hsub
    · rw [hpush, hnext]
      refine ⟨Multiset.nodup_cons.mpr ⟨fun hmem => (hlt _ hmem).false, hnodup⟩, fun seq hseq => ?_⟩
      rcases Multiset.mem_cons.mp hseq with rfl | hseq
      · exact Nat.lt_succ_self _
      · exact Nat.lt_succ_of_lt (hlt seq hseq)
    · have hle := Step.next_seq_le hstep
      exact ⟨Multiset.nodup_of_le hsub hnodup, fun seq hseq => (hlt seq (Multiset.mem_of_le hsub hseq)).trans_le hle⟩

/-- `submitted_` counts the others. -/
theorem submitted_add_card (h : Reachable (scheduler o) Always s) : s.submitted_ + s.pushedSeqs.card = s.next_seq_ := by
  have hcard : s.pushedSeqs.card = (s.submits.map fun p => p.isPushed.toNat).sum := by
    rw [State.pushedSeqs]
    induction s.submits with
    | nil => rfl
    | cons p submits ih =>
      rw [List.map_cons, List.sum_cons, Multiset.card_add, ih, List.map_cons, List.sum_cons]
      cases p <;> rfl
  rw [hcard]
  exact (submitsCounted h).sum

/-! ### One counter and the other -/

/-- The condition on the steps: a job is completed only when its `submit()` has counted it. -/
def CountedFirst (s : State) (a : Action) : Prop := ∀ seq ∈ completedBy s a, SubmitPc.pushed seq ∉ s.submits

instance (s : State) (a : Action) : Decidable (CountedFirst s a) :=
  inferInstanceAs (Decidable (∀ seq ∈ completedBy s a, SubmitPc.pushed seq ∉ s.submits))

/-- `completed_` counts jobs with an entry, and no client has one of them yet to count. -/
def CompletedCounted (s : State) : Prop :=
  ∃ done : Multiset ℕ, s.hold .metrics = done + s.uncountedSeqs ∧ s.completed_ = done.card ∧
    ∀ seq ∈ done, seq ∉ s.pushedSeqs

theorem completedCounted (h : Reachable (scheduler o) CountedFirst s) : CompletedCounted s := by
  refine h.invariant (I := CompletedCounted) ?_ ?_
  · rintro _ ⟨t, rfl⟩
    exact ⟨0, rfl, rfl, by simp⟩
  · intro s a t hr hs hstep hok
    have hr : Reachable (scheduler o) Always s := hr.mono fun _ _ _ => trivial
    obtain ⟨done, hrec, hcount, hnot⟩ := hs
    have hc := Step.completes hstep hr
    refine ⟨done + completedBy s a, ?_, by rw [hc.counted, hcount, Multiset.card_add], ?_⟩
    · refine add_right_cancel (b := s.uncountedSeqs) (hc.recorded.trans ?_)
      rw [hrec]
      abel
    · intro seq hseq hpush
      rcases Step.pushedSeqs hstep with ⟨hnew, -, hby⟩ | hsub
      · rw [hby, add_zero] at hseq
        rw [hnew] at hpush
        rcases Multiset.mem_cons.mp hpush with rfl | hpush
        · -- the number just handed out is not that of an entry
          have hmem : s.next_seq_ ∈ s.hold .metrics := by
            rw [hrec]
            exact Multiset.mem_add.mpr (.inl hseq)
          exact (seq_lt_next hr hmem).false
        · exact hnot seq hseq hpush
      · have hpush := Multiset.mem_of_le hsub hpush
        rcases Multiset.mem_add.mp hseq with hseq | hseq
        · exact hnot seq hseq hpush
        · exact hok seq hseq (mem_pushedSeqs.mp hpush)

/-- **`completed_` never runs ahead of `submitted_`** in the runs that complete a job only
when its `submit()` has counted it. -/
theorem completed_le_submitted (h : Reachable (scheduler o) CountedFirst s) : s.completed_ ≤ s.submitted_ := by
  have hr : Reachable (scheduler o) Always s := h.mono fun _ _ _ => trivial
  obtain ⟨done, hrec, hcount, hnot⟩ := completedCounted h
  obtain ⟨hnodup, hlt⟩ := nodup_pushedSeqs hr
  have hdone : ∀ seq ∈ done, seq ∈ s.hold .metrics := fun seq hseq => by
    rw [hrec]
    exact Multiset.mem_add.mpr (.inl hseq)
  have hdoneNodup : done.Nodup := by
    refine Multiset.nodup_of_le ?_ (nodup_hold hr .metrics)
    rw [hrec]
    exact Multiset.le_add_right _ _
  -- the completed jobs and the ones not counted are different numbers handed out
  have hall : (done + s.pushedSeqs).Nodup :=
    Multiset.nodup_add.mpr ⟨hdoneNodup, hnodup, Multiset.disjoint_left.mpr fun {seq} => hnot seq⟩
  have hle : (done + s.pushedSeqs).card ≤ (Multiset.range s.next_seq_).card := by
    refine Multiset.card_le_card ((Multiset.le_iff_subset hall).mpr fun seq hseq => Multiset.mem_range.mpr ?_)
    rcases Multiset.mem_add.mp hseq with hseq | hseq
    · exact seq_lt_next hr (hdone seq hseq)
    · exact hlt seq hseq
  have hsub := submitted_add_card hr
  rw [Multiset.card_add, Multiset.card_range] at hle
  omega

/-- A job is completed after its `submit()` has counted it. -/
theorem completed_le_submitted_one : ∃ s :
    State, s.submitted_ = 1 ∧ s.completed_ = 1 ∧ s.completed_ ≤ s.submitted_ := by
  obtain ⟨s, hr, hp⟩ := exists_of_follow { num_workers := 1 } CountedFirst 1
    [.start, .probe true 0, .spawn, .spawn, .submit { m := 1, n := 1, k := 1 }, .client 0, .client 0, .dispatcher,
     .dispatcher, .dispatcher] (fun s => s.submitted_ = 1 && s.completed_ = 1) (by decide)
  simp only [Bool.and_eq_true, decide_eq_true_eq] at hp
  exact ⟨s, hp.1, hp.2, completed_le_submitted hr⟩

/-- Without a GPU the dispatcher fails a job that `submit()` has pushed and not counted: one
job is completed, and none has been submitted. -/
theorem completed_ahead : ∃ s : State, Reachable (scheduler { num_workers := 1 }) Always s ∧
    ¬ s.completed_ ≤ s.submitted_ := by
  obtain ⟨s, hr, hp⟩ := exists_of_follow { num_workers := 1 } Always 1
    [.start, .probe true 0, .spawn, .spawn, .submit { m := 1, n := 1, k := 1 }, .client 0, .dispatcher, .dispatcher,
     .dispatcher] (fun s => s.submitted_ = 0 && s.completed_ = 1) (by decide)
  simp only [Bool.and_eq_true, decide_eq_true_eq] at hp
  exact ⟨s, hr, by omega⟩

end Gbis.Sched
