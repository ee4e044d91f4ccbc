import Gbis.Sched.Carried
import Gbis.Sched.Reservation

/-!
# Jobs that can never fit

Two places of the dispatcher have a view on what the largest budget is. The oversized
filter compares a job with `max_job_bytes`, the device's memory without the safety
margin; `budget_bytes` never offers more than that, and with a fixed budget never more
than the fixed one. So with a fixed budget there are jobs that are too large for any budget
and that the filter keeps: `oversized_job_requeued` is the round of such a job.

`oversized_rejected_or_kept` says what becomes of both kinds, when the device's memory
exceeds the margin: what exceeds `max_job_bytes` is failed in the round that drains it, and
never gets back into the queue; what does not, and exceeds the fixed budget, stays in the
rotation.
-/

namespace Gbis.Sched

open Gbis.Core Library

variable {o : Options} {s t u : State} {a : Action} {job : InferenceJob} {candidates : List InferenceJob}

theorem max_job_bytes_eq (o : Options) (total : UInt64) :
    max_job_bytes o total = total.toNat - o.safety_margin_bytes.toNat := by
  unfold max_job_bytes
  split_ifs with h₀ h₁
  · simp [h₀]
  · exact UInt64.toNat_sub_of_le _ _ (UInt64.le_of_lt h₁)
  · have : total.toNat ≤ o.safety_margin_bytes.toNat := by simpa [UInt64.lt_iff_toNat_lt] using h₁
    omega

theorem mem_oversized {max_job : ℕ} (h₀ : 0 < max_job) (h : max_job < job.bytes_required) (hj : job ∈ candidates) :
    job ∈ oversized max_job candidates := by
  rw [oversized, if_pos h₀]
  exact List.mem_filter.mpr ⟨hj, by simpa using h⟩

theorem mem_admitted {max_job : ℕ} (h : job.bytes_required ≤ max_job) (hj : job ∈ candidates) :
    job ∈ admitted max_job candidates := by
  unfold admitted
  split_ifs
  · exact List.mem_filter.mpr ⟨hj, by simpa using h⟩
  · exact hj

/-! ### Rejection -/

/-- Entries are never removed. -/
theorem Step.metrics_subset (h : Step o s a t) : s.metrics_ ⊆ t.metrics_ := by
  cases h with
  | client _ h => cases h <;> exact List.Subset.refl _
  | control _ h => cases h <;> exact List.Subset.refl _
  | dispatcher _ h =>
    cases h with
    | no_gpu | reject => exact List.subset_append_left _ _
    | _ => exact List.Subset.refl _
  | worker _ h =>
    cases h with
    | @call _ _ _ c =>
      change s.metrics_ ⊆ (s.effect c).metrics_
      cases c with
      | insert_metrics | fail_batch => exact List.subset_append_left _ _
      | _ => exact List.Subset.refl _
    | _ => exact List.Subset.refl _

/-- The configuration of a round: what the dispatcher was started with. -/
structure SameConfig (gpu_absent : Bool) (total : UInt64) (s : State) : Prop where
  gpu_absent_ : s.gpu_absent_ = gpu_absent
  total_mem_bytes_ : s.total_mem_bytes_ = total

/-- While there is a dispatcher its configuration stays. -/
theorem Step.sameConfig (h : Step o s a t) (hc : s.control ≠ .starting) {gpu_absent : Bool} {total : UInt64}
    (hs : SameConfig gpu_absent total s) : SameConfig gpu_absent total t := by
  rcases h.control_cases with hcs | hsame
  · cases hcs with
    | probe _ _ hp => exact absurd hp hc
    | _ => exact ⟨hs.gpu_absent_, hs.total_mem_bytes_⟩
  · exact ⟨hsame.gpu_absent_.trans hs.gpu_absent_, hsame.total_mem_bytes_.trans hs.total_mem_bytes_⟩

/-- While there is a dispatcher `start()` is not about to create one. -/
theorem control_ne_starting (hl : Lifecycle s) (hd : s.dispatcher.rested = false) : s.control ≠ .starting := by
  intro hc
  rw [hl.dispatcher (by simp [State.dispatcherJoined, hc])] at hd
  cases hd

/-- What has become of an oversized job of a round: the round is still to look at it, or is
about to fail it, or has failed it. -/
inductive Rejected (job : InferenceJob) (candidates : List InferenceJob) (total : UInt64) (s : State) : Prop where
  | drained : s.dispatcher = .drained candidates → SameConfig false total s → Rejected job candidates total s
  | rejecting {large rest : List InferenceJob} : s.dispatcher = .rejecting large rest → job ∈ large →
      Rejected job candidates total s
  | failed : failedMetrics job ∈ s.metrics_ → Rejected job candidates total s

/-- A dispatcher in the middle of a round is not woken. -/
theorem Woken.eq_of_undecided {pc pc' : DispatcherPc} (h : Woken pc pc') (hne : pc.undecided ≠ []) : pc' = pc := by
  cases h with
  | same => rfl
  | space | queue => exact absurd rfl hne

/-- A step of another thread leaves the dispatcher in the middle of a round alone. -/
theorem Step.dispatcher_of_round (h : Step o s a t) (hl : Lifecycle s) (hne : s.dispatcher.undecided ≠ []) :
    DispatcherStep o s a t ∨ t.dispatcher = s.dispatcher := by
  have hc : s.control ≠ .starting := control_ne_starting hl (by
    cases hd : s.dispatcher <;> first | rfl | exact absurd (by rw [hd]; rfl) hne)
  rcases h.dispatcher_cases with hd | hw | ⟨hc', -⟩
  · exact .inl hd
  · exact .inr (hw.eq_of_undecided hne)
  · exact absurd hc' hc

/-- An oversized job goes from one of the three situations to the next. -/
theorem Step.rejected (h : Step o s a t) (hl : Lifecycle s) (hj : job ∈ candidates) {total : UInt64}
    (hmax : 0 < max_job_bytes o total) (hsize : max_job_bytes o total < job.bytes_required)
    (hs : Rejected job candidates total s) : Rejected job candidates total t := by
  cases hs with
  | failed hm => exact .failed (h.metrics_subset hm)
  | drained hd hconf =>
    have hover := mem_oversized hmax hsize hj
    rcases h.dispatcher_of_round hl (by rw [hd]; exact List.ne_nil_of_mem hj) with hds | hsame
    · obtain ⟨hgpu, rfl⟩ := hconf
      cases hds with
      | no_gpu _ hg => rw [hgpu] at hg; cases hg
      | keep hd' _ ho =>
        cases hd.symm.trans hd'
        rw [ho] at hover
        cases hover
      | filter hd' =>
        cases hd.symm.trans hd'
        exact .rejecting rfl hover
      | _ => simp_all
    · exact .drained (hsame.trans hd) (h.sameConfig (control_ne_starting hl (by rw [hd]; rfl)) hconf)
  | @rejecting large rest hd hover =>
    have hne : s.dispatcher.undecided ≠ [] := by
      rw [hd]
      exact List.ne_nil_of_mem (List.mem_append_left _ hover)
    rcases h.dispatcher_of_round hl hne with hds | hsame
    · cases hds with
      | reject hd' =>
        cases hd.symm.trans hd'
        exact .failed (List.mem_append_right _ (List.mem_map_of_mem hover))
      | _ => simp_all
    · exact .rejecting (hsame.trans hd) hover

/-- An oversized job is failed in its round. -/
theorem rejected_of_steps (hu : Reachable (scheduler o) Always u) (hd : u.dispatcher = .drained candidates)
    (hj : job ∈ candidates) (hgpu : u.gpu_absent_ = false) (hmax : 0 < max_job_bytes o u.total_mem_bytes_)
    (hsize : max_job_bytes o u.total_mem_bytes_ < job.bytes_required) (hrun : Steps (scheduler o) Always u s) :
    Rejected job candidates u.total_mem_bytes_ s := by
  suffices Reachable (scheduler o) Always s ∧ Rejected job candidates u.total_mem_bytes_ s from this.2
  refine hrun.preserves (I := fun s => Reachable (scheduler o) Always s ∧ Rejected job candidates u.total_mem_bytes_ s)
    (fun {s a t} hs hstep ha => ?_) ⟨hu, .drained hd ⟨hgpu, rfl⟩⟩
  have hstep' : Step o s a t := hstep
  exact ⟨hs.1.tail hstep ha, hstep'.rejected (lifecycle hs.1) hj hmax hsize hs.2⟩

/-- A job of a round, or of an entry, is not in the queue. -/
theorem Rejected.notMem_queue {total : UInt64} (h : Rejected job candidates total s)
    (hr : Reachable (scheduler o) Always s) (hj : job ∈ candidates) :
    job.seq ∉ seqs s.queue_ := by
  have hplace : ∃ p, p ≠ .queue ∧ job.seq ∈ s.hold p := by
    cases h with
    | drained hd =>
      exact ⟨.round, by simp, by simpa [State.hold, hd, DispatcherPc.undecided, seqs] using ⟨job, hj, rfl⟩⟩
    | @rejecting large rest hd ho =>
      refine ⟨.round, by simp, ?_⟩
      simpa [State.hold, hd, DispatcherPc.undecided, seqs] using .inl ⟨job, ho, rfl⟩
    | failed hm => exact ⟨.metrics, by simp, by simpa [State.hold] using ⟨_, hm, rfl⟩⟩
  obtain ⟨p, hp, hmem⟩ := hplace
  exact fun hq => hp (place_unique hr hmem hq)

/-! ### Rotation -/

/-- The jobs of a round that may still go back to the queue. -/
def DispatcherPc.waiting : DispatcherPc → List InferenceJob
  | .drained candidates | .rejecting _ candidates | .filtered candidates | .based candidates _
  | .budgeted candidates _ => candidates
  | .packed _ remaining => remaining
  | _ => []

/-- Whether a step starts the scheduler again. -/
def Action.starts : Action → Bool
  | .start => true
  | _ => false

/-- The scheduler is not started again. -/
def NoStart (_ : State) (a : Action) : Prop := a.starts = false

instance (s : State) (a : Action) : Decidable (NoStart s a) := inferInstanceAs (Decidable (_ = _))

/-- A job is in the queue, or in a round that may put it back. -/
def State.keeps (s : State) (job : InferenceJob) : Prop := job ∈ s.queue_ ∨ job ∈ s.dispatcher.waiting

theorem Woken.waiting {pc pc' : DispatcherPc} (h : Woken pc pc') : pc'.waiting = pc.waiting := by
  cases h <;> rfl

/-- The steps of the other threads leave the queue's jobs there, and wake the dispatcher at most. -/
theorem State.keeps.of_woken (h : s.keeps job) (hq : s.queue_ ⊆ t.queue_) (hd : Woken s.dispatcher t.dispatcher) :
    t.keeps job :=
  h.imp (fun h => hq h) fun h => hd.waiting ▸ h

/-- A job that is larger than the budget is not selected. -/
theorem mem_remaining {now : ℤ} {budget_bytes : ℕ} {max_batch : Int32} (hj : job ∈ candidates)
    (h : budget_bytes < job.bytes_required) : job ∈ (pack_jobs now candidates budget_bytes max_batch).remaining := by
  rcases List.mem_append.mp ((pack_jobs_perm now candidates budget_bytes max_batch).mem_iff.mpr hj) with hs | hr
  · exact absurd (bytes_le_of_mem_selected hs) (by omega)
  · exact hr

/-- A job that exceeds every budget, and not `max_job_bytes`, is kept by the dispatcher. -/
theorem DispatcherStep.keeps (h : DispatcherStep o s a t) (hres : Reservation o s) {total : UInt64}
    (hconf : SameConfig false total s) (hmax : job.bytes_required ≤ max_job_bytes o total)
    (hsize : budgetCap o < job.bytes_required) (hs : s.keeps job) : t.keeps job := by
  obtain ⟨hgpu, rfl⟩ := hconf
  cases h with
  | drain hd =>
    refine .inr ((drainOrder_perm s.queue_).mem_iff.mpr ?_)
    rcases hs with hs | hs
    · exact hs
    · rw [hd] at hs; cases hs
  | no_gpu _ hg => rw [hgpu] at hg; cases hg
  | keep hd | filter hd =>
    refine hs.imp id fun hs => ?_
    rw [hd] at hs
    exact mem_admitted hmax hs
  | @pack candidates budget hd =>
    refine hs.imp id fun hs => ?_
    have hw := hres.within
    rw [hd] at hs hw
    have hw : s.reserved_bytes_ + budget ≤ budgetCap o := hw
    exact mem_remaining hs (by omega)
  | requeue hd =>
    refine .inl (List.mem_append.mpr ?_)
    rwa [State.keeps, hd] at hs
  | space_exit hd | space_pass hd | space_false hd | space_block hd | queue_exit hd | queue_false hd | queue_block hd
  | reject hd | fixed hd | no_free _ hd | free _ hd | budget hd | nothing hd | reserve hd | push hd | notify hd
  | notify_none hd | spurious_space hd | spurious_queue hd =>
    refine hs.imp id fun hs => ?_
    rw [hd] at hs
    exact hs

theorem Step.keeps (h : Step o s a t) (hres : Reservation o s) (ha : NoStart s a) (hc : s.control ≠ .starting)
    {total : UInt64} (hconf : SameConfig false total s) (hmax : job.bytes_required ≤ max_job_bytes o total)
    (hsize : budgetCap o < job.bytes_required) (hs : s.keeps job) : t.keeps job ∧ t.control ≠ .starting := by
  cases h with
  | client _ h =>
    refine ⟨hs.of_woken ?_ h.woken, by rwa [h.sameControl.control]⟩
    cases h with
    | push => exact List.subset_append_left _ _
    | _ => exact List.Subset.refl _
  | control _ h =>
    refine ⟨?_, ?_⟩
    · rcases h.woken with hw | ⟨hc', -⟩
      · refine hs.of_woken ?_ hw
        cases h <;> exact List.Subset.refl _
      · exact absurd hc' hc
    · cases h with
      | start => cases ha
      | _ => simp
  | dispatcher _ h => exact ⟨h.keeps hres hconf hmax hsize hs, by rwa [h.sameControl.control]⟩
  | worker _ h =>
    refine ⟨hs.of_woken ?_ h.woken, by rwa [h.sameControl.control]⟩
    cases h with
    | call => exact (s.effect_queues _).2.1 ▸ List.Subset.refl _
    | _ => exact List.Subset.refl _

/-- A job that exceeds every budget, and not `max_job_bytes`, stays in the rotation. -/
theorem keeps_of_steps (hu : Reachable (scheduler o) Always u) (hd : u.dispatcher = .drained candidates)
    (hj : job ∈ candidates) (hgpu : u.gpu_absent_ = false)
    (hmax : job.bytes_required ≤ max_job_bytes o u.total_mem_bytes_)
    (hsize : budgetCap o < job.bytes_required) (hrun : Steps (scheduler o) NoStart u s) : s.keeps job := by
  suffices Reachable (scheduler o) Always s ∧ SameConfig false u.total_mem_bytes_ s ∧ s.keeps job ∧
    s.control ≠ .starting
    from this.2.2.1
  refine hrun.preserves (I := fun s => Reachable (scheduler o) Always s ∧ SameConfig false u.total_mem_bytes_ s ∧
    s.keeps job ∧ s.control ≠ .starting) (fun {s a t} hs hstep ha => ?_) ⟨hu, ⟨hgpu, rfl⟩, ?_, ?_⟩
  · obtain ⟨hr, hconf, hk, hc⟩ := hs
    have hstep' : Step o s a t := hstep
    exact ⟨hr.tail hstep trivial, hstep'.sameConfig hc hconf, hstep'.keeps (reservation hr) ha hc hconf hmax hsize hk⟩
  · rw [State.keeps, hd]
    exact .inr hj
  · exact control_ne_starting (lifecycle hu) (by rw [hd]; rfl)

/-! ### Both kinds -/

/-- **Oversized jobs are rejected once, and the others stay in the rotation.** When the
device's memory exceeds the margin, of a job the dispatcher has drained:
* if it is larger than the memory without the margin, it is failed in this round as an
  oversized one, and is not in the queue in any state reached from here on;
* if it is not, and the budget is fixed and smaller than the job, then until the scheduler
  is started again it is in the queue, or in a round that puts it back. -/
theorem oversized_rejected_or_kept (hu : Reachable (scheduler o) Always u) (hd : u.dispatcher = .drained candidates)
    (hj : job ∈ candidates) (hgpu : u.gpu_absent_ = false)
    (hmargin : o.safety_margin_bytes.toNat < u.total_mem_bytes_.toNat) :
    (u.total_mem_bytes_.toNat - o.safety_margin_bytes.toNat < job.bytes_required →
      ∀ s, Steps (scheduler o) Always u s → Rejected job candidates u.total_mem_bytes_ s ∧ job.seq ∉ seqs s.queue_) ∧
    (job.bytes_required ≤ u.total_mem_bytes_.toNat - o.safety_margin_bytes.toNat →
      0 < o.fixed_budget_bytes.toNat → o.fixed_budget_bytes.toNat < job.bytes_required →
      ∀ s, Steps (scheduler o) NoStart u s → s.keeps job) := by
  rw [← max_job_bytes_eq]
  have hmax : 0 < max_job_bytes o u.total_mem_bytes_ := by
    rw [max_job_bytes_eq]
    omega
  refine ⟨fun hsize s hrun => ?_, fun hle hf hsize s hrun => ?_⟩
  · have hrej := rejected_of_steps hu hd hj hgpu hmax hsize hrun
    exact ⟨hrej, hrej.notMem_queue (hu.steps hrun) hj⟩
  · have hcap : budgetCap o = o.fixed_budget_bytes.toNat := if_pos hf
    exact keeps_of_steps hu hd hj hgpu hle (hcap ▸ hsize) hrun

/-- A job of 12 bytes is drained. -/
def drainedTrace : List Action :=
  [.start, .probe false 1073741824, .spawn, .spawn, .submit { m := 1, n := 1, k := 1 }, .client 0, .dispatcher,
    .dispatcher]

/-- With a fixed budget of one byte, smaller than that job. -/
def tightOptions : Options := { fixed_budget_bytes := 1, num_workers := 1 }

/-- The job is too large for every budget there is, and the round that has drained it puts
it back into the queue. -/
theorem oversized_job_requeued :
    ∃ (u s : State) (job : InferenceJob), Reachable (scheduler tightOptions) Always u ∧
      u.dispatcher = .drained [job] ∧ u.gpu_absent_ = false ∧ u.total_mem_bytes_ = 1073741824 ∧
        job.bytes_required = 12 ∧
      Steps (scheduler tightOptions) Always u s ∧ s.queue_ = [job] ∧ s.metrics_ = [] := by
  obtain ⟨u, s, hu, hs, hp⟩ := exists_steps_of_follow tightOptions Always Always 1 drainedTrace
    (List.replicate 6 .dispatcher)
    (fun u s => u.dispatcher = .drained [{ m := 1, n := 1, k := 1, submit_time := 1 }] && (u.gpu_absent_ = false &&
      (u.total_mem_bytes_ = 1073741824 &&
        (s.queue_ = [{ m := 1, n := 1, k := 1, submit_time := 1 }] && s.metrics_ = []))))
    (by decide)
  simp only [Bool.and_eq_true, decide_eq_true_eq] at hp
  obtain ⟨h₁, h₂, h₃, h₄, h₅⟩ := hp
  exact ⟨u, s, _, hu, h₁, h₂, h₃, by decide, hs, h₄, h₅⟩

/-- The same device and job: without a fixed budget, and with a margin of all but one of the
bytes, the job is failed; with the tight budget it is drained again in the next round. -/
theorem oversized_rejected_or_kept_small :
    (∃ (u s : State) (job : InferenceJob), u.dispatcher = .drained [job] ∧ s.dispatcher = .budgeted [] 0 ∧
      Rejected job [job] u.total_mem_bytes_ s ∧ job.seq ∉ seqs s.queue_) ∧
    ∃ (u s : State) (job : InferenceJob), u.dispatcher = .drained [job] ∧ s.dispatcher = .drained [job] ∧
      s.keeps job := by
  constructor
  · obtain ⟨u, s, hu, hs, hp⟩ := exists_steps_of_follow { num_workers := 1, safety_margin_bytes := 1073741823 } Always
      Always 1 drainedTrace [.dispatcher, .dispatcher, .sample 0]
      (fun u s => u.dispatcher = .drained [{ m := 1, n := 1, k := 1, submit_time := 1 }] && (u.gpu_absent_ = false &&
        (u.total_mem_bytes_ = 1073741824 && s.dispatcher = .budgeted [] 0))) (by decide)
    simp only [Bool.and_eq_true, decide_eq_true_eq] at hp
    obtain ⟨h₁, h₂, h₃, h₄⟩ := hp
    obtain ⟨hreject, -⟩ := oversized_rejected_or_kept hu h₁ (List.mem_singleton_self _) h₂ (by rw [h₃]; decide)
    exact ⟨u, s, _, h₁, h₄, hreject (by rw [h₃]; decide) s hs⟩
  · obtain ⟨u, s, hu, hs, hp⟩ := exists_steps_of_follow tightOptions Always NoStart 1 drainedTrace
      (List.replicate 8 .dispatcher)
      (fun u s => u.dispatcher = .drained [{ m := 1, n := 1, k := 1, submit_time := 1 }] && (u.gpu_absent_ = false &&
        (u.total_mem_bytes_ = 1073741824 && s.dispatcher = .drained [{ m := 1, n := 1, k := 1, submit_time := 1 }])))
      (by decide)
    simp only [Bool.and_eq_true, decide_eq_true_eq] at hp
    obtain ⟨h₁, h₂, h₃, h₄⟩ := hp
    obtain ⟨-, hkept⟩ := oversized_rejected_or_kept hu h₁ (List.mem_singleton_self _) h₂ (by rw [h₃]; decide)
    exact ⟨u, s, _, h₁, h₄, hkept (by rw [h₃]; decide) (by decide) (by decide) s hs⟩

end Gbis.Sched
