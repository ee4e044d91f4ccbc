import Gbis.Sched.Conservation

/-!
# What is true of every job, and of every batch

Jobs come from clients, and nothing the scheduler does changes one, but for the
submission time and the sequence number it assigns. So what is true of every job a
client submits, whatever the two are, is true of every job in the scheduler; and what
`pack_jobs` makes true of the batches it selects is true of every batch (`carried`).
-/

namespace Gbis.Sched

open Gbis.Core Library

variable {o : Options} {s t : State} {a : Action} {P : InferenceJob → Prop} {B : List InferenceJob → Prop}

/-- The jobs that clients submit satisfy `P`. -/
def Submits (P : InferenceJob → Prop) (_ : State) : Action → Prop
  | .submit job => P job
  | _ => True

instance [DecidablePred P] (s : State) : ∀ a, Decidable (Submits P s a)
  | .submit job => inferInstanceAs (Decidable (P job))
  | .tick _ | .client _ | .start | .probe .. | .spawn | .stop | .notify_all _ | .join | .dispatcher | .sample _
  | .notify_worker _ | .worker _ | .answer .. | .spurious_dispatcher | .spurious_worker _ => .isTrue trivial

/-- `P` holds of every job that has not been packed, and `B` of every batch that has. -/
structure Carried (P : InferenceJob → Prop) (B : List InferenceJob → Prop) (s : State) : Prop where
  stamped : ∀ job, SubmitPc.stamped job ∈ s.submits → P job
  queue_ : ∀ job ∈ s.queue_, P job
  undecided : ∀ job ∈ s.dispatcher.undecided, P job
  chosen : B s.dispatcher.chosen
  batch_queue_ : ∀ batch ∈ s.batch_queue_, B batch
  running : ∀ w ∈ s.workers, ∀ turn, w.pc = .running turn → B turn.batch

/-- A step that leaves the queues alone, and wakes the dispatcher at most. -/
theorem Carried.of_same (h : Carried P B s) (hs : ∀ job, SubmitPc.stamped job ∈ t.submits → P job)
    (hq : t.queue_ = s.queue_) (hd : Woken s.dispatcher t.dispatcher) (hb : ∀ batch ∈ t.batch_queue_, B batch)
    (hw : ∀ w ∈ t.workers, ∀ turn, w.pc = .running turn → B turn.batch) : Carried P B t :=
  ⟨hs, hq ▸ h.queue_, hd.undecided ▸ h.undecided, hd.chosen ▸ h.chosen, hb, hw⟩

/-- A client other than the one that moves is where it was. -/
theorem mem_of_mem_set_of_ne {i : ℕ} {pc : SubmitPc} {job : InferenceJob} (hpc : pc ≠ .stamped job)
    (h : SubmitPc.stamped job ∈ s.submits.set i pc) : SubmitPc.stamped job ∈ s.submits :=
  (List.mem_or_eq_of_mem_set h).resolve_right fun he => hpc he.symm

section

variable (hP : ∀ (job : InferenceJob) (t : ℤ) (n : ℕ), P job → P { job with submit_time := t, seq := n })
include hP

theorem ClientStep.carried (h : ClientStep s a t) (ha : Submits P s a) (hs : Carried P B s) : Carried P B t := by
  cases h with
  | tick => exact hs.of_same hs.stamped rfl (.same _) hs.batch_queue_ hs.running
  | submit job =>
    refine hs.of_same (fun job' hj => ?_) rfl (.same _) hs.batch_queue_ hs.running
    rcases List.mem_append.mp hj with hj | hj
    · exact hs.stamped job' hj
    · obtain rfl := SubmitPc.stamped.inj (List.mem_singleton.mp hj)
      exact hP job s.clock job.seq ha
  | @push i job hi =>
    refine ⟨fun job' hj => hs.stamped job' (mem_of_mem_set_of_ne (by simp) hj), fun job' hj => ?_, hs.undecided,
      hs.chosen, hs.batch_queue_, hs.running⟩
    rcases List.mem_append.mp hj with hj | hj
    · exact hs.queue_ job' hj
    · obtain rfl := List.mem_singleton.mp hj
      exact hP job job.submit_time s.next_seq_ (hs.stamped job (List.mem_of_getElem? hi))
  | count =>
    exact hs.of_same (fun job' hj => hs.stamped job' (mem_of_mem_set_of_ne (by simp) hj)) rfl (.same _) hs.batch_queue_
      hs.running
  | notify =>
    exact hs.of_same (fun job' hj => hs.stamped job' (mem_of_mem_set_of_ne (by simp) hj)) rfl
      s.wakeDispatcher_woken_queue hs.batch_queue_ hs.running

end

/-- What is true of the batches before a step is true of those that run after it. -/
theorem Step.running_carried (h : Step o s a t) (hs : Carried P B s) :
    ∀ w ∈ t.workers, ∀ turn, w.pc = .running turn → B turn.batch := by
  intro v hv turn hpc
  rcases h.turn_cases hv hpc with ⟨w, hw, hpc'⟩ | ⟨batch, rest, l, hq, rfl⟩ | ⟨w, hw, turn', c, k, r, hpc', -, -, rfl⟩
  · exact hs.running w hw turn hpc'
  · exact hs.batch_queue_ batch (by simp [hq])
  · exact hs.running w hw turn' hpc'

theorem mem_oversized_or_admitted (max_job : ℕ) (candidates : List InferenceJob) {job : InferenceJob} :
    job ∈ oversized max_job candidates ++ admitted max_job candidates ↔ job ∈ candidates :=
  (oversized_append_admitted_perm max_job candidates).mem_iff

theorem DispatcherStep.carried (hnil : B [])
    (hpack : ∀ candidates budget, s.dispatcher = .budgeted candidates budget → (∀ job ∈ candidates, P job) →
      B (pack_jobs s.clock candidates budget o.max_batch).selected)
    (h : DispatcherStep o s a t) (hw : ∀ w ∈ t.workers, ∀ turn, w.pc = .running turn → B turn.batch)
    (hs : Carried P B s) : Carried P B t := by
  obtain ⟨h₁, h₂, h₃, h₄, h₅, -⟩ := hs
  cases h with
  | drain =>
    refine ⟨h₁, by simp, fun job hj => h₂ job ?_, hnil, h₅, hw⟩
    exact (drainOrder_perm s.queue_).mem_iff.mp hj
  | keep hd =>
    refine ⟨h₁, h₂, fun job hj => h₃ job ?_, hnil, h₅, hw⟩
    rw [hd]
    exact (mem_oversized_or_admitted _ _).mp (List.mem_append_right _ hj)
  | filter hd =>
    refine ⟨h₁, h₂, fun job hj => h₃ job ?_, hnil, h₅, hw⟩
    rw [hd]
    exact (mem_oversized_or_admitted _ _).mp hj
  | reject hd =>
    refine ⟨h₁, h₂, fun job hj => h₃ job ?_, hnil, h₅, hw⟩
    rw [hd]
    exact List.mem_append_right _ hj
  | @pack candidates budget hd =>
    rw [hd] at h₃
    exact ⟨h₁, h₂, fun job hj => h₃ job (mem_of_mem_remaining hj), hpack candidates budget hd h₃, h₅, hw⟩
  | @requeue selected remaining hd =>
    rw [hd] at h₃ h₄
    refine ⟨h₁, fun job hj => ?_, by simp [DispatcherPc.undecided], h₄, h₅, hw⟩
    exact (List.mem_append.mp hj).elim (h₂ job) (h₃ job)
  | reserve hd =>
    rw [hd] at h₄
    exact ⟨h₁, h₂, by simp [DispatcherPc.undecided], h₄, h₅, hw⟩
  | push hd =>
    rw [hd] at h₄
    refine ⟨h₁, h₂, by simp [DispatcherPc.undecided], hnil, fun batch hb => ?_, hw⟩
    rcases List.mem_append.mp hb with hb | hb
    · exact h₅ batch hb
    · rwa [List.mem_singleton.mp hb]
  | fixed hd | free _ hd | no_free _ hd | budget hd =>
    rw [hd] at h₃
    exact ⟨h₁, h₂, h₃, hnil, h₅, hw⟩
  | _ => exact ⟨h₁, h₂, by simp [DispatcherPc.undecided], hnil, h₅, hw⟩

theorem ControlStep.carried (hnil : B []) (h : ControlStep o s a t)
    (hw : ∀ w ∈ t.workers, ∀ turn, w.pc = .running turn → B turn.batch) (hs : Carried P B s) : Carried P B t := by
  cases h with
  | probe =>
    exact ⟨hs.stamped, hs.queue_, by simp [DispatcherPc.undecided], hnil, hs.batch_queue_, hw⟩
  | notify_queue => exact hs.of_same hs.stamped rfl s.wakeDispatcher_woken_queue hs.batch_queue_ hw
  | notify_space => exact hs.of_same hs.stamped rfl s.wakeDispatcher_woken_space hs.batch_queue_ hw
  | _ => exact hs.of_same hs.stamped rfl (.same _) hs.batch_queue_ hw

theorem State.effect_queues (s : State) (c : Call) :
    (s.effect c).submits = s.submits ∧ (s.effect c).queue_ = s.queue_ ∧ (s.effect c).batch_queue_ = s.batch_queue_ := by
  cases c <;> exact ⟨rfl, rfl, rfl⟩

theorem WorkerStep.carried (h : WorkerStep o s a t) (hw : ∀ w ∈ t.workers, ∀ turn, w.pc = .running turn → B turn.batch)
    (hs : Carried P B s) : Carried P B t := by
  cases h with
  | pop _ _ _ hq =>
    exact hs.of_same hs.stamped rfl (.same _)
      (fun batch hb => hs.batch_queue_ batch (by simp [hq, show batch ∈ _ from hb])) hw
  | @call _ _ _ c =>
    obtain ⟨h₁, h₂, h₃⟩ := s.effect_queues c
    exact hs.of_same (h₁ ▸ hs.stamped) h₂ (s.effect_woken c) (h₃ ▸ hs.batch_queue_) hw
  | _ => exact hs.of_same hs.stamped rfl (.same _) hs.batch_queue_ hw

/-- **What is true of the jobs submitted is true of every job, and what packing makes true
of a batch is true of every batch.** -/
theorem carried (hP : ∀ (job : InferenceJob) (t : ℤ) (n : ℕ), P job → P { job with submit_time := t, seq := n })
    (hnil : B [])
    (hpack : ∀ s, Reachable (scheduler o) (Submits P) s → ∀ candidates budget,
      s.dispatcher = .budgeted candidates budget →
      (∀ job ∈ candidates, P job) → B (pack_jobs s.clock candidates budget o.max_batch).selected)
    (h : Reachable (scheduler o) (Submits P) s) : Carried P B s := by
  refine h.invariant ?_ fun {s a t} hr hs hstep ha => ?_
  · rintro _ ⟨t, rfl⟩
    exact ⟨by simp, by simp, by simp [DispatcherPc.undecided], hnil, by simp, by simp⟩
  · have hstep : Step o s a t := hstep
    have hw := hstep.running_carried hs
    cases hstep with
    | client _ h => exact h.carried hP ha hs
    | control _ h => exact h.carried hnil hw hs
    | dispatcher _ h => exact h.carried hnil (hpack s hr) hw hs
    | worker _ h => exact h.carried hw hs

end Gbis.Sched
