import Gbis.Sched.Carried
import Gbis.Sched.Reservation
import Gbis.Sched.Sizes
import Gbis.Sched.TurnMemory
import Mathlib.Algebra.Order.BigOperators.Group.List

/-!
# The scheduler never overcommits itself

With a fixed budget the scheduler promises to hold no more device memory than that. Four
facts make up the promise (`no_overcommit`), each from another part of the code:

* a turn holds at most what the buffers of its batch need, and nothing after its release
  (`turn_memory`);
* what the buffers need is what `bytes_required` says, for jobs whose size fits in a word
  (`deviceBytes_eq`);
* what was reserved for a batch is the exact sum of its sizes, since the packer keeps that
  sum below `2^63` (`sum_selected_le`), and it stays reserved until the release;
* `reserved_bytes_` is what is reserved, and stays within the budget (`reservation`).
-/

namespace Gbis.Sched

open Gbis.Core Library

variable {o : Options} {s : State}

instance (job : InferenceJob) : Decidable job.Positive :=
  decidable_of_iff (1 ≤ job.m.toInt ∧ 1 ≤ job.n.toInt ∧ 1 ≤ job.k.toInt ∧ 1 ≤ job.batch.toInt)
    ⟨fun ⟨hm, hn, hk, hb⟩ => ⟨hm, hn, hk, hb⟩, fun ⟨hm, hn, hk, hb⟩ => ⟨hm, hn, hk, hb⟩⟩

/-- A job with positive dimensions, whose size in bytes fits in a word. -/
def ExactlySized (job : InferenceJob) : Prop := job.Positive ∧ job.exactBytes < (wordSize : ℤ)

instance : DecidablePred ExactlySized := fun job =>
  inferInstanceAs (Decidable (job.Positive ∧ job.exactBytes < (wordSize : ℤ)))

/-- The two byte formulas agree. -/
theorem deviceBytes_eq {job : InferenceJob} (h : ExactlySized job) : deviceBytes job = job.bytes_required := by
  obtain ⟨hpos, hlt⟩ := h
  have hs := sizesExact hpos hlt
  have hexact := (InferenceJob.bytes_required_eq_iff hpos).mpr hlt
  rw [job.exactBytes_eq_sum, ← hs.bytes_a, ← hs.bytes_b, ← hs.bytes_c] at hexact
  unfold deviceBytes
  omega

theorem deviceTotal_eq {batch : List InferenceJob} (h : ∀ job ∈ batch, ExactlySized job) :
    deviceTotal batch = sumBytes batch := by
  unfold deviceTotal sumBytes
  rw [List.map_congr_left fun job hj => deviceBytes_eq (h job hj)]

/-- A batch whose jobs are exactly sized, and that is within the budget. -/
structure WithinBudget (o : Options) (batch : List InferenceJob) : Prop where
  sized : ∀ job ∈ batch, ExactlySized job
  sum : sumBytes batch ≤ budgetCap o

/-- What a batch needs is what is reserved for it. -/
theorem WithinBudget.deviceTotal_eq {batch : List InferenceJob} (h : WithinBudget o batch) :
    deviceTotal batch = batchBytes batch := by
  rw [Sched.deviceTotal_eq h.sized, batchBytes_eq, Nat.mod_eq_of_lt]
  exact lt_of_le_of_lt h.sum (budgetCap_lt o)

/-- Every batch is within the budget. -/
theorem carried_withinBudget (hcap : budgetCap o < 2 ^ 63) (h : Reachable (scheduler o) (Submits ExactlySized) s) :
    Carried ExactlySized (WithinBudget o) s := by
  refine carried (fun _ _ _ hj => ⟨⟨hj.1.m, hj.1.n, hj.1.k, hj.1.batch⟩, hj.2⟩) ⟨by simp, Nat.zero_le _⟩ ?_ h
  intro s hr candidates budget hd hc
  have hle := (reservation (hr.mono fun _ _ _ => trivial)).within
  rw [hd] at hle
  have hle : budget ≤ budgetCap o := by
    simp only [DispatcherPc.claim] at hle
    omega
  exact ⟨fun job hj => hc job (mem_of_mem_selected hj), (sum_selected_le (by omega)).trans hle⟩

/-- The device allocations a worker holds. -/
def WorkerPc.held : WorkerPc → Held
  | .running turn => turn.held
  | _ => []

/-- The device bytes all workers hold. -/
def State.deviceHeld (s : State) : ℕ := (s.workers.map fun w => w.pc.held.bytes).sum

/-- A worker holds no more than is reserved for it. -/
theorem held_le_committed (h : Reachable (scheduler o) Always s) (hc : Carried ExactlySized (WithinBudget o) s)
    {w : Worker}
    (hw : w ∈ s.workers) : w.pc.held.bytes ≤ w.pc.committed := by
  cases hpc : w.pc with
  | running turn =>
    obtain ⟨hle, hnone⟩ := turn_memory h hw hpc
    rw [(hc.running w hw turn hpc).deviceTotal_eq] at hle
    rw [WorkerPc.held, WorkerPc.committed_running]
    split_ifs with hrel
    · exact hle
    · rw [hnone hrel, Held.bytes_nil]
  | _ => exact Nat.zero_le _

/-- **No self-overcommit**: with a fixed budget below `2^63`, and clients that submit jobs
whose sizes fit in a word, in every state reached the device bytes the workers hold are at
most `reserved_bytes_`, and that is at most the budget. -/
theorem no_overcommit (h₀ : 0 < o.fixed_budget_bytes.toNat) (h₁ : o.fixed_budget_bytes.toNat < 2 ^ 63)
    (h : Reachable (scheduler o) (Submits ExactlySized) s) :
    s.deviceHeld ≤ s.reserved_bytes_ ∧ s.reserved_bytes_ ≤ o.fixed_budget_bytes.toNat := by
  have hr : Reachable (scheduler o) Always s := h.mono fun _ _ _ => trivial
  have hcap : budgetCap o = o.fixed_budget_bytes.toNat := if_pos h₀
  have hres := reservation hr
  have hheld : s.deviceHeld ≤ (s.workers.map fun w => w.pc.committed).sum :=
    List.sum_le_sum fun w hw => held_le_committed hr (carried_withinBudget (hcap ▸ h₁) h) hw
  refine ⟨?_, ?_⟩
  · rw [hres.reserved, State.committed]
    omega
  · have hle := hres.within
    omega

/-- A worker allocates for a job of 12 bytes. -/
def allocatingTrace : List Action :=
  [.start, .probe false 1073741824, .spawn, .spawn, .submit { m := 1, n := 1, k := 1 }, .client 0, .dispatcher,
   .dispatcher, .dispatcher, .dispatcher, .dispatcher, .dispatcher, .dispatcher, .dispatcher, .dispatcher,
   .notify_worker none, .worker 0, .answer 0 .notify_batch_space (), .answer 0 .cudaStreamCreateWithFlags (.ok 1),
   .answer 0 .cudaStreamCreate (.ok 2), .answer 0 .cudaStreamCreateWithFlags (.ok 3),
     .answer 0 .cudaEventCreate (.ok 1),
   .answer 0 .cudaEventCreate (.ok 2), .answer 0 .cudaEventCreate (.ok 3), .answer 0 (.cudaMalloc 4) (.ok 1),
   .answer 0 (.cudaMalloc 4) (.ok 2)]

/-- The run of `allocatingTrace`. -/
theorem no_overcommit_allocating : ∃ s : State, s.deviceHeld = 8 ∧ s.reserved_bytes_ = 12 ∧
    s.deviceHeld ≤ s.reserved_bytes_ ∧ s.reserved_bytes_ ≤ 1024 := by
  obtain ⟨s, hr, hp⟩ := exists_of_follow { num_workers := 1, fixed_budget_bytes := 1024 } (Submits ExactlySized) 1
    allocatingTrace (fun s => s.deviceHeld = 8 && s.reserved_bytes_ = 12) (by decide +kernel)
  simp only [Bool.and_eq_true, decide_eq_true_eq] at hp
  obtain ⟨h₁, h₂⟩ := no_overcommit (by decide) (by decide) hr
  exact ⟨s, hp.1, hp.2, h₁, h₂⟩

end Gbis.Sched
