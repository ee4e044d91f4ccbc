import Gbis.Sched.Scheduler

/-!
# The size arithmetic of an admitted job

A job passes two gates before memory is allocated for it, the oversized filter and
`pack_jobs`, and both look at `bytes_required`; `execute_batch` then computes the sizes of
its buffers by a formula of its own. All of this is arithmetic modulo `2^64` on factors
of up to 31 bits each, so a job may look small and be huge: `wrapped_job_admitted` is one
that passes both gates with a size of `0`.

`admitted_sizes_exact_iff` says for which jobs the sizes mean what they say: those whose
exact size fits in a word.
-/

namespace Gbis.Sched

open Gbis.Core Library

namespace InferenceJob

/-- The elements of `A` across the batch, as an integer. -/
def exactA (job : InferenceJob) : ℤ := job.batch.toInt * (job.m.toInt * job.k.toInt)

/-- The elements of `B`. -/
def exactB (job : InferenceJob) : ℤ := job.batch.toInt * (job.k.toInt * job.n.toInt)

/-- The elements of `C`. -/
def exactC (job : InferenceJob) : ℤ := job.batch.toInt * (job.m.toInt * job.n.toInt)

theorem exactBytes_eq_sum (job : InferenceJob) : job.exactBytes = 4 * job.exactA + 4 * job.exactB + 4 * job.exactC := by
  unfold exactBytes exactA exactB exactC
  ring

theorem Positive.exactA_pos {job : InferenceJob} (h : job.Positive) : 0 < job.exactA :=
  Int.mul_pos (by have := h.batch; omega) (Int.mul_pos (by have := h.m; omega) (by have := h.k; omega))

theorem Positive.exactB_pos {job : InferenceJob} (h : job.Positive) : 0 < job.exactB :=
  Int.mul_pos (by have := h.batch; omega) (Int.mul_pos (by have := h.k; omega) (by have := h.n; omega))

theorem Positive.exactC_pos {job : InferenceJob} (h : job.Positive) : 0 < job.exactC :=
  Int.mul_pos (by have := h.batch; omega) (Int.mul_pos (by have := h.m; omega) (by have := h.n; omega))

end InferenceJob

/-- A count of elements `x * y * b`, and its bytes, when the exact bytes fit in a word. -/
theorem mulSize_exact {x y b : ℕ} (h : (4 * ((b : ℤ) * (x * y))) < (wordSize : ℤ)) :
    (mulSize (mulSize x y) b : ℤ) = b * (x * y) ∧ (mulSize (mulSize (mulSize x y) b) 4 : ℤ) = 4 * (b * (x * y)) := by
  have h : 4 * (b * (x * y)) < wordSize := by exact_mod_cast h
  have hcount : mulSize (mulSize x y) b = b * (x * y) := by
    rw [mulSize, mulSize, Nat.mod_mul_mod, Nat.mul_comm]
    exact Nat.mod_eq_of_lt (by omega)
  have hbytes : mulSize (mulSize (mulSize x y) b) 4 = 4 * (b * (x * y)) := by
    rw [hcount, mulSize, Nat.mul_comm]
    exact Nat.mod_eq_of_lt h
  constructor
  · rw [hcount]; push_cast; rfl
  · rw [hbytes]; push_cast; rfl

/-- The bytes a call asks for, if it allocates. -/
def asksFor : Call → Option ℕ
  | .cudaMalloc bytes | .cudaHostAlloc bytes => some bytes
  | _ => none

/-- A call that allocates asks for the bytes of one of the three matrices of `job`. -/
def AsksExactly (job : InferenceJob) (c : Call) : Prop :=
  ∀ bytes ∈ asksFor c, (bytes : ℤ) = 4 * job.exactA ∨ (bytes : ℤ) = 4 * job.exactB ∨ (bytes : ℤ) = 4 * job.exactC

/-- The sizes `execute_batch` computes for a job are the exact ones. -/
structure SizesExact (job : InferenceJob) : Prop where
  sa : (job.sa : ℤ) = job.exactA
  sb : (job.sb : ℤ) = job.exactB
  sc : (job.sc : ℤ) = job.exactC
  bytes_a : (mulSize job.sa 4 : ℤ) = 4 * job.exactA
  bytes_b : (mulSize job.sb 4 : ℤ) = 4 * job.exactB
  bytes_c : (mulSize job.sc 4 : ℤ) = 4 * job.exactC

variable {job : InferenceJob}

/-- **The sizes are exact when the exact size fits in a word.** -/
theorem sizesExact (h : job.Positive) (hlt : job.exactBytes < (wordSize : ℤ)) : SizesExact job := by
  obtain ⟨hm, hn, hk, hb⟩ := h.sizes
  have ha₀ := h.exactA_pos
  have hb₀ := h.exactB_pos
  have hc₀ := h.exactC_pos
  rw [job.exactBytes_eq_sum] at hlt
  have ha := mulSize_exact (x := toSize job.m) (y := toSize job.k) (b := toSize job.batch)
    (by rw [hm, hk, hb]; change 4 * job.exactA < _; omega)
  have hb' := mulSize_exact (x := toSize job.k) (y := toSize job.n) (b := toSize job.batch)
    (by rw [hk, hn, hb]; change 4 * job.exactB < _; omega)
  have hc := mulSize_exact (x := toSize job.m) (y := toSize job.n) (b := toSize job.batch)
    (by rw [hm, hn, hb]; change 4 * job.exactC < _; omega)
  rw [hm, hk, hb] at ha
  rw [hk, hn, hb] at hb'
  rw [hm, hn, hb] at hc
  exact ⟨ha.1, hb'.1, hc.1, ha.2, hb'.2, hc.2⟩

/-! ### What is asked for -/

theorem device_release_asks (self : Ref Locals DeviceBuffer) :
    (DeviceBuffer.release self).Within (AsksExactly job) (fun _ => ()) := by
  refine Host.within_bind Host.within_locals fun l => Host.within_bind ?_ fun _ => Host.within_assign fun _ => rfl
  unfold DeviceBuffer.free
  split
  · exact Host.within_call (by simp [AsksExactly, asksFor])
  · exact Host.within_pure _

theorem try_allocate_asks (self : Ref Locals DeviceBuffer) {count : ℕ}
    (h : AsksExactly job (.cudaMalloc (mulSize count 4))) :
    (DeviceBuffer.try_allocate self count).Within (AsksExactly job) (fun _ => ()) := by
  refine Host.within_bind (device_release_asks self) fun _ => ?_
  split_ifs
  · exact Host.within_pure _
  · refine Host.within_bind (Host.within_call h) fun err => ?_
    cases err <;> exact Host.within_bind (Host.within_assign fun _ => rfl) fun _ => Host.within_pure _

theorem pinned_allocate_asks (self : Ref Locals PinnedHostBuffer) {count : ℕ}
    (h : AsksExactly job (.cudaHostAlloc (mulSize count 4))) :
    (PinnedHostBuffer.allocate self count).Within (AsksExactly job) (fun _ => ()) := by
  refine Host.within_bind ?_ fun _ => ?_
  · refine Host.within_bind Host.within_locals fun l => Host.within_bind ?_ fun _ => Host.within_assign fun _ => rfl
    unfold PinnedHostBuffer.free
    split
    · exact Host.within_call (by simp [AsksExactly, asksFor])
    · exact Host.within_pure _
  · split_ifs
    · exact Host.within_pure _
    · refine Host.within_bind (Host.within_call h) fun err => ?_
      exact Host.within_bind (within_CUDA_CHECK err) fun _ => Host.within_assign fun _ => rfl

theorem orBreak_asks {alloc rest : WorkerM Status} (h₁ : alloc.Within (AsksExactly job) (fun _ => ()))
    (h₂ : rest.Within (AsksExactly job) (fun _ => ())) :
      (orBreak alloc rest).Within (AsksExactly job) (fun _ => ()) := by
  refine Host.within_bind h₁ fun err => ?_
  cases err
  · exact Host.within_pure _
  · exact h₂

/-- The allocations for a job whose sizes are exact ask for exact sizes. -/
theorem allocate_job_asks (h : SizesExact job) (i : ℕ) :
    (allocate_job i job).Within (AsksExactly job) (fun _ => ()) := by
  have ha : ∀ bytes ∈ some (mulSize job.sa 4), (bytes : ℤ) = 4 * job.exactA := by rintro _ ⟨⟩; exact h.bytes_a
  have hb : ∀ bytes ∈ some (mulSize job.sb 4), (bytes : ℤ) = 4 * job.exactB := by rintro _ ⟨⟩; exact h.bytes_b
  have hc : ∀ bytes ∈ some (mulSize job.sc 4), (bytes : ℤ) = 4 * job.exactC := by rintro _ ⟨⟩; exact h.bytes_c
  refine orBreak_asks (try_allocate_asks _ fun bytes hm => .inl (ha bytes hm)) ?_
  refine orBreak_asks (try_allocate_asks _ fun bytes hm => .inr (.inl (hb bytes hm))) ?_
  refine orBreak_asks (try_allocate_asks _ fun bytes hm => .inr (.inr (hc bytes hm))) ?_
  refine Host.within_bind (pinned_allocate_asks _ fun bytes hm => .inl (ha bytes hm)) fun _ => ?_
  refine Host.within_bind (pinned_allocate_asks _ fun bytes hm => .inr (.inl (hb bytes hm))) fun _ => ?_
  exact Host.within_bind (pinned_allocate_asks _ fun bytes hm => .inr (.inr (hc bytes hm))) fun _ => Host.within_pure _

/-! ### The gates -/

/-- **Which admitted jobs have exact sizes.** For a job that the filter keeps and
`pack_jobs` selects: it fits the budget, and the sizes computed and asked for are exact, if
and only if its exact size fits in a word. -/
theorem admitted_sizes_exact_iff {now : ℤ} {candidates : List InferenceJob} {max_job budget_bytes : ℕ}
    {max_batch : Int32}
    (hbudget : budget_bytes < wordSize) (h : job.Positive)
    (hsel : job ∈ (pack_jobs now (admitted max_job candidates) budget_bytes max_batch).selected) :
    (job.exactBytes ≤ (budget_bytes : ℤ) ∧ SizesExact job ∧
      ∀ i, (allocate_job i job).Within (AsksExactly job) (fun _ => ())) ↔ job.exactBytes < (wordSize : ℤ) := by
  constructor
  · rintro ⟨hle, -⟩
    exact lt_of_le_of_lt hle (by exact_mod_cast hbudget)
  · intro hlt
    have hexact := (InferenceJob.bytes_required_eq_iff h).mpr hlt
    have hle := bytes_le_of_mem_selected hsel
    refine ⟨?_, sizesExact h hlt, allocate_job_asks (sizesExact h hlt)⟩
    rw [← hexact]
    exact_mod_cast hle

/-- A job of four products of size `2^30`. -/
def wrappedJob : InferenceJob := { m := 1073741824, n := 1073741824, k := 1073741824, batch := 4 }

/-- A job whose size wraps to `0` passes both gates: it is three times `2^64` bytes large,
the budget is a megabyte, and no memory at all is asked for `A`. -/
theorem wrapped_job_admitted : wrappedJob.Positive ∧ wrappedJob.exactBytes = 3 * 2 ^ 64 ∧
    wrappedJob ∈ (pack_jobs 0 (admitted 1073741824 [wrappedJob]) 1048576 8).selected ∧ mulSize wrappedJob.sa 4 = 0 ∧
    ¬ (wrappedJob.exactBytes ≤ (1048576 : ℤ) ∧ SizesExact wrappedJob ∧
      ∀ i, (allocate_job i wrappedJob).Within (AsksExactly wrappedJob) (fun _ => ())) := by
  refine ⟨⟨by decide, by decide, by decide, by decide⟩, by decide, by decide, by decide, ?_⟩
  rintro ⟨hle, -⟩
  exact absurd hle (by decide)

/-- A job of some 270 kB, three products of `300` by `5` by `70`. -/
def packedJob : InferenceJob := { m := 300, n := 70, k := 5, batch := 3 }

/-- It is packed with a smaller one. -/
theorem admitted_sizes_exact_rectangular : packedJob.exactBytes = 274200 ∧
    packedJob.exactBytes ≤ 300000 ∧ SizesExact packedJob ∧
      ∀ i, (allocate_job i packedJob).Within (AsksExactly packedJob) (fun _ => ()) := by
  refine ⟨by decide, ?_⟩
  exact (admitted_sizes_exact_iff (by decide) ⟨by decide, by decide, by decide, by decide⟩
    (show _ ∈ (pack_jobs 0 (admitted 1000000 [packedJob, { m := 2, n := 3, k := 4, seq := 1 }]) 300000 8).selected
      by decide)).mpr (by decide)

end Gbis.Sched
