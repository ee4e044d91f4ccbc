import Gbis.Library.Ownership
import Gbis.Sched.GpuBuffers

/-!
# The allocation of a batch

What the worker holds, device memory and pinned memory, through all the attempts that
`execute_batch` makes at allocating the buffers of a batch, and until it returns. The library
may answer anything: any allocation of any attempt may fail, by a status or by an exception.

The buffers of the worker account for all that is held, at any time (`Holds`). So after a
release of all of them nothing is held, and that is where the worker sleeps; and the pipeline
begins only after an attempt that has filled every buffer to its size (`Complete`). `Tally`
counts what failed and what the worker made of it.
-/

namespace Gbis.Sched

open Gbis.Core Library

/-! ### What is held -/

/-- The failed device allocations of a turn, its sleeps, and what it adds to two counters. -/
structure Tally where
  /-- What the `cudaMalloc`s that failed answered, in order. -/
  failures : List CudaError := []
  /-- How often it has slept. -/
  sleeps : ℕ := 0
  /-- What it has added to `alloc_retries_`. -/
  alloc_retries : ℕ := 0
  /-- What it has added to `oom_failures_`. -/
  oom_failures : ℕ := 0

/-- What a turn holds, and its tally. -/
structure Allocs where
  /-- The bytes of each allocation it holds. -/
  live : Loc → Option ℕ := fun _ => none
  tally : Tally := {}

/-- A `cudaMalloc` fails. -/
def Tally.fail (t : Tally) (err : CudaError) : Tally := { t with failures := t.failures ++ [err] }

/-- No `cudaMalloc` has failed since the last sleep, if any. -/
def Tally.Trying (t : Tally) : Prop := t.failures.length = t.sleeps

namespace Allocs

/-- An allocation is handed out. -/
def take (s : Allocs) (loc : Loc) (bytes : ℕ) : Allocs := { s with live := Function.update s.live loc (some bytes) }

/-- One is given back, if there is one. -/
def free (s : Allocs) (loc : Option Loc) : Allocs := { s with live := without s.live loc }

/-- What a call does to what is held, and to the tally. -/
def apply (s : Allocs) : (c : Call) → c.Ret → Allocs
  | .cudaMalloc bytes, r => match r with
    | .ok p => s.take (.device p) bytes
    | .error err => { s with tally := s.tally.fail err }
  | .cudaHostAlloc bytes, r => match r with
    | .ok p => s.take (.host p) bytes
    | .error _ => s
  | .cudaFree p, _ => s.free (some (.device p))
  | .cudaFreeHost p, _ => s.free (some (.host p))
  | .sleep_for _, _ => { s with tally := { s.tally with sleeps := s.tally.sleeps + 1 } }
  | .add_alloc_retry, _ => { s with tally := { s.tally with alloc_retries := s.tally.alloc_retries + 1 } }
  | .add_oom_failure, _ => { s with tally := { s.tally with oom_failures := s.tally.oom_failures + 1 } }
  | _, _ => s

/-- What is handed out is not held already. -/
def Fresh (s : Allocs) : (c : Call) → c.Ret → Prop
  | .cudaMalloc _, .ok p => s.live (.device p) = none
  | .cudaHostAlloc _, .ok p => s.live (.host p) = none
  | _, _ => True

end Allocs

/-- What a buffer owns: the allocation, and its bytes. -/
def owned (v : Option Loc × ℕ) : Option (Loc × ℕ) := along (mulSize v.2 4) v.1

/-- The buffers of the `n` jobs own all that is held, and each allocation is owned by one. -/
structure Holds (n : ℕ) (l : Locals) (live : Loc → Option ℕ) : Prop where
  length : l.execs.length = n
  owners : Owners (fun x => owned (l.bufs x)) live

/-- What is held are the buffers of the batch: every job owns its six, of exactly the sizes it needs. -/
def Complete (batch : List InferenceJob) (live : Loc → Option ℕ) : Prop :=
  ∃ l : Locals, Holds batch.length l live ∧ ∀ i job, batch[i]? = some job → Fitted job i l

/-- When a call may be made. -/
def Permitted (batch : List InferenceJob) : Call → Allocs → Prop
  -- while it sleeps the worker holds nothing
  | .sleep_for _, s => ∀ loc, s.live loc = none
  -- a copy or a kernel has all the buffers of the batch behind it
  | .cudaMemcpyAsync .., s | .gemm_tiled_batched .., s | .cublasSgemmStridedBatched .., s => Complete batch s.live
  -- an attempt ends with the first `cudaMalloc` that fails, and a sleep begins the next one
  | .cudaMalloc _, s | .cudaHostAlloc _, s => s.tally.Trying
  | _, _ => True

/-- The world of the allocations of a turn. -/
def allocations (batch : List InferenceJob) : World Call Call.Ret Allocs where
  pre := Permitted batch
  answer s c r s' := s.Fresh c r ∧ s' = s.apply c r

/-- The counters are right. The `i`-th failure is that of the `i`-th attempt: the attempts repeated are those of the
first 200 that failed for want of memory, and the last one permitted is the one after these. -/
structure Tally.Right (t : Tally) : Prop where
  alloc_retries : t.alloc_retries = t.sleeps
  sleeps : t.sleeps = (t.failures.take kMaxAllocRetries).count .memoryAllocation
  oom_failures : t.oom_failures = if t.failures[kMaxAllocRetries]? = some .memoryAllocation then 1 else 0

variable {batch : List InferenceJob} {n : ℕ} {l l' : Locals} {s s' : Allocs} {t : Tally} {x : ℕ × Buf}

/-! ### Buffers that are filled and emptied -/

theorem Holds.congr {live : Loc → Option ℕ} (h : Holds n l live) (hb : l'.bufs = l.bufs)
    (hlen : l'.execs.length = l.execs.length) : Holds n l' live :=
  ⟨hlen.trans h.length, hb ▸ h.owners⟩

/-- Buffer `x` has become `v`, and the other buffers are as in `l`. -/
structure Assigned (n : ℕ) (x : ℕ × Buf) (v : Option Loc × ℕ) (l : Locals) (t : Tally) (l' : Locals) (s' : Allocs) :
    Prop where
  holds : Holds n l' s'.live
  bufs : l'.bufs = Function.update l.bufs x v
  tally : s'.tally = t

section

variable {B : Type} {self : Ref Locals B} {view : B → Option Loc × ℕ}

/-- A buffer whose allocation has been given back is empty. -/
theorem Holds.released (h : Holds n l s.live) (hs : IsBuf n self view x) {b : B} (hb : view b = (none, 0)) :
    Assigned n x (none, 0) l s.tally (self.set b l) (s.free (l.bufs x).1) := by
  have hset : (self.set b l).bufs = Function.update l.bufs x (none, 0) := hb ▸ hs.set b l h.length
  refine ⟨⟨(Prod.mk.inj (hs.shape b l)).2.trans h.length, ?_⟩, hset, rfl⟩
  have howners := h.owners.release_slot x (v := (none, 0)) rfl
  rwa [owned, map_fst_along, ← hset] at howners

/-- An empty buffer may be emptied again. -/
theorem Assigned.empty (h : Assigned n x (none, 0) l t l' s') (hs : IsBuf n self view x) {b : B}
    (hb : view b = (none, 0)) : Assigned n x (none, 0) l t (self.set b l') s' := by
  have hr := h.holds.released hs hb
  have hx : (l'.bufs x).1 = none := by rw [h.bufs, Function.update_self]
  rw [hx] at hr
  exact ⟨hr.holds, by rw [hr.bufs, h.bufs, Function.update_idem], h.tally⟩

/-- An empty buffer takes a new allocation. -/
theorem Assigned.adopt (h : Assigned n x (none, 0) l t l' s') (hs : IsBuf n self view x) {loc : Loc} {count : ℕ}
    (hfresh : s'.live loc = none) {b : B} (hb : view b = (some loc, count)) :
    Assigned n x (some loc, count) l t (self.set b l') (s'.take loc (mulSize count 4)) := by
  have hset : (self.set b l').bufs = Function.update l'.bufs x (some loc, count) := hb ▸ hs.set b l' h.holds.length
  have hx : owned (l'.bufs x) = none := by rw [h.bufs, Function.update_self]; rfl
  refine ⟨⟨(Prod.mk.inj (hs.shape b l')).2.trans h.holds.length, ?_⟩, ?_, h.tally⟩
  · rw [hset]
    exact h.holds.owners.acquire_slot hx hfresh rfl
  · rw [hset, h.bufs, Function.update_idem]

end

theorem device_free_held (b : DeviceBuffer) :
    (DeviceBuffer.free b).wp (allocations batch) (fun _ l' s' => l' = l ∧ s' = s.free (DeviceBuffer.view b).1)
      (fun _ _ _ => False) l s := by
  unfold DeviceBuffer.free DeviceBuffer.view
  cases b.data_ with
  | none => exact ⟨rfl, rfl⟩
  | some p =>
    rw [Host.wp_call]
    refine ⟨trivial, ?_⟩
    intro _ s' hs'
    exact ⟨rfl, hs'.2⟩

theorem pinned_free_held (b : PinnedHostBuffer) :
    (PinnedHostBuffer.free b).wp (allocations batch) (fun _ l' s' => l' = l ∧ s' = s.free (PinnedHostBuffer.view b).1)
      (fun _ _ _ => False) l s := by
  unfold PinnedHostBuffer.free PinnedHostBuffer.view
  cases b.data_ with
  | none => exact ⟨rfl, rfl⟩
  | some p =>
    rw [Host.wp_call]
    refine ⟨trivial, ?_⟩
    intro _ s' hs'
    exact ⟨rfl, hs'.2⟩

theorem device_release_held {self : Ref Locals DeviceBuffer} (hs : IsBuf n self DeviceBuffer.view x)
    (h : Holds n l s.live) :
    (DeviceBuffer.release self).wp (allocations batch) (fun _ => Assigned n x (none, 0) l s.tally)
      (fun _ _ _ => False) l s := by
  unfold DeviceBuffer.release
  rw [Host.wp_bind, Host.wp_locals]
  refine Host.wp_seq (device_free_held _) ?_ fun _ _ _ h => h
  rintro _ l' s' ⟨rfl, rfl⟩
  rw [Host.wp_assign, hs.get]
  exact h.released hs rfl

theorem pinned_release_held {self : Ref Locals PinnedHostBuffer} (hs : IsBuf n self PinnedHostBuffer.view x)
    (h : Holds n l s.live) :
    (PinnedHostBuffer.release self).wp (allocations batch) (fun _ => Assigned n x (none, 0) l s.tally)
      (fun _ _ _ => False) l s := by
  unfold PinnedHostBuffer.release
  rw [Host.wp_bind, Host.wp_locals]
  refine Host.wp_seq (pinned_free_held _) ?_ fun _ _ _ h => h
  rintro _ l' s' ⟨rfl, rfl⟩
  rw [Host.wp_assign, hs.get]
  exact h.released hs rfl

/-! ### An attempt -/

/-- The buffers in `done` have the sizes asked for. -/
structure Filled (n : ℕ) (size : ℕ × Buf → ℕ) (done : Set (ℕ × Buf)) (l : Locals) (s : Allocs) : Prop where
  holds : Holds n l s.live
  fits : ∀ y ∈ done, Fits (size y) (l.bufs y)

/-- The buffers account for what is held, and the tally is `t`. -/
structure HoldsAt (n : ℕ) (t : Tally) (l : Locals) (s : Allocs) : Prop where
  holds : Holds n l s.live
  tally : s.tally = t

/-- What a part of an attempt may come to: it has filled the buffers in `done`, or a `cudaMalloc` has failed. -/
def Obtained (n : ℕ) (size : ℕ × Buf → ℕ) (t : Tally) (done : Set (ℕ × Buf)) : Status → Locals → Allocs → Prop
  | .ok _, l, s => Filled n size done l s ∧ s.tally = t
  | .error err, l, s => HoldsAt n (t.fail err) l s

variable {size : ℕ × Buf → ℕ} {done done' : Set (ℕ × Buf)} {count : ℕ}

theorem Filled.assigned {v : Option Loc × ℕ} (h : Filled n size done l s) (ha : Assigned n x v l t l' s')
    (hv : Fits (size x) v) : Filled n size (insert x done) l' s' := by
  refine ⟨ha.holds, fun y hy => ?_⟩
  rw [ha.bufs]
  by_cases hyx : y = x
  · rwa [hyx, Function.update_self]
  · rw [Function.update_of_ne hyx]
    exact h.fits y (Set.mem_of_mem_insert_of_ne hy hyx)

theorem Filled.anti (h : Filled n size done l s) (hd : done' ⊆ done) : Filled n size done' l s :=
  ⟨h.holds, fun y hy => h.fits y (hd hy)⟩

theorem Obtained.anti {r : Status} (h : Obtained n size t done r l s) (hd : done' ⊆ done) :
    Obtained n size t done' r l s := by
  cases r with
  | error err => exact h
  | ok _ => exact ⟨h.1.anti hd, h.2⟩

theorem try_allocate_held {self : Ref Locals DeviceBuffer} (hs : IsBuf n self DeviceBuffer.view x)
    (hcount : size x = count) (h : Filled n size done l s) (ht : s.tally.Trying) :
    (DeviceBuffer.try_allocate self count).wp (allocations batch) (Obtained n size s.tally (insert x done))
      (fun _ => HoldsAt n s.tally) l s := by
  unfold DeviceBuffer.try_allocate DeviceBuffer.try_allocate_of
  refine Host.wp_seq (device_release_held hs h.holds) ?_ fun _ _ _ h => h.elim
  intro _ l₁ s₁ h₁
  split_ifs with hc
  · exact ⟨h.assigned h₁ (fits_zero rfl (hcount.trans hc)), h₁.tally⟩
  · rw [Host.wp_bind, Host.wp_call]
    refine ⟨show s₁.tally.Trying from h₁.tally ▸ ht, ?_⟩
    rintro (err | p) _ ⟨hfresh, rfl⟩
    · exact ⟨(h₁.empty hs rfl).holds, congrArg (Tally.fail · err) h₁.tally⟩
    · have h₂ := h₁.adopt hs hfresh (b := ⟨some p, count⟩) rfl
      exact ⟨h.assigned h₂ ⟨hcount.symm, by simp [hcount, hc]⟩, h₂.tally⟩

theorem pinned_allocate_held {self : Ref Locals PinnedHostBuffer} (hs : IsBuf n self PinnedHostBuffer.view x)
    (hcount : size x = count) (h : Filled n size done l s) (ht : s.tally.Trying) :
    (PinnedHostBuffer.allocate self count).wp (allocations batch)
      (fun _ => Obtained n size s.tally (insert x done) (.ok ())) (fun _ => HoldsAt n s.tally) l s := by
  unfold PinnedHostBuffer.allocate PinnedHostBuffer.allocate_of
  refine Host.wp_seq (pinned_release_held hs h.holds) ?_ fun _ _ _ h => h.elim
  intro _ l₁ s₁ h₁
  split_ifs with hc
  · exact ⟨h.assigned h₁ (fits_zero rfl (hcount.trans hc)), h₁.tally⟩
  · rw [Host.wp_bind, Host.wp_call]
    refine ⟨show s₁.tally.Trying from h₁.tally ▸ ht, ?_⟩
    rintro (err | p) _ ⟨hfresh, rfl⟩
    · exact ⟨h₁.holds, h₁.tally⟩
    · have h₂ := h₁.adopt hs hfresh (b := ⟨some p, count⟩) rfl
      exact ⟨h.assigned h₂ ⟨hcount.symm, by simp [hcount, hc]⟩, h₂.tally⟩

/-- What is done after a part of an attempt that has not failed. -/
theorem orBreak_held {alloc rest : WorkerM Status}
    (h : alloc.wp (allocations batch) (Obtained n size t done) (fun _ => HoldsAt n t) l s)
    (hrest : ∀ l s, Filled n size done l s → s.tally = t →
      rest.wp (allocations batch) (Obtained n size t done') (fun _ => HoldsAt n t) l s) :
    (orBreak alloc rest).wp (allocations batch) (Obtained n size t done') (fun _ => HoldsAt n t) l s := by
  refine Host.wp_seq h ?_ fun _ _ _ h => h
  intro r l s hr
  cases r with
  | error err => exact hr
  | ok _ => exact hrest l s hr.1 hr.2

/-- The buffers of the first `i` jobs. -/
def before (i : ℕ) : Set (ℕ × Buf) := {y | y.1 < i}

/-- All the buffers of a job, and those of the jobs before it. -/
theorem before_succ_subset (i : ℕ) :
    before (i + 1) ⊆ insert (i, .hc) (insert (i, .hb) (insert (i, .ha) (insert (i, .dc) (insert (i, .db)
      (insert (i, .da) (before i)))))) := by
  rintro ⟨j, w⟩ hj
  rcases Nat.lt_succ_iff_lt_or_eq.mp hj with hlt | rfl
  · simp [before, hlt]
  · cases w <;> simp

theorem allocate_job_held {i : ℕ} {job : InferenceJob} (hi : i < n) (hsize : ∀ w, size (i, w) = need job w)
    (h : Filled n size (before i) l s) (hst : s.tally = t) (ht : t.Trying) :
    (allocate_job i job).wp (allocations batch) (Obtained n size t (before (i + 1))) (fun _ => HoldsAt n t) l s := by
  subst hst
  refine orBreak_held (try_allocate_held (isBuf_da hi) (hsize .da) h ht) fun l₁ s₁ h₁ ht₁ => ?_
  rw [← ht₁] at ht ⊢
  refine orBreak_held (try_allocate_held (isBuf_db hi) (hsize .db) h₁ ht) fun l₂ s₂ h₂ ht₂ => ?_
  rw [← ht₂] at ht ⊢
  refine orBreak_held (try_allocate_held (isBuf_dc hi) (hsize .dc) h₂ ht) fun l₃ s₃ h₃ ht₃ => ?_
  rw [← ht₃] at ht ⊢
  refine Host.wp_seq (pinned_allocate_held (isBuf_ha hi) (hsize .ha) h₃ ht) ?_ fun _ _ _ h => h
  rintro _ l₄ s₄ ⟨h₄, ht₄⟩
  rw [← ht₄] at ht ⊢
  refine Host.wp_seq (pinned_allocate_held (isBuf_hb hi) (hsize .hb) h₄ ht) ?_ fun _ _ _ h => h
  rintro _ l₅ s₅ ⟨h₅, ht₅⟩
  rw [← ht₅] at ht ⊢
  refine Host.wp_seq (pinned_allocate_held (isBuf_hc hi) (hsize .hc) h₅ ht) ?_ fun _ _ _ h => h
  intro _ l₆ s₆ h₆
  exact Obtained.anti h₆ (before_succ_subset i)

/-- The sizes a batch needs. -/
def sizes (batch : List InferenceJob) : ℕ × Buf → ℕ := fun y => need (batch.getD y.1 default) y.2

theorem sizes_eq {i : ℕ} {job : InferenceJob} (hi : batch[i]? = some job) (w : Buf) :
    sizes batch (i, w) = need job w := by
  rw [sizes, List.getD_eq_getElem?_getD, hi, Option.getD_some]

theorem allocate_jobs_held {i : ℕ} {jobs : List InferenceJob} (hi : batch.drop i = jobs)
    (h : Filled batch.length (sizes batch) (before i) l s) (hst : s.tally = t) (ht : t.Trying) :
    (allocate_jobs i jobs).wp (allocations batch) (Obtained batch.length (sizes batch) t (before batch.length))
      (fun _ => HoldsAt batch.length t) l s := by
  induction jobs generalizing i l s with
  | nil =>
    have hlen : batch.length ≤ i := List.drop_eq_nil_iff.mp hi
    exact ⟨h.anti fun y hy => lt_of_lt_of_le hy hlen, hst⟩
  | cons job jobs ih =>
    obtain ⟨hjob, hrest⟩ := getElem?_of_drop hi
    have hlt : i < batch.length := (List.getElem?_eq_some_iff.mp hjob).1
    refine orBreak_held (allocate_job_held hlt (sizes_eq hjob) h hst ht) ?_
    intro l₁ s₁ h₁ hst₁
    exact ih hrest h₁ hst₁

/-! ### A release -/

/-- The release of a buffer empties it, and leaves the others. -/
theorem release_buf_held {i : ℕ} (hi : i < n) (w : Buf) (h : HoldsAt n t l s) :
    (release_buf i w).wp (allocations batch)
      (fun _ l' s' => HoldsAt n t l' s' ∧ ∀ y, (i, w) = y ∨ Fits 0 (l.bufs y) → Fits 0 (l'.bufs y)) (fun _ _ _ => False)
      l s := by
  have hassigned : ∀ l' s', Assigned n (i, w) (none, 0) l s.tally l' s' →
      HoldsAt n t l' s' ∧ ∀ y, (i, w) = y ∨ Fits 0 (l.bufs y) → Fits 0 (l'.bufs y) := by
    intro l' s' ha
    refine ⟨⟨ha.holds, ha.tally.trans h.tally⟩, fun y hy => ?_⟩
    rw [ha.bufs]
    by_cases hyx : y = (i, w)
    · rw [hyx, Function.update_self]
      exact fits_zero rfl rfl
    · rw [Function.update_of_ne hyx]
      exact hy.resolve_left (Ne.symm hyx)
  cases w with
  | da => exact Host.wp_mono (device_release_held (isBuf_da hi) h.holds) (fun _ => hassigned) fun _ _ _ h => h
  | db => exact Host.wp_mono (device_release_held (isBuf_db hi) h.holds) (fun _ => hassigned) fun _ _ _ h => h
  | dc => exact Host.wp_mono (device_release_held (isBuf_dc hi) h.holds) (fun _ => hassigned) fun _ _ _ h => h
  | ha => exact Host.wp_mono (pinned_release_held (isBuf_ha hi) h.holds) (fun _ => hassigned) fun _ _ _ h => h
  | hb => exact Host.wp_mono (pinned_release_held (isBuf_hb hi) h.holds) (fun _ => hassigned) fun _ _ _ h => h
  | hc => exact Host.wp_mono (pinned_release_held (isBuf_hc hi) h.holds) (fun _ => hassigned) fun _ _ _ h => h

/-- Where the buffers of all jobs are empty nothing is held. -/
theorem Holds.nothing (h : Holds n l s.live) (hempty : ∀ i < n, ∀ w, Fits 0 (l.bufs (i, w))) (loc : Loc) :
    s.live loc = none := by
  refine h.owners.live_eq_none (fun x => ?_) loc
  by_cases hx : x.1 < n
  · have hnone := (hempty x.1 hx x.2).2.mpr rfl
    rw [owned, hnone]
    rfl
  · -- beyond the jobs of the batch there are no buffers
    have hexec : l.exec x.1 = default := by
      rw [Locals.exec, List.getD_eq_getElem?_getD, List.getElem?_eq_none (by rw [h.length]; omega),
        Option.getD_none]
    rw [Locals.bufs, hexec]
    cases x.2 <;> rfl

/-- Once all buffers are released nothing is held. -/
theorem release_jobs_held {order : List Buf} (hall : ∀ w, w ∈ order) (h : HoldsAt n t l s) :
    (release_jobs order n).wp (allocations batch) (fun _ l' s' => HoldsAt n t l' s' ∧ ∀ loc, s'.live loc = none)
      (fun _ _ _ => False) l s := by
  refine Host.wp_mono (Host.wp_forEach_all (I := HoldsAt n t) (J := fun y l _ => Fits 0 (l.bufs y))
    (A := fun i y => ∃ w ∈ order, (i, w) = y) ?_ h) ?_ fun _ _ _ h => h
  · intro i hi l s h
    exact Host.wp_forEach_all (fun w _ l s h => release_buf_held (List.mem_range.mp hi) w h) h
  · rintro _ l s ⟨h, hempty⟩
    exact ⟨h, h.holds.nothing fun i hi w => hempty (i, w) (.inl ⟨i, List.mem_range.mpr hi, w, hall w, rfl⟩)⟩

/-! ### The attempts -/

/-- The tally after `k` attempts have been repeated. -/
def Tally.after (k : ℕ) : Tally := ⟨List.replicate k .memoryAllocation, k, k, 0⟩

theorem Tally.after_trying (k : ℕ) : (Tally.after k).Trying := List.length_replicate

/-- After `k` repetitions, with at most the permitted number of them. -/
def HoldsAfter (n : ℕ) (l : Locals) (s : Allocs) : Prop := ∃ k ≤ kMaxAllocRetries, HoldsAt n (.after k) l s

/-- What the attempts come to: one of them has filled all buffers; or the last one made has failed, and
if it was for want of memory it was the last one permitted. -/
def Attempted (batch : List InferenceJob) : Status → Locals → Allocs → Prop
  | .ok _, l, s =>
    Filled batch.length (sizes batch) (before batch.length) l s ∧ ∃ k ≤ kMaxAllocRetries, s.tally = .after k
  | .error err, l, s => ∃ k ≤ kMaxAllocRetries, HoldsAt batch.length ((Tally.after k).fail err) l s ∧
      (err = .memoryAllocation → k = kMaxAllocRetries)

theorem allocate_attempt_held {k : ℕ} (hk : k ≤ kMaxAllocRetries) {again : Option (WorkerM Status)}
    (hagain : ∀ p ∈ again, ∀ l s, HoldsAt batch.length (.after (k + 1)) l s →
      p.wp (allocations batch) (Attempted batch) (fun _ => HoldsAfter batch.length) l s)
    (hlast : again = none → k = kMaxAllocRetries) (h : HoldsAt batch.length (.after k) l s) :
    (allocate_attempt batch again).wp (allocations batch) (Attempted batch) (fun _ => HoldsAfter batch.length) l s := by
  have hfilled : Filled batch.length (sizes batch) (before 0) l s :=
    ⟨h.holds, fun y hy => absurd hy (Nat.not_lt_zero _)⟩
  unfold allocate_attempt
  refine Host.wp_seq (allocate_jobs_held rfl hfilled h.tally (Tally.after_trying k)) ?_ fun _ _ _ h => ⟨k, hk, h⟩
  intro r l s hr
  cases r with
  | ok _ => exact ⟨hr.1, k, hk, hr.2⟩
  | error err =>
    refine Host.wp_seq (release_jobs_held Buf.mem_declared hr) ?_ fun _ _ _ h => h.elim
    rintro _ l s ⟨hheld, hnone⟩
    rw [Host.wp_bind, Host.wp_call]
    refine ⟨trivial, ?_⟩
    rintro _ _ ⟨-, rfl⟩
    split
    · -- nothing is held while the worker sleeps, and the next attempt begins with one repetition more
      rw [Host.wp_bind, Host.wp_call]
      refine ⟨trivial, ?_⟩
      rintro _ _ ⟨-, rfl⟩
      rw [Host.wp_bind, Host.wp_call]
      refine ⟨hnone, ?_⟩
      rintro _ _ ⟨-, rfl⟩
      refine hagain _ rfl _ _ ⟨hheld.holds, ?_⟩
      simp only [Allocs.apply, hheld.tally, Tally.fail, Tally.after, List.replicate_succ']
    · rename_i hdone
      refine ⟨k, hk, hheld, fun herr => ?_⟩
      cases again with
      | none => exact hlast rfl
      | some p => exact absurd rfl (hdone p herr)

theorem allocate_attempts_held {k left : ℕ} (hk : k + left = kMaxAllocRetries)
    (h : HoldsAt batch.length (.after k) l s) :
    (allocate_attempts batch left).wp (allocations batch) (Attempted batch) (fun _ => HoldsAfter batch.length) l s := by
  induction left generalizing k l s with
  | zero => exact allocate_attempt_held (Nat.le_of_eq hk) (by simp) (fun _ => hk) h
  | succ left ih =>
    refine allocate_attempt_held (by omega) ?_ (fun he => by cases he) h
    rintro p ⟨⟩ l s h
    exact ih (by omega) h

/-! ### The counters -/

theorem Tally.right_after {k : ℕ} (hk : k ≤ kMaxAllocRetries) : (Tally.after k).Right := by
  refine ⟨rfl, ?_, ?_⟩
  · rw [Tally.after, List.take_of_length_le (by simpa using hk), List.count_replicate_self]
  · rw [Tally.after, List.getElem?_eq_none (by simpa using hk)]
    rfl

/-- A failure that is not for want of memory is not counted. -/
theorem Tally.right_fail {k : ℕ} (hk : k ≤ kMaxAllocRetries) {err : CudaError} (herr : err ≠ .memoryAllocation) :
    ((Tally.after k).fail err).Right := by
  refine ⟨rfl, ?_, ?_⟩
  · simp only [Tally.fail, Tally.after, List.take_append, List.length_replicate, List.take_replicate,
      List.count_append, Nat.min_eq_right hk, List.count_replicate_self]
    rw [List.count_eq_zero_of_not_mem, Nat.add_zero]
    exact fun hmem => herr (List.mem_singleton.mp (List.mem_of_mem_take hmem)).symm
  · have hget : ((Tally.after k).fail err).failures[kMaxAllocRetries]? ≠ some .memoryAllocation := by
      rw [Tally.fail, Tally.after, List.getElem?_append_right (by simpa using hk)]
      intro hget
      exact herr (List.mem_singleton.mp (List.mem_of_getElem? hget)).symm
    rw [if_neg hget]
    rfl

/-- The failure of the last attempt permitted is counted once. -/
theorem Tally.right_exhausted {t : Tally} (ht : t = (Tally.after kMaxAllocRetries).fail .memoryAllocation) :
    ({ t with oom_failures := t.oom_failures + 1 } : Tally).Right := by
  subst ht
  refine ⟨rfl, ?_, ?_⟩
  · simp [Tally.fail, Tally.after]
  · simp [Tally.fail, Tally.after]

/-- The buffers account for what is held, and the counters are right. -/
structure HoldsRight (n : ℕ) (l : Locals) (s : Allocs) : Prop where
  holds : Holds n l s.live
  right : s.tally.Right

theorem HoldsAfter.holdsRight (h : HoldsAfter n l s) : HoldsRight n l s := by
  obtain ⟨k, hk, h⟩ := h
  exact ⟨h.holds, h.tally ▸ Tally.right_after hk⟩

theorem Filled.complete (h : Filled batch.length (sizes batch) (before batch.length) l s) : Complete batch s.live := by
  refine ⟨l, h.holds, fun i job hi w => ?_⟩
  have hfits := h.fits (i, w) (List.getElem?_eq_some_iff.mp hi).1
  rwa [sizes_eq hi] at hfits

/-- The counters are right whether the allocation has succeeded or not, and it goes on only if all buffers are there. -/
theorem throw_unless_allocated_held (err : Status) (h : Attempted batch err l s) :
    (throw_unless_allocated err).wp (allocations batch)
      (fun _ l' s' => HoldsRight batch.length l' s' ∧ Complete batch s'.live) (fun _ => HoldsRight batch.length)
        l s := by
  rcases err with (_ | code) | ⟨⟩
  · obtain ⟨k, -, hheld, hlast⟩ := h
    obtain rfl := hlast rfl
    refine (Host.wp_bind _ _).mpr ?_
    rw [Host.wp_call]
    refine ⟨trivial, ?_⟩
    rintro _ _ ⟨-, rfl⟩
    exact ⟨hheld.holds, Tally.right_exhausted hheld.tally⟩
  · obtain ⟨k, hk, hheld, -⟩ := h
    exact ⟨hheld.holds, hheld.tally ▸ Tally.right_fail hk (by simp)⟩
  · obtain ⟨hfilled, k, hk, htally⟩ := h
    exact ⟨⟨hfilled.holds, htally ▸ Tally.right_after hk⟩, hfilled.complete⟩

/-! ### The turn -/

theorem apply_of_attempts {c : Call} (hc : attempts c = false) (r : c.Ret) : s.apply c r = s := by
  cases c <;> first | rfl | cases hc

/-- What makes no call of the allocations changes nothing. -/
theorem apart_held {α γ : Type} {p : WorkerM α} {P : Call → Prop} {f : Locals → γ} (hp : p.Within P f)
    (hP : ∀ c, P c → attempts c = false) (hpermitted : ∀ c, P c → Permitted batch c s) :
    p.wp (allocations batch) (fun _ l' s' => f l' = f l ∧ s' = s) (fun _ l' s' => f l' = f l ∧ s' = s) l s := by
  refine Host.wp_of_within (I := fun s' => s' = s) (fun c s' hc hs' => ?_) hp rfl
  subst hs'
  refine ⟨hpermitted c hc, ?_⟩
  rintro r _ ⟨-, rfl⟩
  exact apply_of_attempts (hP c hc) r

/-- Once all buffers are there, every other call may be made. -/
theorem Complete.permitted {c : Call} (h : Complete batch s.live) (hc : attempts c = false) : Permitted batch c s := by
  cases c <;> trivial

theorem HoldsRight.of_fixed (h : HoldsRight n l s) (hl : l'.fixed = l.fixed) : HoldsRight n l' s :=
  ⟨h.holds.congr (Locals.bufs_of_fixed hl) (Prod.mk.inj (Locals.shape_of_fixed hl)).2, h.right⟩

theorem storing_held {α : Type} {p : WorkerM α} (hp : Storing p)
    (h : HoldsRight batch.length l s ∧ Complete batch s.live) :
    p.wp (allocations batch) (fun _ l' s' => HoldsRight batch.length l' s' ∧ Complete batch s'.live)
      (fun _ => HoldsRight batch.length) l s := by
  refine Host.wp_mono (apart_held hp (fun _ hc => hc.2.1) fun _ hc => h.2.permitted hc.2.1) ?_ ?_
  · rintro _ l' _ ⟨hl, rfl⟩
    exact ⟨h.1.of_fixed hl, h.2⟩
  · rintro _ l' _ ⟨hl, rfl⟩
    exact h.1.of_fixed hl

theorem try_block_held (o : Options) (h : HoldsAt batch.length (.after 0) l s) :
    (try_block o batch).wp (allocations batch) (fun _ => HoldsRight batch.length) (fun _ => HoldsRight batch.length)
      l s := by
  refine try_block_rule (I := fun l s => HoldsRight batch.length l s ∧ Complete batch s.live)
    (O := fun _ l s => HoldsRight batch.length l s ∧ Complete batch s.live)
    (Host.wp_mono (allocate_attempts_held (Nat.zero_add _) h) (fun _ _ _ h => h) fun _ _ _ h => h.holdsRight)
    (fun err _ _ h => throw_unless_allocated_held err h) (fun hp _ _ h => storing_held hp.storing h)
    (fun _ _ h => storing_held (collect_jobs_storing o.retain_results 0 batch) h) ?_
  intro out l s h
  refine Host.wp_mono (apart_held (P := fun c => attempts c = false) (f := id)
    (Host.within_bind (Host.within_call rfl) fun _ => Host.within_call rfl) (fun _ hc => hc) fun _ hc =>
      h.2.permitted hc)
    ?_ ?_
  all_goals
    rintro _ l' _ ⟨rfl, rfl⟩
    exact h.1

/-- Nothing is held, and the counters are right. -/
structure Nothing (s : Allocs) : Prop where
  live : ∀ loc, s.live loc = none
  right : s.tally.Right

theorem nothing_start : Nothing {} := ⟨fun _ => rfl, Tally.right_after (Nat.zero_le _)⟩

/-- Before there are any buffers. -/
theorem preparing_held {α : Type} {p : WorkerM α} (hp : Preparing p) :
    p.wp (allocations batch) (fun _ _ s' => s' = {}) (fun _ _ => Nothing) l {} := by
  refine Host.wp_mono (apart_held hp (fun c hc => ?_) fun c hc => ?_) (fun _ _ _ h => h.2) fun _ _ _ h =>
    h.2 ▸ nothing_start
  · cases c <;> first | rfl | cases hc
  · cases c <;> trivial

theorem catch_block_held (e : Exn) (h : HoldsRight batch.length l s) :
    (catch_block batch e).wp (allocations batch) (fun _ => HoldsRight batch.length) (fun _ _ _ => True) l s := by
  refine Host.wp_mono (apart_held (P := fun c => c = .cudaDeviceSynchronize ∨ c = .fail_batch batch) (f := id)
    (Host.within_bind (Host.within_call (.inl rfl)) fun _ => Host.within_call (.inr rfl)) ?_ ?_) ?_
      fun _ _ _ _ => trivial
  · rintro _ (rfl | rfl) <;> rfl
  · rintro _ (rfl | rfl) <;> trivial
  · rintro _ l' _ ⟨rfl, rfl⟩
    exact h

theorem execute_batch_held (o : Options) :
    (execute_batch o batch).wp (allocations batch) (fun _ _ => Nothing) (fun _ _ => Nothing) l {} := by
  have hempty : ∀ (l : Locals) x, owned (({ l with execs := List.replicate batch.length {} } : Locals).bufs x) =
    none := by
    intro l x
    rw [bufs_replicate]
    rfl
  refine execute_batch_rule (P := fun _ s => s = {}) (R := fun _ s => s = {}) (M := HoldsRight batch.length)
    (Y := HoldsRight batch.length) (preparing_held create_streams_preparing) ?_ ?_ ?_ ?_
  · intro l s h
    subst h
    exact preparing_held (grow_events_preparing _)
  · intro l s h
    subst h
    exact try_block_held o ⟨⟨List.length_replicate, owners_of_empty (hempty l) fun _ => rfl⟩, rfl⟩
  · intro e l s h
    exact catch_block_held e h
  · intro l s h
    refine Host.wp_mono (release_jobs_held (by simp) ⟨h.holds, rfl⟩) ?_ fun _ _ _ h => h.elim
    rintro _ l s' ⟨hheld, hnone⟩
    exact ⟨hnone, hheld.tally ▸ h.right⟩

/-- **A batch is allocated as a whole, or not at all**: whatever the library answers, `execute_batch` makes
a call only when it is permitted. It sleeps with nothing held, and it issues copies and kernels with all the
buffers of the batch allocated. However it ends, nothing is held then, and the counters are right. -/
theorem allocation_all_or_nothing (o : Options) (batch : List InferenceJob) (l : Locals)
    (q : Prog Call Call.Ret (Except Exn Unit × Locals) × Allocs)
    (h : Relation.ReflTransGen (Exec (allocations batch)) (execute_batch o batch l, {}) q) :
    (∀ c k, q.1 = .call c k → Permitted batch c q.2) ∧
      ∀ r, q.1 = .pure r → (∀ loc, q.2.live loc = none) ∧ q.2.tally.Right := by
  have hwp := wp_exec h (execute_batch_held o)
  constructor
  · intro c k hq
    rw [hq] at hwp
    exact hwp.1
  · intro r hq
    rw [hq] at hwp
    obtain ⟨_ | _, l'⟩ := r <;> exact ⟨hwp.live, hwp.right⟩

theorem exec_call {p : Prog Call Call.Ret (Except Exn Unit × Locals) × Allocs} {c : Call}
    {k : c.Ret → Prog Call Call.Ret (Except Exn Unit × Locals)} {r : c.Ret}
    (h : Relation.ReflTransGen (Exec (allocations batch)) p (.call c k, s)) (hr : s.Fresh c r) :
    Relation.ReflTransGen (Exec (allocations batch)) p (k r, s.apply c r) := h.tail (.call ⟨hr, rfl⟩)

/-- The second device allocation of the first attempt fails, and the first one is given back before the worker sleeps.
-/
theorem allocation_all_or_nothing_retry :
    ∃ q : Prog Call Call.Ret (Except Exn Unit × Locals) × Allocs, ∃ k,
      Relation.ReflTransGen (Exec (allocations [{ m := 1, n := 1, k := 1 }]))
        (execute_batch {} [{ m := 1, n := 1, k := 1 }] {}, {}) q ∧
      q.1 = .call (.sleep_for 25) k ∧ q.2.tally.failures = [.memoryAllocation] ∧ ∀ loc, q.2.live loc = none := by
  have h : Relation.ReflTransGen (Exec (allocations [{ m := 1, n := 1, k := 1 }]))
      (execute_batch {} [{ m := 1, n := 1, k := 1 }] {}, {}) (execute_batch {} [{ m := 1, n := 1, k := 1 }] {}, {}) :=
    .refl
  have h := exec_call h (c := .cudaStreamCreateWithFlags) (r := .ok 0) trivial
  have h := exec_call h (c := .cudaStreamCreate) (r := .ok 1) trivial
  have h := exec_call h (c := .cudaStreamCreateWithFlags) (r := .ok 2) trivial
  have h := exec_call h (c := .cudaEventCreate) (r := .ok 0) trivial
  have h := exec_call h (c := .cudaEventCreate) (r := .ok 1) trivial
  have h := exec_call h (c := .cudaEventCreate) (r := .ok 2) trivial
  have h := exec_call h (c := .cudaMalloc 4) (r := .ok 0) rfl
  have h := exec_call h (c := .cudaMalloc 4) (r := .error .memoryAllocation) trivial
  have h := exec_call h (c := .cudaFree 0) (r := ()) trivial
  have h := exec_call h (c := .cudaGetLastError) (r := ()) trivial
  have h := exec_call h (c := .add_alloc_retry) (r := ()) trivial
  exact ⟨_, _, h, rfl, rfl, (allocation_all_or_nothing {} _ {} _ h).1 _ _ rfl⟩

end Gbis.Sched
