import Gbis.Bindings.Arguments
import Gbis.Sched.Launched

/-!
# Kernels that are not launched

`batched_gemm` of `src/src/bindings/py_module.cpp`, and what it and the scheduler make of a
launch that CUDA refuses. Neither looks at the status of a launch: when every call reports
success, the metrics say that a job was done, and `batched_gemm` returns its array, whether the
kernel has run or not. `submit_job` takes all positive dimensions, and `batched_gemm` checks
the number of matrices alone. So a matrix of more than `65535 * 32` rows has a result that
nobody has written (`unwritten_result`), and the dimensions for which none has are those within
the limits (`reported_iff`).

A `py::array` is what the functions see of it: whether its elements are `float`s, its shape, and
where they lie once they are contiguous. A `py::ssize_t` is an `Int64`.
-/

namespace Gbis.Bindings

open Gbis.Core Gbis.Kernels Gbis.Sched Library

/-! ### Batched GEMM -/

/-- `py::array`. -/
structure PyArray where
  is_float : Bool
  shape : List Int64
  ptr : ℕ

/-- The number of elements. -/
def PyArray.size (a : PyArray) : Int64 := a.shape.foldl (· * ·) 1

/-- `b_batch`, `m_dim`, `n_dim` and `k_dim`. -/
structure GemmDims where
  b_batch : Int64
  m_dim : Int64
  n_dim : Int64
  k_dim : Int64
  deriving DecidableEq

/-- The checks of `batched_gemm`. -/
def checked_dims (a b : PyArray) : Except ValueError GemmDims :=
  if !a.is_float then .error ⟨"a must be a float32 array"⟩
  else if !b.is_float then .error ⟨"b must be a float32 array"⟩
  else match a.shape with
    | [b_batch, m_dim, k_dim] => match b.shape with
      | [b_batch', k_dim', n_dim] =>
        if b_batch' ≠ b_batch then .error ⟨"batch size mismatch between a and b"⟩
        else if k_dim' ≠ k_dim then .error ⟨"inner dimension mismatch between a and b"⟩
        else if m_dim ≤ 0 ∨ n_dim ≤ 0 ∨ k_dim ≤ 0 then .error ⟨"matrix dimensions must be positive"⟩
        else if b_batch ≤ 0 ∨ b_batch > 65535 then .error ⟨"batch size must be in [1, 65535]"⟩
        else .ok { b_batch, m_dim, n_dim, k_dim }
      | _ => .error ⟨"b must be 3-D (B, K, N)"⟩
    | _ => .error ⟨"a must be 3-D (B, M, K)"⟩

/-- The device buffers of `batched_gemm`. -/
structure GemmLocals where
  da : DeviceBuffer := {}
  db : DeviceBuffer := {}
  dc : DeviceBuffer := {}

/-- The variables `da`, `db` and `dc`. -/
def refA : Ref GemmLocals DeviceBuffer := ⟨GemmLocals.da, fun b l => { l with da := b }⟩

@[inherit_doc refA]
def refB : Ref GemmLocals DeviceBuffer := ⟨GemmLocals.db, fun b l => { l with db := b }⟩

@[inherit_doc refA]
def refC : Ref GemmLocals DeviceBuffer := ⟨GemmLocals.dc, fun b l => { l with dc := b }⟩

/-- `cudaMemcpyAsync` on the default stream, checked. -/
def copy (kind : MemcpyKind) (dst src : Option ℕ) (bytes : ℕ) : HostM GemmLocals Unit := do
  let r ← call (.cudaMemcpyAsync kind dst src bytes none)
  CUDA_CHECK r

/-- What `batched_gemm` does with the GIL released; `result` is the array it returns. -/
def gemm_on_device (a b result : PyArray) (dims : GemmDims) : HostM GemmLocals Unit := do
  let batch := dims.b_batch.toInt32
  let m_i := dims.m_dim.toInt32
  let n_i := dims.n_dim.toInt32
  let k_i := dims.k_dim.toInt32
  DeviceBuffer.allocate refA a.size.toUInt64.toNat
  DeviceBuffer.allocate refB b.size.toUInt64.toNat
  DeviceBuffer.allocate refC result.size.toUInt64.toNat
  let l ← Host.locals
  copy .hostToDevice l.da.data_ (some a.ptr) l.da.bytes
  copy .hostToDevice l.db.data_ (some b.ptr) l.db.bytes
  call (.gemm_tiled_batched l.da.data_ l.db.data_ l.dc.data_ m_i n_i k_i batch none)
  copy .deviceToHost (some result.ptr) l.dc.data_ l.dc.bytes
  let r ← call .cudaDeviceSynchronize
  CUDA_CHECK r

/-- The destructors of the buffers. -/
def destroy_buffers : HostM GemmLocals Unit := do
  DeviceBuffer.release refC
  DeviceBuffer.release refB
  DeviceBuffer.release refA

/-- The buffers are destroyed whether it returns or throws. -/
def gemm_scope (a b result : PyArray) (dims : GemmDims) : HostM GemmLocals Unit := do
  Host.tryCatch (gemm_on_device a b result dims) fun e => do
    destroy_buffers
    Host.throw e
  destroy_buffers

/-- `batched_gemm`: the array it returns, whose elements are at `ptr`, and what it does to fill
it. -/
def batched_gemm (a b : PyArray) (ptr : ℕ) : Except ValueError (PyArray × HostM GemmLocals Unit) := do
  let dims ← checked_dims a b
  let result : PyArray := { is_float := true, shape := [dims.b_batch, dims.m_dim, dims.n_dim], ptr }
  pure (result, gemm_scope a b result dims)

/-! ### Launches that are refused -/

/-- The tiled kernel has run on matrices of these dimensions: it was launched, and the launch
was within CUDA's limits. -/
def Ran (calls : Calls) (m n batch : ℤ) : Prop :=
  ∃ M N K b, Issued calls M N K b ∧ M.toInt = m ∧ N.toInt = n ∧ b.toInt = batch ∧ (tiledGrid M N b).Launches

/-- The dimensions for which CUDA launches the tiled kernel. -/
def InLimits (m n batch : ℤ) : Prop := m ≤ 65535 * 32 ∧ n ≤ 2 ^ 31 - 32 ∧ batch ≤ 65535

instance (m n batch : ℤ) : Decidable (InLimits m n batch) := inferInstanceAs (Decidable (_ ∧ _))

/-- What has run was within the limits. -/
theorem Ran.inLimits {calls : Calls} {m n batch : ℤ} (h : Ran calls m n batch) : InLimits m n batch := by
  obtain ⟨M, N, K, b, -, rfl, rfl, rfl, hl⟩ := h
  obtain ⟨hM, hN, hb⟩ := (launches_tiledGrid_iff M N b).mp hl
  exact ⟨hM.2, hN.2, hb.2⟩

/-- **A job of a batch**: its kernel has run, or its entry says that it failed. -/
def JobReported (out : Outcome) (job : InferenceJob) : Prop :=
  Ran out.calls job.m.toInt job.n.toInt job.batch.toInt ∨ ∃ e ∈ out.account.recorded, e.seq = job.seq ∧ e.ok = false

/-- A batch is executed with all calls succeeding: a job of it whose dimensions are positive is
reported if and only if these are within the limits. -/
theorem jobReported_iff {o : Options} (himpl : o.impl = .tiled) {f : Answers}
    (hf : ∀ n c, succeeded c (f n c) = true) {n : ℕ}
    {l l' : Locals} {batch : List InferenceJob} {out : Outcome}
    (hrun : (worker_body o false batch l).run f n = (out.calls, out.result, l')) {job : InferenceJob}
    (hjob : job ∈ batch)
    (hpos : job.Positive) : JobReported out job ↔ InLimits job.m.toInt job.n.toInt job.batch.toInt := by
  obtain ⟨-, hok, hissued⟩ := turn_succeeds himpl hf n l hrun
  constructor
  · rintro (hran | ⟨e, he, -, hfail⟩)
    · exact hran.inLimits
    · rw [hok e he] at hfail
      cases hfail
  · rintro ⟨hm, hn, hb⟩
    refine .inl ⟨_, _, _, _, hissued job hjob, rfl, rfl, rfl, ?_⟩
    exact (launches_tiledGrid_iff _ _ _).mpr ⟨⟨hpos.m, hm⟩, ⟨hpos.n, hn⟩, hpos.batch, hb⟩

/-- The dimensions that `batched_gemm` accepts are positive, and there are at most `65535` matrices. -/
theorem checked_dims_positive {a b : PyArray} {dims : GemmDims} (h : checked_dims a b = .ok dims) :
    1 ≤ dims.m_dim.toInt ∧ 1 ≤ dims.n_dim.toInt ∧ 1 ≤ dims.k_dim.toInt ∧ 1 ≤ dims.b_batch.toInt ∧
      dims.b_batch.toInt ≤ 65535 := by
  have positive : ∀ i : Int64, ¬ i ≤ 0 → 1 ≤ i.toInt := by
    intro i hi
    rw [Int64.le_iff_toInt_le] at hi
    change ¬ i.toInt ≤ 0 at hi
    omega
  unfold checked_dims at h
  split_ifs at h
  split at h
  · split at h
    · split_ifs at h with _ _ hdims hbatch
      cases h
      simp only [not_or] at hdims hbatch
      have hle : ¬ (65535 : Int64) < _ := hbatch.2
      rw [Int64.lt_iff_toInt_lt] at hle
      change ¬ 65535 < Int64.toInt _ at hle
      exact ⟨positive _ hdims.1, positive _ hdims.2.1, positive _ hdims.2.2, positive _ hbatch.1, by simpa using hle⟩
    · cases h
  · cases h

/-- A `py::ssize_t` that fits in an `int` is converted to itself. -/
theorem toInt_toInt32 {i : Int64} (h₁ : 1 ≤ i.toInt) (h₂ : i.toInt < 2 ^ 31) : i.toInt32.toInt = i.toInt := by
  rw [Int64.toInt_toInt32]
  exact Int.bmod_eq_of_le (by omega) (by omega)

/-- What every call is answered. -/
abbrev anyWorld : World Call Call.Ret Calls := World.recorded (fun _ => True) fun _ _ => True

/-- A function of which nothing but that it makes more calls is needed. -/
theorem wp_of_grows {α : Type} {p : HostM GemmLocals α} {Q : α → GemmLocals → Calls → Prop} {l : GemmLocals}
    {calls : Calls}
    (hQ : ∀ x l calls', calls ⊆ calls' → Q x l calls') : p.wp anyWorld Q (fun _ _ _ => True) l calls :=
  Host.wp_mono (Host.wp_recorded_grows p l calls) (fun x l calls' h => hQ x l calls' h) fun _ _ _ _ => trivial

/-- The kernel is launched before the function returns. -/
theorem gemm_on_device_issues (a b result : PyArray) (dims : GemmDims) (l : GemmLocals) (calls : Calls) :
    (gemm_on_device a b result dims).wp anyWorld
      (fun _ _ calls' => Issued calls' dims.m_dim.toInt32 dims.n_dim.toInt32 dims.k_dim.toInt32 dims.b_batch.toInt32)
      (fun _ _ _ => True) l calls := by
  unfold gemm_on_device
  rw [Host.wp_bind]
  refine wp_of_grows fun _ l calls _ => ?_
  rw [Host.wp_bind]
  refine wp_of_grows fun _ l calls _ => ?_
  rw [Host.wp_bind]
  refine wp_of_grows fun _ l calls _ => ?_
  rw [Host.wp_bind, Host.wp_locals, Host.wp_bind]
  refine wp_of_grows fun _ l' calls _ => ?_
  rw [Host.wp_bind]
  refine wp_of_grows fun _ l' calls _ => ?_
  rw [Host.wp_bind, Host.wp_call]
  refine ⟨trivial, ?_⟩
  rintro _ _ ⟨-, rfl⟩
  exact wp_of_grows fun _ _ calls' h => (issued_append calls _ _ _ _ _ _ _ _).mono h

/-- When the calls succeed it returns. -/
theorem gemm_on_device_proceeds (a b result : PyArray) (dims : GemmDims) :
    Proceeds' (gemm_on_device a b result dims) := by
  have allocate : ∀ self count, Proceeds' (DeviceBuffer.allocate self count : HostM GemmLocals Unit) :=
    fun self count =>
    Host.proceeds_bind (DeviceBuffer.try_allocate_proceeds self count) fun _ h => proceeds_CUDA_CHECK (by simp [h])
  have copies : ∀ kind dst src bytes, Proceeds' (copy kind dst src bytes) := fun _ _ _ _ =>
    Host.proceeds_bind (proceeds_call trivial (by rintro _ hr e rfl; cases hr)) fun _ => proceeds_CUDA_CHECK
  refine Host.proceeds_bind (allocate refA _) fun _ _ => ?_
  refine Host.proceeds_bind (allocate refB _) fun _ _ => ?_
  refine Host.proceeds_bind (allocate refC _) fun _ _ => ?_
  refine Host.proceeds_bind Host.proceeds_locals fun l _ => ?_
  refine Host.proceeds_bind (copies _ _ _ _) fun _ _ => ?_
  refine Host.proceeds_bind (copies _ _ _ _) fun _ _ => ?_
  refine Host.proceeds_bind (Host.proceeds_call trivial) fun _ _ => ?_
  refine Host.proceeds_bind (copies _ _ _ _) fun _ _ => ?_
  exact Host.proceeds_bind (proceeds_call trivial (by rintro _ hr e rfl; cases hr)) fun _ => proceeds_CUDA_CHECK

theorem destroy_buffers_proceeds : Proceeds' destroy_buffers :=
  Host.proceeds_bind (DeviceBuffer.release_proceeds _) fun _ _ =>
    Host.proceeds_bind (DeviceBuffer.release_proceeds _) fun _ _ => DeviceBuffer.release_proceeds _

/-- **A call of `batched_gemm`**: its kernel has run, or it throws. -/
def GemmReported (calls : Calls) (result : Except Exn Unit) (dims : GemmDims) : Prop :=
  Ran calls dims.m_dim.toInt dims.n_dim.toInt dims.b_batch.toInt ∨ ∃ e, result = .error e

theorem gemm_scope_proceeds (a b result : PyArray) (dims : GemmDims) : Proceeds' (gemm_scope a b result dims) :=
  Host.proceeds_bind (Host.proceeds_tryCatch _ (gemm_on_device_proceeds a b result dims)) fun _ _ =>
    destroy_buffers_proceeds

theorem gemm_scope_issues (a b result : PyArray) (dims : GemmDims) (l : GemmLocals) (calls : Calls) :
    (gemm_scope a b result dims).wp anyWorld
      (fun _ _ calls' => Issued calls' dims.m_dim.toInt32 dims.n_dim.toInt32 dims.k_dim.toInt32 dims.b_batch.toInt32)
      (fun _ _ _ => True) l calls := by
  unfold gemm_scope
  rw [Host.wp_bind, Host.wp_tryCatch]
  refine Host.wp_mono (gemm_on_device_issues a b result dims l calls) ?_ ?_
  · intro _ l calls hissued
    exact wp_of_grows fun _ _ _ h => hissued.mono h
  · intro e l calls _
    rw [Host.wp_bind]
    exact wp_of_grows fun _ _ _ _ => trivial

/-- Whatever the library answers, `batched_gemm` is reported if the dimensions are within the
limits; and if the library reports success, only then. -/
theorem gemmReported_iff {a b result : PyArray} {dims : GemmDims} (hdims : checked_dims a b = .ok dims) :
    (∀ f n, GemmReported ((gemm_scope a b result dims {}).run f n).1
      ((gemm_scope a b result dims {}).run f n).2.1 dims) ↔
      InLimits dims.m_dim.toInt dims.n_dim.toInt dims.b_batch.toInt := by
  constructor
  · intro h
    rcases h (fun _ => succeed) 0 with hran | ⟨e, he⟩
    · exact hran.inLimits
    · obtain ⟨hend, -⟩ := Prog.wp_run_recorded (f := fun _ => succeed) (fun _ => succeeded_succeed) 0
        (gemm_scope_proceeds a b result dims {} [])
      rcases hrun : (gemm_scope a b result dims {}).run (fun _ => succeed) 0 with ⟨calls, res, l⟩
      rw [hrun] at hend he
      obtain rfl : res = .error e := he
      exact hend.elim
  · rintro ⟨hm, hn, hb⟩ f n
    obtain ⟨hm₁, hn₁, -, hb₁, -⟩ := checked_dims_positive hdims
    obtain ⟨hend, -⟩ := Prog.wp_run_recorded (f := f) (fun _ _ => trivial) n (gemm_scope_issues a b result dims {} [])
    rcases hrun : (gemm_scope a b result dims {}).run f n with ⟨calls, res | ⟨⟩, l⟩
    · exact .inr ⟨res, rfl⟩
    · rw [hrun] at hend
      have hM := toInt_toInt32 hm₁ (by omega)
      have hN := toInt_toInt32 hn₁ (by omega)
      have hB := toInt_toInt32 hb₁ (by omega)
      refine .inl ⟨_, _, _, _, hend, hM, hN, hB, ?_⟩
      rw [launches_tiledGrid_iff, hM, hN, hB]
      exact ⟨⟨hm₁, hm⟩, ⟨hn₁, hn⟩, hb₁, hb⟩

/-- **Which shapes are reported.** A job that `submit_job` accepts, in a batch that is executed
with every call reporting success, has run or has an entry that says it failed, if and only if
its dimensions are within the limits of a launch. And so has a call of `batched_gemm` with
arrays that it accepts, whatever the library answers: its kernel has run, or it throws. -/
theorem reported_iff {o : Options} (himpl : o.impl = .tiled) {f : Answers}
    (hf : ∀ n c, succeeded c (f n c) = true) {n : ℕ}
    {l l' : Locals} {batch : List InferenceJob} {out : Outcome}
    (hrun : (worker_body o false batch l).run f n = (out.calls, out.result, l'))
    {m_dim n_dim k_dim b_dim priority : Int32} {job : InferenceJob}
    (hacc : submitted_job m_dim n_dim k_dim b_dim priority = .ok job) {t : ℤ} {seq : ℕ}
    (hjob : { job with submit_time := t, seq } ∈ batch) {a b : PyArray} {dims : GemmDims}
    (hdims : checked_dims a b = .ok dims)
    {ptr : ℕ} {result : PyArray} {prog : HostM GemmLocals Unit} (hprog : batched_gemm a b ptr = .ok (result, prog)) :
    (JobReported out { job with submit_time := t, seq } ↔ InLimits m_dim.toInt n_dim.toInt b_dim.toInt) ∧
    ((∀ f n, GemmReported ((prog {}).run f n).1 ((prog {}).run f n).2.1 dims) ↔
      InLimits dims.m_dim.toInt dims.n_dim.toInt dims.b_batch.toInt) := by
  refine ⟨?_, ?_⟩
  · obtain ⟨hpos, rfl⟩ := submitted_job_eq_ok.mp hacc
    exact jobReported_iff himpl hf hrun hjob ⟨hpos.m, hpos.n, hpos.k, hpos.batch⟩
  · unfold batched_gemm at hprog
    rw [hdims] at hprog
    cases hprog
    exact gemmReported_iff hdims

/-- There is a GPU, and every call reports success. -/
def successful (_ : State) : Action → Bool
  | .answer _ c r => succeeded c r
  | .probe gpu_absent _ => !gpu_absent
  | _ => true

/-- Answers in which memory is new. -/
def freshMemory : Answers
  | n, .cudaMalloc _ => .ok n
  | _, c => succeed c

/-- The smallest job with too many rows, of some 16 MiB. -/
def tallJob : InferenceJob := { m := 2097121, n := 1, k := 1 }

/-- One worker, and a fixed budget of 64 MiB. -/
def tallOptions : Options := { num_workers := 1, fixed_budget_bytes := 67108864 }

/-- A column of as many rows. -/
def tallArray : PyArray := { is_float := true, shape := [1, 2097121, 1], ptr := 1 }

/-- A matrix of one element. -/
def unitArray : PyArray := { is_float := true, shape := [1, 1, 1], ptr := 2 }

/-- The tall job is submitted, packed and executed. -/
def tallTrace : List Action :=
  [.start, .probe false 1073741824, .spawn, .spawn, .submit tallJob, .client 0] ++ List.replicate 9 .dispatcher ++
  [.notify_worker none, .worker 0] ++
  ((worker_body tallOptions false [{ tallJob with submit_time := 1 }] {}).run freshMemory 0).1.map
    (fun e => .answer 0 e.1 e.2) ++ [.worker 0]

/-- With `2097121` rows CUDA launches nothing; the job's entry says that it is done, and
`batched_gemm` returns. -/
theorem unwritten_result :
    submitted_job 2097121 1 1 1 0 = .ok tallJob ∧ ¬ (tiledGrid 2097121 1 1).Launches ∧
    (∃ s, Reachable (scheduler tallOptions) (fun s a => successful s a = true) s ∧
      s.metrics_.map (fun e => (e.seq, e.ok)) = [(0, true)]) ∧
    checked_dims tallArray unitArray = .ok ⟨1, 2097121, 1, 1⟩ ∧
    ∃ result prog, batched_gemm tallArray unitArray 3 = .ok (result, prog) ∧
      ((prog {}).run (fun _ => succeed) 0).2.1 = .ok () := by
  refine ⟨by decide, by decide, ?_, by decide, _, _, rfl, rfl⟩
  obtain ⟨s, hr, hp⟩ := exists_of_follow tallOptions (fun s a => successful s a = true) 1 tallTrace
    (fun s => s.metrics_.map (fun e => (e.seq, e.ok)) = [(0, true)]) (by decide +kernel)
  exact ⟨s, hr, by simpa using hp⟩

/-- A job of `300` by `5` by `70`, three times. -/
def rectangularJob : InferenceJob := { m := 300, n := 70, k := 5, batch := 3, priority := 1 }

/-- The turn of a batch in which it is the second job, when every call reports success. -/
def rectangularTurn : Outcome :=
  let turn := (worker_body {} false [{ m := 2, n := 3, k := 4, submit_time := 1 },
    { rectangularJob with submit_time := 2, seq := 1 }] {}).run (fun _ => succeed) 0
  ⟨turn.1, turn.2.1⟩

/-- Its matrices. -/
def leftArray : PyArray := { is_float := true, shape := [3, 300, 5], ptr := 1 }

@[inherit_doc leftArray]
def rightArray : PyArray := { is_float := true, shape := [3, 5, 70], ptr := 2 }

/-- The job is reported, and so is the product of the arrays. -/
theorem reported_iff_rectangular : JobReported rectangularTurn { rectangularJob with submit_time := 2, seq := 1 } ∧
    ∃ result prog, batched_gemm leftArray rightArray 3 = .ok (result, prog) ∧
      ∀ f n, GemmReported ((prog {}).run f n).1 ((prog {}).run f n).2.1 ⟨3, 300, 70, 5⟩ := by
  obtain ⟨hjob, hgemm⟩ := reported_iff (show ({} : Options).impl = .tiled from rfl) (fun _ => succeeded_succeed)
    (show (worker_body {} false [{ m := 2, n := 3, k := 4, submit_time := 1 },
      { rectangularJob with submit_time := 2, seq := 1 }] {}).run (fun _ => succeed) 0 =
        (rectangularTurn.calls, rectangularTurn.result, _) from rfl)
    (show submitted_job 300 70 5 3 1 = .ok rectangularJob from rfl)
    (List.mem_cons_of_mem _ List.mem_cons_self)
    (show checked_dims leftArray rightArray = .ok ⟨3, 300, 70, 5⟩ from by decide)
    (show batched_gemm leftArray rightArray 3 = _ from rfl)
  exact ⟨hjob.mpr (by decide), _, _, rfl, hgemm.mpr (by decide)⟩

end Gbis.Bindings
