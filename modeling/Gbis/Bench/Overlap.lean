import Gbis.Kernels.Launch
import Gbis.Library.Streams
import Mathlib.Algebra.Order.Field.Rat
import Mathlib.Data.Rat.Floor
import Mathlib.Logic.Function.Basic

/-!
# The overlap benchmark

The four ways in which `src/bench/bench_overlap.cpp` runs the same jobs, as host programs:
`run_pageable`, which waits for everything; `run_pinned_single`, on one stream;
`run_pinned_overlap`, on a copy stream and a compute stream, with the events `ev_h2d` and
`ev_kern` recorded anew for every job; and `run_pinned_double_buffer`, on three streams.

The last three repeat the same thing, and differ in the streams and in what is enqueued for the
jobs; `run_pinned` is what they have in common. Each job has buffers of its own, of each kind.
A GEMM is a function of its two inputs, and overwrites its output. All that is enqueued is
checked but the launch of a kernel: a grid that is not within CUDA's limits executes nothing,
and nobody asks.

Doubles are rational numbers, rounded by `fl` after each operation. A throw ends the program.
-/

namespace Gbis.Bench

open Kernels Library

/-! ### The kernels -/

/-- `Shape`. -/
structure Shape where
  batch : Int32
  m : Int32
  n : Int32
  k : Int32

/-- The kernels, by the names they have on the command line; this benchmark has no `naive`. -/
inductive GemmFn where
  | naive
  | tiled
  | cublas

/-- What a kernel is launched with; cuBLAS is called, and answers with a status. -/
def GemmFn.grid (shape : Shape) : GemmFn → Option Dim3
  | .naive => some (naiveGrid shape.m shape.n shape.batch)
  | .tiled => some (tiledGrid shape.m shape.n shape.batch)
  | .cublas => none

/-- The grid is within CUDA's limits, if there is one. -/
def GemmFn.Accepted (gemm : GemmFn) (shape : Shape) : Prop := ∀ grid ∈ gemm.grid shape, grid.Launches

/-! ### The jobs -/

/-- The streams; `default` is stream `0`. -/
inductive Stream where
  | default
  | copy
  | compute
  | h2d
  | d2h
  deriving DecidableEq

/-- The events of a `Workspace`. -/
inductive Event where
  | start
  | stop
  | ev_h2d
  | ev_kern
  | c0 (i : ℕ)
  | c1 (i : ℕ)
  | k0 (i : ℕ)
  | k1 (i : ℕ)
  | d0 (i : ℕ)
  | d1 (i : ℕ)
  deriving DecidableEq

/-- The kinds of buffers of a `Workspace`. -/
inductive Buf where
  | page_a
  | page_b
  | page_c
  | pin_a
  | pin_b
  | pin_c
  | dev_a
  | dev_b
  | dev_c
  deriving DecidableEq

/-- The work for job `i`. -/
inductive Work where
  | copy (dst src : Buf) (i : ℕ)
  | gemm (i : ℕ)
  deriving DecidableEq

variable {V : Type}

/-- The contents of the buffers of each job. -/
abbrev Memory (V : Type) : Type := Buf × ℕ → V

/-- What a piece of work does. -/
def Work.run (gemm : V → V → V) : Work → Memory V → Memory V
  | .copy dst src i, m => Function.update m (dst, i) (m (src, i))
  | .gemm i, m => Function.update m (.dev_c, i) (gemm (m (.dev_a, i)) (m (.dev_b, i)))

/-- An operation, and the stream it is issued on. -/
abbrev Op : Type := Issued Stream Event Work

/-- The device. -/
abbrev Dev (V : Type) : Type := Device Stream Event Work (Memory V)

/-! ### The calls -/

/-- A call of the CUDA runtime, or of the clock. Whatever is enqueued is issued by `issue`, or is the kernel
for a job, by `launch`. -/
inductive Call where
  | issue (x : Op)
  | launch (grid : Dim3) (s : Stream) (i : ℕ)
  | cudaStreamCreate (s : Stream)
  | cudaStreamDestroy (s : Stream)
  | cudaEventSynchronize (e : Event)
  | cudaStreamSynchronize (s : Stream)
  | cudaDeviceSynchronize
  | cudaEventElapsedTime (e e' : Event)
  /-- `std::chrono::steady_clock::now()`, in milliseconds. -/
  | now

/-- What a call answers: a status, and with it a time. A launch answers nothing. -/
@[reducible] def Call.Ret : Call → Type
  | .issue _ | .cudaStreamCreate _ | .cudaStreamDestroy _ | .cudaEventSynchronize _ | .cudaStreamSynchronize _
  | .cudaDeviceSynchronize => Except Int32 Unit
  | .launch .. => Unit
  | .cudaEventElapsedTime .. => Except Int32 ℚ
  | .now => ℚ

/-- The event has been recorded, and all that came before its last record is done. -/
def Happened (d : Dev V) (e : Event) : Prop := ∃ j, LastRecord d.issued e d.issued.length j ∧ j ∈ d.finished

/-- What a call requires: time is measured between events that have happened. -/
def pre : Call → Dev V → Prop
  | .cudaEventElapsedTime e e', d => Happened d e ∧ Happened d e'
  | _, _ => True

/-- What the calls do. A failed one may have issued its operation or not. -/
inductive Answer (d : Dev V) : (c : Call) → c.Ret → Dev V → Prop where
  | issue (x : Op) : Answer d (.issue x) (.ok ()) (d.issue x.stream x.op)
  | issue_failed (x : Op) (status : Int32) {d' : Dev V} : d' = d ∨ d' = d.issue x.stream x.op →
      Answer d (.issue x) (.error status) d'
  | launch {grid : Dim3} (s : Stream) (i : ℕ) : grid.Launches →
      Answer d (.launch grid s i) () (d.issue s (.work (.gemm i)))
  | launch_refused {grid : Dim3} (s : Stream) (i : ℕ) : ¬ grid.Launches → Answer d (.launch grid s i) () d
  | create (s : Stream) (r : Except Int32 Unit) : Answer d (.cudaStreamCreate s) r d
  | destroy (s : Stream) (r : Except Int32 Unit) : Answer d (.cudaStreamDestroy s) r d
  | event {e : Event} : d.Synced e → Answer d (.cudaEventSynchronize e) (.ok ()) d
  | stream {s : Stream} : (∀ i op, d.issued[i]? = some ⟨s, op⟩ → i ∈ d.finished) →
      Answer d (.cudaStreamSynchronize s) (.ok ()) d
  | device : d.Idle → Answer d .cudaDeviceSynchronize (.ok ()) d
  | event_failed (e : Event) (status : Int32) : Answer d (.cudaEventSynchronize e) (.error status) d
  | stream_failed (s : Stream) (status : Int32) : Answer d (.cudaStreamSynchronize s) (.error status) d
  | device_failed (status : Int32) : Answer d .cudaDeviceSynchronize (.error status) d
  | elapsed (e e' : Event) (r : Except Int32 ℚ) : Answer d (.cudaEventElapsedTime e e') r d
  | now (t : ℚ) : Answer d .now t d

/-- The host beside a device that works on its own. -/
def world (gemm : V → V → V) : World Call Call.Ret (Dev V) :=
  World.interleave ⟨pre, Answer⟩ (Device.Executes (Work.run gemm))

/-! ### The host -/

/-- What is measured: `h`, `ksum` and `d` of one repetition, and the values kept of all. -/
structure Locals where
  h : ℚ := 0
  ksum : ℚ := 0
  d : ℚ := 0
  totals : List ℚ := []
  h2d : List ℚ := []
  kern : List ℚ := []
  d2h : List ℚ := []

/-- `Result`. -/
structure Result where
  h2d_ms : ℚ := 0
  kernel_ms : ℚ := 0
  d2h_ms : ℚ := 0
  total_ms : ℚ := 0

/-- `Options`, as far as the runs read them; `parse_args` sees to it that there are jobs and repetitions. -/
structure Options where
  jobs : ℕ := 20
  reps : ℕ := 5
  warmup : ℕ := 2
  jobs_pos : 0 < jobs
  reps_pos : 0 < reps

/-- A function of the benchmark, which may throw a status. -/
abbrev HostM (α : Type) : Type := Host Call Call.Ret Locals Int32 α

/-- `CUDA_CHECK`. -/
def CUDA_CHECK {α : Type} : Except Int32 α → HostM α
  | .ok a => pure a
  | .error status => Host.throw status

/-- Issue an operation, checked. -/
def issue (x : Op) : HostM Unit := do
  let r ← Host.call (.issue x)
  CUDA_CHECK r

/-- `gemm(w.dev_a[i].data(), ..., stream);` -/
def GemmFn.call (gemm : GemmFn) (shape : Shape) (s : Stream) (i : ℕ) : HostM Unit :=
  match gemm.grid shape with
  | some grid => Host.call (Call.launch grid s i)
  | none => issue ⟨s, .work (.gemm i)⟩

/-- Enqueue an operation: a GEMM by calling `gemm`, anything else by a call that is checked. -/
def enqueue_op (shape : Shape) (gemm : GemmFn) : Op → HostM Unit
  | ⟨s, .work (.gemm i)⟩ => gemm.call shape s i
  | x => issue x

/-- Enqueue operations in turn. -/
def enqueue_ops (shape : Shape) (gemm : GemmFn) : List Op → HostM Unit := Host.forEach (enqueue_op shape gemm)

/-- `elapsed_ms`. -/
def elapsed_ms (e e' : Event) : HostM ℚ := do
  let r ← Host.call (.cudaEventElapsedTime e e')
  CUDA_CHECK r

/-- `median`. -/
def median (fl : ℚ → ℚ) (values : List ℚ) : ℚ :=
  let sorted := values.mergeSort (· ≤ ·)
  let mid := values.length / 2
  if values.length % 2 = 1 then sorted.getD mid 0 else fl (1 / 2 * fl (sorted.getD (mid - 1) 0 + sorted.getD mid 0))

/-- `Result{median(h2d) / n, ...}`. -/
def result (fl : ℚ → ℚ) (opt : Options) (l : Locals) : Result where
  h2d_ms    := fl (median fl l.h2d / opt.jobs)
  kernel_ms := fl (median fl l.kern / opt.jobs)
  d2h_ms    := fl (median fl l.d2h / opt.jobs)
  total_ms  := fl (median fl l.totals / opt.jobs)

/-- Keep what has been measured in a repetition, if it is one that counts. -/
def keep (opt : Options) (rep : ℕ) (total : HostM ℚ) : HostM Unit :=
  if opt.warmup ≤ rep then do
    let total ← total
    Host.assign fun l =>
      { l with totals := l.totals ++ [total], h2d := l.h2d ++ [l.h], kern := l.kern ++ [l.ksum], d2h := l.d2h ++ [l.d] }
  else pure ()

/-! ### The runs with pinned memory -/

/-- `h += elapsed_ms(c0[i], c1[i]);` and so on. -/
def measure (fl : ℚ → ℚ) (i : ℕ) : HostM Unit := do
  let ms ← elapsed_ms (.c0 i) (.c1 i)
  Host.assign fun l => { l with h := fl (l.h + ms) }
  let ms ← elapsed_ms (.k0 i) (.k1 i)
  Host.assign fun l => { l with ksum := fl (l.ksum + ms) }
  let ms ← elapsed_ms (.d0 i) (.d1 i)
  Host.assign fun l => { l with d := fl (l.d + ms) }

/-- One repetition: the events `start` and `stop` go to the streams `first` and `last`. -/
def repetition (fl : ℚ → ℚ) (opt : Options) (first last : Stream) (enqueue : ℕ → HostM Unit) (rep : ℕ) :
    HostM Unit := do
  let r ← Host.call .cudaDeviceSynchronize
  CUDA_CHECK r
  issue ⟨first, .record .start⟩
  enqueue opt.jobs
  issue ⟨last, .record .stop⟩
  let r ← Host.call (.cudaEventSynchronize .stop)
  CUDA_CHECK r
  Host.assign fun l => { l with h := 0, ksum := 0, d := 0 }
  Host.forEach (measure fl) (List.range opt.jobs)
  keep opt rep (elapsed_ms .start .stop)

/-- What the three runs with pinned memory have in common. -/
def run_pinned (fl : ℚ → ℚ) (opt : Options) (first last : Stream) (enqueue : ℕ → HostM Unit) : HostM Result := do
  Host.assign fun _ => {}
  Host.forEach (repetition fl opt first last enqueue) (List.range (opt.warmup + opt.reps))
  let l ← Host.locals
  pure (result fl opt l)

/-- Create streams, run, and destroy them; a throw leaves them. -/
def with_streams (streams : List Stream) (run : HostM Result) : HostM Result := do
  Host.forEach (fun s => do
    let r ← Host.call (.cudaStreamCreate s)
    CUDA_CHECK r) streams
  let result ← run
  Host.forEach (fun s => do
    let r ← Host.call (.cudaStreamDestroy s)
    CUDA_CHECK r) streams
  pure result

/-- What `run_pinned_single` issues for job `i`. -/
def single_job (i : ℕ) : List Op :=
  [⟨.default, .record (.c0 i)⟩,
   ⟨.default, .work (.copy .dev_a .pin_a i)⟩,
   ⟨.default, .work (.copy .dev_b .pin_b i)⟩,
   ⟨.default, .record (.c1 i)⟩,
   ⟨.default, .record (.k0 i)⟩,
   ⟨.default, .work (.gemm i)⟩,
   ⟨.default, .record (.k1 i)⟩,
   ⟨.default, .record (.d0 i)⟩,
   ⟨.default, .work (.copy .pin_c .dev_c i)⟩,
   ⟨.default, .record (.d1 i)⟩]

/-- `run_pinned_single`. -/
def run_pinned_single (fl : ℚ → ℚ) (opt : Options) (shape : Shape) (gemm : GemmFn) : HostM Result :=
  run_pinned fl opt .default .default fun n =>
    Host.forEach (fun i => enqueue_ops shape gemm (single_job i)) (List.range n)

/-- What `run_pinned_overlap` issues for job `i`. -/
def overlap_job (i : ℕ) : List Op :=
  [⟨.copy, .record (.c0 i)⟩,
   ⟨.copy, .work (.copy .dev_a .pin_a i)⟩,
   ⟨.copy, .work (.copy .dev_b .pin_b i)⟩,
   ⟨.copy, .record (.c1 i)⟩,
   ⟨.copy, .record .ev_h2d⟩,
   ⟨.compute, .wait .ev_h2d⟩,
   ⟨.compute, .record (.k0 i)⟩,
   ⟨.compute, .work (.gemm i)⟩,
   ⟨.compute, .record (.k1 i)⟩,
   ⟨.compute, .record .ev_kern⟩,
   ⟨.copy, .wait .ev_kern⟩,
   ⟨.copy, .record (.d0 i)⟩,
   ⟨.copy, .work (.copy .pin_c .dev_c i)⟩,
   ⟨.copy, .record (.d1 i)⟩]

/-- `run_pinned_overlap`. -/
def run_pinned_overlap (fl : ℚ → ℚ) (opt : Options) (shape : Shape) (gemm : GemmFn) : HostM Result :=
  with_streams [.copy, .compute] <| run_pinned fl opt .copy .copy fun n =>
    Host.forEach (fun i => enqueue_ops shape gemm (overlap_job i)) (List.range n)

/-- What `enqueue_h2d` of `run_pinned_double_buffer` issues. -/
def h2d_job (i : ℕ) : List Op :=
  [⟨.h2d, .record (.c0 i)⟩,
   ⟨.h2d, .work (.copy .dev_a .pin_a i)⟩,
   ⟨.h2d, .work (.copy .dev_b .pin_b i)⟩,
   ⟨.h2d, .record (.c1 i)⟩]

/-- What its loop issues for job `i`. -/
def compute_job (i : ℕ) : List Op :=
  [⟨.compute, .wait (.c1 i)⟩,
   ⟨.compute, .record (.k0 i)⟩,
   ⟨.compute, .work (.gemm i)⟩,
   ⟨.compute, .record (.k1 i)⟩,
   ⟨.d2h, .wait (.k1 i)⟩,
   ⟨.d2h, .record (.d0 i)⟩,
   ⟨.d2h, .work (.copy .pin_c .dev_c i)⟩,
   ⟨.d2h, .record (.d1 i)⟩]

/-- `enqueue_h2d`. -/
def enqueue_h2d (shape : Shape) (gemm : GemmFn) (i : ℕ) : HostM Unit := enqueue_ops shape gemm (h2d_job i)

/-- The body of the loop over the jobs. -/
def double_buffer_job (shape : Shape) (gemm : GemmFn) (n i : ℕ) : HostM Unit := do
  enqueue_ops shape gemm (compute_job i)
  if i + 1 < n then enqueue_h2d shape gemm (i + 1) else pure ()

/-- The loop, after the inputs of the first job. -/
def double_buffer_jobs (shape : Shape) (gemm : GemmFn) (n : ℕ) : HostM Unit := do
  enqueue_h2d shape gemm 0
  Host.forEach (double_buffer_job shape gemm n) (List.range n)

/-- `run_pinned_double_buffer`. -/
def run_pinned_double_buffer (fl : ℚ → ℚ) (opt : Options) (shape : Shape) (gemm : GemmFn) : HostM Result :=
  with_streams [.h2d, .compute, .d2h] <| run_pinned fl opt .h2d .d2h (double_buffer_jobs shape gemm)

/-! ### The run with pageable memory -/

/-- `cudaMemcpy`: a copy on stream `0` that is waited for when it is to the host. -/
def cudaMemcpy_h2d (dst src : Buf) (i : ℕ) : HostM Unit := issue ⟨.default, .work (.copy dst src i)⟩

@[inherit_doc cudaMemcpy_h2d]
def cudaMemcpy_d2h (dst src : Buf) (i : ℕ) : HostM Unit := do
  issue ⟨.default, .work (.copy dst src i)⟩
  let r ← Host.call (.cudaStreamSynchronize .default)
  CUDA_CHECK r

/-- The body of the loop over the jobs. -/
def pageable_job (fl : ℚ → ℚ) (shape : Shape) (gemm : GemmFn) (i : ℕ) : HostM Unit := do
  let t0 ← Host.call .now
  cudaMemcpy_h2d .dev_a .page_a i
  cudaMemcpy_h2d .dev_b .page_b i
  let t1 ← Host.call .now
  Host.assign fun l => { l with h := fl (l.h + fl (t1 - t0)) }
  issue ⟨.default, .record (.k0 i)⟩
  gemm.call shape .default i
  issue ⟨.default, .record (.k1 i)⟩
  let r ← Host.call (.cudaEventSynchronize (.k1 i))
  CUDA_CHECK r
  let ms ← elapsed_ms (.k0 i) (.k1 i)
  Host.assign fun l => { l with ksum := fl (l.ksum + ms) }
  let t0 ← Host.call .now
  cudaMemcpy_d2h .page_c .dev_c i
  let t1 ← Host.call .now
  Host.assign fun l => { l with d := fl (l.d + fl (t1 - t0)) }

/-- One repetition. -/
def pageable_repetition (fl : ℚ → ℚ) (opt : Options) (shape : Shape) (gemm : GemmFn) (rep : ℕ) : HostM Unit := do
  let r ← Host.call .cudaDeviceSynchronize
  CUDA_CHECK r
  let wall0 ← Host.call .now
  Host.assign fun l => { l with h := 0, ksum := 0, d := 0 }
  Host.forEach (pageable_job fl shape gemm) (List.range opt.jobs)
  let wall1 ← Host.call .now
  keep opt rep (pure (fl (wall1 - wall0)))

/-- `run_pageable`. -/
def run_pageable (fl : ℚ → ℚ) (opt : Options) (shape : Shape) (gemm : GemmFn) : HostM Result := do
  Host.assign fun _ => {}
  Host.forEach (pageable_repetition fl opt shape gemm) (List.range (opt.warmup + opt.reps))
  let l ← Host.locals
  pure (result fl opt l)

/-- The four runs of `main`, for one shape: their results, in the order of the output. -/
def run_shape (fl : ℚ → ℚ) (opt : Options) (shape : Shape) (gemm : GemmFn) : HostM (List Result) := do
  let pageable ← run_pageable fl opt shape gemm
  let pinned1 ← run_pinned_single fl opt shape gemm
  let pinned2 ← run_pinned_overlap fl opt shape gemm
  let pinned3 ← run_pinned_double_buffer fl opt shape gemm
  pure [pageable, pinned1, pinned2, pinned3]

end Gbis.Bench
