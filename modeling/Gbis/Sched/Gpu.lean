import Gbis.Library.Streams
import Gbis.Library.Transition
import Gbis.Sched.ExecuteBatch
import Mathlib.Logic.Function.Basic

/-!
# The GPU a worker drives

What the calls of a worker do to the GPU, by the semantics of CUDA streams and events
(`Gbis.Library.Streams`): a copy or a kernel is issued on a stream and done later; a record
and a wait are issued too; a synchronization answers when what it waits for has finished. A
call that fails may have issued its operation or not, but the launches of the tiled kernel
are taken to be accepted. Memory, device or pinned, is a buffer for each allocation, and
copies are of whole buffers. Two functions are left open (`Kernels`): what `fill_matrices`
writes, and what a GEMM computes.

`Safe` is what the code must see to with each call, and `workerOnGpu` is one worker, handed
one batch after another, on such a GPU, whose operations are done in any order the rules
allow.
-/

namespace Gbis.Sched

open Gbis.Core Library

/-- An allocation, by its pointer: of device memory or of pinned memory. -/
inductive Loc where
  | device (p : ℕ)
  | host (p : ℕ)
  deriving DecidableEq

/-- The contents of the allocations. -/
abbrev Contents := Loc → Floats

/-- Read a buffer; a null pointer has nothing to read. -/
def Contents.read (m : Contents) : Option Loc → Floats
  | some loc => m loc
  | none => []

/-- Overwrite a buffer; to a null pointer nothing is written. -/
def Contents.write (m : Contents) (v : Floats) : Option Loc → Contents
  | some loc => Function.update m loc v
  | none => m

/-- The functions on matrices. -/
structure Kernels where
  /-- The contents of `A` and `B` that `fill_matrices` writes for a job. -/
  fill_matrices : InferenceJob → Floats × Floats
  /-- `gemm_tiled_batched` and `gemm_cublas_batched`, on `M`, `N`, `K`, `batch`, `A` and `B`. -/
  gemm : Impl → Int32 → Int32 → Int32 → Int32 → Floats → Floats → Floats

/-- The work issued on streams. -/
inductive Work where
  | copy (dst src : Option Loc)
  | gemm (impl : Impl) (A B C : Option Loc) (M N K batch : Int32)

/-- What a piece of work does. -/
def Work.run (K : Kernels) : Work → Contents → Contents
  | .copy dst src, m => m.write (m.read src) dst
  | .gemm impl A B C M N k batch, m => m.write (K.gemm impl M N k batch (m.read A) (m.read B)) C

/-- The buffers it uses. -/
def Work.uses : Work → List (Option Loc)
  | .copy dst src => [dst, src]
  | .gemm _ A B C _ _ _ _ => [A, B, C]

/-- The operations issued. Streams are handles, with `none` for the default stream. -/
abbrev GpuOp := Issued (Option ℕ) ℕ Work

/-- The GPU, as the runtime shows it to one worker. -/
structure Gpu where
  /-- The operations, and the memory. -/
  dev : Device (Option ℕ) ℕ Work Contents
  /-- The live allocations, with the bytes asked for. -/
  live : Loc → Option ℕ := fun _ => none
  /-- The events that exist. -/
  events : List ℕ := []
  /-- The stream of each cuBLAS handle. -/
  handles : ℕ → Option ℕ := fun _ => none

namespace Gpu

/-- The GPU finishes an operation. -/
inductive Executes (K : Kernels) (g : Gpu) : Gpu → Prop where
  | dev {d : Device (Option ℕ) ℕ Work Contents} : g.dev.Executes (Work.run K) d → Executes K g { g with dev := d }

/-- Issue an operation. -/
def issue (g : Gpu) (s : Option ℕ) (op : StreamOp ℕ Work) : Gpu := { g with dev := g.dev.issue s op }

/-- A call that issues an operation, and may fail. -/
def Issues {ε : Type} (g : Gpu) (s : Option ℕ) (op : StreamOp ℕ Work) : Except ε Unit → Gpu → Prop
  | .ok _, g' => g' = g.issue s op
  | .error _, g' => g' = g ∨ g' = g.issue s op

/-- A call that allocates. -/
def Allocates (g : Gpu) (space : ℕ → Loc) (bytes : ℕ) : Except CudaError ℕ → Gpu → Prop
  | .ok p, g' => g.live (space p) = none ∧ g' = { g with live := Function.update g.live (space p) (some bytes) }
  | .error _, g' => g' = g

/-- Free an allocation. -/
def free (g : Gpu) (loc : Loc) : Gpu := { g with live := Function.update g.live loc none }

/-- Overwrite a buffer at once. -/
def write (g : Gpu) (v : Floats) (dst : Option Loc) : Gpu :=
  { g with dev := { g.dev with memory := g.dev.memory.write v dst } }

/-- The buffers of a copy. -/
def copyWork (kind : MemcpyKind) (dst src : Option ℕ) : Work :=
  match kind with
  | .hostToDevice => .copy (dst.map .device) (src.map .host)
  | .deviceToHost => .copy (dst.map .host) (src.map .device)

/-- The buffers of a GEMM. -/
def gemmWork (impl : Impl) (A B C : Option ℕ) (M N K batch : Int32) : Work :=
  .gemm impl (A.map .device) (B.map .device) (C.map .device) M N K batch

/-- What each call may answer, and what it does to the GPU. -/
def Answers (K : Kernels) (g : Gpu) : (c : Call) → c.Ret → Gpu → Prop
  | .cudaEventCreate, r, g' => match r with
    | .ok e => e ∉ g.events ∧ g' = { g with events := e :: g.events }
    | .error _ => g' = g
  | .cudaEventDestroy e, _, g' => g' = { g with events := g.events.erase e }
  | .cudaMalloc bytes, r, g' => g.Allocates .device bytes r g'
  | .cudaHostAlloc bytes, r, g' => g.Allocates .host bytes r g'
  | .cudaFree p, _, g' => g' = g.free (.device p)
  | .cudaFreeHost p, _, g' => g' = g.free (.host p)
  | .cudaMemcpyAsync kind dst src _ stream, r, g' => g.Issues stream (.work (copyWork kind dst src)) r g'
  | .cudaEventRecord e stream, r, g' => g.Issues stream (.record e) r g'
  | .cudaStreamWaitEvent stream e, r, g' => g.Issues stream (.wait e) r g'
  | .cudaEventSynchronize e, r, g' => g' = g ∧ (r = .ok () → g.dev.Synced e)
  | .cudaDeviceSynchronize, _, g' => g' = g ∧ g.dev.Idle
  | .gemm_tiled_batched A B C M N k batch stream, _, g' =>
    g' = g.issue stream (.work (gemmWork .tiled A B C M N k batch))
  | .cublasSetStream h stream, r, g' =>
    g' = { g with handles := Function.update g.handles h stream } ∨ r ≠ .ok () ∧ g' = g
  | .cublasSgemmStridedBatched h A B C M N k batch _, r, g' =>
    g.Issues (g.handles h) (.work (gemmWork .cublas A B C M N k batch)) r g'
  | .fill_matrices job a b, _, g' =>
    g' = (g.write (K.fill_matrices job).1 (a.map .host)).write (K.fill_matrices job).2 (b.map .host)
  | .read p _, r, g' => g' = g ∧ r = g.dev.memory.read (p.map .host)
  | _, _, g' => g' = g

/-- Some operation that has been issued and not finished uses the allocation. -/
def Busy (g : Gpu) (loc : Loc) : Prop :=
  ∃ i s w, g.dev.issued[i]? = some ⟨s, .work w⟩ ∧ i ∉ g.dev.finished ∧ some loc ∈ w.uses

/-- The buffer has this many bytes; a null pointer is a buffer of none. -/
def HasBytes (g : Gpu) (bytes : ℕ) : Option Loc → Prop
  | some loc => g.live loc = some bytes
  | none => bytes = 0

/-- The buffers are allocated, where they are not null. -/
def AllLive (g : Gpu) (w : Work) : Prop := ∀ loc, some loc ∈ w.uses → (g.live loc).isSome

end Gpu

/-! ### What the code must see to -/

/-- The `A` that `fill_matrices` leaves for a job; a buffer of no elements is null, and
nothing is written to it. -/
def inputA (K : Kernels) (job : InferenceJob) : Floats := if job.sa = 0 then [] else (K.fill_matrices job).1

@[inherit_doc inputA]
def inputB (K : Kernels) (job : InferenceJob) : Floats := if job.sb = 0 then [] else (K.fill_matrices job).2

/-- The product of the matrices `fill_matrices` writes for a job. -/
def product (K : Kernels) (impl : Impl) (job : InferenceJob) : Floats :=
  if job.sc = 0 then [] else K.gemm impl job.m job.n job.k job.batch (inputA K job) (inputB K job)

/-- What must hold when a call is made during a turn with `batch`. -/
def Safe (K : Kernels) (impl : Impl) (batch : List InferenceJob) : Call → Gpu → Prop
  -- an index is within its vector
  | .index size i, _ => i < size
  -- memory in use is not freed
  | .cudaFree p, g => ¬ g.Busy (.device p)
  | .cudaFreeHost p, g => ¬ g.Busy (.host p)
  -- what the host reads and writes is not in use
  | .fill_matrices _ a b, g => ∀ p ∈ [a, b], ∀ q ∈ p, ¬ g.Busy (.host q)
  | .read p _, g => ∀ q ∈ p, ¬ g.Busy (.host q)
  -- a copy is of whole buffers, and a kernel is given live ones
  | .cudaMemcpyAsync kind dst src bytes _, g =>
    ∀ p ∈ (Gpu.copyWork kind dst src).uses, g.HasBytes bytes p
  | .gemm_tiled_batched A B C M N k batch _, g => g.AllLive (Gpu.gemmWork .tiled A B C M N k batch)
  | .cublasSgemmStridedBatched _ A B C M N k batch _, g => g.AllLive (Gpu.gemmWork .cublas A B C M N k batch)
  -- a result that is stored is the job's own product
  | .store_result seq c, _ => ∃ job ∈ batch, job.seq = seq ∧ c = product K impl job
  | _, _ => True

/-- A worker in the middle of a turn, and its GPU. -/
structure Running where
  batch : List InferenceJob
  prog : Prog Call Call.Ret (Except Exn Unit × Locals)
  gpu : Gpu

/-- What may happen next. -/
inductive RunStep (K : Kernels) (o : Options) (s : Running) : Running → Prop where
  /-- The GPU finishes an operation. -/
  | execute {g : Gpu} : s.gpu.Executes K g → RunStep K o s { s with gpu := g }
  /-- The worker makes a call. -/
  | call {c : Call} {k : c.Ret → Prog Call Call.Ret (Except Exn Unit × Locals)} {r : c.Ret} {g : Gpu} :
      s.prog = .call c k → s.gpu.Answers K c r g → RunStep K o s { s with prog := k r, gpu := g }
  /-- It is done with its batch, and takes another, which is not empty. -/
  | next {l : Locals} {batch : List InferenceJob} : s.prog = .pure (.ok (), l) → batch ≠ [] →
      RunStep K o s { s with batch, prog := worker_body o false batch l }

/-- A worker on a GPU, from its creation on. -/
def workerOnGpu (K : Kernels) (o : Options) : System Running Unit where
  init s := ∃ memory, s = ⟨[], .pure (.ok (), {}), { dev := { memory } }⟩
  step s _ t := RunStep K o s t

end Gbis.Sched
