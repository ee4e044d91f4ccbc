import Gbis.Sched.Failure
import Gbis.Sched.GpuBuffers

/-!
# A GPU that works in order

A GPU that finishes its operations one after the other, in the order in which they were issued, is
one that the rules of streams and events allow: what an operation awaits was issued before it. Its
state is a number (`Gpu.upTo`), and what it does is a function: it answers calls as if nothing ever
failed (`Gpu.serve`), and it finishes the next operation (`Gpu.finish`). So runs on such a GPU can be
computed, and are runs (`answers_of_serve`, `executes_of_finish`).

`PacedWorker.next` is one step of a worker beside it: the GPU does nothing until the worker has to wait.
-/

namespace Gbis.Sched

open Gbis.Core Library

variable {K : Kernels} {o : Options} {g g' : Gpu} {n : ℕ}

/-- The GPU, when the first `n` operations have finished. -/
def Gpu.upTo (g : Gpu) (n : ℕ) : Gpu := { g with dev := { g.dev with finished := {i | i < n} } }

/-- Record an event. -/
def isRecord (e : ℕ) : StreamOp ℕ Work → Bool
  | .record e' => e = e'
  | _ => false

/-- What a call makes of the GPU when the first `n` operations have finished, if it may succeed with this answer. -/
def Gpu.serve (K : Kernels) (g : Gpu) (n : ℕ) : (c : Call) → c.Ret → Option Gpu
  | .cudaEventCreate, .ok e => if e ∈ g.events then none else some { g with events := e :: g.events }
  | .cudaMalloc bytes, .ok p =>
    if g.live (.device p) = none then some { g with live := Function.update g.live (.device p) (some bytes) } else none
  | .cudaHostAlloc bytes, .ok p =>
    if g.live (.host p) = none then some { g with live := Function.update g.live (.host p) (some bytes) } else none
  | .cudaFree p, _ => some (g.free (.device p))
  | .cudaFreeHost p, _ => some (g.free (.host p))
  | .cudaMemcpyAsync kind dst src _ stream, .ok _ => some (g.issue stream (.work (copyWork kind dst src)))
  | .cudaEventRecord e stream, .ok _ => some (g.issue stream (.record e))
  | .cudaStreamWaitEvent stream e, .ok _ => some (g.issue stream (.wait e))
  | .cudaEventSynchronize e, .ok _ => if (g.dev.issued.drop n).any (fun x => isRecord e x.op) then none else some g
  | .gemm_tiled_batched A B C M N k batch stream, _ =>
    some (g.issue stream (.work (gemmWork .tiled A B C M N k batch)))
  | .fill_matrices job a b, _ =>
    some ((g.write (K.fill_matrices job).1 (a.map .host)).write (K.fill_matrices job).2 (b.map .host))
  | .read p _, r => if r = g.dev.memory.read (p.map .host) then some g else none
  | .index .., _ | .store_result .., _ => some g
  | c, _ => if aside c then some g else none

/-- The rules allow it. -/
theorem answers_of_serve {c : Call} {r : c.Ret} (h : g.serve K n c r = some g') :
    (g.upTo n).Answers K c r (g'.upTo n) := by
  cases c with
  | cudaMemcpyAsync | cudaEventRecord | cudaStreamWaitEvent =>
    cases r with
    | ok _ =>
      cases h
      rfl
    | error => cases h
  | gemm_tiled_batched | cudaFree | cudaFreeHost | fill_matrices | index | store_result =>
    cases h
    rfl
  | cudaEventCreate =>
    cases r with
    | ok e =>
      simp only [Gpu.serve] at h
      split_ifs at h with he
      cases h
      exact ⟨he, rfl⟩
    | error => cases h
  | cudaMalloc | cudaHostAlloc =>
    cases r with
    | ok p =>
      simp only [Gpu.serve] at h
      split_ifs at h with hp
      cases h
      exact ⟨hp, rfl⟩
    | error => cases h
  | cudaEventSynchronize e =>
    cases r with
    | ok _ =>
      simp only [Gpu.serve] at h
      split_ifs at h with hrecorded
      cases h
      refine ⟨rfl, fun _ j hj => ?_⟩
      -- the last record is among the first operations
      obtain ⟨s, hs⟩ := hj.record
      by_contra hlt
      have hge : n ≤ j := Nat.le_of_not_lt hlt
      have hdrop : (g.dev.issued.drop n)[j - n]? = some ⟨s, .record e⟩ := by
        rw [List.getElem?_drop, Nat.add_sub_cancel' hge]
        exact hs
      exact hrecorded (List.any_eq_true.mpr ⟨_, List.mem_of_getElem? hdrop, by simp [isRecord]⟩)
    | error => cases h
  | read p k =>
    simp only [Gpu.serve] at h
    split_ifs at h with hr
    cases h
    exact ⟨rfl, hr⟩
  | cudaEventDestroy | cudaDeviceSynchronize | cublasSetStream | cublasSgemmStridedBatched => cases h
  | _ =>
    cases h
    rfl

/-- Finish the next operation, if there is one. -/
def Gpu.finish (K : Kernels) (g : Gpu) (n : ℕ) : Option Gpu :=
  g.dev.issued[n]?.map fun x => { g with dev := { g.dev with memory := Device.effect (Work.run K) x.op g.dev.memory } }

theorem awaits_lt {ops : List GpuOp} {i j : ℕ} (h : Awaits ops i j) : j < i := by
  cases h with
  | stream hlt => exact hlt
  | event _ hl => exact hl.lt

theorem executes_of_finish (h : g.finish K n = some g') : (g.upTo n).Executes K (g'.upTo (n + 1)) := by
  obtain ⟨x, hx, rfl⟩ := Option.map_eq_some_iff.mp h
  have hfinish : (g.upTo n).dev.Executes (Work.run K) _ :=
    .finish (i := n) hx (lt_irrefl n) fun j hj => awaits_lt hj
  have hset : insert n {i | i < n} = {i | i < n + 1} := by
    ext i
    change i = n ∨ i < n ↔ i < n + 1
    omega
  have hgpu := Gpu.Executes.dev hfinish
  change Gpu.Executes K (g.upTo n)
    { g with dev := { g.dev with finished := insert n {i | i < n}, memory := _ } } at hgpu
  rwa [hset] at hgpu

/-! ### A worker beside it -/

/-- A worker, how many operations have finished, and how many steps have been made. -/
structure PacedWorker where
  running : Running
  finished : ℕ := 0
  steps : ℕ := 0

/-- The worker on its GPU. -/
def PacedWorker.state (p : PacedWorker) : Running := { p.running with gpu := p.running.gpu.upTo p.finished }

/-- An answer of success, with a handle or an allocation that is new. -/
def Gpu.answer (g : Gpu) (fresh : ℕ) : (c : Call) → c.Ret
  | .cudaStreamCreateWithFlags | .cudaStreamCreate | .cudaEventCreate | .cudaMalloc _ | .cudaHostAlloc _ => .ok fresh
  | .read p _ => g.dev.memory.read (p.map .host)
  | c => succeed c

/-- The worker makes its call, or waits for the GPU to finish another operation. -/
def PacedWorker.next (K : Kernels) (p : PacedWorker) : Option PacedWorker :=
  match p.running.prog with
  | .pure _ => none
  | .call c k =>
    let r := p.running.gpu.answer p.steps c
    match p.running.gpu.serve K p.finished c r with
    | some g =>
      some { running := { p.running with prog := k r, gpu := g }, finished := p.finished, steps := p.steps + 1 }
    | none => (p.running.gpu.finish K p.finished).map fun g =>
      { running := { p.running with gpu := g }, finished := p.finished + 1, steps := p.steps + 1 }

/-- The call that the worker makes next. -/
def PacedWorker.call (p : PacedWorker) : Option Call :=
  match p.running.prog with
  | .pure _ => none
  | .call c _ => some c

theorem PacedWorker.prog_of_call {p : PacedWorker} {c : Call} (h : p.call = some c) :
    ∃ k, p.state.prog = .call c k := by
  unfold PacedWorker.call at h
  change ∃ k, p.running.prog = .call c k
  split at h
  · cases h
  · rename_i k hprog
    cases h
    exact ⟨k, hprog⟩

theorem step_of_next {p q : PacedWorker} (h : p.next K = some q) : RunStep K o p.state q.state := by
  unfold PacedWorker.next at h
  cases hprog : p.running.prog with
  | pure a =>
    rw [hprog] at h
    cases h
  | call c k =>
    rw [hprog] at h
    dsimp only at h
    split at h
    · rename_i g hserve
      cases h
      exact .call hprog (answers_of_serve hserve)
    · obtain ⟨g, hfinish, rfl⟩ := Option.map_eq_some_iff.mp h
      exact .execute (executes_of_finish hfinish)

/-- The run of a worker that is handed a batch, for so many steps. -/
def pacedWorker (K : Kernels) (o : Options) (batch : List InferenceJob) : ℕ → Option PacedWorker
  | 0 => some { running := ⟨batch, worker_body o false batch {}, { dev := { memory := fun _ => [] } }⟩ }
  | n + 1 => (pacedWorker K o batch n).bind (PacedWorker.next K)

/-- It is a run. -/
theorem reachable_pacedWorker {batch : List InferenceJob} (hbatch : batch ≠ []) {p : PacedWorker}
    (h : pacedWorker K o batch n = some p) : Reachable (workerOnGpu K o) Always p.state := by
  induction n generalizing p with
  | zero =>
    cases h
    have hnone : ({ dev := { memory := fun _ => [] } } : Gpu).upTo 0 = { dev := { memory := fun _ => [] } } := by
      simp [Gpu.upTo]
    rw [PacedWorker.state, hnone]
    exact Reachable.tail (a := ()) (.start ⟨fun _ => [], rfl⟩) (RunStep.next (l := {}) rfl hbatch) trivial
  | succ n ih =>
    obtain ⟨q, hq, h⟩ := Option.bind_eq_some_iff.mp h
    exact (ih hq).tail (a := ()) (step_of_next h) trivial

end Gbis.Sched
