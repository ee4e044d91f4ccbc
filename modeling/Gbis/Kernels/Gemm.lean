import Gbis.Library.Barriers
import Mathlib.Algebra.BigOperators.Intervals
import Mathlib.Data.Fintype.Prod

/-!
# The GEMM kernels

`src/src/kernels/gemm.cu`: the naive kernel, the tiled one, and their launches. A kernel is
the program of one thread, whose calls are its accesses to memory (`Access`) and the barrier
`__syncthreads`; a launch is all the threads of its grid, run at once and in any order
(`Gbis.Library.Barriers`).

The elements are of any commutative semiring `α`, and an `int` is a natural number. A matrix
is where its elements lie: `A i` is what the pointer `A` has at offset `i`. Nothing stops a
thread from reading or writing outside the matrices, which is for the proofs to exclude
(`InBounds`). Shared memory starts with anything in it. `Mem.writes` is a record of the
writes to `C`, and no part of the program.
-/

namespace Gbis.Kernels

open Library

universe u

/-- `dim3`. -/
structure Dim3 where
  x : ℕ
  y : ℕ
  z : ℕ := 1

/-- A position: `blockIdx` in a grid, `threadIdx` in a block. -/
structure Idx (d : Dim3) where
  x : Fin d.x
  y : Fin d.y
  z : Fin d.z
  deriving DecidableEq

/-- A thread of a launch. -/
structure Thread (grid block : Dim3) where
  blockIdx : Idx grid
  threadIdx : Idx block
  deriving DecidableEq

instance {d : Dim3} : Finite (Idx d) :=
  Finite.of_injective (fun i => (i.x, i.y, i.z)) fun i j h => by cases i; cases j; simpa using h

instance {grid block : Dim3} : Finite (Thread grid block) :=
  Finite.of_injective (fun t => (t.blockIdx, t.threadIdx)) fun t t' h => by cases t; cases t'; simpa using h

/-- An access to memory: to the matrices, or to the tiles that the block shares. -/
inductive Access (α : Type u) where
  | readA (i : ℕ)
  | readB (i : ℕ)
  | writeC (i : ℕ) (v : α)
  | readAs (y x : ℕ)
  | writeAs (y x : ℕ) (v : α)
  | readBs (y x : ℕ)
  | writeBs (y x : ℕ) (v : α)

/-- What a thread gets. -/
@[reducible] def Access.Ret {α : Type u} : Access α → Type u
  | .readA _ | .readB _ | .readAs .. | .readBs .. => α
  | .writeC .. | .writeAs .. | .writeBs .. => PUnit

/-- A function of a kernel. -/
abbrev KernelM (α β : Type u) : Type u :=
    Host (Option (Access α)) (WithBarrier Access.Ret) PUnit.{u + 1} PEmpty.{u + 1} β

variable {α : Type u}

/-- Access memory. -/
abbrev access (c : Access α) : KernelM α c.Ret := Host.call (some c)

/-- `__syncthreads()`. -/
abbrev syncthreads : KernelM α PUnit := Host.call none

variable [CommSemiring α] {grid block : Dim3}

/-! ### The naive kernel -/

/-- `gemm_naive_batched_kernel`. -/
def gemm_naive_batched_kernel (M N K : ℕ) (t : Thread grid block) : KernelM α PUnit :=
  let col := t.blockIdx.x * block.x + t.threadIdx.x
  let row := t.blockIdx.y * block.y + t.threadIdx.y
  let batch : ℕ := t.blockIdx.z
  if row ≥ M ∨ col ≥ N then pure ⟨⟩
  else do
    let stride_a := M * K
    let stride_b := K * N
    let stride_c := M * N
    let acc ← Host.forLoop 1 K (fun k acc => do
      let a ← access (.readA (batch * stride_a + (row * K + k)))
      let b ← access (.readB (batch * stride_b + (k * N + col)))
      pure (acc + a * b)) 0 0
    access (.writeC (batch * stride_c + row * N + col) acc)

/-! ### The tiled kernel -/

section

variable (BLOCK_M BLOCK_N BLOCK_K : ℕ) [NeZero BLOCK_K] (M N K : ℕ) (t : Thread grid block)

/-- The thread fills its place in `As`. -/
def fill_As (k0 : ℕ) : KernelM α PUnit :=
  let row := t.blockIdx.y * BLOCK_M + t.threadIdx.y
  let batch : ℕ := t.blockIdx.z
  let stride_a := M * K
  if row < M ∧ k0 + t.threadIdx.x < K then do
    let a ← access (.readA (batch * stride_a + (row * K + k0 + t.threadIdx.x)))
    access (.writeAs t.threadIdx.y t.threadIdx.x a)
  else access (.writeAs t.threadIdx.y t.threadIdx.x 0)

/-- The thread fills its place in `Bs`. -/
def fill_Bs (k0 : ℕ) : KernelM α PUnit :=
  let col := t.blockIdx.x * BLOCK_N + t.threadIdx.x
  let batch : ℕ := t.blockIdx.z
  let stride_b := K * N
  if k0 + t.threadIdx.y < K ∧ col < N then do
    let b ← access (.readB (batch * stride_b + ((k0 + t.threadIdx.y) * N + col)))
    access (.writeBs t.threadIdx.y t.threadIdx.x b)
  else access (.writeBs t.threadIdx.y t.threadIdx.x 0)

/-- `for (int kk = 0; kk < BLOCK_K; ++kk)`: multiply a row of `As` by a column of `Bs`. -/
def multiply (acc : α) : KernelM α α :=
  Host.forLoop 1 BLOCK_K (fun kk acc => do
    let a ← access (.readAs t.threadIdx.y kk)
    let b ← access (.readBs kk t.threadIdx.x)
    pure (acc + a * b)) 0 acc

/-- The body of the loop over `k0`. -/
def tile (k0 : ℕ) (acc : α) : KernelM α α := do
  fill_As BLOCK_M M K t k0
  fill_Bs BLOCK_N N K t k0
  syncthreads
  let acc ← multiply BLOCK_K t acc
  syncthreads
  pure acc

/-- `gemm_tiled_batched_kernel`. -/
def gemm_tiled_batched_kernel : KernelM α PUnit := do
  let row := t.blockIdx.y * BLOCK_M + t.threadIdx.y
  let col := t.blockIdx.x * BLOCK_N + t.threadIdx.x
  let batch : ℕ := t.blockIdx.z
  let stride_c := M * N
  let acc ← Host.forLoop BLOCK_K K (tile BLOCK_M BLOCK_N BLOCK_K M N K t) 0 0
  if row < M ∧ col < N then access (.writeC (batch * stride_c + (row * N + col)) acc) else pure ⟨⟩

end

/-! ### Launches -/

/-- The memory of a launch: `C`, and the tiles of each block. -/
structure Mem (grid block : Dim3) (α : Type u) where
  C : ℕ → α
  As : Idx grid × ℕ × ℕ → α
  Bs : Idx grid × ℕ × ℕ → α
  /-- Which thread has written which element of `C`. -/
  writes : List (Thread grid block × ℕ) := []

/-- What an access does. -/
def Access.Does (A B : ℕ → α) (t : Thread grid block) (mem : Mem grid block α) :
    (c : Access α) → c.Ret → Mem grid block α → Prop
  | .readA i, r, mem' => r = A i ∧ mem' = mem
  | .readB i, r, mem' => r = B i ∧ mem' = mem
  | .writeC i v, _, mem' => mem' = { mem with C := Function.update mem.C i v, writes := (t, i) :: mem.writes }
  | .readAs y x, r, mem' => r = mem.As (t.blockIdx, y, x) ∧ mem' = mem
  | .writeAs y x v, _, mem' => mem' = { mem with As := Function.update mem.As (t.blockIdx, y, x) v }
  | .readBs y x, r, mem' => r = mem.Bs (t.blockIdx, y, x) ∧ mem' = mem
  | .writeBs y x v, _, mem' => mem' = { mem with Bs := Function.update mem.Bs (t.blockIdx, y, x) v }

/-- The state of a launch. -/
abbrev Running (grid block : Dim3) (α : Type u) : Type u :=
  Threads (Thread grid block) (Access α) Access.Ret (Except PEmpty.{u + 1} PUnit.{u + 1} × PUnit.{u + 1})
    (Mem grid block α)

/-- `kernel<<<grid, block>>>(A, B, C, …)`. -/
def launch (kernel : Thread grid block → KernelM α PUnit) (A B C : ℕ → α) : System (Running grid block α) Unit :=
  Threads.system Thread.blockIdx (Access.Does A B) (fun t => kernel t ⟨⟩) fun mem => mem.C = C ∧ mem.writes = []

/-- `gemm_naive_batched`. -/
def gemm_naive_batched (A B C : ℕ → α) (M N K batch : ℕ) :
    System (Running ⟨(N + 15) / 16, (M + 15) / 16, batch⟩ ⟨16, 16, 1⟩ α) Unit :=
  launch (gemm_naive_batched_kernel M N K) A B C

/-- `gemm_tiled_batched`. -/
def gemm_tiled_batched (A B C : ℕ → α) (M N K batch : ℕ) :
    System (Running ⟨(N + 32 - 1) / 32, (M + 32 - 1) / 32, batch⟩ ⟨32, 32, 1⟩ α) Unit :=
  launch (gemm_tiled_batched_kernel 32 32 32 M N K) A B C

/-! ### What they are for -/

/-- Where element `(row, col)` of matrix `b` of a batch lies, in matrices of shape `rows × cols`. -/
def offset (rows cols b row col : ℕ) : ℕ := b * (rows * cols) + (row * cols + col)

/-- Element `(row, col)` of the product of the matrices `b`. -/
def dot (A B : ℕ → α) (M N K b row col : ℕ) : α :=
  ∑ k ∈ Finset.range K, A (offset M K b row k) * B (offset K N b k col)

/-- An access is within the matrices, and the tiles of `D × D`. -/
def InBounds (M N K batch D : ℕ) : Access α → Prop
  | .readA i => i < batch * (M * K)
  | .readB i => i < batch * (K * N)
  | .writeC i _ => i < batch * (M * N)
  | .readAs y x | .readBs y x | .writeAs y x _ | .writeBs y x _ => y < D ∧ x < D

/-- **A launch computes the products**, with tiles of `D × D`: in every order its threads may run in. -/
structure Computes (T : System (Running grid block α) Unit) (A B C : ℕ → α) (M N K batch D : ℕ) : Prop where
  /-- Accesses are within bounds. -/
  inBounds : ∀ s, Reachable T Always s → ∀ t c k, s.progs t = .call (some c) k → InBounds M N K batch D c
  /-- It comes to its end, wherever it has got to. -/
  finishes : ∀ s, Reachable T Always s → ∃ s', Steps T Always s s' ∧ s'.Finished
  /-- Then each element of `C` is that of the product. -/
  product : ∀ s, Reachable T Always s → s.Finished → ∀ b row col, b < batch → row < M → col < N →
    s.mem.C (offset M N b row col) = dot A B M N K b row col
  /-- Nothing else is written. -/
  others : ∀ s, Reachable T Always s → ∀ i, batch * (M * N) ≤ i → s.mem.C i = C i
  /-- And each has been written by exactly one thread. -/
  writer : ∀ s, Reachable T Always s → s.Finished → ∀ i < batch * (M * N), ∃! t, (t, i) ∈ s.mem.writes

end Gbis.Kernels
