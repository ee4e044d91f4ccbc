import Gbis.Kernels.Tiling
import Mathlib.Data.List.ProdSigma
import Mathlib.Data.Set.Basic
import Mathlib.Tactic.Linarith

/-!
# The cuBLAS call

`gemm_cublas_batched` of `src/src/kernels/gemm_cublas.cu`: one call of
`cublasSgemmStridedBatched`, which is not part of the repository. The routine is a parameter,
and what is used of it is what its documentation says (`Documented`): it multiplies batches of
column-major matrices, each with a leading dimension and a stride from one matrix of the
batch to the next, provided that the leading dimensions are large enough and that `C`
overlaps neither itself nor the operands. Device memory is a function of addresses counted in
elements, and arithmetic on the elements is exact.

The matrices here are row-major. As a column-major matrix a row-major one is its transpose,
so the call swaps the operands and asks for the transposed product, with the row lengths as
leading dimensions. That this is right for all shapes is `cublas_computes`.
-/

namespace Gbis.Kernels

open Library

universe u

/-! ### The routine -/

/-- `cublasOperation_t`. -/
inductive CublasOp where
  | N
  | T
  | C
  deriving DecidableEq

/-- The arguments of `cublasSgemmStridedBatched` after the handle. -/
structure SgemmArgs (α : Type u) where
  transa : CublasOp
  transb : CublasOp
  m : Int32
  n : Int32
  k : Int32
  alpha : α
  A : ℤ
  lda : Int32
  strideA : Int64
  B : ℤ
  ldb : Int32
  strideB : Int64
  beta : α
  C : ℤ
  ldc : Int32
  strideC : Int64
  batchCount : Int32

variable {α : Type u}

namespace SgemmArgs

variable (g : SgemmArgs α)

/-- Where element `(i, l)` of `op(A)` is, in matrix `p` of the batch. -/
def addrA (p i l : ℕ) : ℤ :=
  g.A + p * g.strideA.toInt + match g.transa with
    | .N => i + l * g.lda.toInt
    | .T | .C => l + i * g.lda.toInt

/-- Where element `(l, j)` of `op(B)` is. -/
def addrB (p l j : ℕ) : ℤ :=
  g.B + p * g.strideB.toInt + match g.transb with
    | .N => l + j * g.ldb.toInt
    | .T | .C => j + l * g.ldb.toInt

/-- Where element `(i, j)` of `C` is. -/
def addrC (p i j : ℕ) : ℤ := g.C + p * g.strideC.toInt + (i + j * g.ldc.toInt)

/-- What is required of the leading dimensions: they are no less than the rows as stored. -/
structure LeadingDimensions : Prop where
  lda : max 1 (match g.transa with
    | .N => g.m.toInt
    | .T | .C => g.k.toInt) ≤ g.lda.toInt
  ldb : max 1 (match g.transb with
    | .N => g.k.toInt
    | .T | .C => g.n.toInt) ≤ g.ldb.toInt
  ldc : max 1 g.m.toInt ≤ g.ldc.toInt

/-- An address of `A`. -/
def InA (x : ℤ) : Prop :=
  ∃ p i l : ℕ, (p : ℤ) < g.batchCount.toInt ∧ (i : ℤ) < g.m.toInt ∧ (l : ℤ) < g.k.toInt ∧ g.addrA p i l = x

/-- An address of `B`. -/
def InB (x : ℤ) : Prop :=
  ∃ p l j : ℕ, (p : ℤ) < g.batchCount.toInt ∧ (l : ℤ) < g.k.toInt ∧ (j : ℤ) < g.n.toInt ∧ g.addrB p l j = x

/-- An address of `C`. -/
def InC (x : ℤ) : Prop :=
  ∃ p i j : ℕ, (p : ℤ) < g.batchCount.toInt ∧ (i : ℤ) < g.m.toInt ∧ (j : ℤ) < g.n.toInt ∧ g.addrC p i j = x

/-- What is required of `C`: its elements are at different addresses, and not among the operands. -/
structure Separate : Prop where
  injective : ∀ p i j p' i' j' : ℕ, (i : ℤ) < g.m.toInt → (j : ℤ) < g.n.toInt → (i' : ℤ) < g.m.toInt →
    (j' : ℤ) < g.n.toInt → g.addrC p i j = g.addrC p' i' j' → p = p' ∧ i = i' ∧ j = j'
  a : ∀ x, g.InC x → ¬ g.InA x
  b : ∀ x, g.InC x → ¬ g.InB x

end SgemmArgs

/-- What a call that succeeds does: the memory it leaves, and the addresses it has read and written. -/
structure Effect (α : Type u) where
  mem : ℤ → α
  reads : Set ℤ
  writes : Set ℤ

variable [CommSemiring α]

/-- **The documentation of `cublasSgemmStridedBatched`**, in exact arithmetic. -/
structure Documented (sgemm : SgemmArgs α → (ℤ → α) → Effect α) : Prop where
  /-- `C = alpha * op(A) * op(B) + beta * C`. -/
  product : ∀ g mem, g.LeadingDimensions → g.Separate → ∀ p i j : ℕ, (p : ℤ) < g.batchCount.toInt →
    (i : ℤ) < g.m.toInt → (j : ℤ) < g.n.toInt →
    (sgemm g mem).mem (g.addrC p i j) =
      g.alpha * ∑ l ∈ Finset.range g.k.toInt.toNat, mem (g.addrA p i l) * mem (g.addrB p l j) +
        g.beta * mem (g.addrC p i j)
  /-- `C` is not read when `beta` is zero. -/
  reads : ∀ g mem, g.LeadingDimensions → g.Separate →
    ∀ x ∈ (sgemm g mem).reads, g.InA x ∨ g.InB x ∨ g.beta ≠ 0 ∧ g.InC x
  /-- `C` is written. -/
  writes : ∀ g mem, g.LeadingDimensions → g.Separate → ∀ x, x ∈ (sgemm g mem).writes ↔ g.InC x
  /-- Nothing else changes. -/
  frame : ∀ g mem, g.LeadingDimensions → g.Separate → ∀ x, ¬ g.InC x → (sgemm g mem).mem x = mem x

/-! ### The call -/

/-- What `gemm_cublas_batched` passes to the routine. -/
def cublasArgs (A B C : ℤ) (M N K batch : Int32) : SgemmArgs α where
  transa := .N
  transb := .N
  m := N
  n := M
  k := K
  alpha := 1
  A := B
  lda := N
  strideA := K.toInt64 * N.toInt64
  B := A
  ldb := K
  strideB := M.toInt64 * K.toInt64
  beta := 0
  C := C
  ldc := N
  strideC := M.toInt64 * N.toInt64
  batchCount := batch

/-- `gemm_cublas_batched`. -/
def gemm_cublas_batched (sgemm : SgemmArgs α → (ℤ → α) → Effect α) (A B C : ℤ) (M N K batch : Int32) (mem : ℤ → α) :
    Effect α :=
  sgemm (cublasArgs A B C M N K batch) mem

/-- A stride is computed in 64 bits, where it is exact. -/
theorem toInt_stride {i j : Int32} (hi : 1 ≤ i.toInt) (hj : 1 ≤ j.toInt) :
    (i.toInt64 * j.toInt64).toInt = i.toInt * j.toInt := by
  have hlt : i.toInt * j.toInt < 2 ^ 31 * 2 ^ 31 :=
    mul_lt_mul'' i.toInt_lt j.toInt_lt (by omega) (by omega)
  have hpos : 0 ≤ i.toInt * j.toInt := Int.mul_nonneg (by omega) (by omega)
  rw [Int64.toInt_mul, Int32.toInt_toInt64, Int32.toInt_toInt64, Int.bmod_eq_of_le (by omega) (by omega)]

section

variable {M N K batch : Int32} (A B C : ℤ)

/-- The first operand of the routine is `B`, transposed. -/
theorem addrA_cublasArgs (hN : 1 ≤ N.toInt) (hK : 1 ≤ K.toInt) (p col l : ℕ) :
    (cublasArgs A B C M N K batch : SgemmArgs α).addrA p col l =
      B + offset K.toInt.toNat N.toInt.toNat p l col := by
  have hn : (N.toInt.toNat : ℤ) = N.toInt := Int.toNat_of_nonneg (by omega)
  have hk : (K.toInt.toNat : ℤ) = K.toInt := Int.toNat_of_nonneg (by omega)
  simp only [SgemmArgs.addrA, cublasArgs, offset, toInt_stride hK hN]
  push_cast
  rw [hn, hk]
  ring

/-- The second is `A`. -/
theorem addrB_cublasArgs (hM : 1 ≤ M.toInt) (hK : 1 ≤ K.toInt) (p l row : ℕ) :
    (cublasArgs A B C M N K batch : SgemmArgs α).addrB p l row =
      A + offset M.toInt.toNat K.toInt.toNat p row l := by
  have hm : (M.toInt.toNat : ℤ) = M.toInt := Int.toNat_of_nonneg (by omega)
  have hk : (K.toInt.toNat : ℤ) = K.toInt := Int.toNat_of_nonneg (by omega)
  simp only [SgemmArgs.addrB, cublasArgs, offset, toInt_stride hM hK]
  push_cast
  rw [hm, hk]
  ring

/-- The result is `C`, transposed. -/
theorem addrC_cublasArgs (hM : 1 ≤ M.toInt) (hN : 1 ≤ N.toInt) (p col row : ℕ) :
    (cublasArgs A B C M N K batch : SgemmArgs α).addrC p col row =
      C + offset M.toInt.toNat N.toInt.toNat p row col := by
  have hm : (M.toInt.toNat : ℤ) = M.toInt := Int.toNat_of_nonneg (by omega)
  have hn : (N.toInt.toNat : ℤ) = N.toInt := Int.toNat_of_nonneg (by omega)
  simp only [SgemmArgs.addrC, cublasArgs, offset, toInt_stride hM hN]
  push_cast
  rw [hm, hn]
  ring

/-- The leading dimensions are the row lengths. -/
theorem leadingDimensions_cublasArgs (hN : 1 ≤ N.toInt) (hK : 1 ≤ K.toInt) :
    (cublasArgs A B C M N K batch : SgemmArgs α).LeadingDimensions :=
  ⟨max_le hN le_rfl, max_le hK le_rfl, max_le hN le_rfl⟩

end

/-- The `n` addresses from `x` on. -/
def Region (x : ℤ) (n : ℕ) (y : ℤ) : Prop := x ≤ y ∧ y < x + n

theorem region_offset (x : ℤ) {rows cols batch b row col : ℕ} (hb : b < batch) (hr : row < rows) (hc : col < cols) :
    Region x (batch * (rows * cols)) (x + offset rows cols b row col) := by
  have hlt := offset_lt hb hr hc
  unfold Region
  omega

theorem exists_offset_of_region {x y : ℤ} {rows cols batch : ℕ} (h : Region x (batch * (rows * cols)) y) :
    ∃ b row col, b < batch ∧ row < rows ∧ col < cols ∧ x + offset rows cols b row col = y := by
  obtain ⟨hle, hlt⟩ := h
  have hi : (y - x).toNat < batch * (rows * cols) := by omega
  obtain ⟨b, row, col, hb, hr, hc, he⟩ := exists_offset hi
  exact ⟨b, row, col, hb, hr, hc, by rw [he]; omega⟩

section

variable {M N K batch : Int32} (hM : 1 ≤ M.toInt) (hN : 1 ≤ N.toInt) (hK : 1 ≤ K.toInt) {A B C : ℤ}

include hN hK in
/-- The routine's first operand lies in `B`. -/
theorem region_of_inA {x : ℤ} (h : (cublasArgs A B C M N K batch : SgemmArgs α).InA x) :
    Region B (batch.toInt.toNat * (K.toInt.toNat * N.toInt.toNat)) x := by
  obtain ⟨p, col, l, hp, hcol, hl, rfl⟩ := h
  rw [addrA_cublasArgs A B C hN hK]
  have hp : (p : ℤ) < batch.toInt := hp
  have hcol : (col : ℤ) < N.toInt := hcol
  have hl : (l : ℤ) < K.toInt := hl
  exact region_offset B (by omega) (by omega) (by omega)

include hM hK in
/-- Its second lies in `A`. -/
theorem region_of_inB {x : ℤ} (h : (cublasArgs A B C M N K batch : SgemmArgs α).InB x) :
    Region A (batch.toInt.toNat * (M.toInt.toNat * K.toInt.toNat)) x := by
  obtain ⟨p, l, row, hp, hl, hrow, rfl⟩ := h
  rw [addrB_cublasArgs A B C hM hK]
  have hp : (p : ℤ) < batch.toInt := hp
  have hl : (l : ℤ) < K.toInt := hl
  have hrow : (row : ℤ) < M.toInt := hrow
  exact region_offset A (by omega) (by omega) (by omega)

include hM hN in
/-- Its result is all of `C`. -/
theorem inC_iff_region {x : ℤ} : (cublasArgs A B C M N K batch : SgemmArgs α).InC x ↔
    Region C (batch.toInt.toNat * (M.toInt.toNat * N.toInt.toNat)) x := by
  constructor
  · intro ⟨p, col, row, hp, hcol, hrow, hx⟩
    rw [addrC_cublasArgs A B C hM hN] at hx
    have hp : (p : ℤ) < batch.toInt := hp
    have hcol : (col : ℤ) < N.toInt := hcol
    have hrow : (row : ℤ) < M.toInt := hrow
    exact hx ▸ region_offset C (by omega) (by omega) (by omega)
  · intro h
    obtain ⟨b, row, col, hb, hr, hc, hx⟩ := exists_offset_of_region h
    refine ⟨b, col, row, ?_, ?_, ?_, (addrC_cublasArgs A B C hM hN b col row).trans hx⟩ <;> dsimp only [cublasArgs] <;>
      omega

/-- The three matrices are separate allocations: `C` has no address of `A` or `B`. -/
structure Allocated (A B C : ℤ) (M N K batch : Int32) : Prop where
  a : ∀ x, Region C (batch.toInt.toNat * (M.toInt.toNat * N.toInt.toNat)) x →
    ¬ Region A (batch.toInt.toNat * (M.toInt.toNat * K.toInt.toNat)) x
  b : ∀ x, Region C (batch.toInt.toNat * (M.toInt.toNat * N.toInt.toNat)) x →
    ¬ Region B (batch.toInt.toNat * (K.toInt.toNat * N.toInt.toNat)) x

include hM hN hK in
theorem Allocated.separate (h : Allocated A B C M N K batch) :
    (cublasArgs A B C M N K batch : SgemmArgs α).Separate := by
  constructor
  · intro p col row p' col' row' hcol hrow hcol' hrow' he
    have hcol : (col : ℤ) < N.toInt := hcol
    have hrow : (row : ℤ) < M.toInt := hrow
    have hcol' : (col' : ℤ) < N.toInt := hcol'
    have hrow' : (row' : ℤ) < M.toInt := hrow'
    rw [addrC_cublasArgs A B C hM hN, addrC_cublasArgs A B C hM hN] at he
    have he : offset M.toInt.toNat N.toInt.toNat p row col = offset M.toInt.toNat N.toInt.toNat p' row' col' := by omega
    obtain ⟨hp, hr, hc⟩ := offset_inj (by omega) (by omega) (by omega) (by omega) he
    exact ⟨hp, hc, hr⟩
  · intro x hx ha
    exact h.b x ((inC_iff_region hM hN).mp hx) (region_of_inA hN hK ha)
  · intro x hx hb
    exact h.a x ((inC_iff_region hM hN).mp hx) (region_of_inB hM hK hb)

/-- **The cuBLAS call computes the row-major products**, if the routine does what its
documentation says: for all shapes it meets the requirements on the leading dimensions, reads
only `A` and `B`, writes `C` and nothing else, and leaves in `C` what the tiled kernel does. -/
theorem cublas_computes {sgemm : SgemmArgs α → (ℤ → α) → Effect α} (hdoc : Documented sgemm) (hM : 1 ≤ M.toInt)
    (hN : 1 ≤ N.toInt) (hK : 1 ≤ K.toInt) (halloc : Allocated A B C M N K batch) (mem : ℤ → α) :
    let m := M.toInt.toNat
    let n := N.toInt.toNat
    let k := K.toInt.toNat
    let count := batch.toInt.toNat
    let r := gemm_cublas_batched sgemm A B C M N K batch mem
    (cublasArgs A B C M N K batch : SgemmArgs α).LeadingDimensions ∧
      (∀ x ∈ r.reads, Region A (count * (m * k)) x ∨ Region B (count * (k * n)) x) ∧
      (∀ x, x ∈ r.writes ↔ Region C (count * (m * n)) x) ∧
      (∀ x, ¬ Region C (count * (m * n)) x → r.mem x = mem x) ∧
      (∀ b row col, b < count → row < m → col < n → r.mem (C + offset m n b row col) =
        ∑ l ∈ Finset.range k, mem (A + offset m k b row l) * mem (B + offset k n b l col)) ∧
      ∀ s, Reachable (gemm_tiled_batched (fun i => mem (A + i)) (fun i => mem (B + i)) (fun i => mem (C + i)) m n
        k count)
        Always s → s.Finished → ∀ i < count * (m * n), s.mem.C i = r.mem (C + i) := by
  intro m n k count r
  have hld : (cublasArgs A B C M N K batch : SgemmArgs α).LeadingDimensions :=
    leadingDimensions_cublasArgs A B C hN hK
  have hsep : (cublasArgs A B C M N K batch : SgemmArgs α).Separate := halloc.separate hM hN hK
  have hproduct : ∀ b row col, b < count → row < m → col < n → r.mem (C + offset m n b row col) =
      ∑ l ∈ Finset.range k, mem (A + offset m k b row l) * mem (B + offset k n b l col) := by
    intro b row col hb hr hc
    have hcall := hdoc.product _ mem hld hsep b col row (by dsimp only [cublasArgs]; omega)
      (by dsimp only [cublasArgs]; omega) (by dsimp only [cublasArgs]; omega)
    rw [addrC_cublasArgs A B C hM hN] at hcall
    refine hcall.trans ?_
    -- `alpha` is one and `beta` zero; the factors change places with the operands
    simp only [addrA_cublasArgs A B C hN hK, addrB_cublasArgs A B C hM hK]
    simp only [cublasArgs, one_mul, zero_mul, add_zero]
    exact Finset.sum_congr rfl fun l _ => mul_comm _ _
  refine ⟨hld, fun x hx => ?_, fun x => ?_, fun x hx => ?_, hproduct, fun s hs hf i hi => ?_⟩
  · rcases hdoc.reads _ mem hld hsep x hx with hx | hx | hx
    · exact .inr (region_of_inA hN hK hx)
    · exact .inl (region_of_inB hM hK hx)
    · exact absurd rfl hx.1
  · exact (hdoc.writes _ mem hld hsep x).trans (inC_iff_region hM hN)
  · exact hdoc.frame _ mem hld hsep x fun hin => hx ((inC_iff_region hM hN).mp hin)
  · obtain ⟨b, row, col, hb, hr, hc, rfl⟩ := exists_offset hi
    rw [hproduct b row col hb hr hc]
    exact tiled_computes.product s hs hf b row col hb hr hc

end

/-! ### A routine that does what the documentation says -/

/-- The elements of `C`: matrix, row and column. -/
def SgemmArgs.elements (g : SgemmArgs α) : List (ℕ × ℕ × ℕ) :=
  List.range g.batchCount.toInt.toNat ×ˢ List.range g.m.toInt.toNat ×ˢ List.range g.n.toInt.toNat

omit [CommSemiring α] in
theorem SgemmArgs.mem_elements {g : SgemmArgs α} {p i j : ℕ} : (p, i, j) ∈ g.elements ↔
    (p : ℤ) < g.batchCount.toInt ∧ (i : ℤ) < g.m.toInt ∧ (j : ℤ) < g.n.toInt := by
  simp only [SgemmArgs.elements, List.mem_product, List.mem_range]
  omega

/-- Element `(i, j)` of matrix `p` of the result. -/
def SgemmArgs.result (g : SgemmArgs α) (mem : ℤ → α) (p i j : ℕ) : α :=
  g.alpha * ∑ l ∈ Finset.range g.k.toInt.toNat, mem (g.addrA p i l) * mem (g.addrB p l j) +
    g.beta * mem (g.addrC p i j)

/-- The routine, by its documentation. -/
def referenceSgemm (g : SgemmArgs α) (mem : ℤ → α) : Effect α where
  mem x := match g.elements.find? fun e => g.addrC e.1 e.2.1 e.2.2 = x with
    | some (p, i, j) => g.result mem p i j
    | none => mem x
  reads := {x | g.InA x ∨ g.InB x ∨ g.beta ≠ 0 ∧ g.InC x}
  writes := {x | g.InC x}

/-- The documentation can be met. -/
theorem referenceSgemm_documented : Documented (referenceSgemm : SgemmArgs α → (ℤ → α) → Effect α) where
  reads := fun _ _ _ _ _ hx => hx
  writes := fun _ _ _ _ _ => Iff.rfl
  product := by
    intro g mem _ hsep p i j hp hi hj
    unfold referenceSgemm
    dsimp only
    cases hfind : g.elements.find? fun e => g.addrC e.1 e.2.1 e.2.2 = g.addrC p i j with
    | none => simpa using List.find?_eq_none.mp hfind _ (SgemmArgs.mem_elements.mpr ⟨hp, hi, hj⟩)
    | some e =>
      obtain ⟨p', i', j'⟩ := e
      obtain ⟨-, hi', hj'⟩ := SgemmArgs.mem_elements.mp (List.mem_of_find?_eq_some hfind)
      have he : g.addrC p' i' j' = g.addrC p i j := by simpa using List.find?_some hfind
      obtain ⟨rfl, rfl, rfl⟩ := hsep.injective p' i' j' p i j hi' hj' hi hj he
      rfl
  frame := by
    intro g mem _ _ x hx
    unfold referenceSgemm
    dsimp only
    cases hfind : g.elements.find? fun e => g.addrC e.1 e.2.1 e.2.2 = x with
    | none => rfl
    | some e =>
      obtain ⟨p, i, j⟩ := e
      obtain ⟨hp, hi, hj⟩ := SgemmArgs.mem_elements.mp (List.mem_of_find?_eq_some hfind)
      have he : g.addrC p i j = x := by simpa using List.find?_some hfind
      exact absurd ⟨p, i, j, hp, hi, hj, he⟩ hx

/-- The last element of two products of a `1 × 2` matrix and a `2 × 3` one, in a memory whose
contents are the addresses. -/
theorem cublas_computes_rectangular :
    (gemm_cublas_batched referenceSgemm 0 4 16 1 3 2 2 Int.toNat).mem (16 + offset 1 3 1 0 2) =
      ∑ l ∈ Finset.range 2, Int.toNat (0 + offset 1 2 1 0 l) * Int.toNat (4 + offset 2 3 1 l 2) := by
  have halloc : Allocated 0 4 16 1 3 2 2 :=
    ⟨fun x hc ha => absurd (hc.1.trans_lt ha.2) (by decide), fun x hc hb => absurd (hc.1.trans_lt hb.2) (by decide)⟩
  have hcall := cublas_computes referenceSgemm_documented (by decide) (by decide) (by decide) halloc Int.toNat
  exact hcall.2.2.2.2.1 1 0 2 (by decide) (by decide) (by decide)

end Gbis.Kernels
