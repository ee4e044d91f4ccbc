import Gbis.Library.Arithmetic
import Gbis.Bindings.Gemm
import Mathlib.Tactic.NormNum

/-!
# The arithmetic of the subscripts

The kernels of `src/src/kernels/gemm.cu` once more, now as to the types in which they compute
their subscripts. The strides from one matrix of a batch to the next are widened to
`std::size_t`. Within a matrix the tiled kernel multiplies `int`s, or an `int` by an
`unsigned` that comes of `threadIdx`, and the naive one multiplies `int`s. What they mean are
integers, and `Tiled.Exact` and `Naive.Exact` say that they get them, wherever the row, the
column and the inner index are those of an element.

Nothing bounds the products of two dimensions, neither `batched_gemm` nor the scheduler. Matrices
of `2^31` elements are still indexed exactly, and larger ones are not (`indices_exact_iff`): the
product of a column of `46341` elements and a row of as many, which takes some 8 GiB, overflows
(`overflowing_index`).
-/

namespace Gbis.Kernels

open Library IntType Expr

/-- `i` is an index along a dimension of `D`. -/
def Within (i D : Int32) : Prop := 0 ≤ i.toInt ∧ i.toInt < D.toInt

/-- The last index along a dimension. -/
theorem exists_last {D : Int32} (h : 1 ≤ D.toInt) : ∃ i, Within i D ∧ i.toInt = D.toInt - 1 := by
  have hlt := D.toInt_lt
  have hi : (Int32.ofInt (D.toInt - 1)).toInt = D.toInt - 1 := Int32.toInt_ofInt_of_le (by omega) (by omega)
  exact ⟨_, ⟨by omega, by omega⟩, hi⟩

/-- Where element `(i, j)` of a matrix lies is before its end. -/
theorem Within.mul_add_lt {i D : Int32} (h : Within i D) {j E : ℤ} (hj : j < E) (hE : 0 ≤ E) :
    i.toInt * E + j < D.toInt * E := by
  have hmul : (i.toInt + 1) * E ≤ D.toInt * E := mul_le_mul_of_nonneg_right h.2 hE
  rw [add_mul, one_mul] at hmul
  omega

/-- A subscript of `int`s is exact exactly when it is an `int`. -/
theorem signed_exact_iff {i E j : Int32} (hi : 0 ≤ i.toInt) (hE : 0 ≤ E.toInt) (hj : 0 ≤ j.toInt) :
    (Expr.int i * Expr.int E + Expr.int j).value = some (i.toInt * E.toInt + j.toInt) ↔
      i.toInt * E.toInt + j.toInt < 2 ^ 31 := by
  have hmul : 0 ≤ i.toInt * E.toInt := mul_nonneg hi hE
  constructor
  · intro h
    exact (inRange_int.mp (Expr.inRange _ _ h)).2
  · intro h
    have hprod := mul_exact (value_int i) (value_int E) (inRange_int.mpr ⟨by omega, by omega⟩)
    exact add_exact hprod (value_int j) (inRange_int.mpr ⟨by omega, h⟩)

/-! ### The tiled kernel -/

namespace Tiled

/-- The position along a dimension: `block * BLOCK + threadIdx`, with `block` initialised by
`blockIdx`. -/
def position (BLOCK : Int32) (blockIdx threadIdx : UInt32) : Expr .int :=
  let block := (Expr.unsigned blockIdx).cast .int
  (block * Expr.int BLOCK + Expr.unsigned threadIdx).cast .int

/-- `row`. -/
def row (BLOCK_M : Int32) (blockIdx_y threadIdx_y : UInt32) : Expr .int := position BLOCK_M blockIdx_y threadIdx_y

/-- `col`. -/
def col (BLOCK_N : Int32) (blockIdx_x threadIdx_x : UInt32) : Expr .int := position BLOCK_N blockIdx_x threadIdx_x

/-- The subscript of `A_b`. -/
def index_A (row K k0 : Int32) (threadIdx_x : UInt32) : Expr .unsigned :=
  Expr.int row * Expr.int K + Expr.int k0 + Expr.unsigned threadIdx_x

/-- The subscript of `B_b`. -/
def index_B (k0 : Int32) (threadIdx_y : UInt32) (N col : Int32) : Expr .unsigned :=
  (Expr.int k0 + Expr.unsigned threadIdx_y) * Expr.int N + Expr.int col

/-- The subscript of `C_b`. -/
def index_C (row N col : Int32) : Expr .int := Expr.int row * Expr.int N + Expr.int col

/-- The kernel, with tiles of `32 × 32`, computes the integers that its subscripts mean. -/
structure Exact (M N K : Int32) : Prop where
  row : ∀ blockIdx threadIdx : UInt32, threadIdx.toNat < 32 → (blockIdx.toNat * 32 + threadIdx.toNat : ℤ) < M.toInt →
    (Tiled.row 32 blockIdx threadIdx).value = some (blockIdx.toNat * 32 + threadIdx.toNat : ℤ)
  col : ∀ blockIdx threadIdx : UInt32, threadIdx.toNat < 32 → (blockIdx.toNat * 32 + threadIdx.toNat : ℤ) < N.toInt →
    (Tiled.col 32 blockIdx threadIdx).value = some (blockIdx.toNat * 32 + threadIdx.toNat : ℤ)
  A : ∀ (row k0 : Int32) (threadIdx : UInt32), Within row M → 0 ≤ k0.toInt → 32 ∣ k0.toInt → threadIdx.toNat < 32 →
    k0.toInt + threadIdx.toNat < K.toInt →
    (index_A row K k0 threadIdx).value = some (row.toInt * K.toInt + k0.toInt + threadIdx.toNat)
  B : ∀ (k0 : Int32) (threadIdx : UInt32) (col : Int32), 0 ≤ k0.toInt → 32 ∣ k0.toInt → threadIdx.toNat < 32 →
    k0.toInt + threadIdx.toNat < K.toInt → Within col N →
    (index_B k0 threadIdx N col).value = some ((k0.toInt + threadIdx.toNat) * N.toInt + col.toInt)
  C : ∀ row col : Int32, Within row M → Within col N →
    (index_C row N col).value = some (row.toInt * N.toInt + col.toInt)

/-- A position that is an `int` is computed exactly. -/
theorem position_exact {blockIdx threadIdx : UInt32} (h : (blockIdx.toNat * 32 + threadIdx.toNat : ℤ) < 2 ^ 31) :
    (position 32 blockIdx threadIdx).value = some (blockIdx.toNat * 32 + threadIdx.toNat : ℤ) := by
  have hblock : ((Expr.unsigned blockIdx).cast .int).value = some (blockIdx.toNat : ℤ) :=
    cast_exact rfl (inRange_int.mpr (by omega))
  have h32 : (Expr.int 32).value = some 32 := rfl
  exact cast_exact (add_exact (mul_exact hblock h32 (inRange_int.mpr (by omega))) rfl (inRange_unsigned.mpr (by omega)))
    (inRange_int.mpr (by omega))

/-- A subscript of `A_b` is exact exactly when what comes before `threadIdx.x` is an `int`. -/
theorem index_A_exact_iff {row K k0 : Int32} {threadIdx : UInt32} (hrow : 0 ≤ row.toInt) (hK : 0 ≤ K.toInt)
    (hk : 0 ≤ k0.toInt) (ht : threadIdx.toNat < 32) :
    (index_A row K k0 threadIdx).value = some (row.toInt * K.toInt + k0.toInt + threadIdx.toNat) ↔
      row.toInt * K.toInt + k0.toInt < 2 ^ 31 := by
  have hmul : 0 ≤ row.toInt * K.toInt := mul_nonneg hrow hK
  constructor
  · intro h
    obtain ⟨v, _, hv, -⟩ := value_add_eq_some_iff.mp h
    obtain ⟨w, _, hw, ⟨⟩, rfl⟩ := of_value_add rfl hv
    obtain ⟨_, _, ⟨⟩, ⟨⟩, rfl⟩ := of_value_mul rfl hw
    exact (inRange_int.mp (Expr.inRange _ _ hv)).2
  · intro h
    have hprod := mul_exact (value_int row) (value_int K) (inRange_int.mpr ⟨by omega, by omega⟩)
    have hsum := add_exact hprod (value_int k0) (inRange_int.mpr ⟨by omega, h⟩)
    exact add_exact hsum (value_unsigned threadIdx) (inRange_unsigned.mpr ⟨by omega, by omega⟩)

/-- A subscript of `B_b` is exact exactly when it is an `unsigned`. -/
theorem index_B_exact_iff {k0 N col : Int32} {threadIdx : UInt32} (hk : 0 ≤ k0.toInt) (ht : threadIdx.toNat < 32)
    (hN : 0 ≤ N.toInt) (hcol : 0 ≤ col.toInt) :
    (index_B k0 threadIdx N col).value = some ((k0.toInt + threadIdx.toNat) * N.toInt + col.toInt) ↔
      (k0.toInt + threadIdx.toNat) * N.toInt + col.toInt < 2 ^ 32 := by
  have hlt := k0.toInt_lt
  have hmul : 0 ≤ (k0.toInt + threadIdx.toNat) * N.toInt := mul_nonneg (by omega) hN
  constructor
  · intro h
    exact (inRange_unsigned.mp (Expr.inRange _ _ h)).2
  · intro h
    have hsum := add_exact (value_int k0) (value_unsigned threadIdx) (inRange_unsigned.mpr ⟨by omega, by omega⟩)
    have hprod := mul_exact hsum (value_int N) (inRange_unsigned.mpr ⟨by omega, by omega⟩)
    exact add_exact hprod (value_int col) (inRange_unsigned.mpr ⟨by omega, h⟩)

/-- The last tile along the inner dimension, and the thread in it that has the last index. -/
theorem exists_last_in_tile {K : Int32} (hK : 1 ≤ K.toInt) :
    ∃ (k0 : Int32) (threadIdx : UInt32), k0.toInt = 32 * ((K.toInt - 1) / 32) ∧ threadIdx.toNat < 32 ∧
      k0.toInt + threadIdx.toNat = K.toInt - 1 := by
  have hlt := K.toInt_lt
  have hk0 : (Int32.ofInt (32 * ((K.toInt - 1) / 32))).toInt = 32 * ((K.toInt - 1) / 32) :=
    Int32.toInt_ofInt_of_le (by omega) (by omega)
  have ht : (UInt32.ofNat ((K.toInt - 1) % 32).toNat).toNat = ((K.toInt - 1) % 32).toNat :=
    UInt32.toNat_ofNat_of_lt' (by change _ < 2 ^ 32; omega)
  exact ⟨_, UInt32.ofNat ((K.toInt - 1) % 32).toNat, hk0, by omega, by omega⟩

/-- **The tiled kernel's subscripts are exact** for these dimensions, and no others. -/
theorem exact_iff {M N K : Int32} (hM : 1 ≤ M.toInt) (hN : 1 ≤ N.toInt) (hK : 1 ≤ K.toInt) :
    Exact M N K ↔ (M.toInt - 1) * K.toInt + 32 * ((K.toInt - 1) / 32) < 2 ^ 31 ∧ K.toInt * N.toInt ≤ 2 ^ 32 ∧
      M.toInt * N.toInt ≤ 2 ^ 31 := by
  have hMlt := M.toInt_lt
  have hNlt := N.toInt_lt
  constructor
  · intro h
    obtain ⟨row, hrow, hrow'⟩ := exists_last hM
    obtain ⟨col, hcol, hcol'⟩ := exists_last hN
    obtain ⟨k0, threadIdx, hk0, ht, hk⟩ := exists_last_in_tile hK
    have hmul : ∀ D E : ℤ, (D - 1) * E = D * E - E := fun D E => by rw [sub_mul, one_mul]
    have hA := (index_A_exact_iff hrow.1 (by omega) (by omega) ht).mp
      (h.A row k0 threadIdx hrow (by omega) (by omega) ht (by omega))
    have hB := (index_B_exact_iff (by omega) ht (by omega) hcol.1).mp
      (h.B k0 threadIdx col (by omega) (by omega) ht (by omega) hcol)
    have hC := (signed_exact_iff hrow.1 (by omega) hcol.1).mp (h.C row col hrow hcol)
    rw [hrow', hk0] at hA
    rw [hk, hcol', hmul] at hB
    rw [hrow', hcol', hmul] at hC
    exact ⟨hA, by omega, by omega⟩
  · intro ⟨hA, hB, hC⟩
    refine ⟨fun _ _ _ h => position_exact (by omega), fun _ _ _ h => position_exact (by omega), ?_, ?_, ?_⟩
    · intro row k0 threadIdx hrow hk0 hdvd ht hk
      refine (index_A_exact_iff hrow.1 (by omega) hk0 ht).mpr ?_
      have hle : row.toInt * K.toInt ≤ (M.toInt - 1) * K.toInt :=
        mul_le_mul_of_nonneg_right (by have := hrow.2; omega) (by omega)
      omega
    · intro k0 threadIdx col hk0 _ ht hk hcol
      refine (index_B_exact_iff hk0 ht (by omega) hcol.1).mpr ?_
      have hle : (k0.toInt + threadIdx.toNat) * N.toInt ≤ (K.toInt - 1) * N.toInt :=
        mul_le_mul_of_nonneg_right (by omega) (by omega)
      have := hcol.2
      rw [sub_mul, one_mul] at hle
      omega
    · intro row col hrow hcol
      have := hrow.mul_add_lt hcol.2 (by omega)
      exact (signed_exact_iff hrow.1 (by omega) hcol.1).mpr (by omega)

end Tiled

/-! ### The naive kernel -/

namespace Naive

/-- The position along a dimension: `blockIdx * blockDim + threadIdx`. -/
def position (blockIdx blockDim threadIdx : UInt32) : Expr .int :=
  (Expr.unsigned blockIdx * Expr.unsigned blockDim + Expr.unsigned threadIdx).cast .int

/-- `row`. -/
def row (blockIdx_y blockDim_y threadIdx_y : UInt32) : Expr .int := position blockIdx_y blockDim_y threadIdx_y

/-- `col`. -/
def col (blockIdx_x blockDim_x threadIdx_x : UInt32) : Expr .int := position blockIdx_x blockDim_x threadIdx_x

/-- The subscript of `A_b`. -/
def index_A (row K k : Int32) : Expr .int := Expr.int row * Expr.int K + Expr.int k

/-- The subscript of `B_b`. -/
def index_B (k N col : Int32) : Expr .int := Expr.int k * Expr.int N + Expr.int col

/-- `stride_c`. -/
def stride_c (M N : Int32) : Expr .size_t := (Expr.int M).cast .size_t * Expr.int N

/-- The subscript of `C`. -/
def index_C (batch M N row col : Int32) : Expr .size_t :=
  Expr.int batch * stride_c M N + Expr.int row * Expr.int N + Expr.int col

/-- The kernel, in blocks of `16 × 16`, computes the integers that its subscripts mean. -/
structure Exact (M N K : Int32) : Prop where
  row : ∀ blockIdx threadIdx : UInt32, threadIdx.toNat < 16 → (blockIdx.toNat * 16 + threadIdx.toNat : ℤ) < M.toInt →
    (Naive.row blockIdx 16 threadIdx).value = some (blockIdx.toNat * 16 + threadIdx.toNat : ℤ)
  col : ∀ blockIdx threadIdx : UInt32, threadIdx.toNat < 16 → (blockIdx.toNat * 16 + threadIdx.toNat : ℤ) < N.toInt →
    (Naive.col blockIdx 16 threadIdx).value = some (blockIdx.toNat * 16 + threadIdx.toNat : ℤ)
  A : ∀ row k : Int32, Within row M → Within k K → (index_A row K k).value = some (row.toInt * K.toInt + k.toInt)
  B : ∀ k col : Int32, Within k K → Within col N → (index_B k N col).value = some (k.toInt * N.toInt + col.toInt)
  C : ∀ batch row col : Int32, 0 ≤ batch.toInt → Within row M → Within col N →
    (index_C batch M N row col).value =
      some (batch.toInt * (M.toInt * N.toInt) + (row.toInt * N.toInt + col.toInt))

/-- A position that is an `int` is computed exactly. -/
theorem position_exact {blockIdx threadIdx : UInt32} (h : (blockIdx.toNat * 16 + threadIdx.toNat : ℤ) < 2 ^ 31) :
    (position blockIdx 16 threadIdx).value = some (blockIdx.toNat * 16 + threadIdx.toNat : ℤ) := by
  have h16 : (Expr.unsigned 16).value = some 16 := rfl
  exact cast_exact (add_exact
    (mul_exact rfl h16 (inRange_unsigned.mpr (by omega))) rfl (inRange_unsigned.mpr (by omega)))
    (inRange_int.mpr (by omega))

/-- A subscript of `C` is exact if what is multiplied in `int`s is an `int`: the rest is done in
`std::size_t`, in which there is room for matrices of `2^32` elements. -/
theorem index_C_exact {batch M N row col : Int32} (hb : 0 ≤ batch.toInt) (hrow : Within row M) (hcol : Within col N)
    (hMN : M.toInt * N.toInt < 2 ^ 32) (h : row.toInt * N.toInt < 2 ^ 31) :
    (index_C batch M N row col).value =
      some (batch.toInt * (M.toInt * N.toInt) + (row.toInt * N.toInt + col.toInt)) := by
  obtain ⟨hrow₀, hrow⟩ := hrow
  obtain ⟨hcol₀, hcol⟩ := hcol
  have hblt := batch.toInt_lt
  have hNlt := N.toInt_lt
  have hMN₀ : 0 ≤ M.toInt * N.toInt := mul_nonneg (by omega) (by omega)
  have hrow₁ : 0 ≤ row.toInt * N.toInt := mul_nonneg hrow₀ (by omega)
  have hoff₀ : 0 ≤ batch.toInt * (M.toInt * N.toInt) := mul_nonneg hb hMN₀
  have hoff : batch.toInt * (M.toInt * N.toInt) ≤ 2 ^ 31 * 2 ^ 32 :=
    mul_le_mul (by omega) (by omega) hMN₀ (by norm_num)
  have hM := cast_exact (value_int M) (inRange_size_t.mpr ⟨by omega, by have := M.toInt_lt; omega⟩)
  have hstride := mul_exact hM (value_int N) (inRange_size_t.mpr ⟨hMN₀, by omega⟩)
  have hbatch := mul_exact (value_int batch) hstride (inRange_size_t.mpr ⟨hoff₀, by omega⟩)
  have hprod := mul_exact (value_int row) (value_int N) (inRange_int.mpr ⟨by omega, h⟩)
  have hsum := add_exact hbatch hprod (inRange_size_t.mpr ⟨by omega, by omega⟩)
  rw [← add_assoc]
  exact add_exact hsum (value_int col) (inRange_size_t.mpr ⟨by omega, by omega⟩)

/-- If a subscript of `C` has a value at all, what is multiplied in `int`s is an `int`. -/
theorem lt_of_index_C {batch M N row col : Int32} {v : ℤ} (h : (index_C batch M N row col).value = some v) :
    row.toInt * N.toInt < 2 ^ 31 := by
  obtain ⟨_, _, hsum, -⟩ := value_add_eq_some_iff.mp h
  obtain ⟨_, _, -, hprod, -⟩ := value_add_eq_some_iff.mp hsum
  obtain ⟨_, _, ⟨⟩, ⟨⟩, rfl⟩ := of_value_mul rfl hprod
  exact (inRange_int.mp (Expr.inRange _ _ hprod)).2

/-- **The naive kernel's subscripts are exact** for these dimensions, and no others. -/
theorem exact_iff {M N K : Int32} (hM : 1 ≤ M.toInt) (hN : 1 ≤ N.toInt) (hK : 1 ≤ K.toInt) :
    Exact M N K ↔ M.toInt * K.toInt ≤ 2 ^ 31 ∧ K.toInt * N.toInt ≤ 2 ^ 31 ∧ (M.toInt - 1) * N.toInt < 2 ^ 31 := by
  have hMlt := M.toInt_lt
  have hNlt := N.toInt_lt
  have hmul : ∀ D E : ℤ, (D - 1) * E = D * E - E := fun D E => by rw [sub_mul, one_mul]
  constructor
  · intro h
    obtain ⟨row, hrow, hrow'⟩ := exists_last hM
    obtain ⟨col, hcol, hcol'⟩ := exists_last hN
    obtain ⟨k, hk, hk'⟩ := exists_last hK
    have hA := (signed_exact_iff hrow.1 (by omega) hk.1).mp (h.A row k hrow hk)
    have hB := (signed_exact_iff hk.1 (by omega) hcol.1).mp (h.B k col hk hcol)
    have hC := lt_of_index_C (h.C 0 row col le_rfl hrow hcol)
    rw [hrow', hk', hmul] at hA
    rw [hk', hcol', hmul] at hB
    rw [hrow'] at hC
    exact ⟨by omega, by omega, hC⟩
  · intro ⟨hA, hB, hC⟩
    refine ⟨fun _ _ _ h => position_exact (by omega), fun _ _ _ h => position_exact (by omega), ?_, ?_, ?_⟩
    · intro row k hrow hk
      have := hrow.mul_add_lt hk.2 (by omega)
      exact (signed_exact_iff hrow.1 (by omega) hk.1).mpr (by omega)
    · intro k col hk hcol
      have := hk.mul_add_lt hcol.2 (by omega)
      exact (signed_exact_iff hk.1 (by omega) hcol.1).mpr (by omega)
    · intro batch row col hb hrow hcol
      have hle : row.toInt * N.toInt ≤ (M.toInt - 1) * N.toInt :=
        mul_le_mul_of_nonneg_right (by have := hrow.2; omega) (by omega)
      rw [hmul] at hC hle
      exact index_C_exact hb hrow hcol (by omega) (by omega)

end Naive

/-! ### What is accepted -/

open Sched Bindings

/-- The indices of both kernels are exact. -/
def IndicesExact (M N K : Int32) : Prop := Tiled.Exact M N K ∧ Naive.Exact M N K

/-- No two dimensions have a product above `2^31`. -/
def ProductsFit (m n k : ℤ) : Prop := m * k ≤ 2 ^ 31 ∧ k * n ≤ 2 ^ 31 ∧ m * n ≤ 2 ^ 31

instance (m n k : ℤ) : Decidable (ProductsFit m n k) := inferInstanceAs (Decidable (_ ∧ _))

/-- Between them, the kernels need all three products to fit. -/
theorem indicesExact_iff {M N K : Int32} (hM : 1 ≤ M.toInt) (hN : 1 ≤ N.toInt) (hK : 1 ≤ K.toInt) :
    IndicesExact M N K ↔ ProductsFit M.toInt N.toInt K.toInt := by
  have hmul : ∀ D E : ℤ, (D - 1) * E = D * E - E := fun D E => by rw [sub_mul, one_mul]
  unfold IndicesExact ProductsFit
  rw [Tiled.exact_iff hM hN hK, Naive.exact_iff hM hN hK, hmul, hmul]
  omega

/-- `static_cast<int>` of a positive dimension is lossless exactly when it is an `int`. -/
theorem toInt32_lossless_iff {i : Int64} (h : 1 ≤ i.toInt) : i.toInt32.toInt = i.toInt ↔ i.toInt ≤ 2 ^ 31 - 1 := by
  constructor
  · intro he
    have := i.toInt32.toInt_lt
    omega
  · intro hle
    exact toInt_toInt32 h (by omega)

/-- What `batched_gemm` makes of its dimensions is exact: the casts, and the indices that the
kernels compute from what is cast. -/
structure DimsExact (dims : GemmDims) : Prop where
  b_batch : dims.b_batch.toInt32.toInt = dims.b_batch.toInt
  m_dim : dims.m_dim.toInt32.toInt = dims.m_dim.toInt
  n_dim : dims.n_dim.toInt32.toInt = dims.n_dim.toInt
  k_dim : dims.k_dim.toInt32.toInt = dims.k_dim.toInt
  indices : IndicesExact dims.m_dim.toInt32 dims.n_dim.toInt32 dims.k_dim.toInt32

/-- **For which dimensions the index arithmetic is exact.** Of the arrays that `batched_gemm`
accepts, it is for those whose dimensions are `int`s, no two with a product above `2^31`; and of
the jobs with positive dimensions, for those of the same kind. -/
theorem indices_exact_iff {a b : PyArray} {dims : GemmDims} (hdims : checked_dims a b = .ok dims)
    {job : InferenceJob} (hjob : job.Positive) :
    (DimsExact dims ↔
      (dims.m_dim.toInt ≤ 2 ^ 31 - 1 ∧ dims.n_dim.toInt ≤ 2 ^ 31 - 1 ∧ dims.k_dim.toInt ≤ 2 ^ 31 - 1) ∧
        ProductsFit dims.m_dim.toInt dims.n_dim.toInt dims.k_dim.toInt) ∧
    (IndicesExact job.m job.n job.k ↔ ProductsFit job.m.toInt job.n.toInt job.k.toInt) := by
  obtain ⟨hm, hn, hk, hb, hb'⟩ := checked_dims_positive hdims
  refine ⟨?_, indicesExact_iff hjob.m hjob.n hjob.k⟩
  constructor
  · intro h
    have hfit := (indicesExact_iff (h.m_dim ▸ hm) (h.n_dim ▸ hn) (h.k_dim ▸ hk)).mp h.indices
    rw [h.m_dim, h.n_dim, h.k_dim] at hfit
    exact ⟨⟨(toInt32_lossless_iff hm).mp h.m_dim, (toInt32_lossless_iff hn).mp h.n_dim,
      (toInt32_lossless_iff hk).mp h.k_dim⟩, hfit⟩
  · intro ⟨⟨hm', hn', hk'⟩, hfit⟩
    have hM := (toInt32_lossless_iff hm).mpr hm'
    have hN := (toInt32_lossless_iff hn).mpr hn'
    have hK := (toInt32_lossless_iff hk).mpr hk'
    refine ⟨(toInt32_lossless_iff hb).mpr (by omega), hM, hN, hK, ?_⟩
    rw [indicesExact_iff (hM ▸ hm) (hN ▸ hn) (hK ▸ hk), hM, hN, hK]
    exact hfit

/-- The largest square product whose indices are exact, and one that is hardly smaller. -/
theorem indices_exact_iff_large : DimsExact ⟨2, 46340, 46340, 7⟩ ∧ IndicesExact 30000 71000 5 := by
  let a : PyArray := { is_float := true, shape := [2, 46340, 7], ptr := 1 }
  let b : PyArray := { is_float := true, shape := [2, 7, 46340], ptr := 2 }
  let job : InferenceJob := { m := 30000, n := 71000, k := 5, batch := 3 }
  obtain ⟨hgemm, hjob⟩ := indices_exact_iff (show checked_dims a b = .ok ⟨2, 46340, 46340, 7⟩ from by decide)
    (show job.Positive from ⟨by decide, by decide, by decide, by decide⟩)
  exact ⟨hgemm.mpr (by decide), hjob.mpr (by decide)⟩

/-- The smallest square product that overflows, of some 8 GiB. -/
def squareJob : InferenceJob := { m := 46341, n := 46341, k := 1 }

/-- A column, and a row, of as many elements. -/
def longColumn : PyArray := { is_float := true, shape := [1, 46341, 1], ptr := 1 }

@[inherit_doc longColumn]
def longRow : PyArray := { is_float := true, shape := [1, 1, 46341], ptr := 2 }

/-- The job is submitted to a device of 15 GiB, and packed. -/
def squareTrace : List Action :=
  [.start, .probe false 16106127360, .spawn, .spawn, .spawn, .submit squareJob, .client 0] ++
  List.replicate 3 .dispatcher ++ [.sample 16000000000] ++ List.replicate 5 .dispatcher

/-- A product that fits in the memory of the device is packed, and accepted by `batched_gemm`, and
its last row is not indexed. -/
theorem overflowing_index :
    submitted_job 46341 46341 1 1 0 = .ok squareJob ∧
    (∃ s, Reachable (scheduler {}) Always s ∧ s.batch_queue_.map (·.map fun job => (job.m, job.n, job.k)) =
      [[(46341, 46341, 1)]]) ∧
    checked_dims longColumn longRow = .ok ⟨1, 46341, 46341, 1⟩ ∧
    (Tiled.index_C 46340 46341 46340).value = none ∧ ¬ IndicesExact 46341 46341 1 ∧
      ¬ DimsExact ⟨1, 46341, 46341, 1⟩ := by
  have hnot : ¬ IndicesExact 46341 46341 1 := by
    rw [indicesExact_iff (by decide) (by decide) (by decide)]
    decide
  refine ⟨by decide, ?_, by decide, by decide, hnot, fun h => hnot h.indices⟩
  obtain ⟨s, hr, hp⟩ := exists_of_follow {} Always 1 squareTrace
    (fun s => s.batch_queue_.map (·.map fun job => (job.m, job.n, job.k)) = [[(46341, 46341, 1)]]) (by decide +kernel)
  exact ⟨s, hr, by simpa using hp⟩

end Gbis.Kernels
