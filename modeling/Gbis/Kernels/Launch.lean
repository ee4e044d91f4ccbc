import Gbis.Kernels.Gemm
import Mathlib.Tactic.Linarith

/-!
# What the kernels are launched with

`gemm_tiled_batched` computes its grid in `int`s, which `dim3` takes as `unsigned`
(`tiledGrid`; an overflow, which C++ leaves undefined, wraps). CUDA launches a grid only if
each of its dimensions is at least `1` and at most a limit of its own (`Dim3.Launches`), and
otherwise executes nothing. `launches_tiledGrid_iff` says for which dimensions of the matrices
it does. The grid of `gemm_naive_batched` is computed in the same way (`naiveGrid`).
-/

namespace Gbis.Kernels

/-- The grid of `gemm_tiled_batched`. -/
def tiledGrid (M N batch : Int32) : Dim3 where
  x := ((N + 32 - 1) / 32).toUInt32.toNat
  y := ((M + 32 - 1) / 32).toUInt32.toNat
  z := batch.toUInt32.toNat

/-- The grid of `gemm_naive_batched`. -/
def naiveGrid (M N batch : Int32) : Dim3 where
  x := ((N + 15) / 16).toUInt32.toNat
  y := ((M + 15) / 16).toUInt32.toNat
  z := batch.toUInt32.toNat

/-- A grid is within CUDA's limits. -/
structure Dim3.Launches (grid : Dim3) : Prop where
  x : 1 ≤ grid.x ∧ grid.x ≤ 2 ^ 31 - 1
  y : 1 ≤ grid.y ∧ grid.y ≤ 65535
  z : 1 ≤ grid.z ∧ grid.z ≤ 65535

instance (grid : Dim3) : Decidable grid.Launches :=
  decidable_of_iff ((1 ≤ grid.x ∧ grid.x ≤ 2 ^ 31 - 1) ∧ (1 ≤ grid.y ∧ grid.y ≤ 65535) ∧ (1 ≤ grid.z ∧ grid.z ≤ 65535))
    ⟨fun ⟨hx, hy, hz⟩ => ⟨hx, hy, hz⟩, fun ⟨hx, hy, hz⟩ => ⟨hx, hy, hz⟩⟩

/-- An `int` taken as `unsigned`. -/
theorem toNat_toUInt32 (i : Int32) : (i.toUInt32.toNat : ℤ) = i.toInt % 2 ^ 32 := by
  have h := BitVec.toInt_eq_toNat_bmod i.toBitVec
  have hlt := i.toUInt32.toNat_lt
  change i.toInt = Int.bmod (i.toUInt32.toNat : ℤ) (2 ^ 32) at h
  rw [h, Int.bmod]
  split_ifs <;> omega

/-- What the number of blocks along a dimension is rounded up from. -/
theorem toInt_add_sub (i : Int32) :
    (i + 32 - 1).toInt = if i.toInt ≤ 2 ^ 31 - 32 then i.toInt + 31 else i.toInt + 31 - 2 ^ 32 := by
  have hlt := i.toInt_lt
  have hge := i.le_toInt
  rw [Int32.toInt_sub, Int32.toInt_add]
  change Int.bmod (Int.bmod (i.toInt + 32) (2 ^ 32) - 1) (2 ^ 32) = _
  simp only [Int.bmod]
  split_ifs <;> omega

/-- Division in `int`s rounds towards zero. -/
theorem toInt_div_32 (i : Int32) : (i / 32).toInt = if 0 ≤ i.toInt then i.toInt / 32 else -(-i.toInt / 32) := by
  have hlt := i.toInt_lt
  have hge := i.le_toInt
  have hdiv : i.toInt.tdiv 32 = if 0 ≤ i.toInt then i.toInt / 32 else -(-i.toInt / 32) := by
    split_ifs with h
    · exact Int.tdiv_eq_ediv_of_nonneg h
    · rw [← Int.neg_neg (i.toInt.tdiv 32), ← Int.neg_tdiv, Int.tdiv_eq_ediv_of_nonneg (by omega)]
  rw [Int32.toInt_div]
  change Int.bmod (i.toInt.tdiv 32) (2 ^ 32) = _
  rw [hdiv, Int.bmod]
  split_ifs <;> omega

/-- The number of blocks along a dimension of `i`. -/
theorem toNat_blocks {i : Int32} (h₁ : 1 ≤ i.toInt) (h₂ : i.toInt ≤ 2 ^ 31 - 32) :
    (((i + 32 - 1) / 32).toUInt32.toNat : ℤ) = (i.toInt + 31) / 32 := by
  rw [toNat_toUInt32, toInt_div_32, toInt_add_sub, if_pos h₂, if_pos (by omega)]
  omega

/-- What is no dimension, or overflows, gives no number of blocks that any limit allows. -/
theorem blocks_out_of_limits {i : Int32} (h : ¬ (1 ≤ i.toInt ∧ i.toInt ≤ 2 ^ 31 - 32)) :
    ¬ (1 ≤ ((i + 32 - 1) / 32).toUInt32.toNat ∧ ((i + 32 - 1) / 32).toUInt32.toNat ≤ 2 ^ 31 - 1) := by
  have hlt := i.toInt_lt
  have hge := i.le_toInt
  have hblocks := toNat_toUInt32 ((i + 32 - 1) / 32)
  rw [toInt_div_32, toInt_add_sub] at hblocks
  split_ifs at hblocks <;> omega

/-- **Which launches CUDA accepts**: those of positive dimensions, with no more than
`65535` rows of blocks, and no more than `65535` matrices. -/
theorem launches_tiledGrid_iff (M N batch : Int32) :
    (tiledGrid M N batch).Launches ↔
      (1 ≤ M.toInt ∧ M.toInt ≤ 65535 * 32) ∧ (1 ≤ N.toInt ∧ N.toInt ≤ 2 ^ 31 - 32) ∧ 1 ≤ batch.toInt ∧
        batch.toInt ≤ 65535 := by
  have hbatch := toNat_toUInt32 batch
  have hlt := batch.toInt_lt
  have hge := batch.le_toInt
  constructor
  · rintro ⟨hx, hy, hz⟩
    simp only [tiledGrid] at hx hy hz
    have hN : 1 ≤ N.toInt ∧ N.toInt ≤ 2 ^ 31 - 32 := by_contra fun h => blocks_out_of_limits h hx
    have hM : 1 ≤ M.toInt ∧ M.toInt ≤ 2 ^ 31 - 32 := by_contra fun h => blocks_out_of_limits h ⟨hy.1, by omega⟩
    have hblocks := toNat_blocks hM.1 hM.2
    exact ⟨⟨hM.1, by omega⟩, hN, by omega, by omega⟩
  · rintro ⟨hM, hN, hB⟩
    have hx := toNat_blocks hN.1 hN.2
    have hy := toNat_blocks hM.1 (by omega)
    refine ⟨?_, ?_, ?_⟩ <;> simp only [tiledGrid] <;> omega

end Gbis.Kernels
