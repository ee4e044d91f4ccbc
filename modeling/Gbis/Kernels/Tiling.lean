import Gbis.Kernels.Gemm
import Mathlib.Tactic.Ring

/-!
# The kernels compute the products

Both kernels are verified one thread at a time. What a thread knows of itself (`Own`) is how
many barriers it has passed, what it has put into its places in the tiles, and whether it has
written its element of `C`; and `threadWorld` says what it may do, and what it gets, by that.
A thread fills its own places, and only between an even barrier and an odd one; it reads tiles
only after an odd one, when every thread of its block has filled its own (`Link`). So the tiles
it reads are those of the matrices, padded with zeros, whatever the order.

The naive kernel is the case without tiles.
-/

namespace Gbis.Kernels

open Library

universe u

variable {α : Type u} [CommSemiring α] {A B C : ℕ → α} {M N K batch D P : ℕ} {grid : Dim3}

/-! ### Positions -/

theorem mul_add_lt {q r n m : ℕ} (hq : q < n) (hr : r < m) : q * m + r < n * m :=
  calc q * m + r < q * m + m := Nat.add_lt_add_left hr _
    _ = (q + 1) * m := (Nat.succ_mul q m).symm
    _ ≤ n * m := Nat.mul_le_mul_right m hq

theorem mul_add_div_mod {q r m : ℕ} (hr : r < m) : (q * m + r) / m = q ∧ (q * m + r) % m = r := by
  have hm : 0 < m := Nat.zero_lt_of_lt hr
  rw [Nat.add_comm, Nat.add_mul_div_right _ _ hm, Nat.add_mul_mod_self_right, Nat.div_eq_of_lt hr, Nat.mod_eq_of_lt hr,
    Nat.zero_add]
  exact ⟨rfl, rfl⟩

theorem mul_add_inj {q r q' r' m : ℕ} (hr : r < m) (hr' : r' < m) (h : q * m + r = q' * m + r') : q = q' ∧ r = r' := by
  obtain ⟨hd, hm⟩ := mul_add_div_mod (q := q) hr
  obtain ⟨hd', hm'⟩ := mul_add_div_mod (q := q') hr'
  rw [h] at hd hm
  exact ⟨hd.symm.trans hd', hm.symm.trans hm'⟩

theorem offset_lt {rows cols b row col : ℕ} (hb : b < batch) (hr : row < rows) (hc : col < cols) :
    offset rows cols b row col < batch * (rows * cols) := mul_add_lt hb (mul_add_lt hr hc)

theorem offset_inj {rows cols b row col b' row' col' : ℕ} (hr : row < rows) (hc : col < cols) (hr' : row' < rows)
    (hc' : col' < cols) (h : offset rows cols b row col = offset rows cols b' row' col') :
    b = b' ∧ row = row' ∧ col = col' := by
  obtain ⟨hb, h⟩ := mul_add_inj (mul_add_lt hr hc) (mul_add_lt hr' hc') h
  exact ⟨hb, mul_add_inj hc hc' h⟩

theorem exists_offset {rows cols i : ℕ} (hi : i < batch * (rows * cols)) :
    ∃ b row col, b < batch ∧ row < rows ∧ col < cols ∧ offset rows cols b row col = i := by
  have hpos : 0 < rows * cols := Nat.pos_of_ne_zero fun h => by simp [h] at hi
  have hcols : 0 < cols := Nat.pos_of_ne_zero fun h => by simp [h] at hpos
  refine ⟨i / (rows * cols), i % (rows * cols) / cols, i % (rows * cols) % cols, ?_, ?_, Nat.mod_lt _ hcols, ?_⟩
  · exact Nat.div_lt_of_lt_mul (Nat.mul_comm batch _ ▸ hi)
  · exact Nat.div_lt_of_lt_mul (Nat.mul_comm rows _ ▸ Nat.mod_lt i hpos)
  · rw [offset, Nat.div_add_mod', Nat.div_add_mod']

/-- The row of `C` a thread computes. -/
def Thread.row (t : Thread grid ⟨D, D, 1⟩) : ℕ := t.blockIdx.y * D + t.threadIdx.y

/-- The column. -/
def Thread.col (t : Thread grid ⟨D, D, 1⟩) : ℕ := t.blockIdx.x * D + t.threadIdx.x

/-- The matrix. -/
def Thread.mat (t : Thread grid ⟨D, D, 1⟩) : ℕ := t.blockIdx.z

/-- A thread has an element of `C` to compute. -/
def Thread.Active (M N : ℕ) (t : Thread grid ⟨D, D, 1⟩) : Prop := t.row < M ∧ t.col < N

/-- Where that is. -/
def Thread.own (M N : ℕ) (t : Thread grid ⟨D, D, 1⟩) : ℕ := offset M N t.mat t.row t.col

variable {t t' : Thread grid ⟨D, D, 1⟩}

theorem Thread.eq_of_place (hb : t'.blockIdx = t.blockIdx) (hy : (t'.threadIdx.y : ℕ) = t.threadIdx.y)
    (hx : (t'.threadIdx.x : ℕ) = t.threadIdx.x) : t' = t := by
  obtain ⟨b, ⟨x, y, z⟩⟩ := t
  obtain ⟨b', ⟨x', y', z'⟩⟩ := t'
  obtain rfl := hb
  obtain rfl := Fin.ext hy
  obtain rfl := Fin.ext hx
  obtain rfl : z' = z := Subsingleton.elim _ _
  rfl

/-- No two threads compute the same element. -/
theorem Thread.own_inj (h : t.Active M N) (h' : t'.Active M N) (he : t'.own M N = t.own M N) : t' = t := by
  obtain ⟨hz, hr, hc⟩ := offset_inj h'.1 h'.2 h.1 h.2 he
  obtain ⟨hby, hty⟩ := mul_add_inj t'.threadIdx.y.isLt t.threadIdx.y.isLt hr
  obtain ⟨hbx, htx⟩ := mul_add_inj t'.threadIdx.x.isLt t.threadIdx.x.isLt hc
  refine Thread.eq_of_place ?_ hty htx
  obtain ⟨⟨x, y, z⟩, i⟩ := t
  obtain ⟨⟨x', y', z'⟩, i'⟩ := t'
  obtain rfl := Fin.ext hbx
  obtain rfl := Fin.ext hby
  obtain rfl := Fin.ext hz
  rfl

/-- The grid has a block for every `D × D` tile of every matrix. -/
structure Covers (grid : Dim3) (M N batch D : ℕ) : Prop where
  x : N ≤ grid.x * D
  y : M ≤ grid.y * D
  z : grid.z = batch

/-- Every element is computed by some thread. -/
theorem Covers.exists_thread (h : Covers grid M N batch D) {b row col : ℕ} (hb : b < batch) (hr : row < M)
    (hc : col < N) :
    ∃ t : Thread grid ⟨D, D, 1⟩, t.mat = b ∧ t.row = row ∧ t.col = col := by
  have hD : 0 < D := Nat.pos_of_ne_zero fun hD => by have := h.x; simp [hD] at this; omega
  refine ⟨⟨⟨⟨col / D, ?_⟩, ⟨row / D, ?_⟩, ⟨b, ?_⟩⟩,
    ⟨⟨col % D, Nat.mod_lt _ hD⟩, ⟨row % D, Nat.mod_lt _ hD⟩, ⟨0, Nat.one_pos⟩⟩⟩, rfl,
    Nat.div_add_mod' _ _, Nat.div_add_mod' _ _⟩
  · exact Nat.div_lt_of_lt_mul (Nat.mul_comm grid.x D ▸ lt_of_lt_of_le hc h.x)
  · exact Nat.div_lt_of_lt_mul (Nat.mul_comm grid.y D ▸ lt_of_lt_of_le hr h.y)
  · exact h.z ▸ hb

theorem Covers.mat_lt (h : Covers grid M N batch D) (t : Thread grid ⟨D, D, 1⟩) : t.mat < batch :=
    h.z ▸ t.blockIdx.z.isLt

/-! ### Padding -/

/-- `A`, padded with zeros. -/
def padA (A : ℕ → α) (M K b row k : ℕ) : α := if row < M ∧ k < K then A (offset M K b row k) else 0

/-- `B`, padded with zeros. -/
def padB (B : ℕ → α) (K N b k col : ℕ) : α := if k < K ∧ col < N then B (offset K N b k col) else 0

/-- The first `n` terms of an element of the product of the padded matrices. -/
def partialDot (A B : ℕ → α) (M N K b row col n : ℕ) : α :=
  ∑ k ∈ Finset.range n, padA A M K b row k * padB B K N b k col

theorem partialDot_succ (b row col n : ℕ) : partialDot A B M N K b row col (n + 1) =
    partialDot A B M N K b row col n + padA A M K b row n * padB B K N b n col := Finset.sum_range_succ _ _

/-- The padding adds nothing. -/
theorem partialDot_eq_dot {b row col n : ℕ} (hr : row < M) (hc : col < N) (hn : K ≤ n) :
    partialDot A B M N K b row col n = dot A B M N K b row col := by
  refine (Finset.sum_subset (Finset.range_subset_range.mpr hn) fun k _ hk => ?_).symm.trans
    (Finset.sum_congr rfl fun k hk => ?_)
  · rw [padA, if_neg fun h => hk (Finset.mem_range.mpr h.2), zero_mul]
  · have hk := Finset.mem_range.mp hk
    rw [padA, padB, if_pos ⟨hr, hk⟩, if_pos ⟨hk, hc⟩]

/-! ### What a thread knows -/

/-- What a thread knows of itself. -/
structure Own (α : Type u) where
  /-- The barriers it has passed. -/
  phase : ℕ
  /-- Its place in `As`. -/
  a : α
  /-- Its place in `Bs`. -/
  b : α
  /-- It has written its element of `C`. -/
  wrote : Bool

/-- Its places are filled, for the pair of barriers it is in. -/
structure Own.Filled (A B : ℕ → α) (M N K : ℕ) (t : Thread grid ⟨D, D, 1⟩) (own : Own α) : Prop where
  a : own.a = padA A M K t.mat t.row (own.phase / 2 * D + t.threadIdx.x)
  b : own.b = padB B K N t.mat (own.phase / 2 * D + t.threadIdx.y) t.col

/-- What it may do. -/
def Own.Pre (A B : ℕ → α) (M N K batch P : ℕ) (t : Thread grid ⟨D, D, 1⟩) : Option (Access α) → Own α → Prop
  | some (.readA i), _ => i < batch * (M * K)
  | some (.readB i), _ => i < batch * (K * N)
  | some (.writeC i v), _ => t.Active M N ∧ i = t.own M N ∧ v = dot A B M N K t.mat t.row t.col
  | some (.writeAs y x _), own => y = t.threadIdx.y ∧ x = t.threadIdx.x ∧ own.phase % 2 = 0
  | some (.writeBs y x _), own => y = t.threadIdx.y ∧ x = t.threadIdx.x ∧ own.phase % 2 = 0
  | some (.readAs y x), own => y = t.threadIdx.y ∧ x < D ∧ own.phase % 2 = 1
  | some (.readBs y x), own => y < D ∧ x = t.threadIdx.x ∧ own.phase % 2 = 1
  | none, own => own.phase < 2 * P ∧ (own.phase % 2 = 0 → own.Filled A B M N K t)

/-- What it gets, and what it then knows. -/
def Own.Answer (A B : ℕ → α) (M N K : ℕ) (t : Thread grid ⟨D, D, 1⟩) (own : Own α) :
    (c : Option (Access α)) → WithBarrier Access.Ret c → Own α → Prop
  | some (.readA i), r, own' => r = A i ∧ own' = own
  | some (.readB i), r, own' => r = B i ∧ own' = own
  | some (.writeC _ _), _, own' => own' = { own with wrote := true }
  | some (.writeAs _ _ v), _, own' => own' = { own with a := v }
  | some (.writeBs _ _ v), _, own' => own' = { own with b := v }
  | some (.readAs _ x), r, own' => r = padA A M K t.mat t.row (own.phase / 2 * D + x) ∧ own' = own
  | some (.readBs y _), r, own' => r = padB B K N t.mat (own.phase / 2 * D + y) t.col ∧ own' = own
  | none, _, own' => own' = { own with phase := own.phase + 1 }

/-- A thread by itself, in a launch with `P` tiles along `K`. -/
def threadWorld (A B : ℕ → α) (M N K batch P : ℕ) (t : Thread grid ⟨D, D, 1⟩) :
    World (Option (Access α)) (WithBarrier Access.Ret) (Own α) where
  pre := Own.Pre A B M N K batch P t
  answer := Own.Answer A B M N K t

/-- What it is to come to. -/
structure Own.Done (M N P : ℕ) (t : Thread grid ⟨D, D, 1⟩) (own : Own α) : Prop where
  phase : own.phase = 2 * P
  wrote : t.Active M N → own.wrote = true

/-! ### The kernels, one thread at a time -/

section

variable {own : Own α} {X : PEmpty.{u + 1} → PUnit.{u + 1} → Own α → Prop}

/-- The term of the product that a thread reads from the matrices. -/
theorem padA_mul_padB {k : ℕ} (ht : t.Active M N) (hk : k < K) :
    padA A M K t.mat t.row k * padB B K N t.mat k t.col =
      A (offset M K t.mat t.row k) * B (offset K N t.mat k t.col) := by
  rw [padA, padB, if_pos ⟨ht.1, hk⟩, if_pos ⟨hk, ht.2⟩]

/-- The naive kernel. -/
theorem naive_thread (hcov : Covers grid M N batch D) (hphase : own.phase = 0) :
    (gemm_naive_batched_kernel M N K t : KernelM α PUnit).wp (threadWorld A B M N K batch 0 t)
      (fun _ _ => Own.Done M N 0 t) X ⟨⟩ own := by
  unfold gemm_naive_batched_kernel
  dsimp only
  split_ifs with hout
  · refine ⟨hphase, fun ht => ?_⟩
    rcases hout with hr | hc
    · exact absurd ht.1 (Nat.not_lt.mpr hr)
    · exact absurd ht.2 (Nat.not_lt.mpr hc)
  · obtain ⟨hr, hc⟩ := not_or.mp hout
    have ht : t.Active M N := ⟨Nat.lt_of_not_ge hr, Nat.lt_of_not_ge hc⟩
    refine Host.wp_seq (Host.wp_forLoop
      (I := fun k acc _ own' => own' = own ∧ acc = partialDot A B M N K t.mat t.row t.col k) ?_
      (Nat.succ_pos K) ⟨rfl, rfl⟩) ?_ fun _ _ _ h => h
    · rintro k hk acc _ _ ⟨rfl, rfl⟩
      rw [Host.wp_bind]
      refine (Host.wp_call _).mpr ⟨offset_lt (hcov.mat_lt t) ht.1 hk, ?_⟩
      rintro _ _ ⟨rfl, rfl⟩
      rw [Host.wp_bind]
      refine (Host.wp_call _).mpr ⟨offset_lt (hcov.mat_lt t) hk ht.2, ?_⟩
      rintro _ _ ⟨rfl, rfl⟩
      refine ⟨rfl, ?_⟩
      rw [partialDot_succ, padA_mul_padB ht hk]
      rfl
    · rintro acc _ _ ⟨k, hk, -, rfl, rfl⟩
      refine (Host.wp_call _).mpr ⟨⟨ht, Nat.add_assoc _ _ _, partialDot_eq_dot ht.1 ht.2 hk⟩, ?_⟩
      rintro _ _ rfl
      exact ⟨hphase, fun _ => rfl⟩

variable {k0 : ℕ}

theorem fill_As_thread (hcov : Covers grid M N batch D) (hphase : own.phase % 2 = 0) :
    (fill_As D M K t k0 : KernelM α PUnit).wp (threadWorld A B M N K batch P t)
      (fun _ _ own' => own' = { own with a := padA A M K t.mat t.row (k0 + t.threadIdx.x) }) X ⟨⟩ own := by
  unfold fill_As
  dsimp only
  split_ifs with hin
  · rw [Host.wp_bind]
    refine (Host.wp_call _).mpr ⟨?_, ?_⟩
    · rw [Nat.add_assoc]
      exact offset_lt (hcov.mat_lt t) hin.1 hin.2
    · rintro _ _ ⟨rfl, rfl⟩
      refine (Host.wp_call _).mpr ⟨⟨rfl, rfl, hphase⟩, ?_⟩
      rintro _ _ rfl
      rw [padA, if_pos (show t.row < M ∧ _ from hin), offset, ← Nat.add_assoc (t.row * K)]
      rfl
  · refine (Host.wp_call _).mpr ⟨⟨rfl, rfl, hphase⟩, ?_⟩
    rintro _ _ rfl
    rw [padA, if_neg (show ¬ (t.row < M ∧ _) from hin)]

theorem fill_Bs_thread (hcov : Covers grid M N batch D) (hphase : own.phase % 2 = 0) :
    (fill_Bs D N K t k0 : KernelM α PUnit).wp (threadWorld A B M N K batch P t)
      (fun _ _ own' => own' = { own with b := padB B K N t.mat (k0 + t.threadIdx.y) t.col }) X ⟨⟩ own := by
  unfold fill_Bs
  dsimp only
  split_ifs with hin
  · rw [Host.wp_bind]
    refine (Host.wp_call _).mpr ⟨offset_lt (hcov.mat_lt t) hin.1 hin.2, ?_⟩
    rintro _ _ ⟨rfl, rfl⟩
    refine (Host.wp_call _).mpr ⟨⟨rfl, rfl, hphase⟩, ?_⟩
    rintro _ _ rfl
    rw [padB, if_pos (show _ ∧ t.col < N from hin)]
    rfl
  · refine (Host.wp_call _).mpr ⟨⟨rfl, rfl, hphase⟩, ?_⟩
    rintro _ _ rfl
    rw [padB, if_neg (show ¬ (_ ∧ t.col < N) from hin)]

theorem multiply_thread {n : ℕ} (hphase : own.phase % 2 = 1) (hn : own.phase / 2 * D = n) :
    (multiply D t (partialDot A B M N K t.mat t.row t.col n)).wp (threadWorld A B M N K batch P t)
      (fun acc _ own' => own' = own ∧ acc = partialDot A B M N K t.mat t.row t.col (n + D)) X ⟨⟩ own := by
  unfold multiply
  refine Host.wp_mono (Host.wp_forLoop
    (I := fun kk acc _ own' => own' = own ∧ acc = partialDot A B M N K t.mat t.row t.col (n + kk)) ?_ (Nat.succ_pos D)
    ⟨rfl, rfl⟩) ?_ fun _ _ _ h => h
  · rintro kk hkk acc _ _ ⟨rfl, rfl⟩
    rw [Host.wp_bind]
    refine (Host.wp_call _).mpr ⟨⟨rfl, hkk, hphase⟩, ?_⟩
    rintro _ _ ⟨rfl, rfl⟩
    rw [Host.wp_bind]
    refine (Host.wp_call _).mpr ⟨⟨hkk, rfl, hphase⟩, ?_⟩
    rintro _ _ ⟨rfl, rfl⟩
    refine ⟨rfl, ?_⟩
    rw [← Nat.add_assoc, partialDot_succ, hn]
  · rintro acc _ _ ⟨kk, hle, hlt, rfl, rfl⟩
    rw [Nat.le_antisymm (Nat.le_of_lt_succ hlt) hle]
    exact ⟨rfl, rfl⟩

/-- What a thread knows when it comes to the tile at `k0`. -/
structure AtTile (A B : ℕ → α) (M N K : ℕ) (t : Thread grid ⟨D, D, 1⟩) (k0 : ℕ) (acc : α) (own : Own α) : Prop where
  phase : own.phase % 2 = 0
  tile : own.phase / 2 * D = k0
  acc : acc = partialDot A B M N K t.mat t.row t.col k0

variable [NeZero D]

omit [CommSemiring α] in
/-- The loop over `k0` ends after the last tile. -/
theorem last_tile {p : ℕ} (hle : K ≤ p * D) (hlt : p * D < K + D) : p = (K + D - 1) / D := by
  have hD := Nat.pos_of_neZero D
  refine Nat.le_antisymm ?_ (Nat.lt_succ_iff.mp ?_)
  · rw [Nat.le_div_iff_mul_le hD]
    omega
  · rw [Nat.div_lt_iff_lt_mul hD, Nat.succ_mul]
    omega

theorem tile_thread (hcov : Covers grid M N batch D) (hk : k0 < K) {acc : α} (h : AtTile A B M N K t k0 acc own) :
    (tile D D D M N K t k0 acc).wp (threadWorld A B M N K batch ((K + D - 1) / D) t)
      (fun acc _ => AtTile A B M N K t (k0 + D) acc) X ⟨⟩ own := by
  have hD : 0 < D := Nat.pos_of_neZero D
  have hp : own.phase / 2 < (K + D - 1) / D := by
    rw [Nat.lt_div_iff_mul_lt hD, h.tile]
    omega
  obtain rfl := h.acc
  unfold tile
  refine Host.wp_seq (fill_As_thread hcov h.phase) ?_ fun _ _ _ h => h
  rintro _ _ _ rfl
  refine Host.wp_seq (fill_Bs_thread hcov h.phase) ?_ fun _ _ _ h => h
  rintro _ _ _ rfl
  rw [Host.wp_bind]
  refine (Host.wp_call _).mpr ⟨⟨?_, fun _ => ⟨?_, ?_⟩⟩, ?_⟩
  · have := h.phase
    dsimp only
    omega
  · rw [h.tile]
  · rw [h.tile]
  rintro _ _ rfl
  have hodd : (own.phase + 1) % 2 = 1 ∧ (own.phase + 1) / 2 = own.phase / 2 := by
    have := h.phase
    omega
  refine Host.wp_seq (multiply_thread hodd.1 (by dsimp only; rw [hodd.2, h.tile])) ?_ fun _ _ _ h => h
  rintro acc _ _ ⟨rfl, rfl⟩
  rw [Host.wp_bind]
  refine (Host.wp_call _).mpr ⟨⟨?_, fun heven => ?_⟩, ?_⟩
  · have := h.phase
    dsimp only
    omega
  · exact absurd (hodd.1.symm.trans heven) (by decide)
  rintro _ _ rfl
  have heven : (own.phase + 1 + 1) % 2 = 0 ∧ (own.phase + 1 + 1) / 2 = own.phase / 2 + 1 := by
    have := h.phase
    omega
  refine ⟨heven.1, ?_, rfl⟩
  dsimp only
  rw [heven.2, Nat.add_mul, h.tile, Nat.one_mul]

/-- The tiled kernel, with square tiles. -/
theorem tiled_thread (hcov : Covers grid M N batch D) (hphase : own.phase = 0) :
    (gemm_tiled_batched_kernel D D D M N K t : KernelM α PUnit).wp (threadWorld A B M N K batch ((K + D - 1) / D) t)
      (fun _ _ => Own.Done M N ((K + D - 1) / D) t) X ⟨⟩ own := by
  have hD : 0 < D := Nat.pos_of_neZero D
  unfold gemm_tiled_batched_kernel
  refine Host.wp_seq (Host.wp_forLoop (I := fun k0 acc _ => AtTile A B M N K t k0 acc)
    (fun k0 hk acc _ _ h => tile_thread hcov hk h) (Nat.lt_add_left K hD) ⟨?_, ?_, rfl⟩) ?_ fun _ _ _ h => h
  · rw [hphase]
  · rw [hphase, Nat.zero_div, Nat.zero_mul]
  rintro acc _ own ⟨k0, hle, hlt, h⟩
  have hlast : own.phase = 2 * ((K + D - 1) / D) := by
    have hp := last_tile (h.tile ▸ hle) (h.tile ▸ hlt)
    have := h.phase
    omega
  dsimp only
  split_ifs with ht
  · refine (Host.wp_call _).mpr ⟨⟨ht, rfl, h.acc.trans (partialDot_eq_dot ht.1 ht.2 hle)⟩, ?_⟩
    rintro _ _ rfl
    exact ⟨hlast, fun _ => rfl⟩
  · exact ⟨hlast, fun hin => absurd hin ht⟩

end

/-! ### The threads together -/

/-- What the threads know is so: of the tiles, and of `C`, which had contents `C` at first. -/
structure Link (A B C : ℕ → α) (M N K : ℕ) (g : Thread grid ⟨D, D, 1⟩ → Own α) (mem : Mem grid ⟨D, D, 1⟩ α) : Prop where
  phase : ∀ t t', t'.blockIdx = t.blockIdx → (g t').phase = (g t).phase
  a : ∀ t, mem.As (t.blockIdx, t.threadIdx.y, t.threadIdx.x) = (g t).a
  b : ∀ t, mem.Bs (t.blockIdx, t.threadIdx.y, t.threadIdx.x) = (g t).b
  filled : ∀ t, (g t).phase % 2 = 1 → (g t).Filled A B M N K t
  active : ∀ t, (g t).wrote = true → t.Active M N
  product : ∀ t, (g t).wrote = true → mem.C (t.own M N) = dot A B M N K t.mat t.row t.col
  others : ∀ i, (∀ t, (g t).wrote = true → t.own M N ≠ i) → mem.C i = C i
  writes : ∀ t i, (t, i) ∈ mem.writes ↔ (g t).wrote = true ∧ t.own M N = i

namespace Link

variable {g g' : Thread grid ⟨D, D, 1⟩ → Own α} {mem : Mem grid ⟨D, D, 1⟩ α} {v : α}

theorem place_ne (hne : t' ≠ t) :
    (t'.blockIdx, (t'.threadIdx.y : ℕ), (t'.threadIdx.x : ℕ)) ≠
      (t.blockIdx, (t.threadIdx.y : ℕ), (t.threadIdx.x : ℕ)) := by
  intro he
  obtain ⟨hb, hyx⟩ := Prod.mk.inj he
  obtain ⟨hy, hx⟩ := Prod.mk.inj hyx
  exact hne (Thread.eq_of_place hb hy hx)

/-- A thread fills its places, between an even barrier and an odd one. -/
theorem refill (h : Link A B C M N K g mem) (hphase : (g t).phase % 2 = 0) {own : Own α} {mem' : Mem grid ⟨D, D, 1⟩ α}
    (hsame : own.phase = (g t).phase ∧ own.wrote = (g t).wrote) (hmem : mem'.C = mem.C ∧ mem'.writes = mem.writes)
    (ha : ∀ t', mem'.As (t'.blockIdx, t'.threadIdx.y, t'.threadIdx.x) = (Function.update g t own t').a)
    (hb : ∀ t', mem'.Bs (t'.blockIdx, t'.threadIdx.y, t'.threadIdx.x) = (Function.update g t own t').b) :
    Link A B C M N K (Function.update g t own) mem' := by
  have hkeep : ∀ t', (Function.update g t own t').phase = (g t').phase ∧
    (Function.update g t own t').wrote = (g t').wrote := by
    intro t'
    rcases eq_or_ne t' t with rfl | hne
    · rwa [Function.update_self]
    · rw [Function.update_of_ne hne]
      exact ⟨rfl, rfl⟩
  refine ⟨fun t₁ t₂ hb => ?_, ha, hb, fun t' hodd => ?_, fun t' => ?_, fun t' => ?_, fun i hi => ?_, fun t' i => ?_⟩
  · rw [(hkeep t₁).1, (hkeep t₂).1]
    exact h.phase t₁ t₂ hb
  · rcases eq_or_ne t' t with rfl | hne
    · rw [(hkeep t').1, hphase] at hodd
      cases hodd
    · rw [Function.update_of_ne hne] at hodd ⊢
      exact h.filled t' hodd
  · rw [(hkeep t').2]
    exact h.active t'
  · rw [(hkeep t').2, hmem.1]
    exact h.product t'
  · rw [hmem.1]
    exact h.others i fun t' ht' => hi t' ((hkeep t').2.trans ht')
  · rw [(hkeep t').2, hmem.2]
    exact h.writes t' i

theorem writeAs (h : Link A B C M N K g mem) (hphase : (g t).phase % 2 = 0) :
    Link A B C M N K (Function.update g t { g t with a := v })
      { mem with As := Function.update mem.As (t.blockIdx, t.threadIdx.y, t.threadIdx.x) v } := by
  refine h.refill hphase ⟨rfl, rfl⟩ ⟨rfl, rfl⟩ (fun t' => ?_) fun t' => ?_
  · rcases eq_or_ne t' t with rfl | hne
    · rw [Function.update_self]
      exact Function.update_self _ _ _
    · rw [Function.update_of_ne hne]
      exact (Function.update_of_ne (place_ne hne) _ _).trans (h.a t')
  · rcases eq_or_ne t' t with rfl | hne
    · rw [Function.update_self]
      exact h.b t'
    · rw [Function.update_of_ne hne]
      exact h.b t'

theorem writeBs (h : Link A B C M N K g mem) (hphase : (g t).phase % 2 = 0) :
    Link A B C M N K (Function.update g t { g t with b := v })
      { mem with Bs := Function.update mem.Bs (t.blockIdx, t.threadIdx.y, t.threadIdx.x) v } := by
  refine h.refill hphase ⟨rfl, rfl⟩ ⟨rfl, rfl⟩ (fun t' => ?_) fun t' => ?_
  · rcases eq_or_ne t' t with rfl | hne
    · rw [Function.update_self]
      exact h.a t'
    · rw [Function.update_of_ne hne]
      exact h.a t'
  · rcases eq_or_ne t' t with rfl | hne
    · rw [Function.update_self]
      exact Function.update_self _ _ _
    · rw [Function.update_of_ne hne]
      exact (Function.update_of_ne (place_ne hne) _ _).trans (h.b t')

/-- A thread writes its element of `C`, where no other thread writes. -/
theorem writeC (h : Link A B C M N K g mem) (ht : t.Active M N) :
    Link A B C M N K (Function.update g t { g t with wrote := true })
      { mem with
        C := Function.update mem.C (t.own M N) (dot A B M N K t.mat t.row t.col)
        writes := (t, t.own M N) :: mem.writes } := by
  have hkeep : ∀ t', (Function.update g t { g t with wrote := true } t').phase = (g t').phase ∧
      (Function.update g t { g t with wrote := true } t').a = (g t').a ∧
      (Function.update g t { g t with wrote := true } t').b = (g t').b := by
    intro t'
    rcases eq_or_ne t' t with rfl | hne
    · rw [Function.update_self]
      exact ⟨rfl, rfl, rfl⟩
    · rw [Function.update_of_ne hne]
      exact ⟨rfl, rfl, rfl⟩
  have hwrote : ∀ t', (Function.update g t { g t with wrote := true } t').wrote = true ↔
    t' = t ∨ (g t').wrote = true := by
    intro t'
    rcases eq_or_ne t' t with rfl | hne
    · simp
    · simp [hne]
  refine ⟨fun t₁ t₂ hb => ?_, fun t' => ?_, fun t' => ?_, fun t' hodd => ?_, fun t' ht' => ?_, fun t' ht' => ?_,
    fun i hi => ?_,
    fun t' i => ?_⟩
  · rw [(hkeep t₁).1, (hkeep t₂).1]
    exact h.phase t₁ t₂ hb
  · rw [(hkeep t').2.1]
    exact h.a t'
  · rw [(hkeep t').2.2]
    exact h.b t'
  · rw [(hkeep t').1] at hodd
    obtain ⟨ha, hb⟩ := h.filled t' hodd
    constructor
    · rw [(hkeep t').1, (hkeep t').2.1]
      exact ha
    · rw [(hkeep t').1, (hkeep t').2.2]
      exact hb
  · rcases (hwrote t').mp ht' with rfl | ht'
    · exact ht
    · exact h.active t' ht'
  · dsimp only
    rcases (hwrote t').mp ht' with rfl | ht'
    · exact Function.update_self _ _ _
    · rcases eq_or_ne t' t with rfl | hne
      · exact Function.update_self _ _ _
      · rw [Function.update_of_ne fun he => hne (Thread.own_inj ht (h.active t' ht') he)]
        exact h.product t' ht'
  · dsimp only
    rw [Function.update_of_ne (hi t ((hwrote t).mpr (.inl rfl))).symm]
    exact h.others i fun t' ht' => hi t' ((hwrote t').mpr (.inr ht'))
  · rw [List.mem_cons, Prod.mk.injEq, hwrote, h.writes]
    constructor
    · rintro (⟨rfl, rfl⟩ | ⟨ht', rfl⟩)
      · exact ⟨.inl rfl, rfl⟩
      · exact ⟨.inr ht', rfl⟩
    · rintro ⟨rfl | ht', rfl⟩
      · exact .inl ⟨rfl, rfl⟩
      · exact .inr ⟨ht', rfl⟩

/-- The threads of a block pass a barrier. -/
theorem pass (h : Link A B C M N K g mem) {t₀ : Thread grid ⟨D, D, 1⟩}
    (hin : ∀ t, t.blockIdx = t₀.blockIdx → g' t = { g t with phase := (g t).phase + 1 })
    (hout : ∀ t, t.blockIdx ≠ t₀.blockIdx → g' t = g t)
    (hfilled : ∀ t, t.blockIdx = t₀.blockIdx → (g t).phase % 2 = 0 → (g t).Filled A B M N K t) :
    Link A B C M N K g' mem := by
  have hkeep : ∀ t, (g' t).a = (g t).a ∧ (g' t).b = (g t).b ∧ (g' t).wrote = (g t).wrote := by
    intro t
    by_cases hb : t.blockIdx = t₀.blockIdx
    · rw [hin t hb]
      exact ⟨rfl, rfl, rfl⟩
    · rw [hout t hb]
      exact ⟨rfl, rfl, rfl⟩
  refine ⟨fun t t' hb => ?_, fun t => ?_, fun t => ?_, fun t hodd => ?_, fun t => ?_, fun t => ?_, fun i hi => ?_,
    fun t i => ?_⟩
  · by_cases hb₀ : t.blockIdx = t₀.blockIdx
    · rw [hin t hb₀, hin t' (hb.trans hb₀)]
      exact congrArg (· + 1) (h.phase t t' hb)
    · rw [hout t hb₀, hout t' (hb ▸ hb₀)]
      exact h.phase t t' hb
  · rw [(hkeep t).1]
    exact h.a t
  · rw [(hkeep t).2.1]
    exact h.b t
  · by_cases hb : t.blockIdx = t₀.blockIdx
    · rw [hin t hb] at hodd ⊢
      have heven : (g t).phase % 2 = 0 ∧ ((g t).phase + 1) / 2 = (g t).phase / 2 := by
        dsimp only at hodd
        omega
      obtain ⟨ha, hb⟩ := hfilled t hb heven.1
      constructor
      · dsimp only
        rw [heven.2, ha]
      · dsimp only
        rw [heven.2, hb]
    · rw [hout t hb] at hodd ⊢
      exact h.filled t hodd
  · rw [(hkeep t).2.2]
    exact h.active t
  · rw [(hkeep t).2.2]
    exact h.product t
  · exact h.others i fun t ht => hi t ((hkeep t).2.2.trans ht)
  · rw [(hkeep t).2.2]
    exact h.writes t i

end Link

/-- **One thread at a time is enough.** -/
theorem kernels_modular : ThreadModular (Thread.blockIdx : Thread grid ⟨D, D, 1⟩ → Idx grid) (Access.Does A B)
    (threadWorld A B M N K batch P) (Link A B C M N K) where
  call := by
    intro g mem mem' t c r hl hpre hdoes
    cases c with
    | readA i | readB i =>
      obtain ⟨rfl, rfl⟩ := hdoes
      exact ⟨g t, ⟨rfl, rfl⟩, by rwa [Function.update_eq_self]⟩
    | writeC i v =>
      obtain ⟨ht, rfl, rfl⟩ := hpre
      obtain rfl := hdoes
      exact ⟨_, rfl, hl.writeC ht⟩
    | writeAs y x v =>
      obtain ⟨rfl, rfl, hphase⟩ := hpre
      obtain rfl := hdoes
      exact ⟨_, rfl, hl.writeAs hphase⟩
    | writeBs y x v =>
      obtain ⟨rfl, rfl, hphase⟩ := hpre
      obtain rfl := hdoes
      exact ⟨_, rfl, hl.writeBs hphase⟩
    | readAs y x =>
      obtain ⟨rfl, hx, hodd⟩ := hpre
      obtain ⟨rfl, rfl⟩ := hdoes
      -- the thread that has filled the place
      let t' : Thread grid ⟨D, D, 1⟩ := ⟨t.blockIdx, ⟨⟨x, hx⟩, t.threadIdx.y, t.threadIdx.z⟩⟩
      have hphase := hl.phase t t' rfl
      refine ⟨g t, ⟨?_, rfl⟩, by rwa [Function.update_eq_self]⟩
      rw [← hphase]
      exact (hl.a t').trans (hl.filled t' (hphase ▸ hodd)).a
    | readBs y x =>
      obtain ⟨hy, rfl, hodd⟩ := hpre
      obtain ⟨rfl, rfl⟩ := hdoes
      let t' : Thread grid ⟨D, D, 1⟩ := ⟨t.blockIdx, ⟨t.threadIdx.x, ⟨y, hy⟩, t.threadIdx.z⟩⟩
      have hphase := hl.phase t t' rfl
      refine ⟨g t, ⟨?_, rfl⟩, by rwa [Function.update_eq_self]⟩
      rw [← hphase]
      exact (hl.b t').trans (hl.filled t' (hphase ▸ hodd)).b
  barrier := by
    intro g mem t₀ hl hpre
    refine ⟨fun t => if t.blockIdx = t₀.blockIdx then { g t with phase := (g t).phase + 1 } else g t, fun t hb => ?_,
      fun t hb => if_neg hb, ?_⟩
    · exact if_pos hb
    · exact hl.pass (fun t hb => if_pos hb) (fun t hb => if_neg hb) fun t hb => (hpre t hb).2

omit [CommSemiring α] in
theorem Access.exists_does {block : Dim3} (t : Thread grid block) (mem : Mem grid block α) (c : Access α) :
    ∃ r mem', Access.Does A B t mem c r mem' := by
  cases c <;> first | exact ⟨_, _, rfl, rfl⟩ | exact ⟨⟨⟩, _, rfl⟩

theorem inBounds_of_pre (hcov : Covers grid M N batch D) {c : Access α} {own : Own α}
    (h : Own.Pre A B M N K batch P t (some c) own) : InBounds M N K batch D c := by
  cases c with
  | readA i | readB i => exact h
  | writeC i v =>
    obtain ⟨ht, rfl, -⟩ := h
    exact offset_lt (hcov.mat_lt t) ht.1 ht.2
  | readAs y x =>
    obtain ⟨rfl, hx, -⟩ := h
    exact ⟨t.threadIdx.y.isLt, hx⟩
  | readBs y x =>
    obtain ⟨hy, rfl, -⟩ := h
    exact ⟨hy, t.threadIdx.x.isLt⟩
  | writeAs y x v | writeBs y x v =>
    obtain ⟨rfl, rfl, -⟩ := h
    exact ⟨t.threadIdx.y.isLt, t.threadIdx.x.isLt⟩

/-- **A kernel whose threads are right computes the products.** -/
theorem launch_computes (hcov : Covers grid M N batch D) {kernel : Thread grid ⟨D, D, 1⟩ → KernelM α PUnit}
    (hk : ∀ t own, own.phase = 0 → (kernel t).wp (threadWorld A B M N K batch P t) (fun _ _ => Own.Done M N P t)
      (fun _ _ => Own.Done M N P t) ⟨⟩ own) : Computes (launch kernel A B C) A B C M N K batch D := by
  have hproved : ∀ s, Reachable (launch kernel A B C) Always s → ThreadModular.Proved (threadWorld A B M N K batch P)
      (Link A B C M N K) (fun t _ => Own.Done M N P t) s := by
    refine fun s hs => kernels_modular.proved (fun mem hmem => ?_) hs
    refine ⟨fun t => ⟨0, mem.As (t.blockIdx, t.threadIdx.y, t.threadIdx.x),
      mem.Bs (t.blockIdx, t.threadIdx.y, t.threadIdx.x), false⟩,
      ⟨fun _ _ _ => rfl, fun _ => rfl, fun _ => rfl, fun _ hodd => absurd hodd Nat.zero_ne_one,
        fun _ ht => absurd ht Bool.false_ne_true,
        fun _ ht => absurd ht Bool.false_ne_true, fun i _ => congrFun hmem.1 i, fun t i => ?_⟩, fun t => ?_⟩
    · rw [hmem.2]
      exact ⟨fun h => absurd h List.not_mem_nil, fun h => absurd h.1 Bool.false_ne_true⟩
    · refine Prog.wp_mono (fun r own h => ?_) (hk t _ rfl)
      rcases r with ⟨_ | _, _⟩ <;> exact h
  have hdone : ∀ s, Reachable (launch kernel A B C) Always s → s.Finished → ∃ g : Thread grid ⟨D, D, 1⟩ → Own α,
      Link A B C M N K g s.mem ∧ ∀ t, t.Active M N → (g t).wrote = true := by
    intro s hs hf
    obtain ⟨g, hg, hw⟩ := hproved s hs
    refine ⟨g, hg, fun t => ?_⟩
    obtain ⟨a, ha⟩ := hf t
    have hwt := hw t
    rw [ha] at hwt
    exact hwt.wrote
  constructor
  · intro s hs t c k hc
    obtain ⟨g, -, hw⟩ := hproved s hs
    have hwt := hw t
    rw [hc] at hwt
    exact inBounds_of_pre hcov hwt.1
  · intro s hs
    refine Threads.exists_finished (fun s hs hf => (hproved s hs).exists_step Access.exists_does ?_ hf) hs
    intro g mem t t' a hg hb hpre hdone
    have hphase := hg.phase t t' hb
    have h₁ := hdone.phase
    have h₂ := hpre.1
    omega
  · intro s hs hf b row col hb hr hc
    obtain ⟨g, hg, hw⟩ := hdone s hs hf
    obtain ⟨t, rfl, rfl, rfl⟩ := hcov.exists_thread hb hr hc
    exact hg.product t (hw t ⟨hr, hc⟩)
  · intro s hs i hi
    obtain ⟨g, hg, -⟩ := hproved s hs
    refine hg.others i fun t ht he => Nat.not_lt.mpr hi ?_
    obtain ⟨hr, hc⟩ := hg.active t ht
    exact he ▸ offset_lt (hcov.mat_lt t) hr hc
  · intro s hs hf i hi
    obtain ⟨g, hg, hw⟩ := hdone s hs hf
    obtain ⟨b, row, col, hb, hr, hc, rfl⟩ := exists_offset hi
    obtain ⟨t, rfl, rfl, rfl⟩ := hcov.exists_thread hb hr hc
    refine ⟨t, (hg.writes t _).mpr ⟨hw t ⟨hr, hc⟩, rfl⟩, fun t' ht' => ?_⟩
    obtain ⟨hwrote, he⟩ := (hg.writes t' _).mp ht'
    exact Thread.own_inj ⟨hr, hc⟩ (hg.active t' hwrote) he

/-! ### Barriers -/

/-- The world in which barriers are counted, and every access may get any answer. -/
abbrev counting : World (Option (Access α)) (WithBarrier Access.Ret) ℕ :=
  World.ofFun (fun _ _ => True) fun n c _ => n + if c.isNone then 1 else 0

section

variable {X : PEmpty.{u + 1} → PUnit.{u + 1} → ℕ → Prop} {n : ℕ} {block : Dim3} {t : Thread grid block}

omit [CommSemiring α] in
theorem access_counting (c : Access α) : (access c).wp counting (fun _ _ n' => n' = n) X ⟨⟩ n :=
  (Host.wp_call _).mpr ⟨trivial, fun _ _ h => h⟩

variable {BLOCK_M BLOCK_N BLOCK_K : ℕ}

theorem fill_As_counting (k0 : ℕ) :
    (fill_As BLOCK_M M K t k0 : KernelM α PUnit).wp counting (fun _ _ n' => n' = n) X ⟨⟩ n := by
  unfold fill_As
  dsimp only
  split_ifs
  · refine Host.wp_seq (access_counting _) ?_ fun _ _ _ h => h
    rintro a _ _ rfl
    exact access_counting _
  · exact access_counting _

theorem fill_Bs_counting (k0 : ℕ) :
    (fill_Bs BLOCK_N N K t k0 : KernelM α PUnit).wp counting (fun _ _ n' => n' = n) X ⟨⟩ n := by
  unfold fill_Bs
  dsimp only
  split_ifs
  · refine Host.wp_seq (access_counting _) ?_ fun _ _ _ h => h
    rintro b _ _ rfl
    exact access_counting _
  · exact access_counting _

theorem multiply_counting (acc : α) : (multiply BLOCK_K t acc).wp counting (fun _ _ n' => n' = n) X ⟨⟩ n := by
  unfold multiply
  refine Host.wp_mono (Host.wp_forLoop (I := fun _ _ _ n' => n' = n) (fun kk _ acc _ _ hn => ?_)
    (Nat.succ_pos _) rfl) ?_
    fun _ _ _ h => h
  · refine Host.wp_seq (access_counting _) ?_ fun _ _ _ h => h
    rintro a _ _ rfl
    refine Host.wp_seq (access_counting _) ?_ fun _ _ _ h => h
    rintro b _ _ rfl
    exact hn
  · rintro acc _ _ ⟨_, -, -, h⟩
    exact h

theorem tile_counting (k0 : ℕ) (acc : α) : (tile BLOCK_M BLOCK_N BLOCK_K M N K t k0 acc).wp counting
    (fun _ _ n' => n' = n + 2) X ⟨⟩ n := by
  unfold tile
  refine Host.wp_seq (fill_As_counting k0) ?_ fun _ _ _ h => h
  rintro _ _ _ rfl
  refine Host.wp_seq (fill_Bs_counting k0) ?_ fun _ _ _ h => h
  rintro _ _ _ rfl
  rw [Host.wp_bind]
  refine (Host.wp_call _).mpr ⟨trivial, ?_⟩
  rintro _ _ rfl
  refine Host.wp_seq (multiply_counting acc) ?_ fun _ _ _ h => h
  rintro acc _ _ rfl
  rw [Host.wp_bind]
  refine (Host.wp_call _).mpr ⟨trivial, ?_⟩
  rintro _ _ rfl
  rfl

/-- **A thread comes to two barriers for each tile**, whatever it reads. -/
theorem tiled_counting [NeZero BLOCK_K] :
    (gemm_tiled_batched_kernel BLOCK_M BLOCK_N BLOCK_K M N K t : KernelM α PUnit).wp counting
    (fun _ _ n' => n' = 2 * ((K + BLOCK_K - 1) / BLOCK_K)) X ⟨⟩ 0 := by
  unfold gemm_tiled_batched_kernel
  refine Host.wp_seq (Host.wp_forLoop (I := fun k0 _ _ n => ∃ p, k0 = p * BLOCK_K ∧ n = 2 * p) ?_
    (Nat.lt_add_left K (Nat.pos_of_neZero BLOCK_K)) ⟨0, (Nat.zero_mul _).symm, rfl⟩) ?_ fun _ _ _ h => h
  · rintro k0 - acc _ _ ⟨p, rfl, rfl⟩
    refine Host.wp_mono (tile_counting _ acc) ?_ fun _ _ _ h => h
    rintro acc _ _ rfl
    exact ⟨p + 1, (Nat.succ_mul p BLOCK_K).symm, rfl⟩
  · rintro acc _ _ ⟨_, hle, hlt, p, rfl, rfl⟩
    rw [last_tile hle hlt]
    split_ifs
    · exact access_counting _
    · rfl

end

omit [CommSemiring α] in
theorem applyAll_counting (calls : List ((c : Option (Access α)) × WithBarrier Access.Ret c)) (n : ℕ) :
    applyAll (fun n c _ => n + if c.isNone then 1 else 0) n calls = n + calls.countP fun e => e.1.isNone := by
  induction calls generalizing n with
  | nil => rfl
  | cons e calls ih =>
    refine (ih _).trans ?_
    dsimp only
    rw [List.countP_cons]
    omega

/-! ### The launches -/

theorem naive_computes : Computes (gemm_naive_batched A B C M N K batch) A B C M N K batch 16 := by
  have hcov : Covers ⟨(N + 15) / 16, (M + 15) / 16, batch⟩ M N batch 16 :=
    ⟨by dsimp only; omega, by dsimp only; omega, rfl⟩
  exact launch_computes hcov fun t own h => naive_thread hcov h

theorem tiled_computes : Computes (gemm_tiled_batched A B C M N K batch) A B C M N K batch 32 := by
  have hcov : Covers ⟨(N + 32 - 1) / 32, (M + 32 - 1) / 32, batch⟩ M N batch 32 :=
    ⟨by dsimp only; omega, by dsimp only; omega, rfl⟩
  exact launch_computes hcov fun t own h => tiled_thread hcov h

/-- **The tiled launch and the naive one agree**, and the threads of a tiled block come to
equally many barriers. -/
theorem tiled_agrees_with_naive (A B C : ℕ → α) (M N K batch : ℕ) :
    Computes (gemm_tiled_batched A B C M N K batch) A B C M N K batch 32 ∧
      Computes (gemm_naive_batched A B C M N K batch) A B C M N K batch 16 ∧
      (∀ s s', Reachable (gemm_tiled_batched A B C M N K batch) Always s → s.Finished →
        Reachable (gemm_naive_batched A B C M N K batch) Always s' → s'.Finished → s.mem.C = s'.mem.C) ∧
      ∀ (t : Thread ⟨(N + 32 - 1) / 32, (M + 32 - 1) / 32, batch⟩ ⟨32, 32, 1⟩)
        (answers : ℕ → (c : Option (Access α)) → WithBarrier Access.Ret c),
        (((gemm_tiled_batched_kernel 32 32 32 M N K t : KernelM α PUnit) ⟨⟩).run answers 0).1.countP
          (fun e => e.1.isNone) =
          2 * ((K + 32 - 1) / 32) := by
  refine ⟨tiled_computes, naive_computes, fun s s' hs hf hs' hf' => ?_, fun t answers => ?_⟩
  · funext i
    rcases Nat.lt_or_ge i (batch * (M * N)) with hi | hi
    · obtain ⟨b, row, col, hb, hr, hc, rfl⟩ := exists_offset hi
      rw [tiled_computes.product s hs hf b row col hb hr hc, naive_computes.product s' hs' hf' b row col hb hr hc]
    · rw [tiled_computes.others s hs i hi, naive_computes.others s' hs' i hi]
  · have hwp := Prog.wp_run answers 0 (show (gemm_tiled_batched_kernel 32 32 32 M N K t : KernelM α PUnit).wp counting _
      (fun _ _ n => n = 2 * ((K + 32 - 1) / 32)) ⟨⟩ 0 from tiled_counting)
    rw [applyAll_counting, Nat.zero_add] at hwp
    generalize hrun :
      Prog.run answers 0 ((gemm_tiled_batched_kernel 32 32 32 M N K t : KernelM α PUnit) ⟨⟩) = run at hwp ⊢
    rcases run with ⟨calls, _ | _, _⟩
    · exact hwp
    · exact hwp

end Gbis.Kernels
