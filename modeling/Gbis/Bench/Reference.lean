import Gbis.Kernels.Tiling
import Gbis.Library.Rounding

/-!
# The reference on the host

`gemm_cpu_reference` of `src/bench/bench_gemm.cpp`, with which the benchmark compares what the
kernels compute: it accumulates in `double`, with a rounding after each operation, and rounds the
result to `float`. Matrices are what their pointers have at their offsets. The subscripts within a
matrix are computed in `int`s; they are exact where no matrix has more than `2^31` elements.

* `gemm_cpu_reference_entry` — the loops write each element once, and nothing else;
* `reference_error` — how far an element is from that of the product: hardly more than the error of
  its last rounding.
-/

namespace Gbis.Bench

open Kernels Library

variable {A B C : ℕ → ℚ} {M N K batch b m n : ℕ}

/-- A subscript `i * E + j` of `int`s. An overflow, which C++ leaves undefined, wraps. -/
def subscript (i E j : ℕ) : ℕ := (Int32.ofNat i * Int32.ofNat E + Int32.ofNat j).toInt.toNat

/-- The loop over `k`. -/
def accumulate (A B : ℕ → ℚ) (M N K b m n : ℕ) : ℚ :=
  (List.range K).foldl (fun acc k => binary64.round
    (acc + binary64.round (A (b * M * K + subscript m K k) * B (b * K * N + subscript k N n)))) 0

/-- `gemm_cpu_reference`: what becomes of `C`. -/
def gemm_cpu_reference (A B C : ℕ → ℚ) (M N K batch : ℕ) : ℕ → ℚ :=
  (List.range batch).foldl (fun C b => (List.range M).foldl (fun C m => (List.range N).foldl (fun C n =>
    Function.update C (b * M * N + subscript m N n) (binary32.round (accumulate A B M N K b m n))) C) C) C

/-- The subscripts within a matrix of `rows` by `cols` elements are `int`s. -/
abbrev Subscripts (rows cols : ℕ) : Prop := rows * cols ≤ 2 ^ 31

/-- Then they are exact. -/
theorem offset_eq {rows cols i j : ℕ} (h : Subscripts rows cols) (hi : i < rows) (hj : j < cols) :
    b * rows * cols + subscript i cols j = offset rows cols b i j := by
  have hlt : i * cols + j < 2 ^ 31 := by
    have hmul : (i + 1) * cols ≤ rows * cols := Nat.mul_le_mul_right cols hi
    rw [Nat.add_mul, Nat.one_mul] at hmul
    unfold Subscripts at h
    omega
  rw [subscript, ← Int32.ofNat_mul, ← Int32.ofNat_add, Int32.toInt_ofNat_of_lt hlt, Int.toNat_natCast, offset,
    Nat.mul_assoc]

/-! ### The loops -/

/-- A loop of loops goes through all pairs. -/
theorem foldl_foldl {α β γ : Type} (f : γ → α → β → γ) (xs : List α) (ys : List β) (c : γ) :
    xs.foldl (fun c x => ys.foldl (fun c y => f c x y) c) c = (xs ×ˢ ys).foldl (fun c z => f c z.1 z.2) c := by
  induction xs generalizing c with
  | nil => rfl
  | cons x xs ih => rw [List.foldl_cons, ih, List.product_cons, List.foldl_append, List.foldl_map]

/-- A loop that writes to distinct places leaves there what it has written. -/
theorem foldl_update_of_mem {ι α : Type} (place : ι → ℕ) (value : ι → α) {is : List ι} (c : ℕ → α) {i : ι}
    (hinj : ∀ j ∈ is, place j = place i → value j = value i) (hi : i ∈ is) :
    is.foldl (fun c i => Function.update c (place i) (value i)) c (place i) = value i := by
  induction is using List.reverseRecOn with
  | nil => cases hi
  | append_singleton is j ih =>
    rw [List.foldl_append, List.foldl_cons, List.foldl_nil]
    rcases eq_or_ne (place i) (place j) with he | hne
    · rw [he, Function.update_self]
      exact hinj j (by simp) he.symm
    · rw [Function.update_of_ne hne]
      refine ih (fun j hj => hinj j (List.mem_append_left _ hj)) ?_
      rcases List.mem_append.mp hi with hi | hi
      · exact hi
      · rw [List.mem_singleton.mp hi] at hne
        exact absurd rfl hne

/-- **The loops write each element**, whatever was there. -/
theorem gemm_cpu_reference_entry (hMN : Subscripts M N) (hb : b < batch) (hm : m < M) (hn : n < N) :
    gemm_cpu_reference A B C M N K batch (offset M N b m n) = binary32.round (accumulate A B M N K b m n) := by
  let is := List.range batch ×ˢ (List.range M ×ˢ List.range N)
  let place : ℕ × ℕ × ℕ → ℕ := fun i => offset M N i.1 i.2.1 i.2.2
  let value : ℕ × ℕ × ℕ → ℚ := fun i => binary32.round (accumulate A B M N K i.1 i.2.1 i.2.2)
  have hmem : ∀ b m n, (b, m, n) ∈ is ↔ b < batch ∧ m < M ∧ n < N := by
    intro b m n
    simp only [is, List.mem_product, List.mem_range]
  have hloops : gemm_cpu_reference A B C M N K batch =
      is.foldl (fun C i => Function.update C (place i) (value i)) C := by
    unfold gemm_cpu_reference
    simp only [foldl_foldl]
    refine List.foldl_ext _ _ _ fun C i hi => ?_
    obtain ⟨-, hm, hn⟩ := (hmem i.1 i.2.1 i.2.2).mp hi
    rw [offset_eq hMN hm hn]
  rw [hloops]
  refine foldl_update_of_mem place value C ?_ ((hmem b m n).mpr ⟨hb, hm, hn⟩)
  rintro ⟨b', m', n'⟩ hi' he
  obtain ⟨-, hm', hn'⟩ := (hmem _ _ _).mp hi'
  obtain ⟨rfl, rfl, rfl⟩ := offset_inj hm' hn' hm hn he
  rfl

/-! ### Its error -/

theorem binary64_error (x : ℚ) : |binary64.round x - x| ≤ 1 / 2 ^ 53 * (|x| + 1) := by
  rw [abs_sub_comm]
  refine (Format.abs_sub_round_le x).trans (max_le ?_ ?_)
  · change |x| / 2 ^ 53 ≤ _
    linarith
  · change (2 : ℚ) ^ (-1074 : ℤ) / 2 ≤ _
    have hsmall : (2 : ℚ) ^ (-1074 : ℤ) ≤ 2 ^ (-53 : ℤ) := zpow_le_zpow_right₀ (by norm_num) (by norm_num)
    have hpow : (2 : ℚ) ^ (-53 : ℤ) = 1 / 2 ^ 53 := by norm_num
    have hx := abs_nonneg x
    rw [hpow] at hsmall
    generalize (2 : ℚ) ^ (-1074 : ℤ) = y at hsmall ⊢
    linarith

/-- The numbers that are added are small, and there are not too many of them. -/
theorem sum_error {t : ℕ → ℚ} (ht : ∀ k < K, |t k| ≤ 2) (hK : K ≤ 2 ^ 20) :
    |(List.range K).foldl (fun acc k => binary64.round (acc + t k)) 0 - ∑ k ∈ Finset.range K, t k| ≤
      2 * K * (1 / 2 ^ 53) * (2 * K + 1) := by
  let acc : ℕ → ℚ := fun j => (List.range j).foldl (fun acc k => binary64.round (acc + t k)) 0
  have hround : ∀ k < K, |acc (k + 1) - (acc k + t k)| ≤ 1 / 2 ^ 53 * (|acc k + t k| + 1) := by
    intro k _
    simp only [acc, List.range_succ, List.foldl_append, List.foldl_cons, List.foldl_nil]
    exact binary64_error _
  have hK' : (K : ℚ) ≤ 2 ^ 20 := by exact_mod_cast hK
  have hfactor : (1 + 1 / 2 ^ 53 : ℚ) ^ K - 1 ≤ 2 * K * (1 / 2 ^ 53) := by
    linarith [one_add_pow_le (u := 1 / 2 ^ 53) (n := K) (by norm_num) (by linarith)]
  have habs : ∑ k ∈ Finset.range K, |t k| ≤ 2 * K := by
    calc _ ≤ ∑ k ∈ Finset.range K, (2 : ℚ) := Finset.sum_le_sum fun k hk => ht k (Finset.mem_range.mp hk)
      _ = 2 * K := by rw [Finset.sum_const, Finset.card_range, nsmul_eq_mul, mul_comm]
  have hnonneg : 0 ≤ ∑ k ∈ Finset.range K, |t k| := Finset.sum_nonneg fun _ _ => abs_nonneg _
  apply (abs_sum_rounded_le (u := 1 / 2 ^ 53) (c := 1) (by norm_num) rfl hround).trans
  exact mul_le_mul hfactor (by linarith) (by linarith) (by positivity)

/-- **The sum that is accumulated** is nearly that of the products. -/
theorem accumulate_error (hMK : Subscripts M K) (hKN : Subscripts K N) (hm : m < M) (hn : n < N)
    (hA : ∀ k < K, |A (offset M K b m k)| ≤ 1) (hB : ∀ k < K, |B (offset K N b k n)| ≤ 1) (hK : K ≤ 2 ^ 20) :
    |accumulate A B M N K b m n - dot A B M N K b m n| ≤ K / 2 ^ 30 := by
  let x : ℕ → ℚ := fun k => A (offset M K b m k) * B (offset K N b k n)
  let t : ℕ → ℚ := fun k => binary64.round (x k)
  have hacc : accumulate A B M N K b m n = (List.range K).foldl (fun acc k => binary64.round (acc + t k)) 0 := by
    refine List.foldl_ext _ _ _ fun a k hk => ?_
    have hk := List.mem_range.mp hk
    rw [offset_eq hMK hm hk, offset_eq hKN hk hn]
  have hx : ∀ k < K, |x k| ≤ 1 := by
    intro k hk
    rw [abs_mul]
    exact mul_le_one₀ (hA k hk) (abs_nonneg _) (hB k hk)
  have ht : ∀ k < K, |t k - x k| ≤ 2 / 2 ^ 53 := by
    intro k hk
    linarith [binary64_error (x k), hx k hk]
  have htwo : ∀ k < K, |t k| ≤ 2 := by
    intro k hk
    linarith [abs_sub_abs_le_abs_sub (t k) (x k), ht k hk, hx k hk]
  -- the products are rounded, and then the sum after each addition
  have hterms : |∑ k ∈ Finset.range K, t k - ∑ k ∈ Finset.range K, x k| ≤ K * (2 / 2 ^ 53) := by
    rw [← Finset.sum_sub_distrib]
    refine (Finset.abs_sum_le_sum_abs _ _).trans ?_
    calc _ ≤ ∑ k ∈ Finset.range K, (2 / 2 ^ 53 : ℚ) := Finset.sum_le_sum fun k hk => ht k (Finset.mem_range.mp hk)
      _ = K * (2 / 2 ^ 53) := by rw [Finset.sum_const, Finset.card_range, nsmul_eq_mul]
  have hsum := sum_error htwo hK
  have hdot : dot A B M N K b m n = ∑ k ∈ Finset.range K, x k := rfl
  rw [hacc, hdot]
  have htri := abs_sub_le ((List.range K).foldl (fun acc k => binary64.round (acc + t k)) 0)
    (∑ k ∈ Finset.range K, t k) (∑ k ∈ Finset.range K, x k)
  have hK' : (K : ℚ) ≤ 2 ^ 20 := by exact_mod_cast hK
  have hsq : (K : ℚ) * K ≤ K * 2 ^ 20 := mul_le_mul_of_nonneg_left hK' (Nat.cast_nonneg K)
  linarith [Nat.cast_nonneg (α := ℚ) K]

/-- **An element of the reference** is nearly that of the product. -/
theorem reference_error (hMK : Subscripts M K) (hKN : Subscripts K N) (hMN : Subscripts M N)
    (hA : ∀ i < batch * (M * K), |A i| ≤ 1) (hB : ∀ i < batch * (K * N), |B i| ≤ 1) (hK : K ≤ 2 ^ 20) (hb : b < batch)
    (hm : m < M) (hn : n < N) :
    |gemm_cpu_reference A B C M N K batch (offset M N b m n) - dot A B M N K b m n| ≤ 51 / 50 * K / 2 ^ 24 := by
  have hacc := accumulate_error hMK hKN hm hn (fun k hk => hA _ (offset_lt hb hm hk))
    (fun k hk => hB _ (offset_lt hb hk hn)) hK
  have hdot : |dot A B M N K b m n| ≤ K := by
    refine (Finset.abs_sum_le_sum_abs _ _).trans ?_
    calc _ ≤ ∑ k ∈ Finset.range K, (1 : ℚ) := Finset.sum_le_sum fun k hk => by
          have hk := Finset.mem_range.mp hk
          rw [abs_mul]
          exact mul_le_one₀ (hA _ (offset_lt hb hm hk)) (abs_nonneg _) (hB _ (offset_lt hb hk hn))
      _ = K := by rw [Finset.sum_const, Finset.card_range, nsmul_eq_mul, mul_one]
  rw [gemm_cpu_reference_entry hMN hb hm hn]
  obtain ⟨acc, haccumulated⟩ : ∃ acc, acc = accumulate A B M N K b m n := ⟨_, rfl⟩
  rw [← haccumulated] at hacc ⊢
  have hmag : |acc| ≤ K + K / 2 ^ 30 := by linarith [abs_sub_abs_le_abs_sub acc (dot A B M N K b m n)]
  rcases Nat.eq_zero_or_pos K with rfl | hpos
  · have hzero : acc = 0 := by simpa [accumulate] using haccumulated
    simp [hzero, Format.round_zero, dot]
  · have hone : (1 : ℚ) ≤ K := by exact_mod_cast hpos
    have hround : |acc - binary32.round acc| ≤ (K + K / 2 ^ 30) / 2 ^ 24 := by
      refine (Format.abs_sub_round_le acc).trans (max_le ?_ ?_)
      · exact div_le_div_of_nonneg_right hmag (by norm_num)
      · change (2 : ℚ) ^ (-149 : ℤ) / 2 ≤ _
        have hsmall : (2 : ℚ) ^ (-149 : ℤ) = 1 / 2 ^ 149 := by norm_num
        rw [hsmall]
        linarith
    have htri := abs_sub_le (binary32.round acc) acc (dot A B M N K b m n)
    rw [abs_sub_comm] at hround
    linarith

end Gbis.Bench
