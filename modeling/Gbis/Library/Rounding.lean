import Mathlib.Algebra.Order.BigOperators.Group.Finset
import Mathlib.Algebra.Order.Field.Rat
import Mathlib.Algebra.Order.Round
import Mathlib.Data.Int.Log
import Mathlib.Data.Rat.Floor
import Mathlib.Tactic.Linarith

/-!
# Rounding to the nearest

Arithmetic that is done exactly and then rounded to a number of some format: a format is a set
of numbers, and a number is rounded to one of the set that is nearest (`IsNearest`). Whatever is
done about ties, rounding does not cross a number of the format, so a bound that is one of them
survives it (`IsNearest.le_of_le`, `IsNearest.ge_of_ge`); that is all that is needed where the
exact result is not too close to what it is compared with.

`Format.round` rounds rational numbers to the numbers of a precision and a least exponent, ties to
even; `binary64` and `binary32` are two such formats. Overflow is left out: there is no largest
number.

* `Format.round_isNearest` — it is a rounding to the nearest;
* `Format.round_of_mem`, `Format.round_mono` — what is in the format is kept, and so is the order;
* `Format.abs_sub_round_le` — the error is relative, but for numbers that are very small;
* `abs_sum_rounded_le` — the error of a sum that is rounded after each addition.
-/

namespace Gbis.Library

universe u

section

variable {R : Type u} [Field R] [LinearOrder R] [IsStrictOrderedRing R] {F : Set R} {x x' y y' z : R}

/-- `y` is a number of the format, and no other is nearer to `x`. -/
def IsNearest (F : Set R) (x y : R) : Prop := y ∈ F ∧ ∀ z ∈ F, |x - y| ≤ |x - z|

/-- Rounding does not cross a number of the format from below, … -/
theorem IsNearest.le_of_le (h : IsNearest F x y) (hz : z ∈ F) (hx : x ≤ z) : y ≤ z := by
  by_contra hlt
  have hnear := h.2 z hz
  rw [abs_of_nonpos (by linarith), abs_of_nonpos (by linarith)] at hnear
  linarith

/-- … nor from above. -/
theorem IsNearest.ge_of_ge (h : IsNearest F x y) (hz : z ∈ F) (hx : z ≤ x) : z ≤ y := by
  by_contra hlt
  have hnear := h.2 z hz
  rw [abs_of_nonneg (by linarith), abs_of_nonneg (by linarith)] at hnear
  linarith

omit [IsStrictOrderedRing R] in
/-- In a format that is symmetric so is nearness. -/
theorem IsNearest.neg (h : IsNearest F x y) (hF : ∀ z ∈ F, -z ∈ F) : IsNearest F (-x) (-y) := by
  refine ⟨hF y h.1, fun z hz => ?_⟩
  have hnear := h.2 (-z) (hF z hz)
  rwa [neg_sub_neg, abs_sub_comm, ← abs_neg (-x - z), neg_sub, sub_neg_eq_add, add_comm, ← sub_neg_eq_add]

/-- What is in the format is kept. -/
theorem IsNearest.eq_of_mem (h : IsNearest F x y) (hx : x ∈ F) : y = x :=
  le_antisymm (h.le_of_le hx (le_refl x)) (h.ge_of_ge hx (le_refl x))

/-- Rounding keeps the order. -/
theorem IsNearest.mono (h : IsNearest F x y) (h' : IsNearest F x' y') (hx : x < x') : y ≤ y' := by
  by_contra hlt
  have hpos : 0 < (y - y') * (x' - x) := mul_pos (by linarith) (by linarith)
  have hnear : (x - y) ^ 2 ≤ (x - y') ^ 2 := sq_le_sq.mpr (h.2 y' h'.1)
  have hnear' : (x' - y') ^ 2 ≤ (x' - y) ^ 2 := sq_le_sq.mpr (h'.2 y h.1)
  linarith [show (x - y') ^ 2 - (x - y) ^ 2 + (x' - y) ^ 2 - (x' - y') ^ 2 = -2 * ((y - y') * (x' - x)) by ring]

end

/-! ### The nearest integer -/

/-- The nearest integer, and the even one of two that are as near. -/
def roundEven (x : ℚ) : ℤ := if Int.fract x = 1 / 2 then ⌊x⌋ + ⌊x⌋ % 2 else round x

theorem roundEven_le (x : ℚ) (k : ℤ) : |x - roundEven x| ≤ |x - k| := by
  unfold roundEven
  split_ifs with htie
  · have hround : |x - round x| = 1 / 2 := by rw [abs_sub_round_eq_min, htie]; norm_num
    have hfloor : x = ⌊x⌋ + 1 / 2 := by rw [← htie, Int.floor_add_fract]
    refine le_trans ?_ (round_le x k)
    rw [hround]
    rcases Int.emod_two_eq_zero_or_one ⌊x⌋ with he | ho
    · rw [he, add_zero, abs_le]
      constructor <;> linarith
    · rw [ho, abs_le]
      push_cast
      constructor <;> linarith
  · exact round_le x k

theorem abs_sub_roundEven (x : ℚ) : |x - roundEven x| ≤ 1 / 2 := (roundEven_le x (round x)).trans (abs_sub_round x)

/-! ### Formats -/

/-- A binary floating-point format: a number of bits, and an exponent that is the least. -/
structure Format where
  precision : ℕ
  emin : ℤ
  precision_pos : 0 < precision

/-- `double`. -/
def binary64 : Format := ⟨53, -1074, by decide⟩

/-- `float`. -/
def binary32 : Format := ⟨24, -149, by decide⟩

namespace Format

variable (F : Format)

/-- The numbers of the format. -/
def numbers : Set ℚ := {x | ∃ m e : ℤ, |m| ≤ 2 ^ F.precision ∧ F.emin ≤ e ∧ x = m * 2 ^ e}

/-- The exponent of the numbers of the format near `x`. -/
def exponent (x : ℚ) : ℤ := max (Int.log 2 |x| - F.precision + 1) F.emin

/-- Round to the format. -/
def round (x : ℚ) : ℚ := roundEven (x / 2 ^ F.exponent x) * 2 ^ F.exponent x

variable {F} {x z : ℚ}

theorem natCast_mem {n : ℕ} (h : n ≤ 2 ^ F.precision) (hF : F.emin ≤ 0) : (n : ℚ) ∈ F.numbers :=
  ⟨n, 0, by rw [Nat.abs_cast]; exact_mod_cast h, hF, by simp⟩

theorem neg_mem (h : z ∈ F.numbers) : -z ∈ F.numbers := by
  obtain ⟨m, e, hm, he, rfl⟩ := h
  exact ⟨-m, e, by rwa [abs_neg], he, by push_cast; ring⟩

theorem two_zpow_pos (e : ℤ) : (0 : ℚ) < 2 ^ e := zpow_pos (by norm_num) e

/-- The integers that `x` is between, of its exponent, do not have too many bits. -/
theorem abs_div_lt (x : ℚ) : |x / 2 ^ F.exponent x| < 2 ^ F.precision := by
  have hpos := two_zpow_pos (F.exponent x)
  rw [abs_div, abs_of_pos hpos, div_lt_iff₀ hpos]
  calc |x| < ((2 : ℕ) : ℚ) ^ (Int.log 2 |x| + 1) := Int.lt_zpow_succ_log_self (by norm_num) _
    _ ≤ 2 ^ ((F.precision : ℤ) + F.exponent x) := by
      rw [Nat.cast_ofNat]
      exact zpow_le_zpow_right₀ (by norm_num) (by unfold exponent; omega)
    _ = 2 ^ F.precision * 2 ^ F.exponent x := by rw [zpow_add₀ (by norm_num), zpow_natCast]

theorem round_mem (x : ℚ) : F.round x ∈ F.numbers := by
  refine ⟨roundEven (x / 2 ^ F.exponent x), F.exponent x, ?_, le_max_right _ _, rfl⟩
  have hlt := abs_div_lt (F := F) x
  have hnear := abs_sub_roundEven (x / 2 ^ F.exponent x)
  have hle : |(roundEven (x / 2 ^ F.exponent x) : ℚ)| < 2 ^ F.precision + 1 := by
    have htri := abs_sub_abs_le_abs_sub (roundEven (x / 2 ^ F.exponent x) : ℚ) (x / 2 ^ F.exponent x)
    rw [abs_sub_comm] at htri
    linarith
  have hint : |roundEven (x / 2 ^ F.exponent x)| < 2 ^ F.precision + 1 := by exact_mod_cast hle
  exact Int.le_of_lt_add_one hint

theorem abs_sub_mul_eq (x : ℚ) (j : ℤ) :
    |x - j * 2 ^ F.exponent x| = |x / 2 ^ F.exponent x - j| * 2 ^ F.exponent x := by
  have hpos := two_zpow_pos (F.exponent x)
  rw [← abs_of_pos hpos, ← abs_mul, abs_of_pos hpos, sub_mul, div_mul_cancel₀ x hpos.ne']

/-- No number of the exponent is nearer, whatever its size. -/
theorem abs_sub_round_le_abs_sub (x : ℚ) (k : ℤ) : |x - F.round x| ≤ |x - k * 2 ^ F.exponent x| := by
  unfold round
  rw [abs_sub_mul_eq, abs_sub_mul_eq]
  exact mul_le_mul_of_nonneg_right (roundEven_le _ k) (two_zpow_pos _).le

theorem round_zero : F.round 0 = 0 := by
  unfold round
  rw [zero_div]
  simp [roundEven]

/-- What has a smaller exponent is not larger than `x`, and there is a number of the exponent of
`x` between them. -/
theorem exists_between (hx : x ≠ 0) (hz : z ∈ F.numbers) :
    (∃ k : ℤ, z = k * 2 ^ F.exponent x) ∨ ∃ k : ℤ, |z| ≤ 2 ^ (F.precision - 1) * 2 ^ F.exponent x ∧
      |x - k * 2 ^ F.exponent x| = |x| - 2 ^ (F.precision - 1) * 2 ^ F.exponent x := by
  obtain ⟨m, e, hm, he, rfl⟩ := hz
  rcases le_or_gt (F.exponent x) e with hle | hlt
  · refine .inl ⟨m * 2 ^ (e - F.exponent x).toNat, ?_⟩
    have hexp : (2 : ℚ) ^ (e - F.exponent x).toNat = 2 ^ (e - F.exponent x) := by
      rw [← zpow_natCast, Int.toNat_of_nonneg (by omega)]
    push_cast
    rw [hexp, mul_assoc, ← zpow_add₀ (by norm_num), sub_add_cancel]
  · right
    have hprec : (2 : ℚ) ^ (F.precision - 1) = 2 ^ ((F.precision : ℤ) - 1) := by
      rw [← zpow_natCast, Nat.cast_sub F.precision_pos, Nat.cast_one]
    have hlog : (F.precision : ℤ) - 1 + F.exponent x = Int.log 2 |x| := by
      unfold exponent at hlt ⊢
      omega
    have hbelow : (2 : ℚ) ^ (F.precision - 1) * 2 ^ F.exponent x ≤ |x| := by
      have hself := Int.zpow_log_le_self (b := 2) (by norm_num) (abs_pos.mpr hx)
      rw [Nat.cast_ofNat] at hself
      rwa [hprec, ← zpow_add₀ (by norm_num), hlog]
    have hz : |(m : ℚ) * 2 ^ e| ≤ 2 ^ (F.precision - 1) * 2 ^ F.exponent x := by
      rw [abs_mul, abs_of_pos (two_zpow_pos e)]
      calc |(m : ℚ)| * 2 ^ e ≤ 2 ^ (F.precision : ℤ) * 2 ^ (F.exponent x - 1) := by
            refine mul_le_mul (by rw [zpow_natCast]; exact_mod_cast hm) ?_ (two_zpow_pos e).le (two_zpow_pos _).le
            exact zpow_le_zpow_right₀ (by norm_num) (by omega)
        _ = 2 ^ (F.precision - 1) * 2 ^ F.exponent x := by
            rw [hprec, ← zpow_add₀ (by norm_num), ← zpow_add₀ (by norm_num)]
            congr 1
            omega
    rcases lt_or_gt_of_ne hx with hneg | hpos
    · refine ⟨-2 ^ (F.precision - 1), hz, ?_⟩
      rw [abs_of_neg hneg] at hbelow ⊢
      rw [Int.cast_neg, Int.cast_pow, Int.cast_ofNat, abs_of_nonpos (by linarith)]
      ring
    · refine ⟨2 ^ (F.precision - 1), hz, ?_⟩
      rw [abs_of_pos hpos] at hbelow ⊢
      rw [Int.cast_pow, Int.cast_ofNat]
      exact abs_of_nonneg (by linarith)

/-- **It is a rounding to the nearest.** -/
theorem round_isNearest (x : ℚ) : IsNearest F.numbers x (F.round x) := by
  refine ⟨round_mem x, fun z hz => ?_⟩
  rcases eq_or_ne x 0 with rfl | hx
  · rw [round_zero, sub_zero, abs_zero]
    exact abs_nonneg _
  rcases exists_between hx hz with ⟨k, rfl⟩ | ⟨k, hzk, hk⟩
  · exact abs_sub_round_le_abs_sub x k
  · calc |x - F.round x| ≤ |x - k * 2 ^ F.exponent x| := abs_sub_round_le_abs_sub x k
      _ = |x| - 2 ^ (F.precision - 1) * 2 ^ F.exponent x := hk
      _ ≤ |x| - |z| := by linarith
      _ ≤ |x - z| := abs_sub_abs_le_abs_sub x z

theorem round_of_mem (h : x ∈ F.numbers) : F.round x = x := (round_isNearest x).eq_of_mem h

theorem round_mono : Monotone F.round := fun x y h => by
  rcases eq_or_lt_of_le h with rfl | hlt
  · exact le_refl _
  · exact (round_isNearest x).mono (round_isNearest y) hlt

/-! ### Errors -/

/-- **The error is relative**, unless the number is very small. -/
theorem abs_sub_round_le (x : ℚ) : |x - F.round x| ≤ max (|x| / 2 ^ F.precision) (2 ^ F.emin / 2) := by
  have hhalf : |x - F.round x| ≤ 2 ^ F.exponent x / 2 := by
    unfold round
    rw [abs_sub_mul_eq]
    have hround := mul_le_mul_of_nonneg_right (abs_sub_roundEven (x / 2 ^ F.exponent x))
      (two_zpow_pos (F.exponent x)).le
    linarith
  rcases le_total (Int.log 2 |x| - F.precision + 1) F.emin with hle | hle
  · refine le_max_of_le_right (hhalf.trans ?_)
    rw [exponent, max_eq_right hle]
  · rcases eq_or_ne x 0 with rfl | hx
    · rw [round_zero, sub_zero, abs_zero]
      exact le_max_of_le_left (by simp)
    refine le_max_of_le_left (hhalf.trans ?_)
    have hself := Int.zpow_log_le_self (b := 2) (by norm_num) (abs_pos.mpr hx)
    rw [Nat.cast_ofNat] at hself
    rw [exponent, max_eq_left hle, le_div_iff₀ (by positivity), ← zpow_natCast, sub_add_eq_add_sub,
      zpow_sub₀ (by norm_num), zpow_add₀ (by norm_num), zpow_one]
    have hprec := two_zpow_pos (F.precision : ℤ)
    calc _ = (2 : ℚ) ^ Int.log 2 |x| := by field_simp
      _ ≤ |x| := hself

end Format

section

variable {u c : ℚ} {n : ℕ} {acc t : ℕ → ℚ}

/-- **A sum that is rounded after each addition**, with an error of at most `u` relative to what is
rounded, and to `c` where that is very small. -/
theorem abs_sum_rounded_le (hu : 0 ≤ u) (hzero : acc 0 = 0)
    (hacc : ∀ k < n, |acc (k + 1) - (acc k + t k)| ≤ u * (|acc k + t k| + c)) :
    |acc n - ∑ k ∈ Finset.range n, t k| ≤ ((1 + u) ^ n - 1) * (∑ k ∈ Finset.range n, |t k| + c) := by
  induction n with
  | zero => simp [hzero]
  | succ n ih =>
    have ih := ih fun k hk => hacc k (Nat.lt_succ_of_lt hk)
    have hstep := hacc n (Nat.lt_succ_self n)
    rw [Finset.sum_range_succ, Finset.sum_range_succ]
    obtain ⟨S, hS⟩ : ∃ S, S = ∑ k ∈ Finset.range n, t k := ⟨_, rfl⟩
    obtain ⟨A, hA⟩ : ∃ A, A = ∑ k ∈ Finset.range n, |t k| := ⟨_, rfl⟩
    have hSA : |S| ≤ A := hS ▸ hA ▸ Finset.abs_sum_le_sum_abs _ _
    rw [← hS, ← hA] at ih ⊢
    have hpow : 1 ≤ (1 + u) ^ n := one_le_pow₀ (by linarith)
    -- the exact sum is not larger than that of the absolute values
    have hsum : |acc n + t n| ≤ |acc n - S| + (A + |t n|) :=
      calc |acc n + t n| = |(acc n - S) + (S + t n)| := by ring_nf
        _ ≤ |acc n - S| + |S + t n| := abs_add_le _ _
        _ ≤ |acc n - S| + (A + |t n|) := by linarith [abs_add_le S (t n)]
    calc |acc (n + 1) - (S + t n)| = |(acc (n + 1) - (acc n + t n)) + (acc n - S)| := by ring_nf
      _ ≤ |acc (n + 1) - (acc n + t n)| + |acc n - S| := abs_add_le _ _
      _ ≤ u * (|acc n - S| + (A + |t n|) + c) + |acc n - S| := by
        linarith [hstep.trans (mul_le_mul_of_nonneg_left (add_le_add_left hsum c) hu)]
      _ = (1 + u) * |acc n - S| + u * (A + |t n| + c) := by ring
      _ ≤ (1 + u) * (((1 + u) ^ n - 1) * (A + c)) + u * (A + |t n| + c) := by
        linarith [mul_le_mul_of_nonneg_left ih (show 0 ≤ 1 + u by linarith)]
      _ ≤ ((1 + u) ^ (n + 1) - 1) * (A + |t n| + c) := by
        have hextra : 0 ≤ ((1 + u) ^ n - 1) * (1 + u) * |t n| :=
          mul_nonneg (mul_nonneg (by linarith) (by linarith)) (abs_nonneg _)
        rw [pow_succ]
        linarith

/-- For not too many terms the factor is linear in their number. -/
theorem one_add_pow_le (hu : 0 ≤ u) (hn : 2 * n * u ≤ 1) : (1 + u) ^ n ≤ 1 + 2 * n * u := by
  induction n with
  | zero => simp
  | succ n ih =>
    push_cast at hn ⊢
    have hnu : 2 * n * u ≤ 1 := by linarith
    have hsq : 2 * n * u * u ≤ 1 * u := mul_le_mul_of_nonneg_right hnu hu
    calc (1 + u) ^ (n + 1) = (1 + u) ^ n * (1 + u) := pow_succ _ _
      _ ≤ (1 + 2 * n * u) * (1 + u) := mul_le_mul_of_nonneg_right (ih hnu) (by linarith)
      _ ≤ 1 + 2 * (n + 1) * u := by linarith

end

end Gbis.Library
