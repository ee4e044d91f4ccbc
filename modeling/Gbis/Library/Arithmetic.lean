import Mathlib.Algebra.Order.Ring.Int
import Mathlib.Tactic.NormNum

/-!
# Integer expressions

The integer arithmetic of C++, on the types that promotion leaves alone: a type is a number of
bits and a sign (`IntType`), and an expression of it has a value in its range, or none where
C++ leaves it undefined (`Expr`). An operation is done in a type common to its operands
(`IntType.common`), where what is out of range is undefined if the type is signed and reduced
modulo a power of two if it is not (`IntType.result`). A conversion is reduced in either case
(`Expr.cast`).

* `result_eq_some_self_iff`, `convert_eq_self_iff` — an operation, or a conversion, is exact
  exactly when the integer that is meant is in range;
* `add_exact`, `mul_exact`, `cast_exact` — so is an expression whose operands are;
* `of_value_add`, `of_value_mul` — and a signed one that has a value is exact.
-/

namespace Gbis.Library

/-- An integer type. -/
structure IntType where
  bits : ℕ
  signed : Bool
  pos : 0 < bits
  deriving DecidableEq

namespace IntType

/-- `int`. -/
abbrev int : IntType := ⟨32, true, by decide⟩

/-- `unsigned int`. -/
abbrev unsigned : IntType := ⟨32, false, by decide⟩

/-- `std::size_t`. -/
abbrev size_t : IntType := ⟨64, false, by decide⟩

/-- The values of a type. -/
def InRange (t : IntType) (v : ℤ) : Prop :=
  if t.signed then -2 ^ (t.bits - 1) ≤ v ∧ v < 2 ^ (t.bits - 1) else 0 ≤ v ∧ v < 2 ^ t.bits

instance (t : IntType) (v : ℤ) : Decidable (t.InRange v) := by
  unfold InRange
  infer_instance

/-- The type that an operation is done in: the wider of two, and of two that are as wide the
unsigned one. -/
def common (s t : IntType) : IntType :=
  if s.bits = t.bits then ⟨s.bits, s.signed && t.signed, s.pos⟩ else if s.bits < t.bits then t else s

/-- What an operation that comes to `v` gives. -/
def result (t : IntType) (v : ℤ) : Option ℤ :=
  if t.InRange v then some v else if t.signed then none else some (v % 2 ^ t.bits)

/-- What the value `v` is converted to. -/
def convert (t : IntType) (v : ℤ) : ℤ := if t.signed then v.bmod (2 ^ t.bits) else v % 2 ^ t.bits

theorem inRange_int {v : ℤ} : int.InRange v ↔ -2 ^ 31 ≤ v ∧ v < 2 ^ 31 := by simp [InRange]

theorem inRange_unsigned {v : ℤ} : unsigned.InRange v ↔ 0 ≤ v ∧ v < 2 ^ 32 := by simp [InRange]

theorem inRange_size_t {v : ℤ} : size_t.InRange v ↔ 0 ≤ v ∧ v < 2 ^ 64 := by simp [InRange]

/-- An unsigned result is reduced. -/
theorem result_of_unsigned {t : IntType} (h : t.signed = false) (v : ℤ) : t.result v = some (v % 2 ^ t.bits) := by
  unfold result
  split_ifs with hv hs
  · simp only [InRange, h, Bool.false_eq_true, if_false] at hv
    rw [Int.emod_eq_of_lt hv.1 hv.2]
  · rw [h] at hs
    cases hs
  · rfl

/-- A signed one is exact or undefined. -/
theorem result_eq_some_of_signed {t : IntType} (h : t.signed = true) {v w : ℤ} :
    t.result v = some w ↔ t.InRange v ∧ v = w := by
  unfold result
  split_ifs with hv <;> simp [hv]

/-- An operation is exact exactly when its result is in range. -/
theorem result_eq_some_self_iff {t : IntType} {v : ℤ} : t.result v = some v ↔ t.InRange v := by
  cases h : t.signed with
  | true => rw [result_eq_some_of_signed h, and_iff_left rfl]
  | false =>
    have hpos : (0 : ℤ) < 2 ^ t.bits := by positivity
    simp only [result_of_unsigned h, InRange, h, Option.some.injEq, Bool.false_eq_true, if_false]
    constructor
    · intro hv
      rw [← hv]
      exact ⟨Int.emod_nonneg _ hpos.ne', Int.emod_lt_of_pos _ hpos⟩
    · intro hv
      exact Int.emod_eq_of_lt hv.1 hv.2

/-- What an operation gives is in range. -/
theorem inRange_of_result {t : IntType} {v w : ℤ} (h : t.result v = some w) : t.InRange w := by
  cases hs : t.signed with
  | true =>
    obtain ⟨hv, rfl⟩ := (result_eq_some_of_signed hs).mp h
    exact hv
  | false =>
    have hpos : (0 : ℤ) < 2 ^ t.bits := by positivity
    obtain rfl : v % 2 ^ t.bits = w := by simpa [result_of_unsigned hs] using h
    simp only [InRange, hs, Bool.false_eq_true, if_false]
    exact ⟨Int.emod_nonneg _ hpos.ne', Int.emod_lt_of_pos _ hpos⟩

/-- What a value is converted to is in range. -/
theorem inRange_convert (t : IntType) (v : ℤ) : t.InRange (t.convert v) := by
  obtain ⟨b, hb⟩ : ∃ b, t.bits = b + 1 := ⟨t.bits - 1, by have := t.pos; omega⟩
  have hpos : 0 < 2 ^ (b + 1) := by positivity
  have hpow : 2 ^ (b + 1) = 2 * 2 ^ b := pow_succ' 2 b
  unfold InRange convert
  split_ifs with hs
  · have hle := Int.le_bmod (x := v) hpos
    have hlt := Int.bmod_lt (x := v) hpos
    rw [hb, Nat.add_sub_cancel]
    push_cast [hpow] at hle hlt ⊢
    omega
  · have h := Int.emod_lt_of_pos v (show (0 : ℤ) < 2 ^ t.bits by positivity)
    exact ⟨Int.emod_nonneg _ (by positivity), h⟩

/-- A conversion is exact exactly when the value is in range. -/
theorem convert_eq_self_iff {t : IntType} {v : ℤ} : t.convert v = v ↔ t.InRange v := by
  constructor
  · intro h
    rw [← h]
    exact inRange_convert t v
  · intro h
    obtain ⟨b, hb⟩ : ∃ b, t.bits = b + 1 := ⟨t.bits - 1, by have := t.pos; omega⟩
    unfold InRange at h
    unfold convert
    split_ifs at h ⊢
    · rw [hb, Nat.add_sub_cancel] at h
      rw [hb]
      have hpow : 2 ^ (b + 1) = 2 * 2 ^ b := pow_succ' 2 b
      exact Int.bmod_eq_of_le (by push_cast [hpow]; omega) (by push_cast [hpow]; omega)
    · exact Int.emod_eq_of_lt h.1 h.2

end IntType

open IntType

/-! ### Expressions -/

/-- An expression of type `t`, by its value. -/
structure Expr (t : IntType) where
  value : Option ℤ
  inRange : ∀ v ∈ value, t.InRange v

variable {s t : IntType}

namespace Expr

/-- A variable of type `int`. -/
def int (i : Int32) : Expr .int where
  value := some i.toInt
  inRange := by
    rintro _ ⟨⟩
    exact inRange_int.mpr ⟨i.le_toInt, i.toInt_lt⟩

/-- A variable of type `unsigned int`. -/
def unsigned (u : UInt32) : Expr .unsigned where
  value := some u.toNat
  inRange := by
    rintro _ ⟨⟩
    have := u.toNat_lt
    exact inRange_unsigned.mpr ⟨by omega, by omega⟩

/-- An operation: on the values, in the common type. -/
def op (f : ℤ → ℤ → ℤ) (x : Expr s) (y : Expr t) : Expr (s.common t) where
  value := x.value.bind fun a => y.value.bind fun b => (s.common t).result (f a b)
  inRange := by
    intro v hv
    simp only [Option.mem_def, Option.bind_eq_some_iff] at hv
    obtain ⟨_, -, _, -, h⟩ := hv
    exact inRange_of_result h

instance : HAdd (Expr s) (Expr t) (Expr (s.common t)) := ⟨op (· + ·)⟩

instance : HMul (Expr s) (Expr t) (Expr (s.common t)) := ⟨op (· * ·)⟩

/-- A conversion: a `static_cast`, an assignment, an initialisation. -/
def cast (t : IntType) (x : Expr s) : Expr t where
  value := x.value.map t.convert
  inRange := by
    rintro _ h
    obtain ⟨v, -, rfl⟩ := Option.map_eq_some_iff.mp h
    exact inRange_convert t v

@[simp] theorem value_int (i : Int32) : (int i).value = some i.toInt := rfl

@[simp] theorem value_unsigned (u : UInt32) : (unsigned u).value = some (u.toNat : ℤ) := rfl

/-- The values of an operation. -/
theorem value_op_eq_some_iff {f : ℤ → ℤ → ℤ} {x : Expr s} {y : Expr t} {v : ℤ} :
    (op f x y).value = some v ↔ ∃ a b, x.value = some a ∧ y.value = some b ∧ (s.common t).result (f a b) = some v := by
  simp only [op, Option.bind_eq_some_iff]
  constructor
  · rintro ⟨a, ha, b, hb, h⟩
    exact ⟨a, b, ha, hb, h⟩
  · rintro ⟨a, b, ha, hb, h⟩
    exact ⟨a, ha, b, hb, h⟩

/-- The values of a sum. -/
theorem value_add_eq_some_iff {x : Expr s} {y : Expr t} {v : ℤ} :
    (x + y).value = some v ↔ ∃ a b, x.value = some a ∧ y.value = some b ∧ (s.common t).result (a + b) = some v :=
  value_op_eq_some_iff

/-- The values of a product. -/
theorem value_mul_eq_some_iff {x : Expr s} {y : Expr t} {v : ℤ} :
    (x * y).value = some v ↔ ∃ a b, x.value = some a ∧ y.value = some b ∧ (s.common t).result (a * b) = some v :=
  value_op_eq_some_iff

/-- A sum that is in range is exact. -/
theorem add_exact {x : Expr s} {y : Expr t} {a b : ℤ} (hx : x.value = some a) (hy : y.value = some b)
    (h : (s.common t).InRange (a + b)) : (x + y).value = some (a + b) :=
  value_add_eq_some_iff.mpr ⟨a, b, hx, hy, result_eq_some_self_iff.mpr h⟩

/-- A product that is in range is exact. -/
theorem mul_exact {x : Expr s} {y : Expr t} {a b : ℤ} (hx : x.value = some a) (hy : y.value = some b)
    (h : (s.common t).InRange (a * b)) : (x * y).value = some (a * b) :=
  value_mul_eq_some_iff.mpr ⟨a, b, hx, hy, result_eq_some_self_iff.mpr h⟩

/-- A value in the range of the type that it is converted to is unchanged. -/
theorem cast_exact {x : Expr s} {a : ℤ} (hx : x.value = some a) (h : t.InRange a) : (x.cast t).value = some a :=
  Option.map_eq_some_iff.mpr ⟨a, hx, convert_eq_self_iff.mpr h⟩

/-- A signed sum that has a value is the exact one. -/
theorem of_value_add {x : Expr s} {y : Expr t} {v : ℤ} (hs : (s.common t).signed = true) (h : (x + y).value = some v) :
    ∃ a b, x.value = some a ∧ y.value = some b ∧ a + b = v := by
  obtain ⟨a, b, hx, hy, hr⟩ := value_add_eq_some_iff.mp h
  exact ⟨a, b, hx, hy, ((result_eq_some_of_signed hs).mp hr).2⟩

/-- A signed product that has a value is the exact one. -/
theorem of_value_mul {x : Expr s} {y : Expr t} {v : ℤ} (hs : (s.common t).signed = true) (h : (x * y).value = some v) :
    ∃ a b, x.value = some a ∧ y.value = some b ∧ a * b = v := by
  obtain ⟨a, b, hx, hy, hr⟩ := value_mul_eq_some_iff.mp h
  exact ⟨a, b, hx, hy, ((result_eq_some_of_signed hs).mp hr).2⟩

end Expr

end Gbis.Library
