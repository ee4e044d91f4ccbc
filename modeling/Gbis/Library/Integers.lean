import Gbis.Library.Text
import Mathlib.Data.List.TakeWhile

/-!
# Integers in a text

What a text says, apart from how it is read: the parts of it between the delimiters
(`List.splitOn`), and the integer that a part represents (`Represents`): decimal digits, with
a sign before them or not, and white space before that.

The functions of `Gbis.Library.Text` are compared with it. `std::getline` finds the parts, but
for an empty one at the end (`splitOn_eq_getlines`). `std::stoi` takes a whole text and returns
an integer exactly when the text represents it (`stoi_eq_ok_iff`). `std::stoull` does not: it
takes the negative integers above `-2^64` too, and returns them modulo `2^64`
(`stoull_eq_ok_iff`).
-/

namespace Gbis.Library

variable {s : Str} {v w : ℤ}

/-! ### Parts -/

theorem splitOn_cons (delim c : Char) (s : Str) :
    (c :: s).splitOn delim = if c = delim then [] :: s.splitOn delim else (s.splitOn delim).modifyHead (c :: ·) := by
  simp only [List.splitOn_eq_splitOnP, List.splitOnP_cons_eq_if_modifyHead, beq_iff_eq]

/-- The pieces that `std::getline` gives are the parts, but for an empty one at the end. -/
theorem splitOn_eq_getlines (delim : Char) (s : Str) :
    s.splitOn delim = getlines delim s ∨ s.splitOn delim = getlines delim s ++ [[]] := by
  induction s with
  | nil => simp [getlines]
  | cons c s ih =>
    rw [splitOn_cons, getlines]
    by_cases hc : c = delim
    · simpa [hc] using ih
    · -- the character is put before the first part, of which there is always one
      cases hg : getlines delim s with
      | nil => simp_all
      | cons line lines => rcases ih with h | h <;> simp [hc, h, hg]

/-! ### Integers -/

/-- The integer that a text represents. -/
inductive Represents : Str → ℤ → Prop where
  /-- Digits. -/
  | digits {s : Str} (hne : s ≠ []) (hs : ∀ c ∈ s, c.isDigit = true) : Represents s (ofDigits s)
  /-- `+` and digits. -/
  | plus {s : Str} (hne : s ≠ []) (hs : ∀ c ∈ s, c.isDigit = true) : Represents ('+' :: s) (ofDigits s)
  /-- `-` and digits. -/
  | minus {s : Str} (hne : s ≠ []) (hs : ∀ c ∈ s, c.isDigit = true) : Represents ('-' :: s) (-ofDigits s)
  /-- White space before an integer. -/
  | space {c : Char} {s : Str} {v : ℤ} (hc : isspace c = true) (h : Represents s v) : Represents (c :: s) v

/-- No digit is white space. -/
theorem isspace_of_isDigit {c : Char} (h : c.isDigit = true) : isspace c = false := by
  obtain ⟨h₁, h₂⟩ : 48 ≤ c.toNat ∧ c.toNat ≤ 57 := by simpa [Char.isDigit, UInt32.le_iff_toNat_le] using h
  have hne : c ≠ ' ' := by
    rintro rfl
    exact absurd h₁ (by decide)
  simp only [isspace, hne, decide_false, Bool.false_or, Bool.and_eq_false_iff, decide_eq_false_iff_not]
  omega

/-- A digit is no sign. -/
theorem sign_of_isDigit {c : Char} (h : c.isDigit = true) (s : Str) : sign (c :: s) = (false, 0) := by
  unfold sign
  split
  · rename_i he
    cases he
    cases h
  · rename_i he
    cases he
    cases h
  · rfl

/-- White space is passed over. -/
theorem scan_space {c : Char} (hc : isspace c = true) (s : Str) :
    scan (c :: s) = (scan s).map fun x => { x with pos := x.pos + 1 } := by
  unfold scan
  simp only [List.dropWhile_cons, List.takeWhile_cons, hc, if_true, List.length_cons]
  split_ifs
  · rfl
  · simp only [Option.map_some, Option.some.injEq, Numeral.mk.injEq, true_and]
    omega

/-- What is found in a text that does not begin with white space. -/
theorem scan_of_not_space (hs : ∀ c ∈ s.head?, isspace c = false) :
    scan s = if (s.drop (sign s).2).takeWhile Char.isDigit = [] then none
      else some ⟨(sign s).1, ofDigits ((s.drop (sign s).2).takeWhile Char.isDigit),
        (sign s).2 + ((s.drop (sign s).2).takeWhile Char.isDigit).length⟩ := by
  have hdrop : s.dropWhile isspace = s ∧ s.takeWhile isspace = [] := by
    cases s with
    | nil => simp
    | cons c s => simp [hs c rfl]
  unfold scan
  simp [hdrop]

/-- Where there are only digits after the sign, all of them are taken. -/
theorem scan_of_digits {t : Str} (hs : ∀ c ∈ s.head?, isspace c = false) (hdrop : s.drop (sign s).2 = t) (hne : t ≠ [])
    (ht : ∀ c ∈ t, c.isDigit = true) : scan s = some ⟨(sign s).1, ofDigits t, (sign s).2 + t.length⟩ := by
  have htake : t.takeWhile Char.isDigit = t := List.takeWhile_eq_self_iff.mpr ht
  rw [scan_of_not_space hs, hdrop, htake, if_neg hne]

/-- An integer is found as a whole. -/
theorem Represents.scan_eq (h : Represents s v) : ∃ x, scan s = some x ∧ x.pos = s.length ∧ x.value = v := by
  induction h with
  | @digits s hne hs =>
    cases s with
    | nil => exact absurd rfl hne
    | cons c s =>
      have hc : c.isDigit = true := hs c List.mem_cons_self
      have hsign := sign_of_isDigit hc s
      have hscan := scan_of_digits (s := c :: s) (t := c :: s) (by simp [isspace_of_isDigit hc]) (by simp [hsign]) hne hs
      rw [hsign] at hscan
      exact ⟨_, hscan, by simp, by simp [Numeral.value]⟩
  | @plus s hne hs =>
    have hscan := scan_of_digits (s := '+' :: s) (by intro _ hc; cases hc; rfl) rfl hne hs
    exact ⟨_, hscan, by simp [sign, Nat.add_comm], by simp [sign, Numeral.value]⟩
  | @minus s hne hs =>
    have hscan := scan_of_digits (s := '-' :: s) (by intro _ hc; cases hc; rfl) rfl hne hs
    exact ⟨_, hscan, by simp [sign, Nat.add_comm], by simp [sign, Numeral.value]⟩
  | @space c s v hc h ih =>
    obtain ⟨x, hx, hpos, hv⟩ := ih
    exact ⟨{ x with pos := x.pos + 1 }, by rw [scan_space hc, hx]; rfl, by simp [hpos], hv⟩

/-- A text of a sign, or of none, and digits is an integer. -/
theorem represents_of_sign (hne : s.drop (sign s).2 ≠ []) (hs : ∀ c ∈ s.drop (sign s).2, c.isDigit = true) :
    Represents s (Numeral.value ⟨(sign s).1, ofDigits (s.drop (sign s).2), s.length⟩) := by
  revert hne hs
  unfold sign
  split
  · intro hne hs
    exact .minus hne hs
  · intro hne hs
    exact .plus hne hs
  · intro hne hs
    exact .digits hne hs

/-- What is found as a whole is an integer. -/
theorem represents_of_scan {x : Numeral} (hx : scan s = some x) (hpos : x.pos = s.length) : Represents s x.value := by
  induction s generalizing x with
  | nil => cases hx
  | cons c s ih =>
    by_cases hc : isspace c = true
    · rw [scan_space hc] at hx
      obtain ⟨y, hy, rfl⟩ := Option.map_eq_some_iff.mp hx
      exact .space hc (ih (x := y) hy (Nat.add_right_cancel hpos))
    · rw [scan_of_not_space (by simpa using hc)] at hx
      split_ifs at hx with hne
      cases hx
      -- the digits taken are as many as there are characters after the sign, so they are all of these
      have htake : ((c :: s).drop (sign (c :: s)).2).takeWhile Char.isDigit = (c :: s).drop (sign (c :: s)).2 := by
        refine (List.takeWhile_prefix _).eq_of_length ?_
        rw [List.length_drop]
        exact Nat.eq_sub_of_add_eq' hpos
      rw [htake] at hne ⊢
      exact represents_of_sign hne (List.takeWhile_eq_self_iff.mp htake)

/-- **An integer is what is found as a whole.** -/
theorem represents_iff_scan : Represents s v ↔ ∃ x, scan s = some x ∧ x.pos = s.length ∧ x.value = v := by
  constructor
  · exact Represents.scan_eq
  · intro h
    obtain ⟨x, hx, hpos, rfl⟩ := h
    exact represents_of_scan hx hpos

/-- A text represents at most one integer. -/
theorem Represents.unique (h : Represents s v) (h' : Represents s w) : v = w := by
  obtain ⟨x, hx, -, rfl⟩ := h.scan_eq
  obtain ⟨y, hy, -, rfl⟩ := h'.scan_eq
  rw [hx] at hy
  cases hy
  rfl

theorem Represents.ne_nil (h : Represents s v) : s ≠ [] := by
  cases h with
  | digits hne => exact hne
  | plus | minus | space => exact List.cons_ne_nil _ _

/-- The magnitude of a numeral is that of its value. -/
theorem Numeral.natAbs_value (x : Numeral) : x.value.natAbs = x.magnitude := by
  unfold value
  split_ifs <;> simp

/-- **`std::stoi`** takes a whole text exactly if it represents the integer, which is in its range. -/
theorem stoi_eq_ok_iff {i : Int32} : stoi s = .ok (i, s.length) ↔ Represents s i.toInt := by
  rw [represents_iff_scan]
  unfold stoi
  cases hx : scan s with
  | none => simp
  | some x =>
    simp only [Option.some.injEq, exists_eq_left']
    constructor
    · intro h
      split_ifs at h with hrange
      obtain ⟨rfl, hpos⟩ := Prod.mk.inj (Except.ok.inj h)
      exact ⟨hpos, (Int32.toInt_ofInt_of_le hrange.1 hrange.2).symm⟩
    · intro h
      obtain ⟨hpos, hv⟩ := h
      rw [if_pos ⟨hv ▸ i.le_toInt, hv ▸ i.toInt_lt⟩, hpos, hv, Int32.ofInt_toInt]

/-- **`std::stoull`** takes a whole text exactly if it represents an integer whose magnitude is in
its range; a negative one it returns modulo `2^64`. -/
theorem stoull_eq_ok_iff {u : UInt64} :
    stoull s = .ok (u, s.length) ↔ ∃ v, Represents s v ∧ v.natAbs < 2 ^ 64 ∧ UInt64.ofInt v = u := by
  simp only [represents_iff_scan]
  unfold stoull
  cases hx : scan s with
  | none => simp
  | some x =>
    simp only [Option.some.injEq, exists_eq_left']
    constructor
    · intro h
      split_ifs at h with hrange
      obtain ⟨rfl, hpos⟩ := Prod.mk.inj (Except.ok.inj h)
      exact ⟨x.value, ⟨hpos, rfl⟩, x.natAbs_value ▸ hrange, rfl⟩
    · intro h
      obtain ⟨_, ⟨hpos, rfl⟩, hrange, rfl⟩ := h
      rw [if_pos (x.natAbs_value ▸ hrange), hpos]

/-- An integer that is not negative is converted to itself, a negative one is not. -/
theorem toNat_ofInt_eq_iff (hv : v.natAbs < 2 ^ 64) : ((UInt64.ofInt v).toNat : ℤ) = v ↔ 0 ≤ v := by
  unfold UInt64.ofInt
  rw [UInt64.toNat_ofNat']
  omega

end Gbis.Library
