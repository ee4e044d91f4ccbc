import Mathlib.Algebra.Order.Ring.Int
import Mathlib.Data.List.Basic

/-!
# Text

The parts of the C++ standard library that read text: `std::getline`, and the conversions
`std::stoi` and `std::stoull` with the base `10` and in the "C" locale. A `std::string` is the
list of its characters (`Str`). What is left of a stream is a list of characters too.

A conversion takes the longest part of the text that it can, after white space (`scan`), and
reports where it stopped; the caller has to look whether that is the end. `std::stoull` accepts
a sign, and wraps what is negative.

* `getlines_eq` — the pieces of a text are what successive calls of `std::getline` give.
-/

namespace Gbis.Library

/-- `std::string`. -/
abbrev Str : Type := List Char

/-! ### Lines -/

/-- `std::getline(in, line, delim)`: the line, and what is left of the stream; none if it fails,
which it does if it extracts nothing. -/
def getline (delim : Char) : Str → Option (Str × Str)
  | [] => none
  | s => some (s.takeWhile (· ≠ delim), (s.dropWhile (· ≠ delim)).drop 1)

/-- The pieces of a text: a `delim` ends one. -/
def getlines (delim : Char) : Str → List Str
  | [] => []
  | c :: s =>
    if c = delim then [] :: getlines delim s
    else match getlines delim s with
      | [] => [[c]]
      | line :: lines => (c :: line) :: lines

/-- The pieces are read one after the other. -/
theorem getlines_eq (delim : Char) (s : Str) :
    getlines delim s = match getline delim s with
      | none => []
      | some (line, rest) => line :: getlines delim rest := by
  induction s with
  | nil => rfl
  | cons c s ih =>
    by_cases hc : c = delim
    · simp [getlines, getline, hc]
    · cases s with
      | nil => simp [getlines, getline, hc]
      | cons d s =>
        rw [getlines, if_neg hc, ih]
        simp [getline, hc]

/-! ### Conversions -/

/-- `std::isspace`. -/
def isspace (c : Char) : Bool := c = ' ' || (9 ≤ c.toNat && c.toNat ≤ 13)

/-- The number that decimal digits denote. -/
def ofDigits (digits : Str) : ℕ := digits.foldl (fun n c => 10 * n + (c.toNat - '0'.toNat)) 0

/-- What a conversion finds in a text. -/
structure Numeral where
  negative : Bool
  magnitude : ℕ
  /-- The number of characters it takes. -/
  pos : ℕ
  deriving DecidableEq

/-- The sign of a numeral, and the characters it takes. -/
def sign : Str → Bool × ℕ
  | '-' :: _ => (true, 1)
  | '+' :: _ => (false, 1)
  | _ => (false, 0)

/-- The numeral that a text begins with: white space, a sign, and digits, of which there is at
least one. -/
def scan (s : Str) : Option Numeral :=
  let t := s.dropWhile isspace
  let digits := (t.drop (sign t).2).takeWhile Char.isDigit
  if digits = [] then none
  else some ⟨(sign t).1, ofDigits digits, (s.takeWhile isspace).length + (sign t).2 + digits.length⟩

/-- The integer that it denotes. -/
def Numeral.value (x : Numeral) : ℤ := if x.negative then -x.magnitude else x.magnitude

/-- What the conversions throw. -/
inductive ConversionError where
  | invalid_argument
  | out_of_range
  deriving DecidableEq

/-- `std::stoi(s, &pos)`: the integer, and `pos`. -/
def stoi (s : Str) : Except ConversionError (Int32 × ℕ) :=
  match scan s with
  | none => .error .invalid_argument
  | some x =>
    if -2 ^ 31 ≤ x.value ∧ x.value < 2 ^ 31 then .ok (Int32.ofInt x.value, x.pos) else .error .out_of_range

/-- `std::stoull(s, &pos)`. -/
def stoull (s : Str) : Except ConversionError (UInt64 × ℕ) :=
  match scan s with
  | none => .error .invalid_argument
  | some x => if x.magnitude < 2 ^ 64 then .ok (UInt64.ofInt x.value, x.pos) else .error .out_of_range

/-- Where a chain of fallible steps succeeds, each has. -/
theorem bind_eq_ok_iff {ε α β : Type} {x : Except ε α} {g : α → Except ε β} {b : β} :
    (x >>= g) = .ok b ↔ ∃ a, x = .ok a ∧ g a = .ok b := by
  cases x with
  | error e => simp [bind, Except.bind]
  | ok a => simp [bind, Except.bind]

example : stoi " -12x".toList = .ok (-12, 4) ∧ stoull "-1".toList = .ok (18446744073709551615, 2) := by decide

end Gbis.Library
