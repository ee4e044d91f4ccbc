import Mathlib.Data.Int.Order.Basic
import Mathlib.Tactic.Ring
import Mathlib.Tactic.Linarith

/-!
# Jobs and their sizes

`InferenceJob` of `src/src/sched/job.hpp`: one batched GEMM, `C[b] = A[b] * B[b]`
with `A` of shape `(m, k)` and `B` of shape `(k, n)`, and the size arithmetic on it.

A `std::size_t` is a natural number below `2^64`, and its operations are those of
`ℕ` reduced modulo `2^64` (`addSize`, `mulSize`); an `int` is an `Int32`, and
`static_cast<std::size_t>` of one is `toSize`. A time point is the number of
nanoseconds since the clock's epoch, so `TimePoint{}` is `0`.

`bytes_required` is the size the code computes, `exactBytes` the size it means:
the two agree modulo `2^64` (`bytes_required_eq`), and exactly when the exact
size fits in a word (`bytes_required_eq_iff`).
-/

namespace Gbis.Sched

/-- `2^64`, the number of values of a `std::size_t`. -/
def wordSize : ℕ := 2 ^ 64

/-- `a + b` in `std::size_t`. -/
def addSize (a b : ℕ) : ℕ := (a + b) % wordSize

/-- `a * b` in `std::size_t`. -/
def mulSize (a b : ℕ) : ℕ := a * b % wordSize

/-- `static_cast<std::size_t>(i)`. -/
def toSize (i : Int32) : ℕ := (i.toInt % (wordSize : ℤ)).toNat

theorem wordSize_pos : 0 < wordSize := by decide

/-- A non-negative `int` is converted to itself. -/
theorem toSize_of_nonneg {i : Int32} (h : 0 ≤ i.toInt) : (toSize i : ℤ) = i.toInt := by
  have hlt := i.toInt_lt
  unfold toSize wordSize
  rw [Int.emod_eq_of_lt h (by norm_num; omega), Int.toNat_of_nonneg h]

theorem toSize_lt (i : Int32) (h : 0 ≤ i.toInt) : toSize i < 2 ^ 31 := by
  have h₁ := toSize_of_nonneg h
  have h₂ := i.toInt_lt
  omega

/-- A single batched-GEMM inference job. -/
structure InferenceJob where
  /-- The client's identifier. -/
  id : ℕ := 0
  /-- Rows of `A` and `C`. -/
  m : Int32 := 0
  /-- Columns of `B` and `C`. -/
  n : Int32 := 0
  /-- Columns of `A` and rows of `B`. -/
  k : Int32 := 0
  /-- The number of products. -/
  batch : Int32 := 1
  /-- Higher runs first. -/
  priority : Int32 := 0
  /-- When the job was submitted; `0` if it never was. -/
  submit_time : ℤ := 0
  /-- Assigned by the scheduler; the FIFO tie-break. -/
  seq : ℕ := 0
  deriving DecidableEq, Inhabited

namespace InferenceJob

/-- Device bytes needed for `A`, `B` and `C` across the batch. -/
def bytes_required (job : InferenceJob) : ℕ :=
  let a := mulSize (toSize job.m) (toSize job.k)
  let b := mulSize (toSize job.k) (toSize job.n)
  let c := mulSize (toSize job.m) (toSize job.n)
  mulSize (mulSize (addSize (addSize a b) c) (toSize job.batch)) 4

/-- Elements of `A` across the batch, as `execute_batch` computes them. -/
def sa (job : InferenceJob) : ℕ := mulSize (mulSize (toSize job.m) (toSize job.k)) (toSize job.batch)

/-- Elements of `B`. -/
def sb (job : InferenceJob) : ℕ := mulSize (mulSize (toSize job.k) (toSize job.n)) (toSize job.batch)

/-- Elements of `C`. -/
def sc (job : InferenceJob) : ℕ := mulSize (mulSize (toSize job.m) (toSize job.n)) (toSize job.batch)

/-- The dimensions a client may ask for: what `submit_job` checks. -/
structure Positive (job : InferenceJob) : Prop where
  m : 1 ≤ job.m.toInt
  n : 1 ≤ job.n.toInt
  k : 1 ≤ job.k.toInt
  batch : 1 ≤ job.batch.toInt

/-- The size of `A`, `B` and `C` across the batch in bytes, as an integer. -/
def exactBytes (job : InferenceJob) : ℤ :=
  4 * job.batch.toInt * (job.m.toInt * job.k.toInt + job.k.toInt * job.n.toInt + job.m.toInt * job.n.toInt)

/-- The dimensions as natural numbers, which is how the size arithmetic sees them. -/
theorem Positive.sizes {job : InferenceJob} (h : job.Positive) :
    (toSize job.m : ℤ) = job.m.toInt ∧ (toSize job.n : ℤ) = job.n.toInt ∧
      (toSize job.k : ℤ) = job.k.toInt ∧ (toSize job.batch : ℤ) = job.batch.toInt :=
  ⟨toSize_of_nonneg (by have := h.m; omega), toSize_of_nonneg (by have := h.n; omega),
    toSize_of_nonneg (by have := h.k; omega), toSize_of_nonneg (by have := h.batch; omega)⟩

theorem Positive.exactBytes_eq {job : InferenceJob} (h : job.Positive) :
    job.exactBytes = ((4 * toSize job.batch *
      (toSize job.m * toSize job.k + toSize job.k * toSize job.n + toSize job.m * toSize job.n) : ℕ) : ℤ) := by
  obtain ⟨hm, hn, hk, hb⟩ := h.sizes
  push_cast
  rw [hm, hn, hk, hb]
  rfl

/-- `bytes_required` is the exact size modulo `2^64`. -/
theorem bytes_required_eq {job : InferenceJob} (h : job.Positive) :
    (job.bytes_required : ℤ) = job.exactBytes % (wordSize : ℤ) := by
  rw [h.exactBytes_eq, ← Int.natCast_mod]
  congr 1
  simp only [bytes_required, mulSize, addSize, Nat.mod_mul_mod, Nat.add_mod_mod, Nat.mod_add_mod]
  congr 1
  ring

theorem bytes_required_lt (job : InferenceJob) : job.bytes_required < wordSize := Nat.mod_lt _ wordSize_pos

/-- `bytes_required` is exact for the jobs whose exact size fits in a word, and for no others. -/
theorem bytes_required_eq_iff {job : InferenceJob} (h : job.Positive) :
    (job.bytes_required : ℤ) = job.exactBytes ↔ job.exactBytes < (wordSize : ℤ) := by
  have hnn : 0 ≤ job.exactBytes := by rw [h.exactBytes_eq]; exact Int.natCast_nonneg _
  constructor
  · intro he
    rw [← he]
    exact_mod_cast job.bytes_required_lt
  · intro hlt
    rw [bytes_required_eq h, Int.emod_eq_of_lt hnn hlt]

end InferenceJob

/-- The comparator of the priority queue: whether `a` comes after `b`, highest
priority first and first-in first-out within a priority. -/
def JobPriorityCompare (a b : InferenceJob) : Bool :=
  if a.priority ≠ b.priority then a.priority < b.priority else a.seq > b.seq

end Gbis.Sched
