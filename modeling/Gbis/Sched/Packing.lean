import Gbis.Sched.Job
import Gbis.Library.Greedy
import Mathlib.Algebra.Order.BigOperators.Group.List
import Mathlib.Data.List.Sort
import Mathlib.Data.Prod.Lex

/-!
# Packing

`pack_jobs` of `src/src/sched/scheduler.cpp`: given the candidates, a budget and a
batch cap, select jobs to run together. The candidates are sorted by age bucket
(oldest first), then size, priority and sequence number, and one sweep takes each
job that fits the budget left and the cap; the others remain. The clock is read
once, and is the argument `now`.

The order of the sort is that of a key in a linear order (`packBefore_iff`), and the
sweep is a greedy pass (`Gbis.Library.greedy`) whose state is the running sum and
the number taken, as the code keeps them: the sum in `std::size_t`.

* `pack_jobs_perm` — every candidate is selected or remains, once;
* `batchBytes_selected_le` — the sum the code reserves for the batch is at most the
  budget, whatever the sizes; `sum_selected_le` — so is the exact sum, for budgets
  below `2^63`.
-/

namespace Gbis.Sched

open Library

/-! ### The order -/

/-- The aging interval, in milliseconds. -/
def kAgingIntervalMs : ℤ := 1000

/-- How many whole aging intervals a job has waited: `duration_cast` to milliseconds
and the division both truncate. A job without a submission time has bucket `0`. -/
def age_bucket (now : ℤ) (job : InferenceJob) : ℤ :=
  if job.submit_time = 0 then 0
  else
    let wait_ms := (now - job.submit_time).tdiv 1000000
    if wait_ms > 0 then wait_ms.tdiv kAgingIntervalMs else 0

/-- The comparator of the sort. -/
def packBefore (now : ℤ) (a b : InferenceJob) : Bool :=
  if age_bucket now a ≠ age_bucket now b then age_bucket now a > age_bucket now b
  else if a.bytes_required ≠ b.bytes_required then a.bytes_required < b.bytes_required
  else if a.priority ≠ b.priority then a.priority > b.priority
  else a.seq < b.seq

/-- What the comparator compares, as a key in a linear order. -/
def packKey (now : ℤ) (job : InferenceJob) : ℤ ×ₗ ℕ ×ₗ ℤ ×ₗ ℕ :=
  toLex (-age_bucket now job, toLex (job.bytes_required, toLex (-job.priority.toInt, job.seq)))

theorem packBefore_iff (now : ℤ) (a b : InferenceJob) : packBefore now a b = true ↔ packKey now a < packKey now b := by
  unfold packBefore packKey
  simp only [Prod.Lex.toLex_lt_toLex, gt_iff_lt, neg_lt_neg_iff, neg_inj]
  by_cases hb : age_bucket now a = age_bucket now b
  · by_cases hs : a.bytes_required = b.bytes_required
    · by_cases hp : a.priority = b.priority
      · simp [hb, hs, hp]
      · have hp' : a.priority.toInt ≠ b.priority.toInt := fun h => hp (Int32.toInt_inj.mp h)
        simp [hb, hs, hp, hp', Int32.lt_iff_toInt_lt]
    · simp [hb, hs]
  · simp [hb]

/-- `std::stable_sort`: `a` stays before `b` unless `b` compares less. -/
def stable_sort {α : Type} (lt : α → α → Bool) (l : List α) : List α := l.insertionSort fun a b => !lt b a

theorem stable_sort_perm {α : Type} (lt : α → α → Bool) (l : List α) : List.Perm (stable_sort lt l) l :=
  List.perm_insertionSort _ l

/-- A sort by keys: `a` may stand before `b` if its key is not greater. -/
theorem not_lt_iff_key_le {α κ : Type} [LinearOrder κ] {lt : α → α → Bool} {key : α → κ}
    (hlt : ∀ a b, lt a b = true ↔ key a < key b) (a b : α) : (!lt b a) = true ↔ key a ≤ key b := by
  rw [Bool.not_eq_true', ← Bool.not_eq_true, hlt, not_lt]

/-- It puts the elements in the order of their keys. -/
theorem stable_sort_sorted {α κ : Type} [LinearOrder κ] {lt : α → α → Bool} {key : α → κ}
    (hlt : ∀ a b, lt a b = true ↔ key a < key b) (l : List α) :
    (stable_sort lt l).Pairwise fun a b => key a ≤ key b := by
  have htotal : Std.Total fun a b => (!lt b a) = true :=
    ⟨fun a b => by simp only [not_lt_iff_key_le hlt]; exact le_total _ _⟩
  have htrans : IsTrans α fun a b => (!lt b a) = true :=
    ⟨fun a b c => by simp only [not_lt_iff_key_le hlt]; exact le_trans⟩
  exact (List.pairwise_insertionSort _ l).imp fun h => (not_lt_iff_key_le hlt _ _).mp h

/-- **There is one way to sort** elements whose keys are distinct. -/
theorem stable_sort_eq_of_perm {α κ : Type} [LinearOrder κ] {lt : α → α → Bool} {key : α → κ}
    (hlt : ∀ a b, lt a b = true ↔ key a < key b) {l l' : List α} (h : List.Perm l l')
    (hinj : ∀ a ∈ l, ∀ b ∈ l, key a = key b → a = b) : stable_sort lt l = stable_sort lt l' := by
  have hperm : List.Perm (stable_sort lt l) (stable_sort lt l') :=
    ((stable_sort_perm lt l).trans h).trans (stable_sort_perm lt l').symm
  refine List.Perm.eq_of_pairwise ?_ (stable_sort_sorted hlt l) (stable_sort_sorted hlt l') hperm
  intro a b ha hb hab hba
  have hal : a ∈ l := (stable_sort_perm lt l).mem_iff.mp ha
  have hbl : b ∈ l := h.mem_iff.mpr ((stable_sort_perm lt l').mem_iff.mp hb)
  exact hinj a hal b hbl (le_antisymm hab hba)

/-- The candidates in the order the sweep meets them. -/
def packOrder (now : ℤ) (candidates : List InferenceJob) : List InferenceJob :=
  stable_sort (packBefore now) candidates

theorem packOrder_perm (now : ℤ) (candidates : List InferenceJob) :
    List.Perm (packOrder now candidates) candidates := stable_sort_perm _ _

theorem not_packBefore_iff (now : ℤ) (a b : InferenceJob) :
    (!packBefore now b a) = true ↔ packKey now a ≤ packKey now b := not_lt_iff_key_le (packBefore_iff now) a b

/-- The sweep meets the candidates in the order of their keys. -/
theorem packOrder_sorted (now : ℤ) (candidates : List InferenceJob) :
    (packOrder now candidates).Pairwise fun a b => packKey now a ≤ packKey now b :=
  stable_sort_sorted (packBefore_iff now) candidates

/-! ### The sweep -/

/-- What the sweep keeps: `used`, and the size of `selected`. -/
structure Sweep where
  /-- The running sum. -/
  used : ℕ
  /-- The number of jobs taken. -/
  taken : ℕ

/-- Whether the sweep takes a job: neither the cap nor the budget rejects it. -/
def packFits (budget_bytes : ℕ) (max_batch : Int32) (st : Sweep) (job : InferenceJob) : Bool :=
  let need := job.bytes_required
  !(max_batch > 0 && Int32.ofNat st.taken ≥ max_batch) &&
    !(need > budget_bytes || addSize st.used need > budget_bytes)

/-- The sweep after taking a job. -/
def packAdd (st : Sweep) (job : InferenceJob) : Sweep := ⟨addSize st.used job.bytes_required, st.taken + 1⟩

/-- What `pack_jobs` returns through its output parameters. -/
structure Packed where
  /-- The jobs of the batch. -/
  selected : List InferenceJob
  /-- The others. -/
  remaining : List InferenceJob
  deriving DecidableEq

/-- `pack_jobs`, at the clock value `now`. -/
def pack_jobs (now : ℤ) (candidates : List InferenceJob) (budget_bytes : ℕ) (max_batch : Int32) : Packed :=
  let r := greedy (packFits budget_bytes max_batch) packAdd ⟨0, 0⟩ (packOrder now candidates)
  ⟨r.1, r.2⟩

/-- `batch_bytes`: the sizes of a batch added up in `std::size_t`. -/
def batchBytes (batch : List InferenceJob) : ℕ := batch.foldl (fun acc job => addSize acc job.bytes_required) 0

variable (now : ℤ) (candidates : List InferenceJob) (budget_bytes : ℕ) (max_batch : Int32)

/-- Every candidate is selected or remains, once. -/
theorem pack_jobs_perm :
    List.Perm ((pack_jobs now candidates budget_bytes max_batch).selected ++
      (pack_jobs now candidates budget_bytes max_batch).remaining) candidates :=
  (greedy_perm _ _).trans (packOrder_perm now candidates)

theorem foldl_packAdd_used (st : Sweep) (batch : List InferenceJob) :
    (batch.foldl packAdd st).used = batch.foldl (fun acc job => addSize acc job.bytes_required) st.used := by
  induction batch generalizing st with
  | nil => rfl
  | cons job batch ih => exact ih (packAdd st job)

variable {now candidates budget_bytes max_batch}

/-- A job that fits keeps the running sum within the budget. -/
theorem used_le_of_packFits {st : Sweep} {job : InferenceJob} (h : packFits budget_bytes max_batch st job = true) :
    job.bytes_required ≤ budget_bytes ∧ addSize st.used job.bytes_required ≤ budget_bytes := by
  simp only [packFits, Bool.and_eq_true, Bool.not_eq_true', Bool.or_eq_false_iff, decide_eq_false_iff_not,
    not_lt] at h
  exact h.2

/-- Where there is room for a job and something is taken, the job would be: the batch is not
full. -/
theorem packFits_of_room {st : Sweep} {job : InferenceJob} {l : List InferenceJob}
    (hfit : job.bytes_required ≤ budget_bytes)
    (hused : addSize st.used job.bytes_required ≤ budget_bytes)
    (hne : (greedy (packFits budget_bytes max_batch) packAdd st l).1 ≠ []) :
      packFits budget_bytes max_batch st job = true := by
  by_contra hf
  have hfull : (max_batch > 0 && Int32.ofNat st.taken ≥ max_batch) = true := by
    by_contra hnot
    exact hf (by simp [packFits, Bool.not_eq_true _ ▸ hnot, Nat.not_lt.mpr hfit, Nat.not_lt.mpr hused])
  exact hne (greedy_eq_nil_iff.mpr fun c _ => by simp [packFits, hfull])

/-- What holds of the sweep throughout: the budget and the cap are kept. -/
structure Sweep.Within (budget_bytes : ℕ) (max_batch : Int32) (st : Sweep) : Prop where
  used : st.used ≤ budget_bytes
  taken : 1 ≤ max_batch.toInt → (st.taken : ℤ) ≤ max_batch.toInt

theorem Sweep.within_zero : Sweep.Within budget_bytes max_batch ⟨0, 0⟩ :=
  ⟨Nat.zero_le _, fun h => le_trans zero_le_one h⟩

/-- The cap as the code tests it, while no more than the cap have been taken. -/
theorem cap_iff {st : Sweep} (h : Sweep.Within budget_bytes max_batch st) :
    (max_batch > 0 && Int32.ofNat st.taken ≥ max_batch) = true ↔
      1 ≤ max_batch.toInt ∧ max_batch.toInt ≤ st.taken := by
  have hlt := max_batch.toInt_lt
  have hpos : (0 : Int32) < max_batch ↔ 1 ≤ max_batch.toInt := Int32.lt_iff_toInt_lt
  simp only [Bool.and_eq_true, decide_eq_true_eq, gt_iff_lt, ge_iff_le, hpos]
  refine and_congr_right fun hcap => ?_
  have htaken := h.taken hcap
  rw [Int32.le_iff_toInt_le, Int32.toInt_ofNat_of_lt (by omega)]

/-- A taking keeps the budget and the cap. -/
theorem Sweep.Within.add {st : Sweep} {job : InferenceJob} (h : Sweep.Within budget_bytes max_batch st)
    (hf : packFits budget_bytes max_batch st job = true) : Sweep.Within budget_bytes max_batch (packAdd st job) := by
  constructor
  · exact (used_le_of_packFits hf).2
  · intro hcap
    have hroom : ¬ (1 ≤ max_batch.toInt ∧ max_batch.toInt ≤ st.taken) := by
      rw [← cap_iff h]
      simp only [packFits, Bool.and_eq_true, Bool.not_eq_true'] at hf
      simp [hf.1]
    change ((st.taken + 1 : ℕ) : ℤ) ≤ _
    push_cast
    omega

theorem Sweep.Within.selected {st : Sweep} (h : Sweep.Within budget_bytes max_batch st) (l : List InferenceJob) :
    Sweep.Within budget_bytes max_batch
      ((greedy (packFits budget_bytes max_batch) packAdd st l).1.foldl packAdd st) :=
  greedy_invariant (I := Sweep.Within budget_bytes max_batch) (fun _ _ => Sweep.Within.add) h l

/-- **The sum the code computes for the selected batch is at most the budget.** -/
theorem batchBytes_selected_le :
    batchBytes (pack_jobs now candidates budget_bytes max_batch).selected ≤ budget_bytes := by
  have start : Sweep.Within budget_bytes max_batch ⟨0, 0⟩ := Sweep.within_zero
  have hused := (start.selected (packOrder now candidates)).used
  rwa [foldl_packAdd_used] at hused

theorem foldl_packAdd_taken (st : Sweep) (batch : List InferenceJob) :
    (batch.foldl packAdd st).taken = st.taken + batch.length := by
  induction batch generalizing st with
  | nil => rfl
  | cons job batch ih =>
    rw [List.foldl_cons, ih, List.length_cons, packAdd]
    dsimp only
    omega

/-- **At most `max_batch` jobs are selected.** -/
theorem length_selected_le (h : 1 ≤ max_batch.toInt) :
    ((pack_jobs now candidates budget_bytes max_batch).selected.length : ℤ) ≤ max_batch.toInt := by
  have start : Sweep.Within budget_bytes max_batch ⟨0, 0⟩ := Sweep.within_zero
  have htaken := (start.selected (packOrder now candidates)).taken h
  rw [foldl_packAdd_taken] at htaken
  simpa [pack_jobs] using htaken

/-- What the empty batch has room for. -/
theorem packFits_zero {job : InferenceJob} :
    packFits budget_bytes max_batch ⟨0, 0⟩ job = true ↔ job.bytes_required ≤ budget_bytes := by
  have hadd : addSize 0 job.bytes_required = job.bytes_required := by
    rw [addSize, Nat.zero_add, Nat.mod_eq_of_lt job.bytes_required_lt]
  have hcap : max_batch ≤ 0 ∨ 0 < max_batch := by
    rw [Int32.le_iff_toInt_le, Int32.lt_iff_toInt_lt]
    exact le_or_gt _ _
  simp [packFits, hadd, hcap]

/-- Something is selected exactly when some candidate is at most the budget by itself. -/
theorem selected_ne_nil_iff :
    (pack_jobs now candidates budget_bytes max_batch).selected ≠ [] ↔
      ∃ job ∈ candidates, job.bytes_required ≤ budget_bytes := by
  rw [← not_iff_not, not_not, pack_jobs, greedy_eq_nil_iff]
  simp only [← Bool.not_eq_true, packFits_zero, (packOrder_perm now candidates).mem_iff, not_exists, not_and]

/-- Each job selected is at most the budget by itself. -/
theorem bytes_le_of_mem_selected {job : InferenceJob}
    (h : job ∈ (pack_jobs now candidates budget_bytes max_batch).selected) : job.bytes_required ≤ budget_bytes := by
  obtain ⟨_, _, _, hf⟩ := exists_fits_of_mem_greedy h
  exact (used_le_of_packFits hf).1

theorem mem_of_mem_selected {job : InferenceJob}
    (h : job ∈ (pack_jobs now candidates budget_bytes max_batch).selected) : job ∈ candidates :=
  (pack_jobs_perm now candidates budget_bytes max_batch).subset (List.mem_append_left _ h)

theorem mem_of_mem_remaining {job : InferenceJob}
    (h : job ∈ (pack_jobs now candidates budget_bytes max_batch).remaining) : job ∈ candidates :=
  (pack_jobs_perm now candidates budget_bytes max_batch).subset (List.mem_append_right _ h)

/-- The exact sum of the sizes of a batch. -/
def sumBytes (batch : List InferenceJob) : ℕ := (batch.map InferenceJob.bytes_required).sum

@[simp] theorem sumBytes_nil : sumBytes [] = 0 := rfl

@[simp] theorem sumBytes_cons (job : InferenceJob) (batch : List InferenceJob) :
    sumBytes (job :: batch) = job.bytes_required + sumBytes batch := rfl

@[simp] theorem sumBytes_append (xs ys : List InferenceJob) : sumBytes (xs ++ ys) = sumBytes xs + sumBytes ys := by
  simp [sumBytes]

theorem sumBytes_le_of_sublist {xs ys : List InferenceJob} (h : List.Sublist xs ys) : sumBytes xs ≤ sumBytes ys :=
  (h.map _).sum_le_sum fun _ _ => Nat.zero_le _

theorem sumBytes_eq_of_perm {xs ys : List InferenceJob} (h : List.Perm xs ys) : sumBytes xs = sumBytes ys :=
  (h.map _).sum_eq

/-- The code's sum of a batch is the exact sum modulo `2^64`. -/
theorem batchBytes_eq (batch : List InferenceJob) : batchBytes batch = sumBytes batch % wordSize := by
  suffices ∀ acc, batch.foldl (fun acc job => addSize acc job.bytes_required) (acc % wordSize) =
      (acc + sumBytes batch) % wordSize by simpa [batchBytes] using this 0
  induction batch with
  | nil => intro acc; simp
  | cons job batch ih =>
    intro acc
    rw [List.foldl_cons, addSize, Nat.mod_add_mod, ih, sumBytes_cons, Nat.add_assoc]

/-- For budgets below `2^63` the sum of what a sweep takes does not wrap. -/
theorem sum_greedy_le (hb : budget_bytes < 2 ^ 63) {st : Sweep} (hst : st.used ≤ budget_bytes) (l : List InferenceJob) :
    st.used + sumBytes (greedy (packFits budget_bytes max_batch) packAdd st l).1 ≤ budget_bytes := by
  induction l generalizing st with
  | nil => simpa [greedy] using hst
  | cons job l ih =>
    by_cases hf : packFits budget_bytes max_batch st job = true
    · obtain ⟨h₁, h₂⟩ := used_le_of_packFits hf
      -- neither summand reaches `2^63`, so the code's sum is the exact one
      have hadd : (packAdd st job).used = st.used + job.bytes_required :=
        Nat.mod_eq_of_lt (by unfold wordSize; omega)
      have hrest : (packAdd st job).used + _ ≤ budget_bytes := ih h₂
      rw [greedy_cons_of_fits hf, sumBytes_cons]
      omega
    · rw [greedy_cons_of_not_fits (by simpa using hf)]
      exact ih hst

/-- For budgets below `2^63` the sweep tests what it means to: the cap, and the exact sum. -/
theorem packFits_iff (hb : budget_bytes < 2 ^ 63) {st : Sweep} (h : Sweep.Within budget_bytes max_batch st)
    {job : InferenceJob} :
    packFits budget_bytes max_batch st job = true ↔
      ¬ (1 ≤ max_batch.toInt ∧ max_batch.toInt ≤ st.taken) ∧ st.used + job.bytes_required ≤ budget_bytes := by
  have hused := h.used
  have hadd : job.bytes_required ≤ budget_bytes → addSize st.used job.bytes_required = st.used + job.bytes_required :=
    fun hle => Nat.mod_eq_of_lt (by unfold wordSize; omega)
  rw [← cap_iff h, packFits, Bool.and_eq_true]
  simp only [Bool.not_eq_true', ← Bool.not_eq_true, Bool.or_eq_true, decide_eq_true_eq, not_or, not_lt]
  refine and_congr_right fun _ => ⟨fun ⟨hle, hsum⟩ => hadd hle ▸ hsum, fun hsum => ?_⟩
  have hle : job.bytes_required ≤ budget_bytes := by omega
  exact ⟨hle, (hadd hle).symm ▸ hsum⟩

/-- For budgets below `2^63` the sweep keeps the exact sum of what it has taken. -/
theorem foldl_packAdd_eq (hb : budget_bytes < 2 ^ 63) (l : List InferenceJob) :
    ((greedy (packFits budget_bytes max_batch) packAdd ⟨0, 0⟩ l).1.foldl packAdd ⟨0, 0⟩) =
      ⟨sumBytes (greedy (packFits budget_bytes max_batch) packAdd ⟨0, 0⟩ l).1,
        (greedy (packFits budget_bytes max_batch) packAdd ⟨0, 0⟩ l).1.length⟩ := by
  have start : (⟨0, 0⟩ : Sweep).used ≤ budget_bytes := Nat.zero_le _
  have hsum : 0 + sumBytes (greedy (packFits budget_bytes max_batch) packAdd ⟨0, 0⟩ l).1 ≤ budget_bytes :=
    sum_greedy_le hb start l
  have hused := foldl_packAdd_used ⟨0, 0⟩ (greedy (packFits budget_bytes max_batch) packAdd ⟨0, 0⟩ l).1
  have hbytes := batchBytes_eq (greedy (packFits budget_bytes max_batch) packAdd ⟨0, 0⟩ l).1
  rw [Nat.mod_eq_of_lt (by unfold wordSize; omega)] at hbytes
  rw [Sweep.mk.injEq]
  exact ⟨hused.trans hbytes, (foldl_packAdd_taken _ _).trans (Nat.zero_add _)⟩

/-- **For budgets below `2^63` the exact sum of the selected sizes is at most the budget.** -/
theorem sum_selected_le (hb : budget_bytes < 2 ^ 63) :
    sumBytes (pack_jobs now candidates budget_bytes max_batch).selected ≤ budget_bytes := by
  have start : (⟨0, 0⟩ : Sweep).used ≤ budget_bytes := Nat.zero_le _
  simpa [pack_jobs] using sum_greedy_le hb start (packOrder now candidates)

end Gbis.Sched
