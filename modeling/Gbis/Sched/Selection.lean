import Gbis.Sched.Packing
import Mathlib.Algebra.Order.BigOperators.Group.Multiset
import Mathlib.Data.Multiset.MapFold

/-!
# What `pack_jobs` selects

The postcondition of `pack_jobs`, for budgets below `2^63`, where its running sum is the
exact one.

The selection is a packing of the candidates in their order, within the budget and the
cap, and it is maximal: each job left is left because the batch is full when the sweep
comes to it, or because it exceeds what the jobs before it leave of the budget
(`pack_jobs_spec`).

The sweep goes on after a rejection, so a job may be taken that comes after one that is
left. Not so within an age bucket, where the sizes ascend and the running sum with them:
of each bucket the sweep takes the first jobs and leaves the others
(`bucket_initial_segment`). Where there is one bucket only, what it takes is the first
jobs of all, which are the smallest, and no more than these can fit together
(`selected_largest`). The comment on `pack_jobs` in `src/src/sched/scheduler.hpp`
promises this much: the largest set, for jobs of an age.
-/

namespace Gbis.Sched

open Library

variable {now : ℤ} {candidates : List InferenceJob} {budget_bytes : ℕ} {max_batch : Int32}

/-- What `pack_jobs` returns: `!selected.empty()`. -/
def Packed.result (r : Packed) : Bool := !r.selected.isEmpty

/-- The batch has no place for `job`, by the jobs of it that come before: it is full, or
they leave too little of the budget. -/
def NoPlace (budget_bytes : ℕ) (max_batch : Int32) (before : List InferenceJob) (job : InferenceJob) : Prop :=
  1 ≤ max_batch.toInt ∧ (before.length : ℤ) = max_batch.toInt ∨ budget_bytes < sumBytes before + job.bytes_required

/-- What a packing of the candidates is to be. -/
structure PackSpec (now : ℤ) (candidates : List InferenceJob) (budget_bytes : ℕ) (max_batch : Int32)
    (r : Packed) : Prop where
  /-- Nothing is lost or duplicated. -/
  perm : List.Perm (r.selected ++ r.remaining) candidates
  /-- The selected jobs are in pack order. -/
  selected_sorted : r.selected.Pairwise fun a b => packKey now a ≤ packKey now b
  /-- So are the others. -/
  remaining_sorted : r.remaining.Pairwise fun a b => packKey now a ≤ packKey now b
  /-- The budget is kept. -/
  sum_le : sumBytes r.selected ≤ budget_bytes
  /-- The cap is kept. -/
  length_le : 1 ≤ max_batch.toInt → (r.selected.length : ℤ) ≤ max_batch.toInt
  /-- Each job left has no place beside the selected jobs before it. -/
  maximal : ∀ (left₁ left₂ : List InferenceJob) (job : InferenceJob), r.remaining = left₁ ++ job :: left₂ →
    ∃ pre post before after : List InferenceJob, packOrder now candidates = pre ++ job :: post ∧
      r.selected = before ++ after ∧ List.Perm (before ++ left₁) pre ∧ List.Perm (after ++ left₂) post ∧
      NoPlace budget_bytes max_batch before job
  /-- Something is selected exactly when some candidate fits the budget. -/
  result_iff : r.result = true ↔ ∃ job ∈ candidates, job.bytes_required ≤ budget_bytes

/-- What a sweep has no room for has no place. -/
theorem noPlace_of_not_packFits (hb : budget_bytes < 2 ^ 63) {l : List InferenceJob} {job : InferenceJob}
    (h : packFits budget_bytes max_batch
      ((greedy (packFits budget_bytes max_batch) packAdd ⟨0, 0⟩ l).1.foldl packAdd ⟨0, 0⟩) job = false) :
    NoPlace budget_bytes max_batch (greedy (packFits budget_bytes max_batch) packAdd ⟨0, 0⟩ l).1 job := by
  have start : Sweep.Within budget_bytes max_batch ⟨0, 0⟩ := Sweep.within_zero
  have hwithin := start.selected l
  rw [← Bool.not_eq_true, packFits_iff hb hwithin, foldl_packAdd_eq hb] at h
  rw [foldl_packAdd_eq hb] at hwithin
  by_cases hfits : sumBytes (greedy (packFits budget_bytes max_batch) packAdd ⟨0, 0⟩ l).1 + job.bytes_required ≤
      budget_bytes
  · have hcap : 1 ≤ max_batch.toInt ∧ max_batch.toInt ≤ _ := not_not.mp fun hcap => h ⟨hcap, hfits⟩
    exact .inl ⟨hcap.1, le_antisymm (hwithin.taken hcap.1) hcap.2⟩
  · exact .inr (not_le.mp hfits)

/-- **The postcondition of `pack_jobs`**, for every budget below `2^63`. -/
theorem pack_jobs_spec (now : ℤ) (candidates : List InferenceJob) (budget_bytes : ℕ) (max_batch : Int32)
    (hb : budget_bytes < 2 ^ 63) :
    PackSpec now candidates budget_bytes max_batch (pack_jobs now candidates budget_bytes max_batch) where
  perm := pack_jobs_perm now candidates budget_bytes max_batch
  selected_sorted := (packOrder_sorted now candidates).sublist (greedy_fst_sublist _ _)
  remaining_sorted := (packOrder_sorted now candidates).sublist (greedy_snd_sublist _ _)
  sum_le := sum_selected_le hb
  length_le := length_selected_le
  maximal := by
    intro left₁ left₂ job h
    obtain ⟨pre, post, ho, hf, hsel, hpre, hpost⟩ := greedy_left h
    exact ⟨pre, post, _, _, ho, hsel, hpre, hpost, noPlace_of_not_packFits hb hf⟩
  result_iff := by
    have hne : (pack_jobs now candidates budget_bytes max_batch).selected ≠ [] ↔ _ := selected_ne_nil_iff
    rw [← hne, Packed.result, Bool.not_eq_true', ← Bool.not_eq_true, List.isEmpty_iff]

/-- Two jobs of twelve bytes and one of twenty-four, in a budget of twenty-four. -/
theorem pack_jobs_spec_small :
    PackSpec 0 [{ m := 1, n := 1, k := 1, batch := 2, seq := 1 }, { m := 1, n := 1, k := 1, seq := 2 },
        { m := 1, n := 1, k := 1, seq := 3 }] 24 8
      (pack_jobs 0 [{ m := 1, n := 1, k := 1, batch := 2, seq := 1 }, { m := 1, n := 1, k := 1, seq := 2 },
        { m := 1, n := 1, k := 1, seq := 3 }] 24 8) :=
  pack_jobs_spec _ _ _ _ (by decide)

/-! ### Within an age bucket -/

/-- The jobs of an age bucket. -/
def ofBucket (now b : ℤ) (jobs : List InferenceJob) : List InferenceJob := jobs.filter fun job => age_bucket now job = b

/-- The order within a bucket: size, priority, sequence number. -/
def sizeKey (job : InferenceJob) : ℕ ×ₗ ℤ ×ₗ ℕ := toLex (job.bytes_required, toLex (-job.priority.toInt, job.seq))

theorem packKey_le_iff {x y : InferenceJob} (h : age_bucket now x = age_bucket now y) :
    packKey now x ≤ packKey now y ↔ sizeKey x ≤ sizeKey y := by
  unfold packKey sizeKey
  rw [Prod.Lex.toLex_le_toLex]
  simp [h]

/-- Of two jobs the first in the order of a bucket is no larger. -/
theorem bytes_le_of_sizeKey_le {x y : InferenceJob} (h : sizeKey x ≤ sizeKey y) :
    x.bytes_required ≤ y.bytes_required := by
  rcases Prod.Lex.toLex_le_toLex.mp h with h | h
  · exact h.le
  · exact h.1.le

/-- Of two jobs of one size the first in the order of a bucket has the higher priority, or
the same and the lower number. -/
theorem priority_of_sizeKey_le {x y : InferenceJob} (h : sizeKey x ≤ sizeKey y)
    (hsize : x.bytes_required = y.bytes_required) :
    y.priority < x.priority ∨ x.priority = y.priority ∧ x.seq ≤ y.seq := by
  rcases Prod.Lex.toLex_le_toLex.mp h with h | ⟨-, h⟩
  · exact absurd hsize h.ne
  · rcases Prod.Lex.toLex_le_toLex.mp h with h | ⟨hp, hs⟩
    · exact .inl (Int32.lt_iff_toInt_lt.mpr (neg_lt_neg_iff.mp h))
    · exact .inr ⟨Int32.toInt_inj.mp (neg_inj.mp hp), hs⟩

/-- What has no room for a job has none for a larger one. -/
theorem not_packFits_of_le (hb : budget_bytes < 2 ^ 63) {st : Sweep} {x y : InferenceJob}
    (h : Sweep.Within budget_bytes max_batch st) (hle : x.bytes_required ≤ y.bytes_required)
    (hx : packFits budget_bytes max_batch st x = false) : packFits budget_bytes max_batch st y = false := by
  rw [← Bool.not_eq_true, packFits_iff hb h] at hx ⊢
  intro ⟨hcap, hsum⟩
  exact hx ⟨hcap, by omega⟩

/-- What has no room for a job has none after taking another. -/
theorem not_packFits_packAdd (hb : budget_bytes < 2 ^ 63) {st : Sweep} {x y : InferenceJob}
    (h : Sweep.Within budget_bytes max_batch st) (hx : packFits budget_bytes max_batch st x = true)
    (hy : packFits budget_bytes max_batch st y = false) :
    packFits budget_bytes max_batch (packAdd st x) y = false := by
  have hadd : (packAdd st x).used = st.used + x.bytes_required := by
    have hle := used_le_of_packFits hx
    have hused := h.used
    exact Nat.mod_eq_of_lt (by unfold wordSize; omega)
  have htaken : (packAdd st x).taken = st.taken + 1 := rfl
  rw [← Bool.not_eq_true, packFits_iff hb h] at hy
  rw [← Bool.not_eq_true, packFits_iff hb (h.add hx), hadd, htaken]
  intro ⟨hcap, hsum⟩
  exact hy ⟨fun hfull => hcap ⟨hfull.1, by push_cast; omega⟩, by omega⟩

/-- The sweep takes the first jobs of a bucket and leaves the others. -/
theorem ofBucket_packOrder (hb : budget_bytes < 2 ^ 63) (b : ℤ) :
    ofBucket now b (packOrder now candidates) =
      ofBucket now b (pack_jobs now candidates budget_bytes max_batch).selected ++
        ofBucket now b (pack_jobs now candidates budget_bytes max_batch).remaining := by
  have hsizes : (packOrder now candidates).Pairwise fun x y => decide (age_bucket now x = b) = true →
      decide (age_bucket now y = b) = true → x.bytes_required ≤ y.bytes_required := by
    refine (packOrder_sorted now candidates).imp fun hkey hx hy => ?_
    have hbucket := (of_decide_eq_true hx).trans (of_decide_eq_true hy).symm
    exact bytes_le_of_sizeKey_le ((packKey_le_iff hbucket).mp hkey)
  have htake : ∀ (st : Sweep) (x : InferenceJob), Sweep.Within budget_bytes max_batch st →
      packFits budget_bytes max_batch st x = true → Sweep.Within budget_bytes max_batch (packAdd st x) :=
    fun _ _ h hf => h.add hf
  have hlater : ∀ (st : Sweep) (x y : InferenceJob), Sweep.Within budget_bytes max_batch st →
      packFits budget_bytes max_batch st x = true → packFits budget_bytes max_batch st y = false →
      packFits budget_bytes max_batch (packAdd st x) y = false :=
    fun _ _ _ h hx hy => not_packFits_packAdd hb h hx hy
  have hlarger : ∀ (st : Sweep) (x y : InferenceJob), Sweep.Within budget_bytes max_batch st →
      x.bytes_required ≤ y.bytes_required → packFits budget_bytes max_batch st x = false →
      packFits budget_bytes max_batch st y = false :=
    fun _ _ _ h hle hx => not_packFits_of_le hb h hle hx
  exact filter_eq_greedy_append htake hlater hlarger Sweep.within_zero hsizes

/-- **Of each age bucket the first jobs are selected** and the others remain: together, the
selected ones first, they are the jobs of the bucket in the order of `sizeKey`. So no job
that comes after one that remains is selected, and of two jobs of one age and size the one
selected alone has the higher priority, or the same and the lower number. -/
theorem bucket_initial_segment (now : ℤ) (candidates : List InferenceJob) (budget_bytes : ℕ) (max_batch : Int32)
    (hb : budget_bytes < 2 ^ 63) (b : ℤ) :
    let r := pack_jobs now candidates budget_bytes max_batch
    List.Perm (ofBucket now b r.selected ++ ofBucket now b r.remaining) (ofBucket now b candidates) ∧
      (ofBucket now b r.selected ++ ofBucket now b r.remaining).Pairwise (fun x y => sizeKey x ≤ sizeKey y) ∧
      ∀ x ∈ ofBucket now b r.selected, ∀ y ∈ ofBucket now b r.remaining,
        sizeKey x ≤ sizeKey y ∧ (x.bytes_required = y.bytes_required →
          y.priority < x.priority ∨ x.priority = y.priority ∧ x.seq ≤ y.seq) := by
  intro r
  have horder : ofBucket now b (packOrder now candidates) = ofBucket now b r.selected ++ ofBucket now b r.remaining :=
    ofBucket_packOrder hb b
  have hsorted : (ofBucket now b r.selected ++ ofBucket now b r.remaining).Pairwise fun x y => sizeKey x ≤
    sizeKey y := by
    rw [← horder, ofBucket, List.pairwise_filter]
    refine (packOrder_sorted now candidates).imp fun hkey hx hy => ?_
    exact (packKey_le_iff ((of_decide_eq_true hx).trans (of_decide_eq_true hy).symm)).mp hkey
  refine ⟨?_, hsorted, ?_⟩
  · rw [← horder]
    exact (packOrder_perm now candidates).filter _
  · intro x hx y hy
    have hkey := (List.pairwise_append.mp hsorted).2.2 x hx y hy
    exact ⟨hkey, priority_of_sizeKey_le hkey⟩

/-- Three jobs of one size, of which one has a place. -/
theorem bucket_initial_segment_equal :
    let r := pack_jobs 0 [{ m := 1, n := 1, k := 1, seq := 0 }, { m := 1, n := 1, k := 1, priority := 2, seq := 1 },
      { m := 1, n := 1, k := 1, priority := 1, seq := 2 }] 12 1
    ∀ x ∈ ofBucket 0 0 r.selected, ∀ y ∈ ofBucket 0 0 r.remaining,
      sizeKey x ≤ sizeKey y ∧ (x.bytes_required = y.bytes_required →
        y.priority < x.priority ∨ x.priority = y.priority ∧ x.seq ≤ y.seq) :=
  (bucket_initial_segment 0 _ 12 1 (by decide) 0).2.2

/-! ### Where there is one bucket -/

/-- With one bucket the sweep takes the first jobs of all. -/
theorem packOrder_of_one_bucket (hb : budget_bytes < 2 ^ 63) {b : ℤ} (hage : ∀ c ∈ candidates, age_bucket now c = b) :
    packOrder now candidates = (pack_jobs now candidates budget_bytes max_batch).selected ++
      (pack_jobs now candidates budget_bytes max_batch).remaining := by
  have hall : ∀ jobs : List InferenceJob, (∀ c ∈ jobs, c ∈ candidates) → ofBucket now b jobs = jobs :=
    fun jobs hjobs => List.filter_eq_self.mpr fun c hc => decide_eq_true (hage c (hjobs c hc))
  have horder : _ = ofBucket now b (pack_jobs now candidates budget_bytes max_batch).selected ++ _ :=
    ofBucket_packOrder hb b
  rwa [hall _ fun _ hc => mem_of_mem_selected hc, hall _ fun _ hc => mem_of_mem_remaining hc,
    hall _ fun _ hc => (packOrder_perm now candidates).mem_iff.mp hc] at horder

/-- With one bucket the sizes ascend. -/
theorem sizes_ascend {b : ℤ} (hage : ∀ c ∈ candidates, age_bucket now c = b) :
    ((packOrder now candidates).map InferenceJob.bytes_required).Pairwise (· ≤ ·) := by
  rw [List.pairwise_map]
  refine (packOrder_sorted now candidates).imp_of_mem fun hx hy hkey => ?_
  have hx := hage _ ((packOrder_perm now candidates).mem_iff.mp hx)
  have hy := hage _ ((packOrder_perm now candidates).mem_iff.mp hy)
  exact bytes_le_of_sizeKey_le ((packKey_le_iff (hx.trans hy.symm)).mp hkey)

/-- With one bucket no more jobs can fit than are selected: more of them would weigh as much
as the selected ones and the first job left. -/
theorem length_le_selected (hb : budget_bytes < 2 ^ 63) {b : ℤ} (hage : ∀ c ∈ candidates, age_bucket now c = b)
    {T : List InferenceJob} (hT : List.Subperm T candidates) (hsum : sumBytes T ≤ budget_bytes)
    (hcap : 1 ≤ max_batch.toInt → (T.length : ℤ) ≤ max_batch.toInt) :
    T.length ≤ (pack_jobs now candidates budget_bytes max_batch).selected.length := by
  by_contra hmore
  have hspec := pack_jobs_spec now candidates budget_bytes max_batch hb
  have horder : packOrder now candidates = (pack_jobs now candidates budget_bytes max_batch).selected ++ _ :=
    packOrder_of_one_bucket hb hage
  have hlen := hspec.perm.length_eq
  have hTlen := hT.length_le
  rw [List.length_append] at hlen
  cases hleft : (pack_jobs now candidates budget_bytes max_batch).remaining with
  | nil =>
    rw [hleft, List.length_nil] at hlen
    omega
  | cons job left =>
    obtain ⟨pre, post, before, after, -, hsel, -, -, hno⟩ := hspec.maximal [] left job hleft
    have hbefore : sumBytes before ≤ sumBytes (pack_jobs now candidates budget_bytes max_batch).selected := by
      rw [hsel, sumBytes_append]
      exact Nat.le_add_right _ _
    rcases hno with ⟨hpos, hfull⟩ | hover
    · have hcap := hcap hpos
      rw [hsel, List.length_append] at hmore
      omega
    · -- the jobs of `T` weigh as much as the first ones, among which are the selected and `job`
      obtain ⟨U, hU, hsub⟩ := hT.trans (packOrder_perm now candidates).symm.subperm
      have hweigh := sum_take_le_of_subperm (sizes_ascend hage) ⟨U.map _, hU.map _, hsub.map _⟩
      rw [horder, hleft, List.length_map, ← List.map_take] at hweigh
      have hfirst : List.Sublist ((pack_jobs now candidates budget_bytes max_batch).selected ++ [job])
          (((pack_jobs now candidates budget_bytes max_batch).selected ++ job :: left).take T.length) := by
        rw [List.take_append, List.take_of_length_le (by omega)]
        refine List.Sublist.append_left ?_ _
        obtain ⟨n, hn⟩ := Nat.exists_eq_add_of_lt (not_le.mp hmore)
        rw [hn, Nat.add_assoc, Nat.add_sub_cancel_left, List.take_succ_cons]
        exact List.singleton_sublist.mpr List.mem_cons_self
      have hle := sumBytes_le_of_sublist hfirst
      rw [sumBytes_append, sumBytes_cons, sumBytes_nil] at hle
      change sumBytes _ ≤ sumBytes T at hweigh
      omega

/-- **No more jobs can fit than are selected**, where all candidates are of one age bucket. -/
theorem selected_largest (now : ℤ) (candidates : List InferenceJob) (budget_bytes : ℕ) (max_batch : Int32)
    (hb : budget_bytes < 2 ^ 63) {b : ℤ} (hage : ∀ c ∈ candidates, age_bucket now c = b)
    (jobs : Multiset InferenceJob) (hsub : jobs ≤ (candidates : Multiset InferenceJob))
    (hsum : (jobs.map InferenceJob.bytes_required).sum ≤ budget_bytes)
    (hcap : 1 ≤ max_batch.toInt → (jobs.card : ℤ) ≤ max_batch.toInt) :
    jobs.card ≤ (pack_jobs now candidates budget_bytes max_batch).selected.length := by
  induction jobs using Quotient.inductionOn with
  | h T => exact length_le_selected hb hage (Multiset.coe_le.mp hsub) hsum hcap

/-- Of a job of twenty-four bytes and two of twelve no more than two fit in twenty-four. -/
theorem selected_largest_small :
    ({{ m := 1, n := 1, k := 1, seq := 2 }, { m := 1, n := 1, k := 1, seq := 3 }} : Multiset InferenceJob).card ≤
      (pack_jobs 0 [{ m := 1, n := 1, k := 1, batch := 2, seq := 1 }, { m := 1, n := 1, k := 1, seq := 2 },
        { m := 1, n := 1, k := 1, seq := 3 }] 24 8).selected.length :=
  selected_largest 0 _ 24 8 (by decide) (b := 0) (by decide) _ (by decide) (by decide) (by decide)

end Gbis.Sched
