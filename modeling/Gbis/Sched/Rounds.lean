import Gbis.Sched.Selection
import Mathlib.Algebra.BigOperators.Intervals

/-!
# Rounds of packing

What a job waits for when `pack_jobs` is called round after round, each time on what the
last round left and what has arrived since. When every job fits the budget of each round
by itself, the first job of a round is always selected; so in a round that leaves `job`,
some job is selected that was submitted less than an aging interval after it
(`exists_rival_selected`). A round has one such job fewer for the next, and the jobs that
arrive an interval later than `job` do not count: `job` waits for no more rounds than there
are other jobs submitted before its interval is over (`selected_within`).

The comment on the aging interval in `src/src/sched/scheduler.cpp` puts the bound at an
interval and one round; this is the bound in rounds that the order does give.
-/

namespace Gbis.Sched

open Library

variable {job : InferenceJob} {n : ℕ}

/-- A call of `pack_jobs`. -/
structure Round where
  /-- The clock. -/
  now : ℤ
  /-- What is given to `pack_jobs`. -/
  candidates : List InferenceJob
  /-- Those of the candidates that have come since the round before. -/
  arrivals : List InferenceJob
  /-- The budget. -/
  budget_bytes : ℕ
  /-- The cap. -/
  max_batch : Int32

/-- What the round selects and leaves. -/
def Round.packed (r : Round) : Packed := pack_jobs r.now r.candidates r.budget_bytes r.max_batch

/-- The first `n` rounds: each is given what the last one left and the arrivals, and every
pending job has been submitted and fits the budget by itself. -/
structure Rounds (n : ℕ) (r : ℕ → Round) : Prop where
  clock : ∀ i : ℕ, i + 1 < n → (r i).now ≤ (r (i + 1)).now
  pending : ∀ i : ℕ, i + 1 < n →
    List.Perm (r (i + 1)).candidates ((r i).packed.remaining ++ (r (i + 1)).arrivals)
  submitted : ∀ i : ℕ, i < n → ∀ c ∈ (r i).candidates, c.submit_time ≠ 0 ∧ c.submit_time ≤ (r i).now
  budget : ∀ i : ℕ, i < n → (r i).budget_bytes < 2 ^ 63
  fits : ∀ i : ℕ, i < n → ∀ c ∈ (r i).candidates, c.bytes_required ≤ (r i).budget_bytes

/-- Whether a job was submitted before `job` had waited a full aging interval. -/
def rival (job c : InferenceJob) : Bool := c.submit_time < job.submit_time + 1000 * 1000000

/-- The jobs other than `job` that are pending in some of the first `n` rounds. -/
def othersPending (r : ℕ → Round) (job : InferenceJob) (n : ℕ) : List InferenceJob :=
  (r 0).candidates.erase job ++ (List.range (n - 1)).flatMap fun i => (r (i + 1)).arrivals

/-! ### One round -/

theorem Round.packed_perm (r : Round) : List.Perm (r.packed.selected ++ r.packed.remaining) r.candidates :=
  pack_jobs_perm r.now r.candidates r.budget_bytes r.max_batch

/-- The bucket of a submitted job is its wait in whole intervals. -/
theorem age_bucket_eq {now : ℤ} {c : InferenceJob} (h : c.submit_time ≠ 0 ∧ c.submit_time ≤ now) :
    age_bucket now c = (now - c.submit_time) / (1000 * 1000000) := by
  have hwait : 0 ≤ now - c.submit_time := by omega
  unfold age_bucket kAgingIntervalMs
  rw [if_neg h.1, Int.tdiv_eq_ediv_of_nonneg hwait]
  dsimp only
  split
  · rw [Int.tdiv_eq_ediv_of_nonneg (by omega), Int.ediv_ediv_of_nonneg (by norm_num)]
    rfl
  · omega

/-- A job that comes before another in the order was submitted less than an interval after it. -/
theorem rival_of_packKey_le {now : ℤ} {c : InferenceJob} (hc : c.submit_time ≠ 0 ∧ c.submit_time ≤ now)
    (hj : job.submit_time ≠ 0 ∧ job.submit_time ≤ now) (hle : packKey now c ≤ packKey now job) :
    rival job c = true := by
  have hbucket : age_bucket now job ≤ age_bucket now c := by
    rcases Prod.Lex.toLex_le_toLex.mp hle with h | h
    · exact (neg_lt_neg_iff.mp h).le
    · exact (neg_inj.mp h.1).ge
  rw [age_bucket_eq hc, age_bucket_eq hj] at hbucket
  unfold rival
  rw [decide_eq_true_eq]
  omega

/-- **A round that leaves `job` selects a rival of it**, when every candidate fits the budget. -/
theorem exists_rival_selected {r : Round} (hsub : ∀ c ∈ r.candidates, c.submit_time ≠ 0 ∧ c.submit_time ≤ r.now)
    (hfits : ∀ c ∈ r.candidates, c.bytes_required ≤ r.budget_bytes) (hj : job ∈ r.candidates)
    (hnot : job ∉ r.packed.selected) : ∃ c ∈ r.packed.selected, c ≠ job ∧ rival job c = true := by
  have horder := packOrder_perm r.now r.candidates
  have hsorted := packOrder_sorted r.now r.candidates
  cases ho : packOrder r.now r.candidates with
  | nil =>
    rw [ho] at horder
    cases horder.mem_iff.mpr hj
  | cons first rest =>
    rw [ho] at horder hsorted
    have hfirst : first ∈ r.candidates := horder.mem_iff.mp List.mem_cons_self
    have hsel : first ∈ r.packed.selected := by
      rw [Round.packed, pack_jobs, ho, greedy_cons_of_fits (packFits_zero.mpr (hfits first hfirst))]
      exact List.mem_cons_self
    have hne : first ≠ job := fun he => hnot (he ▸ hsel)
    have hjrest : job ∈ rest := (List.mem_cons.mp (horder.mem_iff.mpr hj)).resolve_left hne.symm
    exact ⟨first, hsel, hne,
      rival_of_packKey_le (hsub first hfirst) (hsub job hj) ((List.pairwise_cons.mp hsorted).1 job hjrest)⟩

/-- The rivals of `job` among the jobs other than it. -/
def rivals (job : InferenceJob) (jobs : List InferenceJob) : ℕ := (jobs.erase job).countP (rival job)

/-- A round that leaves `job` leaves it fewer rivals. -/
theorem rivals_remaining_lt {r : Round} (hsub : ∀ c ∈ r.candidates, c.submit_time ≠ 0 ∧ c.submit_time ≤ r.now)
    (hfits : ∀ c ∈ r.candidates, c.bytes_required ≤ r.budget_bytes) (hj : job ∈ r.candidates)
    (hnot : job ∉ r.packed.selected) : rivals job r.packed.remaining < rivals job r.candidates := by
  obtain ⟨c, hc, -, hrival⟩ := exists_rival_selected hsub hfits hj hnot
  have hperm := r.packed_perm.erase job
  rw [List.erase_append_right _ hnot] at hperm
  have hcount := hperm.countP_eq (rival job)
  rw [List.countP_append] at hcount
  have hpos : 0 < r.packed.selected.countP (rival job) := List.countP_pos_iff.mpr ⟨c, hc, hrival⟩
  unfold rivals
  omega

/-! ### Round after round -/

/-- While `job` is left it stays a candidate, and each round has cost it a rival. -/
theorem Rounds.waits {r : ℕ → Round} (h : Rounds n r) (hj : job ∈ (r 0).candidates) {i : ℕ} (hi : i < n)
    (hleft : ∀ k : ℕ, k < i → job ∉ (r k).packed.selected) :
    job ∈ (r i).candidates ∧ rivals job (r i).candidates + i ≤ (othersPending r job (i + 1)).countP (rival job) := by
  induction i with
  | zero => exact ⟨hj, by simp [othersPending, rivals]⟩
  | succ i ih =>
    obtain ⟨hmem, hcount⟩ := ih (by omega) fun k hk => hleft k (by omega)
    have hnot := hleft i (by omega)
    have hrem : job ∈ (r i).packed.remaining := by
      have hall := (r i).packed_perm.mem_iff.mpr hmem
      exact (List.mem_append.mp hall).resolve_left hnot
    have hlt := rivals_remaining_lt (h.submitted i (by omega)) (h.fits i (by omega)) hmem hnot
    have hnext := h.pending i hi
    have hrivals : rivals job (r (i + 1)).candidates =
        rivals job (r i).packed.remaining + (r (i + 1)).arrivals.countP (rival job) := by
      unfold rivals
      rw [(hnext.erase job).countP_eq, List.erase_append_left _ hrem, List.countP_append]
    have hseen : (othersPending r job (i + 1 + 1)).countP (rival job) =
        (othersPending r job (i + 1)).countP (rival job) + (r (i + 1)).arrivals.countP (rival job) := by
      simp [othersPending, List.range_succ, List.countP_append, Nat.add_assoc]
    refine ⟨hnext.mem_iff.mpr (List.mem_append_left _ hrem), ?_⟩
    omega

/-- **A job is selected within as many rounds as it has rivals, and one**: if fewer than `n`
other jobs pending in the first `n` rounds were submitted before `job` had waited an
interval, one of these rounds selects it. Whatever arrives later makes no difference: when
all arrivals are submitted an interval after it, as many rounds as there are candidates in
the first are enough. -/
theorem selected_within {r : ℕ → Round} (h : Rounds n r) (hj : job ∈ (r 0).candidates) :
    ((othersPending r job n).countP (rival job) < n → ∃ i < n, job ∈ (r i).packed.selected) ∧
      ((∀ i : ℕ, 0 < i → i < n → ∀ c ∈ (r i).arrivals, job.submit_time + 1000 * 1000000 ≤ c.submit_time) →
        (r 0).candidates.length ≤ n → ∃ i < n, job ∈ (r i).packed.selected) := by
  have hfew : (othersPending r job n).countP (rival job) < n → ∃ i < n, job ∈ (r i).packed.selected := by
    intro hlt
    by_contra hnone
    push Not at hnone
    obtain ⟨m, rfl⟩ := Nat.exists_eq_add_of_lt (Nat.zero_lt_of_lt hlt)
    rw [Nat.zero_add] at *
    obtain ⟨hmem, hcount⟩ := h.waits hj (Nat.lt_succ_self m) fun k hk => hnone k (by omega)
    have hpos := rivals_remaining_lt (h.submitted m (by omega)) (h.fits m (by omega)) hmem (hnone m (by omega))
    omega
  refine ⟨hfew, fun hlate hlen => hfew ?_⟩
  have hnone : ((List.range (n - 1)).flatMap fun i => (r (i + 1)).arrivals).countP (rival job) = 0 := by
    rw [List.countP_eq_zero]
    intro c hc
    obtain ⟨i, hi, hc⟩ := List.mem_flatMap.mp hc
    have hle := hlate (i + 1) (Nat.succ_pos i) (by have := List.mem_range.mp hi; omega) c hc
    simpa [rival] using hle
  have hfirst := List.countP_le_length (p := rival job) (l := (r 0).candidates.erase job)
  have hpos := List.length_pos_of_mem hj
  rw [List.length_erase_of_mem hj] at hfirst
  rw [othersPending, List.countP_append, hnone]
  omega

/-- A job of twenty-four bytes beside one of twelve, submitted with it; a small one arrives
two seconds later. Each round has room for one job. -/
def twoRounds : ℕ → Round
  | 0 =>
    { now := 10, arrivals := [], budget_bytes := 24, max_batch := 1
      candidates := [{ m := 1, n := 1, k := 1, batch := 2, seq := 0, submit_time := 1 },
        { m := 1, n := 1, k := 1, seq := 1, submit_time := 1 }] }
  | _ =>
    { now := 2500000000, budget_bytes := 24, max_batch := 1
      arrivals := [{ m := 1, n := 1, k := 1, seq := 2, submit_time := 2000000000 }]
      candidates := [{ m := 1, n := 1, k := 1, seq := 2, submit_time := 2000000000 },
        { m := 1, n := 1, k := 1, batch := 2, seq := 0, submit_time := 1 }] }

theorem twoRounds_rounds : Rounds 2 twoRounds where
  clock := by
    intro i hi
    obtain rfl : i = 0 := by omega
    decide
  pending := by
    intro i hi
    obtain rfl : i = 0 := by omega
    decide +kernel
  submitted := by decide
  budget := by decide
  fits := by decide +kernel

/-- The large job is selected in one of the two rounds. -/
theorem selected_within_two : ∃ i < 2,
    ({ m := 1, n := 1, k := 1, batch := 2, seq := 0, submit_time := 1 } : InferenceJob) ∈
      (twoRounds i).packed.selected :=
  (selected_within twoRounds_rounds (by decide)).1 (by decide +kernel)

end Gbis.Sched
