import Gbis.Sched.Oversized

/-!
# Aging

A job that has waited an interval longer than every other comes first in the order of
`pack_jobs`, and the comment there takes that for a bound on how long it waits. But the
sweep passes over a job that does not fit and goes on with the next, and what it has to
fit into is what the batches in flight leave of the budget. So a job that fits the budget
may be passed over, round after round, in favour of younger and smaller ones:
`aged_job_overtaken` is a round in which the oldest job is.

A round in which the job fits together with all that may come before it, or in which no
younger candidate fits at all, does not overtake it; and as long as every round is like
that, it is not overtaken in any of them (`not_overtaken`). When it is the only job of its
age this is exactly what it takes (`overtaken_iff`).
-/

namespace Gbis.Sched

open Gbis.Core Library

variable {o : Options} {s t u : State} {a : Action} {job : InferenceJob} {candidates : List InferenceJob}
  {now : ℤ} {budget : ℕ} {max_batch : Int32}

/-! ### One round -/

/-- The candidates that may be taken before `job`, and `job`: those that fit the budget by
themselves and do not come after it in the order. -/
def contenders (now : ℤ) (job : InferenceJob) (budget : ℕ) (candidates : List InferenceJob) : List InferenceJob :=
  candidates.filter fun c => !packBefore now job c && c.bytes_required ≤ budget

/-- In this round no younger job can take the place of `job`: it fits together with its
contenders, or no candidate of a younger bucket fits. -/
def Unimpeded (now : ℤ) (job : InferenceJob) (budget : ℕ) (candidates : List InferenceJob) : Prop :=
  job.bytes_required ≤ budget ∧ sumBytes (contenders now job budget candidates) ≤ budget ∨
    ∀ c ∈ candidates, age_bucket now c < age_bucket now job → budget < c.bytes_required

instance (now : ℤ) (job : InferenceJob) (budget : ℕ) (candidates : List InferenceJob) :
    Decidable (Unimpeded now job budget candidates) :=
  inferInstanceAs (Decidable (_ ∨ _))

theorem packKey_lt_of_bucket {y : InferenceJob} (h : age_bucket now y < age_bucket now job) :
    packKey now job < packKey now y :=
  Prod.Lex.toLex_lt_toLex.mpr (.inl (neg_lt_neg h))

/-- The jobs taken before `job` are contenders, and so is `job`. -/
theorem sumBytes_taken_le {pre post : List InferenceJob} (hj : job.bytes_required ≤ budget)
    (ho : packOrder now candidates = pre ++ job :: post) {taken : List InferenceJob} (ht : List.Sublist taken pre)
    (hfit : ∀ c ∈ taken, c.bytes_required ≤ budget) :
    sumBytes taken + job.bytes_required ≤ sumBytes (contenders now job budget candidates) := by
  have hsort := packOrder_sorted now candidates
  rw [ho, List.pairwise_append] at hsort
  have hkeep : ∀ c ∈ taken ++ [job], (!packBefore now job c && c.bytes_required ≤ budget) = true := by
    intro c hc
    rw [Bool.and_eq_true, not_packBefore_iff, decide_eq_true_eq]
    rcases List.mem_append.mp hc with hc | hc
    · exact ⟨hsort.2.2 c (ht.subset hc) job List.mem_cons_self, hfit c hc⟩
    · obtain rfl := List.mem_singleton.mp hc
      exact ⟨le_rfl, hj⟩
  have hsub : List.Sublist (taken ++ [job]) (packOrder now candidates) := by
    rw [ho]
    exact ht.append (List.singleton_sublist.mpr List.mem_cons_self)
  have hfilter := hsub.filter fun c => !packBefore now job c && c.bytes_required ≤ budget
  rw [List.filter_eq_self.mpr hkeep] at hfilter
  calc sumBytes taken + job.bytes_required = sumBytes (taken ++ [job]) := by simp
    _ ≤ sumBytes ((packOrder now candidates).filter fun c => !packBefore now job c && c.bytes_required ≤ budget) :=
        sumBytes_le_of_sublist hfilter
    _ = sumBytes (contenders now job budget candidates) :=
        sumBytes_eq_of_perm ((packOrder_perm now candidates).filter _)

/-- **A job that fits together with its contenders is taken**, unless the batch is full
before its turn, and then nothing that comes after it is. -/
theorem selected_of_contenders_fit (hj : job ∈ candidates) (hfit : job.bytes_required ≤ budget)
    (hsum : sumBytes (contenders now job budget candidates) ≤ budget) :
    job ∈ (pack_jobs now candidates budget max_batch).selected ∨
      ∀ y ∈ (pack_jobs now candidates budget max_batch).selected, packKey now y ≤ packKey now job := by
  obtain ⟨pre, post, ho⟩ := List.append_of_mem ((packOrder_perm now candidates).mem_iff.mpr hj)
  have hsel : (pack_jobs now candidates budget max_batch).selected =
      (greedy (packFits budget max_batch) packAdd ⟨0, 0⟩ pre).1 ++
        (greedy (packFits budget max_batch) packAdd
          ((greedy (packFits budget max_batch) packAdd ⟨0, 0⟩ pre).1.foldl packAdd ⟨0, 0⟩) (job :: post)).1 := by
    rw [pack_jobs, ho, greedy_append]
  set taken := (greedy (packFits budget max_batch) packAdd ⟨0, 0⟩ pre).1
  have htaken : List.Sublist taken pre := greedy_fst_sublist _ _
  by_cases hf : packFits budget max_batch (taken.foldl packAdd ⟨0, 0⟩) job = true
  · refine .inl ?_
    rw [hsel, greedy_cons_of_fits hf]
    simp
  · refine .inr fun y hy => ?_
    -- it does not fail for want of space, so the batch is full
    have hused : addSize (taken.foldl packAdd ⟨0, 0⟩).used job.bytes_required ≤ budget := by
      have hle := sumBytes_taken_le hfit ho htaken fun c hc => by
        obtain ⟨_, _, _, hfc⟩ := exists_fits_of_mem_greedy hc
        exact (used_le_of_packFits hfc).1
      rw [foldl_packAdd_used]
      change addSize (batchBytes taken) _ ≤ _
      rw [batchBytes_eq, addSize, Nat.mod_add_mod]
      exact (Nat.mod_le _ _).trans (hle.trans hsum)
    have hrest : (greedy (packFits budget max_batch) packAdd (taken.foldl packAdd ⟨0, 0⟩) (job :: post)).1 = [] := by
      by_contra hne
      exact hf (packFits_of_room hfit hused hne)
    rw [hsel, hrest, List.append_nil] at hy
    have hsort := packOrder_sorted now candidates
    rw [ho, List.pairwise_append] at hsort
    exact hsort.2.2 y (htaken.subset hy) job List.mem_cons_self

/-- **When a job is the oldest**, alone in its bucket, the round takes a younger one and not
this one exactly if the job exceeds what is left of the budget, and some candidate does not. -/
theorem overtaken_iff (hj : job ∈ candidates)
    (hold : ∀ c ∈ candidates, c ≠ job → age_bucket now c < age_bucket now job) :
    (job ∉ (pack_jobs now candidates budget max_batch).selected ∧
      ∃ y ∈ (pack_jobs now candidates budget max_batch).selected, age_bucket now y < age_bucket now job) ↔
    budget < job.bytes_required ∧ ∃ c ∈ candidates, c.bytes_required ≤ budget := by
  constructor
  · rintro ⟨hnot, y, hy, -⟩
    refine ⟨?_, y, mem_of_mem_selected hy, bytes_le_of_mem_selected hy⟩
    by_contra hle
    -- the job is the first of the order, and is taken
    cases ho : packOrder now candidates with
    | nil => simpa [ho] using (packOrder_perm now candidates).mem_iff.mpr hj
    | cons c rest =>
      have hc : c = job := by
        by_contra hne
        have hmem : c ∈ candidates := (packOrder_perm now candidates).mem_iff.mp (by simp [ho])
        have hlt := packKey_lt_of_bucket (hold c hmem hne)
        have hsort := packOrder_sorted now candidates
        rw [ho, List.pairwise_cons] at hsort
        have hjob : job ∈ c :: rest := ho ▸ (packOrder_perm now candidates).mem_iff.mpr hj
        rcases List.mem_cons.mp hjob with rfl | hjob
        · exact hne rfl
        · exact absurd (hsort.1 job hjob) (not_le.mpr hlt)
      subst hc
      refine hnot ?_
      rw [pack_jobs, ho, greedy_cons_of_fits (packFits_zero.mpr (not_lt.mp hle))]
      exact List.mem_cons_self
  · rintro ⟨hlt, c, hc, hfit⟩
    have hnot : job ∉ (pack_jobs now candidates budget max_batch).selected := fun h =>
      absurd (bytes_le_of_mem_selected h) (not_le.mpr hlt)
    have hne : (pack_jobs now candidates budget max_batch).selected ≠ [] := selected_ne_nil_iff.mpr ⟨c, hc, hfit⟩
    obtain ⟨y, hy⟩ := List.exists_mem_of_ne_nil _ hne
    exact ⟨hnot, y, hy, hold y (mem_of_mem_selected hy) fun he => hnot (he ▸ hy)⟩

/-- An unimpeded job is not overtaken by a younger one. -/
theorem Unimpeded.selected (h : Unimpeded now job budget candidates) (hj : job ∈ candidates) {y : InferenceJob}
    (hy : y ∈ (pack_jobs now candidates budget max_batch).selected) (hage : age_bucket now y < age_bucket now job) :
    job ∈ (pack_jobs now candidates budget max_batch).selected := by
  rcases h with ⟨hfit, hsum⟩ | hnone
  · rcases selected_of_contenders_fit hj hfit hsum with hsel | hbefore
    · exact hsel
    · exact absurd (hbefore y hy) (not_le.mpr (packKey_lt_of_bucket hage))
  · exact absurd (bytes_le_of_mem_selected hy) (not_le.mpr (hnone y (mem_of_mem_selected hy) hage))

/-! ### Round after round -/

/-- Whether the dispatcher is in a round, and has not put back what remains of it. -/
def DispatcherPc.inRound : DispatcherPc → Bool
  | .drained _ | .rejecting .. | .filtered _ | .based .. | .budgeted .. | .packed .. => true
  | _ => false

/-- Where a job is that has been a candidate: in a round, or in the queue while there is no
round, or packed or failed. -/
inductive Followed (job : InferenceJob) (s : State) : Prop where
  | round : job ∈ s.dispatcher.undecided → Followed job s
  | queued : job ∈ s.queue_ → s.dispatcher.inRound = false → Followed job s
  | settled {p : Place} : p.committed → job.seq ∈ s.hold p → Followed job s

theorem Woken.inRound {pc pc' : DispatcherPc} (h : Woken pc pc') : pc'.inRound = pc.inRound := by
  cases h <;> rfl

/-- The queue loses jobs to a drain only. -/
theorem Step.queue_subset (h : Step o s a t) :
    s.queue_ ⊆ t.queue_ ∨ s.dispatcher = .queue_wait ∧ t.dispatcher = .drained (drainOrder s.queue_) := by
  cases h with
  | client _ h =>
    refine .inl ?_
    cases h with
    | push => exact List.subset_append_left _ _
    | _ => exact List.Subset.refl _
  | control _ h => cases h <;> exact .inl (List.Subset.refl _)
  | dispatcher _ h =>
    cases h with
    | drain hd => exact .inr ⟨hd, rfl⟩
    | requeue => exact .inl (List.subset_append_left _ _)
    | _ => exact .inl (List.Subset.refl _)
  | worker _ h =>
    cases h with
    | call => exact .inl ((s.effect_queues _).2.1 ▸ List.Subset.refl _)
    | _ => exact .inl (List.Subset.refl _)

/-- The dispatcher enters a round by a drain only. -/
theorem Step.inRound (h : Step o s a t) (hs : s.dispatcher.inRound = false) :
    t.dispatcher.inRound = false ∨ s.dispatcher = .queue_wait ∧ t.dispatcher = .drained (drainOrder s.queue_) := by
  rcases h.dispatcher_cases with hd | hd | ⟨-, -, hd⟩
  · cases hd with
    | drain hd => exact .inr ⟨hd, rfl⟩
    | keep hd | filter hd | reject hd | fixed hd | free _ hd | no_free _ hd | budget hd | pack hd =>
      rw [hd] at hs
      cases hs
    | _ => exact .inl rfl
  · exact .inl (hd.inRound.trans hs)
  · exact .inl (by rw [hd]; rfl)

theorem mem_hold_metrics {jobs : List InferenceJob} (hj : job ∈ jobs)
    (ht : t.metrics_ = s.metrics_ ++ jobs.map failedMetrics) :
    job.seq ∈ t.hold .metrics := by
  rw [State.hold, ht, List.map_append, List.map_map]
  exact List.mem_append_right _ (List.mem_map_of_mem hj)

/-- A candidate is handed on to the next stage of its round, or fails, or is packed, or is
put back. -/
theorem DispatcherStep.followed (h : DispatcherStep o s a t) (hj : job ∈ s.dispatcher.undecided) : Followed job t := by
  cases h with
  | no_gpu hd =>
    rw [hd] at hj
    exact .settled (p := .metrics) trivial (mem_hold_metrics hj rfl)
  | @keep candidates hd _ ho =>
    rw [hd] at hj
    have hor := (mem_oversized_or_admitted (max_job_bytes o s.total_mem_bytes_) candidates).mpr hj
    rw [ho, List.nil_append] at hor
    exact .round hor
  | filter hd =>
    rw [hd] at hj
    exact .round ((mem_oversized_or_admitted _ _).mpr hj)
  | reject hd =>
    rw [hd] at hj
    rcases List.mem_append.mp hj with hj | hj
    · exact .settled (p := .metrics) trivial (mem_hold_metrics hj rfl)
    · exact .round hj
  | fixed hd | free _ hd | no_free _ hd | budget hd =>
    rw [hd] at hj
    exact .round hj
  | @pack candidates budget hd =>
    rw [hd] at hj
    rcases List.mem_append.mp ((pack_jobs_perm s.clock candidates budget o.max_batch).mem_iff.mpr hj) with hj | hj
    · exact .settled (p := .chosen) trivial (List.mem_map_of_mem hj)
    · exact .round hj
  | requeue hd =>
    rw [hd] at hj
    exact .queued (List.mem_append_right _ hj) rfl
  | space_exit hd | space_pass hd | space_false hd | space_block hd | queue_exit hd | queue_false hd | queue_block hd
  | drain hd | nothing hd | reserve hd | push hd | notify hd | notify_none hd | spurious_space hd | spurious_queue hd =>
    rw [hd] at hj
    cases hj

theorem Step.followed (h : Step o s a t) (hr : Reachable (scheduler o) Always s) (hs : Followed job s) :
    Followed job t := by
  cases hs with
  | round hj =>
    rcases h.dispatcher_of_round (lifecycle hr) (List.ne_nil_of_mem hj) with hd | hd
    · exact hd.followed hj
    · exact .round (hd ▸ hj)
  | queued hj hround =>
    have hdrain : s.dispatcher = .queue_wait ∧ t.dispatcher = .drained (drainOrder s.queue_) → Followed job t := by
      rintro ⟨-, hd⟩
      refine .round ?_
      rw [hd]
      exact (drainOrder_perm s.queue_).mem_iff.mpr hj
    rcases h.inRound hround with hround | hd
    · rcases h.queue_subset with hq | hd
      · exact .queued (hq hj) hround
      · exact hdrain hd
    · exact hdrain hd
  | settled hp hseq =>
    obtain ⟨q, hq, hseq⟩ := mem_hold_of_closed (S := Place.committed) (fun _ _ hm => hm.committed) hr
      (Steps.single (T := scheduler o) h trivial) hp hseq
    exact .settled hq hseq

/-- What the dispatcher is about to pack, and for what budget. -/
def DispatcherPc.packing : DispatcherPc → Option (List InferenceJob × ℕ)
  | .budgeted candidates budget => some (candidates, budget)
  | _ => none

/-- The rounds that `job` is a candidate of do not impede it. -/
def Unhindered (job : InferenceJob) (s : State) : Action → Prop
  | .dispatcher => ∀ p ∈ s.dispatcher.packing, job ∈ p.1 → Unimpeded s.clock job p.2 p.1
  | _ => True

instance (job : InferenceJob) (s : State) : ∀ a, Decidable (Unhindered job s a)
  | .dispatcher => inferInstanceAs (Decidable (∀ p ∈ s.dispatcher.packing, _))
  | .tick _ | .submit _ | .client _ | .start | .probe .. | .spawn | .stop | .notify_all _ | .join | .sample _
  | .notify_worker _ | .worker _ | .answer .. | .spurious_dispatcher | .spurious_worker _ => .isTrue trivial

/-- **A job is not overtaken in any round** of a run whose rounds do not impede it: from the
moment it is a candidate, a job of a younger bucket is packed only together with it, or
when it is no longer waiting. -/
theorem not_overtaken (hu : Reachable (scheduler o) Always u) (hj : job ∈ u.dispatcher.undecided)
    (hrun : Steps (scheduler o) (Unhindered job) u s) (hd : s.dispatcher = .budgeted candidates budget)
    (hok : Unhindered job s .dispatcher) {y : InferenceJob}
    (hy : y ∈ (pack_jobs s.clock candidates budget o.max_batch).selected)
    (hage : age_bucket s.clock y < age_bucket s.clock job) :
    job ∈ (pack_jobs s.clock candidates budget o.max_batch).selected ∨
      job.seq ∉ s.hold .queue ∧ job.seq ∉ s.hold .round := by
  have hall : Reachable (scheduler o) Always s ∧ Followed job s :=
    hrun.preserves (I := fun s => Reachable (scheduler o) Always s ∧ Followed job s)
      (fun hs hstep _ => ⟨hs.1.tail hstep trivial, Step.followed hstep hs.1 hs.2⟩) ⟨hu, .round hj⟩
  obtain ⟨hr, hfollowed⟩ := hall
  cases hfollowed with
  | round hj =>
    rw [hd] at hj
    have hfits := hok (candidates, budget) (by rw [hd]; rfl) hj
    exact .inl (hfits.selected hj hy hage)
  | queued _ hround =>
    rw [hd] at hround
    cases hround
  | settled hp hseq =>
    refine .inr ⟨fun hq => ?_, fun hq => ?_⟩
    · rw [place_unique hr hseq hq] at hp
      exact hp
    · rw [place_unique hr hseq hq] at hp
      exact hp

/-- A job of 24 bytes. -/
def largeJob : InferenceJob := { m := 1, n := 1, k := 1, batch := 2 }

/-- A small job is packed and takes 12 bytes of the budget; a large one is submitted, and a
second later another small one. The dispatcher has drained these two. -/
def agedTrace : List Action :=
  [.start, .probe false 1073741824, .spawn, .spawn, .submit { m := 1, n := 1, k := 1 }, .client 0] ++
    List.replicate 9 .dispatcher ++
  [.notify_worker none, .submit largeJob, .client 1, .tick 1000000000, .submit { m := 1, n := 1, k := 1 }, .client 2,
   .dispatcher, .dispatcher]

/-- The large job of `agedTrace`. -/
def agedJob : InferenceJob := { largeJob with submit_time := 1, seq := 1 }

/-- The small one that waits. -/
def youngJob : InferenceJob := { m := 1, n := 1, k := 1, submit_time := 1000000001, seq := 2 }

/-- One worker, and a fixed budget. -/
def fixedOptions (bytes : UInt64) : Options := { fixed_budget_bytes := bytes, num_workers := 1 }

/-- With a budget of 24 bytes, which the large job fits: it is an interval older than the only
other one that waits; the round packs the other one and puts the large one back. -/
theorem aged_job_overtaken :
    ∃ u s, Reachable (scheduler (fixedOptions 24)) Always u ∧ u.dispatcher = .budgeted [agedJob, youngJob] 12 ∧
      u.queue_ = [] ∧ agedJob.bytes_required ≤ 24 ∧ age_bucket u.clock youngJob < age_bucket u.clock agedJob ∧
      Steps (scheduler (fixedOptions 24)) Always u s ∧ s.dispatcher = .packed [youngJob] [agedJob] := by
  obtain ⟨u, s, hu, hs, hp⟩ := exists_steps_of_follow (fixedOptions 24) Always Always 1
    (agedTrace ++ List.replicate 3 .dispatcher) [.dispatcher]
    (fun u s => u.dispatcher = .budgeted [agedJob, youngJob] 12 && (u.queue_ = [] && (u.clock = 1000000001 &&
      s.dispatcher = .packed [youngJob] [agedJob]))) (by decide)
  simp only [Bool.and_eq_true, decide_eq_true_eq] at hp
  obtain ⟨h₁, h₂, h₃, h₄⟩ := hp
  exact ⟨u, s, hu, h₁, h₂, by decide, by rw [h₃]; decide, hs, h₄⟩

/-- With a budget of 48 bytes both fit into what is left of it, and the round packs both. -/
theorem not_overtaken_both :
    ∃ s : State, agedJob ∈ (pack_jobs s.clock [agedJob, youngJob] 36 (fixedOptions 48).max_batch).selected ∨
      agedJob.seq ∉ s.hold .queue ∧ agedJob.seq ∉ s.hold .round := by
  obtain ⟨u, s, hu, hs, hp⟩ := exists_steps_of_follow (fixedOptions 48) Always (Unhindered agedJob) 1 agedTrace
    (List.replicate 3 .dispatcher)
    (fun u s => u.dispatcher = .drained [agedJob, youngJob] && (s.clock = 1000000001 &&
      (s.dispatcher = .budgeted [agedJob, youngJob] 36 && Unhindered agedJob s .dispatcher))) (by decide +kernel)
  simp only [Bool.and_eq_true, decide_eq_true_eq] at hp
  obtain ⟨h₁, h₂, h₃, h₄⟩ := hp
  refine ⟨s, not_overtaken hu (by simp [h₁, DispatcherPc.undecided]) hs h₃ h₄ (y := youngJob) ?_ ?_⟩
  · rw [h₂]; decide +kernel
  · rw [h₂]; decide +kernel

end Gbis.Sched
