import Gbis.Sched.Lookahead

/-!
# When everything is done

What can be concluded from the counters alone. `submitted_` counts the jobs whose client has
passed its count, and every job has its number by then; `completed_` counts entries of
`metrics_`, each of another job. So once every client has returned and `completed_` has
caught up with `submitted_`, every job has its entry, and is nowhere else
(`allDone_of_completed`).
-/

namespace Gbis.Sched

open Gbis.Core Library

variable {o : Options} {s t : State} {a : Action}

/-- Whether a client has pushed its job and not counted it. -/
def SubmitPc.isPushed : SubmitPc → Bool
  | .pushed _ => true
  | _ => false

/-- Whether `submit()` has returned. -/
def SubmitPc.isReturned : SubmitPc → Bool
  | .returned _ => true
  | _ => false

/-- Every job that has been submitted has exactly one entry in `metrics_`, and is nowhere else. -/
structure AllDone (s : State) : Prop where
  returned : ∀ p ∈ s.submits, ∃ seq, p = .returned seq ∧ seq < s.next_seq_
  recorded : ∀ seq < s.next_seq_, (s.metrics_.map JobMetrics.seq).count seq = 1
  queue_ : s.queue_ = []
  undecided : s.dispatcher.undecided = []
  chosen : s.dispatcher.chosen = []
  batch_queue_ : s.batch_queue_ = []
  unrecorded : ∀ w ∈ s.workers, w.pc.unrecorded = []

/-! ### `submitted_` -/

/-- `submitted_` and the clients that have yet to count make up the numbers handed out, and
every client's number is one of them. -/
structure SubmitsCounted (s : State) : Prop where
  sum : s.submitted_ + (s.submits.map fun p => p.isPushed.toNat).sum = s.next_seq_
  lt : ∀ p ∈ s.submits, ∀ seq, p = .pushed seq ∨ p = .counted seq ∨ p = .returned seq → seq < s.next_seq_

theorem ClientStep.submitsCounted (h : ClientStep s a t) (hs : SubmitsCounted s) : SubmitsCounted t := by
  obtain ⟨hsum, hlt⟩ := hs
  cases h with
  | tick => exact ⟨hsum, hlt⟩
  | submit =>
    refine ⟨by simpa [SubmitPc.isPushed] using hsum, fun p hp seq hseq => ?_⟩
    rcases List.mem_append.mp hp with hp | hp
    · exact hlt p hp seq hseq
    · rw [List.mem_singleton.mp hp] at hseq
      simp at hseq
  | push hi =>
    obtain ⟨rest, h₁, h₂⟩ := exists_sum_set (fun p : SubmitPc => p.isPushed.toNat) hi
    rw [h₁] at hsum
    refine ⟨(congrArg _ (h₂ _)).trans ?_, fun p hp seq hseq => ?_⟩
    · simp only [SubmitPc.isPushed, Bool.toNat_false, Bool.toNat_true] at hsum ⊢
      omega
    · rcases List.mem_or_eq_of_mem_set hp with hp | rfl
      · exact Nat.lt_succ_of_lt (hlt p hp seq hseq)
      · obtain rfl : s.next_seq_ = seq := by simpa using hseq
        exact Nat.lt_succ_self _
  | @count i seq hi =>
    obtain ⟨rest, h₁, h₂⟩ := exists_sum_set (fun p : SubmitPc => p.isPushed.toNat) hi
    rw [h₁] at hsum
    refine ⟨(congrArg _ (h₂ _)).trans ?_, fun p hp seq' hseq => ?_⟩
    · simp only [SubmitPc.isPushed, Bool.toNat_false, Bool.toNat_true] at hsum ⊢
      omega
    · rcases List.mem_or_eq_of_mem_set hp with hp | rfl
      · exact hlt p hp seq' hseq
      · obtain rfl : seq = seq' := by simpa using hseq
        exact hlt _ (List.mem_of_getElem? hi) seq (.inl rfl)
  | @notify i seq hi =>
    obtain ⟨rest, h₁, h₂⟩ := exists_sum_set (fun p : SubmitPc => p.isPushed.toNat) hi
    rw [h₁] at hsum
    refine ⟨(congrArg _ (h₂ _)).trans hsum, fun p hp seq' hseq => ?_⟩
    · rcases List.mem_or_eq_of_mem_set hp with hp | rfl
      · exact hlt p hp seq' hseq
      · obtain rfl : seq = seq' := by simpa using hseq
        exact hlt _ (List.mem_of_getElem? hi) seq (.inr (.inl rfl))

/-- The fields the clients write are the same. -/
structure SameClients (s t : State) : Prop where
  submits : t.submits = s.submits
  next_seq_ : t.next_seq_ = s.next_seq_
  submitted_ : t.submitted_ = s.submitted_

theorem State.effect_sameClients (s : State) (c : Call) : SameClients s (s.effect c) := by
  cases c <;> exact ⟨rfl, rfl, rfl⟩

/-- A step is one of a client, or leaves these fields alone. -/
theorem Step.client_cases (h : Step o s a t) : ClientStep s a t ∨ SameClients s t := by
  cases h with
  | client _ h => exact .inl h
  | control _ h => cases h <;> exact .inr ⟨rfl, rfl, rfl⟩
  | dispatcher _ h => cases h <;> exact .inr ⟨rfl, rfl, rfl⟩
  | worker _ h =>
    cases h with
    | call =>
      obtain ⟨h₁, h₂, h₃⟩ := s.effect_sameClients _
      exact .inr ⟨h₁, h₂, h₃⟩
    | _ => exact .inr ⟨rfl, rfl, rfl⟩

theorem submitsCounted (h : Reachable (scheduler o) Always s) : SubmitsCounted s := by
  refine h.invariant (I := SubmitsCounted) ?_ fun {s a t} _ hs hstep _ => ?_
  · rintro _ ⟨t, rfl⟩
    exact ⟨rfl, by simp⟩
  · rcases Step.client_cases hstep with h | ⟨h₁, h₂, h₃⟩
    · exact h.submitsCounted hs
    · exact ⟨by rw [h₁, h₂, h₃]; exact hs.sum, by rw [h₁, h₂]; exact hs.lt⟩

/-- Numbers are only ever handed out. -/
theorem Step.next_seq_le (h : Step o s a t) : s.next_seq_ ≤ t.next_seq_ := by
  rcases h.client_cases with h | h
  · cases h with
    | push => exact Nat.le_succ _
    | _ => exact le_refl _
  · exact h.next_seq_.ge

/-- When every client has returned `submitted_` counts all jobs. -/
theorem submitted_eq (h : Reachable (scheduler o) Always s) (hret : ∀ p ∈ s.submits, p.isReturned = true) :
    s.submitted_ = s.next_seq_ := by
  have hnone : (s.submits.map fun p => p.isPushed.toNat).sum = 0 := by
    refine List.sum_eq_zero fun n hn => ?_
    obtain ⟨p, hp, rfl⟩ := List.mem_map.mp hn
    have hp := hret p hp
    cases p <;> first | rfl | cases hp
  have hsum := (submitsCounted h).sum
  omega

/-! ### `completed_` -/

/-- `completed_` counts entries. -/
theorem completed_le_entries (h : Reachable (scheduler o) Always s) : s.completed_ ≤ s.metrics_.length := by
  have hcounted : Counted s := counted h
  unfold Counted at hcounted
  omega

/-- There are no more entries than numbers handed out. -/
theorem entries_le_next (h : Reachable (scheduler o) Always s) : s.metrics_.length ≤ s.next_seq_ := by
  have hsum := (ledger_simulation.reachable h).sum_hold
  have hsplit := Finset.add_sum_erase Finset.univ s.ledger.hold (Finset.mem_univ Place.metrics)
  have hcard := congrArg Multiset.card (hsplit.trans hsum)
  simp only [Multiset.card_add, Multiset.card_range] at hcard
  have hentries : (s.ledger.hold .metrics).card = s.metrics_.length := by simp [State.ledger, State.hold]
  have hnext : s.ledger.next = s.next_seq_ := rfl
  omega

/-- `completed_` never decreases. -/
theorem Step.completed_le (h : Step o s a t) : s.completed_ ≤ t.completed_ := by
  cases h with
  | client _ h => cases h <;> exact le_refl _
  | control _ h => cases h <;> exact le_refl _
  | dispatcher _ h =>
    cases h with
    | no_gpu | reject => exact Nat.le_add_right _ _
    | _ => exact le_refl _
  | worker _ h =>
    cases h with
    | @call _ _ _ c =>
      cases c with
      | add_completed | fail_batch => exact Nat.le_add_right _ _
      | _ => exact le_refl _
    | _ => exact le_refl _

/-- **Everything is done** once every client has returned and `completed_` has reached the
number of jobs. -/
theorem allDone_of_completed (h : Reachable (scheduler o) Always s) (hret : ∀ p ∈ s.submits, p.isReturned = true)
    (hc : s.next_seq_ ≤ s.completed_) : AllDone s := by
  have hle : s.completed_ ≤ s.metrics_.length := completed_le_entries h
  obtain ⟨hall, hother⟩ := (ledger_simulation.reachable h).hold_eq_range (p := .metrics)
    (by simp only [State.ledger, State.hold, Multiset.coe_card, List.length_map]; omega)
  have hnone : ∀ jobs : List InferenceJob, seqs jobs = 0 → jobs = [] := by
    intro jobs hj
    simpa [seqs] using hj
  refine ⟨fun p hp => ?_, fun seq hseq => ?_, hnone _ (hother .queue (by decide)), hnone _ (hother .round (by decide)),
    hnone _ (hother .chosen (by decide)), ?_, fun w hw => hnone _ ?_⟩
  · have hp' := hret p hp
    cases p with
    | returned seq => exact ⟨seq, rfl, (submitsCounted h).lt _ hp seq (.inr (.inr rfl))⟩
    | _ => cases hp'
  · have hcount : (s.hold .metrics).count seq = 1 := by
      have hall : s.hold .metrics = Multiset.range s.next_seq_ := hall
      rw [hall]
      exact Multiset.count_eq_one_of_mem (Multiset.nodup_range _) (Multiset.mem_range.mpr hseq)
    simpa [State.hold] using hcount
  · have hflat : s.batch_queue_.flatten = [] := hnone _ (hother .batches (by decide))
    rw [List.eq_nil_iff_forall_not_mem]
    intro batch hb
    exact (batched h).batches batch hb (List.flatten_eq_nil_iff.mp hflat batch hb)
  · have hsum : (s.workers.map fun w => seqs w.pc.unrecorded).sum = 0 := hother .workers (by decide)
    obtain ⟨i, hi⟩ := List.mem_iff_getElem?.mp hw
    obtain ⟨rest, hsplit, -⟩ := exists_sum_set (fun w : Worker => seqs w.pc.unrecorded) hi
    refine Multiset.eq_zero_of_forall_notMem fun seq hseq => ?_
    have hmem : seq ∈ rest + seqs w.pc.unrecorded := Multiset.mem_add.mpr (.inr hseq)
    rw [← hsplit, hsum] at hmem
    exact Multiset.notMem_zero seq hmem

end Gbis.Sched
