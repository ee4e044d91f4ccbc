import Gbis.Sched.Aging

/-!
# First in, first out

Identical jobs, of the same shape and priority, are to be packed in the order of their
sequence numbers, which `submit()` assigns under the lock of the queue. The order of
`pack_jobs` compares sequence numbers last, and age first; and the age of a job is counted
from `submit_time`, which `submit()` sets before it takes the lock. So two clients may pass
the lock in one order and have read the clock in the other, and when a whole interval ends
between their two times, the later job is packed first: `later_job_packed_first`.

That, and a sum that wraps, is all that turns the order around. In a run of rounds in which
identical candidates are of the same bucket, or the one with the smaller number is older
and the sum does not wrap, they are packed in order (`fifo`).
-/

namespace Gbis.Sched

open Gbis.Core Library

variable {o : Options} {s t u : State} {a : Action} {x y job : InferenceJob} {candidates : List InferenceJob}
  {now : ℤ} {budget : ℕ} {max_batch : Int32}

/-- Of the same shape and priority. -/
structure Identical (x y : InferenceJob) : Prop where
  m : x.m = y.m
  n : x.n = y.n
  k : x.k = y.k
  batch : x.batch = y.batch
  priority : x.priority = y.priority

instance (x y : InferenceJob) : Decidable (Identical x y) :=
  decidable_of_iff (x.m = y.m ∧ x.n = y.n ∧ x.k = y.k ∧ x.batch = y.batch ∧ x.priority = y.priority)
    ⟨fun ⟨hm, hn, hk, hb, hp⟩ => ⟨hm, hn, hk, hb, hp⟩, fun ⟨hm, hn, hk, hb, hp⟩ => ⟨hm, hn, hk, hb, hp⟩⟩

theorem Identical.bytes_required (h : Identical x y) : x.bytes_required = y.bytes_required := by
  obtain ⟨hm, hn, hk, hb, -⟩ := h
  simp only [InferenceJob.bytes_required, hm, hn, hk, hb]

/-- The sum of the sizes that the sweep keeps does not wrap. -/
def SumExact (budget : ℕ) (candidates : List InferenceJob) : Prop :=
  budget < 2 ^ 63 ∨ sumBytes candidates < wordSize

instance (budget : ℕ) (candidates : List InferenceJob) : Decidable (SumExact budget candidates) :=
  inferInstanceAs (Decidable (_ ∨ _))

/-- Age does not put `y` before `x`. -/
def AgeAgrees (now : ℤ) (budget : ℕ) (candidates : List InferenceJob) (x y : InferenceJob) : Prop :=
  age_bucket now x = age_bucket now y ∨ age_bucket now y < age_bucket now x ∧ SumExact budget candidates

instance (now : ℤ) (budget : ℕ) (candidates : List InferenceJob) (x y : InferenceJob) :
    Decidable (AgeAgrees now budget candidates x y) :=
  inferInstanceAs (Decidable (_ ∨ _))

/-! ### One round -/

/-- What the sweep has added up is the exact sum. -/
theorem SumExact.used_eq (h : SumExact budget candidates) {l : List InferenceJob}
    (hl : List.Sublist l (packOrder now candidates)) :
    ((greedy (packFits budget max_batch) packAdd ⟨0, 0⟩ l).1.foldl packAdd ⟨0, 0⟩).used =
      sumBytes (greedy (packFits budget max_batch) packAdd ⟨0, 0⟩ l).1 := by
  rw [foldl_packAdd_used]
  change batchBytes _ = _
  rw [batchBytes_eq, Nat.mod_eq_of_lt]
  rcases h with hb | hsum
  · have start : (⟨0, 0⟩ : Sweep).used ≤ budget := Nat.zero_le _
    have hle : 0 + sumBytes (greedy (packFits budget max_batch) packAdd ⟨0, 0⟩ l).1 ≤ budget := sum_greedy_le hb start l
    have hword : (2 : ℕ) ^ 63 < wordSize := by decide
    simp only [Nat.zero_add] at hle
    omega
  · have hsub := sumBytes_le_of_sublist
      ((greedy_fst_sublist _ l).trans hl : (greedy (packFits budget max_batch) packAdd ⟨0, 0⟩ l).1.Sublist _)
    rw [sumBytes_eq_of_perm (packOrder_perm now candidates)] at hsub
    omega

theorem packKey_lt_of_agrees (hid : Identical x y) (hlt : x.seq < y.seq) (h : AgeAgrees now budget candidates x y) :
    packKey now x < packKey now y := by
  rcases h with he | ⟨hage, -⟩
  · simp only [packKey, Prod.Lex.toLex_lt_toLex, he, hid.bytes_required, hid.priority, lt_irrefl, true_and, false_or]
    exact hlt
  · exact packKey_lt_of_bucket hage

/-- What lies between two jobs of the same bucket and size is of that size. -/
theorem bytes_required_of_between {c : InferenceJob} (hage : age_bucket now x = age_bucket now y)
    (hbytes : x.bytes_required = y.bytes_required) (h₁ : packKey now x ≤ packKey now c)
    (h₂ : packKey now c ≤ packKey now y) :
    c.bytes_required = x.bytes_required := by
  simp only [packKey, Prod.Lex.toLex_le_toLex] at h₁ h₂
  omega

theorem packFits_congr {st : Sweep} (h : x.bytes_required = y.bytes_required) :
    packFits budget max_batch st x = packFits budget max_batch st y := by
  simp only [packFits, h]

/-- **Of two identical candidates in the order of their numbers**, the second is taken only
if the first is. -/
theorem AgeAgrees.selected (h : AgeAgrees now budget candidates x y) (hid : Identical x y) (hlt : x.seq < y.seq)
    (hx : x ∈ candidates) (hy : y ∈ (pack_jobs now candidates budget max_batch).selected) :
    x ∈ (pack_jobs now candidates budget max_batch).selected := by
  have hkey := packKey_lt_of_agrees hid hlt h
  obtain ⟨pre, rest, ho⟩ := List.append_of_mem ((packOrder_perm now candidates).mem_iff.mpr hx)
  have hsort := packOrder_sorted now candidates
  rw [ho, List.pairwise_append, List.pairwise_cons] at hsort
  obtain ⟨-, ⟨hafter, hrest⟩, hbefore⟩ := hsort
  rw [pack_jobs, ho, greedy_append] at hy ⊢
  set taken := (greedy (packFits budget max_batch) packAdd ⟨0, 0⟩ pre).1 with htaken
  by_cases hf : packFits budget max_batch (taken.foldl packAdd ⟨0, 0⟩) x = true
  · rw [greedy_cons_of_fits hf]
    simp
  · exfalso
    have hf' : packFits budget max_batch (taken.foldl packAdd ⟨0, 0⟩) x = false := by simpa using hf
    -- `y` comes after `x`
    have hy : y ∈ (greedy (packFits budget max_batch) packAdd (taken.foldl packAdd ⟨0, 0⟩) rest).1 := by
      rw [greedy_cons_of_not_fits hf'] at hy
      rcases List.mem_append.mp hy with hy | hy
      · exact absurd (hbefore y ((greedy_fst_sublist _ _).subset hy) x List.mem_cons_self) (not_le.mpr hkey)
      · exact hy
    obtain ⟨mid, post, rfl, hfy⟩ := exists_fits_of_mem_greedy hy
    rcases h with hage | ⟨-, hexact⟩
    · -- between them lie jobs of their size, of which none fits either
      have hmid : (greedy (packFits budget max_batch) packAdd (taken.foldl packAdd ⟨0, 0⟩) mid).1 = [] := by
        refine greedy_eq_nil_iff.mpr fun c hc => ?_
        rw [List.pairwise_append] at hrest
        have hbytes := bytes_required_of_between hage hid.bytes_required (hafter c (List.mem_append_left _ hc))
          (hrest.2.2 c hc y List.mem_cons_self)
        rw [packFits_congr hbytes, hf']
      rw [hmid, List.foldl_nil, ← packFits_congr hid.bytes_required] at hfy
      exact hf hfy
    · -- what is taken up to `y` includes what is taken up to `x`
      have hpre : List.Sublist pre (packOrder now candidates) := ho ▸ List.sublist_append_left _ _
      have hupto : List.Sublist (pre ++ x :: (mid ++ [y])) (packOrder now candidates) := by
        rw [ho]
        exact (List.Sublist.refl _).append (List.Sublist.cons_cons _ ((List.Sublist.refl _).append (by simp)))
      have h₁ : (taken.foldl packAdd ⟨0, 0⟩).used = sumBytes taken := hexact.used_eq hpre
      have h₂ : ((greedy (packFits budget max_batch) packAdd ⟨0, 0⟩ _).1.foldl packAdd ⟨0, 0⟩).used = _ :=
        hexact.used_eq hupto
      obtain ⟨hfit, hroom⟩ := used_le_of_packFits hfy
      rw [greedy_append, greedy_cons_of_not_fits hf', greedy_append, greedy_cons_of_fits hfy, List.foldl_append,
        List.foldl_append] at h₂
      have hle := h₂.ge.trans hroom
      have hused : (taken.foldl packAdd ⟨0, 0⟩).used + y.bytes_required ≤ budget := by
        rw [h₁]
        rw [sumBytes_append, sumBytes_append, sumBytes_cons, ← htaken] at hle
        omega
      rw [← hid.bytes_required] at hfit hused
      exact hf (packFits_of_room hfit ((Nat.mod_le _ _).trans hused) (List.ne_nil_of_mem hy))

/-- A batch, and what remains, are such that no identical job of a smaller number comes after
one of the batch, or remains. -/
structure PackedInOrder (selected remaining : List InferenceJob) : Prop where
  batch : selected.Pairwise fun y x => Identical x y → ¬ x.seq < y.seq
  rest : ∀ y ∈ selected, ∀ x ∈ remaining, Identical x y → ¬ x.seq < y.seq

/-- Age agrees with the order of the numbers of identical candidates. -/
def AllAgree (now : ℤ) (budget : ℕ) (candidates : List InferenceJob) : Prop :=
  ∀ x ∈ candidates, ∀ y ∈ candidates, Identical x y → x.seq < y.seq → AgeAgrees now budget candidates x y

instance (now : ℤ) (budget : ℕ) (candidates : List InferenceJob) : Decidable (AllAgree now budget candidates) :=
  inferInstanceAs (Decidable (∀ x ∈ candidates, ∀ y ∈ candidates, _))

theorem AllAgree.packedInOrder (h : AllAgree now budget candidates) (hn : (candidates.map InferenceJob.seq).Nodup) :
    PackedInOrder (pack_jobs now candidates budget max_batch).selected
      (pack_jobs now candidates budget max_batch).remaining := by
  refine ⟨?_, fun y hy x hx hid hlt => ?_⟩
  · have hsort : (pack_jobs now candidates budget max_batch).selected.Pairwise
        fun a b => packKey now a ≤ packKey now b :=
      (packOrder_sorted now candidates).sublist (greedy_fst_sublist _ _)
    refine hsort.imp_of_mem fun {y x} hy hx hle hid hlt => ?_
    have hagree := h x (mem_of_mem_selected hx) y (mem_of_mem_selected hy) hid hlt
    exact absurd hle (not_le.mpr (packKey_lt_of_agrees hid hlt hagree))
  · have hx' := (h x (mem_of_mem_remaining hx) y (mem_of_mem_selected hy) hid hlt).selected hid hlt
      (mem_of_mem_remaining hx) hy
    have hnodup := ((pack_jobs_perm now candidates budget max_batch).map InferenceJob.seq).nodup_iff.mpr hn
    rw [List.map_append, List.nodup_append] at hnodup
    exact hnodup.2.2 _ (List.mem_map_of_mem hx') _ (List.mem_map_of_mem hx) rfl

/-! ### Round after round -/

/-- In the rounds age agrees with the order of the numbers of identical candidates. -/
def RoundsAgree (s : State) : Action → Prop
  | .dispatcher => ∀ p ∈ s.dispatcher.packing, AllAgree s.clock p.2 p.1
  | _ => True

instance (s : State) : ∀ a, Decidable (RoundsAgree s a)
  | .dispatcher => inferInstanceAs (Decidable (∀ p ∈ s.dispatcher.packing, _))
  | .tick _ | .submit _ | .client _ | .start | .probe .. | .spawn | .stop | .notify_all _ | .join | .sample _
  | .notify_worker _ | .worker _ | .answer .. | .spurious_dispatcher | .spurious_worker _ => .isTrue trivial

/-- A job that waits was waiting before, or has just been given its number. -/
theorem Step.waiting (h : Step o s a t) (hx : x ∈ t.queue_ ∨ x ∈ t.dispatcher.undecided) :
    (x ∈ s.queue_ ∨ x ∈ s.dispatcher.undecided) ∨ x.seq = s.next_seq_ := by
  cases h with
  | client _ h =>
    rw [h.woken.undecided] at hx
    cases h with
    | push =>
      rcases hx with hx | hx
      · rcases List.mem_append.mp hx with hx | hx
        · exact .inl (.inl hx)
        · exact .inr (by rw [List.mem_singleton.mp hx])
      · exact .inl (.inr hx)
    | _ => exact .inl hx
  | control _ h =>
    have hq : t.queue_ = s.queue_ := by cases h <;> rfl
    rcases h.woken with hw | ⟨-, -, hd⟩
    · exact .inl (hx.imp (fun hx => hq ▸ hx) fun hx => hw.undecided ▸ hx)
    · rw [hq, hd] at hx
      exact .inl (hx.imp id fun hx => by cases hx)
  | dispatcher _ h =>
    refine .inl ?_
    cases h with
    | drain => exact .inl ((drainOrder_perm s.queue_).mem_iff.mp (hx.resolve_left (by simp)))
    | keep hd | filter hd =>
      rw [hd]
      exact hx.imp id fun hx => (mem_oversized_or_admitted _ _).mp
        (by first | exact hx | exact List.mem_append_right _ hx)
    | reject hd => rw [hd]; exact hx.imp id (List.mem_append_right _)
    | fixed hd | free _ hd | no_free _ hd | budget hd => rw [hd]; exact hx
    | pack hd => rw [hd]; exact hx.imp id mem_of_mem_remaining
    | requeue hd =>
      rw [hd]
      exact List.mem_append.mp (hx.resolve_right (by simp [DispatcherPc.undecided]))
    | _ => exact .inl (hx.resolve_right (by simp [DispatcherPc.undecided]))
  | worker _ h =>
    refine .inl ?_
    rw [h.woken.undecided] at hx
    cases h with
    | call => exact hx.imp (fun hx => (s.effect_queues _).2.1 ▸ hx) id
    | _ => exact hx

/-- What a run whose rounds agree keeps: jobs that arrive during a round have larger numbers
than its candidates, and a batch that has just been packed is in order with what remains. -/
structure InOrder (s : State) : Prop where
  arrivals : s.dispatcher.inRound = true → ∀ d ∈ s.dispatcher.undecided ++ s.dispatcher.chosen, ∀ q ∈ s.queue_,
    d.seq < q.seq
  packed : ∀ selected remaining, s.dispatcher = .packed selected remaining → PackedInOrder selected remaining

theorem Woken.packed {pc pc' : DispatcherPc} (h : Woken pc pc') {selected remaining : List InferenceJob}
    (hp : pc' = .packed selected remaining) : pc = .packed selected remaining := by
  cases h <;> simp_all

/-- The other threads add jobs to the queue with new numbers, and wake the dispatcher at most. -/
theorem InOrder.of_woken (hs : InOrder s) (hr : Reachable (scheduler o) Always s) (hd : Woken s.dispatcher t.dispatcher)
    (hq : ∀ q ∈ t.queue_, q ∈ s.queue_ ∨ q.seq = s.next_seq_) : InOrder t := by
  refine ⟨fun hround d hd' q hq' => ?_, fun selected remaining hp => hs.packed _ _ (hd.packed hp)⟩
  rw [hd.inRound] at hround
  rw [hd.undecided, hd.chosen] at hd'
  rcases hq q hq' with hq' | hseq
  · exact hs.arrivals hround d hd' q hq'
  · rw [hseq]
    rcases List.mem_append.mp hd' with hd' | hd'
    · exact seq_lt_next hr (p := .round) (List.mem_map_of_mem hd')
    · exact seq_lt_next hr (p := .chosen) (List.mem_map_of_mem hd')

theorem DispatcherStep.inOrder (h : DispatcherStep o s a t) (hr : Reachable (scheduler o) Always s)
    (ha : RoundsAgree s a)
    (hs : InOrder s) : InOrder t := by
  obtain ⟨harr, -⟩ := hs
  cases h with
  | drain => exact ⟨fun _ d _ q hq => (by cases hq), by simp⟩
  | keep hd | filter hd =>
    refine ⟨fun _ d hd' => harr (by rw [hd]; rfl) d ?_, by simp⟩
    rw [hd]
    simp only [DispatcherPc.undecided, DispatcherPc.chosen, List.append_nil] at hd' ⊢
    exact (mem_oversized_or_admitted _ _).mp (by first | exact hd' | exact List.mem_append_right _ hd')
  | reject hd =>
    refine ⟨fun _ d hd' => harr (by rw [hd]; rfl) d ?_, by simp⟩
    rw [hd]
    simp only [DispatcherPc.undecided, DispatcherPc.chosen, List.append_nil] at hd' ⊢
    exact List.mem_append_right _ hd'
  | fixed hd | free _ hd | no_free _ hd | budget hd =>
    exact ⟨fun _ d hd' => harr (by rw [hd]; rfl) d (by rw [hd]; exact hd'), by simp⟩
  | @pack candidates budget hd =>
    refine ⟨fun _ d hd' => harr (by rw [hd]; rfl) d ?_, fun selected remaining hp => ?_⟩
    · rw [hd]
      refine List.mem_append_left _ ((pack_jobs_perm s.clock candidates budget o.max_batch).mem_iff.mp ?_)
      exact List.mem_append.mpr (List.mem_append.mp hd').symm
    · cases hp
      have hnodup := nodup_hold hr .round
      simp only [State.hold, hd, DispatcherPc.undecided, seqs, Multiset.coe_nodup] at hnodup
      exact AllAgree.packedInOrder (ha (candidates, budget) (by rw [hd]; rfl)) hnodup
  | _ => exact ⟨by simp [DispatcherPc.inRound], by simp⟩

theorem inOrder (h : Reachable (scheduler o) RoundsAgree s) : InOrder s := by
  refine h.invariant ?_ fun {s a t} hr hs hstep ha => ?_
  · rintro _ ⟨t, rfl⟩
    exact ⟨by simp [DispatcherPc.inRound], by simp⟩
  · have hr : Reachable (scheduler o) Always s := hr.mono fun _ _ _ => trivial
    cases hstep with
    | client _ h =>
      refine hs.of_woken hr h.woken fun q hq => ?_
      cases h with
      | push =>
        rcases List.mem_append.mp hq with hq | hq
        · exact .inl hq
        · exact .inr (by rw [List.mem_singleton.mp hq])
      | _ => exact .inl hq
    | control _ h =>
      have hq : t.queue_ = s.queue_ := by cases h <;> rfl
      rcases h.woken with hw | ⟨-, -, hd⟩
      · exact hs.of_woken hr hw fun q hq' => .inl (hq ▸ hq')
      · exact ⟨by simp [hd, DispatcherPc.inRound], by simp [hd]⟩
    | dispatcher _ h => exact h.inOrder hr ha hs
    | worker _ h =>
      refine hs.of_woken hr h.woken fun q hq => .inl ?_
      cases h with
      | call => exact (s.effect_queues _).2.1 ▸ hq
      | _ => exact hq

/-- **Identical jobs are packed first in, first out**, in every run whose rounds agree: when
`y` has been packed, an identical job of a smaller number does not come after it in the
batch, and is not waiting to be packed, now or at any later time. -/
theorem fifo (hu : Reachable (scheduler o) RoundsAgree u) {selected remaining : List InferenceJob}
    (hd : u.dispatcher = .packed selected remaining) (hy : y ∈ selected) (hid : Identical x y) (hlt : x.seq < y.seq) :
    (∀ l₁ l₂, selected = l₁ ++ y :: l₂ → x ∉ l₂) ∧
      ∀ s, Steps (scheduler o) Always u s → x ∉ s.queue_ ∧ x ∉ s.dispatcher.undecided := by
  have hr : Reachable (scheduler o) Always u := hu.mono fun _ _ _ => trivial
  have horder := inOrder hu
  have hpacked := horder.packed _ _ hd
  have hyseq : y.seq ∈ u.hold .chosen := by
    rw [State.hold, hd]
    exact List.mem_map_of_mem hy
  refine ⟨?_, fun s hrun => ?_⟩
  · rintro l₁ l₂ rfl hx
    have hpair := hpacked.batch
    rw [List.pairwise_append, List.pairwise_cons] at hpair
    exact hpair.2.1.1 x hx hid hlt
  · suffices ¬ (x ∈ s.queue_ ∨ x ∈ s.dispatcher.undecided) by simpa using this
    suffices Reachable (scheduler o) Always s ∧ (∃ p, y.seq ∈ s.hold p) ∧
        ¬ (x ∈ s.queue_ ∨ x ∈ s.dispatcher.undecided) from this.2.2
    refine hrun.preserves (I := fun s => Reachable (scheduler o) Always s ∧ (∃ p, y.seq ∈ s.hold p) ∧
      ¬ (x ∈ s.queue_ ∨ x ∈ s.dispatcher.undecided)) (fun {s a t} hs hstep ha => ?_) ⟨hr, ⟨_, hyseq⟩, ?_⟩
    · obtain ⟨hr, ⟨p, hp⟩, hx⟩ := hs
      obtain ⟨q, -, hq⟩ := mem_hold_of_closed (S := fun _ => True) (fun _ _ _ _ => trivial) hr (.single hstep ha)
        trivial hp
      refine ⟨hr.tail hstep ha, ⟨q, hq⟩, fun hx' => ?_⟩
      rcases Step.waiting hstep hx' with hx' | hseq
      · exact hx hx'
      · exact absurd (seq_lt_next hr hp) (by omega)
    · rintro (hx | hx)
      · have := horder.arrivals (by rw [hd]; rfl) y (List.mem_append_right _ (by rw [hd]; exact hy)) x hx
        omega
      · rw [hd] at hx
        exact hpacked.rest y hy x hx hid hlt

/-- The job of the client that reads the clock first. -/
def firstStamped : InferenceJob := { m := 1, n := 1, k := 1, submit_time := 1, seq := 1 }

/-- The identical job of the client that takes the lock first. -/
def firstPushed : InferenceJob := { m := 1, n := 1, k := 1, submit_time := 2, seq := 0 }

/-- Two clients submit identical jobs. The one that reads the clock first takes the lock last,
and the dispatcher packs when its job, and not the other, has just waited a whole interval. -/
def crossingTrace : List Action :=
  [.start, .probe false 1073741824, .spawn, .spawn, .submit { m := 1, n := 1, k := 1 }, .tick 1,
   .submit { m := 1, n := 1, k := 1 }, .client 1, .client 0, .tick 999999999] ++ List.replicate 6 .dispatcher

/-- With batches of one job: the one with the larger number is packed, and the identical one
with the smaller number in a later batch. -/
theorem later_job_packed_first :
    ∃ u s, Reachable (scheduler { fixedOptions 1024 with max_batch := 1 }) Always u ∧
      Identical firstPushed firstStamped ∧
      firstPushed.seq < firstStamped.seq ∧ u.dispatcher = .packed [firstStamped] [firstPushed] ∧
      Steps (scheduler { fixedOptions 1024 with max_batch := 1 }) Always u s ∧
        s.dispatcher = .packed [firstPushed] [] := by
  obtain ⟨u, s, hu, hs, hp⟩ := exists_steps_of_follow { fixedOptions 1024 with max_batch := 1 } Always Always 1
    crossingTrace ([.dispatcher, .dispatcher, .dispatcher, .notify_worker none] ++ List.replicate 6 .dispatcher)
    (fun u s => u.dispatcher = .packed [firstStamped] [firstPushed] && s.dispatcher = .packed [firstPushed] [])
    (by decide +kernel)
  simp only [Bool.and_eq_true, decide_eq_true_eq] at hp
  exact ⟨u, s, hu, by decide, by decide, hp.1, hs, hp.2⟩

/-- The same jobs, packed together before any has waited an interval. -/
theorem fifo_together : ∃ u : State, u.dispatcher = .packed [firstPushed, firstStamped] [] ∧
    (∀ l₁ l₂, [firstPushed, firstStamped] = l₁ ++ firstStamped :: l₂ → firstPushed ∉ l₂) ∧ firstPushed ∉ u.queue_ := by
  obtain ⟨u, hu, hp⟩ := exists_of_follow (fixedOptions 1024) RoundsAgree 1
    ([.start, .probe false 1073741824, .spawn, .spawn, .submit { m := 1, n := 1, k := 1 }, .tick 1,
      .submit { m := 1, n := 1, k := 1 }, .client 1, .client 0] ++ List.replicate 6 .dispatcher)
    (fun u => u.dispatcher = .packed [firstPushed, firstStamped] []) (by decide +kernel)
  simp only [decide_eq_true_eq] at hp
  obtain ⟨hbatch, hwaiting⟩ := fifo (x := firstPushed) (y := firstStamped) hu hp (by simp) (by decide) (by decide)
  exact ⟨u, hp, hbatch, (hwaiting u .refl).1⟩

end Gbis.Sched
