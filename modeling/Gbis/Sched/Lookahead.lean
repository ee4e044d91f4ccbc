import Gbis.Sched.Carried
import Gbis.Sched.Shutdown
import Mathlib.Algebra.BigOperators.Ring.List

/-!
# Lookahead

The dispatcher looks for space in `batch_queue_`, drains the queue, and pushes a batch in
three critical sections, and between them the workers take batches out. What it has found
it keeps: from the moment it is let through until it pushes it holds a slot of `batch_queue_`
(`DispatcherPc.holdsSlot`), and the batches and the slot together are never more than
`max_queue_depth` (`Lookahead`). That is so in every run, whatever is left of an earlier
`stop()`, and gives a bound on the jobs that are committed at any time
(`lookahead_bounded`).
-/

namespace Gbis.Sched

open Gbis.Core Library

variable {o : Options} {s t : State} {a : Action}

/-- Whether the dispatcher has been let through and has not pushed yet. -/
def DispatcherPc.holdsSlot : DispatcherPc → Bool
  | .queue_wait | .queue_false | .queue_blocked | .drained _ | .rejecting .. | .filtered _ | .based .. | .budgeted ..
  | .packed .. | .requeued _ | .reserved _ => true
  | _ => false

/-- The slots of `batch_queue_` in use. -/
def State.slots (s : State) : ℕ := s.batch_queue_.length + s.dispatcher.holdsSlot.toNat

/-- The workers that are still to be created. -/
def ControlPc.toSpawn : ControlPc → ℕ
  | .spawning left => left
  | _ => 0

/-- The workers in their loop, and those still to be created. -/
def State.staff (s : State) : ℕ := (s.workers.map fun w => (!w.pc.isExited).toNat).sum + s.control.toSpawn

/-- `num_workers`, if it is positive. -/
def workerCount (o : Options) : ℕ := o.num_workers.toInt.toNat

theorem Woken.holdsSlot {pc pc' : DispatcherPc} (h : Woken pc pc') : pc'.holdsSlot = pc.holdsSlot := by
  cases h <;> rfl

/-! ### The slots -/

/-- A step that adds no batch, and wakes the dispatcher at most. -/
theorem slots_le_of_woken (hq : t.batch_queue_ = s.batch_queue_ ∨ ∃ batch, s.batch_queue_ = batch :: t.batch_queue_)
    (hd : Woken s.dispatcher t.dispatcher) : t.slots ≤ s.slots := by
  unfold State.slots
  rw [hd.holdsSlot]
  rcases hq with hq | ⟨batch, hq⟩
  · rw [hq]
  · rw [hq, List.length_cons]
    omega

/-- The dispatcher takes a slot when there is one, and uses it once. -/
theorem DispatcherStep.slots_le (h : DispatcherStep o s a t) (hs : s.slots ≤ max_queue_depth o) :
    t.slots ≤ max_queue_depth o := by
  unfold State.slots at hs ⊢
  cases h with
  | space_pass _ _ _ hlt => exact hlt
  | push hd =>
    rw [hd] at hs
    simpa [DispatcherPc.holdsSlot] using hs
  | space_exit hd | space_false hd | space_block hd | queue_exit hd | drain hd | queue_false hd | queue_block hd
  | no_gpu hd | keep hd | filter hd | reject hd | fixed hd | no_free _ hd | free _ hd | budget hd | pack hd | requeue hd
  | nothing hd | reserve hd | notify hd | notify_none hd | spurious_space hd | spurious_queue hd =>
    rw [hd] at hs
    first | exact hs | exact (Nat.le_add_right _ _).trans hs

theorem Step.slots_le (h : Step o s a t) (hs : s.slots ≤ max_queue_depth o) : t.slots ≤ max_queue_depth o := by
  cases h with
  | client _ h =>
    have hq : t.batch_queue_ = s.batch_queue_ := by cases h <;> rfl
    exact (slots_le_of_woken (.inl hq) h.woken).trans hs
  | control _ h =>
    have hq : t.batch_queue_ = s.batch_queue_ := by cases h <;> rfl
    rcases h.woken with hw | ⟨-, -, hd⟩
    · exact (slots_le_of_woken (.inl hq) hw).trans hs
    · -- a new dispatcher holds no slot
      unfold State.slots at hs ⊢
      rw [hd, hq]
      exact (Nat.le_add_right _ _).trans hs
  | dispatcher _ h => exact h.slots_le hs
  | worker _ h =>
    have hd := h.woken
    refine (slots_le_of_woken ?_ hd).trans hs
    cases h with
    | pop _ _ _ hq => exact .inr ⟨_, hq⟩
    | call => exact .inl (s.effect_batch_queue_ _)
    | _ => exact .inl rfl

/-! ### The staff -/

/-- A step that changes one worker, which does not come back. -/
theorem staff_le_of_set {i : ℕ} {w w' : Worker} (hi : s.workers[i]? = some w) (ht : t.workers = s.workers.set i w')
    (hc : t.control = s.control) (hw : w.pc.isExited = true → w'.pc.isExited = true) : t.staff ≤ s.staff := by
  obtain ⟨rest, h₁, h₂⟩ := exists_sum_set (fun w : Worker => (!w.pc.isExited).toNat) hi
  have hle : (!w'.pc.isExited).toNat ≤ (!w.pc.isExited).toNat := by
    cases h : w.pc.isExited with
    | true => simp [hw h]
    | false => exact Bool.toNat_le _
  unfold State.staff
  rw [ht, hc, h₁, h₂]
  omega

/-- A step that leaves the workers, and creates none. -/
theorem staff_le_of_same (hw : t.workers = s.workers) (hc : t.control.toSpawn ≤ s.control.toSpawn) :
    t.staff ≤ s.staff := by
  unfold State.staff
  rw [hw]
  omega

theorem ControlStep.staff_le (h : ControlStep o s a t) (hl : Lifecycle s) (hs : s.staff ≤ workerCount o) :
    t.staff ≤ workerCount o := by
  cases h with
  | probe _ _ hc =>
    -- the workers of earlier starts have left
    have hexited := hl.workers (by simp [State.workersJoined, hc])
    have hnone : (s.workers.map fun w => (!w.pc.isExited).toNat).sum = 0 := by
      refine List.sum_eq_zero fun n hn => ?_
      obtain ⟨w, hw, rfl⟩ := List.mem_map.mp hn
      rw [hexited w hw]
      rfl
    unfold State.staff
    simp only [hnone, Nat.zero_add]
    exact le_refl (workerCount o)
  | spawn hc =>
    unfold State.staff at hs ⊢
    rw [hc] at hs
    simpa [ControlPc.toSpawn, WorkerPc.isExited, add_assoc, add_comm] using hs
  | notify_batch hc =>
    unfold State.staff at hs ⊢
    rw [hc] at hs
    simpa [ControlPc.toSpawn, Function.comp_def, Worker.wake_isExited] using hs
  | start hc | started hc | stop hc | notify_queue hc | notify_space hc | join_dispatcher hc | join_workers hc
  | stopped hc =>
    refine Nat.le_trans (staff_le_of_same ?_ ?_) hs
    · rfl
    · rw [hc]
      exact le_refl 0

theorem WorkerStep.staff_le (h : WorkerStep o s a t) : t.staff ≤ s.staff := by
  cases h with
  | exit hi => exact staff_le_of_set hi rfl rfl fun _ => rfl
  | pop hi hw | found_empty hi hw | block hi hw | done hi hw =>
    exact staff_le_of_set hi rfl rfl fun he => by rw [hw] at he; cases he
  | spurious hi => exact staff_le_of_set hi rfl rfl fun he => by rw [Worker.wake_isExited]; exact he
  | throw => exact le_refl _
  | @call i w turn c k r hi hw =>
    have hset := congrArg (fun ws => ws.set i { w with pc := .running (turn.after c r (k r)) }) (s.effect_workers c)
    exact staff_le_of_set hi hset (s.effect_sameControl c).control fun he => by rw [hw] at he; cases he

theorem Step.staff_le (h : Step o s a t) (hl : Lifecycle s) (hs : s.staff ≤ workerCount o) :
    t.staff ≤ workerCount o := by
  cases h with
  | client _ h =>
    have hsame := h.sameControl
    have hw : t.workers = s.workers := by cases h <;> rfl
    exact (staff_le_of_same hw (by rw [hsame.control])).trans hs
  | control _ h => exact h.staff_le hl hs
  | dispatcher _ h =>
    have hsame := h.sameControl
    have hle : t.staff ≤ s.staff := by
      cases h with
      | notify _ hi => exact staff_le_of_set hi rfl rfl fun he => by rw [Worker.wake_isExited]; exact he
      | _ => exact staff_le_of_same rfl (le_refl _)
    exact hle.trans hs
  | worker _ h => exact h.staff_le.trans hs

/-! ### The batches -/

/-- Every batch that is committed has a job. -/
structure Batched (s : State) : Prop where
  reserved : ∀ selected, s.dispatcher = .reserved selected → selected ≠ []
  batches : ∀ batch ∈ s.batch_queue_, batch ≠ []
  running : ∀ w ∈ s.workers, ∀ turn, w.pc = .running turn → turn.batch ≠ []

theorem Woken.reserved {pc pc' : DispatcherPc} (h : Woken pc pc') {selected : List InferenceJob}
    (hp : pc' = .reserved selected) : pc = .reserved selected := by
  cases h <;> simp_all

theorem Step.batched (h : Step o s a t) (hs : Batched s) : Batched t := by
  refine ⟨?_, ?_, ?_⟩
  · intro selected hsel
    rcases h.dispatcher_cases with hd | hw | ⟨-, -, hd⟩
    · cases hd with
      | reserve hd hne => cases hsel; exact hne
      | _ => cases hsel
    · exact hs.reserved selected (hw.reserved hsel)
    · rw [hd] at hsel
      cases hsel
  · intro batch hb
    cases h with
    | dispatcher _ h =>
      cases h with
      | @push selected hd =>
        rcases List.mem_append.mp hb with hb | hb
        · exact hs.batches batch hb
        · rw [List.mem_singleton.mp hb]
          exact hs.reserved selected hd
      | _ => exact hs.batches batch hb
    | client _ h => cases h <;> exact hs.batches batch hb
    | control _ h => cases h <;> exact hs.batches batch hb
    | worker _ h =>
      cases h with
      | pop _ _ _ hq => exact hs.batches batch (by rw [hq]; exact List.mem_cons_of_mem _ hb)
      | call => exact hs.batches batch (s.effect_batch_queue_ _ ▸ hb)
      | _ => exact hs.batches batch hb
  · intro v hv turn hpc
    rcases h.turn_cases hv hpc with ⟨w, hw, hpc'⟩ | ⟨batch, rest, l, hq, rfl⟩ | ⟨w, hw, turn', c, k, r, hpc', -, -, rfl⟩
    · exact hs.running w hw turn hpc'
    · exact hs.batches batch (by simp [hq])
    · exact hs.running w hw turn' hpc'

theorem batched (h : Reachable (scheduler o) Always s) : Batched s := by
  refine h.invariant (I := Batched) ?_ fun _ hs hstep _ => Step.batched hstep hs
  rintro _ ⟨t, rfl⟩
  exact ⟨by simp, by simp, by simp⟩

/-- What keeps the lookahead small. -/
structure Lookahead (o : Options) (s : State) : Prop where
  slots : s.slots ≤ max_queue_depth o
  staff : s.staff ≤ workerCount o

theorem lookahead (h : Reachable (scheduler o) Always s) : Lookahead o s := by
  refine h.invariant ?_ fun hr hs hstep _ => ⟨Step.slots_le hstep hs.slots, Step.staff_le hstep (lifecycle hr) hs.staff⟩
  rintro _ ⟨t, rfl⟩
  exact ⟨Nat.zero_le _, Nat.zero_le _⟩

/-! ### The jobs -/

/-- The batches that are committed: reserved by the dispatcher, in `batch_queue_`, or with a
worker. -/
inductive State.Commits (s : State) : List InferenceJob → Prop where
  | reserved {selected : List InferenceJob} : s.dispatcher = .reserved selected → s.Commits selected
  | queued {batch : List InferenceJob} : batch ∈ s.batch_queue_ → s.Commits batch
  | running {w : Worker} {turn : Turn} : w ∈ s.workers → w.pc = .running turn → s.Commits turn.batch

/-- The number of jobs outside the priority queue that are selected for a batch: by the
dispatcher, in `batch_queue_`, or with a worker. -/
def State.committedJobs (s : State) : ℕ :=
  s.dispatcher.chosen.length + (s.batch_queue_.map List.length).sum + (s.workers.map fun w => w.pc.batch.length).sum

theorem Batched.ne_nil (h : Batched s) {batch : List InferenceJob} (hb : s.Commits batch) : batch ≠ [] := by
  cases hb with
  | reserved hd => exact h.reserved batch hd
  | queued hq => exact h.batches batch hq
  | running hw hpc => exact h.running _ hw _ hpc

theorem workerCount_eq (h : 1 ≤ o.num_workers.toInt) : (workerCount o : ℤ) = o.num_workers.toInt :=
  Int.toNat_of_nonneg (by omega)

theorem max_queue_depth_eq (h : 1 ≤ o.num_workers.toInt) : max_queue_depth o = max 2 (2 * workerCount o) := by
  have hsize := toSize_of_nonneg (i := o.num_workers) (by omega)
  have hlt := toSize_lt o.num_workers (by omega)
  have hcount : workerCount o = toSize o.num_workers := by
    unfold workerCount
    omega
  rw [max_queue_depth, mulSize, hcount, Nat.mod_eq_of_lt (by unfold wordSize; omega), Nat.mul_comm]

/-- A batch that packing selects has at most `max_batch` jobs, wherever it is. -/
theorem carried_length_le (hb : 1 ≤ o.max_batch.toInt) (h : Reachable (scheduler o) Always s) :
    Carried (fun _ => True) (fun batch => batch.length ≤ o.max_batch.toInt.toNat) s := by
  refine carried (fun _ _ _ _ => trivial) (Nat.zero_le _) (fun s _ candidates budget _ _ => ?_)
    (h.mono fun _ a _ => by cases a <;> trivial)
  have hle : ((pack_jobs s.clock candidates budget o.max_batch).selected.length : ℤ) ≤ o.max_batch.toInt :=
    length_selected_le hb
  omega

/-- Lists of at most `m` elements add up to at most as many times `m`. -/
theorem sum_length_le {m : ℕ} {ls : List (List InferenceJob)} (h : ∀ l ∈ ls, l.length ≤ m) :
    (ls.map List.length).sum ≤ ls.length * m := by
  have hle := List.sum_le_card_nsmul (ls.map List.length) m (by simpa using h)
  simpa using hle

theorem DispatcherPc.chosen_length_le {m : ℕ} : ∀ {pc : DispatcherPc}, pc.chosen.length ≤ m →
    pc.chosen.length ≤ pc.holdsSlot.toNat * m := by
  intro pc h
  cases pc <;> simp_all [DispatcherPc.chosen, DispatcherPc.holdsSlot]

theorem WorkerPc.batch_length_le {m : ℕ} {pc : WorkerPc} (h : ∀ turn, pc = .running turn → turn.batch.length ≤ m) :
    pc.batch.length ≤ (!pc.isExited).toNat * m := by
  cases pc with
  | running turn => simpa [WorkerPc.batch, WorkerPc.isExited] using h turn rfl
  | _ => exact Nat.zero_le _

/-- Every slot, and every worker, has one batch at most. -/
theorem committedJobs_le {m : ℕ} (hs : Carried (fun _ => True) (fun batch => batch.length ≤ m) s) :
    s.committedJobs ≤ (s.slots + s.staff) * m := by
  have hchosen := DispatcherPc.chosen_length_le hs.chosen
  have hqueued := sum_length_le hs.batch_queue_
  have hrunning : (s.workers.map fun w => w.pc.batch.length).sum ≤
      (s.workers.map fun w => (!w.pc.isExited).toNat * m).sum :=
    List.sum_le_sum fun w hw => WorkerPc.batch_length_le (hs.running w hw)
  rw [List.sum_map_mul_right] at hrunning
  calc s.committedJobs
      ≤ s.dispatcher.holdsSlot.toNat * m + s.batch_queue_.length * m
          + (s.workers.map fun w => (!w.pc.isExited).toNat).sum * m := by
        unfold State.committedJobs
        omega
    _ = (s.slots + (s.workers.map fun w => (!w.pc.isExited).toNat).sum) * m := by
        unfold State.slots
        ring
    _ ≤ (s.slots + s.staff) * m :=
        Nat.mul_le_mul_right m (Nat.add_le_add_left (Nat.le_add_right _ _) _)

/-- **The lookahead is bounded**: `batch_queue_` holds at most `max(2, 2 * num_workers)`
batches, every batch that is committed has between one and `max_batch` jobs, and the jobs
that are committed are at most as many as the batches of a full `batch_queue_` and of the
workers can have. -/
theorem lookahead_bounded (hn : 1 ≤ o.num_workers.toInt) (hb : 1 ≤ o.max_batch.toInt)
    (h : Reachable (scheduler o) Always s) :
    (s.batch_queue_.length : ℤ) ≤ max 2 (2 * o.num_workers.toInt) ∧
      (∀ batch, s.Commits batch → batch ≠ [] ∧ (batch.length : ℤ) ≤ o.max_batch.toInt) ∧
      (s.committedJobs : ℤ) ≤ (max 2 (2 * o.num_workers.toInt) + o.num_workers.toInt) * o.max_batch.toInt := by
  have hlook := lookahead h
  have hcarried := carried_length_le hb h
  have hdepth := max_queue_depth_eq hn
  have hcount := workerCount_eq hn
  have hslots : (s.slots : ℤ) ≤ max 2 (2 * o.num_workers.toInt) := by
    have hle := hlook.slots
    omega
  have hstaff : (s.staff : ℤ) ≤ o.num_workers.toInt := by
    have hle := hlook.staff
    omega
  refine ⟨?_, fun batch hbatch => ⟨(batched h).ne_nil hbatch, ?_⟩, ?_⟩
  · have hle : s.batch_queue_.length ≤ s.slots := Nat.le_add_right _ _
    omega
  · have hle : batch.length ≤ o.max_batch.toInt.toNat := by
      cases hbatch with
      | reserved hd =>
        have hchosen := hcarried.chosen
        rwa [hd] at hchosen
      | queued hq => exact hcarried.batch_queue_ batch hq
      | running hw hpc => exact hcarried.running _ hw _ hpc
    omega
  · have hjobs := committedJobs_le hcarried
    have hm : ((o.max_batch.toInt.toNat : ℕ) : ℤ) = o.max_batch.toInt := Int.toNat_of_nonneg (by omega)
    calc (s.committedJobs : ℤ)
        ≤ ((s.slots : ℤ) + s.staff) * o.max_batch.toInt := by
          rw [← hm]
          exact_mod_cast hjobs
      _ ≤ (max 2 (2 * o.num_workers.toInt) + o.num_workers.toInt) * o.max_batch.toInt :=
          mul_le_mul_of_nonneg_right (by omega) (by omega)

/-- One worker, and one batch pushed. -/
theorem lookahead_bounded_pushed :
    ∃ s, Reachable (scheduler { num_workers := 1, fixed_budget_bytes := 1024 }) Always s ∧ s.batch_queue_.length = 1 ∧
      s.committedJobs ≤ 3 * 8 := by
  obtain ⟨s, hr, hp⟩ := exists_of_follow { num_workers := 1, fixed_budget_bytes := 1024 } Always 1 lateTrace
    (fun s => s.batch_queue_.length = 1) (by decide)
  have hle := (lookahead_bounded (by decide) (by decide) hr).2.2
  exact ⟨s, hr, by simpa using hp, by simpa using hle⟩

end Gbis.Sched
