import Gbis.Sched.Conservation

/-!
# What `reserved_bytes_` counts

`reserved_bytes_` is a `std::size_t` that several threads add to and subtract from, with
a subtraction that stops at `0` instead of wrapping. It never needs to: the dispatcher
packs a batch within the budget that was left when it last looked, other threads only
release in the meantime, and a worker releases what was reserved for its batch, once. So
in every interleaving

* `reserved_bytes_` is exactly the bytes of the batches that are committed: reserved and
  not yet released (`Reservation.reserved`);
* together with what the dispatcher is about to reserve it stays within the largest
  budget there is, which is the fixed one if there is one (`Reservation.within`).

A batch's bytes are themselves a sum in `std::size_t`, and as long as the sizes of all
committed jobs add up to less than `2^64`, `reserved_bytes_` is that sum
(`reserved_bytes_exact`).
-/

namespace Gbis.Sched

open Gbis.Core Library

variable {o : Options} {s t : State} {a : Action}

/-- What the dispatcher has reserved for a batch that is not in `batch_queue_` yet. -/
def DispatcherPc.committed : DispatcherPc → ℕ
  | .reserved selected => batchBytes selected
  | _ => 0

/-- What the dispatcher may still reserve in this round. -/
def DispatcherPc.claim : DispatcherPc → ℕ
  | .budgeted _ budget => budget
  | .packed selected _ | .requeued selected => batchBytes selected
  | _ => 0

/-- What is reserved for a worker's batch and not released. -/
def WorkerPc.committed : WorkerPc → ℕ
  | .running turn => if turn.account.released = [] then batchBytes turn.batch else 0
  | _ => 0

theorem WorkerPc.committed_running (turn : Turn) :
    (WorkerPc.running turn).committed = if turn.account.released = [] then batchBytes turn.batch else 0 := rfl

theorem WorkerPc.committed_wait : WorkerPc.wait.committed = 0 := rfl

/-- The bytes of the batches that are committed. -/
def State.committed (s : State) : ℕ :=
  s.dispatcher.committed + (s.batch_queue_.map batchBytes).sum + (s.workers.map fun w => w.pc.committed).sum

/-- The largest budget before reservations. -/
def budgetCap (o : Options) : ℕ :=
  if o.fixed_budget_bytes > 0 then o.fixed_budget_bytes.toNat else wordSize - 1

/-- The books of `reserved_bytes_`. -/
structure Reservation (o : Options) (s : State) : Prop where
  reserved : s.reserved_bytes_ = s.committed
  within : s.reserved_bytes_ + s.dispatcher.claim ≤ budgetCap o
  based : ∀ candidates base, s.dispatcher = .based candidates base → base ≤ budgetCap o

theorem budgetCap_lt (o : Options) : budgetCap o < wordSize := by
  unfold budgetCap
  split_ifs
  · exact o.fixed_budget_bytes.toNat_lt
  · decide

theorem Woken.committed {pc pc' : DispatcherPc} (h : Woken pc pc') : pc'.committed = pc.committed := by
  cases h <;> rfl

theorem Woken.claim {pc pc' : DispatcherPc} (h : Woken pc pc') : pc'.claim = pc.claim := by
  cases h <;> rfl

theorem Woken.based {pc pc' : DispatcherPc} (h : Woken pc pc') {candidates : List InferenceJob} {base : ℕ}
    (hb : pc' = .based candidates base) : pc = .based candidates base := by
  cases h <;> simp_all

theorem Worker.wake_committed (w : Worker) : w.wake.pc.committed = w.pc.committed := by
  unfold Worker.wake
  split
  · rename_i h; rw [h]; rfl
  · rfl

theorem DispatcherPc.committed_of_rested : ∀ {pc : DispatcherPc}, pc.rested = true → pc.committed = 0 ∧ pc.claim = 0
  | .absent, _ | .exited, _ => ⟨rfl, rfl⟩

/-- A step that leaves the bytes alone, and wakes the dispatcher at most. -/
theorem Reservation.of_same (hs : Reservation o s) (hr : t.reserved_bytes_ = s.reserved_bytes_)
    (hc : t.committed = s.committed) (hd : Woken s.dispatcher t.dispatcher) : Reservation o t := by
  refine ⟨by rw [hr, hc, hs.reserved], by rw [hr, hd.claim]; exact hs.within, fun candidates base hb => ?_⟩
  exact hs.based candidates base (hd.based hb)

theorem ClientStep.reservation (h : ClientStep s a t) (hs : Reservation o s) : Reservation o t := by
  cases h with
  | notify =>
    have hw := s.wakeDispatcher_woken_queue
    exact hs.of_same rfl (by simp only [State.committed, hw.committed]; rfl) hw
  | _ => exact ⟨hs.reserved, hs.within, hs.based⟩

theorem ControlStep.reservation (h : ControlStep o s a t) (hl : Lifecycle s) (hs : Reservation o s) :
    Reservation o t := by
  cases h with
  | probe _ _ hc =>
    obtain ⟨h₁, h₂⟩ := DispatcherPc.committed_of_rested (hl.dispatcher (by simp [State.dispatcherJoined, hc]))
    obtain ⟨hr, hw, -⟩ := hs
    refine ⟨?_, ?_, by simp⟩
    · rwa [State.committed, h₁] at hr
    · rwa [h₂] at hw
  | spawn => exact hs.of_same rfl (by simp [State.committed, WorkerPc.committed]) (.same _)
  | notify_batch =>
    exact hs.of_same rfl
      (by simp only [State.committed, List.map_map, Function.comp_def, Worker.wake_committed]) (.same _)
  | notify_queue =>
    have hw := s.wakeDispatcher_woken_queue
    exact hs.of_same rfl (by simp only [State.committed, hw.committed]; rfl) hw
  | notify_space =>
    have hw := s.wakeDispatcher_woken_space
    exact hs.of_same rfl (by simp only [State.committed, hw.committed]; rfl) hw
  | _ => exact ⟨hs.reserved, hs.within, hs.based⟩

theorem DispatcherStep.reservation (h : DispatcherStep o s a t) (hs : Reservation o s) : Reservation o t := by
  obtain ⟨hr, hw, hb⟩ := hs
  have hcap := budgetCap_lt o
  unfold State.committed at hr
  cases h with
  | fixed hd hf =>
    simp only [hd, DispatcherPc.committed, DispatcherPc.claim] at hr hw
    refine ⟨hr, hw, fun candidates base hb => ?_⟩
    cases hb
    simp [budgetCap, hf]
  | @free _ fm hd hf hm =>
    simp only [hd, DispatcherPc.committed, DispatcherPc.claim] at hr hw
    refine ⟨hr, hw, fun candidates base hb => ?_⟩
    cases hb
    have := (fm - o.safety_margin_bytes).toNat_lt
    simp only [budgetCap, hf, if_false, wordSize]
    omega
  | @budget candidates base hd =>
    have hbase := hb candidates base hd
    simp only [hd, DispatcherPc.committed, DispatcherPc.claim] at hr hw
    refine ⟨hr, ?_, by simp⟩
    simp only [DispatcherPc.claim]
    split_ifs <;> omega
  | @pack candidates budget hd =>
    have hsel : batchBytes (pack_jobs s.clock candidates budget o.max_batch).selected ≤ budget := batchBytes_selected_le
    simp only [hd, DispatcherPc.committed, DispatcherPc.claim] at hr hw
    refine ⟨hr, ?_, by simp⟩
    simp only [DispatcherPc.claim]
    omega
  | @reserve selected hd =>
    simp only [hd, DispatcherPc.committed, DispatcherPc.claim] at hr hw
    have hadd : addSize s.reserved_bytes_ (batchBytes selected) = s.reserved_bytes_ + batchBytes selected :=
      Nat.mod_eq_of_lt (by omega)
    refine ⟨?_, ?_, by simp⟩
    · simp only [State.committed, State.reserve_bytes, DispatcherPc.committed, hadd]
      omega
    · simpa only [State.reserve_bytes, DispatcherPc.claim, hadd, Nat.add_zero] using hw
  | @push selected hd =>
    simp only [hd, DispatcherPc.committed, DispatcherPc.claim] at hr hw
    refine ⟨?_, hw, by simp⟩
    simp only [State.committed, DispatcherPc.committed, List.map_append, List.map_cons, List.map_nil, List.sum_append,
      List.sum_cons, List.sum_nil]
    omega
  | notify hd hi =>
    obtain ⟨rest, h₁, h₂⟩ := exists_sum_set (fun w : Worker => w.pc.committed) hi
    simp only [hd, DispatcherPc.committed, DispatcherPc.claim] at hr hw
    refine ⟨?_, hw, by simp⟩
    simp only [State.committed, State.setWorker, DispatcherPc.committed, h₂, Worker.wake_committed]
    omega
  | space_exit hd | space_pass hd | space_false hd | space_block hd | queue_exit hd | queue_false hd | queue_block hd
  | drain hd | no_gpu hd | keep hd | filter hd | reject hd | no_free _ hd | requeue hd | nothing hd | notify_none hd
  | spurious_space hd | spurious_queue hd =>
    simp only [hd, DispatcherPc.committed, DispatcherPc.claim, batchBytes, List.foldl_nil] at hr hw
    exact ⟨hr, hw, by simp⟩

/-- A worker's step that leaves the bytes alone. -/
theorem Reservation.of_set (hs : Reservation o s) {i : ℕ} {w w' : Worker} (hi : s.workers[i]? = some w)
    (hw : t.workers = s.workers.set i w') (hc : w'.pc.committed = w.pc.committed)
    (hr : t.reserved_bytes_ = s.reserved_bytes_)
    (hb : (t.batch_queue_.map batchBytes).sum = (s.batch_queue_.map batchBytes).sum)
    (hd : Woken s.dispatcher t.dispatcher) : Reservation o t := by
  obtain ⟨rest, h₁, h₂⟩ := exists_sum_set (fun w : Worker => w.pc.committed) hi
  refine hs.of_same hr ?_ hd
  simp only [State.committed, hb, hd.committed, hw, h₁, h₂, hc]

theorem Account.apply_released (acc : Account) {c : Call} (h : releases c = false) (r : c.Ret) :
    (acc.apply c r).released = acc.released := by
  cases c with
  | cudaStreamCreateWithFlags | cudaStreamCreate | cudaEventCreate => cases r <;> rfl
  | release_bytes => cases h
  | _ => rfl

theorem State.effect_bytes (s : State) {c : Call} (h : releases c = false) :
    (s.effect c).reserved_bytes_ = s.reserved_bytes_ ∧ (s.effect c).batch_queue_ = s.batch_queue_ := by
  cases c with
  | release_bytes => cases h
  | _ => exact ⟨rfl, rfl⟩

theorem WorkerStep.reservation (h : WorkerStep o s a t)
    (hb : ∀ w ∈ s.workers, ∀ turn, w.pc = .running turn →
      turn.prog.wp (accountWorld turn.batch) (Host.ends (fun _ _ => Settled turn.batch)
        (fun _ _ acc => acc = aborted turn.batch)) turn.account)
    (hs : Reservation o s) : Reservation o t := by
  cases h with
  | exit hi hw | found_empty hi hw | block hi hw => exact hs.of_set hi rfl (by rw [hw]; rfl) rfl rfl (.same _)
  | spurious hi => exact hs.of_set hi rfl (Worker.wake_committed _) rfl rfl (.same _)
  | throw => exact ⟨hs.reserved, hs.within, hs.based⟩
  | @pop i w batch rest hi hw _ hq =>
    obtain ⟨left, h₁, h₂⟩ := exists_sum_set (fun w : Worker => w.pc.committed) hi
    refine hs.of_same rfl ?_ (.same _)
    simp only [State.committed, State.setWorker, hq, h₁, h₂, hw, WorkerPc.committed_wait, WorkerPc.committed_running,
      if_true, List.map_cons, List.sum_cons]
    omega
  | @done i w turn l hi hw hp =>
    have hset := hb w (List.mem_of_getElem? hi) turn hw
    rw [hp] at hset
    have hset : Settled turn.batch turn.account := hset
    exact hs.of_set hi rfl
      (by simp [hw, WorkerPc.committed_wait, WorkerPc.committed_running, hset.released]) rfl rfl (.same _)
  | @call i w turn c k r hi hw hp hr =>
    have hwp := hb w (List.mem_of_getElem? hi) turn hw
    rw [hp] at hwp
    have hpre : accountPre turn.batch c turn.account := hwp.1
    by_cases hc : releases c = true
    · cases c with
      | release_bytes bytes =>
        obtain ⟨-, hrel, rfl⟩ := hpre
        obtain ⟨rest, h₁, h₂⟩ := exists_sum_set (fun w : Worker => w.pc.committed) hi
        obtain ⟨hres, hwithin, hbased⟩ := hs
        have hcw : w.pc.committed = batchBytes turn.batch := by simp [hw, WorkerPc.committed_running, hrel]
        have hcomm : s.committed = s.dispatcher.committed + (s.batch_queue_.map batchBytes).sum +
          (rest + batchBytes turn.batch) := by rw [State.committed, h₁, hcw]
        -- what is released is part of what is reserved
        have hle : ¬ batchBytes turn.batch > s.reserved_bytes_ := by omega
        refine ⟨?_, ?_, hbased⟩
        · simp only [State.committed, State.setWorker, State.effect, State.release_bytes, h₂,
            WorkerPc.committed_running, Account.apply, hrel, if_neg hle, List.nil_append, List.cons_ne_nil, if_false]
          omega
        · simp only [State.setWorker, State.effect, State.release_bytes, if_neg hle]
          omega
      | _ => cases hc
    · have hc : releases c = false := by simpa using hc
      obtain ⟨h₁, h₂⟩ := s.effect_bytes hc
      have hset := congrArg (fun ws => ws.set i { w with pc := .running (turn.after c r (k r)) }) (s.effect_workers c)
      refine hs.of_set hi hset ?_ h₁ (congrArg (fun b => (b.map batchBytes).sum) h₂) (s.effect_woken c)
      simp only [WorkerPc.committed_running, Turn.after, hw, Account.apply_released _ hc]

/-- **`reserved_bytes_` is exactly what is committed**, and within the largest budget. -/
theorem reservation (h : Reachable (scheduler o) Always s) : Reservation o s := by
  refine h.invariant ?_ fun {s a t} hr hs hstep _ => ?_
  · rintro _ ⟨t, rfl⟩
    exact ⟨rfl, Nat.zero_le _, by simp⟩
  · cases hstep with
    | client _ h => exact h.reservation hs
    | control _ h => exact h.reservation (lifecycle hr) hs
    | dispatcher _ h => exact h.reservation hs
    | worker _ h => exact h.reservation (turn_books hr) hs

/-! ### The jobs of the batches that are committed -/

/-- The batch the dispatcher has reserved and not pushed. -/
def DispatcherPc.reservedBatches : DispatcherPc → List (List InferenceJob)
  | .reserved selected => [selected]
  | _ => []

/-- The batch of a worker, until its bytes are released. -/
def WorkerPc.reservedBatches : WorkerPc → List (List InferenceJob)
  | .running turn => if turn.account.released = [] then [turn.batch] else []
  | _ => []

/-- The batches that have been reserved and not released. -/
def State.reservedBatches (s : State) : List (List InferenceJob) :=
  s.dispatcher.reservedBatches ++ s.batch_queue_ ++ s.workers.flatMap (·.pc.reservedBatches)

theorem DispatcherPc.committed_eq (pc : DispatcherPc) : pc.committed = (pc.reservedBatches.map batchBytes).sum := by
  cases pc <;> simp [DispatcherPc.committed, DispatcherPc.reservedBatches]

theorem WorkerPc.committed_eq (pc : WorkerPc) : pc.committed = (pc.reservedBatches.map batchBytes).sum := by
  cases pc with
  | running turn =>
    simp only [WorkerPc.committed, WorkerPc.reservedBatches]
    split_ifs <;> simp
  | _ => rfl

theorem State.committed_eq (s : State) : s.committed = (s.reservedBatches.map batchBytes).sum := by
  have hworkers : ∀ ws : List Worker, (ws.map fun w => w.pc.committed).sum =
      ((ws.flatMap (·.pc.reservedBatches)).map batchBytes).sum := by
    intro ws
    induction ws with
    | nil => rfl
    | cons w ws ih =>
      simp only [List.map_cons, List.sum_cons, List.flatMap_cons, List.map_append, List.sum_append, ih,
        w.pc.committed_eq]
  simp only [State.committed, State.reservedBatches, List.map_append, List.sum_append, hworkers,
    DispatcherPc.committed_eq]

/-- Below `2^64` the sums of the batches do not wrap. -/
theorem sum_batchBytes_eq : ∀ {batches : List (List InferenceJob)}, (batches.map sumBytes).sum < wordSize →
    (batches.map batchBytes).sum = (batches.map sumBytes).sum := by
  intro batches h
  induction batches with
  | nil => rfl
  | cons batch batches ih =>
    simp only [List.map_cons, List.sum_cons] at h ⊢
    rw [ih (by omega), batchBytes_eq, Nat.mod_eq_of_lt (by omega)]

/-- What a worker is about to release is what is reserved for its batch. -/
theorem release_le_reserved (h : Reachable (scheduler o) Always s) {w : Worker} (hw : w ∈ s.workers) {turn : Turn}
    (hpc : w.pc = .running turn) {bytes : ℕ} {k : Unit → Prog Call Call.Ret (Except Exn Unit × Locals)}
    (hp : turn.prog = .call (.release_bytes bytes) k) : bytes ≤ s.reserved_bytes_ := by
  have hwp := turn_books h w hw turn hpc
  rw [hp] at hwp
  obtain ⟨-, hrel, rfl⟩ : accountPre turn.batch (.release_bytes bytes) turn.account := hwp.1
  have hcw : w.pc.committed = batchBytes turn.batch := by simp [hpc, WorkerPc.committed_running, hrel]
  have hle : w.pc.committed ≤ (s.workers.map fun w => w.pc.committed).sum :=
    List.single_le_sum (by simp) _ (List.mem_map_of_mem hw)
  rw [(reservation h).reserved, State.committed]
  omega

/-- **The accounting is exact**: if the sizes of all the jobs that are committed add up to
less than `2^64`, `reserved_bytes_` is their sum; a worker never releases more than is
reserved; and when no batch is committed nothing is reserved. -/
theorem reserved_bytes_exact (h : Reachable (scheduler o) Always s) :
    ((s.reservedBatches.map sumBytes).sum < wordSize → s.reserved_bytes_ = (s.reservedBatches.map sumBytes).sum) ∧
      (∀ w ∈ s.workers, ∀ turn, w.pc = .running turn → ∀ bytes k, turn.prog = .call (.release_bytes bytes) k →
        bytes ≤ s.reserved_bytes_) ∧
      (s.reservedBatches = [] → s.reserved_bytes_ = 0) := by
  have hres := (reservation h).reserved
  rw [s.committed_eq] at hres
  refine ⟨fun hlt => ?_, fun w hw turn hpc bytes k hp => release_le_reserved h hw hpc hp, fun hnil => ?_⟩
  · rw [hres, sum_batchBytes_eq hlt]
  · rw [hres, hnil]
    rfl

/-- One job is reserved for, of 12 bytes. -/
theorem reserved_bytes_exact_one :
    ∃ s, Reachable (scheduler { fixed_budget_bytes := 1024 }) Always s ∧ s.reservedBatches.length = 1 ∧
      s.reserved_bytes_ = (s.reservedBatches.map sumBytes).sum := by
  obtain ⟨s, hr, hp⟩ := exists_of_follow { fixed_budget_bytes := 1024 } Always 1
    ([.start, .probe false 1073741824, .submit { m := 1, n := 1, k := 1 }, .client 0] ++ List.replicate 9 .dispatcher)
    (fun s => s.reservedBatches.length = 1 && (s.reservedBatches.map sumBytes).sum = 12) (by decide)
  simp only [Bool.and_eq_true, decide_eq_true_eq] at hp
  exact ⟨s, hr, hp.1, (reserved_bytes_exact hr).1 (by rw [hp.2]; decide)⟩

end Gbis.Sched
