import Gbis.Sched.TurnAccount

/-!
# What the threads can do to one another

The steps of the scheduler seen from three sides, so that an invariant about one of
them does not look at every step again.

* The fields that only the controlling thread writes (`Step.control_cases`), and where
  it finds the others when it does (`Lifecycle`): a dispatcher is created only when the
  last one has been joined.
* The dispatcher's place (`Step.dispatcher_cases`): the other threads at most wake it.
* A worker's turn (`Step.turn_cases`): it begins with a batch popped, goes on by one
  call, and is left alone by everything else. So whatever a turn's program is known to
  keep along its calls, it keeps in every interleaving (`turn_kept`).
-/

namespace Gbis.Sched

open Gbis.Core Library

variable {o : Options} {s t : State} {a : Action}

/-! ### The controlling thread -/

/-- The fields that only the controlling thread writes are the same. -/
structure SameControl (s t : State) : Prop where
  control : t.control = s.control
  started_ : t.started_ = s.started_
  shutdown_ : t.shutdown_ = s.shutdown_
  gpu_absent_ : t.gpu_absent_ = s.gpu_absent_
  total_mem_bytes_ : t.total_mem_bytes_ = s.total_mem_bytes_

theorem ClientStep.sameControl (h : ClientStep s a t) : SameControl s t := by
  cases h <;> exact ⟨rfl, rfl, rfl, rfl, rfl⟩

theorem DispatcherStep.sameControl (h : DispatcherStep o s a t) : SameControl s t := by
  cases h <;> exact ⟨rfl, rfl, rfl, rfl, rfl⟩

theorem State.effect_sameControl (s : State) (c : Call) : SameControl s (s.effect c) := by
  cases c <;> exact ⟨rfl, rfl, rfl, rfl, rfl⟩

theorem WorkerStep.sameControl (h : WorkerStep o s a t) : SameControl s t := by
  cases h with
  | @call _ _ _ c => 
    obtain ⟨h₁, h₂, h₃, h₄, h₅⟩ := s.effect_sameControl c
    exact ⟨h₁, h₂, h₃, h₄, h₅⟩
  | _ => exact ⟨rfl, rfl, rfl, rfl, rfl⟩

/-- A step is one of the controlling thread, or leaves its fields alone. -/
theorem Step.control_cases (h : Step o s a t) : ControlStep o s a t ∨ SameControl s t := by
  cases h with
  | client _ h => exact .inr h.sameControl
  | control _ h => exact .inl h
  | dispatcher _ h => exact .inr h.sameControl
  | worker _ h => exact .inr h.sameControl

/-! ### The dispatcher -/

/-- There is no dispatcher, or it has left its loop. -/
def DispatcherPc.rested : DispatcherPc → Bool
  | .absent | .exited => true
  | _ => false

/-- Woken, at most. -/
inductive Woken : DispatcherPc → DispatcherPc → Prop where
  | same (pc : DispatcherPc) : Woken pc pc
  | space : Woken .space_blocked .space_wait
  | queue : Woken .queue_blocked .queue_wait

theorem State.wakeDispatcher_woken_space (s : State) :
    Woken s.dispatcher (s.wakeDispatcher .space_blocked .space_wait).dispatcher := by
  unfold State.wakeDispatcher
  split_ifs with h
  · rw [h]; exact .space
  · exact .same _

theorem State.wakeDispatcher_woken_queue (s : State) :
    Woken s.dispatcher (s.wakeDispatcher .queue_blocked .queue_wait).dispatcher := by
  unfold State.wakeDispatcher
  split_ifs with h
  · rw [h]; exact .queue
  · exact .same _

theorem State.effect_woken (s : State) (c : Call) : Woken s.dispatcher (s.effect c).dispatcher := by
  cases c with
  | notify_batch_space => exact s.wakeDispatcher_woken_space
  | _ => exact .same _

theorem WorkerStep.woken (h : WorkerStep o s a t) : Woken s.dispatcher t.dispatcher := by
  cases h with
  | @call _ _ _ c => exact s.effect_woken c
  | _ => exact .same _

theorem ClientStep.woken (h : ClientStep s a t) : Woken s.dispatcher t.dispatcher := by
  cases h with
  | notify => exact s.wakeDispatcher_woken_queue
  | _ => exact .same _

/-- The controlling thread wakes the dispatcher, or creates it. -/
theorem ControlStep.woken (h : ControlStep o s a t) :
    Woken s.dispatcher t.dispatcher ∨
      s.control = .starting ∧ t.control ≠ .starting ∧ t.dispatcher = .space_wait := by
  cases h with
  | probe _ _ hc => exact .inr ⟨hc, by simp, rfl⟩
  | notify_queue => exact .inl s.wakeDispatcher_woken_queue
  | notify_space => exact .inl s.wakeDispatcher_woken_space
  | _ => exact .inl (.same _)

/-- A dispatcher that rests takes no step. -/
theorem DispatcherStep.rested_eq_false (h : DispatcherStep o s a t) : s.dispatcher.rested = false := by
  cases h <;> simp_all [DispatcherPc.rested]

theorem Woken.rested {pc pc' : DispatcherPc} (h : Woken pc pc') : pc'.rested = pc.rested := by
  cases h <;> rfl

/-- A step is one of the dispatcher, or wakes it at most, or creates it. -/
theorem Step.dispatcher_cases (h : Step o s a t) :
    DispatcherStep o s a t ∨ Woken s.dispatcher t.dispatcher ∨
      s.control = .starting ∧ t.control ≠ .starting ∧ t.dispatcher = .space_wait := by
  cases h with
  | client _ h => exact .inr (.inl h.woken)
  | control _ h => exact .inr h.woken
  | dispatcher _ h => exact .inl h
  | worker _ h => exact .inr (.inl h.woken)

/-! ### The workers -/

/-- What a step from `s` may make of a worker. -/
inductive WorkerMove (o : Options) (s : State) (w : Worker) : Worker → Prop where
  /-- Nothing. -/
  | same : WorkerMove o s w w
  /-- It is woken. -/
  | wake : w.pc = .blocked → WorkerMove o s w { w with pc := .wait }
  /-- It leaves its loop. -/
  | exit : w.pc = .wait → s.shutdown_ = true → s.batch_queue_ = [] → WorkerMove o s w { w with pc := .exited }
  /-- It takes a batch. -/
  | pop {batch : List InferenceJob} {rest : List (List InferenceJob)} : w.pc = .wait → s.batch_queue_ = batch :: rest →
      WorkerMove o s w { w with pc := .running { batch, prog := worker_body o s.gpu_absent_ batch w.locals } }
  /-- It finds no batch. -/
  | found_empty : w.pc = .wait → s.shutdown_ = false → WorkerMove o s w { w with pc := .found_empty }
  /-- It goes to sleep. -/
  | block : w.pc = .found_empty → WorkerMove o s w { w with pc := .blocked }
  /-- It makes a call. -/
  | call {turn : Turn} {c : Call} {k : c.Ret → Prog Call Call.Ret (Except Exn Unit × Locals)} {r : c.Ret} :
      w.pc = .running turn → turn.prog = .call c k → s.mayAnswer c r →
      WorkerMove o s w
        { w with pc := .running { turn with prog := k r, account := turn.account.apply c r,
                                            held := turn.held.apply c r } }
  /-- It is done with its batch. -/
  | done {turn : Turn} {l : Locals} : w.pc = .running turn → turn.prog = .pure (.ok (), l) →
      WorkerMove o s w { pc := .wait, locals := l }

theorem WorkerPc.eq_blocked : ∀ {pc : WorkerPc}, pc.isBlocked = true → pc = .blocked
  | .blocked, _ => rfl

theorem Worker.wake_move (w : Worker) : WorkerMove o s w w.wake := by
  unfold Worker.wake
  split
  · rename_i h; exact .wake h
  · exact .same

/-- The workers of a state reached by changing one of them. -/
theorem exists_move_of_mem_set {i : ℕ} {w w' v : Worker} (hi : s.workers[i]? = some w) (hw : WorkerMove o s w w')
    (hv : v ∈ s.workers.set i w') : ∃ u ∈ s.workers, WorkerMove o s u v := by
  rcases List.mem_or_eq_of_mem_set hv with hv | rfl
  · exact ⟨v, hv, .same⟩
  · exact ⟨w, List.mem_of_getElem? hi, hw⟩

theorem State.effect_workers (s : State) (c : Call) : (s.effect c).workers = s.workers := by
  cases c <;> rfl

theorem WorkerStep.exists_move (h : WorkerStep o s a t) {v : Worker} (hv : v ∈ t.workers) :
    ∃ u ∈ s.workers, WorkerMove o s u v := by
  cases h with
  | exit hi hw _ hs hq => exact exists_move_of_mem_set hi (.exit hw hs hq) hv
  | pop hi hw _ hq => exact exists_move_of_mem_set hi (.pop hw hq) hv
  | found_empty hi hw _ hs => exact exists_move_of_mem_set hi (.found_empty hw hs) hv
  | block hi hw => exact exists_move_of_mem_set hi (.block hw) hv
  | @call i w turn c k r hi hw hp hr =>
    refine exists_move_of_mem_set hi (.call hw hp hr) ?_
    simpa [State.setWorker, s.effect_workers] using hv
  | done hi hw hp => exact exists_move_of_mem_set hi (.done hw hp) hv
  | throw => exact ⟨v, hv, .same⟩
  | spurious hi => exact exists_move_of_mem_set hi (Worker.wake_move _) hv

/-- **A worker after a step** is one from before, moved, or has just been created. -/
theorem Step.worker_cases (h : Step o s a t) {v : Worker} (hv : v ∈ t.workers) :
    (∃ u ∈ s.workers, WorkerMove o s u v) ∨ v = {} ∧ ∃ left, s.control = .spawning (left + 1) := by
  cases h with
  | client _ h => cases h <;> exact .inl ⟨v, hv, .same⟩
  | control _ h =>
    cases h with
    | spawn hc =>
      rcases List.mem_append.mp hv with hv | hv
      · exact .inl ⟨v, hv, .same⟩
      · exact .inr ⟨List.mem_singleton.mp hv, _, hc⟩
    | notify_batch =>
      obtain ⟨u, hu, rfl⟩ := List.mem_map.mp hv
      exact .inl ⟨u, hu, u.wake_move⟩
    | _ => exact .inl ⟨v, hv, .same⟩
  | dispatcher _ h =>
    cases h with
    | notify _ hi => exact .inl (exists_move_of_mem_set hi (Worker.wake_move _) hv)
    | _ => exact .inl ⟨v, hv, .same⟩
  | worker _ h => exact .inl (h.exists_move hv)

/-- **A turn after a step** is one from before, or has just begun, or has made a call. -/
theorem Step.turn_cases (h : Step o s a t) {v : Worker} (hv : v ∈ t.workers) {turn : Turn}
    (hpc : v.pc = .running turn) :
    (∃ w ∈ s.workers, w.pc = .running turn) ∨
    (∃ batch rest l, s.batch_queue_ = batch :: rest ∧ turn = { batch, prog := worker_body o s.gpu_absent_ batch l }) ∨
    ∃ w ∈ s.workers, ∃ turn' c k r, w.pc = .running turn' ∧ turn'.prog = .call c k ∧ s.mayAnswer c r ∧
      turn = { turn' with prog := k r, account := turn'.account.apply c r, held := turn'.held.apply c r } := by
  rcases h.worker_cases hv with ⟨u, hu, hmove⟩ | ⟨rfl, -⟩
  · cases hmove with
    | same => exact .inl ⟨v, hu, hpc⟩
    | pop _ hq => cases hpc; exact .inr (.inl ⟨_, _, _, hq, rfl⟩)
    | call hw hp hr => cases hpc; exact .inr (.inr ⟨u, hu, _, _, _, _, hw, hp, hr, rfl⟩)
    | _ => cases hpc
  · cases hpc

/-- The turn after its program has made a call. -/
def Turn.after (turn : Turn) (c : Call) (r : c.Ret) (prog : Prog Call Call.Ret (Except Exn Unit × Locals)) : Turn :=
  { turn with prog, account := turn.account.apply c r, held := turn.held.apply c r }

/-- **What a turn's program keeps, it keeps in every interleaving.** `view` is what of a
turn the world `W` is about. -/
theorem turn_kept {τ : Type} (W : List InferenceJob → World Call Call.Ret τ) (view : Turn → τ)
    (Q : List InferenceJob → Except Exn Unit × Locals → τ → Prop)
    (h₀ : ∀ gpu_absent batch l, (worker_body o gpu_absent batch l).wp (W batch) (Q batch)
      (view { batch, prog := worker_body o gpu_absent batch l }))
    (h₁ : ∀ s : State, ∀ w ∈ s.workers, ∀ turn c k r, w.pc = .running turn → turn.prog = .call c k → s.mayAnswer c r →
      (W turn.batch).answer (view turn) c r (view (turn.after c r (k r))))
    (h : Reachable (scheduler o) Always s) :
    ∀ w ∈ s.workers, ∀ turn, w.pc = .running turn → turn.prog.wp (W turn.batch) (Q turn.batch) (view turn) := by
  refine h.invariant (I := fun s => ∀ w ∈ s.workers, ∀ turn, w.pc = .running turn →
    turn.prog.wp (W turn.batch) (Q turn.batch) (view turn)) ?_ fun {s a t} _ hs hstep _ => ?_
  · rintro _ ⟨t, rfl⟩
    simp
  · intro v hv turn hpc
    have hstep : Step o s a t := hstep
    rcases hstep.turn_cases hv hpc with ⟨w, hw, hpc'⟩ | ⟨batch, _, l, -, rfl⟩ |
      ⟨w, hw, turn', c, k, r, hpc', hp, hr, rfl⟩
    · exact hs w hw turn hpc'
    · exact h₀ _ _ _
    · have hwp := hs w hw turn' hpc'
      rw [hp] at hwp
      exact hwp.2 r _ (h₁ s w hw turn' c k r hpc' hp hr)

/-! ### Lifecycle -/

/-- `stop()` has set `shutdown_` and not yet returned. -/
def ControlPc.stopping : ControlPc → Bool
  | .notify_queue | .notify_batch | .notify_space | .joining_dispatcher | .joining_workers | .joined => true
  | _ => false

/-- No dispatcher has been created since the last was joined. -/
def State.dispatcherJoined (s : State) : Prop :=
  match s.control with
  | .starting | .joining_workers | .joined => True
  | .idle => s.started_ = false
  | _ => False

/-- No worker has been created since all were joined. -/
def State.workersJoined (s : State) : Prop :=
  match s.control with
  | .starting | .joined => True
  | .idle => s.started_ = false
  | _ => False

/-- Where the controlling thread finds the others. -/
structure Lifecycle (s : State) : Prop where
  started : s.control ≠ .idle → s.started_ = true
  dispatcher : s.dispatcherJoined → s.dispatcher.rested = true
  workers : s.workersJoined → ∀ w ∈ s.workers, w.pc = .exited
  shutdown : s.control.stopping = true → s.shutdown_ = true

theorem SameControl.dispatcherJoined (h : SameControl s t) : t.dispatcherJoined ↔ s.dispatcherJoined := by
  simp only [State.dispatcherJoined, h.control, h.started_]

theorem SameControl.workersJoined (h : SameControl s t) : t.workersJoined ↔ s.workersJoined := by
  simp only [State.workersJoined, h.control, h.started_]

/-- A worker that has left its loop stays out. -/
theorem WorkerMove.exited {u v : Worker} (h : WorkerMove o s u v) (hu : u.pc = .exited) : v.pc = .exited := by
  cases h <;> simp_all

theorem ControlStep.lifecycle (h : ControlStep o s a t) (hs : Lifecycle s) : Lifecycle t := by
  obtain ⟨hst, hd, hw, hsd⟩ := hs
  cases h with
  | start hc hf =>
    have hd := hd (by simpa [State.dispatcherJoined, hc] using hf)
    have hw := hw (by simpa [State.workersJoined, hc] using hf)
    exact ⟨fun _ => rfl, fun _ => hd, fun _ => hw, by simp [ControlPc.stopping]⟩
  | probe _ _ hc | spawn hc =>
    have hst := hst (by simp [hc])
    exact ⟨fun _ => hst, by simp [State.dispatcherJoined], by simp [State.workersJoined], by simp [ControlPc.stopping]⟩
  | started hc =>
    have hst := hst (by simp [hc])
    exact ⟨by simp, by simp [State.dispatcherJoined, hst],
      by simp [State.workersJoined, hst], by simp [ControlPc.stopping]⟩
  | stop hc hf => exact ⟨fun _ => hf, by simp [State.dispatcherJoined], by simp [State.workersJoined], fun _ => rfl⟩
  | notify_queue hc | notify_batch hc | notify_space hc =>
    have hst := hst (by simp [hc])
    have hsd := hsd (by simp [hc, ControlPc.stopping])
    exact ⟨fun _ => hst, by simp [State.dispatcherJoined], by simp [State.workersJoined], fun _ => hsd⟩
  | join_dispatcher hc hr =>
    have hst := hst (by simp [hc])
    have hsd := hsd (by simp [hc, ControlPc.stopping])
    exact ⟨fun _ => hst, fun _ => by simp [hr, DispatcherPc.rested], by simp [State.workersJoined], fun _ => hsd⟩
  | join_workers hc hr =>
    have hst := hst (by simp [hc])
    have hsd := hsd (by simp [hc, ControlPc.stopping])
    exact ⟨fun _ => hst, fun _ => hd (by simp [State.dispatcherJoined, hc]), fun _ => hr, fun _ => hsd⟩
  | stopped hc =>
    have hd := hd (by simp [State.dispatcherJoined, hc])
    have hw := hw (by simp [State.workersJoined, hc])
    exact ⟨by simp, fun _ => hd, fun _ => hw, by simp [ControlPc.stopping]⟩

theorem lifecycle (h : Reachable (scheduler o) Always s) : Lifecycle s := by
  refine h.invariant ?_ fun {s a t} _ hs hstep _ => ?_
  · rintro _ ⟨t, rfl⟩
    exact ⟨by simp, fun _ => rfl, fun _ => by simp, by simp [ControlPc.stopping]⟩
  · have hstep : Step o s a t := hstep
    have hexited : ∀ v ∈ t.workers, (∀ w ∈ s.workers, w.pc = .exited) → v.pc = .exited ∨
      ∃ left, s.control = .spawning (left + 1) := by
      intro v hv hw
      rcases hstep.worker_cases hv with ⟨u, hu, hmove⟩ | ⟨-, hc⟩
      · exact .inl (hmove.exited (hw u hu))
      · exact .inr hc
    rcases hstep.control_cases with hc | hc
    · exact hc.lifecycle hs
    · refine ⟨fun hi => ?_, fun hj => ?_, fun hj v hv => ?_, fun hst => ?_⟩
      · rw [hc.control] at hi
        rw [hc.started_, hs.started hi]
      · rw [hc.dispatcherJoined] at hj
        have hr := hs.dispatcher hj
        rcases hstep.dispatcher_cases with hd | hd | ⟨h, h', -⟩
        · simp [hd.rested_eq_false] at hr
        · rw [hd.rested, hr]
        · exact absurd (hc.control.trans h) h'
      · rw [hc.workersJoined] at hj
        rcases hexited v hv (hs.workers hj) with h | ⟨left, h⟩
        · exact h
        · simp [State.workersJoined, h] at hj
      · rw [hc.control] at hst
        rw [hc.shutdown_, hs.shutdown hst]

end Gbis.Sched
