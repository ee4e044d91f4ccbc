import Gbis.Bindings.Arguments
import Gbis.Sched.Scheduler

/-!
# The scheduler of the Python module

The process-global scheduler of `src/src/bindings/py_module.cpp`, as a transition system: the
globals `g_sched`, `g_opts`, `g_running` and `g_mutex`, every `BatchScheduler` that has been
created, and the calls of `submit_job`, `Scheduler.start` and `Scheduler.stop` that Python
threads have made, in the order they were made. The GIL is released in all three, so any
number of calls may be under way.

## The steps

A call reads or writes one of the globals at a time, and creates or destroys an instance in
one step; `g_mutex` is taken by `Scheduler.start` and `Scheduler.stop`, and not by
`submit_job`. An instance is a scheduler (`Gbis.Sched.scheduler`), whose threads go on by
themselves; it also goes on in the calls of its `start()`, `stop()` and `submit()` that are
under way. A `start()` of an instance that has been started returns at once, and so does a
`stop()` of one that has not. A `stop()` of an instance whose `start()` is still under way is
left out.

Dereferencing `g_sched` when it is null, and calling a destroyed instance, is undefined
(`CallPc.undefined`).
-/

namespace Gbis.Bindings

open Gbis.Core Gbis.Sched Library

/-! ### The state -/

/-- A `BatchScheduler`. -/
structure Instance where
  opts : Options
  sched : State
  destroyed : Bool := false

/-- What comes after an instance has been created and started. -/
inductive After where
  /-- `ensure_scheduler()` returns, and the job is submitted. -/
  | submit (job : InferenceJob)
  /-- `start_scheduler` returns. -/
  | unlock
  deriving DecidableEq

/-- Where a call is. -/
inductive CallPc where
  /-- At `if (!g_sched)`. -/
  | check (job : InferenceJob)
  /-- At `return *g_sched`. -/
  | deref (job : InferenceJob)
  /-- About to call `submit` of instance `k`. -/
  | submit (job : InferenceJob) (k : ℕ)
  /-- In `submit` of instance `k`, as its client `c`. -/
  | submitting (k c : ℕ)
  /-- `submit_job` has returned. -/
  | returned (k seq : ℕ)
  /-- At `make_unique<BatchScheduler>(g_opts)`. -/
  | make (after : After)
  /-- About to assign it to `g_sched`. -/
  | assign (after : After) (k : ℕ)
  /-- At `g_sched->start()`. -/
  | call_start (after : After)
  /-- In `start()` of instance `k`. -/
  | starting (after : After) (k : ℕ)
  /-- At `g_running = true`. -/
  | set_running (after : After)
  /-- `Scheduler.start` is about to take `g_mutex`. -/
  | lock_start (args : StartArgs)
  /-- It writes `g_opts`. -/
  | set_opts (args : StartArgs)
  /-- At its `if (g_running)`. -/
  | check_start
  /-- At `g_sched.reset()`. -/
  | reset
  /-- `Scheduler.stop` is about to take `g_mutex`. -/
  | lock_stop
  /-- At its `if (!g_running)`. -/
  | check_stop
  /-- At `g_sched->stop()`. -/
  | call_stop
  /-- In `stop()` of instance `k`. -/
  | stopping (k : ℕ)
  /-- At `g_running = false`. -/
  | clear_running
  /-- About to release `g_mutex`. -/
  | unlock
  /-- `Scheduler.start` or `Scheduler.stop` has returned. -/
  | done
  /-- The call has thrown. -/
  | raised (e : ValueError)
  /-- The call has done something undefined. -/
  | undefined
  deriving DecidableEq

/-- The globals, the instances created, and the calls made. -/
structure Module where
  g_sched : Option ℕ := none
  g_opts : Options := {}
  g_running : Bool := false
  /-- The call that holds `g_mutex`. -/
  g_mutex : Option ℕ := none
  instances : List Instance := []
  calls : List CallPc := []

/-- What Python calls. -/
inductive EntryPoint where
  | submit_job (m n k batch priority : Int32)
  | start (max_batch workers : Int32) (impl : String)
  | stop

/-- Where a call begins, once its arguments have been checked. -/
def EntryPoint.entry : EntryPoint → CallPc
  | .submit_job m n k batch priority =>
    match submitted_job m n k batch priority with
    | .ok job => .check job
    | .error e => .raised e
  | .start max_batch workers impl =>
    match start_args max_batch workers impl with
    | .ok args => .lock_start args
    | .error e => .raised e
  | .stop => .lock_stop

/-- An exception has left a thread of some instance. -/
def Module.terminated (m : Module) : Bool := m.instances.any (·.sched.terminated)

/-- Call `i` is now there. -/
def Module.setCall (m : Module) (i : ℕ) (pc : CallPc) : Module := { m with calls := m.calls.set i pc }

/-- Instance `k` is now in this state. -/
def Module.setSched (m : Module) (k : ℕ) (t : State) : Module :=
  { m with instances := m.instances.modify k fun inst => { inst with sched := t } }

/-- The instance `g_sched` points to is destroyed, if there is one. -/
def Module.discard (m : Module) : Module :=
  match m.g_sched with
  | some k => { m with instances := m.instances.modify k fun inst => { inst with destroyed := true } }
  | none => m

/-- Where a call goes when the instance it has created is running. -/
def After.next : After → CallPc
  | .submit job => .deref job
  | .unlock => .unlock

/-! ### The steps -/

/-- `g_sched->start()`. -/
def callStart (m : Module) (i : ℕ) (after : After) : Option Module :=
  match m.g_sched with
  | none => some (m.setCall i .undefined)
  | some k => (m.instances[k]?).bind fun inst =>
    if inst.sched.started_ then some (m.setCall i (.set_running after))
    else (controlAt inst.opts inst.sched .start).map fun t => (m.setSched k t).setCall i (.starting after k)

/-- `g_sched->stop()`. -/
def callStop (m : Module) (i : ℕ) : Option Module :=
  match m.g_sched with
  | none => some (m.setCall i .undefined)
  | some k => (m.instances[k]?).bind fun inst =>
    if inst.sched.started_ then
      (controlAt inst.opts inst.sched .stop).map fun t => (m.setSched k t).setCall i (.stopping k)
    else some (m.setCall i .clear_running)

/-- The call of `submit(job)` of instance `k`. -/
def callSubmit (m : Module) (i : ℕ) (job : InferenceJob) (k : ℕ) : Option Module :=
  (m.instances[k]?).bind fun inst =>
    if inst.destroyed then some (m.setCall i .undefined)
    else (clientAt inst.sched (.submit job)).map fun t =>
      (m.setSched k t).setCall i (.submitting k inst.sched.submits.length)

/-- Whether `start()` or `stop()` of instance `k`, called by this thread, has returned. -/
def Module.idle (m : Module) (k : ℕ) : Bool := (m.instances[k]?).any (·.sched.control = .idle)

/-- What call `i` does next. An instance that is created finds the clock at `now`. -/
def callNext (m : Module) (i : ℕ) (now : ℤ) : CallPc → Option Module
  | .check job => some (m.setCall i (if m.g_sched = none then .make (.submit job) else .deref job))
  | .deref job =>
    match m.g_sched with
    | none => some (m.setCall i .undefined)
    | some k => some (m.setCall i (.submit job k))
  | .submit job k => callSubmit m i job k
  | .submitting k c =>
    match (m.instances[k]?).bind fun inst => inst.sched.submits[c]? with
    | some (.returned seq) => some (m.setCall i (.returned k seq))
    | _ => none
  | .make after =>
    some { m with instances := m.instances ++ [{ opts := m.g_opts, sched := { clock := now } }],
                  calls := m.calls.set i (.assign after m.instances.length) }
  | .assign after k => some { m.discard.setCall i (.call_start after) with g_sched := some k }
  | .call_start after => callStart m i after
  | .starting after k => if m.idle k then some (m.setCall i (.set_running after)) else none
  | .set_running after => some { m.setCall i after.next with g_running := true }
  | .lock_start args => if m.g_mutex = none then some { m.setCall i (.set_opts args) with g_mutex := some i } else none
  | .set_opts args =>
    some { m.setCall i .check_start with
           g_opts := { m.g_opts with max_batch := args.max_batch, num_workers := args.workers, impl := args.impl } }
  | .check_start => some (m.setCall i (if m.g_running then .unlock else .reset))
  | .reset => some { m.discard.setCall i (.make .unlock) with g_sched := none }
  | .lock_stop => if m.g_mutex = none then some { m.setCall i .check_stop with g_mutex := some i } else none
  | .check_stop => some (m.setCall i (if m.g_running then .call_stop else .unlock))
  | .call_stop => callStop m i
  | .stopping k => if m.idle k then some (m.setCall i .clear_running) else none
  | .clear_running => some { m.setCall i .unlock with g_running := false }
  | .unlock => some { m.setCall i .done with g_mutex := none }
  | .returned _ _ | .done | .raised _ | .undefined => none

/-- What instance `k` may do: its threads go on any time, and the rest is done by the calls
that are in it. -/
def Module.permits (m : Module) (k : ℕ) : Sched.Action → Bool
  | .submit _ | .start | .stop => false
  | .client c => m.calls.any (· = .submitting k c)
  | .probe _ _ | .spawn => m.calls.any fun
    | .starting _ k' => k' = k
    | _ => false
  | .notify_all _ | .join => m.calls.any (· = .stopping k)
  | _ => true

/-- The labels of the steps, with the choices made in them. -/
inductive ModuleAction where
  /-- A Python thread calls. -/
  | call (f : EntryPoint)
  /-- Call `i` goes on. -/
  | go (i : ℕ) (now : ℤ)
  /-- Instance `k` goes on. -/
  | sched (k : ℕ) (a : Sched.Action)

/-- **A step** of the process, unless it has been terminated. -/
inductive ModuleStep (m : Module) : ModuleAction → Module → Prop where
  | call (f : EntryPoint) : m.terminated = false → ModuleStep m (.call f) { m with calls := m.calls ++ [f.entry] }
  | go {i : ℕ} {now : ℤ} {pc : CallPc} {m' : Module} : m.terminated = false → m.calls[i]? = some pc →
      callNext m i now pc = some m' → ModuleStep m (.go i now) m'
  | sched {k : ℕ} {a : Sched.Action} {inst : Instance} {t : State} : m.terminated = false →
      m.instances[k]? = some inst → inst.destroyed = false → m.permits k a = true → Step inst.opts inst.sched a t →
      ModuleStep m (.sched k a) (m.setSched k t)

/-- The process, from the import of the module on. -/
def python : System Module ModuleAction where
  init m := m = {}
  step := ModuleStep

/-! ### What a call does -/

section Calls

variable {m m' : Module} {i : ℕ}

@[simp] theorem discard_calls (m : Module) : m.discard.calls = m.calls := by
  unfold Module.discard
  split <;> rfl

@[simp] theorem discard_g_running (m : Module) : m.discard.g_running = m.g_running := by
  unfold Module.discard
  split <;> rfl

theorem discard_eq (h : m.g_sched = none) : m.discard = m := by
  simp only [Module.discard, h]

/-- Where a call may begin. -/
inductive Entered : CallPc → Prop where
  | check (job : InferenceJob) : Entered (.check job)
  | lock_start (args : StartArgs) : Entered (.lock_start args)
  | lock_stop : Entered .lock_stop
  | raised (e : ValueError) : Entered (.raised e)

theorem EntryPoint.entered (f : EntryPoint) : Entered f.entry := by
  cases f with
  | submit_job =>
    unfold EntryPoint.entry
    dsimp only
    split
    · exact .check _
    · exact .raised _
  | start =>
    unfold EntryPoint.entry
    dsimp only
    split
    · exact .lock_start _
    · exact .raised _
  | stop => exact .lock_stop

theorem callSubmit_cases {job : InferenceJob} {k : ℕ} (h : callSubmit m i job k = some m') :
    ∃ inst : Instance, m.instances[k]? = some inst ∧
      (inst.destroyed = true ∧ m' = m.setCall i .undefined ∨
       inst.destroyed = false ∧ ∃ t, ClientStep inst.sched (.submit job) t ∧
        m' = (m.setSched k t).setCall i (.submitting k inst.sched.submits.length)) := by
  obtain ⟨inst, hinst, h⟩ := Option.bind_eq_some_iff.mp h
  refine ⟨inst, hinst, ?_⟩
  split_ifs at h with hd
  · exact .inl ⟨hd, (Option.some.inj h).symm⟩
  · obtain ⟨t, ht, rfl⟩ := Option.map_eq_some_iff.mp h
    exact .inr ⟨(Bool.not_eq_true _).mp hd, t, clientStep_of_clientAt ht, rfl⟩

theorem callStart_cases {after : After} (h : callStart m i after = some m') :
    m.g_sched = none ∧ m' = m.setCall i .undefined ∨
    ∃ k, m.g_sched = some k ∧ ∃ inst : Instance, m.instances[k]? = some inst ∧
      (inst.sched.started_ = true ∧ m' = m.setCall i (.set_running after) ∨
       inst.sched.started_ = false ∧ ∃ t, ControlStep inst.opts inst.sched .start t ∧
        m' = (m.setSched k t).setCall i (.starting after k)) := by
  unfold callStart at h
  split at h
  · rename_i hg
    exact .inl ⟨hg, (Option.some.inj h).symm⟩
  · rename_i k hg
    obtain ⟨inst, hinst, h⟩ := Option.bind_eq_some_iff.mp h
    refine .inr ⟨k, hg, inst, hinst, ?_⟩
    split_ifs at h with hs
    · exact .inl ⟨hs, (Option.some.inj h).symm⟩
    · obtain ⟨t, ht, rfl⟩ := Option.map_eq_some_iff.mp h
      exact .inr ⟨(Bool.not_eq_true _).mp hs, t, controlStep_of_controlAt _ ht, rfl⟩

theorem callStop_cases (h : callStop m i = some m') :
    m.g_sched = none ∧ m' = m.setCall i .undefined ∨
    ∃ k, m.g_sched = some k ∧ ∃ inst : Instance, m.instances[k]? = some inst ∧
      (inst.sched.started_ = false ∧ m' = m.setCall i .clear_running ∨
       inst.sched.started_ = true ∧ ∃ t, ControlStep inst.opts inst.sched .stop t ∧
        m' = (m.setSched k t).setCall i (.stopping k)) := by
  unfold callStop at h
  split at h
  · rename_i hg
    exact .inl ⟨hg, (Option.some.inj h).symm⟩
  · rename_i k hg
    obtain ⟨inst, hinst, h⟩ := Option.bind_eq_some_iff.mp h
    refine .inr ⟨k, hg, inst, hinst, ?_⟩
    split_ifs at h with hs
    · obtain ⟨t, ht, rfl⟩ := Option.map_eq_some_iff.mp h
      exact .inr ⟨hs, t, controlStep_of_controlAt _ ht, rfl⟩
    · exact .inl ⟨(Bool.not_eq_true _).mp hs, (Option.some.inj h).symm⟩

end Calls

/-! ### Running it -/

/-- The step with a given label, if there is one. -/
def moduleAt (m : Module) (a : ModuleAction) : Option Module :=
  if m.terminated then none
  else match a with
    | .call f => some { m with calls := m.calls ++ [f.entry] }
    | .go i now => (m.calls[i]?).bind (callNext m i now)
    | .sched k a => (m.instances[k]?).bind fun inst =>
      if inst.destroyed = false ∧ m.permits k a = true then (stepAt inst.opts inst.sched a).map (m.setSched k) else none

theorem moduleStep_of_moduleAt {m m' : Module} {a : ModuleAction} (h : moduleAt m a = some m') : ModuleStep m a m' := by
  unfold moduleAt at h
  split_ifs at h with ht
  have ht : m.terminated = false := by simpa using ht
  cases a with
  | call f => cases h; exact .call f ht
  | go i now =>
    obtain ⟨pc, hpc, h⟩ := Option.bind_eq_some_iff.mp h
    exact .go ht hpc h
  | sched k a =>
    obtain ⟨inst, hinst, h⟩ := Option.bind_eq_some_iff.mp h
    split_ifs at h with hp
    obtain ⟨t, ht', rfl⟩ := Option.map_eq_some_iff.mp h
    exact .sched ht hinst hp.1 hp.2 (step_of_stepAt _ ht')

/-- What is found at the end of a run with given labels holds of a state that is reached. -/
theorem exists_module_of_follow (ok : Module → ModuleAction → Prop) [∀ m a, Decidable (ok m a)] (as : List ModuleAction)
    (q : Module → Bool) (h : (follow moduleAt ok {} as).any q = true) : ∃ m, Reachable python ok m ∧ q m = true :=
  Reachable.of_follow (T := python) ok (fun _ _ _ => moduleStep_of_moduleAt) rfl as q h

end Gbis.Bindings
