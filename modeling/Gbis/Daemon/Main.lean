import Gbis.Sched.Completion

/-!
# The daemon

`main` of `src/src/main.cpp` from the call of `sched.start()` on, as a transition system
around the scheduler: the thread that runs `main`, the generator that submits the jobs, one
after the other, and the signal handler that sets `g_interrupted`. With `--replay` it is
`main` that submits them, before its wait loop; otherwise it is a thread of its own.

The condition of the wait loop is evaluated piece by piece, each a step: `generator_done`,
`submitted()`, `queued()`, then `completed()` and `submitted()` again, in the order the
compiler chooses. In between the scheduler goes on.

The loop is left by its `break` only when every job has been recorded
(`wait_loop_leaves_nothing`). What carries the argument is that the generator is asked first:
once it is done no counter but `completed_` moves, and that one only grows.
-/

namespace Gbis.Daemon

open Gbis.Core Gbis.Sched Library

/-! ### The state -/

/-- The jobs the daemon submits, and whether they come from `--replay`. -/
structure Workload where
  replay : Bool := false
  jobs : List InferenceJob
  deriving DecidableEq

/-- Where the submission of the jobs is. -/
inductive GeneratorPc where
  /-- Not begun. -/
  | absent
  /-- About to submit the next of these jobs, unless interrupted. -/
  | next (jobs : List InferenceJob)
  /-- In `sched.submit(job)`, as client `i`; these jobs are left. -/
  | submitting (i : ℕ) (jobs : List InferenceJob)
  /-- About to set `generator_done`. -/
  | finished
  /-- Done. -/
  | exited
  deriving DecidableEq

/-- Where `main` is. -/
inductive MainPc where
  /-- The scheduler has been constructed. -/
  | constructed
  /-- In `sched.start()`. -/
  | starting
  /-- It submits the jobs of `--replay`. -/
  | replaying
  /-- At the head of the wait loop. -/
  | loop
  /-- About to look at `generator_done`, `submitted()`, `queued()`. -/
  | ask_done
  | ask_submitted
  | ask_queued
  /-- About to read `completed()` and `submitted()`. -/
  | compare
  /-- It has read `completed()`. -/
  | has_completed (completed : ℕ)
  /-- It has read `submitted()`. -/
  | has_submitted (submitted : ℕ)
  /-- In `sleep_for`. -/
  | asleep
  /-- Out of the wait loop, because it is interrupted or by the `break`. -/
  | left (interrupted : Bool)
  /-- About to call `sched.stop()`. -/
  | before_stop
  /-- In `sched.stop()`. -/
  | stopping
  | returned
  deriving DecidableEq

/-- The state of the process. -/
structure Process where
  sched : State
  g_interrupted : Bool := false
  generator_done : Bool := false
  generator : GeneratorPc := .absent
  main : MainPc := .constructed

/-! ### The steps -/

/-- The labels of the steps, with the choices made in them. -/
inductive Action where
  /-- The scheduler goes on. -/
  | sched (a : Sched.Action)
  /-- SIGINT. -/
  | interrupt
  | generator
  | main
  /-- `http.start()`, and whether it succeeds. -/
  | http (bound : Bool)
  /-- Of the two operands of `>=`, this is read first. -/
  | read_completed
  | read_submitted

/-- What the scheduler may do by itself: its own threads any time, the thread that submits in
its call of `submit()`, and `main` in its calls of `start()` and `stop()`. -/
def Process.permits (p : Process) : Sched.Action → Bool
  | .submit _ | .start | .stop => false
  | .client i => match p.generator with
    | .submitting j _ => i = j
    | _ => false
  | .probe _ _ | .spawn => p.main = .starting
  | .notify_all _ | .join => p.main = .stopping
  | _ => true

variable (o : Options) (w : Workload)

/-- What the generator does. -/
inductive GeneratorStep (p : Process) : Process → Prop where
  /-- It calls `submit(job)`. -/
  | submit {job : InferenceJob} {jobs : List InferenceJob} {t : State} : p.generator = .next (job :: jobs) →
      p.g_interrupted = false → ClientStep p.sched (.submit job) t →
      GeneratorStep p { p with sched := t, generator := .submitting p.sched.submits.length jobs }
  /-- No job is left. -/
  | none : p.generator = .next [] → GeneratorStep p { p with generator := .finished }
  /-- It is interrupted. -/
  | interrupted {jobs : List InferenceJob} : p.generator = .next jobs → p.g_interrupted = true →
      GeneratorStep p { p with generator := .finished }
  /-- `submit` returns. -/
  | returned {i seq : ℕ} {jobs : List InferenceJob} : p.generator = .submitting i jobs →
      p.sched.submits[i]? = some (.returned seq) → GeneratorStep p { p with generator := .next jobs }
  /-- `generator_done.store(true)`. -/
  | done : p.generator = .finished → GeneratorStep p { p with generator_done := true, generator := .exited }

/-- What `main` does. -/
inductive MainStep (p : Process) : Action → Process → Prop where
  /-- It calls `sched.start()`. -/
  | start {t : State} : p.main = .constructed → ControlStep o p.sched .start t →
      MainStep p .main { p with sched := t, main := .starting }
  /-- `http.start()` has failed. -/
  | not_bound : p.main = .starting → p.sched.control = .idle → MainStep p (.http false) { p with main := .before_stop }
  /-- The generator thread is created. -/
  | generate : p.main = .starting → p.sched.control = .idle → w.replay = false →
      MainStep p (.http true) { p with generator := .next w.jobs, main := .loop }
  /-- `main` begins to submit the jobs. -/
  | replay : p.main = .starting → p.sched.control = .idle → w.replay = true →
      MainStep p (.http true) { p with generator := .next w.jobs, main := .replaying }
  | replayed : p.main = .replaying → p.generator = .exited → MainStep p .main { p with main := .loop }
  /-- The wait loop ends because of `g_interrupted`. -/
  | interrupted : p.main = .loop → p.g_interrupted = true → MainStep p .main { p with main := .left true }
  | loop : p.main = .loop → p.g_interrupted = false → MainStep p .main { p with main := .ask_done }
  | not_done : p.main = .ask_done → p.generator_done = false → MainStep p .main { p with main := .asleep }
  | done : p.main = .ask_done → p.generator_done = true → MainStep p .main { p with main := .ask_submitted }
  | none_submitted : p.main = .ask_submitted → p.sched.submitted_ = 0 → MainStep p .main { p with main := .asleep }
  | submitted : p.main = .ask_submitted → 0 < p.sched.submitted_ → MainStep p .main { p with main := .ask_queued }
  | queued : p.main = .ask_queued → p.sched.queue_mutex_free → p.sched.queue_ ≠ [] →
      MainStep p .main { p with main := .asleep }
  | none_queued : p.main = .ask_queued → p.sched.queue_mutex_free → p.sched.queue_ = [] →
      MainStep p .main { p with main := .compare }
  | read_completed : p.main = .compare →
      MainStep p .read_completed { p with main := .has_completed p.sched.completed_ }
  | read_submitted : p.main = .compare →
      MainStep p .read_submitted { p with main := .has_submitted p.sched.submitted_ }
  /-- `completed() >= submitted()`: the loop ends. -/
  | all_completed {completed : ℕ} : p.main = .has_completed completed → p.sched.submitted_ ≤ completed →
      MainStep p .main { p with main := .left false }
  | not_completed {completed : ℕ} : p.main = .has_completed completed → ¬ p.sched.submitted_ ≤ completed →
      MainStep p .main { p with main := .asleep }
  /-- The same, read the other way round. -/
  | all_submitted {submitted : ℕ} : p.main = .has_submitted submitted → submitted ≤ p.sched.completed_ →
      MainStep p .main { p with main := .left false }
  | not_submitted {submitted : ℕ} : p.main = .has_submitted submitted → ¬ submitted ≤ p.sched.completed_ →
      MainStep p .main { p with main := .asleep }
  | slept : p.main = .asleep → MainStep p .main { p with main := .loop }
  /-- `generator.join()`. -/
  | join {interrupted : Bool} : p.main = .left interrupted → p.generator = .exited →
      MainStep p .main { p with main := .before_stop }
  /-- It calls `sched.stop()`. -/
  | stop {t : State} : p.main = .before_stop → ControlStep o p.sched .stop t →
      MainStep p .main { p with sched := t, main := .stopping }
  | stopped : p.main = .stopping → p.sched.control = .idle → MainStep p .main { p with main := .returned }

/-- **A step** of the process, unless it has been terminated. -/
inductive ProcessStep (p : Process) : Action → Process → Prop where
  | sched {a : Sched.Action} {t : State} : p.permits a = true → Step o p.sched a t →
      ProcessStep p (.sched a) { p with sched := t }
  | interrupt : ProcessStep p .interrupt { p with g_interrupted := true }
  | generator {p' : Process} : p.sched.terminated = false → GeneratorStep p p' → ProcessStep p .generator p'
  | main {a : Action} {p' : Process} : p.sched.terminated = false → MainStep o w p a p' → ProcessStep p a p'

/-- The daemon with options `o` and this workload. -/
def daemon : System Process Action where
  init p := ∃ t, p = { sched := { clock := t } }
  step := ProcessStep o w

/-! ### Running it -/

/-- What the generator does, as a function. -/
def generatorAt (p : Process) : Option Process :=
  match p.generator with
  | .next jobs =>
    if p.g_interrupted then some { p with generator := .finished }
    else match jobs with
      | job :: jobs =>
        (clientAt p.sched (.submit job)).map fun t =>
          { p with sched := t, generator := .submitting p.sched.submits.length jobs }
      | [] => some { p with generator := .finished }
  | .submitting i jobs =>
    match p.sched.submits[i]? with
    | some (.returned _) => some { p with generator := .next jobs }
    | _ => none
  | .finished => some { p with generator_done := true, generator := .exited }
  | _ => none

theorem generatorStep_of_generatorAt {p p' : Process} (h : generatorAt p = some p') : GeneratorStep p p' := by
  unfold generatorAt at h
  split at h
  · rename_i hg
    split_ifs at h with hi
    · cases h; exact .interrupted hg hi
    · split at h
      · obtain ⟨t, ht, rfl⟩ := Option.map_eq_some_iff.mp h
        exact .submit hg (by simpa using hi) (clientStep_of_clientAt ht)
      · cases h; exact .none hg
  · rename_i hg
    split at h
    · rename_i hr; cases h; exact .returned hg hr
    · cases h
  · rename_i hg; cases h; exact .done hg
  · cases h

/-- What `main` does, as a function. -/
def mainAt (p : Process) (a : Action) : Option Process :=
  match p.main, a with
  | .constructed, .main => (controlAt o p.sched .start).map fun t => { p with sched := t, main := .starting }
  | .starting, .http bound =>
    if p.sched.control ≠ .idle then none
    else if bound then
      if w.replay then some { p with generator := .next w.jobs, main := .replaying }
      else some { p with generator := .next w.jobs, main := .loop }
    else some { p with main := .before_stop }
  | .replaying, .main => if p.generator = .exited then some { p with main := .loop } else none
  | .loop, .main => some { p with main := if p.g_interrupted then .left true else .ask_done }
  | .ask_done, .main => some { p with main := if p.generator_done then .ask_submitted else .asleep }
  | .ask_submitted, .main => some { p with main := if p.sched.submitted_ = 0 then .asleep else .ask_queued }
  | .ask_queued, .main =>
    if p.sched.queue_mutex_free then some { p with main := if p.sched.queue_ = [] then .compare else .asleep } else none
  | .compare, .read_completed => some { p with main := .has_completed p.sched.completed_ }
  | .compare, .read_submitted => some { p with main := .has_submitted p.sched.submitted_ }
  | .has_completed completed, .main =>
    some { p with main := if p.sched.submitted_ ≤ completed then .left false else .asleep }
  | .has_submitted submitted, .main =>
    some { p with main := if submitted ≤ p.sched.completed_ then .left false else .asleep }
  | .asleep, .main => some { p with main := .loop }
  | .left _, .main => if p.generator = .exited then some { p with main := .before_stop } else none
  | .before_stop, .main => (controlAt o p.sched .stop).map fun t => { p with sched := t, main := .stopping }
  | .stopping, .main => if p.sched.control = .idle then some { p with main := .returned } else none
  | _, _ => none

theorem mainStep_of_mainAt {p p' : Process} {a : Action} (h : mainAt o w p a = some p') : MainStep o w p a p' := by
  unfold mainAt at h
  split at h
  · rename_i hm
    obtain ⟨t, ht, rfl⟩ := Option.map_eq_some_iff.mp h
    exact .start hm (controlStep_of_controlAt o ht)
  · rename_i bound hm
    split_ifs at h with hc hb hr
    · cases h; subst hb; exact .replay hm (by simpa using hc) hr
    · cases h; subst hb; exact .generate hm (by simpa using hc) (by simpa using hr)
    · cases h
      obtain rfl : bound = false := by simpa using hb
      exact .not_bound hm (by simpa using hc)
  · rename_i hm
    split_ifs at h with hg
    cases h
    exact .replayed hm hg
  · rename_i hm
    cases h
    split_ifs with hi
    · exact .interrupted hm hi
    · exact .loop hm (by simpa using hi)
  · rename_i hm
    cases h
    split_ifs with hd
    · exact .done hm hd
    · exact .not_done hm (by simpa using hd)
  · rename_i hm
    cases h
    split_ifs with hs
    · exact .none_submitted hm hs
    · exact .submitted hm (Nat.pos_of_ne_zero hs)
  · rename_i hm
    split_ifs at h with hf hq
    · cases h; exact .none_queued hm hf hq
    · cases h; exact .queued hm hf hq
  · rename_i hm; cases h; exact .read_completed hm
  · rename_i hm; cases h; exact .read_submitted hm
  · rename_i hm
    cases h
    split_ifs with hle
    · exact .all_completed hm hle
    · exact .not_completed hm hle
  · rename_i hm
    cases h
    split_ifs with hle
    · exact .all_submitted hm hle
    · exact .not_submitted hm hle
  · rename_i hm; cases h; exact .slept hm
  · rename_i hm
    split_ifs at h with hg
    cases h
    exact .join hm hg
  · rename_i hm
    obtain ⟨t, ht, rfl⟩ := Option.map_eq_some_iff.mp h
    exact .stop hm (controlStep_of_controlAt o ht)
  · rename_i hm
    split_ifs at h with hc
    cases h
    exact .stopped hm hc
  · cases h

/-- The step with a given label, if there is one. -/
def processAt (p : Process) (a : Action) : Option Process :=
  match a with
  | .sched b => if p.permits b then (stepAt o p.sched b).map fun t => { p with sched := t } else none
  | .interrupt => some { p with g_interrupted := true }
  | .generator => if p.sched.terminated then none else generatorAt p
  | a => if p.sched.terminated then none else mainAt o w p a

theorem processStep_of_processAt (p : Process) (a : Action) (p' : Process) (h : processAt o w p a = some p') :
    ProcessStep o w p a p' := by
  unfold processAt at h
  split at h
  · split_ifs at h with hp
    obtain ⟨t, ht, rfl⟩ := Option.map_eq_some_iff.mp h
    exact .sched hp (step_of_stepAt o ht)
  · cases h; exact .interrupt
  · split_ifs at h with ht
    exact .generator (by simpa using ht) (generatorStep_of_generatorAt h)
  · split_ifs at h with ht
    exact .main (by simpa using ht) (mainStep_of_mainAt o w h)

end Gbis.Daemon
