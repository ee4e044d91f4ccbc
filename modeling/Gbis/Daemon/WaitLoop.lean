import Gbis.Daemon.Main

/-!
# Leaving the wait loop

The daemon's process is a run of the scheduler seen through its own state
(`daemon_simulation`), so that everything known of the scheduler is known of the daemon's. What
is added here is where `main` and the generator are relative to one another (`Waiting`), and
from that, what is so once the wait loop has been left by its `break`.
-/

namespace Gbis.Daemon

open Gbis.Core Gbis.Sched Library

variable {o : Options} {w : Workload} {p p' : Process} {a : Action}

/-! ### The scheduler in the daemon -/

/-- A step of the process is a step of the scheduler, or none. -/
theorem ProcessStep.sched_cases (h : ProcessStep o w p a p') :
    p'.sched = p.sched ∨ ∃ b, Step o p.sched b p'.sched := by
  cases h with
  | sched _ h => exact .inr ⟨_, h⟩
  | interrupt => exact .inl rfl
  | generator ht h =>
    cases h with
    | submit _ _ h => exact .inr ⟨_, .client ht h⟩
    | _ => exact .inl rfl
  | main ht h =>
    cases h with
    | start _ h | stop _ h => exact .inr ⟨_, .control ht h⟩
    | _ => exact .inl rfl

/-- **The daemon runs the scheduler.** -/
theorem daemon_simulation : Simulation (daemon o w) Always (scheduler o) Process.sched where
  init := by
    rintro _ ⟨t, rfl⟩
    exact ⟨t, rfl⟩
  step _ hstep _ := ProcessStep.sched_cases hstep

/-! ### The clients -/

/-- A step of the scheduler on its own moves no client but the one that submits. -/
theorem client_of_permits {b : Sched.Action} {t : State} (hp : p.permits b = true) (h : Step o p.sched b t) :
    (∃ i jobs, p.generator = .submitting i jobs ∧ ∀ j, j ≠ i → t.submits[j]? = p.sched.submits[j]?) ∨
      SameClients p.sched t := by
  rcases h.client_cases with hc | hc
  · have hset : ∀ {i : ℕ} {pc : SubmitPc}, p.permits (.client i) = true → t.submits = p.sched.submits.set i pc →
        ∃ i jobs, p.generator = .submitting i jobs ∧ ∀ j, j ≠ i → t.submits[j]? = p.sched.submits[j]? := by
      intro i pc hi ht
      unfold Process.permits at hi
      dsimp only at hi
      split at hi
      · rename_i k jobs hg
        obtain rfl : i = k := by simpa using hi
        exact ⟨i, jobs, hg, fun j hj => by rw [ht, List.getElem?_set_ne (Ne.symm hj)]⟩
      · cases hi
    cases hc with
    | tick => exact .inr ⟨rfl, rfl, rfl⟩
    | submit => cases hp
    | push => exact .inl (hset hp rfl)
    | count => exact .inl (hset hp rfl)
    | notify => exact .inl (hset hp rfl)
  · exact .inr hc

/-- Once the generator has left the clients are left alone. -/
theorem sameClients_of_exited (hg : p.generator = .exited) (h : ProcessStep o w p a p')
    (hm : p.main = .starting → p.generator = .absent) :
    SameClients p.sched p'.sched ∧ p'.generator = .exited := by
  cases h with
  | sched hp h =>
    rcases client_of_permits hp h with ⟨i, jobs, hg', -⟩ | hsame
    · rw [hg] at hg'
      cases hg'
    · exact ⟨hsame, hg⟩
  | interrupt => exact ⟨⟨rfl, rfl, rfl⟩, hg⟩
  | generator _ h => cases h <;> simp_all
  | main _ h =>
    cases h with
    | start _ h | stop _ h => cases h; exact ⟨⟨rfl, rfl, rfl⟩, hg⟩
    | generate hm' | replay hm' => simp [hg] at hm; exact absurd hm' hm
    | _ => exact ⟨⟨rfl, rfl, rfl⟩, hg⟩

/-! ### Where `main` finds the generator -/

/-- Whether `main` has found `generator_done` set. -/
def MainPc.asked : MainPc → Bool
  | .ask_submitted | .ask_queued | .compare | .has_completed _ | .has_submitted _ | .left false => true
  | _ => false

/-- Whether `main` has not come to the wait loop yet. -/
def MainPc.early : MainPc → Bool
  | .constructed | .starting => true
  | _ => false

/-- What `main` may rely on in its wait loop. -/
structure Waiting (p : Process) : Prop where
  early : p.main.early = true → p.generator = .absent
  clients : ∀ i pc, p.sched.submits[i]? = some pc → pc.isReturned = true ∨ ∃ jobs, p.generator = .submitting i jobs
  done : p.generator_done = true → p.generator = .exited
  asked : p.main.asked = true → p.generator = .exited
  has_completed : ∀ n, p.main = .has_completed n → n ≤ p.sched.completed_
  has_submitted : ∀ n, p.main = .has_submitted n → n = p.sched.submitted_
  left : p.main = .left false → p.sched.submitted_ ≤ p.sched.completed_

/-- A place outside the condition of the wait loop asks for nothing. -/
theorem Waiting.of_not_asked (hclients : ∀ i pc, p.sched.submits[i]? = some pc →
      pc.isReturned = true ∨ ∃ jobs, p.generator = .submitting i jobs)
    (hdone : p.generator_done = true → p.generator = .exited) (he : p.main.early = true → p.generator = .absent)
    (ha : p.main.asked = false) : Waiting p := by
  refine ⟨he, hclients, hdone, ?_, ?_, ?_, ?_⟩
  · intro h
    rw [ha] at h
    cases h
  · rintro n hn
    simp [hn, MainPc.asked] at ha
  · rintro n hn
    simp [hn, MainPc.asked] at ha
  · intro hl
    simp [hl, MainPc.asked] at ha

/-- `main` moves on, the generator being done. -/
theorem Waiting.set_main (hs : Waiting p) {m : MainPc} (hg : p.generator = .exited) (he : m.early = false)
    (hc : ∀ n, m = .has_completed n → n ≤ p.sched.completed_)
    (hsub : ∀ n, m = .has_submitted n → n = p.sched.submitted_)
    (hl : m = .left false → p.sched.submitted_ ≤ p.sched.completed_) : Waiting { p with main := m } :=
  ⟨fun h => by simp [he] at h, hs.clients, hs.done, fun _ => hg, hc, hsub, hl⟩

theorem Waiting.returned (hs : Waiting p) (hg : ∀ i jobs, p.generator ≠ .submitting i jobs) :
    ∀ pc ∈ p.sched.submits, pc.isReturned = true := by
  intro pc hpc
  obtain ⟨i, hi⟩ := List.mem_iff_getElem?.mp hpc
  rcases hs.clients i pc hi with hr | ⟨jobs, hj⟩
  · exact hr
  · exact absurd hj (hg i jobs)

theorem Waiting.sched (hs : Waiting p) {b : Sched.Action} {t : State} (hp : p.permits b = true)
    (h : Step o p.sched b t) : Waiting { p with sched := t } := by
  have hle := h.completed_le
  have hcases := client_of_permits hp h
  have hsame : p.generator = .exited → SameClients p.sched t := fun hg =>
    hcases.resolve_left fun ⟨i, jobs, hg', _⟩ => by rw [hg] at hg'; cases hg'
  refine ⟨hs.early, fun j pc hj => ?_, hs.done, hs.asked, fun n hn => (hs.has_completed n hn).trans hle, fun n hn => ?_,
    fun hl => ?_⟩
  · rcases hcases with ⟨i, jobs, hg, hother⟩ | hsame
    · by_cases hji : j = i
      · exact .inr ⟨jobs, hji ▸ hg⟩
      · exact hs.clients j pc ((hother j hji).symm.trans hj)
    · exact hs.clients j pc (by rw [← hsame.submits]; exact hj)
  · rw [hs.has_submitted n hn]
    exact (hsame (hs.asked (by rw [hn]; rfl))).submitted_.symm
  · rw [show t.submitted_ = p.sched.submitted_ from (hsame (hs.asked (by rw [hl]; rfl))).submitted_]
    exact (hs.left hl).trans hle

theorem GeneratorStep.waiting (h : GeneratorStep p p') (hs : Waiting p) : Waiting p' := by
  have hmain : p'.main = p.main := by cases h <;> rfl
  have hnot : p.generator ≠ .exited ∧ p.generator ≠ .absent := by cases h <;> simp_all
  have hasked : p'.main.asked = false := by
    rw [hmain]
    by_contra ha
    exact hnot.1 (hs.asked (by simpa using ha))
  have hearly : p'.main.early = true → p'.generator = .absent := by
    intro he
    rw [hmain] at he
    exact absurd (hs.early he) hnot.2
  have hdone : p.generator_done = false := by
    by_contra hd
    exact hnot.1 (hs.done (by simpa using hd))
  refine Waiting.of_not_asked ?_ ?_ hearly hasked
  · intro i pc hi
    have hold : ∀ pc ∈ p.sched.submits, (∀ i jobs, p.generator ≠ .submitting i jobs) → pc.isReturned = true :=
      fun pc hpc hg => hs.returned hg pc hpc
    cases h with
    | @submit job jobs t hg _ hsub =>
      cases hsub
      rcases Nat.lt_trichotomy i p.sched.submits.length with hlt | heq | hgt
      · have hi : p.sched.submits[i]? = some pc := (List.getElem?_append_left hlt).symm.trans hi
        exact .inl (hold pc (List.mem_of_getElem? hi) (by simp [hg]))
      · exact .inr ⟨jobs, by rw [heq]⟩
      · have hi : _ = some pc := (List.getElem?_eq_none (by simp; omega)).symm.trans hi
        cases hi
    | none hg | interrupted hg | done hg => exact .inl (hold pc (List.mem_of_getElem? hi) (by simp [hg]))
    | returned hg hr =>
      rcases hs.clients i pc hi with hret | ⟨jobs', hg'⟩
      · exact .inl hret
      · obtain ⟨rfl, -⟩ := GeneratorPc.submitting.inj (hg.symm.trans hg')
        obtain rfl : _ = pc := Option.some.inj (hr.symm.trans hi)
        exact .inl rfl
  · intro hd
    cases h with
    | done => rfl
    | _ => simp [hdone] at hd

theorem MainStep.waiting (h : MainStep o w p a p') (hs : Waiting p) : Waiting p' := by
  have hexited := hs.asked
  cases h with
  | start hm h =>
    cases h
    exact Waiting.of_not_asked hs.clients hs.done (fun _ => hs.early (by rw [hm]; rfl)) rfl
  | stop hm h =>
    cases h
    exact Waiting.of_not_asked hs.clients hs.done (by simp [MainPc.early]) rfl
  | generate hm _ _ | replay hm _ _ =>
    have habsent := hs.early (by rw [hm]; rfl)
    refine Waiting.of_not_asked (fun i pc hi => ?_) (fun hd => ?_) (by simp [MainPc.early]) rfl
    · exact .inl (hs.returned (by simp [habsent]) pc (List.mem_of_getElem? hi))
    · have hg := hs.done hd
      rw [habsent] at hg
      cases hg
  | done hm hd => exact hs.set_main (hs.done hd) rfl (by simp) (by simp) (by simp)
  | submitted hm | none_queued hm =>
    rw [hm] at hexited
    exact hs.set_main (hexited rfl) rfl (by simp) (by simp) (by simp)
  | read_completed hm =>
    rw [hm] at hexited
    exact hs.set_main (hexited rfl) rfl (fun n hn => (MainPc.has_completed.inj hn).ge) (by simp) (by simp)
  | read_submitted hm =>
    rw [hm] at hexited
    exact hs.set_main (hexited rfl) rfl (by simp) (fun n hn => (MainPc.has_submitted.inj hn).symm) (by simp)
  | all_completed hm hle =>
    have hcomp := hs.has_completed _ hm
    rw [hm] at hexited
    exact hs.set_main (hexited rfl) rfl (by simp) (by simp) fun _ => hle.trans hcomp
  | all_submitted hm hle =>
    have hsub := hs.has_submitted _ hm
    rw [hm] at hexited
    exact hs.set_main (hexited rfl) rfl (by simp) (by simp) fun _ => hsub ▸ hle
  | not_bound | replayed | interrupted | loop | not_done | none_submitted | queued | not_completed
      | not_submitted | slept
  | join | stopped =>
    exact Waiting.of_not_asked hs.clients hs.done (by simp [MainPc.early]) rfl

theorem waiting (h : Reachable (daemon o w) Always p) : Waiting p := by
  refine h.invariant (I := Waiting) ?_ fun {p a p'} _ hs hstep _ => ?_
  · rintro _ ⟨t, rfl⟩
    exact Waiting.of_not_asked (by simp) (by simp) (fun _ => rfl) rfl
  · have hstep : ProcessStep o w p a p' := hstep
    cases hstep with
    | sched hp h => exact hs.sched hp h
    | interrupt => exact ⟨hs.early, hs.clients, hs.done, hs.asked, hs.has_completed, hs.has_submitted, hs.left⟩
    | generator _ h => exact h.waiting hs
    | main _ h => exact h.waiting hs

/-! ### When the loop has been left -/

/-- The generator is done, and as many jobs have been completed as have been submitted. -/
structure Finished (p : Process) : Prop where
  exited : p.generator = .exited
  completed : p.sched.next_seq_ ≤ p.sched.completed_

theorem ProcessStep.finished (h : ProcessStep o w p a p') (hw : Waiting p) (hs : Finished p) : Finished p' := by
  obtain ⟨hsame, hg⟩ := sameClients_of_exited hs.exited h fun hm => hw.early (by rw [hm]; rfl)
  have hle : p.sched.completed_ ≤ p'.sched.completed_ := by
    rcases h.sched_cases with heq | ⟨b, hb⟩
    · rw [heq]
    · exact hb.completed_le
  refine ⟨hg, ?_⟩
  rw [hsame.next_seq_]
  exact hs.completed.trans hle

theorem Finished.allDone (h : Reachable (daemon o w) Always p) (hs : Finished p) : AllDone p.sched :=
  allDone_of_completed (daemon_simulation.reachable h) ((waiting h).returned (by simp [hs.exited])) hs.completed

theorem finished_of_left (h : Reachable (daemon o w) Always p) (hl : p.main = .left false) : Finished p := by
  have hw := waiting h
  have hg := hw.asked (by rw [hl]; rfl)
  have hsub := submitted_eq (daemon_simulation.reachable h) (hw.returned (by simp [hg]))
  exact ⟨hg, hsub ▸ hw.left hl⟩

/-- **The wait loop leaves nothing.** When it has been left by its `break`, every job that has
been submitted has exactly one entry in `metrics_`, and is neither queued, nor in a batch, nor
held by a thread; and so it stays, through `stop()` and to the end. -/
theorem wait_loop_leaves_nothing (h : Reachable (daemon o w) Always p) (hl : p.main = .left false) :
    AllDone p.sched ∧ ∀ p', Steps (daemon o w) Always p p' → AllDone p'.sched := by
  have hall : ∀ p', Steps (daemon o w) Always p p' → AllDone p'.sched := by
    intro p' hrun
    have hfinished : Reachable (daemon o w) Always p' ∧ Finished p' :=
      hrun.preserves (I := fun p => Reachable (daemon o w) Always p ∧ Finished p)
        (fun hs hstep ha => ⟨hs.1.tail hstep ha, ProcessStep.finished hstep (waiting hs.1) hs.2⟩)
          ⟨h, finished_of_left h hl⟩
    exact hfinished.2.allDone hfinished.1
  exact ⟨hall p .refl, hall⟩

/-- One worker, and a fixed budget. -/
def threeJobsOptions : Options := { num_workers := 1, fixed_budget_bytes := 1024 }

/-- Three jobs. -/
def threeJobs : Workload :=
  { jobs := [{ m := 2, n := 3, k := 2 }, { m := 1, n := 2, k := 4, batch := 2 }, { m := 3, n := 1, k := 1 }] }

/-- Worker `0` is answered, for the `n`-th time. -/
def answerWorker (n : ℕ) (p : Process) : Option Action := (answerFresh 0 n p.sched).map .sched

/-- Client `i` submits its job. -/
def submission (i : ℕ) : List Action := .generator :: List.replicate 3 (.sched (.client i)) ++ [.generator]

/-- The first two jobs are packed; while a worker executes them the third is submitted, and `main` asks and sleeps,
since it is queued. It asks again while the worker executes that one, and leaves the loop. -/
def threeJobsRun : List (Process → Option Action) :=
  ofLabels ([.main, .sched (.probe false 1073741824), .sched .spawn, .sched .spawn, .http true] ++ submission 0 ++
    submission 1 ++ [.main, .main] ++ List.replicate 9 (.sched .dispatcher) ++
    [.sched (.notify_worker none), .sched (.worker 0)] ++ submission 2 ++
    [.generator, .main, .generator, .main, .main, .main, .main]) ++
  (List.range 79).map answerWorker ++
  ofLabels ([.sched (.worker 0), .main, .main] ++ List.replicate 9 (.sched .dispatcher) ++
    [.sched (.notify_worker none), .sched (.worker 0)]) ++
  (List.range 37).map answerWorker ++
  ofLabels [.sched (.worker 0), .main, .main, .main, .read_submitted, .main]

/-- `main` stops the scheduler. -/
def stopRun : List Action :=
  [.main, .main, .sched (.notify_all .queue_cv), .sched (.notify_all .batch_cv), .sched (.notify_all .batch_space_cv),
   .sched .dispatcher, .sched (.worker 0), .sched .join, .sched .join, .sched .join, .main]

/-- When the loop is left all three jobs have succeeded, and nothing is left when `main` is about to return. -/
theorem wait_loop_leaves_nothing_three : ∃ p p' : Process, p.main = .left false ∧
    p.sched.metrics_.map (fun m => (m.seq, m.ok)) = [(0, true), (1, true), (2, true)] ∧ p'.main = .returned ∧
    AllDone p.sched ∧ AllDone p'.sched := by
  have hnext := processStep_of_processAt threeJobsOptions threeJobs
  obtain ⟨p, hr, hfound⟩ := Reachable.of_chosen (T := daemon threeJobsOptions threeJobs) Always hnext ⟨1, rfl⟩
    threeJobsRun
    (fun p => p.main = .left false && (p.sched.metrics_.map (fun m => (m.seq, m.ok)) =
      [(0, true), (1, true), (2, true)] && (follow (processAt threeJobsOptions threeJobs) Always p stopRun).any
        fun p' => p'.main = .returned))
    (by decide +kernel)
  simp only [Bool.and_eq_true, decide_eq_true_eq] at hfound
  obtain ⟨hleft, hmetrics, hstop⟩ := hfound
  obtain ⟨p', hp', hreturned⟩ := (Option.any_eq_true _ _).mp hstop
  obtain ⟨hdone, hstays⟩ := wait_loop_leaves_nothing hr hleft
  exact ⟨p, p', hleft, hmetrics, of_decide_eq_true hreturned, hdone, hstays p' (.of_follow hnext hp')⟩

end Gbis.Daemon
