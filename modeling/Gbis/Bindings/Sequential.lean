import Gbis.Bindings.Lifecycle
import Gbis.Sched.Completion

/-!
# The global scheduler under one caller

The calls of `submit_job`, `Scheduler.start` and `Scheduler.stop` made one after another, each
when the last has returned (`Sequential`); the threads of the schedulers go on in between. Then
`g_running` says whether `g_sched` is started, a job is queued in a started scheduler if
`g_running` is set when `submit_job` returns, and `Scheduler.start` discards only a scheduler
whose threads have all been joined (`sequential_lifecycle`). What such a scheduler still holds
is what `stop()` has dropped, and it is lost then (`start_discards_dropped_job`).

`submit_job` does not look at `g_running`: after `Scheduler.stop` it queues its job in the
scheduler that has been stopped (`submit_after_stop`).
-/

namespace Gbis.Bindings

open Gbis.Core Gbis.Sched Library

variable {m m' : Module} {a : ModuleAction} {k : ℕ}

/-- Whether a call has returned. -/
def CallPc.over : CallPc → Bool
  | .returned _ _ | .done | .raised _ => true
  | _ => false

/-- Whether a call is made while no other is under way. -/
def Module.sequential (m : Module) : ModuleAction → Bool
  | .call _ => m.calls.all CallPc.over
  | _ => true

/-- Calls are made one after another. -/
def Sequential (m : Module) (a : ModuleAction) : Prop := m.sequential a = true

instance (m : Module) (a : ModuleAction) : Decidable (Sequential m a) :=
  inferInstanceAs (Decidable (m.sequential a = true))

/-! ### What becomes of jobs -/

/-- `Scheduler.start`, and all it does if nothing is running. -/
def startCall (i k : ℕ) : List ModuleAction :=
  [.call (.start 8 1 "tiled"), .go i 0, .go i 0, .go i 0, .go i 0, .go i 0, .go i 0, .go i 0, .sched k (.probe true 0),
   .sched k .spawn, .sched k .spawn, .go i 0, .go i 0, .go i 0]

/-- `submit_job`, when there is a scheduler, of which it is client `c`. -/
def submitCall (i k c : ℕ) : List ModuleAction :=
  [.call (.submit_job 1 1 1 1 0), .go i 0, .go i 0, .go i 0, .sched k (.client c), .sched k (.client c),
   .sched k (.client c), .go i 0]

/-- `Scheduler.stop`, if something is running; the scheduler's threads leave. -/
def stopCall (i k : ℕ) : List ModuleAction :=
  [.call .stop, .go i 0, .go i 0, .go i 0, .sched k (.notify_all .queue_cv), .sched k (.notify_all .batch_cv),
   .sched k (.notify_all .batch_space_cv), .sched k .dispatcher, .sched k (.worker 0), .sched k .join, .sched k .join,
   .sched k .join, .go i 0, .go i 0, .go i 0]

/-- A job is accepted by a running scheduler, dropped by `stop()`, and discarded by the next
`start()`. -/
theorem start_discards_dropped_job :
    ∃ m, Reachable python Sequential m ∧ m.calls = [.done, .returned 0 0, .done, .done] ∧
      m.instances.map (fun inst => (inst.destroyed, inst.sched.queue_.map InferenceJob.seq, inst.sched.metrics_)) =
        [(true, [0], []), (false, [], [])] := by
  obtain ⟨m, hr, hm⟩ := exists_module_of_follow Sequential
    (startCall 0 0 ++ submitCall 1 0 0 ++ stopCall 2 0 ++ startCall 3 1)
    (fun m => m.calls = [.done, .returned 0 0, .done, .done] &&
      m.instances.map (fun inst => (inst.destroyed, inst.sched.queue_.map InferenceJob.seq, inst.sched.metrics_)) =
        [(true, [0], []), (false, [], [])]) (by decide +kernel)
  simp only [Bool.and_eq_true, decide_eq_true_eq] at hm
  exact ⟨m, hr, hm⟩

/-- A job is accepted after `stop()`, by a scheduler that is not started. -/
theorem submit_after_stop :
    ∃ m, Reachable python Sequential m ∧ m.calls = [.done, .done, .returned 0 0] ∧ m.g_running = false ∧
      m.instances.map (fun inst => (inst.sched.started_, inst.sched.queue_.map InferenceJob.seq)) = [(false, [0])] := by
  obtain ⟨m, hr, hm⟩ := exists_module_of_follow Sequential (startCall 0 0 ++ stopCall 1 0 ++ submitCall 2 0 0)
    (fun m => m.calls = [.done, .done, .returned 0 0] && (m.g_running = false &&
      m.instances.map (fun inst => (inst.sched.started_, inst.sched.queue_.map InferenceJob.seq)) = [(false, [0])]))
    (by decide +kernel)
  simp only [Bool.and_eq_true, decide_eq_true_eq] at hm
  exact ⟨m, hr, hm⟩

/-! ### The instances -/

/-- Instance `k` exists, and the thread that starts and stops it is in such a place. -/
def Module.Has (m : Module) (k : ℕ) (Q : ControlPc → Bool → Prop) : Prop :=
  ∃ inst : Instance, m.instances[k]? = some inst ∧ inst.destroyed = false ∧ Q inst.sched.control inst.sched.started_

/-- Neither in `start()` nor in `stop()`, and started or not. -/
def Resting (started : Bool) (pc : ControlPc) (b : Bool) : Prop := pc = .idle ∧ b = started

/-- In `start()`, or returned from it. -/
def Starting (pc : ControlPc) (b : Bool) : Prop := pc.stopping = false ∧ b = true

/-- In `stop()`, or returned from it. -/
def Stopping (pc : ControlPc) (b : Bool) : Prop := pc.stopping = true ∨ pc = .idle ∧ b = false

/-- `g_running` says whether `g_sched` is started. -/
def Module.Steady (m : Module) : Prop :=
  m.g_sched = none ∧ m.g_running = false ∨ ∃ k, m.g_sched = some k ∧ m.Has k (Resting m.g_running)

/-- What is so when the only call under way, or the last one that was, is there. -/
def Module.At (m : Module) : CallPc → Prop
  | .make _ => m.g_sched = none ∧ m.g_running = false
  | .assign _ k => m.g_sched = none ∧ m.g_running = false ∧ m.Has k (Resting false)
  | .call_start _ => m.g_running = false ∧ ∃ k, m.g_sched = some k ∧ m.Has k (Resting false)
  | .starting _ k => m.g_running = false ∧ m.g_sched = some k ∧ m.Has k Starting
  | .set_running _ => m.g_running = false ∧ ∃ k, m.g_sched = some k ∧ m.Has k (Resting true)
  | .deref _ => m.Steady ∧ m.g_sched ≠ none
  | .submit _ k | .submitting k _ | .returned k _ => m.Steady ∧ m.g_sched = some k
  | .reset => m.Steady ∧ m.g_running = false
  | .call_stop => m.g_running = true ∧ ∃ k, m.g_sched = some k ∧ m.Has k (Resting true)
  | .stopping k => m.g_running = true ∧ m.g_sched = some k ∧ m.Has k Stopping
  | .clear_running => m.g_running = true ∧ ∃ k, m.g_sched = some k ∧ m.Has k (Resting false)
  | .undefined => False
  | _ => m.Steady

/-- The calls before the last have returned, and it is where it should be. -/
structure Consistent (m : Module) : Prop where
  before : ∀ (i : ℕ) (c : CallPc), m.calls[i]? = some c → i + 1 < m.calls.length → c.over = true
  last : m.At (m.calls.getLastD .done)

theorem Module.Steady.has (h : m.Steady) (hk : m.g_sched = some k) : m.Has k (Resting m.g_running) := by
  rcases h with ⟨hnone, -⟩ | ⟨j, hj, hhas⟩
  · rw [hk] at hnone
    cases hnone
  · obtain rfl := Option.some.inj (hk.symm.trans hj)
    exact hhas

theorem Module.At.steady {c : CallPc} (h : m.At c) (hc : c.over = true) : m.Steady := by
  cases c with
  | returned => exact h.1
  | done | raised => exact h
  | _ => cases hc

theorem Module.Has.unique {Q : ControlPc → Bool → Prop} (h : m.Has k Q) {inst : Instance}
    (hk : m.instances[k]? = some inst) :
    Q inst.sched.control inst.sched.started_ := by
  obtain ⟨inst', hk', -, hq⟩ := h
  obtain rfl := Option.some.inj (hk.symm.trans hk')
  exact hq

theorem Module.Has.not_destroyed {Q : ControlPc → Bool → Prop} (h : m.Has k Q) {inst : Instance}
    (hk : m.instances[k]? = some inst) : inst.destroyed = false := by
  obtain ⟨inst', hk', hd, -⟩ := h
  obtain rfl := Option.some.inj (hk.symm.trans hk')
  exact hd

theorem getElem?_setSched {k j : ℕ} {inst : Instance} (t : State) (hj : m.instances[j]? = some inst) :
    (m.setSched k t).instances[j]? = some (if k = j then { inst with sched := t } else inst) := by
  simp only [Module.setSched, List.getElem?_modify, hj, Option.map_eq_map, Option.map_some]

/-- The instance goes on. -/
theorem Module.Has.setSched_self {Q Q' : ControlPc → Bool → Prop} (h : m.Has k Q) {t : State}
    (hq : Q' t.control t.started_) :
    (m.setSched k t).Has k Q' := by
  obtain ⟨inst, hk, hd, -⟩ := h
  refine ⟨_, getElem?_setSched t hk, ?_⟩
  rw [if_pos rfl]
  exact ⟨hd, hq⟩

/-- Some instance goes on, to a place as good. -/
theorem Module.Has.setSched {Q : ControlPc → Bool → Prop} (h : m.Has k Q) {j : ℕ} {inst : Instance} {t : State}
    (hj : m.instances[j]? = some inst) (hq : Q inst.sched.control inst.sched.started_ → Q t.control t.started_) :
    (m.setSched j t).Has k Q := by
  by_cases hjk : j = k
  · subst hjk
    exact h.setSched_self (hq (h.unique hj))
  · obtain ⟨inst', hk, hd, hq'⟩ := h
    refine ⟨_, getElem?_setSched t hk, ?_⟩
    rw [if_neg hjk]
    exact ⟨hd, hq'⟩

/-! ### A call goes on -/

/-- `start()` and `stop()` have returned. -/
theorem idle_of_has {inst : Instance} (hk : m.instances[k]? = some inst) (hi : m.idle k = true) :
    inst.sched.control = .idle := by
  simpa [Module.idle, hk] using hi

/-- `start()` is called on an instance that is not started. -/
theorem callStart_of_has {i : ℕ} {after : After} (hk : m.g_sched = some k) (hhas : m.Has k (Resting false))
    (hstep : callStart m i after = some m') :
    ∃ t : State, Starting t.control t.started_ ∧ m' = (m.setSched k t).setCall i (.starting after k) := by
  obtain ⟨hnull, -⟩ | ⟨j, hj, inst, hinst, hcase⟩ := callStart_cases hstep
  · rw [hk] at hnull
    cases hnull
  · obtain rfl := Option.some.inj (hk.symm.trans hj)
    obtain ⟨hs, -⟩ | ⟨-, t, ht, rfl⟩ := hcase
    · rw [(hhas.unique hinst).2] at hs
      cases hs
    · refine ⟨t, ?_, rfl⟩
      cases ht with
      | start => exact ⟨rfl, rfl⟩

/-- `stop()` is called on an instance that is started. -/
theorem callStop_of_has {i : ℕ} (hk : m.g_sched = some k) (hhas : m.Has k (Resting true))
    (hstep : callStop m i = some m') :
    ∃ t : State, Stopping t.control t.started_ ∧ m' = (m.setSched k t).setCall i (.stopping k) := by
  obtain ⟨hnull, -⟩ | ⟨j, hj, inst, hinst, hcase⟩ := callStop_cases hstep
  · rw [hk] at hnull
    cases hnull
  · obtain rfl := Option.some.inj (hk.symm.trans hj)
    obtain ⟨hs, -⟩ | ⟨-, t, ht, rfl⟩ := hcase
    · rw [(hhas.unique hinst).2] at hs
      cases hs
    · refine ⟨t, ?_, rfl⟩
      cases ht with
      | stop => exact .inl rfl

/-- A job is submitted to an instance, which is where it was. -/
theorem callSubmit_of_has {i : ℕ} {job : InferenceJob} {Q : ControlPc → Bool → Prop} (hhas : m.Has k Q)
    (hstep : callSubmit m i job k = some m') :
    ∃ t c, (m.setSched k t).Has k Q ∧ m' = (m.setSched k t).setCall i (.submitting k c) := by
  obtain ⟨inst, hinst, ⟨hd, rfl⟩ | ⟨-, t, ht, rfl⟩⟩ := callSubmit_cases hstep
  · rw [hhas.not_destroyed hinst] at hd
    cases hd
  · refine ⟨t, _, hhas.setSched_self ?_, rfl⟩
    rw [ht.sameControl.control, ht.sameControl.started_]
    exact hhas.unique hinst

/-- **A call goes on** to a place that is as it should be. -/
theorem Module.At.go {i : ℕ} {now : ℤ} {pc : CallPc} (h : m.At pc) (hstep : callNext m i now pc = some m') :
    pc.over = false ∧ ∃ pc', m'.calls = m.calls.set i pc' ∧ m'.At pc' := by
  cases pc with
  | check job =>
    cases hstep
    refine ⟨rfl, _, rfl, ?_⟩
    by_cases hg : m.g_sched = none
    · rw [if_pos hg]
      rcases h with ⟨-, hr⟩ | ⟨k, hk, -⟩
      · exact ⟨hg, hr⟩
      · rw [hk] at hg
        cases hg
    · rw [if_neg hg]
      exact ⟨h, hg⟩
  | deref job =>
    obtain ⟨hsteady, hne⟩ := h
    obtain ⟨k, hk⟩ := Option.ne_none_iff_exists'.mp hne
    simp only [callNext, hk] at hstep
    cases hstep
    exact ⟨rfl, _, rfl, hsteady, hk⟩
  | submit job k =>
    obtain ⟨hsteady, hk⟩ := h
    obtain ⟨t, c, hhas, rfl⟩ := callSubmit_of_has (hsteady.has hk) hstep
    exact ⟨rfl, _, rfl, .inr ⟨k, hk, hhas⟩, hk⟩
  | submitting k c =>
    simp only [callNext] at hstep
    split at hstep
    · cases hstep
      exact ⟨rfl, _, rfl, h⟩
    · cases hstep
  | make after =>
    cases hstep
    refine ⟨rfl, _, rfl, h.1, h.2, ⟨{ opts := m.g_opts, sched := { clock := now } }, by simp, rfl, rfl, rfl⟩⟩
  | assign after k =>
    cases hstep
    obtain ⟨hnull, hr, hhas⟩ := h
    rw [discard_eq hnull]
    exact ⟨rfl, _, rfl, hr, k, rfl, hhas⟩
  | call_start after =>
    obtain ⟨hr, k, hk, hhas⟩ := h
    obtain ⟨t, ht, rfl⟩ := callStart_of_has hk hhas hstep
    exact ⟨rfl, _, rfl, hr, hk, hhas.setSched_self ht⟩
  | starting after k =>
    obtain ⟨hr, hk, inst, hinst, hd, hq⟩ := h
    simp only [callNext] at hstep
    split_ifs at hstep with hi
    cases hstep
    exact ⟨rfl, _, rfl, hr, k, hk, inst, hinst, hd, idle_of_has hinst hi, hq.2⟩
  | set_running after =>
    cases hstep
    obtain ⟨-, k, hk, hhas⟩ := h
    cases after with
    | submit job => exact ⟨rfl, _, rfl, .inr ⟨k, hk, hhas⟩, Option.ne_none_iff_exists'.mpr ⟨k, hk⟩⟩
    | unlock => exact ⟨rfl, _, rfl, .inr ⟨k, hk, hhas⟩⟩
  | lock_start args | lock_stop =>
    simp only [callNext] at hstep
    split_ifs at hstep
    cases hstep
    exact ⟨rfl, _, rfl, h⟩
  | set_opts args | unlock =>
    cases hstep
    exact ⟨rfl, _, rfl, h⟩
  | check_start =>
    cases hstep
    refine ⟨rfl, _, rfl, ?_⟩
    by_cases hr : m.g_running = true
    · rw [if_pos hr]
      exact h
    · rw [if_neg hr]
      exact ⟨h, (Bool.not_eq_true _).mp hr⟩
  | reset =>
    cases hstep
    exact ⟨rfl, .make .unlock, by simp [Module.setCall], rfl, (discard_g_running m).trans h.2⟩
  | check_stop =>
    cases hstep
    refine ⟨rfl, _, rfl, ?_⟩
    by_cases hr : m.g_running = true
    · rw [if_pos hr]
      rcases h with ⟨-, hnot⟩ | ⟨k, hk, hhas⟩
      · rw [hr] at hnot
        cases hnot
      · rw [hr] at hhas
        exact ⟨hr, k, hk, hhas⟩
    · rw [if_neg hr]
      exact h
  | call_stop =>
    obtain ⟨hr, k, hk, hhas⟩ := h
    obtain ⟨t, ht, rfl⟩ := callStop_of_has hk hhas hstep
    exact ⟨rfl, _, rfl, hr, hk, hhas.setSched_self ht⟩
  | stopping k =>
    obtain ⟨hr, hk, inst, hinst, hd, hq⟩ := h
    simp only [callNext] at hstep
    split_ifs at hstep with hi
    cases hstep
    have hidle := idle_of_has hinst hi
    refine ⟨rfl, _, rfl, hr, k, hk, inst, hinst, hd, hidle, ?_⟩
    rcases hq with hq | hq
    · rw [hidle] at hq
      cases hq
    · exact hq.2
  | clear_running =>
    cases hstep
    obtain ⟨-, k, hk, hhas⟩ := h
    exact ⟨rfl, _, rfl, .inr ⟨k, hk, hhas⟩⟩
  | returned | done | raised => cases hstep
  | undefined => exact h.elim

/-! ### An instance goes on -/

/-- What is so stays so if the globals are the same, and every instance is in as good a place. -/
theorem Module.At.of_has {c : CallPc} (h : m.At c) (hg : m'.g_sched = m.g_sched) (hr : m'.g_running = m.g_running)
    (hhas : ∀ k Q, m.Has k Q → m'.Has k Q) : m'.At c := by
  have hsteady : m.Steady → m'.Steady := by
    rintro (⟨hnull, hnot⟩ | ⟨k, hk, hq⟩)
    · exact .inl ⟨hg.trans hnull, hr.trans hnot⟩
    · exact .inr ⟨k, hg.trans hk, hr ▸ hhas _ _ hq⟩
  cases c with
  | make => exact ⟨hg.trans h.1, hr.trans h.2⟩
  | assign => exact ⟨hg.trans h.1, hr.trans h.2.1, hhas _ _ h.2.2⟩
  | call_start | set_running | call_stop | clear_running =>
    obtain ⟨h₁, k, hk, hq⟩ := h
    exact ⟨hr.trans h₁, k, hg.trans hk, hhas _ _ hq⟩
  | starting | stopping => exact ⟨hr.trans h.1, hg.trans h.2.1, hhas _ _ h.2.2⟩
  | deref => exact ⟨hsteady h.1, hg ▸ h.2⟩
  | submit | submitting | returned => exact ⟨hsteady h.1, hg.trans h.2⟩
  | reset => exact ⟨hsteady h.1, hr.trans h.2⟩
  | undefined => exact h
  | _ => exact hsteady h

/-- A call begins where it should. -/
theorem Entered.at {c : CallPc} (h : Entered c) (hs : m.Steady) : m.At c := by
  cases h <;> exact hs

/-- The call that is under way is the last. -/
theorem Consistent.eq_last (h : Consistent m) {c : CallPc} (hc : c ∈ m.calls) (ho : c.over = false) :
    m.calls.getLastD .done = c := by
  obtain ⟨i, hi⟩ := List.mem_iff_getElem?.mp hc
  have hlt := (List.getElem?_eq_some_iff.mp hi).1
  have hlast : i + 1 = m.calls.length := by
    by_contra hne
    rw [h.before i c hi (by omega)] at ho
    cases ho
  rw [List.getLastD_eq_getLast?, List.getLast?_eq_getElem?, show m.calls.length - 1 = i by omega, hi]
  rfl

/-- Between calls, `g_running` says whether `g_sched` is started. -/
theorem Consistent.steady (h : Consistent m) (hover : ∀ c ∈ m.calls, c.over = true) : m.Steady := by
  refine h.last.steady ?_
  rcases List.eq_nil_or_concat m.calls with hnil | ⟨cs, c, hcs⟩
  · rw [hnil]
    rfl
  · rw [hcs, List.concat_eq_append, List.getLastD_concat]
    exact hover c (by simp [hcs])

theorem Consistent.sched (h : Consistent m) {a : Sched.Action} {inst : Instance} {t : State}
    (hinst : m.instances[k]? = some inst) (hp : m.permits k a = true) (hstep : Step inst.opts inst.sched a t) :
    Consistent (m.setSched k t) := by
  refine ⟨h.before, ?_⟩
  change (m.setSched k t).At (m.calls.getLastD .done)
  rcases hstep.control_cases with hc | hsame
  · -- `start()` or `stop()` of instance `k` is under way
    have hstarting : ∀ after, .starting after k ∈ m.calls → (Starting inst.sched.control inst.sched.started_ →
        Starting t.control t.started_) → (m.setSched k t).At (m.calls.getLastD .done) := by
      intro after hmem hq
      have hlast := h.last
      rw [h.eq_last hmem rfl] at hlast ⊢
      exact ⟨hlast.1, hlast.2.1, hlast.2.2.setSched hinst hq⟩
    have hstopping : .stopping k ∈ m.calls → (Stopping inst.sched.control inst.sched.started_ →
        Stopping t.control t.started_) → (m.setSched k t).At (m.calls.getLastD .done) := by
      intro hmem hq
      have hlast := h.last
      rw [h.eq_last hmem rfl] at hlast ⊢
      exact ⟨hlast.1, hlast.2.1, hlast.2.2.setSched hinst hq⟩
    cases hc with
    | start | stop => cases hp
    | probe | spawn | started =>
      obtain ⟨c, hmem, hk⟩ := List.any_eq_true.mp hp
      split at hk
      · obtain rfl := of_decide_eq_true hk
        exact hstarting _ hmem fun hq => ⟨rfl, hq.2⟩
      · cases hk
    | notify_queue | notify_batch | notify_space | join_dispatcher | join_workers =>
      obtain ⟨c, hmem, hk⟩ := List.any_eq_true.mp hp
      obtain rfl := of_decide_eq_true hk
      exact hstopping hmem fun _ => .inl rfl
    | stopped =>
      obtain ⟨c, hmem, hk⟩ := List.any_eq_true.mp hp
      obtain rfl := of_decide_eq_true hk
      exact hstopping hmem fun _ => .inr ⟨rfl, rfl⟩
  · refine h.last.of_has rfl rfl fun j Q hhas => ?_
    refine hhas.setSched hinst ?_
    rw [hsame.control, hsame.started_]
    exact id

theorem consistent (h : Reachable python Sequential m) : Consistent m := by
  refine h.invariant (I := Consistent) ?_ fun {m a m'} _ hs hstep hseq => ?_
  · rintro _ rfl
    exact ⟨by simp, .inl ⟨rfl, rfl⟩⟩
  · have hstep : ModuleStep m a m' := hstep
    cases hstep with
    | call f =>
      have hover : ∀ c ∈ m.calls, c.over = true := List.all_eq_true.mp hseq
      refine ⟨fun i c hi hlt => ?_, ?_⟩
      · rw [List.length_append, List.length_singleton] at hlt
        rw [List.getElem?_append_left (by omega)] at hi
        exact hover c (List.mem_of_getElem? hi)
      · rw [List.getLastD_concat]
        exact f.entered.at (m := { m with calls := m.calls ++ [f.entry] }) (hs.steady hover)
    | sched _ hinst _ hp h => exact hs.sched hinst hp h
    | @go i now pc m' _ hi hnext =>
      have hlt := (List.getElem?_eq_some_iff.mp hi).1
      have hpc : pc.over = false := by
        cases pc with
        | returned | done | raised => cases hnext
        | _ => rfl
      have hat := hs.last
      rw [hs.eq_last (List.mem_of_getElem? hi) hpc] at hat
      obtain ⟨-, pc', hcalls, hat'⟩ := hat.go hnext
      have hlast : i + 1 = m.calls.length := by
        by_contra hne
        rw [hs.before i pc hi (by omega)] at hpc
        cases hpc
      refine ⟨fun j c hj hlt' => ?_, ?_⟩
      · rw [hcalls] at hj hlt'
        rw [List.length_set] at hlt'
        rw [List.getElem?_set_ne (by omega)] at hj
        exact hs.before j c hj hlt'
      · rw [hcalls, List.getLastD_eq_getLast?, List.getLast?_eq_getElem?, List.length_set,
          show m.calls.length - 1 = i by omega, List.getElem?_set_self hlt]
        exact hat'

/-! ### The schedulers are schedulers -/

/-- The state of an instance after a step: that of before, or one step further. -/
inductive Goes (inst inst' : Instance) : Prop where
  | same : inst'.opts = inst.opts → inst'.sched = inst.sched → Goes inst inst'
  | step {a : Sched.Action} : inst'.opts = inst.opts → Step inst.opts inst.sched a inst'.sched → Goes inst inst'

/-- The instances after a step: those of before, and maybe one more. -/
structure Grows (m m' : Module) : Prop where
  back : ∀ (k : ℕ) (inst' : Instance), m'.instances[k]? = some inst' →
    (∃ inst : Instance, m.instances[k]? = some inst ∧ Goes inst inst') ∨ ∃ t, inst'.sched = { clock := t }
  forth : ∀ (k : ℕ) (inst : Instance), m.instances[k]? = some inst →
    ∃ inst' : Instance, m'.instances[k]? = some inst' ∧ Goes inst inst'

theorem Grows.of_eq (h : m'.instances = m.instances) : Grows m m' :=
  ⟨fun _ inst' hk => .inl ⟨inst', h ▸ hk, .same rfl rfl⟩, fun _ inst hk => ⟨inst, h ▸ hk, .same rfl rfl⟩⟩

theorem Grows.modify {f : Instance → Instance} (h : m'.instances = m.instances.modify k f)
    (hf : ∀ inst : Instance, m.instances[k]? = some inst → Goes inst (f inst)) : Grows m m' := by
  have hgoes : ∀ (j : ℕ) (inst : Instance), m.instances[j]? = some inst →
    Goes inst (if k = j then f inst else inst) := by
    intro j inst hj
    split_ifs with hkj
    · exact hf inst (hkj ▸ hj)
    · exact .same rfl rfl
  refine ⟨fun j inst' hj => .inl ?_, fun j inst hj => ⟨_, ?_, hgoes j inst hj⟩⟩
  · rw [h, List.getElem?_modify] at hj
    obtain ⟨inst, hinst, rfl⟩ := Option.map_eq_some_iff.mp hj
    exact ⟨inst, hinst, hgoes j inst hinst⟩
  · rw [h, List.getElem?_modify, hj]
    rfl

/-- An instance goes on. -/
theorem Grows.setSched {inst : Instance} (hk : m.instances[k]? = some inst) {a : Sched.Action} {t : State}
    (hstep : Step inst.opts inst.sched a t) (h : m'.instances = (m.setSched k t).instances) : Grows m m' := by
  refine .modify h fun inst' hk' => ?_
  obtain rfl := Option.some.inj (hk.symm.trans hk')
  exact .step rfl hstep

theorem Grows.discard (m : Module) : Grows m m.discard := by
  unfold Module.discard
  split
  · exact .modify rfl fun _ _ => .same rfl rfl
  · exact .of_eq rfl

theorem Grows.create {t : ℤ} {opts : Options} (h : m'.instances = m.instances ++ [{ opts, sched := { clock := t } }]) :
    Grows m m' := by
  refine ⟨fun k inst' hk => ?_, fun k inst hk => ⟨inst, ?_, .same rfl rfl⟩⟩
  · rw [h] at hk
    by_cases hlt : k < m.instances.length
    · rw [List.getElem?_append_left hlt] at hk
      exact .inl ⟨inst', hk, .same rfl rfl⟩
    · rw [List.getElem?_append_right (by omega)] at hk
      obtain rfl := List.mem_singleton.mp (List.mem_of_getElem? hk)
      exact .inr ⟨t, rfl⟩
  · rw [h, List.getElem?_append_left (List.getElem?_eq_some_iff.mp hk).1]
    exact hk

theorem Module.not_terminated (h : m.terminated = false) {inst : Instance} (hk : m.instances[k]? = some inst) :
    inst.sched.terminated = false := by
  have hall := List.any_eq_false.mp h inst (List.mem_of_getElem? hk)
  simpa using hall

/-- What a call does to the instances, and where the number it returns comes from. -/
theorem callNext_grows {i : ℕ} {now : ℤ} {pc : CallPc} (ht : m.terminated = false) (h : callNext m i now pc = some m') :
    Grows m m' ∧ ∃ pc', m'.calls = m.calls.set i pc' ∧ ∀ k seq, pc' = .returned k seq →
      ∃ (c : ℕ) (inst : Instance), m.instances[k]? = some inst ∧
        inst.sched.submits[c]? = some (SubmitPc.returned seq) := by
  cases pc with
  | check job =>
    cases h
    refine ⟨.of_eq rfl, _, rfl, ?_⟩
    split_ifs <;> simp
  | deref job =>
    simp only [callNext] at h
    split at h <;> (cases h; exact ⟨.of_eq rfl, _, rfl, by simp⟩)
  | submit job k =>
    obtain ⟨inst, hinst, ⟨-, rfl⟩ | ⟨-, t, hsub, rfl⟩⟩ := callSubmit_cases h
    · exact ⟨.of_eq rfl, _, rfl, by simp⟩
    · exact ⟨.setSched hinst (.client (Module.not_terminated ht hinst) hsub) rfl, _, rfl, by simp⟩
  | submitting k c =>
    simp only [callNext] at h
    split at h
    · rename_i seq hret
      cases h
      obtain ⟨inst, hinst, hret⟩ := Option.bind_eq_some_iff.mp hret
      refine ⟨.of_eq rfl, _, rfl, fun k' seq' heq => ?_⟩
      obtain ⟨rfl, rfl⟩ := CallPc.returned.inj heq
      exact ⟨c, inst, hinst, hret⟩
    · cases h
  | make after =>
    cases h
    exact ⟨.create rfl, _, rfl, by simp⟩
  | assign after k =>
    cases h
    obtain ⟨h₁, h₂⟩ := Grows.discard m
    exact ⟨⟨h₁, h₂⟩, .call_start after, by simp [Module.setCall], by simp⟩
  | call_start after =>
    obtain ⟨-, rfl⟩ | ⟨k, -, inst, hinst, ⟨-, rfl⟩ | ⟨-, t, hstart, rfl⟩⟩ := callStart_cases h
    · exact ⟨.of_eq rfl, _, rfl, by simp⟩
    · exact ⟨.of_eq rfl, _, rfl, by simp⟩
    · exact ⟨.setSched hinst (.control (Module.not_terminated ht hinst) hstart) rfl, _, rfl, by simp⟩
  | call_stop =>
    obtain ⟨-, rfl⟩ | ⟨k, -, inst, hinst, ⟨-, rfl⟩ | ⟨-, t, hstop, rfl⟩⟩ := callStop_cases h
    · exact ⟨.of_eq rfl, _, rfl, by simp⟩
    · exact ⟨.of_eq rfl, _, rfl, by simp⟩
    · exact ⟨.setSched hinst (.control (Module.not_terminated ht hinst) hstop) rfl, _, rfl, by simp⟩
  | reset =>
    cases h
    obtain ⟨h₁, h₂⟩ := Grows.discard m
    exact ⟨⟨h₁, h₂⟩, .make .unlock, by simp [Module.setCall], by simp⟩
  | check_start | check_stop =>
    cases h
    refine ⟨.of_eq rfl, _, rfl, ?_⟩
    split_ifs <;> simp
  | set_running after =>
    cases h
    exact ⟨.of_eq rfl, _, rfl, by cases after <;> simp [After.next]⟩
  | starting | lock_start | lock_stop | stopping =>
    simp only [callNext] at h
    split_ifs at h
    cases h
    exact ⟨.of_eq rfl, _, rfl, by simp⟩
  | set_opts | clear_running | unlock =>
    cases h
    exact ⟨.of_eq rfl, _, rfl, by simp⟩
  | returned | done | raised | undefined => cases h

/-- Every instance is in a state that a scheduler reaches, and every number returned has been
handed out by its instance. -/
structure Sound (m : Module) : Prop where
  reachable : ∀ (k : ℕ) (inst : Instance), m.instances[k]? = some inst →
    Reachable (scheduler inst.opts) Always inst.sched
  returned : ∀ k seq, CallPc.returned k seq ∈ m.calls → ∃ inst : Instance, m.instances[k]? = some inst ∧
    seq < inst.sched.next_seq_

theorem Goes.next_seq_le {inst inst' : Instance} (h : Goes inst inst') :
    inst.sched.next_seq_ ≤ inst'.sched.next_seq_ := by
  cases h with
  | same _ hs => rw [hs]
  | step _ hs => exact hs.next_seq_le

theorem Sound.of_grows (hs : Sound m) (hg : Grows m m')
    (hcalls : ∀ k seq, CallPc.returned k seq ∈ m'.calls → CallPc.returned k seq ∈ m.calls ∨
      ∃ (c : ℕ) (inst : Instance), m.instances[k]? = some inst ∧
        inst.sched.submits[c]? = some (SubmitPc.returned seq)) : Sound m' := by
  refine ⟨fun k inst' hk => ?_, fun k seq hmem => ?_⟩
  · rcases hg.back k inst' hk with ⟨inst, hinst, hgoes⟩ | ⟨t, ht⟩
    · have hr := hs.reachable k inst hinst
      cases hgoes with
      | same ho he => rw [ho, he]; exact hr
      | step ho hstep => rw [ho]; exact hr.tail (T := scheduler inst.opts) hstep trivial
    · exact ⟨_, ⟨t, rfl⟩, ht ▸ .refl⟩
  · have hlt : ∃ inst : Instance, m.instances[k]? = some inst ∧ seq < inst.sched.next_seq_ := by
      rcases hcalls k seq hmem with hmem | ⟨c, inst, hinst, hret⟩
      · exact hs.returned k seq hmem
      · exact ⟨inst, hinst,
          (submitsCounted (hs.reachable k inst hinst)).lt _ (List.mem_of_getElem? hret) seq (.inr (.inr rfl))⟩
    obtain ⟨inst, hinst, hlt⟩ := hlt
    obtain ⟨inst', hinst', hgoes⟩ := hg.forth k inst hinst
    exact ⟨inst', hinst', lt_of_lt_of_le hlt hgoes.next_seq_le⟩

theorem sound {ok : Module → ModuleAction → Prop} (h : Reachable python ok m) : Sound m := by
  refine h.invariant (I := Sound) ?_ fun {m a m'} _ hs hstep _ => ?_
  · rintro _ rfl
    exact ⟨by simp, by simp⟩
  · have hstep : ModuleStep m a m' := hstep
    cases hstep with
    | call f =>
      refine hs.of_grows (.of_eq rfl) fun k seq hmem => .inl ?_
      rcases List.mem_append.mp hmem with hmem | hmem
      · exact hmem
      · have hentry := f.entered
        rw [← List.mem_singleton.mp hmem] at hentry
        cases hentry
    | go ht _ hnext =>
      obtain ⟨hgrows, pc', hcalls, hret⟩ := callNext_grows ht hnext
      refine hs.of_grows hgrows fun k seq hmem => ?_
      rw [hcalls] at hmem
      rcases List.mem_or_eq_of_mem_set hmem with hmem | heq
      · exact .inl hmem
      · exact .inr (hret k seq heq.symm)
    | sched ht hinst _ _ h =>
      exact hs.of_grows (.setSched hinst h rfl) fun k seq hmem => .inl hmem

/-! ### The lifecycle -/

/-- Every thread of a scheduler has been joined, and what it has not recorded is in its queues. -/
structure Dropped (s : State) : Prop where
  started_ : s.started_ = false
  dispatcher : s.dispatcher.rested = true
  workers : ∀ w ∈ s.workers, w.pc = .exited
  held : ∀ p seq, seq ∈ s.hold p → p = .queue ∨ p = .batches ∨ p = .metrics

theorem dropped_of_resting {o : Options} {s : State} (h : Reachable (scheduler o) Always s) (hc : s.control = .idle)
    (hs : s.started_ = false) : Dropped s := by
  have hl := lifecycle h
  have hd := hl.dispatcher (by simp [State.dispatcherJoined, hc, hs])
  have hw := hl.workers (by simp [State.workersJoined, hc, hs])
  obtain ⟨hund, hch⟩ := DispatcherPc.undecided_of_rested hd
  refine ⟨hs, hd, hw, fun p seq hp => ?_⟩
  cases p with
  | queue => exact .inl rfl
  | batches => exact .inr (.inl rfl)
  | metrics => exact .inr (.inr rfl)
  | round => simp [State.hold, hund] at hp
  | chosen => simp [State.hold, hch] at hp
  | workers =>
    have hnone : (s.workers.map fun w => seqs w.pc.unrecorded).sum = 0 :=
      List.sum_eq_zero fun x hx => by
        obtain ⟨w, hmem, rfl⟩ := List.mem_map.mp hx
        rw [hw w hmem]
        rfl
    simp only [State.hold, hnone] at hp
    exact absurd hp (Multiset.notMem_zero seq)

/-- **The lifecycle under one caller.** Between calls `g_running` says whether `g_sched` exists
and is started; when `submit_job` has returned a number and `g_running` is set, the job has
been queued in a scheduler that is started, which `g_sched` points to; and a scheduler is
discarded only by `Scheduler.start`, with all of its threads joined. -/
theorem sequential_lifecycle (h : Reachable python Sequential m) :
    ((∀ c ∈ m.calls, c.over = true) →
      (m.g_running = true ↔ ∃ k, m.g_sched = some k ∧ m.Has k (Resting true))) ∧
    (∀ k seq, m.calls.getLast? = some (CallPc.returned k seq) → m.g_running = true →
      m.g_sched = some k ∧ ∃ inst : Instance, m.instances[k]? = some inst ∧ inst.destroyed = false ∧
        inst.sched.started_ = true ∧
        ∃ p, (inst.sched.hold p).count seq = 1) ∧
    (CallPc.reset ∈ m.calls → ∀ (k : ℕ) (inst : Instance), m.g_sched = some k → m.instances[k]? = some inst →
      Dropped inst.sched) ∧
    (∀ after k, CallPc.assign after k ∈ m.calls → m.g_sched = none) := by
  have hcons := consistent h
  have hsound := sound h
  refine ⟨fun hover => ?_, fun k seq hlast hr => ?_, fun hreset k inst hk hinst => ?_, fun after k hassign => ?_⟩
  · have hsteady := hcons.steady hover
    constructor
    · intro hr
      rcases hsteady with ⟨-, hnot⟩ | ⟨k, hk, hhas⟩
      · rw [hr] at hnot
        cases hnot
      · exact ⟨k, hk, hr ▸ hhas⟩
    · rintro ⟨k, hk, inst, hinst, -, -, hs⟩
      have hq := (hsteady.has hk).unique hinst
      exact hq.2.symm.trans hs
  · have hat := hcons.last
    rw [List.getLastD_eq_getLast?, hlast] at hat
    obtain ⟨hsteady, hk⟩ := hat
    obtain ⟨inst, hinst, hd, -, hs⟩ := hsteady.has hk
    obtain ⟨inst', hinst', hlt⟩ := hsound.returned k seq (List.mem_of_getLast? hlast)
    obtain rfl := Option.some.inj (hinst.symm.trans hinst')
    obtain ⟨p, hp, -⟩ := (jobs_conserved (hsound.reachable k inst hinst)).1 seq hlt
    exact ⟨hk, inst, hinst, hd, hs.trans hr, p, hp⟩
  · have hat := hcons.last
    rw [hcons.eq_last hreset rfl] at hat
    obtain ⟨hsteady, hr⟩ := hat
    obtain ⟨hidle, hs⟩ := (hsteady.has hk).unique hinst
    exact dropped_of_resting (hsound.reachable k inst hinst) hidle (hs.trans hr)
  · have hat := hcons.last
    rw [hcons.eq_last hassign rfl] at hat
    exact hat.1

/-- A job is submitted to the scheduler that has been started. -/
theorem sequential_lifecycle_submit :
    ∃ m, Reachable python Sequential m ∧ m.g_sched = some 0 ∧ m.calls.getLast? = some (.returned 0 0) := by
  obtain ⟨m, hr, hm⟩ := exists_module_of_follow Sequential (startCall 0 0 ++ submitCall 1 0 0)
    (fun m => m.g_running && m.calls.getLast? = some (.returned 0 0)) (by decide +kernel)
  simp only [Bool.and_eq_true, decide_eq_true_eq] at hm
  exact ⟨m, hr, ((sequential_lifecycle hr).2.1 0 0 hm.2 hm.1).1, hm.2⟩

end Gbis.Bindings
