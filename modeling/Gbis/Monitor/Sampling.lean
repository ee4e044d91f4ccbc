import Gbis.Library.Transition
import Gbis.Monitor.Nvml
import Mathlib.Algebra.Order.BigOperators.Group.List
import Mathlib.Algebra.Order.Field.Rat

/-!
# The sampling thread

`start_sampling()`, `stop_sampling()` and the thread between them, from
`src/src/sched/gpu_monitor.cpp`, in the life of a `GpuMonitor`: one thread owns the monitor, it
constructs it, starts and stops the sampling any number of times, and destroys it. The sampling
thread samples until it reads that `sampling_` is `false`; other threads call `sample()` at any
time while the monitor lives. Every operation on `sampling_`, every critical section of
`stat_mutex_` and every call of a library is one step, so the calls of different threads interleave
in all ways.

A `std::thread` must not be assigned to while it is joinable, or the process is terminated; nothing
in `start_sampling` asks. `monitor_safe` says that this does not happen, that there is never more
than one sampling thread and none once `stop_sampling` has returned, that what is accumulated is what
that thread has sampled, and that NVML is used as it has to be: initialized before anything is asked
of it, and shut down before it is unloaded, with no call afterwards. `stop_returns` says that
`stop_sampling` always gets to return.

The sum of percentages is a `double` that holds integers; below `2^53` it is exact, and it is a natural
number here.
-/

namespace Gbis.Monitor

open Library

/-! ### The state -/

/-- What is left of a call of `sample()`. -/
abbrev Sample : Type := Prog Call Call.Ret (Except Empty Unit × GpuStats)

/-- What is left of a constructor or a destructor. -/
abbrev Setup : Type := Prog Call Call.Ret (Except Empty Unit × Fields)

/-- Where the thread that owns the monitor is. -/
inductive OwnerPc where
  | constructing (prog : Setup)
  /-- In no function of the monitor. -/
  | idle
  /-- `start_sampling()` has set `sampling_`. -/
  | starting
  /-- `stop_sampling()` has cleared `sampling_`; in the destructor, or not. -/
  | joining (destroy : Bool)
  /-- In the destructor of `Impl`. -/
  | destroying (prog : Setup)
  | destroyed

/-- Other threads may call `sample()`. -/
def OwnerPc.lives : OwnerPc → Bool
  | .idle | .starting | .joining false => true
  | _ => false

/-- Where a sampling thread is. -/
inductive SamplerPc where
  /-- About to read `sampling_`. -/
  | check
  | sampling (prog : Sample)
  /-- About to add what it has sampled. -/
  | measured (stats : GpuStats)
  | sleeping
  | exited

/-- A call of `sample()` by another thread. -/
inductive ReaderPc where
  | reading (prog : Sample)
  | returned (stats : GpuStats)

/-- The monitor and the threads that use it. -/
structure State where
  fields : Fields := {}
  lib : Nvml := {}
  owner : OwnerPc := .constructing (GpuMonitor {})
  sampling_ : Bool := false
  /-- The thread that `sampler_` stands for, while it is joinable. -/
  sampler_ : Option ℕ := none
  /-- All the sampling threads there have been. -/
  samplers : List SamplerPc := []
  readers : List ReaderPc := []
  util_sum_ : ℕ := 0
  util_count_ : ℕ := 0
  /-- What has been added, in order. -/
  samples : List GpuStats := []
  /-- `std::terminate` has been called. -/
  terminated : Bool := false

/-- `mean_utilization()`. -/
def State.mean_utilization (s : State) : ℚ := if s.util_count_ > 0 then s.util_sum_ / s.util_count_ else 0

/-- Where the owner goes on when the sampling thread has been joined. -/
def State.joined (s : State) : Bool → OwnerPc
  | false => .idle
  | true => .destroying (s.fields.impl_.destroy s.fields)

/-! ### The steps -/

/-- The labels of the steps. -/
inductive Action where
  /-- The owner makes a call and gets this answer. -/
  | answer_owner (c : Call) (r : c.Ret)
  | constructed
  | start_sampling
  | create
  | stop_sampling
  | destroy
  | join
  | destroyed
  /-- Sampling thread `i` goes on. -/
  | sampler (i : ℕ)
  | answer_sampler (i : ℕ) (c : Call) (r : c.Ret)
  /-- Another thread calls `sample()`; the calls are numbered. -/
  | sample
  | reader (i : ℕ)
  | answer_reader (i : ℕ) (c : Call) (r : c.Ret)

/-- What the owner does. -/
inductive OwnerStep (s : State) : Action → State → Prop where
  /-- A call of the constructor. -/
  | construct {c : Call} {k : c.Ret → Setup} (r : c.Ret) : s.owner = .constructing (.call c k) →
      OwnerStep s (.answer_owner c r) { s with lib := s.lib.apply c r, owner := .constructing (k r) }
  /-- The constructor returns. -/
  | constructed {e : Except Empty Unit} {m : Fields} : s.owner = .constructing (.pure (e, m)) →
      OwnerStep s .constructed { s with fields := m, owner := .idle }
  /-- `!gpu_present_`: `start_sampling()` returns. -/
  | start_absent : s.owner = .idle → s.fields.gpu_present_ = false → OwnerStep s .start_sampling s
  /-- `sampling_.exchange(true)`: it was `true`, and `start_sampling()` returns. -/
  | start_again : s.owner = .idle → s.fields.gpu_present_ = true → s.sampling_ = true → OwnerStep s .start_sampling s
  /-- It was `false`. -/
  | start : s.owner = .idle → s.fields.gpu_present_ = true → s.sampling_ = false →
      OwnerStep s .start_sampling { s with sampling_ := true, owner := .starting }
  /-- A thread is created, and `sampler_` assigned to. -/
  | create : s.owner = .starting → s.sampler_ = none →
      OwnerStep s .create
        { s with sampler_ := some s.samplers.length, samplers := s.samplers ++ [.check], owner := .idle }
  /-- There are no more threads to be had, and `start_sampling()` throws. -/
  | create_fails : s.owner = .starting → OwnerStep s .create { s with owner := .idle }
  /-- `sampler_` is joinable. -/
  | terminate : s.owner = .starting → s.sampler_ ≠ none → OwnerStep s .create { s with terminated := true }
  /-- `stop_sampling()` stores `false`. -/
  | stop : s.owner = .idle → OwnerStep s .stop_sampling { s with sampling_ := false, owner := .joining false }
  /-- So does the destructor, when nobody uses the monitor any more. -/
  | destroy : s.owner = .idle → (∀ r ∈ s.readers, ∃ stats, r = .returned stats) →
      OwnerStep s .destroy { s with sampling_ := false, owner := .joining true }
  /-- `sampler_` is not joinable. -/
  | join_none {destroy : Bool} : s.owner = .joining destroy → s.sampler_ = none →
      OwnerStep s .join { s with owner := s.joined destroy }
  /-- The thread is joined when it has ended. -/
  | join {destroy : Bool} {i : ℕ} : s.owner = .joining destroy → s.sampler_ = some i → s.samplers[i]? = some .exited →
      OwnerStep s .join { s with sampler_ := none, owner := s.joined destroy }
  /-- A call of the destructor. -/
  | unload {c : Call} {k : c.Ret → Setup} (r : c.Ret) : s.owner = .destroying (.call c k) →
      OwnerStep s (.answer_owner c r) { s with lib := s.lib.apply c r, owner := .destroying (k r) }
  /-- The destructor returns. -/
  | destroyed {e : Except Empty Unit} {m : Fields} : s.owner = .destroying (.pure (e, m)) →
      OwnerStep s .destroyed { s with owner := .destroyed }

/-- What a sampling thread does. -/
inductive SamplerStep (s : State) (i : ℕ) : Action → State → Prop where
  /-- `sampling_.load()` is `true`: it calls `sample()`. -/
  | check : s.samplers[i]? = some .check → s.sampling_ = true →
      SamplerStep s i (.sampler i) { s with samplers := s.samplers.set i (.sampling (sample s.fields {})) }
  /-- It is `false`, and the thread ends. -/
  | exit : s.samplers[i]? = some .check → s.sampling_ = false →
      SamplerStep s i (.sampler i) { s with samplers := s.samplers.set i .exited }
  /-- A call of `sample()`. -/
  | call {c : Call} {k : c.Ret → Sample} (r : c.Ret) : s.samplers[i]? = some (.sampling (.call c k)) →
      SamplerStep s i (.answer_sampler i c r)
        { s with lib := s.lib.apply c r, samplers := s.samplers.set i (.sampling (k r)) }
  /-- `sample()` returns. -/
  | sampled {e : Except Empty Unit} {stats : GpuStats} : s.samplers[i]? = some (.sampling (.pure (e, stats))) →
      SamplerStep s i (.sampler i) { s with samplers := s.samplers.set i (.measured stats) }
  /-- `util_sum_ += st.utilization_pct; ++util_count_;` -/
  | add {stats : GpuStats} : s.samplers[i]? = some (.measured stats) →
      SamplerStep s i (.sampler i)
        { s with util_sum_ := s.util_sum_ + stats.utilization_pct.toNat, util_count_ := s.util_count_ + 1,
                 samples := s.samples ++ [stats], samplers := s.samplers.set i .sleeping }
  /-- It has slept. -/
  | wake : s.samplers[i]? = some .sleeping → SamplerStep s i (.sampler i) { s with samplers := s.samplers.set i .check }

/-- What other threads do. -/
inductive ReaderStep (s : State) : Action → State → Prop where
  /-- One of them calls `sample()`. -/
  | sample : s.owner.lives = true →
      ReaderStep s .sample { s with readers := s.readers ++ [.reading (sample s.fields {})] }
  /-- A call of `sample()`. -/
  | call {i : ℕ} {c : Call} {k : c.Ret → Sample} (r : c.Ret) : s.readers[i]? = some (.reading (.call c k)) →
      ReaderStep s (.answer_reader i c r)
        { s with lib := s.lib.apply c r, readers := s.readers.set i (.reading (k r)) }
  /-- `sample()` returns. -/
  | returned {i : ℕ} {e : Except Empty Unit} {stats : GpuStats} :
      s.readers[i]? = some (.reading (.pure (e, stats))) →
      ReaderStep s (.reader i) { s with readers := s.readers.set i (.returned stats) }

/-- A step of one of the threads, unless the process has been terminated. -/
inductive Step (s : State) (a : Action) (t : State) : Prop where
  | owner : s.terminated = false → OwnerStep s a t → Step s a t
  | sampler {i : ℕ} : s.terminated = false → SamplerStep s i a t → Step s a t
  | reader : s.terminated = false → ReaderStep s a t → Step s a t

/-- A monitor, from the call of its constructor on. -/
def monitor : System State Action where
  init s := s = {}
  step := Step

/-! ### The invariant -/

/-- What a sampling thread is about to ask may be asked. -/
def SamplerPc.Quiet (n : Nvml) : SamplerPc → Prop
  | .sampling prog => prog.Within n.Asks fun _ => True
  | _ => True

/-- So with another thread. -/
def ReaderPc.Quiet (n : Nvml) : ReaderPc → Prop
  | .reading prog => prog.Within n.Asks fun _ => True
  | .returned _ => True

/-- The library as a destructor leaves it. -/
structure Unloaded (n : Nvml) : Prop where
  handle : n.handle = none
  initialized : n.initialized = false
  shutdowns : n.shutdowns ≤ 1

/-- How the monitor, the library and the thread that is joinable fit to where the owner is. -/
def State.OwnerSound (s : State) : Prop :=
  match s.owner with
  | .constructing prog => prog.wp nvml (fun r => Agree r.2) s.lib ∧ s.sampler_ = none
  | .idle => Agree s.fields s.lib ∧ (s.sampling_ = false → s.sampler_ = none)
  | .starting => Agree s.fields s.lib ∧ s.sampling_ = true ∧ s.sampler_ = none
  | .joining _ => Agree s.fields s.lib ∧ s.sampling_ = false
  | .destroying prog => prog.wp nvml (fun _ => Unloaded) s.lib ∧ s.sampler_ = none
  | .destroyed => Unloaded s.lib ∧ s.sampler_ = none

/-- The invariant. -/
structure Sound (s : State) : Prop where
  running : s.terminated = false
  owner : s.OwnerSound
  /-- The thread that is joinable is one of them. -/
  sampler : ∀ i, s.sampler_ = some i → i < s.samplers.length
  /-- The others have ended. -/
  exited : ∀ i p, s.samplers[i]? = some p → s.sampler_ ≠ some i → p = .exited
  samplers : ∀ p ∈ s.samplers, p.Quiet s.lib
  readers : ∀ r ∈ s.readers, r.Quiet s.lib
  /-- Nobody uses the monitor before it is constructed, or when it is being destroyed. -/
  returned : s.owner.lives = false → ∀ r ∈ s.readers, ∃ stats, r = .returned stats
  count : s.util_count_ = s.samples.length
  sum : s.util_sum_ = (s.samples.map fun st => st.utilization_pct.toNat).sum

variable {s t : State} {a : Action} {i : ℕ}

theorem sample_quiet {m : Fields} {n : Nvml} (h : Agree m n) (stats : GpuStats) :
    (sample m stats).Within n.Asks fun _ => True :=
  (sample_within h stats).mono (fun _ h => h) fun _ _ => trivial

/-- While a thread may be sampling, the monitor and the library agree. -/
theorem Sound.agree (h : Sound s) (hs : s.sampler_ ≠ none) : Agree s.fields s.lib := by
  have ho := h.owner
  unfold State.OwnerSound at ho
  cases heq : s.owner <;> simp_all

theorem Sound.agree_of_lives (h : Sound s) (hs : s.owner.lives = true) : Agree s.fields s.lib := by
  have ho := h.owner
  unfold State.OwnerSound at ho
  cases heq : s.owner <;> simp_all [OwnerPc.lives]

theorem sound_init : Sound {} where
  running := rfl
  owner := ⟨Prog.wp_mono (fun r _ h => by rcases r with ⟨⟨⟨⟩⟩ | _, _⟩; exact h) GpuMonitor_wp, rfl⟩
  sampler := by simp
  exited := by simp
  samplers := by simp
  readers := by simp
  returned := by simp
  count := rfl
  sum := rfl

/-- No thread that has ended asks anything. -/
theorem Sound.samplers_of_none (h : Sound s) (hs : s.sampler_ = none) (n : Nvml) : ∀ p ∈ s.samplers, p.Quiet n := by
  intro p hp
  obtain ⟨i, hi⟩ := List.mem_iff_getElem?.mp hp
  rw [h.exited i p hi (by simp [hs])]
  trivial

/-- Nor does a call that has returned. -/
theorem Sound.readers_of_dead (h : Sound s) (hs : s.owner.lives = false) (n : Nvml) : ∀ r ∈ s.readers, r.Quiet n := by
  intro r hr
  obtain ⟨stats, rfl⟩ := h.returned hs r hr
  trivial

/-- A call in which nobody else uses the library. -/
theorem Sound.owner_call (h : Sound s) {pc : OwnerPc} {lib : Nvml} (hs : s.sampler_ = none) (hl : s.owner.lives = false)
    (ho : State.OwnerSound { s with lib, owner := pc }) : Sound { s with lib, owner := pc } :=
  { h with
    owner    := ho
    samplers := h.samplers_of_none hs lib
    readers  := h.readers_of_dead hl lib
    returned := fun _ => h.returned hl }

/-- Once the sampling thread has ended, all that was said of it holds without it. -/
theorem Sound.joined (h : Sound s) {destroy : Bool} (ho : s.owner = .joining destroy)
    (hs : ∀ i, s.sampler_ = some i → s.samplers[i]? = some .exited) :
    Sound { s with sampler_ := none, owner := s.joined destroy } := by
  have hagree : Agree s.fields s.lib ∧ s.sampling_ = false := by simpa [State.OwnerSound, ho] using h.owner
  refine { h with owner := ?_, sampler := by simp, exited := fun i p hi _ => ?_, returned := fun hl => ?_ }
  · cases destroy with
    | false => exact ⟨hagree.1, fun _ => rfl⟩
    | true =>
      refine ⟨Prog.wp_mono ?_ (destroy_wp hagree.1), rfl⟩
      rintro ⟨⟨⟨⟩⟩ | _, _⟩ n ⟨hhandle, hinit, hshut⟩
      exact ⟨hhandle, hinit, hshut⟩
  · by_cases hsi : s.sampler_ = some i
    · exact Option.some.inj (hi.symm.trans (hs i hsi))
    · exact h.exited i p hi hsi
  · cases destroy with
    | false => cases hl
    | true => exact h.returned (by rw [ho]; rfl)

theorem Sound.ownerStep (h : Sound s) (hst : OwnerStep s a t) : Sound t := by
  have ho := h.owner
  unfold State.OwnerSound at ho
  cases hst with
  | construct r hpc =>
    rw [hpc] at ho
    exact h.owner_call ho.2 (by rw [hpc]; rfl) ⟨ho.1.2 r _ rfl, ho.2⟩
  | constructed hpc =>
    rw [hpc] at ho
    exact { h with owner := ⟨ho.1, fun _ => ho.2⟩, returned := by simp [OwnerPc.lives] }
  | start_absent _ _ => exact h
  | start_again _ _ _ => exact h
  | start hpc _ hsampling =>
    rw [hpc] at ho
    exact { h with owner := ⟨ho.1, rfl, ho.2 hsampling⟩, returned := by simp [OwnerPc.lives] }
  | create hpc hnone =>
    rw [hpc] at ho
    refine { h with
      owner    := ⟨ho.1, by simp [ho.2.1]⟩
      sampler  := by simp
      exited   := fun i p hi hne => ?_
      samplers := by simpa [or_imp, forall_and] using ⟨h.samplers, trivial⟩
      returned := by simp [OwnerPc.lives] }
    -- a thread that is not the new one has been there before
    have hlt : i < s.samplers.length := by
      have := (List.getElem?_eq_some_iff.mp hi).1
      simp at this hne
      omega
    exact h.exited i p (List.getElem?_append_left hlt ▸ hi) (by simp [hnone])
  | create_fails hpc =>
    rw [hpc] at ho
    exact { h with owner := ⟨ho.1, fun _ => ho.2.2⟩, returned := by simp [OwnerPc.lives] }
  | terminate hpc hne =>
    rw [hpc] at ho
    exact absurd ho.2.2 hne
  | stop hpc =>
    rw [hpc] at ho
    exact { h with owner := ⟨ho.1, rfl⟩, returned := by simp [OwnerPc.lives] }
  | destroy hpc hreaders =>
    rw [hpc] at ho
    exact { h with owner := ⟨ho.1, rfl⟩, returned := fun _ => hreaders }
  | join_none hpc hnone =>
    have := h.joined hpc (by simp [hnone])
    rwa [← hnone] at this
  | join hpc hsome hexit =>
    refine h.joined hpc fun j hj => ?_
    rw [hsome] at hj
    cases hj
    exact hexit
  | unload r hpc =>
    rw [hpc] at ho
    exact h.owner_call ho.2 (by rw [hpc]; rfl) ⟨ho.1.2 r _ rfl, ho.2⟩
  | destroyed hpc =>
    rw [hpc] at ho
    exact { h with owner := ho, returned := fun _ => h.returned (by rw [hpc]; rfl) }

/-- A sampling thread that has not ended goes on, and the library stays as it is. -/
theorem Sound.set_sampler (h : Sound s) {p q : SamplerPc} (hi : s.samplers[i]? = some p) (hp : p ≠ .exited)
    (hq : q.Quiet s.lib) : Sound { s with samplers := s.samplers.set i q } := by
  have hsome : s.sampler_ = some i := by
    by_contra hne
    exact hp (h.exited i p hi hne)
  refine { h with sampler := ?_, exited := fun j r hj hne => ?_, samplers := fun r hr => ?_ }
  · simpa using h.sampler
  · have hij : i ≠ j := by
      rintro rfl
      exact hne hsome
    exact h.exited j r (by simpa [List.getElem?_set_ne hij] using hj) hne
  · rcases List.mem_or_eq_of_mem_set hr with hr | rfl
    · exact h.samplers r hr
    · exact hq

theorem Sound.samplerStep (h : Sound s) (hst : SamplerStep s i a t) : Sound t := by
  cases hst with
  | check hi hsampling =>
    have hne : s.sampler_ ≠ none := fun hnone => by simpa using h.exited i _ hi (by simp [hnone])
    exact h.set_sampler hi (by simp) (sample_quiet (h.agree hne) _)
  | exit hi _ => exact h.set_sampler hi (by simp) trivial
  | call r hi =>
    have hquiet := h.samplers _ (List.mem_of_getElem? hi)
    rw [hquiet.1.2 r]
    exact h.set_sampler hi (by simp) (hquiet.2 r)
  | sampled hi => exact h.set_sampler hi (by simp) trivial
  | @add stats hi =>
    refine { h.set_sampler (q := .sleeping) hi (by simp) trivial with count := ?_, sum := ?_ }
    · simp [h.count]
    · simp [h.sum]
  | wake hi => exact h.set_sampler hi (by simp) trivial

theorem Sound.set_reader (h : Sound s) {p q : ReaderPc} (hi : s.readers[i]? = some p)
    (hp : ∀ stats, p ≠ .returned stats)
    (hq : q.Quiet s.lib) : Sound { s with readers := s.readers.set i q } := by
  refine { h with readers := fun r hr => ?_, returned := fun hl => ?_ }
  · rcases List.mem_or_eq_of_mem_set hr with hr | rfl
    · exact h.readers r hr
    · exact hq
  · obtain ⟨stats, hstats⟩ := h.returned hl p (List.mem_of_getElem? hi)
    exact absurd hstats (hp stats)

theorem Sound.readerStep (h : Sound s) (hst : ReaderStep s a t) : Sound t := by
  cases hst with
  | sample hl =>
    refine { h with readers := ?_, returned := fun hf => by simp_all }
    simpa [or_imp, forall_and] using ⟨h.readers, sample_quiet (h.agree_of_lives hl) _⟩
  | call r hi =>
    have hquiet := h.readers _ (List.mem_of_getElem? hi)
    rw [hquiet.1.2 r]
    exact h.set_reader hi (by simp) (hquiet.2 r)
  | returned hi => exact h.set_reader hi (by simp) trivial

theorem Sound.step (h : Sound s) (hst : Step s a t) : Sound t := by
  cases hst with
  | owner _ hst => exact h.ownerStep hst
  | sampler _ hst => exact h.samplerStep hst
  | reader _ hst => exact h.readerStep hst

theorem sound_of_reachable (h : Reachable monitor Always s) : Sound s := by
  refine h.invariant ?_ fun _ hs hst _ => hs.step hst
  rintro _ rfl
  exact sound_init

/-! ### Safety -/

/-- Some thread is about to make this call. -/
def State.calling (s : State) (c : Call) : Prop :=
  (∃ k, s.owner = .constructing (.call c k)) ∨ (∃ k, s.owner = .destroying (.call c k)) ∨
    (∃ k, .sampling (.call c k) ∈ s.samplers) ∨ ∃ k, .reading (.call c k) ∈ s.readers

/-- Sampling thread `i` has not ended. -/
def State.active (s : State) (i : ℕ) : Prop := ∃ p, s.samplers[i]? = some p ∧ p ≠ .exited

theorem Sound.sampler_of_active (h : Sound s) (hi : s.active i) : s.sampler_ = some i := by
  obtain ⟨p, hp, hne⟩ := hi
  by_contra hsome
  exact hne (h.exited i p hp hsome)

theorem Sound.not_active (h : Sound s) (hs : s.sampler_ = none) (i : ℕ) : ¬ s.active i := fun hi => by
  simpa [hs] using h.sampler_of_active hi

/-- Whatever is called next is called as it has to be. -/
theorem Sound.pre (h : Sound s) {c : Call} (hc : s.calling c) : Nvml.pre c s.lib := by
  have ho := h.owner
  unfold State.OwnerSound at ho
  obtain ⟨k, hpc⟩ | ⟨k, hpc⟩ | ⟨k, hk⟩ | ⟨k, hk⟩ := hc
  · rw [hpc] at ho
    exact ho.1.1
  · rw [hpc] at ho
    exact ho.1.1
  · exact (h.samplers _ hk).1.1
  · exact (h.readers _ hk).1.1

/-- The mean is that of the percentages sampled so far, if there are any. -/
theorem Sound.mean (h : Sound s) :
    s.mean_utilization = ((s.samples.map fun st => st.utilization_pct.toNat).sum : ℕ) / (s.samples.length : ℚ) := by
  unfold State.mean_utilization
  rw [h.count, h.sum]
  split_ifs with hpos
  · rfl
  · have : s.samples = [] := by simpa using hpos
    simp [this]

/-- **A monitor is safe to sample from several threads.** Wherever a run has got to, `std::terminate`
has not been called; whichever thread makes the next call, the library is ready for it; there is at
most one sampling thread, and none after `stop_sampling()`; when the monitor has been destroyed there
is none, and the library has been shut down at most once, is not initialized and not loaded; and the mean
is that of all that has been sampled. -/
theorem monitor_safe (h : Reachable monitor Always s) :
    s.terminated = false ∧ (∀ c, s.calling c → Nvml.pre c s.lib) ∧ (∀ i j, s.active i → s.active j → i = j) ∧
      (s.owner = .idle → s.sampling_ = false → ∀ i, ¬ s.active i) ∧
      (s.owner = .destroyed → Unloaded s.lib ∧ ∀ i, ¬ s.active i) ∧
      s.mean_utilization =
        ((s.samples.map fun st => st.utilization_pct.toNat).sum : ℕ) / (s.samples.length : ℚ) := by
  have hs := sound_of_reachable h
  have ho := hs.owner
  unfold State.OwnerSound at ho
  refine ⟨hs.running, fun _ => hs.pre, fun i j hi hj => ?_, fun hpc hsampling => ?_, fun hpc => ?_, hs.mean⟩
  · exact Option.some.inj ((hs.sampler_of_active hi).symm.trans (hs.sampler_of_active hj))
  · rw [hpc] at ho
    exact hs.not_active (ho.2 hsampling)
  · rw [hpc] at ho
    exact ⟨ho.1, hs.not_active ho.2⟩

/-- With NVML: while the sampling thread samples another thread does, and its calls fail. The sampling is stopped when
there is one sample, and the monitor destroyed. -/
theorem monitor_safe_destroyed : ∃ s t : State, s.active 0 ∧ s.calling (.nvmlDeviceGetMemoryInfo 7) ∧
    s.calling (.nvmlDeviceGetUtilizationRates 7) ∧ (∀ c, s.calling c → Nvml.pre c s.lib) ∧ t.owner = .destroyed ∧
    t.lib.shutdowns = 1 ∧ Unloaded t.lib ∧ (∀ i, ¬ t.active i) ∧ t.mean_utilization = 40 := by
  -- the constructor, and `start_sampling()`
  have h : Reachable monitor Always {} := .start rfl
  have h := h.tail (.owner rfl (.construct (c := .dlopen) (some 3) rfl)) trivial
  have h := h.tail (.owner rfl (.construct (c := .dlsym 3 .nvmlInit) true rfl)) trivial
  have h := h.tail (.owner rfl (.construct (c := .dlsym 3 .nvmlShutdown) true rfl)) trivial
  have h := h.tail (.owner rfl (.construct (c := .dlsym 3 .nvmlDeviceGetHandleByIndex) true rfl)) trivial
  have h := h.tail (.owner rfl (.construct (c := .dlsym 3 .nvmlDeviceGetMemoryInfo) true rfl)) trivial
  have h := h.tail (.owner rfl (.construct (c := .dlsym 3 .nvmlDeviceGetUtilizationRates) true rfl)) trivial
  have h := h.tail (.owner rfl (.construct (c := .nvmlInit) (Except.ok ()) rfl)) trivial
  have h := h.tail (.owner rfl (.construct (c := .nvmlDeviceGetHandleByIndex 0) (Except.ok (some 7)) rfl)) trivial
  have h := h.tail (.owner rfl (.constructed rfl)) trivial
  have h := h.tail (.owner rfl (.start rfl rfl rfl)) trivial
  have h := h.tail (.owner rfl (.create rfl rfl)) trivial
  -- the sampling thread is between its two calls when the other thread makes its first
  have h := h.tail (.sampler (i := 0) rfl (.check rfl rfl)) trivial
  have h := h.tail (.sampler (i := 0) rfl
    (.call (c := .nvmlDeviceGetMemoryInfo 7) (Except.ok ⟨16, 9, 7⟩) rfl)) trivial
  have hboth := h.tail (.reader rfl (.sample rfl)) trivial
  have h := hboth.tail (.reader rfl
    (.call (i := 0) (c := .nvmlDeviceGetMemoryInfo 7) (Except.error 1) rfl)) trivial
  have h := h.tail (.sampler (i := 0) rfl
    (.call (c := .nvmlDeviceGetUtilizationRates 7) (Except.ok ⟨40, 5⟩) rfl)) trivial
  have h := h.tail (.sampler (i := 0) rfl (.sampled rfl)) trivial
  -- `stop_sampling()`, during which what is sampled is still added
  have h := h.tail (.owner rfl (.stop rfl)) trivial
  have h := h.tail (.sampler (i := 0) rfl (.add rfl)) trivial
  have h := h.tail (.sampler (i := 0) rfl (.wake rfl)) trivial
  have h := h.tail (.sampler (i := 0) rfl (.exit rfl rfl)) trivial
  have h := h.tail (.owner rfl (.join (i := 0) rfl rfl rfl)) trivial
  have h := h.tail (.reader rfl
    (.call (i := 0) (c := .nvmlDeviceGetUtilizationRates 7) (Except.error 1) rfl)) trivial
  have h := h.tail (.reader rfl (.returned (i := 0) rfl)) trivial
  -- the destructor
  have h := h.tail (.owner rfl (.destroy rfl (by simp))) trivial
  have h := h.tail (.owner rfl (.join_none rfl rfl)) trivial
  have h := h.tail (.owner rfl (.unload (c := .nvmlShutdown) () rfl)) trivial
  have h := h.tail (.owner rfl (.unload (c := .dlclose 3) () rfl)) trivial
  have h := h.tail (.owner rfl (.destroyed rfl)) trivial
  obtain ⟨-, hpre, -⟩ := monitor_safe hboth
  obtain ⟨-, -, -, -, hdestroyed, hmean⟩ := monitor_safe h
  obtain ⟨hunloaded, hnone⟩ := hdestroyed rfl
  refine ⟨_, _, ⟨_, rfl, by simp⟩, ?_, ?_, hpre, rfl, rfl, hunloaded, hnone, ?_⟩
  · exact .inr (.inr (.inr ⟨_, List.mem_singleton.mpr rfl⟩))
  · exact .inr (.inr (.inl ⟨_, List.mem_singleton.mpr rfl⟩))
  · rw [hmean]
    simp

/-! ### Stopping -/

/-- The steps of the sampling threads. -/
def Action.Samples : Action → Prop
  | .sampler _ | .answer_sampler .. => True
  | _ => False

/-- Once `sampling_` is `false`, a sampling thread ends with its `k`-th step at the latest. -/
def SamplerPc.Left (k : ℕ) : SamplerPc → Prop
  | .exited => True
  | .check => 1 ≤ k
  | .sleeping => 2 ≤ k
  | .measured _ => 3 ≤ k
  | .sampling prog => ∃ calls, prog.AtMost calls ∧ calls + 4 ≤ k

theorem sample_atMost (m : Fields) (stats : GpuStats) : (sample m stats).AtMost 2 := by
  unfold sample
  cases m.nvml_available_ <;> cases m.impl_.device
  case true.some => exact fun mem => by cases mem <;> exact fun util => by cases util <;> trivial
  all_goals exact fun info => by cases info <;> trivial

theorem left_set {k : ℕ} {q : SamplerPc} (h : ∀ p ∈ s.samplers, p.Left k) (hq : q.Left k) :
    ∀ p ∈ s.samplers.set i q, p.Left k := by
  intro p hp
  rcases List.mem_or_eq_of_mem_set hp with hp | rfl
  · exact h p hp
  · exact hq

/-- A sampling thread never has more than six steps left. -/
theorem left_of_reachable (h : Reachable monitor Always s) : ∀ p ∈ s.samplers, p.Left 6 := by
  refine h.invariant (I := fun s => ∀ p ∈ s.samplers, p.Left 6) ?_ fun _ hs hst _ => ?_
  · rintro _ rfl
    simp
  cases hst with
  | owner _ hst =>
    cases hst with
    | create => simpa [or_imp, forall_and] using ⟨hs, (by decide : 1 ≤ 6)⟩
    | _ => exact hs
  | sampler _ hst =>
    cases hst with
    | check => exact left_set hs ⟨2, sample_atMost _ _, le_rfl⟩
    | call r hi =>
      obtain ⟨_ | calls, hcalls, hle⟩ := hs _ (List.mem_of_getElem? hi)
      · exact hcalls.elim
      · exact left_set hs ⟨calls, hcalls r, by omega⟩
    | exit => exact left_set hs trivial
    | _ => exact left_set hs (by simp [SamplerPc.Left])
  | reader _ hst => cases hst <;> exact hs

/-- `stop_sampling()` or the destructor waits for the sampling thread, if there is one, which
has at most `k` steps left. -/
structure Waiting (k : ℕ) (s : State) : Prop extends Sound s where
  pc : ∃ destroy, s.owner = .joining destroy
  left : ∀ p ∈ s.samplers, p.Left k

theorem Waiting.exited_of_ne {k j : ℕ} (h : Waiting k s) {p q : SamplerPc} (hi : s.samplers[i]? = some p)
    (hp : p ≠ .exited) (hj : s.samplers[j]? = some q) (hij : i ≠ j) : q = .exited :=
  h.exited j q hj fun hsome =>
    hij (Option.some.inj ((h.sampler_of_active ⟨p, hi, hp⟩).symm.trans hsome))

/-- When the sampling thread has fewer steps left, so have all, since the others have none. -/
theorem Waiting.left_of_set {k j : ℕ} (h : Waiting k s) {p q : SamplerPc} (hi : s.samplers[i]? = some p)
    (hp : p ≠ .exited) (hq : q.Left j) : ∀ r ∈ s.samplers.set i q, r.Left j := by
  intro r hr
  obtain ⟨n, hn⟩ := List.mem_iff_getElem?.mp hr
  rcases eq_or_ne i n with rfl | hin
  · have : q = r := by simpa [List.getElem?_set_self', hi] using hn
    exact this ▸ hq
  · rw [List.getElem?_set_ne hin] at hn
    rw [h.exited_of_ne hi hp hn hin]
    trivial

/-- A step of the sampling thread. -/
theorem Waiting.samplerStep {k : ℕ} (h : Waiting k s) (hst : SamplerStep s i a t) : ∃ j, j < k ∧ Waiting j t := by
  have hsound := h.toSound.samplerStep hst
  obtain ⟨destroy, hpc⟩ := h.pc
  have hsampling : s.sampling_ = false := by
    have ho := h.owner
    unfold State.OwnerSound at ho
    rw [hpc] at ho
    exact ho.2
  cases hst with
  | check _ htrue => simp [hsampling] at htrue
  | @exit hi _ =>
    have hk : 1 ≤ k := h.left _ (List.mem_of_getElem? hi)
    exact ⟨0, hk, hsound, h.pc, h.left_of_set hi (by simp) trivial⟩
  | call r hi =>
    obtain ⟨_ | calls, hcalls, hle⟩ := h.left _ (List.mem_of_getElem? hi)
    · exact hcalls.elim
    · exact ⟨k - 1, by omega, hsound, h.pc, h.left_of_set hi (by simp) ⟨calls, hcalls r, by omega⟩⟩
  | sampled hi =>
    obtain ⟨calls, -, hle⟩ := h.left _ (List.mem_of_getElem? hi)
    exact ⟨3, by omega, hsound, h.pc, h.left_of_set hi (by simp) le_rfl⟩
  | add hi =>
    have hk : 3 ≤ k := h.left _ (List.mem_of_getElem? hi)
    exact ⟨2, hk, hsound, h.pc, h.left_of_set hi (by simp) le_rfl⟩
  | wake hi =>
    have hk : 2 ≤ k := h.left _ (List.mem_of_getElem? hi)
    exact ⟨1, hk, hsound, h.pc, h.left_of_set hi (by simp) le_rfl⟩

/-- A step of another thread, while the owner waits. -/
theorem Waiting.otherStep {k : ℕ} (h : Waiting k s) (hst : Step s a t) (ha : ¬ a.Samples) (hj : a ≠ .join) :
    Waiting k t := by
  have hsound := h.toSound.step hst
  obtain ⟨destroy, hpc⟩ := h.pc
  cases hst with
  | owner _ hst => cases hst <;> simp_all
  | sampler _ hst => cases hst <;> exact absurd trivial ha
  | reader _ hst => cases hst <;> exact ⟨hsound, h.pc, h.left⟩

/-- Every call may be answered. -/
theorem exists_answer : ∀ c : Call, Nonempty c.Ret
  | .dlopen => ⟨none⟩
  | .dlsym .. => ⟨false⟩
  | .dlclose _ | .nvmlShutdown => ⟨()⟩
  | .nvmlInit => ⟨.ok ()⟩
  | .nvmlDeviceGetHandleByIndex _ => ⟨.ok none⟩
  | .nvmlDeviceGetMemoryInfo _ | .nvmlDeviceGetUtilizationRates _ | .cudaMemGetInfo => ⟨.error 1⟩

/-- A sampling thread that has not ended can go on. -/
theorem exists_samplerStep {p : SamplerPc} (hi : s.samplers[i]? = some p) (hp : p ≠ .exited) :
    ∃ a t, SamplerStep s i a t ∧ a.Samples := by
  cases p with
  | check =>
    cases hs : s.sampling_ with
    | true => exact ⟨_, _, .check hi hs, trivial⟩
    | false => exact ⟨_, _, .exit hi hs, trivial⟩
  | sampling prog =>
    cases prog with
    | pure r => exact ⟨_, _, .sampled (e := r.1) hi, trivial⟩
    | call c k =>
      obtain ⟨r⟩ := exists_answer c
      exact ⟨_, _, .call r hi, trivial⟩
  | measured stats => exact ⟨_, _, .add hi, trivial⟩
  | sleeping => exact ⟨_, _, .wake hi, trivial⟩
  | exited => exact absurd rfl hp

/-- The thread that is waited for has ended, or can go on. -/
theorem Waiting.exists_step {k : ℕ} (h : Waiting k s) :
    (∃ t, Step s .join t) ∨ ∃ a t, Step s a t ∧ a.Samples := by
  obtain ⟨destroy, hpc⟩ := h.pc
  cases hsome : s.sampler_ with
  | none => exact .inl ⟨_, .owner h.running (.join_none hpc hsome)⟩
  | some i =>
    obtain ⟨p, hi⟩ : ∃ p, s.samplers[i]? = some p := ⟨_, List.getElem?_eq_getElem (h.sampler i hsome)⟩
    by_cases hexit : p = .exited
    · subst hexit
      exact .inl ⟨_, .owner h.running (.join hpc hsome hi)⟩
    · obtain ⟨a, t, hst, ha⟩ := exists_samplerStep hi hexit
      exact .inr ⟨a, t, .sampler h.running hst, ha⟩

/-- **`stop_sampling()` returns**, and so does the wait in the destructor: while it waits, the sampling
thread takes no more than six steps, whatever the libraries answer and whatever other threads do, and
until it has ended it can take one. -/
theorem stop_returns {destroy : Bool} {n : ℕ} (h : Reachable monitor Always s) (hpc : s.owner = .joining destroy)
    (hst : Counted monitor (fun _ a => a ≠ .join) Action.Samples s n t) :
    n ≤ 6 ∧ ((∃ u, monitor.step t .join u) ∨ ∃ a u, monitor.step t a u ∧ a.Samples) := by
  have hwait : Waiting 6 s := ⟨sound_of_reachable h, ⟨destroy, hpc⟩, left_of_reachable h⟩
  have hleft : ∃ k, n + k ≤ 6 ∧ Waiting k t := by
    refine hst.bounded (fun hw hst _ ha => ?_) (fun hw hst hj ha => hw.otherStep hst ha hj) hwait
    cases hst with
    | owner _ hst => cases hst <;> exact ha.elim
    | sampler _ hst => exact hw.samplerStep hst
    | reader _ hst => cases hst <;> exact ha.elim
  obtain ⟨k, hk, hwait⟩ := hleft
  exact ⟨by omega, hwait.exists_step⟩

/-- The destructor begins while a thread has yet to add what it has sampled; the thread adds it. -/
theorem stop_returns_measured : ∃ t : State, t.owner = .joining true ∧ t.samples.length = 1 ∧
    ((∃ u, monitor.step t .join u) ∨ ∃ a u, monitor.step t a u ∧ a.Samples) := by
  have h : Reachable monitor Always {} := .start rfl
  have h := h.tail (.owner rfl (.construct none rfl)) trivial
  have h := h.tail (.owner rfl (.construct (c := .cudaMemGetInfo) (Except.ok (5, 8)) rfl)) trivial
  have h := h.tail (.owner rfl (.constructed rfl)) trivial
  have h := h.tail (.owner rfl (.start rfl rfl rfl)) trivial
  have h := h.tail (.owner rfl (.create rfl rfl)) trivial
  have h := h.tail (.sampler (i := 0) rfl (.check rfl rfl)) trivial
  have h := h.tail (.sampler (i := 0) rfl (.call (c := .cudaMemGetInfo) (Except.ok (5, 8)) rfl)) trivial
  have h := h.tail (.sampler (i := 0) rfl (.sampled rfl)) trivial
  have h := h.tail (.owner rfl (.destroy rfl (by simp))) trivial
  have hend := stop_returns h rfl (.counted .refl (.sampler (i := 0) rfl (.add rfl)) (by simp) trivial)
  exact ⟨_, rfl, rfl, hend.2⟩

end Gbis.Monitor
