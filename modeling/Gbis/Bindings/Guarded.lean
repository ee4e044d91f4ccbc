import Gbis.Bindings.Lifecycle

/-!
# The global scheduler under concurrent callers

`g_sched` is said to be guarded by `g_mutex`, and `submit_job` does not take it. So two calls
that find `g_sched` null both create a scheduler (`two_schedulers_created`), and
`Scheduler.start` may destroy the scheduler that a `submit_job` is about to use
(`submit_to_destroyed`).

As long as the calls do not meet in these places (`Orderly`), there is never more than one
scheduler, and every job is submitted to the one `g_sched` points to (`global_scheduler_safe`).
The invariant (`Owned`) says which scheduler is alive: the one `g_sched` points to or, while one
is being created, the one that is about to be assigned.
-/

namespace Gbis.Bindings

open Gbis.Core Gbis.Sched Library

variable {m m' : Module} {a : ModuleAction} {g : Option ℕ}

/-- Whether a call is between having found, or made, `g_sched` null and assigning to it. -/
def CallPc.creating : CallPc → Bool
  | .make _ | .assign _ _ => true
  | _ => false

/-- The instance a call is in, or has a reference to. -/
def CallPc.uses : CallPc → Option ℕ
  | .submit _ k | .submitting k _ | .starting _ k => some k
  | _ => none

/-- The instance a call submits its job to. -/
def CallPc.submitsTo : CallPc → Option ℕ
  | .submit _ k | .submitting k _ => some k
  | _ => none

/-- The number of instances that exist. -/
def Module.live (m : Module) : ℕ := m.instances.countP fun inst => !inst.destroyed

/-- At most one scheduler exists, and every job that is being submitted is submitted to the one
`g_sched` points to, which has not been destroyed. -/
structure Safe (m : Module) : Prop where
  one : m.live ≤ 1
  submits : ∀ c ∈ m.calls, ∀ k, c.submitsTo = some k →
    m.g_sched = some k ∧ ∃ inst : Instance, m.instances[k]? = some inst ∧ inst.destroyed = false

/-- Where the calls must not meet. -/
def Module.orderly (m : Module) : ModuleAction → Bool
  | .go i _ => match m.calls[i]? with
    | some (.check _) => m.g_sched ≠ none || !m.calls.any CallPc.creating
    | some .reset => !m.calls.any fun c => c.creating || c.uses.isSome
    | some (.call_start _) | some (.deref _) | some .call_stop => m.g_sched ≠ none
    | _ => true
  | _ => true

/-- `submit_job` finds `g_sched` null only while no other call is creating a scheduler;
`Scheduler.start` resets `g_sched` only while no other call is creating a scheduler or is in
one; and `g_sched` is not dereferenced while it is null. -/
def Orderly (m : Module) (a : ModuleAction) : Prop := m.orderly a = true

instance (m : Module) (a : ModuleAction) : Decidable (Orderly m a) := inferInstanceAs (Decidable (m.orderly a = true))

/-! ### The calls that meet -/

/-- The calls of `submit_job` in what follows. -/
def oneJob : EntryPoint := .submit_job 1 1 1 1 0

/-- Two calls of `submit_job` find `g_sched` null, and both create a scheduler. -/
theorem two_schedulers_created : ∃ m, Reachable python Always m ∧ m.live = 2 := by
  obtain ⟨m, hr, hm⟩ := exists_module_of_follow Always
    [.call oneJob, .call oneJob, .go 0 0, .go 1 0, .go 0 0, .go 1 0] (fun m => m.live = 2) (by decide)
  exact ⟨m, hr, by simpa using hm⟩

/-- `Scheduler.start` has found `g_running` not set; `submit_job` creates a scheduler, starts it
and is about to submit its job; then `Scheduler.start` resets `g_sched`. -/
theorem submit_to_destroyed :
    ∃ m, Reachable python Always m ∧ ∃ c ∈ m.calls, c.submitsTo = some 0 ∧ m.g_sched = none ∧
      m.instances.map (·.destroyed) = [true] := by
  obtain ⟨m, hr, hm⟩ := exists_module_of_follow Always
    [.call (.start 8 1 "tiled"), .go 0 0, .go 0 0, .go 0 0, .call oneJob, .go 1 0, .go 1 0, .go 1 0, .go 1 0,
     .sched 0 (.probe false 0), .sched 0 .spawn, .sched 0 .spawn, .go 1 0, .go 1 0, .go 1 0, .go 0 0]
    (fun m => m.calls.any (fun c => c.submitsTo = some 0) &&
      (m.g_sched = none && m.instances.map (·.destroyed) = [true]))
    (by decide)
  simp only [Bool.and_eq_true, List.any_eq_true, decide_eq_true_eq] at hm
  obtain ⟨⟨c, hc, hk⟩, hg, hd⟩ := hm
  exact ⟨m, hr, c, hc, hk, hg, hd⟩

/-- There may be two schedulers, and a job may be submitted to one that has been destroyed. -/
theorem global_scheduler_unsafe :
    (∃ m, Reachable python Always m ∧ ¬ m.live ≤ 1) ∧
    (∃ m, Reachable python Always m ∧ ∃ c ∈ m.calls, c.submitsTo = some 0 ∧ m.g_sched = none ∧
      ∃ inst : Instance, m.instances[0]? = some inst ∧ inst.destroyed = true) := by
  obtain ⟨m₁, hr₁, hlive⟩ := two_schedulers_created
  obtain ⟨m₂, hr₂, c, hc, hk, hg, hd⟩ := submit_to_destroyed
  refine ⟨⟨m₁, hr₁, by omega⟩, m₂, hr₂, c, hc, hk, hg, ?_⟩
  obtain ⟨inst, hinst, hdestroyed⟩ := List.map_eq_singleton_iff.mp hd
  exact ⟨inst, by rw [hinst]; rfl, hdestroyed⟩

/-! ### Which scheduler is alive -/

/-- Of the instances, just this one has not been destroyed. -/
structure Module.Tracks (m : Module) (g : Option ℕ) : Prop where
  lt : ∀ k, g = some k → k < m.instances.length
  alive : ∀ (k : ℕ) (inst : Instance), m.instances[k]? = some inst → (inst.destroyed = false ↔ g = some k)

/-- The instances are as alive as they were. -/
structure SameLives (m m' : Module) : Prop where
  length : m'.instances.length = m.instances.length
  destroyed : ∀ (k : ℕ) (inst' : Instance), m'.instances[k]? = some inst' →
    ∃ inst : Instance, m.instances[k]? = some inst ∧ inst'.destroyed = inst.destroyed

theorem SameLives.of_eq (h : m'.instances = m.instances) : SameLives m m' :=
  ⟨by rw [h], fun k inst' hk => ⟨inst', by rw [← h, hk], rfl⟩⟩

theorem Module.Tracks.of_same (h : m.Tracks g) (hs : SameLives m m') : m'.Tracks g := by
  refine ⟨fun k hk => ?_, fun k inst' hk => ?_⟩
  · rw [hs.length]
    exact h.lt k hk
  · obtain ⟨inst, hinst, hd⟩ := hs.destroyed k inst' hk
    rw [hd]
    exact h.alive k inst hinst

/-- An instance goes on. -/
theorem SameLives.of_setSched (k : ℕ) (t : State) (hm : m'.instances = (m.setSched k t).instances) :
    SameLives m m' := by
  refine ⟨by simp [hm, Module.setSched], fun j inst' hj => ?_⟩
  simp only [hm, Module.setSched, List.getElem?_modify] at hj
  cases hinst : m.instances[j]? with
  | none => rw [hinst] at hj; cases hj
  | some inst =>
    rw [hinst] at hj
    refine ⟨inst, rfl, ?_⟩
    obtain rfl := Option.some.inj hj
    dsimp only
    split_ifs <;> rfl

/-- No instance is alive once the one `g_sched` points to has been destroyed. -/
theorem Module.Tracks.discard (h : m.Tracks m.g_sched) : m.discard.Tracks none := by
  refine ⟨by simp, fun k inst' hk => ?_⟩
  simp only [reduceCtorEq, iff_false]
  unfold Module.discard at hk
  split at hk
  · rename_i j hj
    simp only [List.getElem?_modify] at hk
    cases hinst : m.instances[k]? with
    | none => rw [hinst] at hk; cases hk
    | some inst =>
      rw [hinst] at hk
      obtain rfl := Option.some.inj hk
      by_cases hjk : j = k
      · simp [hjk]
      · simp only [hjk, if_false]
        rw [h.alive k inst hinst, hj]
        simpa using hjk
  · rename_i hg
    rw [h.alive k inst' hk, hg]
    simp

/-- An instance that is created while none is alive is the one that is alive. -/
theorem Module.Tracks.create (h : m.Tracks none) {inst : Instance} (hi : inst.destroyed = false)
    (hm : m'.instances = m.instances ++ [inst]) : m'.Tracks (some m.instances.length) := by
  refine ⟨fun k hk => ?_, fun k inst' hk => ?_⟩
  · obtain rfl := Option.some.inj hk
    simp [hm]
  · rw [hm] at hk
    rcases Nat.lt_trichotomy k m.instances.length with hlt | heq | hgt
    · rw [List.getElem?_append_left hlt] at hk
      rw [h.alive k inst' hk]
      simp only [reduceCtorEq, Option.some.injEq, false_iff]
      omega
    · rw [heq, List.getElem?_concat_length] at hk
      obtain rfl := Option.some.inj hk
      simp [hi, heq]
    · rw [List.getElem?_eq_none (by simp; omega)] at hk
      cases hk

/-- At most one element of a list satisfies `p`, if those that do are all in one place. -/
theorem countP_le_one {α : Type} {p : α → Bool} {l : List α}
    (h : ∀ (i j : ℕ) (x y : α), l[i]? = some x → l[j]? = some y → p x = true → p y = true → i = j) :
      l.countP p ≤ 1 := by
  induction l with
  | nil => simp
  | cons x l ih =>
    rw [List.countP_cons]
    by_cases hx : p x = true
    · have hnone : l.countP p = 0 := by
        rw [List.countP_eq_zero]
        intro y hy hp
        obtain ⟨j, hj⟩ := List.mem_iff_getElem?.mp hy
        have := h 0 (j + 1) x y rfl (by simpa using hj) hx hp
        omega
      simp [hnone, hx]
    · have hle := ih fun i j y z hi hj hy hz => by
        have := h (i + 1) (j + 1) y z (by simpa using hi) (by simpa using hj) hy hz
        omega
      simpa [hx] using hle

theorem Module.Tracks.live_le (h : m.Tracks g) : m.live ≤ 1 := by
  refine countP_le_one fun i j x y hi hj hx hy => ?_
  have hgi : g = some i := (h.alive i x hi).mp (by simpa using hx)
  have hgj : g = some j := (h.alive j y hj).mp (by simpa using hy)
  exact Option.some.inj (hgi.symm.trans hgj)

/-! ### The invariant -/

/-- Who owns the scheduler that is alive. -/
structure Owned (m : Module) : Prop where
  one : ∀ (i j : ℕ) (c d : CallPc), m.calls[i]? = some c → m.calls[j]? = some d → c.creating = true →
    d.creating = true → i = j
  making : ∀ (i : ℕ) (after : After), m.calls[i]? = some (.make after) → m.g_sched = none ∧ m.Tracks none
  assigning : ∀ (i : ℕ) (after : After) (k : ℕ), m.calls[i]? = some (.assign after k) → m.g_sched = none ∧
    m.Tracks (some k)
  owned : (∀ c ∈ m.calls, c.creating = false) → m.Tracks m.g_sched
  uses : ∀ c ∈ m.calls, ∀ k, c.uses = some k → m.g_sched = some k

/-- Call `j` after call `i` has moved. -/
theorem getElem?_set_cases {calls : List CallPc} {i j : ℕ} {pc c : CallPc} (h : (calls.set i pc)[j]? = some c) :
    j = i ∧ c = pc ∨ j ≠ i ∧ calls[j]? = some c := by
  by_cases hij : i = j
  · subst hij
    have hlt := (List.getElem?_eq_some_iff.mp h).1
    rw [List.getElem?_set_self (by simpa using hlt)] at h
    exact .inl ⟨rfl, (Option.some.inj h).symm⟩
  · rw [List.getElem?_set_ne hij] at h
    exact .inr ⟨fun hji => hij hji.symm, h⟩

/-- Nobody is in an instance while `g_sched` is null. -/
theorem Owned.uses_none (h : Owned m) (hg : m.g_sched = none) : ∀ c ∈ m.calls, c.uses = none := by
  intro c hc
  by_contra hne
  obtain ⟨k, hk⟩ := Option.ne_none_iff_exists'.mp hne
  rw [h.uses c hc k hk] at hg
  cases hg

/-- Calls move or are made, and none of them creates or replaces an instance. -/
theorem Owned.of_calls (h : Owned m)
    (hcalls : ∀ (j : ℕ) (c : CallPc), m'.calls[j]? = some c →
      m.calls[j]? = some c ∨ c.creating = false ∧ ∀ k, c.uses = some k → m.g_sched = some k)
    (hkeep : ∀ c ∈ m.calls, c.creating = true → c ∈ m'.calls) (hg : m'.g_sched = m.g_sched) (hl : SameLives m m') :
    Owned m' := by
  have hold : ∀ (j : ℕ) (c : CallPc), m'.calls[j]? = some c → c.creating = true → m.calls[j]? = some c := by
    intro j c hj hc
    rcases hcalls j c hj with hj | ⟨hnot, -⟩
    · exact hj
    · rw [hnot] at hc
      cases hc
  refine ⟨fun j k c d hj hk hc hd => ?_, fun j after hj => ?_, fun j after k hj => ?_, fun hnone => ?_,
    fun c hc k hk => ?_⟩
  · exact h.one j k c d (hold j c hj hc) (hold k d hk hd) hc hd
  · obtain ⟨hnull, ht⟩ := h.making j after (hold j _ hj rfl)
    exact ⟨hg.trans hnull, ht.of_same hl⟩
  · obtain ⟨hnull, ht⟩ := h.assigning j after k (hold j _ hj rfl)
    exact ⟨hg.trans hnull, ht.of_same hl⟩
  · rw [hg]
    refine (h.owned fun c hc => ?_).of_same hl
    by_contra hcreating
    have hcreating : c.creating = true := by simpa using hcreating
    rw [hnone c (hkeep c hc hcreating)] at hcreating
    cases hcreating
  · rw [hg]
    obtain ⟨j, hj⟩ := List.mem_iff_getElem?.mp hc
    rcases hcalls j c hj with hj | ⟨-, hu⟩
    · exact h.uses c (List.mem_of_getElem? hj) k hk
    · exact hu k hk

/-- One call moves. -/
theorem Owned.move (h : Owned m) {i : ℕ} {pc p : CallPc} (hi : m.calls[i]? = some pc) (hpc : pc.creating = false)
    (hpc' : p.creating = false) (hcalls : m'.calls = m.calls.set i p) (hg : m'.g_sched = m.g_sched)
    (hl : SameLives m m') (hu : ∀ k, p.uses = some k → m.g_sched = some k) : Owned m' := by
  refine h.of_calls (fun j c hj => ?_) (fun c hc hcreating => ?_) hg hl
  · rw [hcalls] at hj
    rcases getElem?_set_cases hj with ⟨-, rfl⟩ | ⟨-, hj⟩
    · exact .inr ⟨hpc', hu⟩
    · exact .inl hj
  · obtain ⟨j, hj⟩ := List.mem_iff_getElem?.mp hc
    have hji : i ≠ j := by
      rintro rfl
      obtain rfl := Option.some.inj (hi.symm.trans hj)
      rw [hpc] at hcreating
      cases hcreating
    refine List.mem_of_getElem? (i := j) ?_
    rw [hcalls, List.getElem?_set_ne hji]
    exact hj

/-- A call begins outside of every instance. -/
theorem Entered.uses_eq {c : CallPc} (h : Entered c) : c.creating = false ∧ c.uses = none := by
  cases h <;> exact ⟨rfl, rfl⟩

/-- A call is made. -/
theorem Owned.call (h : Owned m) (f : EntryPoint) : Owned { m with calls := m.calls ++ [f.entry] } := by
  refine h.of_calls (fun j c hj => ?_) (fun c hc _ => List.mem_append_left _ hc) rfl (.of_eq rfl)
  by_cases hlt : j < m.calls.length
  · exact .inl ((List.getElem?_append_left hlt).symm.trans hj)
  · right
    rw [List.getElem?_append_right (by omega)] at hj
    obtain rfl : c = f.entry := by simpa using List.mem_of_getElem? hj
    exact ⟨f.entered.uses_eq.1, by simp [f.entered.uses_eq.2]⟩

/-- A call begins to create an instance, or goes on to, while no other does: what it creates,
or is about to, is what is alive. -/
theorem owned_of_creating {i : ℕ} {p : CallPc} (hcalls : m'.calls = m.calls.set i p) (hg : m'.g_sched = none)
    (hother : ∀ (j : ℕ) (c : CallPc), j ≠ i → m.calls[j]? = some c → c.creating = false)
    (huses : ∀ c ∈ m.calls, c.uses = none)
    (hpc' : p.creating = true) (hmake : ∀ after, p = .make after → m'.Tracks none)
    (hassign : ∀ after k, p = .assign after k → m'.Tracks (some k)) (hi : i < m.calls.length) : Owned m' := by
  have hself : ∀ (j : ℕ) (c : CallPc), m'.calls[j]? = some c → c.creating = true → j = i ∧ c = p := by
    intro j c hj hc
    rw [hcalls] at hj
    rcases getElem?_set_cases hj with hj | ⟨hne, hj⟩
    · exact hj
    · rw [hother j c hne hj] at hc
      cases hc
  refine ⟨fun j k c d hj hk hc hd => ?_, fun j after hj => ?_, fun j after k hj => ?_, fun hnone => ?_,
    fun c hc k hk => ?_⟩
  · rw [(hself j c hj hc).1, (hself k d hk hd).1]
  · exact ⟨hg, hmake after (hself j _ hj rfl).2.symm⟩
  · exact ⟨hg, hassign after k (hself j _ hj rfl).2.symm⟩
  · have hpc := hnone p (by rw [hcalls]; exact List.mem_set hi p)
    rw [hpc'] at hpc
    cases hpc
  · rw [hcalls] at hc
    rcases List.mem_or_eq_of_mem_set hc with hc | rfl
    · rw [huses c hc] at hk
      cases hk
    · cases c <;> cases hk <;> cases hpc'

/-- The new instance is assigned to `g_sched`, and no call is creating any more. -/
theorem Owned.assigned (h : Owned m) {i k : ℕ} {after : After} (hi : m.calls[i]? = some (.assign after k)) :
    Owned { m.discard.setCall i (.call_start after) with g_sched := some k } := by
  obtain ⟨hg, ht⟩ := h.assigning i after k hi
  have hother : ∀ (j : ℕ) (c : CallPc), (m.calls.set i (.call_start after))[j]? = some c → c.creating = false := by
    intro j c hj
    rcases getElem?_set_cases hj with ⟨-, rfl⟩ | ⟨hji, hj⟩
    · rfl
    · by_contra hc
      exact hji (h.one j i c _ hj hi (by simpa using hc) rfl)
  rw [discard_eq hg]
  refine ⟨fun j l c d hj hl hc hd => ?_, fun j after' hj => ?_, fun j after' l hj => ?_, fun _ => ?_,
    fun c hc l hl => ?_⟩
  · rw [hother j c hj] at hc
    cases hc
  · cases hother j _ hj
  · cases hother j _ hj
  · exact ht.of_same (.of_eq rfl)
  · rcases List.mem_or_eq_of_mem_set hc with hc | rfl
    · rw [h.uses_none hg c hc] at hl
      cases hl
    · cases hl

/-- A call goes on. -/
theorem Owned.go (h : Owned m) {i : ℕ} {now : ℤ} {pc : CallPc} (ho : Orderly m (.go i now)) (hi : m.calls[i]? = some pc)
    (hstep : callNext m i now pc = some m') : Owned m' := by
  have hmem := List.mem_of_getElem? hi
  have hlt := (List.getElem?_eq_some_iff.mp hi).1
  have huses := h.uses pc hmem
  simp only [Orderly, Module.orderly, hi] at ho
  cases pc with
  | check job =>
    cases hstep
    by_cases hg : m.g_sched = none
    · have hnone : ∀ c ∈ m.calls, c.creating = false := by simpa [hg] using ho
      have ht := h.owned hnone
      rw [hg] at ht
      exact owned_of_creating (p := .make (.submit job)) (by simp [Module.setCall, hg]) hg
        (fun j c _ hj => hnone c (List.mem_of_getElem? hj)) (h.uses_none hg) rfl (fun _ _ => ht.of_same (.of_eq rfl))
        (by simp) hlt
    · exact h.move (p := .deref job) hi rfl rfl (by simp [Module.setCall, hg]) rfl (.of_eq rfl) (by simp [CallPc.uses])
  | deref job =>
    obtain ⟨k, hk⟩ := Option.ne_none_iff_exists'.mp (by simpa using ho)
    simp only [callNext, hk] at hstep
    cases hstep
    exact h.move hi rfl rfl rfl rfl (.of_eq rfl) (by simp [CallPc.uses, hk])
  | submit job k =>
    obtain ⟨inst, -, ⟨-, rfl⟩ | ⟨-, t, -, rfl⟩⟩ := callSubmit_cases hstep
    · exact h.move hi rfl rfl rfl rfl (.of_eq rfl) (by simp [CallPc.uses])
    · exact h.move hi rfl rfl rfl rfl (.of_setSched k t rfl) huses
  | submitting k c =>
    simp only [callNext] at hstep
    split at hstep
    · cases hstep
      exact h.move hi rfl rfl rfl rfl (.of_eq rfl) (by simp [CallPc.uses])
    · cases hstep
  | make after =>
    cases hstep
    obtain ⟨hg, ht⟩ := h.making i after hi
    refine owned_of_creating (p := .assign after m.instances.length) rfl hg (fun j c hji hj => ?_) (h.uses_none hg) rfl
      (by simp) (fun _ k hk => ?_) hlt
    · by_contra hc
      exact hji (h.one j i c _ hj hi (by simpa using hc) rfl)
    · obtain ⟨-, rfl⟩ := CallPc.assign.inj hk
      exact ht.create rfl rfl
  | assign after k =>
    cases hstep
    exact h.assigned hi
  | call_start after =>
    obtain ⟨hnull, rfl⟩ | ⟨k, hk, inst, -, ⟨-, rfl⟩ | ⟨-, t, -, rfl⟩⟩ := callStart_cases hstep
    · exact absurd hnull (by simpa using ho)
    · exact h.move hi rfl rfl rfl rfl (.of_eq rfl) (by simp [CallPc.uses])
    · exact h.move hi rfl rfl rfl rfl (.of_setSched k t rfl) (by simp [CallPc.uses, hk])
  | call_stop =>
    obtain ⟨hnull, rfl⟩ | ⟨k, -, inst, -, ⟨-, rfl⟩ | ⟨-, t, -, rfl⟩⟩ := callStop_cases hstep
    · exact absurd hnull (by simpa using ho)
    · exact h.move hi rfl rfl rfl rfl (.of_eq rfl) (by simp [CallPc.uses])
    · exact h.move hi rfl rfl rfl rfl (.of_setSched k t rfl) (by simp [CallPc.uses])
  | reset =>
    cases hstep
    have hnone : ∀ c ∈ m.calls, c.creating = false ∧ c.uses = none := by simpa using ho
    have ht := (h.owned fun c hc => (hnone c hc).1).discard
    exact owned_of_creating (p := .make .unlock) (by simp [Module.setCall]) rfl
      (fun j c _ hj => (hnone c (List.mem_of_getElem? hj)).1) (fun c hc => (hnone c hc).2) rfl
      (fun _ _ => ht.of_same (.of_eq rfl)) (by simp) hlt
  | set_running after =>
    cases hstep
    cases after <;> exact h.move hi rfl rfl rfl rfl (.of_eq rfl) (by simp [CallPc.uses, After.next])
  | check_start | check_stop =>
    cases hstep
    by_cases hr : m.g_running = true
    · exact h.move hi rfl (by simp [hr, CallPc.creating]) rfl rfl (.of_eq rfl) (by simp [hr, CallPc.uses])
    · exact h.move hi rfl (by simp [hr, CallPc.creating]) rfl rfl (.of_eq rfl) (by simp [hr, CallPc.uses])
  | starting after k | lock_start args | lock_stop | stopping k =>
    simp only [callNext] at hstep
    split_ifs at hstep
    cases hstep
    exact h.move hi rfl rfl rfl rfl (.of_eq rfl) (by simp [CallPc.uses])
  | set_opts args | clear_running | unlock =>
    cases hstep
    exact h.move hi rfl rfl rfl rfl (.of_eq rfl) (by simp [CallPc.uses])
  | returned | done | raised | undefined => cases hstep

theorem owned (h : Reachable python Orderly m) : Owned m := by
  refine h.invariant (I := Owned) ?_ fun {m a m'} _ hs hstep ho => ?_
  · rintro _ rfl
    exact ⟨by simp, by simp, by simp, fun _ => ⟨by simp, by simp⟩, by simp⟩
  · have hstep : ModuleStep m a m' := hstep
    cases hstep with
    | call f => exact hs.call f
    | go _ hi hnext => exact hs.go ho hi hnext
    | sched =>
      exact hs.of_calls (fun _ _ hj => .inl hj) (fun _ hc _ => hc) rfl (.of_setSched _ _ rfl)

/-- **The global scheduler is safe** in every run in which the calls do not meet: there is never
more than one scheduler, and every job is submitted to the one `g_sched` points to, which has
not been destroyed. -/
theorem global_scheduler_safe (h : Reachable python Orderly m) : Safe m := by
  have hs := owned h
  have hlive : ∃ g, m.Tracks g := by
    by_cases hc : ∀ c ∈ m.calls, c.creating = false
    · exact ⟨_, hs.owned hc⟩
    · obtain ⟨c, hmem, hc⟩ : ∃ c ∈ m.calls, c.creating = true := by simpa using hc
      obtain ⟨i, hi⟩ := List.mem_iff_getElem?.mp hmem
      cases c with
      | make after => exact ⟨_, (hs.making i after hi).2⟩
      | assign after k => exact ⟨_, (hs.assigning i after k hi).2⟩
      | _ => cases hc
  obtain ⟨g, hg⟩ := hlive
  refine ⟨hg.live_le, fun c hc k hk => ?_⟩
  have huse : m.g_sched = some k := hs.uses c hc k (by cases c <;> first | exact hk | cases hk)
  have ht := hs.owned fun d hd => by
    by_contra hcreating
    obtain ⟨i, hi⟩ := List.mem_iff_getElem?.mp hd
    have hnull : m.g_sched = none := by
      cases d with
      | make after => exact (hs.making i after hi).1
      | assign after k => exact (hs.assigning i after k hi).1
      | _ => exact absurd rfl hcreating
    rw [hnull] at huse
    cases huse
  have hlt := ht.lt k huse
  exact ⟨huse, _, List.getElem?_eq_getElem hlt, (ht.alive k _ (List.getElem?_eq_getElem hlt)).mpr huse⟩

/-- A second `submit_job` finds the scheduler that the first is about to start, and submits its job while it is being
started; and `Scheduler.start` finds it running. -/
theorem global_scheduler_safe_interleaved :
    ∃ m, m.calls = [.submitting 0 1, .submitting 0 0, .unlock] ∧ m.g_sched = some 0 ∧ Safe m := by
  obtain ⟨m, hr, hm⟩ := exists_module_of_follow Orderly
    [.call oneJob, .call (.submit_job 2 3 4 5 1), .go 0 0, .go 0 0, .go 0 0, .go 1 0, .go 0 0, .go 1 0,
     .call (.start 8 1 "tiled"), .go 2 0, .go 1 0, .sched 0 (.client 0), .sched 0 (.probe false 0), .sched 0 .spawn,
     .sched 0 .spawn, .go 2 0, .sched 0 .spawn, .go 0 0, .go 0 0, .go 2 0, .go 0 0, .go 0 0]
    (fun m => m.calls = [.submitting 0 1, .submitting 0 0, .unlock] && m.g_sched = some 0) (by decide)
  simp only [Bool.and_eq_true, decide_eq_true_eq] at hm
  exact ⟨m, hm.1, hm.2, global_scheduler_safe hr⟩

end Gbis.Bindings
