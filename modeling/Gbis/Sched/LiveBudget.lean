import Gbis.Sched.Budget

/-!
# The live budget

Without a fixed budget the dispatcher samples the free memory of the device, and subtracts
the margin and `reserved_bytes_`. On a device that nobody else uses (`SoleTenant`) the free
memory is what the workers do not hold, and what they hold stays reserved until their batch
is done: so a byte is subtracted once while it is reserved only, and twice while a worker
holds it (`held_bytes_subtracted_twice`). The live budget is never more than the fixed one
would be, and equals it when no worker holds anything (`live_budget`).
-/

namespace Gbis.Sched

open Gbis.Core Library

variable {o : Options} {s t : State} {a : Action} {T : UInt64} {cap : ℕ}

/-! ### A call of `budget_bytes()` -/

/-- `budget_bytes()`, if `free_mem_bytes` is what `monitor_.sample()` finds. The dispatcher makes the call in two
steps: the sample, and the subtraction under `budget_mutex_`. -/
def budget_bytes (o : Options) (free_mem_bytes : UInt64) (reserved : ℕ) : ℕ :=
  if o.fixed_budget_bytes > 0 then
    if o.fixed_budget_bytes.toNat > reserved then o.fixed_budget_bytes.toNat - reserved else 0
  else if free_mem_bytes ≤ o.safety_margin_bytes then 0
  else
    let base := (free_mem_bytes - o.safety_margin_bytes).toNat
    if base > reserved then base - reserved else 0

/-! ### The only tenant -/

/-- The free memory of a device of `T` bytes, if only the workers use it. -/
def State.free_mem_bytes (s : State) (T : UInt64) : UInt64 := UInt64.ofNat (T.toNat - s.deviceHeld)

/-- A sample finds that. -/
def State.samplesFree (s : State) (T : UInt64) : Action → Bool
  | .sample free => free = s.free_mem_bytes T
  | _ => true

/-- The scheduler is the only tenant of a device of `T` bytes. -/
def SoleTenant (T : UInt64) (s : State) (a : Action) : Prop := s.samplesFree T a = true

instance (s : State) (a : Action) : Decidable (SoleTenant T s a) := inferInstanceAs (Decidable (_ = _))

/-- `budget_bytes()`, called by the only tenant. -/
def State.budget (s : State) (o : Options) (T : UInt64) : ℕ := budget_bytes o (s.free_mem_bytes T) s.reserved_bytes_

/-- The options with what the device has, less the margin, for a fixed budget. -/
def Options.fixedTo (o : Options) (T : UInt64) : Options :=
  { o with fixed_budget_bytes := if o.safety_margin_bytes < T then T - o.safety_margin_bytes else 0 }

theorem State.free_mem_bytes_toNat (s : State) (T : UInt64) : (s.free_mem_bytes T).toNat = T.toNat - s.deviceHeld := by
  have hlt := T.toNat_lt
  simp only [State.free_mem_bytes, UInt64.toNat_ofNat']
  omega

theorem State.live_budget_eq (s : State) (h₀ : o.fixed_budget_bytes = 0) :
    s.budget o T = T.toNat - s.deviceHeld - o.safety_margin_bytes.toNat - s.reserved_bytes_ := by
  have hfree := s.free_mem_bytes_toNat T
  simp only [State.budget, budget_bytes, h₀, UInt64.lt_irrefl, if_false, gt_iff_lt, UInt64.le_iff_toNat_le]
  split_ifs with hle hlt
  · omega
  · rw [UInt64.toNat_sub_of_le _ _ (by rw [UInt64.le_iff_toNat_le]; omega)] at hlt ⊢
    omega
  · rw [UInt64.toNat_sub_of_le _ _ (by rw [UInt64.le_iff_toNat_le]; omega)] at hlt
    omega

theorem State.fixed_budget_eq (s : State) :
    s.budget (o.fixedTo T) T = T.toNat - o.safety_margin_bytes.toNat - s.reserved_bytes_ := by
  by_cases hlt : o.safety_margin_bytes < T
  · have hlt' : o.safety_margin_bytes.toNat < T.toNat := UInt64.lt_iff_toNat_lt.mp hlt
    have hsub : (T - o.safety_margin_bytes).toNat = T.toNat - o.safety_margin_bytes.toNat :=
      UInt64.toNat_sub_of_le _ _ (by rw [UInt64.le_iff_toNat_le]; omega)
    have hpos : (0 : UInt64) < T - o.safety_margin_bytes := by
      rw [UInt64.lt_iff_toNat_lt, hsub]
      exact Nat.sub_pos_of_lt hlt'
    simp only [State.budget, budget_bytes, Options.fixedTo, if_pos hlt, gt_iff_lt, if_pos hpos, hsub]
    split_ifs <;> omega
  · have hle : T.toNat ≤ o.safety_margin_bytes.toNat := by
      rw [UInt64.lt_iff_toNat_lt] at hlt
      omega
    rw [State.live_budget_eq s (by simp [Options.fixedTo, hlt])]
    simp only [Options.fixedTo]
    omega

/-! ### What is reserved -/

/-- The reservations, and what the dispatcher may add to them, are within `cap`. -/
structure WithinCap (cap : ℕ) (s : State) : Prop where
  within : s.reserved_bytes_ + s.dispatcher.claim ≤ cap
  based : ∀ candidates base, s.dispatcher = .based candidates base → base ≤ cap

/-- A step that reserves nothing, and wakes the dispatcher at most. -/
theorem WithinCap.of_woken (hs : WithinCap cap s) (hr : t.reserved_bytes_ ≤ s.reserved_bytes_)
    (hd : Woken s.dispatcher t.dispatcher) : WithinCap cap t := by
  have hw := hs.within
  refine ⟨?_, fun candidates base hb => hs.based candidates base (hd.based hb)⟩
  rw [hd.claim]
  omega

theorem DispatcherStep.withinCap (h : DispatcherStep o s a t)
    (hbase : ∀ candidates base, t.dispatcher = .based candidates base → base ≤ cap) (hs : WithinCap cap s) :
    WithinCap cap t := by
  refine ⟨?_, hbase⟩
  have hw := hs.within
  cases h with
  | @budget candidates base hd =>
    have hle := hs.based candidates base hd
    simp only [DispatcherPc.claim]
    split_ifs <;> omega
  | @pack candidates budget hd =>
    have hsel : batchBytes (pack_jobs s.clock candidates budget o.max_batch).selected ≤ budget := batchBytes_selected_le
    simp only [hd, DispatcherPc.claim] at hw ⊢
    omega
  | @reserve selected hd =>
    have hadd : addSize s.reserved_bytes_ (batchBytes selected) ≤ s.reserved_bytes_ + batchBytes selected :=
      Nat.mod_le _ _
    simp only [hd, DispatcherPc.claim] at hw
    simp only [State.reserve_bytes, DispatcherPc.claim]
    omega
  | requeue hd =>
    rw [hd] at hw
    exact hw
  | _ =>
    simp only [DispatcherPc.claim]
    exact (Nat.le_add_right _ _).trans hw

theorem State.effect_reserved_le (s : State) (c : Call) : (s.effect c).reserved_bytes_ ≤ s.reserved_bytes_ := by
  cases c with
  | release_bytes bytes =>
    simp only [State.effect, State.release_bytes]
    split_ifs <;> omega
  | _ => exact le_refl _

theorem Step.withinCap (h : Step o s a t)
    (hbase : DispatcherStep o s a t → ∀ candidates base, t.dispatcher = .based candidates base → base ≤ cap)
    (hs : WithinCap cap s) : WithinCap cap t := by
  cases h with
  | client _ h =>
    have hr : t.reserved_bytes_ = s.reserved_bytes_ := by cases h <;> rfl
    exact hs.of_woken hr.le h.woken
  | control _ h =>
    have hr : t.reserved_bytes_ = s.reserved_bytes_ := by cases h <;> rfl
    rcases h.woken with hw | ⟨-, -, hd⟩
    · exact hs.of_woken hr.le hw
    · -- a new dispatcher claims nothing
      refine ⟨?_, by simp [hd]⟩
      rw [hd, hr]
      exact (Nat.le_add_right _ _).trans hs.within
  | dispatcher _ h => exact h.withinCap (hbase h) hs
  | worker _ h =>
    have hr : t.reserved_bytes_ ≤ s.reserved_bytes_ := by
      cases h with
      | call => exact s.effect_reserved_le _
      | _ => exact le_refl _
    exact hs.of_woken hr h.woken

/-- On a device of its own the live scheduler reserves no more than the device has, less the margin. -/
theorem withinCap (h₀ : o.fixed_budget_bytes = 0) (h : Reachable (scheduler o) (SoleTenant T) s) :
    WithinCap (T.toNat - o.safety_margin_bytes.toNat) s := by
  refine h.invariant (I := WithinCap _) ?_ fun {s a t} _ hs hstep ha =>
    Step.withinCap hstep (fun hd candidates base hb => ?_) hs
  · rintro _ ⟨t, rfl⟩
    exact ⟨Nat.zero_le _, by simp⟩
  · cases hd with
    | fixed _ hf => simp [h₀] at hf
    | free free _ _ hle =>
      have hfree : free = s.free_mem_bytes T := by simpa [SoleTenant, State.samplesFree] using ha
      cases hb
      rw [UInt64.le_iff_toNat_le, hfree, s.free_mem_bytes_toNat] at hle
      rw [UInt64.toNat_sub_of_le _ _ (by rw [UInt64.le_iff_toNat_le, hfree, s.free_mem_bytes_toNat]; omega), hfree,
        s.free_mem_bytes_toNat]
      omega
    | _ => cases hb

/-- **The live budget** of the only tenant, in every state reached: what the device has, less
the margin, less what the workers hold, less what is reserved. So it agrees with a fixed
budget of what the device has, less the margin, if no worker holds device memory, or if that
is used up; and what is reserved is within that. -/
theorem live_budget (h₀ : o.fixed_budget_bytes = 0) (h : Reachable (scheduler o) (SoleTenant T) s) :
    (s.budget o T : ℤ) = max 0 (T.toNat - o.safety_margin_bytes.toNat - s.deviceHeld - s.reserved_bytes_) ∧
      (s.budget (o.fixedTo T) T : ℤ) = max 0 (T.toNat - o.safety_margin_bytes.toNat - s.reserved_bytes_) ∧
      (s.budget o T = s.budget (o.fixedTo T) T ↔ s.deviceHeld = 0 ∨ s.budget (o.fixedTo T) T = 0) ∧
      s.reserved_bytes_ ≤ T.toNat - o.safety_margin_bytes.toNat := by
  have hlive := s.live_budget_eq (T := T) h₀
  have hfixed := s.fixed_budget_eq (o := o) (T := T)
  have hwithin := (withinCap h₀ h).within
  refine ⟨by omega, by omega, by omega, by omega⟩

/-- A worker allocates for a job of 12 bytes; the device has 1 GiB, all of it free when sampled. -/
def sampledTrace : List Action :=
  [.start, .probe false 1073741824, .spawn, .spawn, .submit { m := 1, n := 1, k := 1 }, .client 0, .dispatcher,
   .dispatcher, .dispatcher, .sample 1073741824, .dispatcher, .dispatcher, .dispatcher, .dispatcher, .dispatcher,
   .notify_worker none, .worker 0, .answer 0 .notify_batch_space (), .answer 0 .cudaStreamCreateWithFlags (.ok 1),
   .answer 0 .cudaStreamCreate (.ok 2), .answer 0 .cudaStreamCreateWithFlags (.ok 3),
     .answer 0 .cudaEventCreate (.ok 1),
   .answer 0 .cudaEventCreate (.ok 2), .answer 0 .cudaEventCreate (.ok 3), .answer 0 (.cudaMalloc 4) (.ok 1),
   .answer 0 (.cudaMalloc 4) (.ok 2)]

/-- What a worker holds is subtracted twice: 12 bytes are reserved, and the budget is 20 bytes
less than the device has, less the margin. -/
theorem held_bytes_subtracted_twice :
    ∃ s, Reachable (scheduler { num_workers := 1 }) (SoleTenant 1073741824) s ∧ s.deviceHeld = 8 ∧
      s.reserved_bytes_ = 12 ∧
      s.budget { num_workers := 1 } 1073741824 = 1073741824 - 268435456 - 20 ∧
      s.budget (Options.fixedTo { num_workers := 1 } 1073741824) 1073741824 = 1073741824 - 268435456 - 12 := by
  obtain ⟨s, hr, hp⟩ := exists_of_follow { num_workers := 1 } (SoleTenant 1073741824) 1 sampledTrace
    (fun s => s.deviceHeld = 8 && s.reserved_bytes_ = 12) (by decide +kernel)
  simp only [Bool.and_eq_true, decide_eq_true_eq] at hp
  refine ⟨s, hr, hp.1, hp.2, ?_, ?_⟩
  · rw [s.live_budget_eq rfl, hp.1, hp.2]
    rfl
  · rw [s.fixed_budget_eq, hp.2]
    rfl

/-- The run of `sampledTrace`. -/
theorem live_budget_sampled : ∃ s : State, s.deviceHeld = 8 ∧
    (s.budget { num_workers := 1 } 1073741824 : ℤ) = max 0
      (1073741824 - 268435456 - s.deviceHeld - s.reserved_bytes_) := by
  obtain ⟨s, hr, hp⟩ := exists_of_follow { num_workers := 1 } (SoleTenant 1073741824) 1 sampledTrace
    (fun s => s.deviceHeld = 8) (by decide +kernel)
  exact ⟨s, by simpa using hp, (live_budget rfl hr).1⟩

end Gbis.Sched
