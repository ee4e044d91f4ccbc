import Gbis.Library.HostProgram
import Mathlib.Tactic.Common

/-!
# The GPU monitor and NVML

`GpuMonitor` of `src/src/sched/gpu_monitor.cpp` as a user of two libraries. NVML is loaded at
run time, so that there may be none of it, or one without some of the functions: the constructor
looks for the library and five functions, initializes it and asks for the first device, and if
that fails anywhere asks the CUDA runtime whether there is a GPU at all. `sample` reads the
memory and the utilization from NVML if the constructor was through with it, and the memory from
the CUDA runtime otherwise. The destructor of `Impl` shuts NVML down and unloads it.

Calling a function that has not been found is calling a null pointer, and so is anything after
the library has been unloaded: `nvml` says what each call requires. The constructor makes its
calls as required and leaves the monitor and the library in agreement (`GpuMonitor_wp`); while
they agree `sample` makes its calls as required and leaves the library as it is (`sample_within`),
and the destructor leaves NVML shut down and unloaded (`destroy_wp`).
-/

namespace Gbis.Monitor

open Library

/-! ### The libraries -/

/-- The functions of NVML that are looked up. -/
inductive Symbol where
  | nvmlInit
  | nvmlShutdown
  | nvmlDeviceGetHandleByIndex
  | nvmlDeviceGetMemoryInfo
  | nvmlDeviceGetUtilizationRates
  deriving DecidableEq

/-- `NvmlMemory`. -/
structure NvmlMemory where
  total : UInt64
  free : UInt64
  used : UInt64

/-- `NvmlUtilization`. -/
structure NvmlUtilization where
  gpu : UInt32
  memory : UInt32

/-- A call. Functions of NVML are called through the pointers that `dlsym` has returned. -/
inductive Call where
  /-- `dlopen("libnvidia-ml.so.1", RTLD_NOW | RTLD_LOCAL)`. -/
  | dlopen
  | dlsym (handle : ℕ) (symbol : Symbol)
  | dlclose (handle : ℕ)
  | nvmlInit
  | nvmlShutdown
  | nvmlDeviceGetHandleByIndex (index : ℕ)
  | nvmlDeviceGetMemoryInfo (device : ℕ)
  | nvmlDeviceGetUtilizationRates (device : ℕ)
  | cudaMemGetInfo
  deriving DecidableEq

/-- What a call answers: a handle or a null pointer, whether a symbol has been found, and a status
that is not `0` or what has been asked for. A device may be a null pointer. -/
@[reducible] def Call.Ret : Call → Type
  | .dlopen => Option ℕ
  | .dlsym .. => Bool
  | .dlclose _ => Unit
  | .nvmlInit => Except Int32 Unit
  | .nvmlShutdown => Unit
  | .nvmlDeviceGetHandleByIndex _ => Except Int32 (Option ℕ)
  | .nvmlDeviceGetMemoryInfo _ => Except Int32 NvmlMemory
  | .nvmlDeviceGetUtilizationRates _ => Except Int32 NvmlUtilization
  | .cudaMemGetInfo => Except Int32 (UInt64 × UInt64)

/-- NVML, as the process has it. -/
structure Nvml where
  /-- The handle of the library, while it is loaded. -/
  handle : Option ℕ := none
  /-- The functions that have been found. -/
  found : Symbol → Bool := fun _ => false
  /-- It has been initialized, and not shut down since. -/
  initialized : Bool := false
  /-- The device it has given out. -/
  device : Option ℕ := none
  /-- How often `nvmlShutdown` has been called. -/
  shutdowns : ℕ := 0

/-- The library is loaded, and the function has been found in it. -/
def Nvml.Has (n : Nvml) (symbol : Symbol) : Prop := n.handle ≠ none ∧ n.found symbol = true

/-- What a call requires. -/
def Nvml.pre : Call → Nvml → Prop
  | .dlopen, n => n.handle = none
  | .dlsym handle _, n => n.handle = some handle
  | .dlclose handle, n => n.handle = some handle ∧ n.initialized = false
  | .nvmlInit, n => n.Has .nvmlInit
  | .nvmlShutdown, n => n.Has .nvmlShutdown ∧ n.shutdowns = 0
  | .nvmlDeviceGetHandleByIndex _, n => n.Has .nvmlDeviceGetHandleByIndex ∧ n.initialized = true
  | .nvmlDeviceGetMemoryInfo device, n =>
    n.Has .nvmlDeviceGetMemoryInfo ∧ n.initialized = true ∧ n.device = some device
  | .nvmlDeviceGetUtilizationRates device, n =>
    n.Has .nvmlDeviceGetUtilizationRates ∧ n.initialized = true ∧ n.device = some device
  | .cudaMemGetInfo, _ => True

/-- What a call does. -/
def Nvml.apply (n : Nvml) : (c : Call) → c.Ret → Nvml
  | .dlopen, handle => { n with handle }
  | .dlsym _ symbol, found => { n with found := fun s => if s = symbol then found else n.found s }
  | .dlclose _, _ => { n with handle := none }
  | .nvmlInit, .ok _ => { n with initialized := true }
  | .nvmlShutdown, _ => { n with initialized := false, device := none, shutdowns := n.shutdowns + 1 }
  | .nvmlDeviceGetHandleByIndex _, .ok device => { n with device }
  | _, _ => n

/-- The world of NVML: any answer is possible. -/
def nvml : World Call Call.Ret Nvml := .ofFun Nvml.pre Nvml.apply

/-! ### The monitor -/

/-- `GpuMonitor::Impl`; the function pointers by whether they are null. -/
structure Impl where
  handle : Option ℕ := none
  init : Bool := false
  shutdown : Bool := false
  device_get_handle_by_index : Bool := false
  device_get_memory_info : Bool := false
  device_get_utilization_rates : Bool := false
  device : Option ℕ := none

/-- What the constructor of `GpuMonitor` sets, and nothing changes afterwards. -/
structure Fields where
  impl_ : Impl := {}
  nvml_available_ : Bool := false
  gpu_present_ : Bool := false

/-- `GpuStats`. -/
structure GpuStats where
  total_mem_bytes : UInt64 := 0
  free_mem_bytes : UInt64 := 0
  utilization_pct : UInt32 := 0

/-- A function with these local variables. Nothing throws. -/
abbrev HostM (L α : Type) : Type := Host Call Call.Ret L Empty α

/-- Make a call. -/
abbrev call {L : Type} (c : Call) : HostM L c.Ret := Host.call c

/-- `impl_->f = dlsym(impl_->handle, symbol);` -/
def look_up (handle : ℕ) (symbol : Symbol) (set : Impl → Bool → Impl) : HostM Fields Unit := do
  let found ← call (.dlsym handle symbol)
  Host.assign fun m => { m with impl_ := set m.impl_ found }

/-- All five functions have been found. -/
def Impl.complete (i : Impl) : Bool :=
  i.init && i.shutdown && i.device_get_handle_by_index && i.device_get_memory_info && i.device_get_utilization_rates

/-- `impl_->init() == 0 && impl_->device_get_handle_by_index(0, &impl_->device) == 0`, and what follows
if so. -/
def initialize_nvml : HostM Fields Unit := do
  let status ← call .nvmlInit
  match status with
  | .error _ => pure ()
  | .ok _ => do
    let device ← call (.nvmlDeviceGetHandleByIndex 0)
    match device with
    | .error _ => pure ()
    | .ok device =>
      Host.assign fun m =>
        { m with impl_ := { m.impl_ with device }, nvml_available_ := true, gpu_present_ := true }

/-- The five look-ups, and the initialization if they succeed. -/
def load_nvml (handle : ℕ) : HostM Fields Unit := do
  look_up handle .nvmlInit fun i f => { i with init := f }
  look_up handle .nvmlShutdown fun i f => { i with shutdown := f }
  look_up handle .nvmlDeviceGetHandleByIndex fun i f => { i with device_get_handle_by_index := f }
  look_up handle .nvmlDeviceGetMemoryInfo fun i f => { i with device_get_memory_info := f }
  look_up handle .nvmlDeviceGetUtilizationRates fun i f => { i with device_get_utilization_rates := f }
  let m ← Host.locals
  if m.impl_.complete then initialize_nvml else pure ()

/-- `if (!gpu_present_)`: ask the CUDA runtime. -/
def fall_back : HostM Fields Unit := do
  let m ← Host.locals
  if m.gpu_present_ then pure ()
  else do
    let info ← call .cudaMemGetInfo
    match info with
    | .error _ => pure ()
    | .ok _ => Host.assign fun m => { m with gpu_present_ := true }

/-- The constructor. -/
def GpuMonitor : HostM Fields Unit := do
  let handle ← call .dlopen
  Host.assign fun m => { m with impl_ := { m.impl_ with handle } }
  match handle with
  | some handle => load_nvml handle
  | none => pure ()
  fall_back

/-- `sample()`: the local variable is `stats`. -/
def sample (m : Fields) : HostM GpuStats Unit := do
  match m.nvml_available_, m.impl_.device with
  | true, some device => do
    let mem ← call (.nvmlDeviceGetMemoryInfo device)
    match mem with
    | .ok mem => Host.assign fun s => { s with total_mem_bytes := mem.total, free_mem_bytes := mem.free }
    | .error _ => pure ()
    let util ← call (.nvmlDeviceGetUtilizationRates device)
    match util with
    | .ok util => Host.assign fun s => { s with utilization_pct := util.gpu }
    | .error _ => pure ()
  | _, _ => do
    let info ← call .cudaMemGetInfo
    match info with
    | .ok (free_bytes, total_bytes) =>
      Host.assign fun s => { s with total_mem_bytes := total_bytes, free_mem_bytes := free_bytes }
    | .error _ => pure ()

/-- `~Impl()`. -/
def Impl.destroy (i : Impl) : HostM Fields Unit := do
  match i.handle with
  | some handle => do
    if i.shutdown then call .nvmlShutdown else pure ()
    call (.dlclose handle)
  | none => pure ()

/-! ### The calls are made as required -/

/-- The pointer to a function. -/
def Impl.pointer (i : Impl) : Symbol → Bool
  | .nvmlInit => i.init
  | .nvmlShutdown => i.shutdown
  | .nvmlDeviceGetHandleByIndex => i.device_get_handle_by_index
  | .nvmlDeviceGetMemoryInfo => i.device_get_memory_info
  | .nvmlDeviceGetUtilizationRates => i.device_get_utilization_rates

theorem Impl.pointer_of_complete {i : Impl} (h : i.complete = true) (symbol : Symbol) : i.pointer symbol = true := by
  simp only [Impl.complete, Bool.and_eq_true] at h
  cases symbol <;> simp [Impl.pointer, h]

/-- The monitor has the library's handle, and pointers only to what has been found in it. -/
structure Points (i : Impl) (n : Nvml) : Prop where
  handle : n.handle = i.handle
  found : ∀ symbol, i.pointer symbol = true → n.found symbol = true
  shutdowns : n.shutdowns = 0

/-- The monitor and NVML agree: NVML is available only when it has been initialized and has given out
the device, and it has been initialized only if it can be shut down. -/
structure Agree (m : Fields) (n : Nvml) : Prop extends Points m.impl_ n where
  initialized : n.initialized = true → m.impl_.handle ≠ none ∧ m.impl_.shutdown = true
  available : m.nvml_available_ = true → m.impl_.handle ≠ none ∧ n.initialized = true ∧ n.device = m.impl_.device ∧
    m.impl_.complete = true

/-- Nothing has been initialized. -/
structure Cold (m : Fields) (n : Nvml) : Prop extends Points m.impl_ n where
  initialized : n.initialized = false
  available : m.nvml_available_ = false

theorem Cold.agree {m : Fields} {n : Nvml} (h : Cold m n) : Agree m n :=
  ⟨h.toPoints, by simp [h.initialized], by simp [h.available]⟩

variable {m : Fields} {n : Nvml} {handle : ℕ}

/-- A setter of one function pointer. -/
def Sets (symbol : Symbol) (set : Impl → Bool → Impl) : Prop :=
  ∀ i f, (set i f).handle = i.handle ∧ ∀ s, (set i f).pointer s = if s = symbol then f else i.pointer s

/-- A look-up, and what follows. -/
theorem look_up_then {symbol : Symbol} {set : Impl → Bool → Impl} {rest : HostM Fields Unit} {Q : Fields → Nvml → Prop}
    (hset : Sets symbol set) (hh : m.impl_.handle = some handle) (h : Cold m n)
    (hrest : ∀ m n, m.impl_.handle = some handle → Cold m n →
      rest.wp nvml (fun _ => Q) (fun _ _ _ => False) m n) :
    (look_up handle symbol set >>= fun _ => rest).wp nvml (fun _ => Q) (fun _ _ _ => False) m n := by
  unfold look_up
  rw [Host.wp_bind, Host.wp_bind, Host.wp_call]
  refine ⟨h.handle.trans hh, ?_⟩
  rintro found _ rfl
  obtain ⟨hhandle, hpointer⟩ := hset m.impl_ found
  refine hrest _ _ (hhandle.trans hh) ⟨⟨h.handle.trans hhandle.symm, fun s hs => ?_, h.shutdowns⟩, h.initialized,
    h.available⟩
  rw [hpointer s] at hs
  by_cases hsym : s = symbol
  · simpa [Nvml.apply, hsym] using hs
  · simpa [Nvml.apply, hsym] using h.found s (by simpa [hsym] using hs)

theorem initialize_nvml_wp (hh : m.impl_.handle = some handle) (hc : m.impl_.complete = true) (h : Cold m n) :
    initialize_nvml.wp nvml (fun _ => Agree) (fun _ _ _ => False) m n := by
  have hhandle : n.handle ≠ none := by simp [h.handle, hh]
  have hfound : ∀ symbol, n.found symbol = true := fun symbol => h.found symbol (Impl.pointer_of_complete hc symbol)
  have hshutdown : m.impl_.shutdown = true := Impl.pointer_of_complete hc .nvmlShutdown
  unfold initialize_nvml
  rw [Host.wp_bind, Host.wp_call]
  refine ⟨⟨hhandle, hfound _⟩, ?_⟩
  rintro (status | ⟨⟩) _ rfl
  · exact h.agree
  · dsimp only
    rw [Host.wp_bind, Host.wp_call]
    refine ⟨⟨⟨hhandle, hfound _⟩, rfl⟩, ?_⟩
    rintro (status | device) _ rfl
    · exact ⟨⟨h.handle, h.found, h.shutdowns⟩, fun _ => ⟨by simp [hh], hshutdown⟩, by simp [h.available]⟩
    · exact ⟨⟨h.handle, h.found, h.shutdowns⟩, fun _ => ⟨by simp [hh], hshutdown⟩,
        fun _ => ⟨by simp [hh], rfl, rfl, hc⟩⟩

theorem load_nvml_wp (hh : m.impl_.handle = some handle) (h : Cold m n) :
    (load_nvml handle).wp nvml (fun _ => Agree) (fun _ _ _ => False) m n := by
  unfold load_nvml
  refine look_up_then (fun _ _ => ⟨rfl, fun s => by cases s <;> rfl⟩) hh h fun m n hh h => ?_
  refine look_up_then (fun _ _ => ⟨rfl, fun s => by cases s <;> rfl⟩) hh h fun m n hh h => ?_
  refine look_up_then (fun _ _ => ⟨rfl, fun s => by cases s <;> rfl⟩) hh h fun m n hh h => ?_
  refine look_up_then (fun _ _ => ⟨rfl, fun s => by cases s <;> rfl⟩) hh h fun m n hh h => ?_
  refine look_up_then (fun _ _ => ⟨rfl, fun s => by cases s <;> rfl⟩) hh h fun m n hh h => ?_
  rw [Host.wp_bind, Host.wp_locals]
  split_ifs with hc
  · exact initialize_nvml_wp hh hc h
  · exact h.agree

theorem fall_back_wp (h : Agree m n) : fall_back.wp nvml (fun _ => Agree) (fun _ _ _ => False) m n := by
  unfold fall_back
  rw [Host.wp_bind, Host.wp_locals]
  split_ifs
  · exact h
  · rw [Host.wp_bind, Host.wp_call]
    refine ⟨trivial, ?_⟩
    rintro (status | info) _ rfl
    · exact h
    · exact ⟨h.toPoints, h.initialized, h.available⟩

/-- **The constructor** makes its calls as required, and leaves the monitor and NVML in agreement. -/
theorem GpuMonitor_wp : GpuMonitor.wp nvml (fun _ => Agree) (fun _ _ _ => False) {} {} := by
  unfold GpuMonitor
  rw [Host.wp_bind, Host.wp_call]
  refine ⟨rfl, ?_⟩
  rintro handle _ rfl
  rw [Host.wp_bind, Host.wp_assign]
  have hcold : Cold { impl_ := { handle } } { handle } :=
    ⟨⟨rfl, fun s hs => by cases s <;> simp [Impl.pointer] at hs, rfl⟩, rfl, rfl⟩
  cases handle with
  | none => exact fall_back_wp hcold.agree
  | some handle => exact Host.wp_seq (load_nvml_wp rfl hcold) (fun _ _ _ h => fall_back_wp h) fun _ _ _ h => h

/-- A call that may be made, and that leaves NVML as it is. -/
def Nvml.Asks (n : Nvml) (c : Call) : Prop := Nvml.pre c n ∧ ∀ r, n.apply c r = n

/-- **`sample()`** makes such calls only. -/
theorem sample_within (h : Agree m n) : (sample m).Within n.Asks fun _ => () := by
  unfold sample
  split
  · rename_i device hav hdev
    obtain ⟨hhandle, hinit, hdevice, hc⟩ := h.available hav
    have hhas : ∀ symbol, n.Has symbol := fun symbol =>
      ⟨h.handle ▸ hhandle, h.found symbol (Impl.pointer_of_complete hc symbol)⟩
    -- whether or not the memory has been read, the utilization is read next
    have hrest : ((call (.nvmlDeviceGetUtilizationRates device) : HostM GpuStats _) >>= fun util =>
        match util with
        | .ok util => Host.assign fun s => { s with utilization_pct := util.gpu }
        | .error _ => pure ()).Within n.Asks fun _ => () :=
      Host.within_bind (Host.within_call ⟨⟨hhas _, hinit, hdevice.trans hdev⟩, fun _ => rfl⟩) fun util =>
        match util with
        | .ok _ => Host.within_assign fun _ => rfl
        | .error _ => Host.within_pure _
    refine Host.within_bind (Host.within_call ⟨⟨hhas _, hinit, hdevice.trans hdev⟩, fun _ => rfl⟩) fun mem => ?_
    cases mem with
    | ok mem => exact Host.within_bind (Host.within_assign fun _ => rfl) fun _ => hrest
    | error status => exact hrest
  · refine Host.within_bind (Host.within_call ⟨trivial, fun _ => rfl⟩) fun info => ?_
    cases info with
    | ok info => exact Host.within_assign fun _ => rfl
    | error status => exact Host.within_pure _

/-- **The destructor** shuts NVML down, if it can, and unloads it. -/
theorem destroy_wp (h : Agree m n) :
    m.impl_.destroy.wp nvml (fun _ _ n' => n'.handle = none ∧ n'.initialized = false ∧ n'.shutdowns ≤ 1)
      (fun _ _ _ => False) m n := by
  unfold Impl.destroy
  split
  · rename_i handle hh
    dsimp only
    split_ifs with hshutdown
    · rw [Host.wp_bind, Host.wp_call]
      refine ⟨⟨⟨by simp [h.handle, hh], h.found .nvmlShutdown hshutdown⟩, h.shutdowns⟩, ?_⟩
      rintro _ _ rfl
      rw [Host.wp_call]
      refine ⟨⟨h.handle.trans hh, rfl⟩, ?_⟩
      rintro _ _ rfl
      exact ⟨rfl, rfl, by simp [Nvml.apply, h.shutdowns]⟩
    · -- without the function to shut it down it has not been initialized
      have hinit : n.initialized = false := by
        by_contra hne
        exact hshutdown (h.initialized (by simpa using hne)).2
      refine ⟨⟨h.handle.trans hh, hinit⟩, ?_⟩
      rintro _ _ rfl
      exact ⟨rfl, hinit, by simp [Nvml.apply, h.shutdowns]⟩
  · rename_i hh
    refine ⟨h.handle.trans hh, ?_, by simp [h.shutdowns]⟩
    by_contra hne
    exact (h.initialized (by simpa using hne)).1 hh

end Gbis.Monitor
