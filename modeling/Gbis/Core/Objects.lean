import Gbis.Core.Buffer
import Gbis.Library.Heap
import Gbis.Library.Transition

/-!
# The life of a buffer

What a program may do with objects of type `DeviceBuffer<T>` of `src/src/core/device_buffer.hpp`
and `PinnedHostBuffer<T>` of `src/src/sched/scheduler.cpp`: create them, empty or with an
allocation or from another one, assign one to another, allocate, release and destroy them, any
number of them and in any order. The objects are at addresses, by which `operator=` recognises
itself.

A class is described by its members (`BufferClass`), so that what the two classes have in common is
said once. They differ in the memory they allocate, and in that only one has a `try_allocate`. The
methods are host programs over the calls of the CUDA runtime, which may fail or succeed as it
likes, but hands out no address that is in use (`allocator`).

`buffers` is the system whose steps are the operations, each from its beginning to its end.
-/

namespace Gbis.Core

open Sched Library

/-- The objects of a program, by their addresses. -/
abbrev Objects (B : Type) : Type := ℕ → Option B

/-- The object at an address. -/
def object {B : Type} [Inhabited B] (i : ℕ) : Ref (Objects B) B where
  get l := (l i).getD default
  set b l := Function.update l i (some b)

theorem object_get {B : Type} [Inhabited B] {l : Objects B} {i : ℕ} {b : B} (hb : l i = some b) :
    (object i).get l = b := by
  simp [object, hb]

/-- The memory that a class allocates. -/
inductive Space where
  | device
  | pinned
  deriving DecidableEq

/-- A buffer class. -/
structure BufferClass (B : Type) where
  space : Space
  data_ : B → Option ℕ
  count_ : B → ℕ
  make : Option ℕ → ℕ → B
  release : Ref (Objects B) B → HostM (Objects B) Unit
  allocate : Ref (Objects B) B → ℕ → HostM (Objects B) Unit
  /-- `try_allocate`, where the class has it. -/
  try_allocate : Option (Ref (Objects B) B → ℕ → HostM (Objects B) Status)

/-! ### The members of the classes -/

namespace BufferClass

variable {B : Type} [Inhabited B] (K : BufferClass B)

/-- The value of the default member initializers. -/
def empty : B := K.make none 0

/-- The default constructor. -/
def construct (i : ℕ) : HostM (Objects B) Unit := Host.assign ((object i).set K.empty)

/-- The constructor with a size. If it throws there is no object, and no destructor runs. -/
def construct_sized (i count : ℕ) : HostM (Objects B) Unit := do
  K.construct i
  Host.tryCatch (K.allocate (object i) count) fun e => do
    Host.assign fun l => Function.update l i none
    Host.throw e

/-- `data_ = other.data_; count_ = other.count_; other.data_ = nullptr; other.count_ = 0;`, with
the object not yet initialized or already released. -/
def take (this other : ℕ) : HostM (Objects B) Unit := do
  let l ← Host.locals
  let b := (object other).get l
  Host.assign ((object this).set (K.make (K.data_ b) (K.count_ b)))
  Host.assign ((object other).set K.empty)

/-- The move constructor. -/
def construct_move (this other : ℕ) : HostM (Objects B) Unit := K.take this other

/-- `operator=(B&& other)`. -/
def assign_move (this other : ℕ) : HostM (Objects B) Unit :=
  if this ≠ other then do
    K.release (object this)
    K.take this other
  else pure ()

/-- The destructor. -/
def destroy (i : ℕ) : HostM (Objects B) Unit := do
  K.release (object i)
  Host.assign fun l => Function.update l i none

end BufferClass

namespace DeviceBuffer

/-- `DeviceBuffer<T>`. -/
def ofType (sizeof_T : ℕ) : BufferClass DeviceBuffer where
  space := .device
  data_ := data_
  count_ := count_
  make := mk
  release := release
  allocate := allocate_of sizeof_T
  try_allocate := some (try_allocate_of sizeof_T)

end DeviceBuffer

namespace PinnedHostBuffer

/-- `PinnedHostBuffer<T>`. -/
def ofType (sizeof_T : ℕ) : BufferClass PinnedHostBuffer where
  space := .pinned
  data_ := data_
  count_ := count_
  make := mk
  release := release
  allocate := allocate_of sizeof_T
  try_allocate := none

end PinnedHostBuffer

/-! ### The operations -/

/-- An operation on objects. -/
inductive Op where
  | construct (i : ℕ)
  | construct_sized (i count : ℕ)
  | construct_move (i other : ℕ)
  | assign_move (this other : ℕ)
  | try_allocate (i count : ℕ)
  | allocate (i count : ℕ)
  | release (i : ℕ)
  | destroy (i : ℕ)
  deriving DecidableEq

/-- The object whose member is called. -/
def Op.this : Op → ℕ
  | construct i | construct_sized i _ | construct_move i _ | assign_move i _ | try_allocate i _ | allocate i _
  | release i | destroy i => i

namespace BufferClass

variable {B : Type} [Inhabited B] (K : BufferClass B)

/-- What there has to be, and not to be, for an operation. -/
def Permits (l : Objects B) : Op → Prop
  | .construct i | .construct_sized i _ => l i = none
  | .construct_move i other => l i = none ∧ l other ≠ none
  | .assign_move this other => l this ≠ none ∧ l other ≠ none
  | .try_allocate i _ => l i ≠ none ∧ K.try_allocate.isSome
  | .allocate i _ | .release i | .destroy i => l i ≠ none

/-- An operation. What `try_allocate` returns is what its caller gets. -/
def run : Op → HostM (Objects B) Status
  | .construct i => do
    K.construct i
    pure (.ok ())
  | .construct_sized i count => do
    K.construct_sized i count
    pure (.ok ())
  | .construct_move i other => do
    K.construct_move i other
    pure (.ok ())
  | .assign_move this other => do
    K.assign_move this other
    pure (.ok ())
  | .try_allocate i count =>
    match K.try_allocate with
    | some f => f (object i) count
    | none => pure (.ok ())
  | .allocate i count => do
    K.allocate (object i) count
    pure (.ok ())
  | .release i => do
    K.release (object i)
    pure (.ok ())
  | .destroy i => do
    K.destroy i
    pure (.ok ())

end BufferClass

/-! ### The runtime -/

/-- Where an allocation is. -/
abbrev Addr : Type := Space × ℕ

/-- What a call that is answered does to the allocations. -/
def onCall (h : Heap Addr) : (c : Call) → c.Ret → Heap Addr
  | .cudaMalloc _, r => match r with
    | .ok p => h.alloc (.device, p)
    | .error _ => h
  | .cudaHostAlloc _, r => match r with
    | .ok p => h.alloc (.pinned, p)
    | .error _ => h
  | .cudaFree p, _ => h.free (.device, p)
  | .cudaFreeHost p, _ => h.free (.pinned, p)
  | _, _ => h

/-- What is handed out is not in use. -/
def Unused (h : Heap Addr) : (c : Call) → c.Ret → Prop
  | .cudaMalloc _, .ok p => h.live (.device, p) = none
  | .cudaHostAlloc _, .ok p => h.live (.pinned, p) = none
  | _, _ => True

/-- The allocation that a call frees. -/
def frees : Call → Option Addr
  | .cudaFree p => some (.device, p)
  | .cudaFreeHost p => some (.pinned, p)
  | _ => none

/-- The runtime. It is asked to free only what is live, and what the caller `may` free. -/
def allocator (may : Addr → Prop) : World Call Call.Ret (Heap Addr) where
  pre c h := ∀ a ∈ frees c, h.live a ≠ none ∧ may a
  answer h c r h' := Unused h c r ∧ h' = onCall h c r

/-- Every call may be answered: there may be no memory left. -/
theorem allocator_answers (may : Addr → Prop) (c : Call) (h : Heap Addr) :
    ∃ r h', (allocator may).answer h c r h' := by
  cases c with
  | cudaMalloc | cudaHostAlloc => exact ⟨.error .memoryAllocation, h, trivial, rfl⟩
  | cudaStreamCreateWithFlags | cudaStreamCreate | cudaEventCreate => exact ⟨.ok 0, h, trivial, rfl⟩
  | cublasCreate => exact ⟨.ok 0, h, trivial, rfl⟩
  | cudaMemcpyAsync | cudaEventRecord | cudaStreamWaitEvent | cudaEventSynchronize | cudaDeviceSynchronize =>
    exact ⟨.ok (), h, trivial, rfl⟩
  | cublasSetStream | cublasSgemmStridedBatched => exact ⟨.ok (), h, trivial, rfl⟩
  | _ => exact ⟨default, _, trivial, rfl⟩

/-! ### The system -/

/-- The objects of a class, and the allocations. -/
structure Storage (B : Type) where
  objects : Objects B := fun _ => none
  heap : Heap Addr := {}

namespace BufferClass

variable {B : Type} (K : BufferClass B)

/-- The allocation that an object holds, if there is an object and it holds one. -/
def held (l : Objects B) (i : ℕ) : Option Addr := (l i).bind fun b => (K.data_ b).map fun p => (K.space, p)

theorem held_eq {l : Objects B} {i : ℕ} {b : B} (hb : l i = some b) :
    K.held l i = (K.data_ b).map fun p => (K.space, p) := by
  simp [held, hb]

/-- What an operation on object `i` may free: what that object holds when it begins, and no other. -/
def mayFree (l : Objects B) (i : ℕ) (a : Addr) : Prop := ∀ j, K.held l j = some a ↔ j = i

variable [Inhabited B]

/-- An operation in progress: what is left of it, and the allocations. -/
abbrev Progress (B : Type) : Type := Prog Call Call.Ret (Except Exn Status × Objects B) × Heap Addr

/-- It makes its calls. -/
def Proceeds (s : Storage B) (op : Op) : Progress B → Progress B → Prop :=
  Relation.ReflTransGen (Exec (allocator (K.mayFree s.objects op.this)))

/-- The objects of class `K`: a step is an operation, with what it returns or throws. -/
def buffers : System (Storage B) (Op × Except Exn Status) where
  init s := s = {}
  step s a t := K.Permits s.objects a.1 ∧
    K.Proceeds s a.1 (K.run a.1 s.objects, s.heap) (.pure (a.2, t.objects), t.heap)

end BufferClass

end Gbis.Core
