import Gbis.Sched.Threads
import Mathlib.Algebra.BigOperators.Group.List.Basic

/-!
# The device memory of a turn

A worker's turn seen by the device allocations it holds. The memory it holds is what its
buffers own (`Mem`): a buffer owns at most one allocation, of the size asked for, and
allocating into a buffer or releasing it touches no other. So a turn never holds more
than the sizes of its jobs' buffers (`deviceTotal`), however often an allocation fails and
is tried again, and it holds nothing any more when it releases its reservation
(`worker_body_memory`). In the scheduler that is so of every turn, in every interleaving
(`turn_memory`).
-/

namespace Gbis.Sched

open Gbis.Core Library

/-! ### What the buffers own -/

/-- The allocation a device buffer owns, if any. -/
def ownedBy (b : DeviceBuffer) : Held :=
  match b.data_ with
  | some p => [(p, b.bytes)]
  | none => []

/-- The device buffers of a job. -/
abbrev DeviceBuffers := DeviceBuffer × DeviceBuffer × DeviceBuffer

/-- The allocations the buffers of a job own. -/
def DeviceBuffers.owned (d : DeviceBuffers) : Held := ownedBy d.1 ++ ownedBy d.2.1 ++ ownedBy d.2.2

/-- The device buffers of the batch. -/
def Locals.device (l : Locals) : List DeviceBuffers := l.execs.map fun e => (e.da, e.db, e.dc)

/-- The allocations all of them own. -/
def Locals.owned (l : Locals) : Held := l.device.flatMap DeviceBuffers.owned

/-- The device bytes asked for on behalf of a job. -/
def deviceBytes (job : InferenceJob) : ℕ := mulSize job.sa 4 + mulSize job.sb 4 + mulSize job.sc 4

/-- The device bytes asked for on behalf of a batch. -/
def deviceTotal (batch : List InferenceJob) : ℕ := (batch.map deviceBytes).sum

@[simp] theorem ownedBy_empty : ownedBy {} = [] := rfl

@[simp] theorem Held.bytes_nil : Held.bytes [] = 0 := rfl

@[simp] theorem Held.bytes_append (xs ys : Held) : Held.bytes (xs ++ ys) = Held.bytes xs + Held.bytes ys := by
  simp [Held.bytes]

theorem Held.bytes_eq_of_perm {xs ys : Held} (h : List.Perm xs ys) : Held.bytes xs = Held.bytes ys :=
  (h.map Prod.snd).sum_eq

/-- The buffers of a job are no larger than it needs. -/
structure Sized (job : InferenceJob) (d : DeviceBuffers) : Prop where
  da : (ownedBy d.1).bytes ≤ mulSize job.sa 4
  db : (ownedBy d.2.1).bytes ≤ mulSize job.sb 4
  dc : (ownedBy d.2.2).bytes ≤ mulSize job.sc 4

theorem bytes_owned_le {batch : List InferenceJob} {device : List DeviceBuffers} (h : List.Forall₂ Sized batch device) :
    Held.bytes (device.flatMap DeviceBuffers.owned) ≤ deviceTotal batch := by
  induction h with
  | nil => exact Nat.le_refl _
  | @cons job d batch device hd _ ih =>
    have h₁ := hd.da
    have h₂ := hd.db
    have h₃ := hd.dc
    simp only [List.flatMap_cons, DeviceBuffers.owned, Held.bytes_append, deviceTotal, List.map_cons, List.sum_cons,
      deviceBytes] at ih ⊢
    omega

/-- What the world remembers of a turn: the amounts it has released, and what it holds. -/
abbrev Memory := List ℕ × Held

/-- The memory a turn holds is what its buffers own, and these are no larger than needed. -/
structure Mem (batch : List InferenceJob) (l : Locals) (m : Memory) : Prop where
  released : m.1 = []
  perm : List.Perm m.2 l.owned
  nodup : (m.2.map Prod.fst).Nodup
  sized : List.Forall₂ Sized batch l.device

variable {batch : List InferenceJob} {l l' : Locals} {m m' : Memory}

theorem Mem.bytes_le (h : Mem batch l m) : Held.bytes m.2 ≤ deviceTotal batch := by
  rw [Held.bytes_eq_of_perm h.perm]
  exact bytes_owned_le h.sized

theorem Mem.congr (h : Mem batch l m) (hd : l'.device = l.device) : Mem batch l' m :=
  ⟨h.released, by rw [Locals.owned, hd]; exact h.perm, h.nodup, hd ▸ h.sized⟩

/-! ### The world -/

/-- The world of the memory of a turn, of which at most `limit` may be held: all the time,
and nothing once its bytes have been released. -/
def memoryWorld (limit : ℕ) : World Call Call.Ret Memory where
  pre _ m := Held.bytes m.2 ≤ limit ∧ (m.1 ≠ [] → m.2 = [])
  answer m c r m' := (∀ p ∈ granted c r, p ∉ m.2.map Prod.fst) ∧
    m' = ((({ released := m.1 } : Account).apply c r).released, m.2.apply c r)

theorem Mem.pre (h : Mem batch l m) (c : Call) : (memoryWorld (deviceTotal batch)).pre c m :=
  ⟨h.bytes_le, fun hr => absurd h.released hr⟩

theorem answer_spares {limit : ℕ} {c : Call} (hc : allocates c = false ∧ releases c = false) {r : c.Ret}
    (h : (memoryWorld limit).answer m c r m') : m' = m := by
  obtain ⟨-, rfl⟩ := h
  obtain ⟨ha, hr⟩ := hc
  cases c with
  | cudaStreamCreateWithFlags | cudaStreamCreate | cudaEventCreate => cases r <;> rfl
  | cudaMalloc | cudaFree => cases ha
  | release_bytes => cases hr
  | _ => rfl

/-- What spares the device memory, and the buffers, leaves both as they are. -/
theorem spares_frame {limit : ℕ} {α : Type} {p : WorkerM α}
    (hp : p.Within (fun c => allocates c = false ∧ releases c = false) Locals.device)
    (hm : ∀ c, (memoryWorld limit).pre c m) :
    p.wp (memoryWorld limit) (fun _ l' m' => l'.device = l.device ∧ m' = m)
      (fun _ l' m' => l'.device = l.device ∧ m' = m)
      l m := by
  refine Host.wp_of_within (I := fun m' => m' = m) (fun c m' hc hm' => ?_) hp rfl
  subst hm'
  exact ⟨hm c, fun _ _ hr => answer_spares hc hr⟩

theorem spares_wp {α : Type} {p : WorkerM α}
    (hp : p.Within (fun c => allocates c = false ∧ releases c = false) Locals.device)
    (h : Mem batch l m) :
    p.wp (memoryWorld (deviceTotal batch)) (fun _ => Mem batch) (fun _ => Mem batch) l m := by
  refine Host.wp_mono (spares_frame hp h.pre) ?_ ?_
  all_goals
    rintro _ l' _ ⟨hd, rfl⟩
    exact h.congr hd

theorem Locals.device_of_fixed (h : l'.fixed = l.fixed) : l'.device = l.device := by
  have h₂ := congrArg (List.map fun e : JobBuffers => (e.da, e.db, e.dc)) (Prod.mk.inj h).2
  rwa [List.map_map, List.map_map] at h₂

theorem settle_free {c : Call} (h : settles c = false) : releases c = false := by
  cases c <;> first | rfl | cases h

theorem gathering_mem_wp {α : Type} {p : WorkerM α} (hp : Gathering p) (h : Mem batch l m) :
    p.wp (memoryWorld (deviceTotal batch)) (fun _ => Mem batch) (fun _ => Mem batch) l m :=
  spares_wp (hp.mono (fun _ h => ⟨h.2.1, settle_free h.2.2⟩) fun _ _ => Locals.device_of_fixed) h

theorem inert_mem_wp {α : Type} {p : WorkerM α} (hp : Inert p) (h : Mem batch l m) :
    p.wp (memoryWorld (deviceTotal batch)) (fun _ => Mem batch) (fun _ => Mem batch) l m :=
  gathering_mem_wp hp.gathering h

/-! ### Allocating and releasing -/

/-- Freeing an allocation leaves the others. -/
theorem filter_perm_of_perm_cons {held rest : Held} {p bytes : ℕ} (h : List.Perm held ((p, bytes) :: rest))
    (hn : (held.map Prod.fst).Nodup) : List.Perm (held.filter fun a => a.1 ≠ p) rest := by
  have hn' : (((p, bytes) :: rest : Held).map Prod.fst).Nodup := (h.map Prod.fst).nodup_iff.mp hn
  have hp : ∀ a ∈ rest, a.1 ≠ p := by
    intro a ha he
    have hmem : a.1 ∈ rest.map Prod.fst := List.mem_map_of_mem ha
    exact (List.nodup_cons.mp hn').1 (he ▸ hmem)
  have hf := h.filter fun a => a.1 ≠ p
  rw [List.filter_cons_of_neg (by simp)] at hf
  have hr : (rest.filter fun a => a.1 ≠ p) = rest := List.filter_eq_self.mpr fun a ha => by simpa using hp a ha
  rwa [hr] at hf

/-- `self` is one of the device buffers of the batch, for which `bound` bytes are needed:
what all the buffers own is what it owns and a rest, and assigning to it keeps the rest. -/
def Slot (batch : List InferenceJob) (self : Ref Locals DeviceBuffer) (bound : ℕ) : Prop :=
  ∀ l : Locals, List.Forall₂ Sized batch l.device → ∃ rest, List.Perm l.owned (ownedBy (self.get l) ++ rest) ∧
    ∀ b, Held.bytes (ownedBy b) ≤ bound → self.get (self.set b l) = b ∧
      List.Perm (self.set b l).owned (ownedBy b ++ rest) ∧ List.Forall₂ Sized batch (self.set b l).device

variable {self : Ref Locals DeviceBuffer}

theorem device_release_wp {bound : ℕ} (hs : Slot batch self bound) (h : Mem batch l m) :
    (DeviceBuffer.release self).wp (memoryWorld (deviceTotal batch))
      (fun _ l' m' => l' = self.set {} l ∧ Mem batch l' m') (fun _ _ _ => False) l m := by
  obtain ⟨rest, hperm, hset⟩ := hs l h.sized
  obtain ⟨-, hp, hsized⟩ := hset {} (Nat.zero_le _)
  unfold DeviceBuffer.release
  rw [Host.wp_bind, Host.wp_locals, Host.wp_bind]
  unfold DeviceBuffer.free
  cases hd : (self.get l).data_ with
  | none =>
    rw [Host.wp_pure, Host.wp_assign]
    have ho : ownedBy (self.get l) = [] := by simp [ownedBy, hd]
    rw [ho] at hperm
    exact ⟨rfl, h.released, (h.perm.trans hperm).trans hp.symm, h.nodup, hsized⟩
  | some p =>
    have ho : ownedBy (self.get l) = [(p, (self.get l).bytes)] := by simp [ownedBy, hd]
    rw [ho] at hperm
    rw [Host.wp_call]
    refine ⟨h.pre _, ?_⟩
    rintro r m' ⟨-, rfl⟩
    rw [Host.wp_assign]
    refine ⟨rfl, h.released, ?_, ?_, hsized⟩
    · exact (filter_perm_of_perm_cons (h.perm.trans hperm) h.nodup).trans hp.symm
    · exact h.nodup.sublist (List.filter_sublist.map Prod.fst)

theorem try_allocate_wp {count : ℕ} (hs : Slot batch self (mulSize count 4)) (h : Mem batch l m) :
    (DeviceBuffer.try_allocate self count).wp (memoryWorld (deviceTotal batch)) (fun _ => Mem batch)
      (fun _ => Mem batch) l m := by
  unfold DeviceBuffer.try_allocate DeviceBuffer.try_allocate_of
  refine Host.wp_seq (device_release_wp hs h) ?_ fun _ _ _ h => h.elim
  rintro _ l₁ m₁ ⟨rfl, h₁⟩
  split_ifs with hc
  · exact h₁
  · obtain ⟨_, -, hset⟩ := hs l h.sized
    obtain ⟨hget, -, -⟩ := hset {} (Nat.zero_le _)
    obtain ⟨rest, hperm, hassign⟩ := hs _ h₁.sized
    rw [hget, ownedBy_empty, List.nil_append] at hperm
    rw [Host.wp_bind, Host.wp_call]
    refine ⟨h₁.pre _, ?_⟩
    rintro (err | p) m' ⟨hfresh, rfl⟩
    · obtain ⟨-, hp, hsized⟩ := hassign {} (Nat.zero_le _)
      exact ⟨h₁.released, (h₁.perm.trans hperm).trans hp.symm, h₁.nodup, hsized⟩
    · obtain ⟨-, hp, hsized⟩ := hassign ⟨some p, count⟩ (Nat.le_of_eq (Nat.add_zero _))
      refine ⟨h₁.released, ((h₁.perm.trans hperm).cons (p, mulSize count 4)).trans hp.symm, ?_, hsized⟩
      exact List.nodup_cons.mpr ⟨hfresh p rfl, h₁.nodup⟩

/-! ### The slots of the batch -/

/-- Two lists related element by element, at an index: what is there, and what changing it does. -/
theorem exists_of_forall₂_getElem? {α β : Type} {R : α → β → Prop} {as : List α} {bs : List β}
    (h : List.Forall₂ R as bs)
    {i : ℕ} {a : α} (hi : as[i]? = some a) : ∃ pre b post, bs = pre ++ b :: post ∧ bs[i]? = some b ∧ R a b ∧
      ∀ g : β → β, bs.modify i g = pre ++ g b :: post ∧ (R a (g b) → List.Forall₂ R as (bs.modify i g)) := by
  induction h generalizing i with
  | nil => simp at hi
  | @cons x b as bs hx hrest ih =>
    cases i with
    | zero =>
      obtain rfl : x = a := by simpa using hi
      exact ⟨[], b, bs, rfl, rfl, hx, fun g => ⟨rfl, fun hg => .cons hg hrest⟩⟩
    | succ i =>
      obtain ⟨pre, b', post, rfl, hb, hr, hg⟩ := ih (i := i) (by simpa using hi)
      refine ⟨b :: pre, b', post, rfl, by simpa using hb, hr, fun g => ⟨?_, fun hgr => ?_⟩⟩
      · rw [List.modify_succ_cons, (hg g).1, List.cons_append]
      · rw [List.modify_succ_cons]
        exact .cons hx ((hg g).2 hgr)

theorem device_setExec {i : ℕ} {f : JobBuffers → JobBuffers} {g : DeviceBuffers → DeviceBuffers}
    (hf : ∀ e, ((f e).da, (f e).db, (f e).dc) = g (e.da, e.db, e.dc)) (l : Locals) :
    (Locals.setExec i f l).device = l.device.modify i g := by
  refine List.ext_getElem? fun j => ?_
  simp only [Locals.device, Locals.setExec, List.getElem?_map, List.getElem?_modify]
  cases l.execs[j]? with
  | none => rfl
  | some e => by_cases h : i = j <;> simp [h, hf]

/-- A buffer of job `i` is a slot, when what it owns can be told from what the other two own. -/
theorem slot_of {i : ℕ} {job : InferenceJob} (hi : batch[i]? = some job) {bound : ℕ}
    (get : DeviceBuffers → DeviceBuffer)
    (put : DeviceBuffer → DeviceBuffers → DeviceBuffers) (others : DeviceBuffers → Held)
    (hself : ∀ l d, l.device[i]? = some d → self.get l = get d)
    (hset : ∀ b l, (self.set b l).device = l.device.modify i (put b))
    (hget : ∀ b d, get (put b d) = b) (hothers : ∀ b d, others (put b d) = others d)
    (howned : ∀ d, List.Perm d.owned (ownedBy (get d) ++ others d))
    (hsized : ∀ b d, Held.bytes (ownedBy b) ≤ bound → Sized job d → Sized job (put b d)) : Slot batch self bound := by
  intro l hl
  obtain ⟨pre, d, post, hd, hdi, hjob, hmod⟩ := exists_of_forall₂_getElem? hl hi
  have hperm : ∀ d' : DeviceBuffers, List.Perm ((pre ++ d' :: post).flatMap DeviceBuffers.owned)
      (ownedBy (get d') ++ (others d' ++ (pre.flatMap DeviceBuffers.owned ++ post.flatMap DeviceBuffers.owned))) := by
    intro d'
    rw [List.flatMap_append, List.flatMap_cons]
    refine (List.perm_append_comm_assoc _ _ _).trans ?_
    rw [← List.append_assoc (ownedBy _)]
    exact (howned d').append_right _
  refine ⟨others d ++ (pre.flatMap DeviceBuffers.owned ++ post.flatMap DeviceBuffers.owned), ?_,
    fun b hb => ⟨?_, ?_, ?_⟩⟩
  · rw [Locals.owned, hd, hself l d hdi]
    exact hperm d
  · have hi' : (self.set b l).device[i]? = some (put b d) := by
      rw [hset, List.getElem?_modify, hdi]
      simp
    rw [hself _ _ hi', hget]
  · have := hperm (put b d)
    rwa [hget, hothers, ← (hmod (put b)).1, ← hset] at this
  · rw [hset]
    exact (hmod (put b)).2 (hsized b d hb hjob)

theorem device_getElem? {i : ℕ} {l : Locals} {d : DeviceBuffers} (h : l.device[i]? = some d) :
    ((l.exec i).da, (l.exec i).db, (l.exec i).dc) = d := by
  rw [Locals.device, List.getElem?_map] at h
  obtain ⟨e, he, rfl⟩ := Option.map_eq_some_iff.mp h
  simp [Locals.exec, List.getD, he]

section

variable {i : ℕ} {job : InferenceJob} (hi : batch[i]? = some job)
include hi

theorem slot_da : Slot batch (da i) (mulSize job.sa 4) :=
  slot_of hi Prod.fst (fun b d => (b, d.2)) (fun d => ownedBy d.2.1 ++ ownedBy d.2.2)
    (fun _ _ h => congrArg Prod.fst (device_getElem? h)) (fun _ l => device_setExec (fun _ => rfl) l) (fun _ _ => rfl)
    (fun _ _ => rfl) (fun d => by rw [DeviceBuffers.owned, List.append_assoc]) fun _ _ hb h => ⟨hb, h.db, h.dc⟩

theorem slot_db : Slot batch (db i) (mulSize job.sb 4) :=
  slot_of hi (fun d => d.2.1) (fun b d => (d.1, b, d.2.2)) (fun d => ownedBy d.1 ++ ownedBy d.2.2)
    (fun _ _ h => congrArg (fun d => d.2.1) (device_getElem? h)) (fun _ l => device_setExec (fun _ => rfl) l)
    (fun _ _ => rfl) (fun _ _ => rfl)
    (fun d => by rw [DeviceBuffers.owned, List.append_assoc]; exact List.perm_append_comm_assoc _ _ _)
    fun _ _ hb h => ⟨h.da, hb, h.dc⟩

theorem slot_dc : Slot batch (dc i) (mulSize job.sc 4) :=
  slot_of hi (fun d => d.2.2) (fun b d => (d.1, d.2.1, b)) (fun d => ownedBy d.1 ++ ownedBy d.2.1)
    (fun _ _ h => congrArg (fun d => d.2.2) (device_getElem? h)) (fun _ l => device_setExec (fun _ => rfl) l)
    (fun _ _ => rfl) (fun _ _ => rfl) (fun _ => List.perm_append_comm) fun _ _ hb h => ⟨h.da, h.db, hb⟩

end

/-! ### The functions -/

/-- A pinned buffer of the batch: assigning to it leaves the device buffers alone. -/
def Pinned (self : Ref Locals PinnedHostBuffer) : Prop := ∀ b l, (self.set b l).device = l.device

theorem pinned_setExec {i : ℕ} {f : JobBuffers → JobBuffers}
    (hf : ∀ e, ((f e).da, (f e).db, (f e).dc) = (e.da, e.db, e.dc))
    (l : Locals) : (Locals.setExec i f l).device = l.device := by
  rw [device_setExec (g := id) hf, List.modify_id]

theorem pinned_ha (i : ℕ) : Pinned (ha i) :=
  fun b l => pinned_setExec (f := fun e => { e with ha := b }) (fun _ => rfl) l

theorem pinned_hb (i : ℕ) : Pinned (hb i) :=
  fun b l => pinned_setExec (f := fun e => { e with hb := b }) (fun _ => rfl) l

theorem pinned_hc (i : ℕ) : Pinned (hc i) :=
  fun b l => pinned_setExec (f := fun e => { e with hc := b }) (fun _ => rfl) l

/-- The release of the pinned buffers spares the device memory. -/
theorem pinned_release_spares {self : Ref Locals PinnedHostBuffer} (hs : Pinned self) :
    (PinnedHostBuffer.release self).Within (fun c => allocates c = false ∧ releases c = false) Locals.device := by
  refine Host.within_bind Host.within_locals fun l => Host.within_bind ?_ fun _ => Host.within_assign (hs _)
  unfold PinnedHostBuffer.free
  split <;> simp

theorem pinned_allocate_wp {self : Ref Locals PinnedHostBuffer} (hs : Pinned self) (count : ℕ) (h : Mem batch l m) :
    (PinnedHostBuffer.allocate self count).wp (memoryWorld (deviceTotal batch)) (fun _ => Mem batch)
      (fun _ => Mem batch)
      l m := by
  unfold PinnedHostBuffer.allocate PinnedHostBuffer.allocate_of
  refine Host.wp_seq (spares_wp (pinned_release_spares hs) h) ?_ fun _ _ _ h => h
  intro _ l₁ m₁ h₁
  split_ifs
  · exact h₁
  · refine spares_wp (Host.within_bind (Host.within_call (by simp)) fun err => ?_) h₁
    exact Host.within_bind (within_CUDA_CHECK err) fun p => Host.within_assign (hs _)

theorem orBreak_wp {alloc rest : WorkerM Status}
    (h : alloc.wp (memoryWorld (deviceTotal batch)) (fun _ => Mem batch) (fun _ => Mem batch) l m)
    (hrest : ∀ l m, Mem batch l m → rest.wp (memoryWorld (deviceTotal batch)) (fun _ => Mem batch)
      (fun _ => Mem batch) l m) :
    (orBreak alloc rest).wp (memoryWorld (deviceTotal batch)) (fun _ => Mem batch) (fun _ => Mem batch) l m := by
  refine Host.wp_seq h ?_ fun _ _ _ h => h
  rintro (err | _) l₁ m₁ h₁
  · exact h₁
  · exact hrest l₁ m₁ h₁

theorem allocate_job_wp {i : ℕ} {job : InferenceJob} (hi : batch[i]? = some job) (h : Mem batch l m) :
    (allocate_job i job).wp (memoryWorld (deviceTotal batch)) (fun _ => Mem batch) (fun _ => Mem batch) l m := by
  refine orBreak_wp (try_allocate_wp (slot_da hi) h) fun l m h => ?_
  refine orBreak_wp (try_allocate_wp (slot_db hi) h) fun l m h => ?_
  refine orBreak_wp (try_allocate_wp (slot_dc hi) h) fun l m h => ?_
  refine Host.wp_seq (pinned_allocate_wp (pinned_ha i) _ h) ?_ fun _ _ _ h => h
  intro _ l m h
  refine Host.wp_seq (pinned_allocate_wp (pinned_hb i) _ h) ?_ fun _ _ _ h => h
  intro _ l m h
  refine Host.wp_seq (pinned_allocate_wp (pinned_hc i) _ h) ?_ fun _ _ _ h => h
  exact fun _ l m h => h

theorem allocate_jobs_wp {i : ℕ} {jobs : List InferenceJob} (hi : batch.drop i = jobs) (h : Mem batch l m) :
    (allocate_jobs i jobs).wp (memoryWorld (deviceTotal batch)) (fun _ => Mem batch) (fun _ => Mem batch) l m := by
  induction jobs generalizing i l m with
  | nil => exact h
  | cons job jobs ih =>
    obtain ⟨hjob, hrest⟩ := getElem?_of_drop hi
    exact orBreak_wp (allocate_job_wp hjob h) fun l m h => ih hrest h

/-- The device buffer `w` of a job; there is none of pinned buffers. -/
def DeviceBuffers.get (d : DeviceBuffers) : Buf → DeviceBuffer
  | .da => d.1
  | .db => d.2.1
  | .dc => d.2.2
  | _ => {}

/-- Empty it. -/
def DeviceBuffers.clear (w : Buf) (d : DeviceBuffers) : DeviceBuffers :=
  match w with
  | .da => ({}, d.2)
  | .db => (d.1, {}, d.2.2)
  | .dc => (d.1, d.2.1, {})
  | _ => d

theorem DeviceBuffers.get_clear {d : DeviceBuffers} {w w' : Buf} (h : w = w' ∨ d.get w' = {}) :
    (d.clear w).get w' = {} := by
  cases w <;> cases w' <;> simp_all [DeviceBuffers.get, DeviceBuffers.clear]

/-- A device buffer of a job is empty. -/
def Cleared (x : ℕ × Buf) (l : Locals) : Prop := ∀ d, l.device[x.1]? = some d → d.get x.2 = {}

theorem cleared_modify {i : ℕ} {w : Buf} (hd : l'.device = l.device.modify i (DeviceBuffers.clear w)) (y : ℕ × Buf)
    (hy : (i, w) = y ∨ Cleared y l) : Cleared y l' := by
  intro d hj
  rw [hd, List.getElem?_modify] at hj
  obtain ⟨d', hd', rfl⟩ := Option.map_eq_some_iff.mp hj
  split_ifs with hi
  · exact DeviceBuffers.get_clear (hy.imp (congrArg Prod.snd) fun hc => hc d' hd')
  · exact hy.resolve_left (fun he => hi (congrArg Prod.fst he)) d' hd'

theorem release_buf_wp {i : ℕ} {job : InferenceJob} (hi : batch[i]? = some job) (w : Buf) (h : Mem batch l m) :
    (release_buf i w).wp (memoryWorld (deviceTotal batch))
      (fun _ l' m' => Mem batch l' m' ∧ ∀ y, (i, w) = y ∨ Cleared y l → Cleared y l') (fun _ _ _ => False) l m := by
  have hdevice : ∀ {self : Ref Locals DeviceBuffer} {bound : ℕ}, Slot batch self bound →
      (self.set {} l).device = l.device.modify i (DeviceBuffers.clear w) → (DeviceBuffer.release self).wp
        (memoryWorld (deviceTotal batch)) (fun _ l' m' => Mem batch l' m' ∧ ∀ y, (i, w) = y ∨ Cleared y l → Cleared y l')
        (fun _ _ _ => False) l m := by
    intro self bound hs hd
    refine Host.wp_mono (device_release_wp hs h) ?_ fun _ _ _ h => h
    rintro _ _ m ⟨rfl, h⟩
    exact ⟨h, cleared_modify hd⟩
  have hpinned : ∀ {self : Ref Locals PinnedHostBuffer}, Pinned self → DeviceBuffers.clear w = id →
      (PinnedHostBuffer.release self).wp (memoryWorld (deviceTotal batch))
        (fun _ l' m' => Mem batch l' m' ∧ ∀ y, (i, w) = y ∨ Cleared y l → Cleared y l') (fun _ _ _ => False) l m := by
    intro self hs hid
    refine Host.wp_mono ((PinnedHostBuffer.release_returns _).wp (spares_frame (pinned_release_spares hs) h.pre)) ?_
      fun _ _ _ h => h
    rintro _ l' _ ⟨hd, rfl⟩
    refine ⟨h.congr hd, cleared_modify ?_⟩
    rw [hid, List.modify_id]
    exact hd
  cases w with
  | da => exact hdevice (slot_da hi) (device_setExec (fun _ => rfl) l)
  | db => exact hdevice (slot_db hi) (device_setExec (fun _ => rfl) l)
  | dc => exact hdevice (slot_dc hi) (device_setExec (fun _ => rfl) l)
  | ha => exact hpinned (pinned_ha i) rfl
  | hb => exact hpinned (pinned_hb i) rfl
  | hc => exact hpinned (pinned_hc i) rfl

/-- Once the buffers of every job are released, nothing is held. -/
theorem release_jobs_wp {order : List Buf} (hall : ∀ w, w ∈ order) (h : Mem batch l m) :
    (release_jobs order batch.length).wp (memoryWorld (deviceTotal batch)) (fun _ l' m' => Mem batch l' m' ∧ m'.2 = [])
      (fun _ _ _ => False) l m := by
  refine Host.wp_mono (Host.wp_forEach_all (I := Mem batch) (J := fun y l _ => Cleared y l)
    (A := fun i y => ∃ w ∈ order, (i, w) = y) ?_ h) ?_ fun _ _ _ h => h
  · intro i hi l m h
    have hjob := List.getElem?_eq_getElem (List.mem_range.mp hi)
    exact Host.wp_forEach_all (fun w _ l m h => release_buf_wp hjob w h) h
  rintro _ l' m' ⟨h', hclear⟩
  have howned : l'.owned = [] := by
    refine List.flatMap_eq_nil_iff.mpr fun d hd => ?_
    obtain ⟨i, hi⟩ := List.mem_iff_getElem?.mp hd
    have hlt : i < batch.length := by
      rw [h'.sized.length_eq]
      exact (List.getElem?_eq_some_iff.mp hi).1
    have hempty : ∀ w, d.get w = {} :=
      fun w => hclear (i, w) (.inl ⟨i, List.mem_range.mpr hlt, w, hall w, rfl⟩) d hi
    obtain rfl : d = ({}, {}, {}) := Prod.ext (hempty .da) (Prod.ext (hempty .db) (hempty .dc))
    rfl
  exact ⟨h', List.perm_nil.mp (howned ▸ h'.perm)⟩

theorem allocate_attempt_wp {again : Option (WorkerM Status)}
    (hagain : ∀ p ∈ again, ∀ l m, Mem batch l m →
      p.wp (memoryWorld (deviceTotal batch)) (fun _ => Mem batch) (fun _ => Mem batch) l m) (h : Mem batch l m) :
    (allocate_attempt batch again).wp (memoryWorld (deviceTotal batch)) (fun _ => Mem batch) (fun _ => Mem batch)
      l m := by
  unfold allocate_attempt
  refine Host.wp_seq (allocate_jobs_wp rfl h) ?_ fun _ _ _ h => h
  rintro (err | _) l m h
  · refine Host.wp_seq (release_jobs_wp Buf.mem_declared h) ?_ fun _ _ _ h => h.elim
    rintro _ l m ⟨h, -⟩
    refine Host.wp_seq (spares_wp (Host.within_call (by simp)) h) ?_ fun _ _ _ h => h
    intro _ l m h
    split
    · refine Host.wp_seq (spares_wp (Host.within_call (by simp)) h) ?_ fun _ _ _ h => h
      intro _ l m h
      refine Host.wp_seq (spares_wp (Host.within_call (by simp)) h) ?_ fun _ _ _ h => h
      intro _ l m h
      exact hagain _ rfl l m h
    · exact h
  · exact h

theorem allocate_attempts_wp (left : ℕ) (h : Mem batch l m) :
    (allocate_attempts batch left).wp (memoryWorld (deviceTotal batch)) (fun _ => Mem batch) (fun _ => Mem batch)
      l m := by
  induction left generalizing l m with
  | zero => exact allocate_attempt_wp (by simp) h
  | succ left ih =>
    refine allocate_attempt_wp ?_ h
    rintro p ⟨⟩ l m h
    exact ih h

theorem try_block_mem (opts : Options) (h : Mem batch l m) :
    (try_block opts batch).wp (memoryWorld (deviceTotal batch)) (fun _ => Mem batch) (fun _ => Mem batch) l m := by
  refine try_block_rule (I := Mem batch) (O := fun _ => Mem batch) (allocate_attempts_wp _ h) ?_ ?_ ?_ ?_
  · intro err l m h
    exact inert_mem_wp (throw_unless_allocated_inert err) h
  · intro p hp l m h
    exact inert_mem_wp hp.inert h
  · intro l m h
    exact gathering_mem_wp (collect_jobs_storing opts.retain_results 0 batch).gathering h
  · intro out l m h
    exact spares_wp (Host.within_bind (Host.within_call (by simp)) fun _ => Host.within_call (by simp)) h

/-- Before there are any buffers. -/
theorem idle_wp {limit : ℕ} {α : Type} {p : WorkerM α} {γ : Type} {g : Locals → γ}
    (hp : p.Within (fun c => allocates c = false ∧ releases c = false) g) :
    p.wp (memoryWorld limit) (fun _ _ m => m = ([], [])) (fun _ _ m => m = ([], [])) l ([], []) := by
  refine Host.wp_mono (Host.wp_of_within (I := fun m => m = ([], [])) (fun c m' hc hm => ?_) hp rfl)
    (fun _ _ _ h => h.2) fun _ _ _ h => h.2
  subst hm
  exact ⟨⟨Nat.zero_le _, fun _ => rfl⟩, fun _ _ hr => answer_spares hc hr⟩

theorem sized_replicate (batch : List InferenceJob) :
    List.Forall₂ Sized batch ((List.replicate batch.length ({} : JobBuffers)).map fun e => (e.da, e.db, e.dc)) := by
  induction batch with
  | nil => exact .nil
  | cons job batch ih => exact .cons ⟨Nat.zero_le _, Nat.zero_le _, Nat.zero_le _⟩ ih

theorem owned_replicate (n : ℕ) :
    ((List.replicate n ({} : JobBuffers)).map fun e => (e.da, e.db, e.dc)).flatMap DeviceBuffers.owned = [] := by
  induction n with
  | zero => rfl
  | succ n ih => exact ih

theorem execute_batch_mem (opts : Options) :
    (execute_batch opts batch).wp (memoryWorld (deviceTotal batch)) (fun _ _ m => m = ([], []))
      (fun _ _ m => m = ([], []))
      l ([], []) := by
  have hstart : ∀ l : Locals, Mem batch { l with execs := List.replicate batch.length {} } ([], []) := by
    intro l
    exact ⟨rfl, by rw [Locals.owned, Locals.device, owned_replicate], List.nodup_nil, sized_replicate batch⟩
  refine execute_batch_rule (P := fun _ m => m = ([], [])) (R := fun _ m => m = ([], [])) (M := Mem batch)
    (Y := Mem batch)
    (idle_wp (create_streams_preparing.steady.mono (fun _ h => ⟨h.1, settle_free h.2.1⟩) fun _ _ h => h)) ?_ ?_ ?_ ?_
  · intro l m h
    subst h
    exact idle_wp ((grow_events_preparing _).steady.mono (fun _ h => ⟨h.1, settle_free h.2.1⟩) fun _ _ h => h)
  · intro l m h
    subst h
    exact try_block_mem opts (hstart l)
  · intro e l m h
    exact spares_wp (Host.within_bind (Host.within_call (by simp)) fun _ => Host.within_call (by simp)) h
  · intro l m h
    refine Host.wp_mono (release_jobs_wp (by simp) h) ?_ fun _ _ _ _ => trivial
    rintro _ l ⟨m₁, m₂⟩ ⟨h, rfl⟩
    exact Prod.ext h.released rfl

/-- **A turn holds no more than its jobs' buffers need, and nothing once it has released
its bytes**, whatever the library answers. -/
theorem worker_body_memory (opts : Options) (gpu_absent : Bool) :
    (worker_body opts gpu_absent batch).wp (memoryWorld (deviceTotal batch)) (fun _ _ m => m.2 = [])
      (fun _ _ m => m.2 = []) l ([], []) := by
  have release : ∀ l m, m = ([], []) → (call (.release_bytes (batchBytes batch)) : WorkerM Unit).wp
      (memoryWorld (deviceTotal batch)) (fun _ _ m => m.2 = []) (fun _ _ _ => True) l m := by
    intro l m hm
    subst hm
    rw [Host.wp_call]
    refine ⟨⟨Nat.zero_le _, fun _ => rfl⟩, ?_⟩
    rintro _ _ ⟨-, rfl⟩
    rfl
  refine worker_body_rule (P := fun _ m => m = ([], [])) (M := fun _ m => m = ([], [])) (Y := fun _ m => m = ([], []))
    ?_ ?_ ?_ release release
  · exact Host.wp_mono (idle_wp (g := id) (Host.within_call (by simp))) (fun _ _ _ h => h) fun _ _ _ _ => trivial
  · intro _ l m h
    subst h
    exact Host.wp_mono (idle_wp (g := id) (Host.within_call (by simp))) (fun _ _ _ h => h) fun _ _ _ _ => trivial
  · intro l m h
    subst h
    exact execute_batch_mem opts

variable {o : Options} {s : State}

/-- What the memory a turn holds is, as the world of its memory sees it. -/
def Turn.memory (turn : Turn) : Memory := (turn.account.released, turn.held)

theorem apply_released_congr (acc : Account) (c : Call) (r : c.Ret) :
    ((({ released := acc.released } : Account).apply c r).released) = (acc.apply c r).released := by
  cases c with
  | cudaStreamCreateWithFlags | cudaStreamCreate | cudaEventCreate => cases r <;> rfl
  | _ => rfl

theorem mem_allocated {w : Worker} {turn : Turn} {p : ℕ} (hw : w ∈ s.workers) (hpc : w.pc = .running turn)
    (hp : p ∈ turn.held.map Prod.fst) : p ∈ s.allocated := by
  refine List.mem_flatMap.mpr ⟨w, hw, ?_⟩
  rw [hpc]
  exact hp

/-- **The memory of every turn, in every state reached.** -/
theorem turn_memory (h : Reachable (scheduler o) Always s) {w : Worker} {turn : Turn} (hw : w ∈ s.workers)
    (hpc : w.pc = .running turn) :
    Held.bytes turn.held ≤ deviceTotal turn.batch ∧ (turn.account.released ≠ [] → turn.held = []) := by
  have hwp := turn_kept (fun batch => memoryWorld (deviceTotal batch)) Turn.memory
    (fun _ => Host.ends (fun _ _ m => m.2 = []) fun _ _ m => m.2 = [])
    (fun gpu_absent batch l => worker_body_memory o gpu_absent) ?_ h w hw turn hpc
  · refine Prog.now_of_wp (I := fun m : Memory => Held.bytes m.2 ≤ deviceTotal turn.batch ∧ (m.1 ≠ [] → m.2 = []))
      (fun c m hm => hm) ?_ hwp
    rintro ⟨_ | _, l⟩ m hm
    all_goals
      have hm : m.2 = [] := hm
      exact ⟨by rw [hm]; exact Nat.zero_le _, fun _ => hm⟩
  · intro s w hw turn c k r hpc _ hr
    refine ⟨fun p hp hheld => hr p hp (mem_allocated hw hpc hheld), ?_⟩
    exact Prod.ext (apply_released_congr _ c r).symm rfl

end Gbis.Sched
