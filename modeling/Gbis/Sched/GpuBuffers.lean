import Gbis.Sched.Footprint
import Gbis.Sched.Gpu

/-!
# A turn on an idle GPU

What a worker does before it issues anything, and after all it has issued has finished:
it creates streams and events, and allocates and frees buffers. The GPU does nothing of its
own in the meantime, so memory may be freed at any time. What is established is what the
pipeline needs: the events of the pools are distinct (`Pools`), the buffers of the batch
own distinct live allocations of the right size (`Owns`), and after a successful attempt
every job has the buffers it needs (`Fitted`).
-/

namespace Gbis.Sched

open Gbis.Core Library

/-! ### The buffers of a batch -/

/-- What a device buffer owns, and its count. -/
def DeviceBuffer.view (b : DeviceBuffer) : Option Loc × ℕ := (b.data_.map .device, b.count_)

/-- The same of a pinned one. -/
def PinnedHostBuffer.view (b : PinnedHostBuffer) : Option Loc × ℕ := (b.data_.map .host, b.count_)

/-- The buffers of a job, as views. -/
def JobBuffers.buf (e : JobBuffers) : Buf → Option Loc × ℕ
  | .da => DeviceBuffer.view e.da
  | .db => DeviceBuffer.view e.db
  | .dc => DeviceBuffer.view e.dc
  | .ha => PinnedHostBuffer.view e.ha
  | .hb => PinnedHostBuffer.view e.hb
  | .hc => PinnedHostBuffer.view e.hc

/-- The buffers of the batch. -/
abbrev Bufs := ℕ × Buf → Option Loc × ℕ

/-- The buffers of the batch among the local variables. -/
def Locals.bufs (l : Locals) : Bufs := fun s => (l.exec s.1).buf s.2

/-- What leaves the buffers alone leaves what they own. -/
theorem Locals.bufs_of_fixed {l l' : Locals} (h : l'.fixed = l.fixed) : l'.bufs = l.bufs := by
  have hbufs : ∀ (l : Locals) (x : ℕ × Buf), l.bufs x = (l.fixed.2.getD x.1 default).buf x.2 := by
    intro l ⟨i, w⟩
    simp only [Locals.bufs, Locals.exec, Locals.fixed, List.getD_eq_getElem?_getD, List.getElem?_map]
    cases l.execs[i]? <;> cases w <;> rfl
  funext x
  rw [hbufs, h, ← hbufs]

/-- The elements of each buffer of a job. -/
def need (job : InferenceJob) : Buf → ℕ
  | .da | .ha => job.sa
  | .db | .hb => job.sb
  | .dc | .hc => job.sc

/-- A buffer has been allocated with this count: it is null exactly if that is `0`. -/
def Fits (count : ℕ) (v : Option Loc × ℕ) : Prop := v.2 = count ∧ (v.1 = none ↔ count = 0)

/-- The buffers own live allocations of their sizes, and no two the same. -/
structure Owns (bufs : Bufs) (g : Gpu) : Prop where
  live : ∀ s loc, (bufs s).1 = some loc → g.live loc = some (mulSize (bufs s).2 4)
  inj : ∀ s s' loc, (bufs s).1 = some loc → (bufs s').1 = some loc → s = s'

/-- The events of the pools exist and are distinct, and the pools are of one size. -/
structure Pools (ctx : WorkerContext) (g : Gpu) : Prop where
  nodup : (ctx.h2d_done ++ ctx.kern_done ++ ctx.done).Nodup
  exist : ∀ e ∈ ctx.h2d_done ++ ctx.kern_done ++ ctx.done, e ∈ g.events
  kern_done : ctx.kern_done.length = ctx.h2d_done.length
  done : ctx.done.length = ctx.h2d_done.length

/-- What holds all the time from the allocation of a batch of `n` jobs on. -/
structure Sound (n : ℕ) (l : Locals) (g : Gpu) : Prop where
  wellFormed : g.dev.WellFormed
  owns : Owns l.bufs g
  pools : Pools l.ctx g
  enough : n ≤ l.ctx.h2d_done.length
  length : l.execs.length = n

/-- What holds while the GPU is idle. -/
structure Ready (n : ℕ) (l : Locals) (g : Gpu) : Prop extends Sound n l g where
  idle : g.dev.Idle

/-- What holds between two turns. -/
structure Between (l : Locals) (g : Gpu) : Prop where
  wellFormed : g.dev.WellFormed
  idle : g.dev.Idle
  pools : Pools l.ctx g

variable {K : Kernels} {impl : Impl} {batch : List InferenceJob} {n : ℕ} {l l' : Locals} {g g' : Gpu} {bufs : Bufs}
  {s : ℕ × Buf}

theorem Sound.congr (h : Sound n l g) (hb : l'.bufs = l.bufs) (hs : l'.shape = l.shape) : Sound n l' g := by
  obtain ⟨hctx, hlen⟩ := Prod.mk.inj hs
  exact ⟨h.wellFormed, hb ▸ h.owns, hctx ▸ h.pools, hctx ▸ h.enough, hlen.trans h.length⟩

/-! ### Ownership -/

/-- What an owner gives back. -/
def Gpu.freed (g : Gpu) : Option Loc → Gpu
  | some loc => g.free loc
  | none => g

theorem Owns.clear (h : Owns bufs g) (s : ℕ × Buf) : Owns (Function.update bufs s (none, 0)) (g.freed (bufs s).1) := by
  have hother : ∀ s' loc, (Function.update bufs s (none, 0) s').1 = some loc → s' ≠ s ∧ (bufs s').1 = some loc := by
    intro s' loc hs'
    rcases eq_or_ne s' s with rfl | hne
    · rw [Function.update_self] at hs'
      cases hs'
    · rw [Function.update_of_ne hne] at hs'
      exact ⟨hne, hs'⟩
  refine ⟨fun s' loc hs' => ?_, fun s₁ s₂ loc h₁ h₂ => h.inj s₁ s₂ loc (hother s₁ loc h₁).2 (hother s₂ loc h₂).2⟩
  obtain ⟨hne, hs'⟩ := hother s' loc hs'
  rw [Function.update_of_ne hne, ← h.live s' loc hs']
  cases hfreed : (bufs s).1 with
  | none => rfl
  | some freed =>
    refine Function.update_of_ne (fun he => hne ?_) _ _
    exact h.inj s' s loc hs' (he ▸ hfreed)

theorem Owns.fill (h : Owns bufs g) (hs : (bufs s).1 = none) {loc : Loc} (hfresh : g.live loc = none) (count : ℕ) :
    Owns (Function.update bufs s (some loc, count))
      { g with live := Function.update g.live loc (some (mulSize count 4)) } := by
  -- no buffer owns the new allocation
  have hfresh' : ∀ s', (bufs s').1 ≠ some loc := fun s' hs' => by
    have := h.live s' loc hs'
    rw [hfresh] at this
    cases this
  constructor
  · intro s' loc' hs'
    rcases eq_or_ne s' s with rfl | hne
    · rw [Function.update_self] at hs' ⊢
      obtain rfl := Option.some.inj hs'
      exact Function.update_self _ _ _
    · rw [Function.update_of_ne hne] at hs' ⊢
      rw [← h.live s' loc' hs']
      exact Function.update_of_ne (fun he => hfresh' s' (by rw [← he]; exact hs')) _ _
  · intro s₁ s₂ loc' h₁ h₂
    rcases eq_or_ne s₁ s with rfl | hne₁ <;> rcases eq_or_ne s₂ s₁ with rfl | hne₂
    · rfl
    · rw [Function.update_self] at h₁
      rw [Function.update_of_ne hne₂] at h₂
      obtain rfl := Option.some.inj h₁
      exact absurd h₂ (hfresh' s₂)
    · rfl
    · rw [Function.update_of_ne hne₁] at h₁
      rcases eq_or_ne s₂ s with rfl | hne
      · rw [Function.update_self] at h₂
        obtain rfl := Option.some.inj h₂
        exact absurd h₁ (hfresh' s₁)
      · rw [Function.update_of_ne hne] at h₂
        exact h.inj s₁ s₂ loc' h₁ h₂

theorem Owns.of_live (h : Owns bufs g) (hl : g'.live = g.live) : Owns bufs g' :=
    ⟨fun s loc hs => hl ▸ h.live s loc hs, h.inj⟩

theorem Pools.of_events {ctx : WorkerContext} (h : Pools ctx g) (he : g'.events = g.events) : Pools ctx g' :=
  ⟨h.nodup, he ▸ h.exist, h.kern_done, h.done⟩

theorem Ready.freed (h : Ready n l g) (hb : l'.bufs = Function.update l.bufs s (none, 0)) (hs : l'.shape = l.shape) :
    Ready n l' (g.freed (l.bufs s).1) := by
  obtain ⟨hctx, hlen⟩ := Prod.mk.inj hs
  have hdev : (g.freed (l.bufs s).1).dev = g.dev := by cases (l.bufs s).1 <;> rfl
  have hev : (g.freed (l.bufs s).1).events = g.events := by cases (l.bufs s).1 <;> rfl
  exact ⟨⟨hdev ▸ h.wellFormed, hb ▸ h.owns.clear s, hctx ▸ h.pools.of_events hev, hctx ▸ h.enough, hlen.trans h.length⟩,
    hdev ▸ h.idle⟩

theorem Ready.filled (h : Ready n l g) (hs : (l.bufs s).1 = none) {loc : Loc} {count : ℕ} (hfresh : g.live loc = none)
    (hb : l'.bufs = Function.update l.bufs s (some loc, count)) (hsh : l'.shape = l.shape) :
    Ready n l' { g with live := Function.update g.live loc (some (mulSize count 4)) } := by
  obtain ⟨hctx, hlen⟩ := Prod.mk.inj hsh
  exact ⟨⟨h.wellFormed, hb ▸ h.owns.fill hs hfresh count, hctx ▸ h.pools.of_events rfl, hctx ▸ h.enough,
    hlen.trans h.length⟩,
    h.idle⟩

/-! ### The world -/

/-- The GPU as the world of a turn: calls must be safe, and the GPU works on between them. -/
abbrev gpuWorld (K : Kernels) (impl : Impl) (batch : List InferenceJob) : World Call Call.Ret Gpu :=
  World.interleave ⟨Safe K impl batch, Gpu.Answers K⟩ (Gpu.Executes K)

theorem Gpu.Executes.dev_executes (h : g.Executes K g') : g.dev.Executes (Work.run K) g'.dev := by
  obtain ⟨h⟩ := h
  exact h

/-- The call rule on an idle GPU. -/
theorem idle_call {c : Call} {Q : c.Ret → Locals → Gpu → Prop} {X : Exn → Locals → Gpu → Prop} (h : g.dev.Idle)
    (hsafe : Safe K impl batch c g) (hanswer : ∀ r g', g.Answers K c r g' → Q r l g') :
    (call c : WorkerM c.Ret).wp (gpuWorld K impl batch) Q X l g := by
  refine Host.wp_call_interleave (I := fun g' => g' = g) (fun g₁ g₂ hx he => ?_) rfl (fun g₁ he => he ▸ hsafe)
    fun g₁ r g₂ he hr => hanswer r g₂ (he ▸ hr)
  subst he
  exact absurd hx.dev_executes h.not_executes

/-- An idle GPU has nothing in use. -/
theorem Device.Idle.not_busy (h : g.dev.Idle) (loc : Loc) : ¬ g.Busy loc := by
  rintro ⟨i, s, w, hi, hn, -⟩
  exact hn (h i (List.getElem?_eq_some_iff.mp hi).1)

/-- The calls that have nothing to do with the GPU. -/
@[reducible] def aside : Call → Bool
  | .cudaStreamCreateWithFlags | .cudaStreamCreate | .cudaGetLastError | .cublasCreate | .now | .sleep_for _
  | .notify_batch_space | .insert_metrics _ | .add_completed _ | .add_alloc_retry | .add_oom_failure | .fail_batch _
  | .release_bytes _ => true
  | _ => false

theorem safe_of_aside {c : Call} (hc : aside c = true) : Safe K impl batch c g := by
  cases c <;> trivial

theorem eq_of_aside {c : Call} (hc : aside c = true) {r : c.Ret} (h : g.Answers K c r g') : g' = g := by
  cases c <;> first | exact h | contradiction

/-- What makes only such calls leaves the GPU to itself. -/
theorem aside_wp {α γ : Type} {f : Locals → γ} {p : WorkerM α} {I : Gpu → Prop}
    (hI : ∀ g g', g.Executes K g' → I g → I g') (hp : p.Within (fun c => aside c = true) f) (h : I g) :
    p.wp (gpuWorld K impl batch) (fun _ l' g' => f l' = f l ∧ I g') (fun _ l' g' => f l' = f l ∧ I g') l g := by
  refine Host.wp_of_within (fun c g hc hg => ⟨fun _ _ => safe_of_aside hc, ?_⟩) hp h
  rintro r g' ⟨g₁, h₁, hr⟩
  rw [eq_of_aside hc hr]
  exact stable_of_step hI h₁ hg

theorem Between.stable (h : Between l g) (hx : g.Executes K g') : Between l g' :=
    absurd hx.dev_executes h.idle.not_executes

theorem Ready.stable (h : Ready n l g) (hx : g.Executes K g') : Ready n l g' :=
    absurd hx.dev_executes h.idle.not_executes

theorem ready_aside {α : Type} {p : WorkerM α} (hp : p.Within (fun c => aside c = true) id) (h : Ready n l g) :
    p.wp (gpuWorld K impl batch) (fun _ l' g' => l' = l ∧ Ready n l' g') (fun _ l' g' => l' = l ∧ Ready n l' g')
      l g := by
  refine Host.wp_mono (aside_wp (I := Ready n l) (fun _ _ hx hr => hr.stable hx) hp h) ?_ ?_
  all_goals
    rintro _ l' g' ⟨rfl, hr⟩
    exact ⟨rfl, hr⟩

/-! ### Streams and events -/

/-- The event pools. -/
def Locals.pools (l : Locals) : List ℕ × List ℕ × List ℕ := (l.ctx.h2d_done, l.ctx.kern_done, l.ctx.done)

theorem create_streams_aside : create_streams.Within (fun c => aside c = true) Locals.pools := by
  refine Host.within_bind Host.within_locals fun l => ?_
  rcases l.ctx.h2d_stream with _ | h <;> dsimp only
  repeat' with_reducible refine Host.within_bind ?_ fun _ => ?_
  all_goals first
    | exact Host.within_assign fun _ => rfl
    | simp

theorem create_streams_gpu (h : Between l g) :
    create_streams.wp (gpuWorld K impl batch) (fun _ => Between) (fun _ => Between) l g := by
  refine Host.wp_mono (aside_wp (I := Between l) (fun _ _ hx hb => hb.stable hx) create_streams_aside h) ?_ ?_
  all_goals
    rintro _ l' g' ⟨hp, hb⟩
    obtain ⟨h₁, h₂, h₃⟩ := Prod.ext_iff.mp hp |>.imp id Prod.ext_iff.mp
    obtain ⟨hnodup, hexist, hkern, hdone⟩ := hb.pools
    refine ⟨hb.wellFormed, hb.idle, ?_⟩
    dsimp only [Locals.pools] at h₁ h₂ h₃
    constructor <;> simpa only [h₁, h₂, h₃]

/-- An idle GPU on which these events exist. -/
structure Having (events : List ℕ) (g : Gpu) : Prop where
  wellFormed : g.dev.WellFormed
  idle : g.dev.Idle
  nodup : events.Nodup
  exist : ∀ e ∈ events, e ∈ g.events

theorem create_events_gpu {events made : List ℕ} (h : Having (events ++ made) g) (m : ℕ) :
    (create_events made m).wp (gpuWorld K impl batch)
      (fun made' l' g' => l' = l ∧ Having (events ++ made') g' ∧ made'.length = made.length + m) (fun _ _ _ => True)
        l g := by
  induction m generalizing made g with
  | zero => exact ⟨rfl, h, rfl⟩
  | succ m ih =>
    rw [create_events, Host.wp_bind]
    refine idle_call h.idle trivial ?_
    rintro (err | e) g' hr
    · refine (Host.wp_bind _ _).mpr (Host.wp_mono (Host.wp_of_within (I := fun _ : Gpu => True) (g := id)
        (P := fun c => ∃ e, c = .cudaEventDestroy e) ?_ (Host.within_forEach fun e _ => Host.within_call ⟨e, rfl⟩)
          trivial)
        (fun _ _ _ _ => trivial) fun _ _ _ _ => trivial)
      rintro _ _ ⟨e, rfl⟩ -
      exact ⟨fun _ _ => trivial, fun _ _ _ => trivial⟩
    · obtain ⟨hfresh, rfl⟩ := hr
      have hnew : e ∉ events ++ made := fun he => hfresh (h.exist e he)
      have hnext : Having (events ++ (made ++ [e])) { g with events := e :: g.events } := by
        refine ⟨h.wellFormed, h.idle, ?_, ?_⟩
        · rw [← List.append_assoc]
          exact List.nodup_append.mpr ⟨h.nodup, List.nodup_singleton e, fun a ha b hb he =>
            hnew (List.mem_singleton.mp hb ▸ he ▸ ha)⟩
        · intro e' he'
          rw [← List.append_assoc] at he'
          rcases List.mem_append.mp he' with he' | he'
          · exact List.mem_cons_of_mem e (h.exist e' he')
          · exact List.mem_singleton.mp he' ▸ List.mem_cons_self
      refine Host.wp_mono (ih hnext) ?_ fun _ _ _ h => h
      rintro made' l' g' ⟨hl, hh, hlen⟩
      refine ⟨hl, hh, ?_⟩
      rw [hlen, List.length_append, List.length_singleton]
      omega

theorem resize_gpu {others pool : List ℕ} (h : Having (others ++ pool) g) {m : ℕ} (hm : pool.length ≤ m) :
    (resize pool m).wp (gpuWorld K impl batch)
      (fun pool' l' g' => l' = l ∧ Having (others ++ pool') g' ∧ pool'.length = m) (fun _ _ _ => True) l g := by
  unfold resize
  refine Host.wp_seq (create_events_gpu (show Having (others ++ pool ++ []) g by rwa [List.append_nil]) _) ?_
    fun _ _ _ h => h
  rintro made l g ⟨rfl, hh, hlen⟩
  refine ⟨rfl, by rwa [← List.append_assoc], ?_⟩
  rw [List.length_append, hlen, List.length_nil]
  omega

theorem Having.of_perm {xs ys : List ℕ} (h : Having xs g) (hp : List.Perm xs ys) : Having ys g :=
  ⟨h.wellFormed, h.idle, hp.nodup_iff.mp h.nodup, fun e he => h.exist e (hp.mem_iff.mpr he)⟩

/-- After the event pools have grown they are large enough. -/
theorem grow_events_gpu (h : Between l g) (m : ℕ) :
    (grow_events m).wp (gpuWorld K impl batch) (fun _ l' g' => Between l' g' ∧ m ≤ l'.ctx.h2d_done.length)
      (fun _ _ _ => True) l g := by
  unfold grow_events
  rw [Host.wp_bind, Host.wp_locals]
  split_ifs with hlt
  · have h₀ : Having ((l.ctx.kern_done ++ l.ctx.done) ++ l.ctx.h2d_done) g :=
      Having.of_perm ⟨h.wellFormed, h.idle, h.pools.nodup, h.pools.exist⟩
        (by rw [List.append_assoc]; exact List.perm_append_comm)
    refine Host.wp_seq (resize_gpu h₀ (Nat.le_of_lt hlt)) ?_ fun _ _ _ h => h
    rintro xs l g ⟨rfl, h₁, hxs⟩
    rw [Host.wp_bind, Host.wp_assign]
    have h₁ : Having ((xs ++ l.ctx.done) ++ l.ctx.kern_done) g :=
      h₁.of_perm (List.perm_append_comm.trans (by
        rw [List.append_assoc]
        exact List.Perm.append_left _ List.perm_append_comm))
    refine Host.wp_seq (resize_gpu h₁ (by rw [h.pools.kern_done]; exact Nat.le_of_lt hlt)) ?_ fun _ _ _ h => h
    rintro ys l₁ g ⟨rfl, h₂, hys⟩
    rw [Host.wp_bind, Host.wp_assign]
    have h₂ : Having ((xs ++ ys) ++ l.ctx.done) g :=
      h₂.of_perm (by
        rw [List.append_assoc, List.append_assoc]
        exact List.Perm.append_left _ List.perm_append_comm)
    refine Host.wp_seq (resize_gpu h₂ (by rw [h.pools.done]; exact Nat.le_of_lt hlt)) ?_ fun _ _ _ h => h
    rintro zs l₂ g ⟨rfl, h₃, hzs⟩
    rw [Host.wp_assign]
    exact ⟨⟨h₃.wellFormed, h₃.idle, ⟨h₃.nodup, h₃.exist, hys.trans hxs.symm, hzs.trans hxs.symm⟩⟩, hxs.ge⟩
  · exact ⟨h, Nat.le_of_not_lt hlt⟩

/-! ### Allocating and freeing -/

/-- `buf` is buffer `s` of a batch of `n` jobs. -/
structure IsBuf {B : Type} (n : ℕ) (buf : Ref Locals B) (view : B → Option Loc × ℕ) (s : ℕ × Buf) : Prop where
  get : ∀ l, view (buf.get l) = l.bufs s
  set : ∀ b l, l.execs.length = n → (buf.set b l).bufs = Function.update l.bufs s (view b)
  shape : ∀ b l, (buf.set b l).shape = l.shape

theorem exec_setExec {i : ℕ} (hi : i < l.execs.length) (f : JobBuffers → JobBuffers) (j : ℕ) :
    (Locals.setExec i f l).exec j = if j = i then f (l.exec j) else l.exec j := by
  rcases eq_or_ne j i with rfl | hne
  · rw [if_pos rfl, Locals.exec, Locals.exec, Locals.setExec, List.getD_eq_getElem?_getD, List.getD_eq_getElem?_getD,
      List.getElem?_modify, List.getElem?_eq_getElem hi]
    simp
  · rw [if_neg hne, Locals.exec, Locals.exec, Locals.setExec, List.getD_eq_getElem?_getD, List.getD_eq_getElem?_getD,
      List.getElem?_modify]
    simp [Ne.symm hne]

/-- Assigning to one buffer of a job. -/
theorem bufs_setExec {i : ℕ} (hi : i < l.execs.length) {f : JobBuffers → JobBuffers} {w : Buf} {v : Option Loc × ℕ}
    (hf : ∀ e, (f e).buf w = v ∧ ∀ w', w' ≠ w → (f e).buf w' = e.buf w') :
    (Locals.setExec i f l).bufs = Function.update l.bufs (i, w) v := by
  funext ⟨j, w'⟩
  rw [Locals.bufs, exec_setExec hi]
  rcases eq_or_ne j i with rfl | hne
  · rw [if_pos rfl]
    rcases eq_or_ne w' w with rfl | hw
    · rw [Function.update_self]
      exact (hf _).1
    · rw [Function.update_of_ne (by simp [hw])]
      exact (hf _).2 w' hw
  · rw [if_neg hne, Function.update_of_ne (by simp [hne])]
    rfl

/-- A field of the buffers of a job that holds buffer `w`. -/
theorem isBuf_of_field {B : Type} {buf : Ref Locals B} {view : B → Option Loc × ℕ} {i : ℕ} {w : Buf} (hi : i < n)
    {field : B → JobBuffers → JobBuffers} (hget : ∀ l, view (buf.get l) = l.bufs (i, w))
    (hset : ∀ b, buf.set b = Locals.setExec i (field b))
    (hfield : ∀ b e, (field b e).buf w = view b ∧ ∀ w', w' ≠ w → (field b e).buf w' = e.buf w') :
    IsBuf n buf view (i, w) := by
  refine ⟨hget, fun b l hl => ?_, fun b l => ?_⟩
  · rw [hset]
    exact bufs_setExec (hl ▸ hi) (hfield b)
  · rw [hset]
    exact shape_setExec _ _ _

section

variable {i : ℕ} (hi : i < n)
include hi

theorem isBuf_da : IsBuf n (da i) DeviceBuffer.view (i, .da) :=
  isBuf_of_field hi (fun _ => rfl) (fun _ => rfl) fun _ _ =>
    ⟨rfl, fun w hw => by cases w <;> first | rfl | contradiction⟩

theorem isBuf_db : IsBuf n (db i) DeviceBuffer.view (i, .db) :=
  isBuf_of_field hi (fun _ => rfl) (fun _ => rfl) fun _ _ =>
    ⟨rfl, fun w hw => by cases w <;> first | rfl | contradiction⟩

theorem isBuf_dc : IsBuf n (dc i) DeviceBuffer.view (i, .dc) :=
  isBuf_of_field hi (fun _ => rfl) (fun _ => rfl) fun _ _ =>
    ⟨rfl, fun w hw => by cases w <;> first | rfl | contradiction⟩

theorem isBuf_ha : IsBuf n (ha i) PinnedHostBuffer.view (i, .ha) :=
  isBuf_of_field hi (fun _ => rfl) (fun _ => rfl) fun _ _ =>
    ⟨rfl, fun w hw => by cases w <;> first | rfl | contradiction⟩

theorem isBuf_hb : IsBuf n (hb i) PinnedHostBuffer.view (i, .hb) :=
  isBuf_of_field hi (fun _ => rfl) (fun _ => rfl) fun _ _ =>
    ⟨rfl, fun w hw => by cases w <;> first | rfl | contradiction⟩

theorem isBuf_hc : IsBuf n (hc i) PinnedHostBuffer.view (i, .hc) :=
  isBuf_of_field hi (fun _ => rfl) (fun _ => rfl) fun _ _ =>
    ⟨rfl, fun w hw => by cases w <;> first | rfl | contradiction⟩

end

/-- The step from one set of buffers to another when `s` alone has changed. -/
structure Changed (n : ℕ) (s : ℕ × Buf) (l l' : Locals) (g' : Gpu) : Prop where
  ready : Ready n l' g'
  others : ∀ s', s' ≠ s → l'.bufs s' = l.bufs s'

theorem device_free_gpu (b : DeviceBuffer) (h : Ready n l g) :
    (DeviceBuffer.free b).wp (gpuWorld K impl batch) (fun _ l' g' => l' = l ∧ g' = g.freed (DeviceBuffer.view b).1 ∧
      g'.dev.Idle)
      (fun _ _ _ => False) l g := by
  unfold DeviceBuffer.free DeviceBuffer.view
  cases b.data_ with
  | none => exact ⟨rfl, rfl, h.idle⟩
  | some p =>
    refine idle_call h.idle (Device.Idle.not_busy h.idle _) ?_
    rintro _ g' rfl
    exact ⟨rfl, rfl, h.idle⟩

theorem pinned_free_gpu (b : PinnedHostBuffer) (h : Ready n l g) :
    (PinnedHostBuffer.free b).wp (gpuWorld K impl batch)
      (fun _ l' g' => l' = l ∧ g' = g.freed (PinnedHostBuffer.view b).1 ∧ g'.dev.Idle) (fun _ _ _ => False) l g := by
  unfold PinnedHostBuffer.free PinnedHostBuffer.view
  cases b.data_ with
  | none => exact ⟨rfl, rfl, h.idle⟩
  | some p =>
    refine idle_call h.idle (Device.Idle.not_busy h.idle _) ?_
    rintro _ g' rfl
    exact ⟨rfl, rfl, h.idle⟩

/-- A buffer whose allocation has been freed is empty. -/
theorem Ready.released {B : Type} {self : Ref Locals B} {view : B → Option Loc × ℕ} (h : Ready n l g)
    (hs : IsBuf n self view s) {b : B} (hb : view b = (none, 0)) :
    Changed n s l (self.set b l) (g.freed (l.bufs s).1) ∧ (self.set b l).bufs s = (none, 0) := by
  have hset : (self.set b l).bufs = Function.update l.bufs s (none, 0) := hb ▸ hs.set b l h.length
  refine ⟨⟨h.freed hset (hs.shape _ _), fun s' hne => ?_⟩, ?_⟩
  · rw [hset, Function.update_of_ne hne]
  · rw [hset, Function.update_self]

theorem device_release_gpu {self : Ref Locals DeviceBuffer} (hs : IsBuf n self DeviceBuffer.view s) (h : Ready n l g) :
    (DeviceBuffer.release self).wp (gpuWorld K impl batch)
      (fun _ l' g' => Changed n s l l' g' ∧ l'.bufs s = (none, 0)) (fun _ _ _ => False) l g := by
  unfold DeviceBuffer.release
  rw [Host.wp_bind, Host.wp_locals]
  refine Host.wp_seq (device_free_gpu _ h) ?_ fun _ _ _ h => h
  rintro _ l₁ _ ⟨rfl, rfl, -⟩
  rw [Host.wp_assign, hs.get]
  exact h.released hs rfl

theorem pinned_release_gpu {self : Ref Locals PinnedHostBuffer} (hs : IsBuf n self PinnedHostBuffer.view s)
    (h : Ready n l g) :
    (PinnedHostBuffer.release self).wp (gpuWorld K impl batch)
      (fun _ l' g' => Changed n s l l' g' ∧ l'.bufs s = (none, 0)) (fun _ _ _ => False) l g := by
  unfold PinnedHostBuffer.release
  rw [Host.wp_bind, Host.wp_locals]
  refine Host.wp_seq (pinned_free_gpu _ h) ?_ fun _ _ _ h => h
  rintro _ l₁ _ ⟨rfl, rfl, -⟩
  rw [Host.wp_assign, hs.get]
  exact h.released hs rfl

theorem fits_zero {count : ℕ} {v : Option Loc × ℕ} (hv : v = (none, 0)) (hc : count = 0) : Fits count v := by
  rw [hv]
  exact ⟨hc.symm, by simp [hc]⟩

/-- A released buffer adopts an allocation of `count` elements, or stays empty. -/
theorem Changed.adopt {B : Type} {self : Ref Locals B} {view : B → Option Loc × ℕ} (hs : IsBuf n self view s)
    {l₁ : Locals}
    (h : Changed n s l l₁ g) (hnone : l₁.bufs s = (none, 0)) {loc : Loc} {count : ℕ} (hc : count ≠ 0)
    (hfresh : g.live loc = none) {b : B} (hb : view b = (some loc, count)) :
    Changed n s l (self.set b l₁) { g with live := Function.update g.live loc (some (mulSize count 4)) } ∧
      Fits count ((self.set b l₁).bufs s) := by
  have hset : (self.set b l₁).bufs = Function.update l₁.bufs s (some loc, count) := hb ▸ hs.set b l₁ h.ready.length
  refine ⟨⟨h.ready.filled (by rw [hnone]) hfresh hset (hs.shape _ _), fun s' hne => ?_⟩, ?_⟩
  · rw [hset, Function.update_of_ne hne, h.others s' hne]
  · rw [hset, Function.update_self]
    exact ⟨rfl, by simp [hc]⟩

theorem Changed.empty {B : Type} {self : Ref Locals B} {view : B → Option Loc × ℕ} (hs : IsBuf n self view s)
    {l₁ : Locals}
    (h : Changed n s l l₁ g) (hnone : l₁.bufs s = (none, 0)) {b : B} (hb : view b = (none, 0)) :
    Changed n s l (self.set b l₁) g := by
  obtain ⟨⟨hr, hothers⟩, -⟩ := h.ready.released hs hb
  rw [hnone] at hr
  exact ⟨hr, fun s' hne => (hothers s' hne).trans (h.others s' hne)⟩

theorem try_allocate_gpu {self : Ref Locals DeviceBuffer} (hs : IsBuf n self DeviceBuffer.view s) (count : ℕ)
    (h : Ready n l g) :
    (DeviceBuffer.try_allocate self count).wp (gpuWorld K impl batch)
      (fun r l' g' => Changed n s l l' g' ∧ (r = .ok () → Fits count (l'.bufs s))) (fun _ _ _ => False) l g := by
  unfold DeviceBuffer.try_allocate DeviceBuffer.try_allocate_of
  refine Host.wp_seq (device_release_gpu hs h) ?_ fun _ _ _ h => h
  rintro _ l₁ g₁ ⟨h₁, hnone⟩
  split_ifs with hc
  · exact ⟨h₁, fun _ => fits_zero hnone hc⟩
  · rw [Host.wp_bind]
    refine idle_call h₁.ready.idle trivial ?_
    rintro (err | p) g₂ hr
    · obtain rfl := hr
      exact ⟨h₁.empty hs hnone rfl, fun he => by cases he⟩
    · obtain ⟨hfresh, rfl⟩ := hr
      obtain ⟨hch, hfit⟩ := h₁.adopt hs hnone hc hfresh (b := ⟨some p, count⟩) rfl
      exact ⟨hch, fun _ => hfit⟩

theorem pinned_allocate_gpu {self : Ref Locals PinnedHostBuffer} (hs : IsBuf n self PinnedHostBuffer.view s) (count : ℕ)
    (h : Ready n l g) :
    (PinnedHostBuffer.allocate self count).wp (gpuWorld K impl batch)
      (fun _ l' g' => Changed n s l l' g' ∧ Fits count (l'.bufs s)) (fun _ => Ready n) l g := by
  unfold PinnedHostBuffer.allocate PinnedHostBuffer.allocate_of
  refine Host.wp_seq (pinned_release_gpu hs h) ?_ fun _ _ _ h => h.elim
  rintro _ l₁ g₁ ⟨h₁, hnone⟩
  split_ifs with hc
  · exact ⟨h₁, fits_zero hnone hc⟩
  · rw [Host.wp_bind]
    refine idle_call h₁.ready.idle trivial ?_
    rintro (err | p) g₂ hr
    · obtain rfl := hr
      exact h₁.ready
    · obtain ⟨hfresh, rfl⟩ := hr
      exact h₁.adopt hs hnone hc hfresh (b := ⟨some p, count⟩) rfl

/-! ### The batch -/

/-- Job `i` has some of the buffers it needs, and the others are as in `l₀`. -/
structure Filling (n : ℕ) (l₀ : Locals) (i : ℕ) (job : InferenceJob) (ws : List Buf) (l : Locals) (g : Gpu) : Prop where
  ready : Ready n l g
  others : ∀ s, s.1 ≠ i → l.bufs s = l₀.bufs s
  fits : ∀ w ∈ ws, Fits (need job w) (l.bufs (i, w))

theorem Filling.step {l₀ : Locals} {i : ℕ} {job : InferenceJob} {ws : List Buf} {w : Buf}
    (h : Filling n l₀ i job ws l g) (hw : w ∉ ws) (hc : Changed n (i, w) l l' g')
    (hfit : Fits (need job w) (l'.bufs (i, w))) :
    Filling n l₀ i job (w :: ws) l' g' := by
  refine ⟨hc.ready, fun s hs => ?_, fun w' hw' => ?_⟩
  · rw [hc.others s (fun he => hs (he ▸ rfl)), h.others s hs]
  · rcases List.mem_cons.mp hw' with rfl | hw'
    · exact hfit
    · rw [hc.others (i, w') (by rintro ⟨⟩; exact hw hw')]
      exact h.fits w' hw'

section

variable {l₀ : Locals} {i : ℕ} {job : InferenceJob} {ws : List Buf} {w : Buf}

/-- One of the device allocations of a job, and what follows it. -/
theorem orBreak_gpu {self : Ref Locals DeviceBuffer} {rest : WorkerM Status} {Q : Status → Locals → Gpu → Prop}
    (hs : IsBuf n self DeviceBuffer.view (i, w)) (hw : w ∉ ws) (h : Filling n l₀ i job ws l g)
    (herr : ∀ err l g, Ready n l g → Q (.error err) l g)
    (hrest : ∀ l g, Filling n l₀ i job (w :: ws) l g → rest.wp (gpuWorld K impl batch) Q (fun _ => Ready n) l g) :
    (orBreak (DeviceBuffer.try_allocate self (need job w)) rest).wp (gpuWorld K impl batch) Q (fun _ => Ready n)
      l g := by
  refine Host.wp_seq (try_allocate_gpu hs _ h.ready) ?_ fun _ _ _ h => h.elim
  rintro (err | _) l₁ g₁ ⟨hc, hfit⟩
  · exact herr err l₁ g₁ hc.ready
  · exact hrest l₁ g₁ (h.step hw hc (hfit rfl))

theorem pinned_filling_gpu {self : Ref Locals PinnedHostBuffer} (hs : IsBuf n self PinnedHostBuffer.view (i, w))
    (hw : w ∉ ws)
    (h : Filling n l₀ i job ws l g) :
    (PinnedHostBuffer.allocate self (need job w)).wp (gpuWorld K impl batch) (fun _ => Filling n l₀ i job (w :: ws))
      (fun _ => Ready n) l g :=
  Host.wp_mono (pinned_allocate_gpu hs _ h.ready) (fun _ _ _ hc => h.step hw hc.1 hc.2) fun _ _ _ h => h

end

/-- A job has the buffers it needs. -/
def Fitted (job : InferenceJob) (i : ℕ) (l : Locals) : Prop := ∀ w, Fits (need job w) (l.bufs (i, w))

theorem allocate_job_gpu {i : ℕ} {job : InferenceJob} (hi : i < n) (h : Ready n l g) :
    (allocate_job i job).wp (gpuWorld K impl batch)
      (fun r l' g' => Ready n l' g' ∧ (r = .ok () → Fitted job i l' ∧ ∀ s, s.1 ≠ i → l'.bufs s = l.bufs s))
      (fun _ => Ready n) l g := by
  have herr : ∀ (err : CudaError) (l' : Locals) (g' : Gpu), Ready n l' g' → Ready n l' g' ∧
      ((Except.error err : Status) = .ok () → Fitted job i l' ∧ ∀ s, s.1 ≠ i → l'.bufs s = l.bufs s) :=
    fun _ _ _ h => ⟨h, fun he => by cases he⟩
  have h₀ : Filling n l i job [] l g := ⟨h, fun _ _ => rfl, by simp⟩
  refine orBreak_gpu (w := .da) (isBuf_da hi) (by simp) h₀ herr fun l₁ g₁ h => ?_
  refine orBreak_gpu (w := .db) (isBuf_db hi) (by simp) h herr fun l₁ g₁ h => ?_
  refine orBreak_gpu (w := .dc) (isBuf_dc hi) (by simp) h herr fun l₁ g₁ h => ?_
  refine Host.wp_seq (pinned_filling_gpu (w := .ha) (isBuf_ha hi) (by simp) h) ?_ fun _ _ _ h => h
  intro _ l₁ g₁ h
  refine Host.wp_seq (pinned_filling_gpu (w := .hb) (isBuf_hb hi) (by simp) h) ?_ fun _ _ _ h => h
  intro _ l₁ g₁ h
  refine Host.wp_seq (pinned_filling_gpu (w := .hc) (isBuf_hc hi) (by simp) h) ?_ fun _ _ _ h => h
  intro _ l₁ g₁ h
  exact ⟨h.ready, fun _ => ⟨fun w => h.fits w (by cases w <;> simp), h.others⟩⟩

theorem allocate_jobs_gpu {i : ℕ} {jobs : List InferenceJob} (hn : batch.length = n) (hi : batch.drop i = jobs)
    (h : Ready n l g) :
    (allocate_jobs i jobs).wp (gpuWorld K impl batch)
      (fun r l' g' => Ready n l' g' ∧ (r = .ok () → (∀ j job, i ≤ j → batch[j]? = some job → Fitted job j l') ∧
        ∀ s, s.1 < i → l'.bufs s = l.bufs s)) (fun _ => Ready n) l g := by
  induction jobs generalizing i l g with
  | nil =>
    refine ⟨h, fun _ => ⟨fun j job hij hj => ?_, fun _ _ => rfl⟩⟩
    have hlen := (List.getElem?_eq_some_iff.mp hj).1
    have := congrArg List.length hi
    simp only [List.length_drop, List.length_nil] at this
    omega
  | cons job jobs ih =>
    obtain ⟨hjob, hrest⟩ := getElem?_of_drop hi
    have hlt : i < n := hn ▸ (List.getElem?_eq_some_iff.mp hjob).1
    refine Host.wp_seq (allocate_job_gpu hlt h) ?_ fun _ _ _ h => h
    rintro (err | _) l₁ g₁ ⟨h₁, hok⟩
    · exact ⟨h₁, fun he => by cases he⟩
    · obtain ⟨hfit, hothers⟩ := hok rfl
      refine Host.wp_mono (ih hrest h₁) ?_ fun _ _ _ h => h
      rintro r l₂ g₂ ⟨h₂, hok₂⟩
      refine ⟨h₂, fun hr => ?_⟩
      obtain ⟨hfits, hkept⟩ := hok₂ hr
      refine ⟨fun j job' hij hj => ?_, fun s hs => ?_⟩
      · rcases Nat.eq_or_lt_of_le hij with rfl | hlt
        · obtain rfl := Option.some.inj (hj.symm.trans hjob)
          intro w
          rw [hkept (i, w) (Nat.lt_succ_self i)]
          exact hfit w
        · exact hfits j job' hlt hj
      · rw [hkept s (by omega), hothers s (by omega)]

theorem release_buf_gpu {i : ℕ} (hi : i < n) (w : Buf) (h : Ready n l g) :
    (release_buf i w).wp (gpuWorld K impl batch) (fun _ => Ready n) (fun _ _ _ => False) l g := by
  have hdevice : ∀ {self : Ref Locals DeviceBuffer} {s : ℕ × Buf}, IsBuf n self DeviceBuffer.view s →
      (DeviceBuffer.release self).wp (gpuWorld K impl batch) (fun _ => Ready n) (fun _ _ _ => False) l g :=
    fun hs => Host.wp_mono (device_release_gpu hs h) (fun _ _ _ h => h.1.ready) fun _ _ _ h => h
  have hpinned : ∀ {self : Ref Locals PinnedHostBuffer} {s : ℕ × Buf}, IsBuf n self PinnedHostBuffer.view s →
      (PinnedHostBuffer.release self).wp (gpuWorld K impl batch) (fun _ => Ready n) (fun _ _ _ => False) l g :=
    fun hs => Host.wp_mono (pinned_release_gpu hs h) (fun _ _ _ h => h.1.ready) fun _ _ _ h => h
  cases w with
  | da => exact hdevice (isBuf_da hi)
  | db => exact hdevice (isBuf_db hi)
  | dc => exact hdevice (isBuf_dc hi)
  | ha => exact hpinned (isBuf_ha hi)
  | hb => exact hpinned (isBuf_hb hi)
  | hc => exact hpinned (isBuf_hc hi)

theorem release_jobs_gpu (order : List Buf) (h : Ready n l g) :
    (release_jobs order n).wp (gpuWorld K impl batch) (fun _ => Ready n) (fun _ _ _ => False) l g := by
  refine Host.wp_forEach (fun i hi l g h => ?_) h
  exact Host.wp_forEach (fun w _ _ _ h => release_buf_gpu (List.mem_range.mp hi) w h) h

theorem allocate_attempt_gpu {again : Option (WorkerM Status)}
    (hagain : ∀ p ∈ again, ∀ l g, Ready batch.length l g → p.wp (gpuWorld K impl batch)
      (fun r l' g' => Ready batch.length l' g' ∧ (r = .ok () → ∀ j job, batch[j]? = some job → Fitted job j l'))
      (fun _ => Ready batch.length) l g) (h : Ready batch.length l g) :
    (allocate_attempt batch again).wp (gpuWorld K impl batch)
      (fun r l' g' => Ready batch.length l' g' ∧ (r = .ok () → ∀ j job, batch[j]? = some job → Fitted job j l'))
      (fun _ => Ready batch.length) l g := by
  have haside : ∀ {c : Call} (hc : aside c = true) {l : Locals} {g : Gpu}, Ready batch.length l g →
      (call c : WorkerM c.Ret).wp (gpuWorld K impl batch) (fun _ l' g' => l' = l ∧ Ready batch.length l' g')
        (fun _ l' g' => l' = l ∧ Ready batch.length l' g') l g :=
    fun hc _ _ h => ready_aside (Host.within_call hc) h
  unfold allocate_attempt
  refine Host.wp_seq (allocate_jobs_gpu rfl rfl h) ?_ fun _ _ _ h => h
  rintro (err | _) l g ⟨h, hok⟩
  · refine Host.wp_seq (release_jobs_gpu _ h) ?_ fun _ _ _ h => h.elim
    rintro _ l g h
    refine Host.wp_seq (haside (c := .cudaGetLastError) rfl h) ?_ fun _ _ _ h => h.2
    rintro _ l g ⟨-, h⟩
    split
    · refine Host.wp_seq (haside (c := .add_alloc_retry) rfl h) ?_ fun _ _ _ h => h.2
      rintro _ l g ⟨-, h⟩
      refine Host.wp_seq (haside (c := .sleep_for 25) rfl h) ?_ fun _ _ _ h => h.2
      rintro _ l g ⟨-, h⟩
      exact hagain _ rfl l g h
    · exact ⟨h, fun he => by cases he⟩
  · exact ⟨h, fun _ j job hj => (hok rfl).1 j job (Nat.zero_le j) hj⟩

/-- **Allocation**: if the attempts succeed every job has the buffers it needs. -/
theorem allocate_attempts_gpu (left : ℕ) (h : Ready batch.length l g) :
    (allocate_attempts batch left).wp (gpuWorld K impl batch)
      (fun r l' g' => Ready batch.length l' g' ∧ (r = .ok () → ∀ j job, batch[j]? = some job → Fitted job j l'))
      (fun _ => Ready batch.length) l g := by
  induction left generalizing l g with
  | zero => exact allocate_attempt_gpu (by simp) h
  | succ left ih =>
    refine allocate_attempt_gpu ?_ h
    rintro p ⟨⟩ l g h
    exact ih h

theorem throw_unless_allocated_gpu (err : Status) (h : Ready n l g) :
    (throw_unless_allocated err).wp (gpuWorld K impl batch) (fun _ l' g' => l' = l ∧ Ready n l' g' ∧ err = .ok ())
      (fun _ => Ready n) l g := by
  rcases err with (_ | _) | ⟨⟩
  · exact Host.wp_seq (ready_aside (Host.within_call rfl) h) (fun _ _ _ h => h.2) fun _ _ _ h => h.2
  · exact h
  · exact ⟨rfl, h, rfl⟩

/-- The buffers with which a batch begins. -/
theorem bufs_replicate (n : ℕ) (l : Locals) (x : ℕ × Buf) :
    ({ l with execs := List.replicate n {} } : Locals).bufs x = (none, 0) := by
  obtain ⟨i, w⟩ := x
  have hexec : ({ l with execs := List.replicate n {} } : Locals).exec i = {} := by
    simp only [Locals.exec, List.getD_eq_getElem?_getD, List.getElem?_replicate]
    split_ifs <;> rfl
  rw [Locals.bufs, hexec]
  cases w <;> rfl

theorem Between.ready (h : Between l g) (hn : n ≤ l.ctx.h2d_done.length) :
    Ready n { l with execs := List.replicate n {} } g := by
  refine ⟨⟨h.wellFormed, ⟨fun s loc hs => ?_, fun s s' loc hs => ?_⟩, h.pools, hn, List.length_replicate⟩, h.idle⟩
  all_goals
    rw [bufs_replicate] at hs
    cases hs

end Gbis.Sched
