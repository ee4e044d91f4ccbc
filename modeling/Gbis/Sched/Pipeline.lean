import Gbis.Sched.InOrder
import Mathlib.Data.List.GetD

/-!
# The three-stream pipeline

What `execute_batch` issues for a batch is one sequence of operations, nine for each job
(`jobOp`): the copies of `A` and `B` and the record of `h2d_done`, on the first stream; the
wait for it, the kernel and the record of `kern_done`, on the second; the wait for that, the
copy of `C` and the record of `done`, on the third. Each of the nine awaits the one before,
by the order of its stream or by an event (`Pipe.awaits_next`), and nothing orders the
operations of different jobs but the streams. So a job's own operations form a chain, and
in every order the GPU may choose each buffer receives what its one writer is to give it
(`Pipe.stable`).

The host is ahead of the GPU by as much as it likes. `Pipe` says what is known at each of
its calls, and `pipeline_safe` is the result: in every state that a worker and its GPU
reach, over any batches and any failures, the next call is safe.
-/

namespace Gbis.Sched

open Gbis.Core Library

/-! ### What is issued -/

/-- Operation `r` of the nine of job `i`. -/
def jobOp (impl : Impl) (batch : List InferenceJob) (ctx : WorkerContext) (bufs : Bufs) (i : ℕ) : ℕ → GpuOp
  | 0 => ⟨ctx.h2d_stream, .work (.copy (bufs (i, .da)).1 (bufs (i, .ha)).1)⟩
  | 1 => ⟨ctx.h2d_stream, .work (.copy (bufs (i, .db)).1 (bufs (i, .hb)).1)⟩
  | 2 => ⟨ctx.h2d_stream, .record (ctx.h2d_done.getD i 0)⟩
  | 3 => ⟨ctx.compute_stream, .wait (ctx.h2d_done.getD i 0)⟩
  | 4 =>
    let job := batch.getD i default
    ⟨ctx.compute_stream,
      .work (.gemm impl (bufs (i, .da)).1 (bufs (i, .db)).1 (bufs (i, .dc)).1 job.m job.n job.k job.batch)⟩
  | 5 => ⟨ctx.compute_stream, .record (ctx.kern_done.getD i 0)⟩
  | 6 => ⟨ctx.d2h_stream, .wait (ctx.kern_done.getD i 0)⟩
  | 7 => ⟨ctx.d2h_stream, .work (.copy (bufs (i, .hc)).1 (bufs (i, .dc)).1)⟩
  | _ => ⟨ctx.d2h_stream, .record (ctx.done.getD i 0)⟩

/-- The `k`-th operation of the batch. -/
def pipelineOp (impl : Impl) (batch : List InferenceJob) (ctx : WorkerContext) (bufs : Bufs) (k : ℕ) : GpuOp :=
  jobOp impl batch ctx bufs (k / 9) (k % 9)

/-- The buffer operation `r` of a job writes. -/
def targetBuf : ℕ → Option Buf
  | 0 => some .da
  | 1 => some .db
  | 4 => some .dc
  | 7 => some .hc
  | _ => none

/-- What a buffer of a job is to receive. -/
def result (K : Kernels) (impl : Impl) (job : InferenceJob) : Buf → Floats
  | .da | .ha => inputA K job
  | .db | .hb => inputB K job
  | .dc | .hc => product K impl job

variable {K : Kernels} {impl : Impl} {batch : List InferenceJob} {n base k f i j r : ℕ} {l l' : Locals} {g g' : Gpu}
  {bufs : Bufs} {ctx : WorkerContext} {m : Contents} {s : ℕ × Buf} {job : InferenceJob}

theorem targetBuf_inj {w : Buf} {r' : ℕ} (h : targetBuf r = some w) (h' : targetBuf r' = some w) : r = r' := by
  unfold targetBuf at h h'
  split at h <;> cases h <;> split at h' <;> first | rfl | cases h'

theorem pipelineOp_add (hr : r < 9) : pipelineOp impl batch ctx bufs (9 * i + r) = jobOp impl batch ctx bufs i r := by
  rw [pipelineOp, show (9 * i + r) / 9 = i by omega, show (9 * i + r) % 9 = r by omega]

/-- A buffer of nothing is null, so reading a buffer that has been written gives what was written. -/
theorem Contents.read_write {v : Floats} {dst : Option Loc} (h : dst = none → v = []) :
    (m.write v dst).read dst = v := by
  cases dst with
  | none => exact (h rfl).symm
  | some loc => exact Function.update_self _ _ _

/-- Writing one buffer of the batch leaves the others. -/
theorem Contents.read_write_of_ne (ho : Owns bufs g) {v : Floats} {s' : ℕ × Buf} (hne : s' ≠ s) :
    (m.write v (bufs s).1).read (bufs s').1 = m.read (bufs s').1 := by
  cases hs : (bufs s).1 with
  | none => rfl
  | some loc =>
    cases hs' : (bufs s').1 with
    | none => rfl
    | some loc' =>
      refine Function.update_of_ne (fun he => hne ?_) _ _
      exact ho.inj s' s loc' hs' (he ▸ hs)

/-- Operations change the memory by writing their target, if they have one. -/
theorem exists_write (r : ℕ) :
    Device.effect (Work.run K) (jobOp impl batch ctx bufs i r).op m = m ∨
      ∃ w v, targetBuf r = some w ∧
        Device.effect (Work.run K) (jobOp impl batch ctx bufs i r).op m = m.write v (bufs (i, w)).1 := by
  match r with
  | 0 | 1 | 4 | 7 => exact .inr ⟨_, _, rfl, rfl⟩
  | 2 | 3 | 5 | 6 | 8 => exact .inl rfl
  | _ + 9 => exact .inl rfl

/-- The buffers that operations use are buffers of their job. -/
theorem exists_buf_of_mem_uses {st : Option ℕ} {w : Work} {p : Option Loc}
    (hw : jobOp impl batch ctx bufs i r = ⟨st, .work w⟩) (hp : p ∈ w.uses) : ∃ b, p = (bufs (i, b)).1 := by
  match r with
  | 0 | 1 | 7 =>
    cases hw
    simp only [Work.uses, List.mem_cons, List.not_mem_nil, or_false] at hp
    rcases hp with rfl | rfl <;> exact ⟨_, rfl⟩
  | 4 =>
    cases hw
    simp only [Work.uses, List.mem_cons, List.not_mem_nil, or_false] at hp
    rcases hp with rfl | rfl | rfl <;> exact ⟨_, rfl⟩
  | 2 | 3 | 5 | 6 | 8 | _ + 9 => cases hw

/-! ### What is known while the pipeline runs -/

/-- What the buffers of job `i` that need `r` hold. -/
def Computed (K : Kernels) (impl : Impl) (batch : List InferenceJob) (bufs : Bufs) (j : ℕ) (m : Contents) : Prop :=
  ∀ job w, batch[j / 9]? = some job → targetBuf (j % 9) = some w → m.read (bufs (j / 9, w)).1 = result K impl job w

/-- The state of a turn in which `k` operations have been issued, after `base` of earlier
turns, and the inputs of `f` jobs have been filled. -/
structure Pipe (K : Kernels) (impl : Impl) (batch : List InferenceJob) (base k f : ℕ) (l : Locals) (g : Gpu) : Prop
    extends Sound batch.length l g where
  fitted : ∀ j job, batch[j]? = some job → Fitted job j l
  issued : ∃ earlier, earlier.length = base ∧
    g.dev.issued = earlier ++ (List.range k).map (pipelineOp impl batch l.ctx l.bufs)
  earlier : ∀ j < base, j ∈ g.dev.finished
  covered : ∀ j < k, j / 9 < f
  bound : f ≤ batch.length
  filled : ∀ i job, i < f → batch[i]? = some job →
    g.dev.memory.read (l.bufs (i, .ha)).1 = inputA K job ∧ g.dev.memory.read (l.bufs (i, .hb)).1 = inputB K job
  values : ∀ j, base + j ∈ g.dev.finished → Computed K impl batch l.bufs j g.dev.memory

namespace Pipe

theorem length_issued (h : Pipe K impl batch base k f l g) : g.dev.issued.length = base + k := by
  obtain ⟨earlier, hlen, he⟩ := h.issued
  simp [he, hlen]

theorem getElem?_issued (h : Pipe K impl batch base k f l g) (hj : j < k) :
    g.dev.issued[base + j]? = some (pipelineOp impl batch l.ctx l.bufs j) := by
  obtain ⟨earlier, hlen, he⟩ := h.issued
  rw [he, List.getElem?_append_right (by omega), show base + j - earlier.length = j by omega, List.getElem?_map,
    List.getElem?_range hj]
  rfl

/-- What has been issued and not finished belongs to the batch. -/
theorem exists_of_not_finished (h : Pipe K impl batch base k f l g) {x : GpuOp} {idx : ℕ}
    (hx : g.dev.issued[idx]? = some x)
    (hn : idx ∉ g.dev.finished) : ∃ j < k, idx = base + j ∧ x = pipelineOp impl batch l.ctx l.bufs j := by
  have hlt : idx < base + k := h.length_issued ▸ (List.getElem?_eq_some_iff.mp hx).1
  have hle : base ≤ idx := Nat.le_of_not_lt fun hlt => hn (h.earlier idx hlt)
  obtain ⟨j, rfl⟩ := Nat.exists_eq_add_of_le hle
  refine ⟨j, by omega, rfl, ?_⟩
  rw [h.getElem?_issued (by omega)] at hx
  exact (Option.some.inj hx).symm

/-- **Each operation of a job awaits the one before.** -/
theorem awaits_next (h : Pipe K impl batch base k f l g) (hr : r < 8) (hk : 9 * i + (r + 1) < k) :
    Awaits g.dev.issued (base + (9 * i + r) + 1) (base + (9 * i + r)) := by
  have h₁ := h.getElem?_issued (j := 9 * i + r) (by omega)
  have h₂ := h.getElem?_issued hk
  rw [pipelineOp_add (by omega)] at h₁ h₂
  have h₂ : g.dev.issued[base + (9 * i + r) + 1]? = _ := h₂
  -- the last record before a wait is the operation just before it
  have hlast : ∀ {s : Option ℕ} {e : ℕ}, g.dev.issued[base + (9 * i + r)]? = some ⟨s, .record e⟩ →
      LastRecord g.dev.issued e (base + (9 * i + r) + 1) (base + (9 * i + r)) :=
    fun hs => ⟨Nat.lt_succ_self _, ⟨_, hs⟩, fun k h₁ h₂ => by omega⟩
  match r with
  | 0 | 1 | 3 | 4 | 6 | 7 => exact .stream (Nat.lt_succ_self _) h₁ h₂
  | 2 | 5 => exact .event h₂ (hlast h₁)

/-- Once an operation of a job has finished, so have the job's earlier ones. -/
theorem finished_of_le (h : Pipe K impl batch base k f l g) {q : ℕ} (hr : r ≤ q) (hq : q < 9) (hk : 9 * i + q < k)
    (hf : base + (9 * i + q) ∈ g.dev.finished) : base + (9 * i + r) ∈ g.dev.finished := by
  refine h.wellFormed.chain (a := base + 9 * i) (b := base + (9 * i + q)) (fun idx ha hb => ?_) hf _
    (by omega) (by omega)
  obtain ⟨p, rfl⟩ := Nat.exists_eq_add_of_le ha
  rw [Nat.add_assoc base (9 * i) p]
  exact h.awaits_next (r := p) (by omega) (by omega)

/-- What the operation being finished finds: what its job's earlier operations have left. -/
theorem value_of_awaits (h : Pipe K impl batch base k f l g) (hr : r < 8) (hk : 9 * i + (r + 1) < k)
    (hawait : ∀ j, Awaits g.dev.issued (base + (9 * i + (r + 1))) j → j ∈ g.dev.finished) (hjob : batch[i]? = some job)
    {q : ℕ} (hq : q ≤ r) {w : Buf} (hw : targetBuf q = some w) :
    g.dev.memory.read (l.bufs (i, w)).1 = result K impl job w := by
  have hf : base + (9 * i + r) ∈ g.dev.finished := hawait _ (h.awaits_next hr hk)
  have hv := h.values (9 * i + q) (h.finished_of_le hq (by omega) (by omega) hf) job w
  rw [show (9 * i + q) / 9 = i by omega, show (9 * i + q) % 9 = q by omega] at hv
  exact hv hjob hw

/-- An operation that is finished writes what it is to write. -/
theorem computed_finish (h : Pipe K impl batch base k f l g) (hj : j < k)
    (hawait : ∀ j', Awaits g.dev.issued (base + j) j' → j' ∈ g.dev.finished) :
    Computed K impl batch l.bufs j
      (Device.effect (Work.run K) (pipelineOp impl batch l.ctx l.bufs j).op g.dev.memory) := by
  intro job w hjob hw
  obtain ⟨i, r, hr, rfl⟩ : ∃ i r, r < 9 ∧ j = 9 * i + r :=
    ⟨j / 9, j % 9, Nat.mod_lt _ (by decide), (Nat.div_add_mod j 9).symm⟩
  rw [show (9 * i + r) / 9 = i by omega] at hjob ⊢
  rw [show (9 * i + r) % 9 = r by omega] at hw
  rw [pipelineOp_add hr]
  have hfit := h.fitted i job hjob
  have hi : i < f := by
    have := h.covered (9 * i + r) hj
    omega
  obtain ⟨hA, hB⟩ := h.filled i job hi hjob
  have hbatch : batch.getD i default = job := by rw [List.getD_eq_getElem?_getD, hjob]; rfl
  match r with
  | 0 =>
    cases hw
    change (g.dev.memory.write (g.dev.memory.read (l.bufs (i, .ha)).1) (l.bufs (i, .da)).1).read (l.bufs (i, .da)).1 = _
    rw [hA]
    exact Contents.read_write fun hnone => if_pos ((hfit .da).2.mp hnone)
  | 1 =>
    cases hw
    change (g.dev.memory.write (g.dev.memory.read (l.bufs (i, .hb)).1) (l.bufs (i, .db)).1).read (l.bufs (i, .db)).1 = _
    rw [hB]
    exact Contents.read_write fun hnone => if_pos ((hfit .db).2.mp hnone)
  | 4 =>
    cases hw
    have hda := h.value_of_awaits (r := 3) (by omega) hj hawait hjob (q := 0) (by omega) rfl
    have hdb := h.value_of_awaits (r := 3) (by omega) hj hawait hjob (q := 1) (by omega) rfl
    change (g.dev.memory.write (K.gemm impl (batch.getD i default).m (batch.getD i default).n (batch.getD i default).k
      (batch.getD i default).batch (g.dev.memory.read (l.bufs (i, .da)).1) (g.dev.memory.read (l.bufs (i, .db)).1))
      (l.bufs (i, .dc)).1).read (l.bufs (i, .dc)).1 = product K impl job
    rw [hda, hdb, hbatch]
    by_cases hsc : job.sc = 0
    · rw [(hfit .dc).2.mpr hsc, product, if_pos hsc]
      rfl
    · rw [product, if_neg hsc]
      exact Contents.read_write fun hnone => absurd ((hfit .dc).2.mp hnone) hsc
  | 7 =>
    cases hw
    have hdc := h.value_of_awaits (r := 6) (by omega) hj hawait hjob (q := 4) (by omega) rfl
    change (g.dev.memory.write (g.dev.memory.read (l.bufs (i, .dc)).1) (l.bufs (i, .hc)).1).read (l.bufs (i, .hc)).1 = _
    rw [hdc]
    exact Contents.read_write fun hnone => if_pos ((hfit .hc).2.mp hnone)
  | 2 | 3 | 5 | 6 | 8 => cases hw

/-- What other operations do leaves a buffer that none of them writes. -/
theorem read_effect (h : Pipe K impl batch base k f l g) (hs : ∀ w, targetBuf (j % 9) = some w → s ≠ (j / 9, w)) :
    (Device.effect (Work.run K) (pipelineOp impl batch l.ctx l.bufs j).op g.dev.memory).read (l.bufs s).1 =
      g.dev.memory.read (l.bufs s).1 := by
  rw [pipelineOp]
  have hwrite : Device.effect (Work.run K) (jobOp impl batch l.ctx l.bufs (j / 9) (j % 9)).op g.dev.memory =
    g.dev.memory ∨
      ∃ w v, targetBuf (j % 9) = some w ∧ Device.effect (Work.run K) (jobOp impl batch l.ctx l.bufs (j / 9) (j % 9)).op
        g.dev.memory = g.dev.memory.write v (l.bufs (j / 9, w)).1 := exists_write _
  rcases hwrite with he | ⟨w, v, hw, he⟩
  · rw [he]
  · rw [he]
    exact Contents.read_write_of_ne h.owns (hs w hw)

/-- **Whatever the GPU does next, what is known stays known.** -/
theorem stable (h : Pipe K impl batch base k f l g) (hx : g.Executes K g') : Pipe K impl batch base k f l g' := by
  obtain ⟨hd⟩ := hx
  rename_i d
  have hissued := hd.issued_eq
  have hvalues : ∀ idx ∈ d.finished, ∀ j, idx = base + j → Computed K impl batch l.bufs j d.memory := by
    refine hd.post (Q := fun idx m => ∀ j, idx = base + j → Computed K impl batch l.bufs j m) ?_ ?_ ?_
    · rintro idx hidx j rfl
      exact h.values j hidx
    · rintro idx x hidx hn hawait j rfl
      obtain ⟨j', hj, he, rfl⟩ := h.exists_of_not_finished hidx hn
      obtain rfl : j = j' := Nat.add_left_cancel he
      exact h.computed_finish hj hawait
    · rintro idx x idx' hidx hn hne hpost j' rfl job w hjob hw
      obtain ⟨j, -, rfl, rfl⟩ := h.exists_of_not_finished hidx hn
      refine (h.read_effect fun w' hw' he => hne ?_).trans (hpost j' rfl job w hjob hw)
      -- the same buffer of the same job is written by the same operation
      obtain ⟨hdiv, rfl⟩ := Prod.mk.inj he
      have hmod := targetBuf_inj hw hw'
      have h₁ := Nat.div_add_mod j 9
      have h₂ := Nat.div_add_mod j' 9
      omega
  obtain ⟨earlier, hlen, he⟩ := h.issued
  refine ⟨⟨hd.wellFormed h.wellFormed, h.owns.of_live rfl, h.pools.of_events rfl, h.enough, h.length⟩, h.fitted,
    ⟨earlier, hlen, hissued.trans he⟩, fun j hj => hd.finished_subset (h.earlier j hj), h.covered, h.bound,
    fun i job hi hjob => ?_, fun j hj => hvalues (base + j) hj j rfl⟩
  -- the inputs of the jobs are written by no operation
  cases hd with
  | finish hidx hn =>
    obtain ⟨j, -, -, rfl⟩ := h.exists_of_not_finished hidx hn
    obtain ⟨hA, hB⟩ := h.filled i job hi hjob
    constructor
    · refine (h.read_effect fun w hw he => ?_).trans hA
      cases he
      unfold targetBuf at hw
      split at hw <;> cases hw
    · refine (h.read_effect fun w hw he => ?_).trans hB
      cases he
      unfold targetBuf at hw
      split at hw <;> cases hw

/-! What the calls of the host make of it. -/

theorem congr (h : Pipe K impl batch base k f l g) (hb : l'.bufs = l.bufs) (hs : l'.shape = l.shape) :
    Pipe K impl batch base k f l' g := by
  obtain ⟨hctx, -⟩ := Prod.mk.inj hs
  have hctx : l'.ctx = l.ctx := hctx
  refine ⟨h.toSound.congr hb hs, fun j job hj w => ?_, ?_, h.earlier, h.covered, h.bound, ?_, ?_⟩
  · rw [hb]
    exact h.fitted j job hj w
  · rw [hb, hctx]
    exact h.issued
  · rw [hb]
    exact h.filled
  · rw [hb]
    exact h.values

/-- A call that issues the next operation of the batch. -/
theorem issues (h : Pipe K impl batch base k f l g) {st : Option ℕ} {op : StreamOp ℕ Work}
    (hop : pipelineOp impl batch l.ctx l.bufs k = ⟨st, op⟩) (hk : k / 9 < f) {ε : Type} {r : Except ε Unit}
    (hr : g.Issues st op r g') : (r = .ok () → Pipe K impl batch base (k + 1) f l g') ∧ Sound batch.length l g' := by
  have hissue : Pipe K impl batch base (k + 1) f l (g.issue st op) := by
    obtain ⟨earlier, hlen, he⟩ := h.issued
    refine ⟨⟨h.wellFormed.issue, h.owns.of_live rfl, h.pools.of_events rfl, h.enough, h.length⟩, h.fitted,
      ⟨earlier, hlen, ?_⟩, h.earlier, fun j hj => ?_, h.bound, h.filled, h.values⟩
    · rw [List.range_succ, List.map_append, ← List.append_assoc, ← he]
      exact congrArg (fun x => g.dev.issued ++ [x]) hop.symm
    · rcases Nat.lt_succ_iff_lt_or_eq.mp hj with hj | rfl
      · exact h.covered j hj
      · exact hk
  rcases r with err | ⟨⟩
  · rcases hr with rfl | rfl
    · exact ⟨fun he => (by cases he), h.toSound⟩
    · exact ⟨fun he => (by cases he), hissue.toSound⟩
  · obtain rfl := hr
    exact ⟨fun _ => hissue, hissue.toSound⟩

/-- A buffer is in use only by the unfinished operations of its job. -/
theorem not_busy (h : Pipe K impl batch base k f l g) {loc : Loc} (hs : (l.bufs s).1 = some loc)
    (hfin : ∀ j < k, j / 9 = s.1 → base + j ∈ g.dev.finished) : ¬ g.Busy loc := by
  rintro ⟨idx, st, w, hidx, hn, hmem⟩
  obtain ⟨j, hj, rfl, hop⟩ := h.exists_of_not_finished hidx hn
  obtain ⟨b, hb⟩ := exists_buf_of_mem_uses hop.symm hmem
  have hsame := h.owns.inj s (j / 9, b) loc hs hb.symm
  exact hn (hfin j hj (congrArg Prod.fst hsame).symm)

/-- `fill_matrices`, for the next job. -/
theorem fill (h : Pipe K impl batch base (9 * f) f l g) (hjob : batch[f]? = some job) :
    Pipe K impl batch base (9 * f) (f + 1) l
      ((g.write (K.fill_matrices job).1 (l.bufs (f, .ha)).1).write (K.fill_matrices job).2 (l.bufs (f, .hb)).1) := by
  have hlt : f < batch.length := (List.getElem?_eq_some_iff.mp hjob).1
  have hfit := h.fitted f job hjob
  -- only the two buffers that are filled change
  have hread : ∀ s' : ℕ × Buf, s' ≠ (f, .ha) → s' ≠ (f, .hb) →
      (((g.write (K.fill_matrices job).1 (l.bufs (f, .ha)).1).write (K.fill_matrices job).2
        (l.bufs (f, .hb)).1).dev.memory).read (l.bufs s').1 = g.dev.memory.read (l.bufs s').1 := by
    intro s' ha hb
    exact (Contents.read_write_of_ne h.owns hb).trans (Contents.read_write_of_ne h.owns ha)
  refine ⟨⟨⟨h.wellFormed.bounded, h.wellFormed.closed⟩, h.owns.of_live rfl, h.pools.of_events rfl, h.enough, h.length⟩,
    h.fitted, h.issued, h.earlier, fun j hj => Nat.lt_succ_of_lt (h.covered j hj), hlt, fun i job' hi hjob' => ?_,
    fun j hj job' w hjob' hw => ?_⟩
  · rcases Nat.lt_succ_iff_lt_or_eq.mp hi with hi | rfl
    · obtain ⟨hA, hB⟩ := h.filled i job' hi hjob'
      rw [hread (i, .ha) (by simp; omega) (by simp), hread (i, .hb) (by simp) (by simp; omega)]
      exact ⟨hA, hB⟩
    · obtain rfl := Option.some.inj (hjob.symm.trans hjob')
      constructor
      · refine (Contents.read_write_of_ne h.owns (s := (i, .hb)) (by simp)).trans ?_
        by_cases hsa : job.sa = 0
        · rw [(hfit .ha).2.mpr hsa, inputA, if_pos hsa]
          rfl
        · rw [inputA, if_neg hsa]
          exact Contents.read_write fun hnone => absurd ((hfit .ha).2.mp hnone) hsa
      · by_cases hsb : job.sb = 0
        · rw [(hfit .hb).2.mpr hsb, inputB, if_pos hsb]
          rfl
        · rw [inputB, if_neg hsb]
          exact Contents.read_write fun hnone => absurd ((hfit .hb).2.mp hnone) hsb
  · rw [hread _ ?_ ?_]
    · exact h.values j hj job' w hjob' hw
    · rintro ⟨⟩
      exact absurd hw (by unfold targetBuf; split <;> simp)
    · rintro ⟨⟩
      exact absurd hw (by unfold targetBuf; split <;> simp)

/-- A buffer has the bytes its job needs. -/
theorem hasBytes (h : Pipe K impl batch base k f l g) (hjob : batch[i]? = some job) {w w' : Buf}
    (hw : need job w' = need job w) :
    g.HasBytes (mulSize (l.bufs (i, w)).2 4) (l.bufs (i, w')).1 := by
  obtain ⟨hcount, -⟩ := h.fitted i job hjob w
  obtain ⟨hcount', hnull⟩ := h.fitted i job hjob w'
  cases hloc : (l.bufs (i, w')).1 with
  | none =>
    rw [hcount, ← hw, hnull.mp hloc]
    rfl
  | some loc =>
    have hlive := h.owns.live (i, w') loc hloc
    rw [hcount', hw, ← hcount] at hlive
    exact hlive

/-- So a copy between two buffers that the job needs in one size is of whole buffers. -/
theorem hasBytes_copy (h : Pipe K impl batch base k f l g) (hjob : batch[i]? = some job) {v w u : Buf}
    (hw : need job w = need job v) (hu : need job u = need job v) :
    ∀ p ∈ (Work.copy (l.bufs (i, w)).1 (l.bufs (i, u)).1).uses, g.HasBytes (mulSize (l.bufs (i, v)).2 4) p := by
  intro p hp
  rcases List.mem_pair.mp hp with rfl | rfl
  · exact h.hasBytes hjob hw
  · exact h.hasBytes hjob hu

end Pipe

/-! ### The functions of the pipeline -/

/-- The call rule while the pipeline runs. -/
theorem pipe_call {c : Call} {Q : c.Ret → Locals → Gpu → Prop} {X : Exn → Locals → Gpu → Prop}
    (h : Pipe K impl batch base k f l g) (hsafe : ∀ g, Pipe K impl batch base k f l g → Safe K impl batch c g)
    (hanswer : ∀ g r g', Pipe K impl batch base k f l g → g.Answers K c r g' → Q r l g') :
    (call c : WorkerM c.Ret).wp (gpuWorld K impl batch) Q X l g :=
  Host.wp_call_interleave (I := Pipe K impl batch base k f l) (fun _ _ hx hp => hp.stable hx) h hsafe hanswer

theorem aside_pipe {c : Call} (hc : aside c = true) (h : Pipe K impl batch base k f l g) :
    (call c : WorkerM c.Ret).wp (gpuWorld K impl batch) (fun _ l' g' => l' = l ∧ Pipe K impl batch base k f l g')
      (fun _ => Sound batch.length) l g := by
  refine pipe_call h (fun _ _ => safe_of_aside hc) fun g r g' hp hr => ⟨rfl, ?_⟩
  rwa [eq_of_aside hc hr]

theorem copy_async_pipe {kind : MemcpyKind} {dst src : Option ℕ} {bytes : ℕ} {stream : Option ℕ}
    (h : Pipe K impl batch base k f l g) (hk : k / 9 < f)
    (hop : pipelineOp impl batch l.ctx l.bufs k = ⟨stream, .work (Gpu.copyWork kind dst src)⟩)
    (hbytes : ∀ g, Pipe K impl batch base k f l g → ∀ p ∈ (Gpu.copyWork kind dst src).uses, g.HasBytes bytes p) :
    (copy_async kind dst src bytes stream).wp (gpuWorld K impl batch)
      (fun _ l' g' => l' = l ∧ Pipe K impl batch base (k + 1) f l g') (fun _ => Sound batch.length) l g := by
  unfold copy_async
  rw [Host.wp_bind]
  refine pipe_call h hbytes fun g r g' hp hr => ?_
  have hi := hp.issues hop hk (show g.Issues _ _ r g' from hr)
  rcases r with err | ⟨⟩
  · exact hi.2
  · exact ⟨rfl, hi.1 rfl⟩

theorem event_at_pipe {p : WorkerContext → List ℕ} (h : Pipe K impl batch base k f l g) (hi : i < (p l.ctx).length) :
    (event_at p i).wp (gpuWorld K impl batch)
      (fun e l' g' => l' = l ∧ e = (p l.ctx).getD i 0 ∧ Pipe K impl batch base k f l g') (fun _ => Sound batch.length)
      l g := by
  unfold event_at
  rw [Host.wp_bind, Host.wp_locals, Host.wp_bind]
  refine pipe_call h (fun _ _ => hi) fun g r g' hp hr => ?_
  obtain rfl := hr
  exact ⟨rfl, rfl, hp⟩

theorem record_event_pipe {p : WorkerContext → List ℕ} {stream : WorkerContext → Option ℕ}
    (h : Pipe K impl batch base k f l g) (hi : i < (p l.ctx).length) (hk : k / 9 < f)
    (hop : pipelineOp impl batch l.ctx l.bufs k = ⟨stream l.ctx, .record ((p l.ctx).getD i 0)⟩) :
    (record_event p i stream).wp (gpuWorld K impl batch)
      (fun _ l' g' => l' = l ∧ Pipe K impl batch base (k + 1) f l g') (fun _ => Sound batch.length) l g := by
  unfold record_event
  refine Host.wp_seq (event_at_pipe h hi) ?_ fun _ _ _ h => h
  rintro e l g ⟨rfl, rfl, h⟩
  rw [Host.wp_bind, Host.wp_locals, Host.wp_bind]
  refine pipe_call h (fun _ _ => trivial) fun g r g' hp hr => ?_
  have hi := hp.issues hop hk (show g.Issues _ _ r g' from hr)
  rcases r with err | ⟨⟩
  · exact hi.2
  · exact ⟨rfl, hi.1 rfl⟩

theorem wait_event_pipe {p : WorkerContext → List ℕ} {stream : WorkerContext → Option ℕ}
    (h : Pipe K impl batch base k f l g) (hi : i < (p l.ctx).length) (hk : k / 9 < f)
    (hop : pipelineOp impl batch l.ctx l.bufs k = ⟨stream l.ctx, .wait ((p l.ctx).getD i 0)⟩) :
    (wait_event stream p i).wp (gpuWorld K impl batch)
      (fun _ l' g' => l' = l ∧ Pipe K impl batch base (k + 1) f l g') (fun _ => Sound batch.length) l g := by
  unfold wait_event
  refine Host.wp_seq (event_at_pipe h hi) ?_ fun _ _ _ h => h
  rintro e l g ⟨rfl, rfl, h⟩
  rw [Host.wp_bind, Host.wp_locals, Host.wp_bind]
  refine pipe_call h (fun _ _ => trivial) fun g r g' hp hr => ?_
  have hi := hp.issues hop hk (show g.Issues _ _ r g' from hr)
  rcases r with err | ⟨⟩
  · exact hi.2
  · exact ⟨rfl, hi.1 rfl⟩

theorem job_at_pipe (h : Pipe K impl batch base k f l g) (hi : i < batch.length) :
    (job_at batch i).wp (gpuWorld K impl batch)
      (fun job l' g' => l' = l ∧ batch[i]? = some job ∧ Pipe K impl batch base k f l g') (fun _ => Sound batch.length)
        l g := by
  unfold job_at
  rw [Host.wp_bind]
  refine pipe_call h (fun _ _ => hi) fun g r g' hp hr => ?_
  obtain rfl := hr
  refine ⟨rfl, ?_, hp⟩
  rw [List.getD_eq_getElem?_getD, List.getElem?_eq_getElem hi]
  rfl

/-- The buffers do not depend on the time a job is picked up. -/
theorem bufs_pickup (i : ℕ) (t : ℤ) (l : Locals) :
    (Locals.setExec i (fun e => { e with pickup := t }) l).bufs = l.bufs :=
  Locals.bufs_of_fixed (fixed_setExec_pickup i t l)

theorem enqueue_h2d_pipe (h : Pipe K impl batch base (9 * i) i l g) (hi : i < batch.length) :
    (enqueue_h2d batch i).wp (gpuWorld K impl batch) (fun _ => Pipe K impl batch base (9 * i + 3) (i + 1))
      (fun _ => Sound batch.length) l g := by
  have hlen : i < l.ctx.h2d_done.length := lt_of_lt_of_le hi h.enough
  unfold enqueue_h2d
  refine Host.wp_seq (job_at_pipe h hi) ?_ fun _ _ _ h => h
  rintro job l g ⟨rfl, hjob, h⟩
  rw [Host.wp_bind, Host.wp_locals]
  dsimp only
  rw [Host.wp_bind]
  refine pipe_call h (fun g hp => ?_) fun g r g' hp hr => ?_
  · -- nothing has been issued that uses the buffers of the job
    have hfree : ∀ b q, (l.bufs (i, b)).1 = some (.host q) → ¬ g.Busy (.host q) := fun b q hb =>
      hp.not_busy hb fun j hj hji => by
        dsimp only at hji
        omega
    intro p hp' q hq
    simp only [List.mem_cons, List.not_mem_nil, or_false] at hp'
    rcases hp' with rfl | rfl
    · exact hfree .ha q (congrArg (Option.map Loc.host) hq)
    · exact hfree .hb q (congrArg (Option.map Loc.host) hq)
  · obtain rfl := hr
    have hfill := hp.fill hjob
    refine Host.wp_seq (aside_pipe (c := .now) rfl hfill) ?_ fun _ _ _ h => h
    rintro t l g ⟨rfl, h⟩
    rw [Host.wp_bind, Host.wp_assign]
    have hb := bufs_pickup i t l
    have h : Pipe K impl batch base _ _ (Locals.setExec i (fun e => { e with pickup := t }) l) g :=
      h.congr hb (shape_setExec _ _ _)
    have hop : ∀ r < 9, pipelineOp impl batch l.ctx (Locals.setExec i (fun e => { e with pickup := t }) l).bufs
      (9 * i + r) =
        jobOp impl batch l.ctx l.bufs i r := fun r hr => hb ▸ pipelineOp_add hr
    refine Host.wp_seq (copy_async_pipe h (by omega) (hop 0 (by omega)) fun g hp => ?_) ?_ fun _ _ _ h => h
    · have hcopy := hp.hasBytes_copy hjob (v := .da) (w := .da) (u := .ha) rfl rfl
      rw [hb] at hcopy
      exact hcopy
    rintro _ _ g ⟨rfl, h⟩
    refine Host.wp_seq (copy_async_pipe h (by omega) (hop 1 (by omega)) fun g hp => ?_) ?_ fun _ _ _ h => h
    · have hcopy := hp.hasBytes_copy hjob (v := .db) (w := .db) (u := .hb) rfl rfl
      rw [hb] at hcopy
      exact hcopy
    rintro _ _ g ⟨rfl, h⟩
    refine Host.wp_mono (record_event_pipe (p := (·.h2d_done)) h hlen (by omega) (hop 2 (by omega))) ?_ fun _ _ _ h => h
    rintro _ _ g ⟨rfl, h⟩
    exact h

/-! The GEMM. -/

theorem allLive_gemm (h : Pipe K impl batch base k f l g) {M N D c : Int32} :
    g.AllLive (Work.gemm impl (l.bufs (i, .da)).1 (l.bufs (i, .db)).1 (l.bufs (i, .dc)).1 M N D c) := by
  intro loc hloc
  simp only [Work.uses, List.mem_cons, List.not_mem_nil, or_false] at hloc
  rcases hloc with hloc | hloc | hloc <;> rw [h.owns.live _ loc hloc.symm] <;> rfl

/-- Setting the stream of a handle is no concern of the pipeline's. -/
theorem Pipe.setStream (h : Pipe K impl batch base k f l g) {handles : ℕ → Option ℕ} :
    Pipe K impl batch base k f l { g with handles } :=
  ⟨⟨h.wellFormed, h.owns.of_live rfl, h.pools.of_events rfl, h.enough, h.length⟩, h.fitted, h.issued, h.earlier,
    h.covered,
    h.bound, h.filled, h.values⟩

/-- The handle is on the stream last set. -/
structure OnStream (K : Kernels) (impl : Impl) (batch : List InferenceJob) (base k f : ℕ) (handle : ℕ)
    (stream : Option ℕ)
    (l : Locals) (g : Gpu) : Prop extends Pipe K impl batch base k f l g where
  stream : g.handles handle = stream

theorem OnStream.stable {handle : ℕ} {st : Option ℕ} (h : OnStream K impl batch base k f handle st l g)
    (hx : g.Executes K g') :
    OnStream K impl batch base k f handle st l g' := by
  refine ⟨h.toPipe.stable hx, ?_⟩
  obtain ⟨-⟩ := hx
  exact h.stream

theorem cublas_handle_pipe (h : Pipe K impl batch base k f l g) :
    cublas_handle.wp (gpuWorld K impl batch)
      (fun _ l' g' => l'.bufs = l.bufs ∧ l'.shape = l.shape ∧ Pipe K impl batch base k f l' g')
        (fun _ => Sound batch.length)
      l g := by
  unfold cublas_handle
  rw [Host.wp_bind, Host.wp_locals]
  cases l.cublas_handle with
  | some handle => exact ⟨rfl, rfl, h⟩
  | none =>
    refine Host.wp_seq (aside_pipe (c := .cublasCreate) rfl h) ?_ fun _ _ _ h => h
    rintro (err | handle) _ g ⟨rfl, h⟩
    · exact h.toSound
    · exact ⟨rfl, rfl, h.congr rfl rfl⟩

theorem sgemm_pipe {A B C : Option ℕ} {M N D c : Int32} {handle : ℕ} {st : Option ℕ}
    (h : OnStream K impl batch base k f handle st l g)
    (hop : pipelineOp impl batch l.ctx l.bufs k = ⟨st, .work (Gpu.gemmWork .cublas A B C M N D c)⟩) (hk : k / 9 < f)
    (hlive : ∀ g, Pipe K impl batch base k f l g → g.AllLive (Gpu.gemmWork .cublas A B C M N D c)) :
    (call (.cublasSgemmStridedBatched handle A B C M N D c st) >>= fun r => CUBLAS_CHECK r : WorkerM Unit).wp
      (gpuWorld K impl batch) (fun _ l' g' => l' = l ∧ Pipe K impl batch base (k + 1) f l g')
        (fun _ => Sound batch.length)
      l g := by
  rw [Host.wp_bind]
  refine Host.wp_call_interleave (fun _ _ hx ho => ho.stable hx) h (fun g ho => hlive g ho.toPipe)
    fun g r g' ho hr => ?_
  have hi := ho.toPipe.issues hop hk (show g.Issues _ _ r g' from ho.stream ▸ hr)
  rcases r with err | ⟨⟩
  · exact hi.2
  · exact ⟨rfl, hi.1 rfl⟩

theorem issue_gemm_pipe (h : Pipe K impl batch base (9 * i + 4) f l g) (hi : i < f) (hjob : batch[i]? = some job) :
    (issue_gemm impl job (l.exec i) l.ctx.compute_stream).wp (gpuWorld K impl batch)
      (fun _ l' g' => l'.bufs = l.bufs ∧ l'.shape = l.shape ∧ Pipe K impl batch base (9 * i + 5) f l' g')
      (fun _ => Sound batch.length) l g := by
  have hbatch : batch.getD i default = job := by rw [List.getD_eq_getElem?_getD, hjob]; rfl
  have hop : pipelineOp impl batch l.ctx l.bufs (9 * i + 4) =
    ⟨l.ctx.compute_stream, .work (.gemm impl (l.bufs (i, .da)).1
      (l.bufs (i, .db)).1 (l.bufs (i, .dc)).1 job.m job.n job.k job.batch)⟩ := by
    rw [pipelineOp_add (by omega), ← hbatch]
    rfl
  cases impl with
  | tiled =>
    refine pipe_call h (fun g hp => allLive_gemm hp) fun g r g' hp hr => ⟨rfl, rfl, ?_⟩
    exact (hp.issues hop (by omega) (ε := Empty) (r := .ok ()) hr).1 rfl
  | cublas =>
    refine Host.wp_seq (cublas_handle_pipe h) ?_ fun _ _ _ h => h
    rintro handle l₁ g ⟨hb, hs, h⟩
    have hctx : l₁.ctx = l.ctx := (Prod.mk.inj hs).1
    rw [Host.wp_bind]
    refine pipe_call h (fun _ _ => trivial) fun g r g' hp hr => ?_
    rcases r with err | ⟨⟩
    · rcases hr with rfl | ⟨-, rfl⟩
      · exact hp.setStream.toSound
      · exact hp.toSound
    obtain rfl | ⟨hne, -⟩ := hr
    swap
    · exact absurd rfl hne
    have hon : OnStream K .cublas batch base (9 * i + 4) f handle l.ctx.compute_stream l₁
        { g with handles := Function.update g.handles handle l.ctx.compute_stream } :=
      ⟨hp.setStream, Function.update_self _ _ _⟩
    refine Host.wp_mono (sgemm_pipe hon (by rw [hctx, hb]; exact hop) (by omega) fun g hp => ?_) ?_ fun _ _ _ h => h
    · have hlive := allLive_gemm hp (i := i) (M := job.m) (N := job.n) (D := job.k) (c := job.batch)
      rw [hb] at hlive
      exact hlive
    rintro _ _ g ⟨rfl, h⟩
    exact ⟨hb, hs, h⟩

/-! The loop. -/

/-- What is known when the loop comes to job `i`: its inputs are on their way. -/
def Issuing (K : Kernels) (impl : Impl) (batch : List InferenceJob) (base i : ℕ) : Locals → Gpu → Prop :=
  Pipe K impl batch base (9 * i + if i < batch.length then 3 else 0) (min (i + 1) batch.length)

theorem enqueue_next_pipe (h : Pipe K impl batch base (9 * (i + 1)) (i + 1) l g) (hi : i < batch.length) :
    (enqueue_next batch i).wp (gpuWorld K impl batch) (fun _ => Issuing K impl batch base (i + 1))
      (fun _ => Sound batch.length)
      l g := by
  unfold enqueue_next Issuing
  split_ifs with hlt
  · rw [Nat.min_eq_left (by omega)]
    exact enqueue_h2d_pipe h hlt
  · rw [Nat.min_eq_right (by omega), show batch.length = i + 1 by omega]
    exact h

theorem issue_job_pipe (h : Issuing K impl batch base i l g) (hi : i < batch.length) :
    (issue_job impl batch i).wp (gpuWorld K impl batch) (fun _ => Issuing K impl batch base (i + 1))
      (fun _ => Sound batch.length) l g := by
  rw [Issuing, if_pos hi, Nat.min_eq_left (by omega)] at h
  unfold issue_job
  refine Host.wp_seq (job_at_pipe h hi) ?_ fun _ _ _ h => h
  rintro job l g ⟨rfl, hjob, h⟩
  have hlen : ∀ {m}, m = l.ctx.h2d_done.length → i < m := fun hm => hm ▸ lt_of_lt_of_le hi h.enough
  refine Host.wp_seq (wait_event_pipe (p := (·.h2d_done)) h (hlen rfl)
    (by omega) (pipelineOp_add (r := 3) (by omega))) ?_
    fun _ _ _ h => h
  rintro _ l g ⟨rfl, h⟩
  rw [Host.wp_bind, Host.wp_locals]
  refine Host.wp_seq (issue_gemm_pipe h (Nat.lt_succ_self i) hjob) ?_ fun _ _ _ h => h
  rintro _ l₁ g ⟨hb, hs, h⟩
  have hctx : l₁.ctx = l.ctx := (Prod.mk.inj hs).1
  rw [← hctx] at hlen ⊢
  refine Host.wp_seq (record_event_pipe (p := (·.kern_done)) h (hlen h.pools.kern_done) (by omega)
    (pipelineOp_add (r := 5) (by omega))) ?_ fun _ _ _ h => h
  rintro _ _ g ⟨rfl, h⟩
  refine Host.wp_seq (wait_event_pipe (p := (·.kern_done)) h (hlen h.pools.kern_done) (by omega)
    (pipelineOp_add (r := 6) (by omega))) ?_ fun _ _ _ h => h
  rintro _ _ g ⟨rfl, h⟩
  refine Host.wp_seq (copy_async_pipe h
    (by omega) (by rw [hb]; exact pipelineOp_add (r := 7) (by omega)) fun g hp => ?_) ?_
    fun _ _ _ h => h
  · have hcopy := hp.hasBytes_copy hjob (v := .dc) (w := .hc) (u := .dc) rfl rfl
    rw [hb] at hcopy
    exact hcopy
  rintro _ _ g ⟨rfl, h⟩
  refine Host.wp_seq (record_event_pipe (p := (·.done)) h (hlen h.pools.done) (by omega)
    (pipelineOp_add (r := 8) (by omega))) ?_ fun _ _ _ h => h
  rintro _ _ g ⟨rfl, h⟩
  exact enqueue_next_pipe h hi

/-! ### The results -/

theorem getD_mem {xs : List ℕ} (hi : i < xs.length) : xs.getD i 0 ∈ xs := by
  rw [List.getD_eq_getElem _ _ hi]
  exact List.getElem_mem hi

/-- The events of the pools are distinct. -/
theorem Pools.ne_done (h : Pools ctx g) {x : ℕ} (hx : x ∈ ctx.h2d_done ++ ctx.kern_done) (hi : i < ctx.done.length) :
    x ≠ ctx.done.getD i 0 :=
  (List.nodup_append.mp h.nodup).2.2 x hx _ (getD_mem hi)

theorem Pools.done_inj (h : Pools ctx g) (hi : i < ctx.done.length) (hj : j < ctx.done.length)
    (he : ctx.done.getD j 0 = ctx.done.getD i 0) : j = i := by
  rw [List.getD_eq_getElem _ _ hi, List.getD_eq_getElem _ _ hj] at he
  exact (List.nodup_append.mp h.nodup).2.1.getElem_inj_iff.mp he

/-- The record of `done[i]` is the last of its job's operations. -/
theorem jobOp_record_done {st : Option ℕ} (h : Pools ctx g) (hi : i < ctx.done.length) (hj : j < ctx.done.length)
    (hr : r < 9)
    (hop : jobOp impl batch ctx bufs j r = ⟨st, .record (ctx.done.getD i 0)⟩) : j = i ∧ r = 8 := by
  match r with
  | 0 | 1 | 3 | 4 | 6 | 7 => cases hop
  | 2 =>
    refine absurd (StreamOp.record.inj (Issued.mk.inj hop).2) (h.ne_done (List.mem_append_left _ (getD_mem ?_)) hi)
    rwa [← h.done]
  | 5 =>
    refine absurd (StreamOp.record.inj (Issued.mk.inj hop).2) (h.ne_done (List.mem_append_right _ (getD_mem ?_)) hi)
    rwa [h.kern_done, ← h.done]
  | 8 => exact ⟨h.done_inj hi hj (StreamOp.record.inj (Issued.mk.inj hop).2), rfl⟩

/-- Once the batch has been issued, the last record of `done[i]` is that of job `i`. -/
theorem Pipe.lastRecord_done (h : Pipe K impl batch base (9 * batch.length) f l g) (hi : i < batch.length) :
    LastRecord g.dev.issued (l.ctx.done.getD i 0) g.dev.issued.length (base + (9 * i + 8)) := by
  have hlen : ∀ {j}, j < batch.length → j < l.ctx.done.length := fun hj => by
    rw [h.pools.done]
    exact lt_of_lt_of_le hj h.enough
  refine ⟨by rw [h.length_issued]; omega, ⟨l.ctx.d2h_stream, ?_⟩, fun idx hlt hidx st hs => ?_⟩
  · rw [h.getElem?_issued (by omega), pipelineOp_add (by omega)]
    rfl
  · rw [h.length_issued] at hidx
    obtain ⟨j, rfl⟩ := Nat.exists_eq_add_of_le (show base ≤ idx by omega)
    rw [h.getElem?_issued (by omega), pipelineOp] at hs
    obtain ⟨hji, hr⟩ := jobOp_record_done h.pools (hlen hi) (hlen (show j / 9 < batch.length by omega))
      (Nat.mod_lt j (by omega)) (Option.some.inj hs)
    omega

/-- The whole batch has been issued, and its first `i` jobs awaited. -/
structure Collecting (K : Kernels) (impl : Impl) (batch : List InferenceJob) (base i : ℕ) (l : Locals) (g : Gpu) : Prop
    extends Pipe K impl batch base (9 * batch.length) batch.length l g where
  collected : ∀ j < i, base + (9 * j + 8) ∈ g.dev.finished

theorem Collecting.stable (h : Collecting K impl batch base i l g) (hx : g.Executes K g') :
    Collecting K impl batch base i l g' :=
  ⟨h.toPipe.stable hx, fun j hj => hx.dev_executes.finished_subset (h.collected j hj)⟩

/-- Everything that the awaited jobs have had issued has finished. -/
theorem Collecting.finished (h : Collecting K impl batch base i l g) (hi : i ≤ batch.length) (hj : j / 9 < i) :
    base + j ∈ g.dev.finished := by
  have hlast := h.finished_of_le (i := j / 9) (r := j % 9) (q := 8) (by omega) (by omega) (by omega)
    (h.collected (j / 9) hj)
  rwa [Nat.div_add_mod] at hlast

theorem Collecting.ready (h : Collecting K impl batch base batch.length l g) : Ready batch.length l g := by
  refine ⟨h.toSound, fun idx hidx => ?_⟩
  rw [h.length_issued] at hidx
  rcases Nat.lt_or_ge idx base with hlt | hle
  · exact h.earlier idx hlt
  · obtain ⟨j, rfl⟩ := Nat.exists_eq_add_of_le hle
    exact h.finished le_rfl (by omega)

/-- The call rule while the results are collected. -/
theorem collecting_call {c : Call} {Q : c.Ret → Locals → Gpu → Prop} {X : Exn → Locals → Gpu → Prop}
    (h : Collecting K impl batch base i l g) (hsafe : ∀ g, Collecting K impl batch base i l g → Safe K impl batch c g)
    (hanswer : ∀ g r g', Collecting K impl batch base i l g → g.Answers K c r g' → Q r l g') :
    (call c : WorkerM c.Ret).wp (gpuWorld K impl batch) Q X l g :=
  Host.wp_call_interleave (I := Collecting K impl batch base i l) (fun _ _ hx hp => hp.stable hx) h hsafe hanswer

/-- **The host reads the product of a job that has been awaited.** -/
theorem retain_pipe (retain_results : Bool) (h : Collecting K impl batch base (i + 1) l g)
    (hjob : batch[i]? = some job) :
    (retain retain_results job (l.exec i).hc).wp (gpuWorld K impl batch)
      (fun _ l' g' => l' = l ∧ Collecting K impl batch base (i + 1) l g') (fun _ => Sound batch.length) l g := by
  have hlt : i < batch.length := (List.getElem?_eq_some_iff.mp hjob).1
  unfold retain
  split_ifs
  · rw [Host.wp_bind]
    refine collecting_call h (fun g hp q hq => ?_) fun g c g' hp hr => ?_
    · exact hp.not_busy (s := (i, .hc)) (congrArg (Option.map Loc.host) hq) fun j _ hj => hp.finished hlt (by omega)
    · obtain ⟨rfl, rfl⟩ := hr
      have hvalue := hp.values (9 * i + 7) (hp.finished hlt (by omega)) job .hc
      rw [show (9 * i + 7) / 9 = i by omega, show (9 * i + 7) % 9 = 7 by omega] at hvalue
      refine collecting_call hp (fun _ _ => ?_) fun g r g' hp hr => ?_
      · exact ⟨job, List.mem_of_getElem? hjob, rfl, hvalue hjob rfl⟩
      · obtain rfl := hr
        exact ⟨rfl, hp⟩
  · exact ⟨rfl, h⟩

theorem collect_job_pipe (retain_results : Bool) (h : Collecting K impl batch base i l g)
    (hjob : batch[i]? = some job) :
    (collect_job retain_results i job).wp (gpuWorld K impl batch) (fun _ => Collecting K impl batch base (i + 1))
      (fun _ => Sound batch.length) l g := by
  have hlt : i < batch.length := (List.getElem?_eq_some_iff.mp hjob).1
  unfold collect_job event_at
  rw [Host.wp_bind, Host.wp_bind, Host.wp_locals, Host.wp_bind]
  refine collecting_call h (fun g hp => ?_) fun g r g' hp hr => ?_
  · refine lt_of_lt_of_le hlt ?_
    rw [hp.pools.done]
    exact hp.enough
  obtain rfl := hr
  rw [Host.wp_pure, Host.wp_bind]
  refine collecting_call hp (fun _ _ => trivial) fun g r g' hp hr => ?_
  obtain ⟨rfl, hsync⟩ := hr
  rcases r with err | ⟨⟩
  · exact hp.toSound
  have hnext : Collecting K impl batch base (i + 1) l g' := by
    refine ⟨hp.toPipe, fun j hj => ?_⟩
    rcases Nat.lt_succ_iff_lt_or_eq.mp hj with hj | rfl
    · exact hp.collected j hj
    · exact hsync rfl _ (hp.lastRecord_done hlt)
  rw [Host.wp_bind, CUDA_CHECK, Host.wp_pure, Host.wp_bind]
  refine collecting_call hnext (fun _ _ => trivial) fun g t g' hp hr => ?_
  obtain rfl := hr
  rw [Host.wp_bind, Host.wp_locals]
  refine Host.wp_seq (retain_pipe retain_results hp hjob) ?_ fun _ _ _ h => h
  rintro _ _ g ⟨rfl, h⟩
  exact h

theorem collect_jobs_pipe (retain_results : Bool) {jobs : List InferenceJob} (hjobs : batch.drop i = jobs)
    (h : Collecting K impl batch base i l g) :
    (collect_jobs retain_results i jobs).wp (gpuWorld K impl batch)
      (fun _ => Collecting K impl batch base (i + jobs.length)) (fun _ => Sound batch.length) l g := by
  induction jobs generalizing i l g with
  | nil => exact h
  | cons job jobs ih =>
    obtain ⟨hjob, hrest⟩ := getElem?_of_drop hjobs
    refine Host.wp_seq (collect_job_pipe retain_results h hjob) ?_ fun _ _ _ h => h
    intro m l g h
    refine Host.wp_seq (ih hrest h) ?_ fun _ _ _ h => h
    intro out l g h
    rw [List.length_cons, Nat.add_comm jobs.length 1, ← Nat.add_assoc]
    exact h

/-! ### The turn -/

theorem Sound.stable (h : Sound n l g) (hx : g.Executes K g') : Sound n l g' := by
  obtain ⟨hd⟩ := hx
  exact ⟨hd.wellFormed h.wellFormed, h.owns.of_live rfl, h.pools.of_events rfl, h.enough, h.length⟩

/-- With every buffer allocated and the GPU idle, the pipeline may begin. -/
theorem Ready.pipe (h : Ready batch.length l g) (hfit : ∀ j job, batch[j]? = some job → Fitted job j l) :
    Pipe K impl batch g.dev.issued.length 0 0 l g := by
  refine ⟨h.toSound, hfit, ⟨g.dev.issued, rfl, (List.append_nil _).symm⟩, h.idle,
    fun j hj => absurd hj (Nat.not_lt_zero j),
    Nat.zero_le _, fun i _ hi => absurd hi (Nat.not_lt_zero i), fun j hj => ?_⟩
  have := h.wellFormed.bounded _ hj
  omega

theorem try_block_gpu (opts : Options) (hne : batch ≠ []) (h : Ready batch.length l g) :
    (try_block opts batch).wp (gpuWorld K opts.impl batch) (fun _ => Ready batch.length) (fun _ => Sound batch.length)
      l g := by
  have hpos : 0 < batch.length := List.length_pos_iff.mpr hne
  unfold try_block
  refine Host.wp_seq (allocate_attempts_gpu kMaxAllocRetries h) ?_ fun _ _ _ h => h.toSound
  rintro err l g ⟨h, hfit⟩
  refine Host.wp_seq (throw_unless_allocated_gpu err h) ?_ fun _ _ _ h => h.toSound
  rintro _ _ g ⟨rfl, h, rfl⟩
  refine Host.wp_seq (enqueue_h2d_pipe (h.pipe (hfit rfl)) hpos) ?_ fun _ _ _ h => h
  intro _ l₁ g₁ h₁
  have hfirst : Issuing K opts.impl batch g.dev.issued.length 0 l₁ g₁ := by
    rw [Issuing, if_pos hpos, Nat.min_eq_left hpos]
    exact h₁
  refine Host.wp_seq (Host.wp_forRange (fun i hi _ _ h => issue_job_pipe h hi) hfirst) ?_ fun _ _ _ h => h
  intro _ l g h
  rw [Issuing, if_neg (Nat.lt_irrefl _), Nat.min_eq_right (Nat.le_succ _)] at h
  refine Host.wp_seq (collect_jobs_pipe opts.retain_results rfl ⟨h, fun j hj => absurd hj (Nat.not_lt_zero j)⟩) ?_
    fun _ _ _ h => h
  intro out l g h
  rw [Nat.zero_add] at h
  refine Host.wp_seq (ready_aside (Host.within_call rfl) h.ready) ?_ fun _ _ _ h => h.2.toSound
  rintro _ l g ⟨-, h⟩
  refine Host.wp_mono (ready_aside (Host.within_call rfl) h) (fun _ _ _ h => h.2) fun _ _ _ h => h.2.toSound

/-- **After a failure, the GPU is drained before anything else is done.** -/
theorem catch_block_gpu (e : Exn) (h : Sound batch.length l g) :
    (catch_block batch e).wp (gpuWorld K impl batch) (fun _ => Ready batch.length) (fun _ _ _ => True) l g := by
  unfold catch_block
  rw [Host.wp_bind]
  refine Host.wp_call_interleave (I := Sound batch.length l) (fun _ _ hx hs => hs.stable hx) h (fun _ _ => trivial)
    fun g r g' hs hr => ?_
  obtain ⟨rfl, hidle⟩ := hr
  exact Host.wp_mono (ready_aside (Host.within_call rfl) ⟨hs, hidle⟩) (fun _ _ _ h => h.2) fun _ _ _ _ => trivial

theorem execute_batch_gpu (opts : Options) (hne : batch ≠ []) (h : Between l g) :
    (execute_batch opts batch).wp (gpuWorld K opts.impl batch) (fun _ => Between) (fun _ _ _ => True) l g := by
  refine execute_batch_rule (P := Between) (R := fun l g => Between l g ∧ batch.length ≤ l.ctx.h2d_done.length)
    (M := Ready batch.length) (Y := Sound batch.length)
    (Host.wp_mono (create_streams_gpu h) (fun _ _ _ h => h) fun _ _ _ _ => trivial)
    (fun _ _ h => grow_events_gpu h batch.length) (fun _ _ h => try_block_gpu opts hne (h.1.ready h.2))
    (fun e _ _ h => catch_block_gpu e h) ?_
  intro l g h
  exact Host.wp_mono (release_jobs_gpu _ h) (fun _ _ _ h => ⟨h.wellFormed, h.idle, h.pools⟩) fun _ _ _ h => h.elim

/-- A turn leaves the GPU idle, with all its calls safe. -/
theorem worker_body_gpu (opts : Options) (hne : batch ≠ []) (h : Between l g) :
    (worker_body opts false batch).wp (gpuWorld K opts.impl batch) (fun _ => Between) (fun _ _ _ => True) l g := by
  have haside : ∀ {c : Call}, aside c = true → ∀ (l : Locals) (g : Gpu), Between l g →
      (call c : WorkerM c.Ret).wp (gpuWorld K opts.impl batch) (fun _ => Between) (fun _ _ _ => True) l g := by
    intro c hc l g h
    refine Host.wp_mono (aside_wp (f := id) (I := Between l) (fun _ _ hx hb => hb.stable hx) (Host.within_call hc) h) ?_
      fun _ _ _ _ => trivial
    rintro _ l' g' ⟨rfl, h⟩
    exact h
  refine worker_body_rule (P := Between) (M := Between) (Y := fun _ _ => True) (haside rfl l g h)
    (fun _ => haside rfl) ?_ (haside rfl) ?_
  · intro l g h
    exact execute_batch_gpu opts hne h
  · intro l g _
    exact Host.wp_mono (aside_wp (f := id) (I := fun _ => True) (fun _ _ _ _ => trivial) (Host.within_call rfl) trivial)
      (fun _ _ _ _ => trivial) fun _ _ _ _ => trivial

/-! ### Over any batches -/

/-- What is left of the worker's turn is safe, and leaves an idle GPU. -/
def Running.Good (K : Kernels) (o : Options) (s : Running) : Prop :=
  s.prog.wp (gpuWorld K o.impl s.batch) (Host.ends (fun _ => Between) fun _ _ _ => True) s.gpu

theorem Running.Good.step {o : Options} {s t : Running} (h : s.Good K o) (hst : RunStep K o s t) : t.Good K o := by
  cases hst with
  | execute hx =>
    refine Prog.wp_move (fun r g g' hx hr => ?_) hx h
    rcases r with ⟨e | a, l⟩
    · trivial
    · exact Between.stable hr hx
  | call hprog hr =>
    rw [Running.Good, hprog] at h
    exact h.2 _ _ ⟨_, .refl, hr⟩
  | next hprog hne =>
    rw [Running.Good, hprog] at h
    exact worker_body_gpu o hne h

/-- **Every call a worker makes is safe**: whatever batches it is handed, whichever calls
fail, and in whatever order the GPU works. -/
theorem pipeline_safe {o : Options} {s : Running} {c : Call} {k : c.Ret → Prog Call Call.Ret (Except Exn Unit × Locals)}
    (h : Reachable (workerOnGpu K o) Always s) (hprog : s.prog = .call c k) : Safe K o.impl s.batch c s.gpu := by
  have hgood : s.Good K o := by
    refine h.invariant (fun s hs => ?_) fun _ h hst _ => h.step hst
    obtain ⟨memory, rfl⟩ := hs
    exact ⟨⟨fun _ hi => hi.elim, fun _ hi => hi.elim⟩, fun i hi => absurd hi (Nat.not_lt_zero i),
      ⟨List.nodup_nil, fun _ he => absurd he List.not_mem_nil, rfl, rfl⟩⟩
  rw [Running.Good, hprog] at hgood
  exact hgood.1 _ .refl

/-- Constant matrices, whose product is taken to be constant too. -/
def constantKernels : Kernels where
  fill_matrices job := (List.replicate job.sa 1065353216, List.replicate job.sb 1073741824)
  gemm _ M N _ batch A _ := List.replicate (M.toInt.toNat * N.toInt.toNat * batch.toInt.toNat) (A.headD 0)

/-- A job with a result of `2` by `3` elements, and one with two of `1` by `2`. -/
def rectangularBatch : List InferenceJob :=
  [{ m := 2, n := 3, k := 2 }, { m := 1, n := 2, k := 4, batch := 2, seq := 1 }]

/-- A worker that reads the result of the first of two jobs, while operations for the second are in flight. -/
theorem pipeline_safe_read :
    ∃ (s : Running) (k : Floats → Prog Call Call.Ret (Except Exn Unit × Locals)),
      Reachable (workerOnGpu constantKernels { retain_results := true }) Always s ∧
        s.batch = rectangularBatch ∧ s.prog = .call (.read (some 15) 6) k ∧ ¬ s.gpu.dev.Idle ∧
        Safe constantKernels .tiled s.batch (.read (some 15) 6) s.gpu := by
  have hrun : (pacedWorker constantKernels { retain_results := true } rectangularBatch 70).any (fun p =>
      p.running.batch = rectangularBatch && (p.call = some (.read (some 15) 6) &&
        p.finished < p.running.gpu.dev.issued.length)) = true := by decide +kernel
  obtain ⟨p, hp, hfound⟩ := (Option.any_eq_true _ _).mp hrun
  simp only [Bool.and_eq_true, decide_eq_true_eq] at hfound
  obtain ⟨hbatch, hcall, hflight⟩ := hfound
  obtain ⟨k, hprog⟩ := PacedWorker.prog_of_call hcall
  have hreach := reachable_pacedWorker (by decide) hp
  have hbusy : ¬ p.state.gpu.dev.Idle := fun hidle => absurd (hidle p.finished hflight) (lt_irrefl p.finished)
  exact ⟨p.state, k, hreach, hbatch, hprog, hbusy, pipeline_safe hreach hprog⟩

end Gbis.Sched
