import Gbis.Bench.Schedules

/-!
# The benchmark's runs

All four runs of the overlap benchmark compute the same products, whatever the order in which
the device works and wherever the host is meanwhile, and time is measured only between events
that have happened (`run_shape_computes`). That three of them leave the order to streams and events
makes no difference: their schedules are race-free (`Config.Pipelined.raceFree`).

Every repetition begins and ends with an idle device (`repetition_wp`, `pageable_repetition_wp`). In between
the memory is what the finished operations make of it (`Enqueued`).
-/

namespace Gbis.Bench

open Library Relation

variable {V : Type} {gemm : V → V → V} {fl : ℚ → ℚ} {opt : Options} {shape : Shape} {fn : GemmFn}
  {before full ops : List Op} {m m₀ : Memory V} {d d' : Dev V} {l : Locals} {x : Op} {e : Event}

/-! ### While a schedule is being enqueued -/

/-- After `before`, the part `ops` of the schedule `full` has been issued. -/
structure Enqueued (gemm : V → V → V) (before full : List Op) (m₀ : Memory V) (ops : List Op) (d : Dev V) : Prop
    extends Replays (Work.run gemm) before.length m₀ d where
  issued : d.issued = before ++ ops
  part : ops <+: full
  raceFree : RaceFree (footprints gemm) before.length (before ++ full)

theorem Enqueued.executes (h : Enqueued gemm before full m₀ ops d) (hx : d.Executes (Work.run gemm) d') :
    Enqueued gemm before full m₀ ops d' := by
  obtain ⟨rest, rfl⟩ := h.part
  have hrace : RaceFree (footprints gemm) before.length d.issued := by
    rw [h.issued]
    exact RaceFree.of_append (by rw [List.append_assoc]; exact h.raceFree)
  exact ⟨h.toReplays.executes hrace hx, hx.issued_eq.trans h.issued, h.part, h.raceFree⟩

theorem Enqueued.issue (h : Enqueued gemm before full m₀ ops d) (hx : ops ++ [x] <+: full) :
    Enqueued gemm before full m₀ (ops ++ [x]) (d.issue x.stream x.op) :=
  ⟨h.toReplays.issue, by simp [Device.issue, h.issued], hx, h.raceFree⟩

/-- A call made meanwhile. -/
theorem Enqueued.call {c : Call} {Q : c.Ret → Locals → Dev V → Prop} {X : Int32 → Locals → Dev V → Prop}
    (h : Enqueued gemm before full m₀ ops d) (hpre : ∀ d, Enqueued gemm before full m₀ ops d → pre c d)
    (hanswer : ∀ d r d', Enqueued gemm before full m₀ ops d → Answer d c r d' → Q r l d') :
    (Host.call c : Host Call Call.Ret Locals Int32 c.Ret).wp (world gemm) Q X l d :=
  Host.wp_call_interleave (I := Enqueued gemm before full m₀ ops) (fun _ _ hx h => h.executes hx) h hpre hanswer

/-- Whatever happens on a throw. -/
abbrev anyThrow : Int32 → Locals → Dev V → Prop := fun _ _ _ => True

theorem issue_wp (h : Enqueued gemm before full m₀ ops d) (hx : ops ++ [x] <+: full) :
    (issue x).wp (world gemm) (fun _ l' d' => l' = l ∧ Enqueued gemm before full m₀ (ops ++ [x]) d') anyThrow l d := by
  unfold issue
  rw [Host.wp_bind]
  refine h.call (fun _ _ => trivial) fun d r d' hd hr => ?_
  cases hr with
  | issue => exact ⟨rfl, hd.issue hx⟩
  | issue_failed => exact trivial

/-- Where launches are accepted, a kernel is enqueued like anything else. -/
theorem enqueue_op_wp (ha : fn.Accepted shape) (h : Enqueued gemm before full m₀ ops d) (hx : ops ++ [x] <+: full) :
    (enqueue_op shape fn x).wp (world gemm)
      (fun _ l' d' => l' = l ∧ Enqueued gemm before full m₀ (ops ++ [x]) d') anyThrow l d := by
  obtain ⟨s, op⟩ := x
  cases op with
  | record | wait => exact issue_wp h hx
  | work w =>
    cases w with
    | copy => exact issue_wp h hx
    | gemm i =>
      rw [enqueue_op, GemmFn.call]
      cases hgrid : fn.grid shape with
      | none => exact issue_wp h hx
      | some grid =>
        refine h.call (fun _ _ => trivial) fun d r d' hd hr => ?_
        cases hr with
        | launch => exact ⟨rfl, hd.issue hx⟩
        | launch_refused _ _ hrefused => exact absurd (ha grid hgrid) hrefused

theorem enqueue_ops_wp {xs : List Op} (ha : fn.Accepted shape) (h : Enqueued gemm before full m₀ ops d)
    (hx : ops ++ xs <+: full) :
    (enqueue_ops shape fn xs).wp (world gemm)
      (fun _ l' d' => l' = l ∧ Enqueued gemm before full m₀ (ops ++ xs) d') anyThrow l d := by
  induction xs generalizing ops d with
  | nil => exact ⟨rfl, by rwa [List.append_nil]⟩
  | cons x xs ih =>
    have hsplit : ops ++ x :: xs = ops ++ [x] ++ xs := by simp
    rw [hsplit] at hx ⊢
    refine Host.wp_seq (enqueue_op_wp ha h ((List.prefix_append _ _).trans hx)) ?_ fun _ _ _ h => h
    rintro _ _ d ⟨rfl, h⟩
    exact ih h hx

/-! ### While the device is idle -/

/-- Everything has finished, and the memory is `m`. -/
structure Rest (m : Memory V) (d : Dev V) : Prop extends d.WellFormed where
  idle : d.Idle
  memory : d.memory = m

theorem Rest.call {c : Call} {Q : c.Ret → Locals → Dev V → Prop} {X : Int32 → Locals → Dev V → Prop} (h : Rest m d)
    (hpre : pre c d) (hanswer : ∀ r d', Answer d c r d' → Q r l d') :
    (Host.call c : Host Call Call.Ret Locals Int32 c.Ret).wp (world gemm) Q X l d := by
  refine Host.wp_call_interleave (I := fun d' => d' = d) ?_ rfl ?_ ?_
  · rintro d₁ d₂ hx rfl
    exact absurd hx h.idle.not_executes
  · rintro _ rfl
    exact hpre
  · rintro _ r d' rfl hr
    exact hanswer r d' hr

/-- When everything has finished, an event that has been recorded has happened. -/
theorem happened_of_idle {s : Stream} (h : d.Idle) (he : ⟨s, .record e⟩ ∈ d.issued) : Happened d e := by
  obtain ⟨i, hi⟩ := List.mem_iff_getElem?.mp he
  obtain ⟨j, hj⟩ := exists_lastRecord hi
  exact ⟨j, hj, h j hj.lt⟩

/-! ### What is measured -/

/-- `elapsed_ms` between events that have happened. -/
theorem Rest.elapsed {e e' : Event} {Q : ℚ → Locals → Dev V → Prop} (h : Rest m d) (he : Happened d e)
    (he' : Happened d e') (hQ : ∀ ms, Q ms l d) : (elapsed_ms e e').wp (world gemm) Q anyThrow l d := by
  unfold elapsed_ms
  rw [Host.wp_bind]
  refine h.call ⟨he, he'⟩ fun r d' hr => ?_
  cases hr with
  | elapsed =>
    cases r with
    | ok ms => exact hQ ms
    | error status => exact trivial

/-- What has been kept are `k` values of each kind. -/
structure Kept (k : ℕ) (l : Locals) : Prop where
  totals : l.totals.length = k
  h2d : l.h2d.length = k
  kern : l.kern.length = k
  d2h : l.d2h.length = k

/-- Measuring a job, all of whose events have happened. -/
theorem measure_wp {k i : ℕ} (h : Rest m d) (he : ∀ e ∈ measured i, Happened d e) (hl : Kept k l) :
    (measure fl i).wp (world gemm) (fun _ l' d' => d' = d ∧ Kept k l') anyThrow l d := by
  unfold measure
  rw [Host.wp_bind]
  refine h.elapsed (he _ (by simp [measured])) (he _ (by simp [measured])) fun ms => ?_
  rw [Host.wp_bind, Host.wp_assign, Host.wp_bind]
  refine h.elapsed (he _ (by simp [measured])) (he _ (by simp [measured])) fun ms => ?_
  rw [Host.wp_bind, Host.wp_assign, Host.wp_bind]
  refine h.elapsed (he _ (by simp [measured])) (he _ (by simp [measured])) fun ms => ?_
  exact ⟨rfl, ⟨hl.totals, hl.h2d, hl.kern, hl.d2h⟩⟩

/-- So with all the jobs. -/
theorem measure_all_wp {k n : ℕ} (h : Rest m d) (he : ∀ i < n, ∀ e ∈ measured i, Happened d e) (hl : Kept k l) :
    (Host.forEach (measure fl) (List.range n)).wp (world gemm) (fun _ l' d' => d' = d ∧ Kept k l') anyThrow l d := by
  refine Host.wp_forRange (I := fun _ l' d' => d' = d ∧ Kept k l') ?_ ⟨rfl, hl⟩
  rintro i hi l d ⟨rfl, hl⟩
  exact measure_wp h (he i hi) hl

/-- Of the repetitions before `rep`, those that count have been kept. -/
theorem keep_wp {rep : ℕ} {total : HostM ℚ} (hl : Kept (rep - opt.warmup) l)
    (htotal : total.wp (world gemm) (fun _ l' d' => l' = l ∧ d' = d) anyThrow l d) :
    (keep opt rep total).wp (world gemm) (fun _ l' d' => d' = d ∧ Kept (rep + 1 - opt.warmup) l') anyThrow l d := by
  unfold keep
  split_ifs with hle
  · refine Host.wp_seq htotal ?_ fun _ _ _ h => h
    rintro ms _ _ ⟨rfl, rfl⟩
    have hsucc : rep + 1 - opt.warmup = rep - opt.warmup + 1 := by omega
    rw [Host.wp_assign, hsucc]
    refine ⟨rfl, ⟨?_, ?_, ?_, ?_⟩⟩
    · simp [hl.totals]
    · simp [hl.h2d]
    · simp [hl.kern]
    · simp [hl.d2h]
  · have hzero : rep + 1 - opt.warmup = rep - opt.warmup := by omega
    exact ⟨rfl, hzero ▸ hl⟩

/-! ### The runs with pinned memory -/

/-- What is enqueued for the jobs is what the configuration has it. -/
def Config.Enqueues (cfg : Config) (enqueue : ℕ → HostM Unit) : Prop :=
  ∀ {V : Type} (gemm : V → V → V) (n : ℕ) (ops before full : List Op) (m₀ : Memory V) (l : Locals) (d : Dev V), 0 < n →
    Enqueued gemm before full m₀ ops d → ops ++ (List.range n).flatMap cfg.block <+: full →
    (enqueue n).wp (world gemm)
      (fun _ l' d' => l' = l ∧ Enqueued gemm before full m₀ (ops ++ (List.range n).flatMap cfg.block) d') anyThrow l d

theorem flatMap_range_succ {α : Type} (f : ℕ → List α) (n : ℕ) :
    (List.range (n + 1)).flatMap f = (List.range n).flatMap f ++ f n := by
  rw [List.range_succ, List.flatMap_append, List.flatMap_singleton]

theorem flatMap_range_part {α : Type} (f : ℕ → List α) {i n : ℕ} (h : i ≤ n) :
    (List.range i).flatMap f <+: (List.range n).flatMap f := by
  obtain ⟨k, rfl⟩ := Nat.exists_eq_add_of_le h
  rw [List.range_add, List.flatMap_append]
  exact List.prefix_append _ _

/-- Enqueuing block after block. -/
theorem enqueue_blocks_wp (block : ℕ → List Op) {n : ℕ} (ha : fn.Accepted shape)
    (h : Enqueued gemm before full m₀ ops d) (hx : ops ++ (List.range n).flatMap block <+: full) :
    (Host.forEach (fun i => enqueue_ops shape fn (block i)) (List.range n)).wp (world gemm)
      (fun _ l' d' => l' = l ∧ Enqueued gemm before full m₀ (ops ++ (List.range n).flatMap block) d') anyThrow l d := by
  refine Host.wp_forRange
    (I := fun i l' d' => l' = l ∧ Enqueued gemm before full m₀ (ops ++ (List.range i).flatMap block) d') ?_
    ⟨rfl, by simpa using h⟩
  rintro i hi _ d ⟨rfl, h⟩
  have hblock := flatMap_range_succ block i
  rw [hblock, ← List.append_assoc]
  refine enqueue_ops_wp ha h (List.IsPrefix.trans ?_ hx)
  rw [List.append_assoc, ← hblock]
  exact (List.prefix_append_right_inj _).mpr (flatMap_range_part _ hi)

theorem enqueues_blocks (cfg : Config) (ha : fn.Accepted shape) :
    cfg.Enqueues (fun n => Host.forEach (fun i => enqueue_ops shape fn (cfg.block i)) (List.range n)) :=
  fun _ _ _ _ _ _ _ _ _ h hx => enqueue_blocks_wp cfg.block ha h hx

/-- The inputs of job `i`, which are enqueued ahead of the rest of its block. -/
def ahead (n i : ℕ) : List Op := if i < n then h2d_job i else []

theorem blocks_ahead {n i : ℕ} (hi : i < n) :
    (List.range i).flatMap double_buffer.block ++ ahead n i ++ compute_job i =
      (List.range (i + 1)).flatMap double_buffer.block := by
  simp [flatMap_range_succ, ahead, hi, double_buffer]

theorem ahead_part {n i : ℕ} (hi : i ≤ n) :
    (List.range i).flatMap double_buffer.block ++ ahead n i <+: (List.range n).flatMap double_buffer.block := by
  rcases hi.lt_or_eq with hlt | rfl
  · exact List.IsPrefix.trans ⟨compute_job i, blocks_ahead hlt⟩ (flatMap_range_part _ hlt)
  · simp [ahead]

/-- Enqueuing the inputs of a job before the kernel of the job before comes to the same schedule. -/
theorem enqueues_double_buffer (ha : fn.Accepted shape) :
    double_buffer.Enqueues (double_buffer_jobs shape fn) := by
  intro V gemm n ops before full m₀ l d hn h hx
  have hpart : ∀ i ≤ n, ops ++ ((List.range i).flatMap double_buffer.block ++ ahead n i) <+: full := fun i hi =>
    List.IsPrefix.trans ((List.prefix_append_right_inj _).mpr (ahead_part hi)) hx
  have hloop : ∀ i < n, ∀ l' d', l' = l ∧ Enqueued gemm before full m₀
      (ops ++ ((List.range i).flatMap double_buffer.block ++ ahead n i)) d' →
      (double_buffer_job shape fn n i).wp (world gemm) (fun _ l'' d'' => l'' = l ∧ Enqueued gemm before full m₀
        (ops ++ ((List.range (i + 1)).flatMap double_buffer.block ++ ahead n (i + 1))) d'') anyThrow l' d' := by
    rintro i hi _ d ⟨rfl, h⟩
    have hnext := hpart (i + 1) hi
    have hjob : ops ++ ((List.range i).flatMap double_buffer.block ++ ahead n i) ++ compute_job i =
        ops ++ (List.range (i + 1)).flatMap double_buffer.block := by rw [List.append_assoc, blocks_ahead hi]
    rw [← List.append_assoc] at hnext ⊢
    unfold double_buffer_job
    refine Host.wp_seq (enqueue_ops_wp ha h (hjob ▸ (List.prefix_append _ _).trans hnext)) ?_ fun _ _ _ h => h
    rintro _ _ d ⟨rfl, h⟩
    rw [hjob] at h
    by_cases hlt : i + 1 < n
    · have hahead : ahead n (i + 1) = h2d_job (i + 1) := if_pos hlt
      rw [if_pos hlt]
      rw [hahead] at hnext ⊢
      exact enqueue_ops_wp ha h hnext
    · have hahead : ahead n (i + 1) = [] := if_neg hlt
      rw [if_neg hlt, hahead, List.append_nil]
      exact ⟨rfl, h⟩
  have hfirst : ahead n 0 = h2d_job 0 := if_pos hn
  have hlast : ahead n n = [] := if_neg (lt_irrefl n)
  have hpart₀ := hpart 0 (Nat.zero_le n)
  unfold double_buffer_jobs
  refine Host.wp_seq (enqueue_ops_wp ha h (by simpa [hfirst] using hpart₀)) ?_ fun _ _ _ h => h
  rintro _ _ d ⟨rfl, h⟩
  have hrange := Host.wp_forRange (n := n) hloop ⟨rfl, by simpa [hfirst] using h⟩
  simpa only [hlast, List.append_nil] using hrange

/-- An idle device, before anything of the schedule has been issued. -/
theorem Rest.enqueued (h : Rest m d) (hrace : RaceFree (footprints gemm) d.issued.length (d.issued ++ full)) :
    Enqueued gemm d.issued full m [] d :=
  ⟨h.memory ▸ Replays.of_idle h.toWellFormed h.idle, by simp, List.nil_prefix, hrace⟩

/-- `cudaDeviceSynchronize`, checked, while the device is idle. -/
theorem Rest.device_synchronize {rest : HostM Unit} {Q : Unit → Locals → Dev V → Prop} (h : Rest m d)
    (hrest : rest.wp (world gemm) Q anyThrow l d) :
    (Host.call .cudaDeviceSynchronize >>= fun r => CUDA_CHECK r >>= fun _ => rest).wp (world gemm) Q anyThrow l d := by
  rw [Host.wp_bind]
  refine h.call trivial fun r d' hr => ?_
  cases hr with
  | device => exact hrest
  | device_failed => exact trivial

/-- **A repetition** computes the products, and measures. -/
theorem repetition_wp {cfg : Config} {c rep : ℕ} {enqueue : ℕ → HostM Unit} (h : cfg.Pipelined gemm c)
    (henqueue : cfg.Enqueues enqueue) (hd : Rest m d) (hl : Kept (rep - opt.warmup) l) :
    (repetition fl opt cfg.first cfg.last enqueue rep).wp (world gemm)
      (fun _ l' d' => Rest (products .pin gemm opt.jobs m) d' ∧ Kept (rep + 1 - opt.warmup) l') anyThrow l d := by
  have hstart : [⟨cfg.first, .record .start⟩] ++ (List.range opt.jobs).flatMap cfg.block <+: cfg.schedule opt.jobs :=
    List.prefix_append _ _
  unfold repetition
  refine hd.device_synchronize ?_
  refine Host.wp_seq (issue_wp (hd.enqueued h.raceFree) ((List.prefix_append _ _).trans hstart)) ?_ fun _ _ _ h => h
  rintro _ _ d₁ ⟨rfl, h₁⟩
  refine Host.wp_seq (henqueue gemm opt.jobs _ _ _ _ _ _ opt.jobs_pos h₁ hstart) ?_ fun _ _ _ h => h
  rintro _ _ d₂ ⟨rfl, h₂⟩
  refine Host.wp_seq (issue_wp h₂ (List.prefix_rfl : _ <+: cfg.schedule opt.jobs)) ?_ fun _ _ _ h => h
  rintro _ _ d₃ ⟨rfl, h₃⟩
  rw [Host.wp_bind]
  refine h₃.call (fun _ _ => trivial) fun d₄ r d' h₄ hr => ?_
  cases hr with
  | event_failed => exact trivial
  | event hsync =>
    have hissued : d₄.issued = cfg.issued opt.jobs d.issued := h₄.issued
    have hidle : d₄.Idle := h.idle opt.jobs_pos h₄.toWellFormed hissued h₄.start hsync
    have hmemory : d₄.memory = products .pin gemm opt.jobs m := by
      rw [h₄.toReplays.sequential hidle, hissued, List.drop_left, h.sequential_schedule]
    have hrest : Rest (products .pin gemm opt.jobs m) d₄ := ⟨h₄.toWellFormed, hidle, hmemory⟩
    have hhappened : ∀ i < opt.jobs, ∀ e ∈ measured i, Happened d₄ e := by
      intro i hi e he
      obtain ⟨s, hs⟩ := h.records i e he
      refine happened_of_idle (s := s) hidle ?_
      rw [hissued]
      have hmem : ⟨s, .record e⟩ ∈ (List.range opt.jobs).flatMap cfg.block :=
        List.mem_flatMap.mpr ⟨i, List.mem_range.mpr hi, hs⟩
      simp [Config.schedule, hmem]
    have hends : Happened d₄ .start ∧ Happened d₄ .stop :=
      ⟨happened_of_idle (s := cfg.first) hidle (by simp [hissued, Config.schedule]),
        happened_of_idle (s := cfg.last) hidle (by simp [hissued, Config.schedule])⟩
    rw [CUDA_CHECK, Host.wp_bind, Host.wp_pure, Host.wp_bind, Host.wp_assign]
    refine Host.wp_seq (measure_all_wp hrest hhappened ⟨hl.totals, hl.h2d, hl.kern, hl.d2h⟩) ?_ fun _ _ _ h => h
    rintro _ l _ ⟨rfl, hl⟩
    refine Host.wp_mono (keep_wp hl (hrest.elapsed hends.1 hends.2 fun _ => ⟨rfl, rfl⟩)) ?_ fun _ _ _ h => h
    rintro _ l _ ⟨rfl, hl⟩
    exact ⟨hrest, hl⟩

/-- What a run returns is made of as many values of each kind as there are repetitions that count. -/
def Reported (fl : ℚ → ℚ) (opt : Options) (r : Result) : Prop := ∃ l, Kept opt.reps l ∧ r = result fl opt l

/-- **A loop of repetitions**, each of which turns a memory `m'` with `f m' = f m` into `f m`. -/
theorem repeat_wp {f : Memory V → Memory V} {P : ℕ → Locals → Prop} {body : ℕ → HostM Unit} {n : ℕ} {m' : Memory V}
    (hf : ∀ m, f (f m) = f m)
    (hbody : ∀ rep m l d, Rest m d → P rep l →
      (body rep).wp (world gemm) (fun _ l' d' => Rest (f m) d' ∧ P (rep + 1) l') anyThrow l d)
    (hn : 0 < n) (hd : Rest m' d) (hm : f m' = f m) (hl : P 0 l) :
    (Host.forEach body (List.range n)).wp (world gemm) (fun _ l' d' => Rest (f m) d' ∧ P n l') anyThrow l d := by
  have hloop : (Host.forEach body (List.range n)).wp (world gemm)
      (fun _ l' d' => (∃ m', Rest m' d' ∧ f m' = f m ∧ (0 < n → m' = f m)) ∧ P n l') anyThrow l d := by
    refine Host.wp_forRange (I := fun rep l' d' => (∃ m', Rest m' d' ∧ f m' = f m ∧ (0 < rep → m' = f m)) ∧ P rep l') ?_
      ⟨⟨m', hd, hm, fun h => absurd h (lt_irrefl 0)⟩, hl⟩
    rintro rep - l d ⟨⟨m', hd, hm, -⟩, hl⟩
    refine Host.wp_mono (hbody rep m' l d hd hl) ?_ fun _ _ _ h => h
    rintro _ l' d' ⟨hd', hl'⟩
    exact ⟨⟨f m', hd', by rw [hf, hm], fun _ => hm⟩, hl'⟩
  refine Host.wp_mono hloop ?_ fun _ _ _ h => h
  rintro _ l d ⟨⟨m', hd, -, hm⟩, hl⟩
  obtain rfl := hm hn
  exact ⟨hd, hl⟩

/-- **The repetitions of a run.** -/
theorem repetitions_wp {f : Memory V → Memory V} {body : ℕ → HostM Unit} (hf : ∀ m, f (f m) = f m)
    (hbody : ∀ rep m l d, Rest m d → Kept (rep - opt.warmup) l → (body rep).wp (world gemm)
      (fun _ l' d' => Rest (f m) d' ∧ Kept (rep + 1 - opt.warmup) l') anyThrow l d) (hd : Rest m d) :
    (do
      Host.assign fun _ => {}
      Host.forEach body (List.range (opt.warmup + opt.reps))
      let l ← Host.locals
      pure (result fl opt l) : HostM Result).wp (world gemm)
      (fun r _ d' => Rest (f m) d' ∧ Reported fl opt r) anyThrow l d := by
  have hstart : Kept (0 - opt.warmup) {} := by
    rw [Nat.zero_sub]
    exact ⟨rfl, rfl, rfl, rfl⟩
  rw [Host.wp_bind, Host.wp_assign]
  refine Host.wp_seq (repeat_wp (P := fun rep => Kept (rep - opt.warmup)) hf hbody
    (Nat.add_pos_right _ opt.reps_pos) hd rfl hstart) ?_ fun _ _ _ h => h
  rintro _ l d ⟨hd, hl⟩
  rw [Nat.add_sub_cancel_left] at hl
  exact ⟨hd, l, hl, rfl⟩

theorem run_pinned_wp {cfg : Config} {c : ℕ} {enqueue : ℕ → HostM Unit} (h : cfg.Pipelined gemm c)
    (henqueue : cfg.Enqueues enqueue) (hd : Rest m d) :
    (run_pinned fl opt cfg.first cfg.last enqueue).wp (world gemm)
      (fun r _ d' => Rest (products .pin gemm opt.jobs m) d' ∧ Reported fl opt r) anyThrow l d :=
  repetitions_wp (products_products .pin opt.jobs) (fun _ _ _ _ hd hl => repetition_wp h henqueue hd hl) hd

/-! ### The run with pageable memory -/

/-- What `run_pageable` issues for job `i`. -/
def pageable_ops (i : ℕ) : List Op :=
  [⟨.default, .work (.copy .dev_a .page_a i)⟩,
   ⟨.default, .work (.copy .dev_b .page_b i)⟩,
   ⟨.default, .record (.k0 i)⟩,
   ⟨.default, .work (.gemm i)⟩,
   ⟨.default, .record (.k1 i)⟩,
   ⟨.default, .work (.copy .page_c .dev_c i)⟩]

theorem pageable_ops_product (i : ℕ) (m : Memory V) :
    sequential (Work.run gemm) (pageable_ops i) m = product .page gemm i m := by
  funext ⟨b, j⟩
  cases b <;>
    simp [pageable_ops, sequential, Device.effect, Work.run, product, Kind.a, Kind.b, Kind.c, Function.update_apply]

theorem pageable_ops_stream {n : ℕ} : ∀ x ∈ (List.range n).flatMap pageable_ops, x.stream = .default := by
  intro x hx
  obtain ⟨i, -, hx⟩ := List.mem_flatMap.mp hx
  simp only [pageable_ops, List.mem_cons, List.not_mem_nil, or_false] at hx
  rcases hx with rfl | rfl | rfl | rfl | rfl | rfl <;> rfl

/-- The clock may be read at any time. -/
theorem Enqueued.now {Q : ℚ → Locals → Dev V → Prop} (h : Enqueued gemm before full m₀ ops d)
    (hQ : ∀ t d, Enqueued gemm before full m₀ ops d → Q t l d) :
    (Host.call Call.now : HostM ℚ).wp (world gemm) Q anyThrow l d := by
  refine h.call (fun _ _ => trivial) fun d r d' hd hr => ?_
  cases hr
  exact hQ r d hd

/-- The operation at place `r` of `xs` is issued before what follows. -/
theorem enqueue_then {α : Type} {p : HostM Unit} {rest : HostM α} {Q : α → Locals → Dev V → Prop} {xs : List Op}
    {r : ℕ} (ha : fn.Accepted shape) (h : Enqueued gemm before full m₀ (ops ++ xs.take r) d) (hx : xs[r]? = some x)
    (hp : p = enqueue_op shape fn x) (hpart : ops ++ xs <+: full)
    (hrest : ∀ d, Enqueued gemm before full m₀ (ops ++ xs.take (r + 1)) d → rest.wp (world gemm) Q anyThrow l d) :
    (p >>= fun _ => rest).wp (world gemm) Q anyThrow l d := by
  have htake : ops ++ xs.take (r + 1) = ops ++ xs.take r ++ [x] := by
    rw [List.take_add_one, hx, Option.toList_some, List.append_assoc]
  have hpart' : ops ++ xs.take (r + 1) <+: full :=
    List.IsPrefix.trans ((List.prefix_append_right_inj _).mpr ( List.take_prefix _ _)) hpart
  rw [htake] at hrest hpart'
  rw [hp]
  refine Host.wp_seq (enqueue_op_wp ha h hpart') ?_ fun _ _ _ h => h
  rintro _ _ d ⟨rfl, h⟩
  exact hrest d h

/-- When everything on the only stream has finished, so has everything. -/
theorem Enqueued.idle_of_stream {s : Stream} (h : Enqueued gemm before full m₀ ops d) (hs : ∀ x ∈ full, x.stream = s)
    (hdone : ∀ i op, d.issued[i]? = some ⟨s, op⟩ → i ∈ d.finished) : d.Idle := by
  intro k hk
  rcases Nat.lt_or_ge k before.length with hlt | hge
  · exact h.start k hlt
  · obtain ⟨⟨t, op⟩, hx⟩ : ∃ x, d.issued[k]? = some x := ⟨_, List.getElem?_eq_getElem hk⟩
    have hmem := hx
    rw [h.issued, List.getElem?_append_right hge] at hmem
    obtain rfl : t = s := hs _ (h.part.subset (List.mem_of_getElem? hmem))
    exact hdone k op hx

/-- A job waits for its kernel before it measures it, and for the copy of its result. -/
theorem pageable_job_wp {k i : ℕ} (ha : fn.Accepted shape) (h : Enqueued gemm before full m₀ ops d)
    (hs : ∀ x ∈ full, x.stream = .default) (hpart : ops ++ pageable_ops i <+: full) (hl : Kept k l) :
    (pageable_job fl shape fn i).wp (world gemm)
      (fun _ l' d' => Enqueued gemm before full m₀ (ops ++ pageable_ops i) d' ∧ d'.Idle ∧ Kept k l') anyThrow l d := by
  replace h : Enqueued gemm before full m₀ (ops ++ (pageable_ops i).take 0) d := by simpa using h
  unfold pageable_job cudaMemcpy_h2d cudaMemcpy_d2h
  rw [Host.wp_bind]
  refine h.now fun t0 d h => ?_
  refine enqueue_then ha h rfl rfl hpart fun d h => ?_
  refine enqueue_then ha h rfl rfl hpart fun d h => ?_
  rw [Host.wp_bind]
  refine h.now fun t1 d h => ?_
  rw [Host.wp_bind, Host.wp_assign]
  refine enqueue_then ha h rfl rfl hpart fun d h => ?_
  refine enqueue_then ha h rfl rfl hpart fun d h => ?_
  refine enqueue_then ha h rfl rfl hpart fun d h => ?_
  rw [Host.wp_bind]
  refine h.call (fun _ _ => trivial) fun d r d' h hr => ?_
  cases hr with
  | event_failed => exact trivial
  | event hsync =>
    -- the record of `k1` is the last thing that has been issued
    have hissued : d.issued = before ++ (ops ++ (pageable_ops i).take 4 ++ [⟨.default, .record (.k1 i)⟩]) := by
      simp [h.issued, pageable_ops]
    have hidle : d.Idle := h.toReplays.idle_of_synced hissued
      (fun x hx => hs x (hpart.subset
        (((List.prefix_append_right_inj ops).mpr ( List.take_prefix 4 _)).subset hx))) hsync
    have hrest : Rest d.memory d := ⟨h.toWellFormed, hidle, rfl⟩
    rw [CUDA_CHECK, Host.wp_bind, Host.wp_pure, Host.wp_bind]
    refine hrest.elapsed (happened_of_idle (s := .default) hidle (by simp [h.issued, pageable_ops]))
      (happened_of_idle (s := .default) hidle (by simp [h.issued, pageable_ops])) fun ms => ?_
    rw [Host.wp_bind, Host.wp_assign, Host.wp_bind]
    refine h.now fun t0 d h => ?_
    rw [Host.wp_bind]
    refine enqueue_then ha h rfl rfl hpart fun d h => ?_
    rw [Host.wp_bind]
    refine h.call (fun _ _ => trivial) fun d r d' h hr => ?_
    cases hr with
    | stream_failed => exact trivial
    | stream hdone =>
      have hidle := h.idle_of_stream hs hdone
      rw [CUDA_CHECK, Host.wp_pure, Host.wp_bind]
      refine Rest.call ⟨h.toWellFormed, hidle, rfl⟩ trivial fun t1 d' hr => ?_
      cases hr
      exact ⟨h, hidle, ⟨hl.totals, hl.h2d, hl.kern, hl.d2h⟩⟩

/-- **A repetition** with pageable memory. -/
theorem pageable_repetition_wp {rep : ℕ} (ha : fn.Accepted shape) (hd : Rest m d) (hl : Kept (rep - opt.warmup) l) :
    (pageable_repetition fl opt shape fn rep).wp (world gemm)
      (fun _ l' d' => Rest (products .page gemm opt.jobs m) d' ∧ Kept (rep + 1 - opt.warmup) l') anyThrow l d := by
  let full := (List.range opt.jobs).flatMap pageable_ops
  have hloop : ∀ l, Kept (rep - opt.warmup) l →
      (Host.forEach (pageable_job fl shape fn) (List.range opt.jobs)).wp (world gemm)
      (fun _ l' d' => Enqueued gemm d.issued full m full d' ∧ d'.Idle ∧ Kept (rep - opt.warmup) l') anyThrow l d := by
    intro l hl
    refine Host.wp_forRange
      (I := fun i l' d' => Enqueued gemm d.issued full m ((List.range i).flatMap pageable_ops) d' ∧
      d'.Idle ∧ Kept (rep - opt.warmup) l') ?_ ⟨hd.enqueued (raceFree_of_stream pageable_ops_stream), hd.idle, hl⟩
    rintro i hi l d ⟨h, -, hl⟩
    rw [flatMap_range_succ]
    refine pageable_job_wp ha h pageable_ops_stream ?_ hl
    rw [← flatMap_range_succ]
    exact flatMap_range_part _ hi
  unfold pageable_repetition
  refine hd.device_synchronize ?_
  rw [Host.wp_bind]
  refine hd.call trivial fun wall0 d' hr => ?_
  cases hr
  rw [Host.wp_bind, Host.wp_assign]
  refine Host.wp_seq (hloop _ ⟨hl.totals, hl.h2d, hl.kern, hl.d2h⟩) ?_ fun _ _ _ h => h
  rintro _ l d₁ ⟨h, hidle, hl⟩
  have hmemory : d₁.memory = products .page gemm opt.jobs m := by
    rw [h.toReplays.sequential hidle, h.issued, List.drop_left]
    exact sequential_blocks pageable_ops_product opt.jobs m
  have hrest : Rest (products .page gemm opt.jobs m) d₁ := ⟨h.toWellFormed, hidle, hmemory⟩
  rw [Host.wp_bind]
  refine hrest.call trivial fun wall1 d' hr => ?_
  cases hr
  refine Host.wp_mono (keep_wp hl ⟨rfl, rfl⟩) ?_ fun _ _ _ h => h
  rintro _ l _ ⟨rfl, hl⟩
  exact ⟨hrest, hl⟩

theorem run_pageable_wp (ha : fn.Accepted shape) (hd : Rest m d) : (run_pageable fl opt shape fn).wp (world gemm)
    (fun r _ d' => Rest (products .page gemm opt.jobs m) d' ∧ Reported fl opt r) anyThrow l d :=
  repetitions_wp (products_products .page opt.jobs) (fun _ _ _ _ hd hl => pageable_repetition_wp ha hd hl) hd

/-! ### The four runs -/

/-- Streams may be created and destroyed while the device is idle. -/
theorem with_streams_wp {streams : List Stream} {run : HostM Result} {R : Result → Prop} (hd : Rest m d)
    (hrun : ∀ l, run.wp (world gemm) (fun r _ d' => Rest m₀ d' ∧ R r) anyThrow l d) :
    (with_streams streams run).wp (world gemm) (fun r _ d' => Rest m₀ d' ∧ R r) anyThrow l d := by
  have hcreate : (Host.forEach (fun s => do
      let r ← Host.call (.cudaStreamCreate s)
      CUDA_CHECK r : Stream → HostM Unit) streams).wp (world gemm) (fun _ _ d' => d' = d) anyThrow l d := by
    refine Host.wp_forEach (I := fun _ d' => d' = d) ?_ rfl
    rintro s - l _ rfl
    rw [Host.wp_bind]
    refine hd.call trivial fun r d' hr => ?_
    cases hr with
    | create =>
      cases r with
      | ok => exact rfl
      | error => exact trivial
  have hdestroy : ∀ (r : Result) (l : Locals) (d : Dev V), Rest m₀ d → R r →
      (Host.forEach (fun s => do
        let r ← Host.call (.cudaStreamDestroy s)
        CUDA_CHECK r : Stream → HostM Unit) streams).wp (world gemm) (fun _ _ d' => Rest m₀ d' ∧ R r) anyThrow l d := by
    intro r l d hd hr
    refine Host.wp_forEach (I := fun _ d' => Rest m₀ d' ∧ R r) ?_ ⟨hd, hr⟩
    rintro s - l d ⟨hd, hr⟩
    rw [Host.wp_bind]
    refine hd.call trivial fun r' d' hans => ?_
    cases hans with
    | destroy =>
      cases r' with
      | ok => exact ⟨hd, hr⟩
      | error => exact trivial
  unfold with_streams
  refine Host.wp_seq hcreate ?_ fun _ _ _ h => h
  rintro _ l _ rfl
  refine Host.wp_seq (hrun l) ?_ fun _ _ _ h => h
  rintro r l d ⟨hd, hr⟩
  refine Host.wp_seq (hdestroy r l d hd hr) ?_ fun _ _ _ h => h
  intro _ l d h
  exact h

theorem run_pinned_single_wp (ha : fn.Accepted shape) (hd : Rest m d) :
    (run_pinned_single fl opt shape fn).wp (world gemm)
      (fun r _ d' => Rest (products .pin gemm opt.jobs m) d' ∧ Reported fl opt r) anyThrow l d :=
  run_pinned_wp (single_pipelined gemm) (enqueues_blocks single ha) hd

theorem run_pinned_overlap_wp (ha : fn.Accepted shape) (hd : Rest m d) :
    (run_pinned_overlap fl opt shape fn).wp (world gemm)
      (fun r _ d' => Rest (products .pin gemm opt.jobs m) d' ∧ Reported fl opt r) anyThrow l d :=
  with_streams_wp hd fun _ => run_pinned_wp (overlap_pipelined gemm) (enqueues_blocks overlap ha) hd

theorem run_pinned_double_buffer_wp (ha : fn.Accepted shape) (hd : Rest m d) :
    (run_pinned_double_buffer fl opt shape fn).wp (world gemm)
      (fun r _ d' => Rest (products .pin gemm opt.jobs m) d' ∧ Reported fl opt r) anyThrow l d :=
  with_streams_wp hd fun _ => run_pinned_wp (double_buffer_pipelined gemm) (enqueues_double_buffer ha) hd

theorem run_shape_wp (ha : fn.Accepted shape) (hd : Rest m d) : (run_shape fl opt shape fn).wp (world gemm)
    (fun rs _ d' => Rest (products .pin gemm opt.jobs (products .page gemm opt.jobs m)) d' ∧
      rs.length = 4 ∧ ∀ r ∈ rs, Reported fl opt r) anyThrow l d := by
  unfold run_shape
  refine Host.wp_seq (run_pageable_wp ha hd) ?_ fun _ _ _ h => h
  rintro pageable _ d ⟨hd, h₀⟩
  refine Host.wp_seq (run_pinned_single_wp ha hd) ?_ fun _ _ _ h => h
  rintro pinned1 _ d ⟨hd, h₁⟩
  refine Host.wp_seq (run_pinned_overlap_wp ha hd) ?_ fun _ _ _ h => h
  rintro pinned2 _ d ⟨hd, h₂⟩
  refine Host.wp_seq (run_pinned_double_buffer_wp ha hd) ?_ fun _ _ _ h => h
  rintro pinned3 _ d ⟨hd, h₃⟩
  rw [products_products, products_products] at hd
  exact ⟨hd, rfl, by simp [h₀, h₁, h₂, h₃]⟩

/-- Every call succeeds, and no time passes. -/
def succeed : (c : Call) → c.Ret
  | .issue _ | .cudaStreamCreate _ | .cudaStreamDestroy _ | .cudaEventSynchronize _ | .cudaStreamSynchronize _
  | .cudaDeviceSynchronize => .ok ()
  | .launch .. => ()
  | .cudaEventElapsedTime .. => .ok 0
  | .now => (0 : ℚ)

variable (gemm)

/-- A device that finishes everything at once answers every call. -/
theorem exists_exec_succeed {α : Type} (p : Prog Call Call.Ret α) (n : ℕ) {d₁ : Dev V} (hwf : d₁.WellFormed)
    (hidle : d₁.Idle) (hd : ReflTransGen (Device.Executes (Work.run gemm)) d d₁) :
    ∃ d', ReflTransGen (Exec (world gemm)) (p, d) (.pure (p.run (fun _ => succeed) n).2, d') := by
  induction p generalizing d d₁ n with
  | pure a => exact ⟨d, .refl⟩
  | call c k ih =>
    obtain ⟨d₂, d₃, hanswer, hwf₃, hidle₃, hd₃⟩ : ∃ d₂ d₃, Answer d₁ c (succeed c) d₂ ∧ d₃.WellFormed ∧ d₃.Idle ∧
        ReflTransGen (Device.Executes (Work.run gemm)) d₂ d₃ := by
      cases c with
      | issue x =>
        obtain ⟨d₃, hx, hidle₃⟩ : ∃ d₃, (d₁.issue x.stream x.op).Executes (Work.run gemm) d₃ ∧ d₃.Idle :=
          hidle.exists_executes hwf x.stream x.op
        exact ⟨_, d₃, .issue x, hx.wellFormed hwf.issue, hidle₃, .single hx⟩
      | launch grid s i =>
        by_cases hgrid : grid.Launches
        · obtain ⟨d₃, hx, hidle₃⟩ : ∃ d₃, (d₁.issue s (.work (.gemm i))).Executes (Work.run gemm) d₃ ∧ d₃.Idle :=
            hidle.exists_executes hwf s _
          exact ⟨_, d₃, .launch s i hgrid, hx.wellFormed hwf.issue, hidle₃, .single hx⟩
        · exact ⟨_, d₁, .launch_refused s i hgrid, hwf, hidle, .refl⟩
      | cudaStreamCreate s => exact ⟨_, d₁, .create s _, hwf, hidle, .refl⟩
      | cudaStreamDestroy s => exact ⟨_, d₁, .destroy s _, hwf, hidle, .refl⟩
      | cudaEventSynchronize e => exact ⟨_, d₁, .event fun j hj => hidle j hj.lt, hwf, hidle, .refl⟩
      | cudaStreamSynchronize s =>
        exact ⟨_, d₁, .stream fun i op hi => hidle i (List.getElem?_eq_some_iff.mp hi).1, hwf, hidle, .refl⟩
      | cudaDeviceSynchronize => exact ⟨_, d₁, .device hidle, hwf, hidle, .refl⟩
      | cudaEventElapsedTime e e' => exact ⟨_, d₁, .elapsed e e' _, hwf, hidle, .refl⟩
      | now => exact ⟨_, d₁, .now _, hwf, hidle, .refl⟩
    obtain ⟨d', h⟩ := ih (succeed c) (n + 1) hwf₃ hidle₃ hd₃
    exact ⟨d', .head (.call ⟨d₁, hd, hanswer⟩) h⟩

/-- So a function that returns when every call succeeds may return. -/
theorem exists_exec_ok {α : Type} {p : HostM α} (hok : ((p l).run (fun _ => succeed) 0).2.1.isOk = true)
    (hwf : d.WellFormed) (hidle : d.Idle) :
    ∃ a l' d', ReflTransGen (Exec (world gemm)) (p l, d) (.pure (.ok a, l'), d') := by
  obtain ⟨d', h⟩ := exists_exec_succeed gemm (p l) 0 hwf hidle .refl
  obtain ⟨⟨r, l'⟩, hrun⟩ : ∃ r, ((p l).run (fun _ => succeed) 0).2 = r := ⟨_, rfl⟩
  rw [hrun] at hok h
  cases r with
  | error => cases hok
  | ok a => exact ⟨a, l', d', h⟩

end Gbis.Bench
