import Gbis.Bench.Products
import Gbis.Bench.Reference

/-!
# The GEMM benchmark

`run_benchmark` of `src/bench/bench_gemm.cpp`, for the kernels: it runs a kernel on the legacy
stream, `warmup` times without and `iters` times with measurements, compares the result with the
reference on the host, and fails if an element is off by `kTolerance` or more.

The host program is one of `Gbis.Bench`: there is one job, whose buffers in pageable memory are
the vectors `h_a`, `h_b` and `h_c`, and whose events are `e_start` (`start`), `e_h2d` (`c1 0`),
`e_k0` (`k0 0`), `e_k1` (`k1 0`) and `e_end` (`stop`). A kernel is any function of its inputs. Its
result may be anything, also infinities and NaNs (`Value`); the inputs are the numbers that are
drawn, one after the other.

What is compared is what the kernel has computed of the inputs, if its launches are accepted
(`run_benchmark_wp`). The comparison, of whatever is compared, is as good as it can be, but for one
thing (`check_sound`): when it passes, each element is within the tolerance and the error of the
reference of the exact one, or it is a NaN; `std::max` passes over NaNs.
-/

namespace Gbis.Bench.Gemm

open Kernels Library Relation

/-! ### Values -/

/-- A `float`, or a `double`. -/
inductive Value where
  | nan
  | inf (negative : Bool)
  | num (x : ℚ)
  deriving DecidableEq

/-- The difference of two `double`s. -/
def Value.sub : Value → Value → Value
  | .num x, .num y => .num (binary64.round (x - y))
  | .num _, .inf s => .inf (!s)
  | .inf s, .num _ => .inf s
  | .inf s, .inf t => if s = t then .nan else .inf s
  | _, _ => .nan

/-- `std::fabs`. -/
def Value.fabs : Value → Value
  | .num x => .num |x|
  | .inf _ => .inf false
  | .nan => .nan

/-- `<`, which is false of a NaN. -/
def Value.lt : Value → Value → Bool
  | .num x, .num y => x < y
  | .num _, .inf s => !s
  | .inf s, .num _ => s
  | .inf s, .inf t => s && !t
  | _, _ => false

/-- `>=` of a number, which is false of a NaN. -/
def Value.ge : Value → ℚ → Bool
  | .num x, y => y ≤ x
  | .inf s, _ => !s
  | .nan, _ => false

/-- `std::max(a, b)`. -/
def Value.max (a b : Value) : Value := if a.lt b then b else a

/-! ### The benchmark -/

/-- `Options`, with a kernel to run. `parse_args` sees to it that they are positive. -/
structure Options where
  m : ℕ := 512
  n : ℕ := 512
  k : ℕ := 512
  batch : ℕ := 8
  iters : ℕ := 50
  warmup : ℕ := 10
  impl : GemmFn := .tiled
  skip_check : Bool := false
  iters_pos : 0 < iters

/-- What the kernel is given. -/
def Options.shape (opt : Options) : Shape :=
  ⟨Int32.ofNat opt.batch, Int32.ofNat opt.m, Int32.ofNat opt.n, Int32.ofNat opt.k⟩

/-- `kTolerance`. -/
def kTolerance : ℚ := binary64.round (1 / 1000)

/-- `max_abs_error`, of vectors of the same size. -/
def max_abs_error (a b : ℕ → Value) (size : ℕ) : Value :=
  (List.range size).foldl (fun max_err i => max_err.max ((a i).sub (b i)).fabs) (.num 0)

/-- What `run_once` issues. -/
def run_ops : List Op :=
  [⟨.default, .work (.copy .dev_a .page_a 0)⟩,
   ⟨.default, .work (.copy .dev_b .page_b 0)⟩,
   ⟨.default, .work (.gemm 0)⟩,
   ⟨.default, .work (.copy .page_c .dev_c 0)⟩]

/-- `run_once`. -/
def run_once (opt : Options) : HostM Unit := enqueue_ops opt.shape opt.impl run_ops

/-- What a measured run issues. -/
def timed_ops : List Op :=
  [⟨.default, .record .start⟩,
   ⟨.default, .work (.copy .dev_a .page_a 0)⟩,
   ⟨.default, .work (.copy .dev_b .page_b 0)⟩,
   ⟨.default, .record (.c1 0)⟩,
   ⟨.default, .record (.k0 0)⟩,
   ⟨.default, .work (.gemm 0)⟩,
   ⟨.default, .record (.k1 0)⟩,
   ⟨.default, .work (.copy .page_c .dev_c 0)⟩,
   ⟨.default, .record .stop⟩]

/-- The body of the loop over `iters`. -/
def timed_run (opt : Options) : HostM Unit := do
  enqueue_ops opt.shape opt.impl timed_ops
  let r ← Host.call (.cudaEventSynchronize .stop)
  CUDA_CHECK r
  let ms ← elapsed_ms .start (.c1 0)
  Host.assign fun l => { l with h2d := l.h2d ++ [ms] }
  let ms ← elapsed_ms (.k0 0) (.k1 0)
  Host.assign fun l => { l with kern := l.kern ++ [ms] }
  let ms ← elapsed_ms (.k1 0) .stop
  Host.assign fun l => { l with d2h := l.d2h ++ [ms] }
  let ms ← elapsed_ms .start .stop
  Host.assign fun l => { l with totals := l.totals ++ [ms] }

/-- What is measured. -/
structure Times where
  cpu_ms : ℚ
  h2d_ms : ℚ
  kernel_ms : ℚ
  d2h_ms : ℚ
  total_ms : ℚ

/-- The time the reference takes, if it is computed. -/
def time_reference (opt : Options) : HostM ℚ :=
  if opt.skip_check then pure 0
  else do
    let cpu_start ← Host.call .now
    let cpu_stop ← Host.call .now
    pure (binary64.round (cpu_stop - cpu_start))

/-- The medians of what is measured. -/
def medians (cpu_ms : ℚ) (l : Locals) : Times where
  cpu_ms    := cpu_ms
  h2d_ms    := median binary64.round l.h2d
  kernel_ms := median binary64.round l.kern
  d2h_ms    := median binary64.round l.d2h
  total_ms  := median binary64.round l.totals

/-- `run_benchmark`, up to the comparison. A batch that is too large for the grid is an error, whose status
here is `0`. -/
def run_benchmark (opt : Options) : HostM Times := do
  let cpu_ms ← time_reference opt
  if opt.batch > 65535 then Host.throw 0
  else do
    Host.assign fun _ => {}
    Host.forEach (fun _ => run_once opt) (List.range opt.warmup)
    let r ← Host.call .cudaDeviceSynchronize
    CUDA_CHECK r
    Host.forEach (fun _ => timed_run opt) (List.range opt.iters)
    let l ← Host.locals
    pure (medians cpu_ms l)

/-- The inputs: the numbers that are drawn. -/
def h_a (drawn : ℕ → ℚ) (i : ℕ) : ℚ := drawn i

@[inherit_doc h_a]
def h_b (opt : Options) (drawn : ℕ → ℚ) (i : ℕ) : ℚ := drawn (opt.m * opt.k * opt.batch + i)

/-- `h_ref`. -/
def h_ref (opt : Options) (drawn : ℕ → ℚ) : ℕ → ℚ :=
  gemm_cpu_reference (h_a drawn) (h_b opt drawn) (fun _ => 0) opt.m opt.n opt.k opt.batch

/-- The comparison. -/
def max_err (opt : Options) (drawn : ℕ → ℚ) (h_c : ℕ → Value) : Value :=
  if opt.skip_check then .nan
  else max_abs_error h_c (fun i => .num (h_ref opt drawn i)) (opt.m * opt.n * opt.batch)

/-- A line of the output. -/
structure Row where
  times : Times
  kernel_gflops : ℚ
  e2e_gflops : ℚ
  cpu_gflops : ℚ
  speedup : ℚ
  max_abs_err : Value

/-- The rest of `run_benchmark`: the line that it prints, and whether it returns `EXIT_SUCCESS`. -/
def report (opt : Options) (drawn : ℕ → ℚ) (t : Times) (h_c : ℕ → Value) : Row × Bool :=
  let fl := binary64.round
  let flops := fl (fl (fl (fl (2 * opt.m) * opt.n) * opt.k) * opt.batch)
  let gflops := fun ms => if ms > 0 then fl (fl (flops / ms) / 1000000) else 0
  let err := max_err opt drawn h_c
  ({ times := t, kernel_gflops := gflops t.kernel_ms, e2e_gflops := gflops t.total_ms,
     cpu_gflops := gflops t.cpu_ms, speedup := if t.kernel_ms > 0 then fl (t.cpu_ms / t.kernel_ms) else 0,
     max_abs_err := err },
   opt.skip_check || !err.ge kTolerance)

/-! ### The comparison -/

theorem Value.max_ne_nan {a b : Value} (ha : a ≠ .nan) : a.max b ≠ .nan := by
  unfold Value.max
  split_ifs with hlt
  · rintro rfl
    cases a <;> simp [Value.lt] at hlt
  · exact ha

/-- `std::max` passes over a NaN that is its second argument. -/
theorem Value.ge_max {a b : Value} (ha : a ≠ .nan) (y : ℚ) : (a.max b).ge y = (a.ge y || b.ge y) := by
  cases a with
  | nan => exact absurd rfl ha
  | inf s =>
    cases b with
    | inf t => cases s <;> cases t <;> simp [Value.max, Value.lt, Value.ge]
    | _ => cases s <;> simp [Value.max, Value.lt, Value.ge]
  | num x =>
    cases b with
    | nan => simp [Value.max, Value.lt, Value.ge]
    | inf s => cases s <;> simp [Value.max, Value.lt, Value.ge]
    | num x' =>
      rcases lt_or_ge x x' with hlt | hge
      · have hmax : (Value.num x).max (.num x') = .num x' := by simp [Value.max, Value.lt, hlt]
        rw [hmax]
        simp only [Value.ge]
        rw [Bool.eq_iff_iff, Bool.or_eq_true, decide_eq_true_iff, decide_eq_true_iff]
        exact ⟨.inr, fun h => h.elim (fun h => h.trans hlt.le) id⟩
      · have hmax : (Value.num x).max (.num x') = .num x := by simp [Value.max, Value.lt, hge.not_gt]
        rw [hmax]
        simp only [Value.ge]
        rw [Bool.eq_iff_iff, Bool.or_eq_true, decide_eq_true_iff, decide_eq_true_iff]
        exact ⟨.inl, fun h => h.elim id fun h => h.trans hge⟩

theorem ge_foldl_max (f : ℕ → Value) (is : List ℕ) {a : Value} (ha : a ≠ .nan) (y : ℚ) :
    (is.foldl (fun e i => e.max (f i)) a).ge y = (a.ge y || is.any fun i => (f i).ge y) := by
  induction is generalizing a with
  | nil => simp
  | cons i is ih => rw [List.foldl_cons, ih (Value.max_ne_nan ha), Value.ge_max ha, List.any_cons, Bool.or_assoc]

/-- **The greatest error is too large exactly if some error is.** -/
theorem max_abs_error_ge {a b : ℕ → Value} {size : ℕ} {y : ℚ} (hy : 0 < y) :
    (max_abs_error a b size).ge y = true ↔ ∃ i < size, ((a i).sub (b i)).fabs.ge y = true := by
  have hzero : (Value.num 0).ge y = false := by simp [Value.ge, hy]
  rw [max_abs_error, ge_foldl_max _ _ (by simp) y, hzero, Bool.false_or, List.any_eq_true]
  simp only [List.mem_range]

/-- A number a little less than `1 / 1000`, and one that is less still. -/
theorem tolerance_ge : 2097 / 2 ^ 21 ≤ kTolerance := by
  refine (Format.round_isNearest _).ge_of_ge ⟨2097, -21, ?_, ?_, ?_⟩ (by norm_num)
  · norm_num [binary64]
  · norm_num [binary64]
  · norm_num

theorem tolerance_pos : 0 < kTolerance := lt_of_lt_of_le (by norm_num) tolerance_ge

/-- What is beyond the tolerance is found to be. -/
theorem tolerance_le_round {y : ℚ} (hy : 1 / 1000 < |y|) : kTolerance ≤ |binary64.round y| := by
  rcases lt_abs.mp hy with hpos | hneg
  · exact (Format.round_mono hpos.le).trans (le_abs_self _)
  · have hnear := (Format.round_isNearest (F := binary64) (1 / 1000)).neg fun _ => Format.neg_mem
    have hle : binary64.round y ≤ -kTolerance := (Format.round_isNearest y).mono hnear (by linarith)
    exact le_abs.mpr (.inr (by linarith))

/-- What is well within it is not. -/
theorem round_lt_tolerance {y : ℚ} (hy : |y| ≤ 999 / 1000000) : |binary64.round y| < kTolerance := by
  obtain ⟨hlo, hhi⟩ := abs_le.mp hy
  have hmem : (1048 / 2 ^ 20 : ℚ) ∈ binary64.numbers := by
    refine ⟨1048, -20, ?_, ?_, ?_⟩
    · norm_num [binary64]
    · norm_num [binary64]
    · norm_num
  have hle : |binary64.round y| ≤ 1048 / 2 ^ 20 := by
    rw [abs_le]
    exact ⟨(Format.round_isNearest y).ge_of_ge (Format.neg_mem hmem) (by linarith),
      (Format.round_isNearest y).le_of_le hmem (by linarith)⟩
  linarith [tolerance_ge]

/-- Each element is a NaN, or a number that is as near to the one of the product. -/
def Near (opt : Options) (drawn : ℕ → ℚ) (tolerance : ℚ) (h_c : ℕ → Value) : Prop :=
  ∀ b < opt.batch, ∀ m < opt.m, ∀ n < opt.n, h_c (offset opt.m opt.n b m n) = .nan ∨
    ∃ x, h_c (offset opt.m opt.n b m n) = .num x ∧
      |x - dot (h_a drawn) (h_b opt drawn) opt.m opt.n opt.k b m n| ≤ tolerance

theorem sub_fabs_ge {v : Value} {r : ℚ} :
    ((v.sub (.num r)).fabs.ge kTolerance = true) ↔
      v ≠ .nan ∧ ∀ x, v = .num x → kTolerance ≤ |binary64.round (x - r)| := by
  cases v with
  | nan => simp [Value.sub, Value.fabs, Value.ge]
  | inf s => simp [Value.sub, Value.fabs, Value.ge]
  | num x => simp [Value.sub, Value.fabs, Value.ge]

/-! ### The runs -/

section

variable {V : Type} {kernel : V → V → V} {opt : Options} {m : Memory V} {d : Dev V} {l : Locals}

theorem product_product (m : Memory V) :
    product .page kernel 0 (product .page kernel 0 m) = product .page kernel 0 m := by
  funext ⟨b, j⟩
  by_cases hj : j = 0
  · cases b <;> simp [product, Kind.a, Kind.b, Kind.c, hj]
  · simp [product, hj]

theorem run_ops_product (m : Memory V) : sequential (Work.run kernel) run_ops m = product .page kernel 0 m := by
  funext ⟨b, j⟩
  cases b <;>
    simp [run_ops, sequential, Device.effect, Work.run, product, Kind.a, Kind.b, Kind.c, Function.update_apply]

theorem timed_ops_product (m : Memory V) : sequential (Work.run kernel) timed_ops m = product .page kernel 0 m := by
  funext ⟨b, j⟩
  cases b <;>
    simp [timed_ops, sequential, Device.effect, Work.run, product, Kind.a, Kind.b, Kind.c, Function.update_apply]

/-- The warm-up, in which nobody waits. -/
theorem warmup_product (n : ℕ) (m : Memory V) :
    product .page kernel 0 (sequential (Work.run kernel) ((List.range n).flatMap fun _ => run_ops) m) =
      product .page kernel 0 m := by
  induction n with
  | zero => rfl
  | succ n ih =>
    have hrun (m : Memory V) : sequential (Work.run kernel) run_ops m = product .page kernel 0 m := run_ops_product m
    unfold sequential at hrun ih ⊢
    rw [flatMap_range_succ, List.foldl_append, hrun, product_product, ih]

theorem run_ops_stream {n : ℕ} : ∀ x ∈ (List.range n).flatMap fun _ => run_ops, x.stream = .default := by
  intro x hx
  obtain ⟨i, -, hx⟩ := List.mem_flatMap.mp hx
  simp only [run_ops, List.mem_cons, List.not_mem_nil, or_false] at hx
  rcases hx with rfl | rfl | rfl | rfl <;> rfl

theorem timed_ops_stream : ∀ x ∈ timed_ops, x.stream = .default := by
  intro x hx
  simp only [timed_ops, List.mem_cons, List.not_mem_nil, or_false] at hx
  rcases hx with rfl | rfl | rfl | rfl | rfl | rfl | rfl | rfl | rfl <;> rfl

/-- A measured run waits for its last operation, before it measures. -/
theorem timed_run_wp {k : ℕ} (ha : opt.impl.Accepted opt.shape) (hd : Rest m d) (hl : Kept k l) :
    (timed_run opt).wp (world kernel) (fun _ l' d' => Rest (product .page kernel 0 m) d' ∧ Kept (k + 1) l') anyThrow
      l d := by
  unfold timed_run
  refine Host.wp_seq (enqueue_ops_wp ha (hd.enqueued (raceFree_of_stream timed_ops_stream)) List.prefix_rfl) ?_
    fun _ _ _ h => h
  rintro _ _ d₁ ⟨rfl, h₁⟩
  rw [Host.wp_bind]
  refine h₁.call (fun _ _ => trivial) fun d₂ r d' h₂ hr => ?_
  cases hr with
  | event_failed => exact trivial
  | event hsync =>
    have hissued : d₂.issued = d.issued ++ (timed_ops.take 8 ++ [⟨.default, .record .stop⟩]) := h₂.issued
    have hidle : d₂.Idle := h₂.toReplays.idle_of_synced hissued
      (fun x hx => timed_ops_stream x (List.take_subset 8 _ hx)) hsync
    have hmemory : d₂.memory = product .page kernel 0 m := by
      rw [h₂.toReplays.sequential hidle, h₂.issued, List.drop_left]
      exact timed_ops_product m
    have hrest : Rest (product .page kernel 0 m) d₂ := ⟨h₂.toWellFormed, hidle, hmemory⟩
    have hhappened : ∀ e, ⟨.default, .record e⟩ ∈ timed_ops → Happened d₂ e := by
      intro e he
      refine happened_of_idle (s := .default) hidle ?_
      rw [h₂.issued]
      exact List.mem_append_right _ he
    have hstart := hhappened .start (by simp [timed_ops])
    have hstop := hhappened .stop (by simp [timed_ops])
    have hk₁ := hhappened (.k1 0) (by simp [timed_ops])
    rw [CUDA_CHECK, Host.wp_bind, Host.wp_pure, Host.wp_bind]
    refine hrest.elapsed hstart (hhappened (.c1 0) (by simp [timed_ops])) fun ms => ?_
    rw [Host.wp_bind, Host.wp_assign, Host.wp_bind]
    refine hrest.elapsed (hhappened (.k0 0) (by simp [timed_ops])) hk₁ fun ms => ?_
    rw [Host.wp_bind, Host.wp_assign, Host.wp_bind]
    refine hrest.elapsed hk₁ hstop fun ms => ?_
    rw [Host.wp_bind, Host.wp_assign, Host.wp_bind]
    refine hrest.elapsed hstart hstop fun ms => ?_
    exact ⟨hrest, by simp [hl.totals], by simp [hl.h2d], by simp [hl.kern], by simp [hl.d2h]⟩

theorem time_reference_wp (hd : Rest m d) :
    (time_reference opt).wp (world kernel) (fun _ _ d' => d' = d) anyThrow l d := by
  unfold time_reference
  split_ifs
  · exact rfl
  · rw [Host.wp_bind]
    refine hd.call trivial fun cpu_start d' hr => ?_
    cases hr
    rw [Host.wp_bind]
    refine hd.call trivial fun cpu_stop d' hr => ?_
    cases hr
    exact rfl

/-- **What the benchmark compares** is what the kernel has computed of the inputs, if its launches are
accepted, and what it reports are medians of `iters` values. -/
theorem run_benchmark_wp (ha : opt.impl.Accepted opt.shape) (hd : Rest m d) :
    (run_benchmark opt).wp (world kernel)
      (fun t _ d' => Rest (product .page kernel 0 m) d' ∧ ∃ cpu_ms l, Kept opt.iters l ∧ t = medians cpu_ms l)
      anyThrow l d := by
  unfold run_benchmark
  refine Host.wp_seq (time_reference_wp hd) ?_ fun _ _ _ h => h
  rintro cpu_ms l _ rfl
  split_ifs with hbatch
  · exact trivial
  rw [Host.wp_bind, Host.wp_assign]
  refine Host.wp_seq (enqueue_blocks_wp (fun _ => run_ops) ha
    (hd.enqueued (raceFree_of_stream run_ops_stream)) List.prefix_rfl) ?_ fun _ _ _ h => h
  rintro _ _ d₁ ⟨rfl, h₁⟩
  rw [Host.wp_bind]
  refine h₁.call (fun _ _ => trivial) fun d₂ r d' h₂ hr => ?_
  cases hr with
  | device_failed => exact trivial
  | device hidle =>
    have hmemory : d₂.memory =
        sequential (Work.run kernel) ((List.range opt.warmup).flatMap fun _ => run_ops) m := by
      rw [h₂.toReplays.sequential hidle, h₂.issued, List.drop_left, List.nil_append]
    rw [CUDA_CHECK, Host.wp_bind, Host.wp_pure]
    refine Host.wp_seq (repeat_wp (f := product .page kernel 0) (P := Kept) product_product
      (fun _ _ _ _ hd hl => timed_run_wp ha hd hl) opt.iters_pos ⟨h₂.toWellFormed, hidle, hmemory⟩
      (warmup_product _ m) ⟨rfl, rfl, rfl, rfl⟩) ?_ fun _ _ _ h => h
    rintro _ l d ⟨hd, hl⟩
    exact ⟨hd, cpu_ms, l, hl, rfl⟩

end

/-! ### What it is worth -/

variable {opt : Options} {drawn : ℕ → ℚ} {h_c : ℕ → Value} {t : Times}

/-- The error of an element of the reference, at most. -/
def referenceError (opt : Options) : ℚ := 51 / 50 * opt.k / 2 ^ 24

/-- The matrices that the reference is computed for: their subscripts are exact, and their elements small. -/
structure Covered (opt : Options) (drawn : ℕ → ℚ) : Prop where
  k_le : opt.k ≤ 2 ^ 20
  a : Subscripts opt.m opt.k
  b : Subscripts opt.k opt.n
  c : Subscripts opt.m opt.n
  drawn : ∀ i, |drawn i| ≤ 1

/-- The benchmark fails exactly if it checks, and finds an element that is off. -/
theorem report_iff (hcheck : opt.skip_check = false) :
    (report opt drawn t h_c).2 = true ↔ ∀ b < opt.batch, ∀ m < opt.m, ∀ n < opt.n,
      h_c (offset opt.m opt.n b m n) = .nan ∨ ∃ x, h_c (offset opt.m opt.n b m n) = .num x ∧
        |binary64.round (x - h_ref opt drawn (offset opt.m opt.n b m n))| < kTolerance := by
  have hfails : (report opt drawn t h_c).2 = true ↔ ∀ i < opt.m * opt.n * opt.batch,
      ¬ ((h_c i).sub (.num (h_ref opt drawn i))).fabs.ge kTolerance = true := by
    have herr : (max_abs_error h_c (fun i => .num (h_ref opt drawn i)) (opt.m * opt.n * opt.batch)).ge kTolerance =
        true ↔ _ := max_abs_error_ge tolerance_pos
    simp only [report, max_err, hcheck, Bool.false_eq_true, if_false, Bool.false_or, Bool.not_eq_true',
      ← Bool.not_eq_true, herr, not_exists, not_and]
  have helement : ∀ i, ¬ ((h_c i).sub (.num (h_ref opt drawn i))).fabs.ge kTolerance = true ↔
      h_c i = .nan ∨ ∃ x, h_c i = .num x ∧ |binary64.round (x - h_ref opt drawn i)| < kTolerance := by
    intro i
    rw [sub_fabs_ge]
    cases h_c i <;> simp
  rw [hfails]
  constructor
  · intro h b hb m hm n hn
    refine (helement _).mp (h _ ?_)
    rw [Nat.mul_comm]
    exact offset_lt hb hm hn
  · intro h i hi
    rw [Nat.mul_comm] at hi
    obtain ⟨b, m, n, hb, hm, hn, rfl⟩ := exists_offset hi
    exact (helement _).mpr (h b hb m hm n hn)

/-- The reference is near the product. -/
theorem h_ref_error (h : Covered opt drawn) {b m n : ℕ} (hb : b < opt.batch) (hm : m < opt.m) (hn : n < opt.n) :
    |h_ref opt drawn (offset opt.m opt.n b m n) - dot (h_a drawn) (h_b opt drawn) opt.m opt.n opt.k b m n| ≤
      referenceError opt :=
  reference_error h.a h.b h.c (fun i _ => h.drawn i) (fun _ _ => h.drawn _) h.k_le hb hm hn

/-- What passes is near the product, … -/
theorem near_of_report (hcheck : opt.skip_check = false) (h : Covered opt drawn)
    (hpass : (report opt drawn t h_c).2 = true) : Near opt drawn (1 / 1000 + referenceError opt) h_c := by
  intro b hb m hm n hn
  rcases (report_iff hcheck).mp hpass b hb m hm n hn with hnan | ⟨x, hx, hround⟩
  · exact .inl hnan
  · refine .inr ⟨x, hx, ?_⟩
    have hdiff : |x - h_ref opt drawn (offset opt.m opt.n b m n)| ≤ 1 / 1000 :=
      le_of_not_gt fun hlt => absurd hround (not_lt_of_ge (tolerance_le_round hlt))
    exact (abs_sub_le _ _ _).trans (add_le_add hdiff (h_ref_error h hb hm hn))

/-- … and what is near enough passes. -/
theorem report_of_near (hcheck : opt.skip_check = false) (h : Covered opt drawn)
    (hnear : Near opt drawn (999 / 1000000 - referenceError opt) h_c) : (report opt drawn t h_c).2 = true := by
  refine (report_iff hcheck).mpr fun b hb m hm n hn => ?_
  rcases hnear b hb m hm n hn with hnan | ⟨x, hx, hdot⟩
  · exact .inl hnan
  · refine .inr ⟨x, hx, round_lt_tolerance ?_⟩
    have href := h_ref_error h hb hm hn
    rw [abs_sub_comm] at href
    have htri := abs_sub_le x (dot (h_a drawn) (h_b opt drawn) opt.m opt.n opt.k b m n)
      (h_ref opt drawn (offset opt.m opt.n b m n))
    linarith

/-- The number of a value. -/
def Value.toRat : Value → ℚ
  | .num x => x
  | _ => 0

end Gbis.Bench.Gemm
