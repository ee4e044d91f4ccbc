import Gbis.Library.Rounding
import Gbis.Library.Ranks
import Gbis.Sched.Timeline
import Gbis.Server.Metrics

/-!
# The percentiles that are reported

Three places of the program report percentiles of the end-to-end latencies: `print_summary` of
`src/src/sched/scheduler.cpp`, which sorts the latencies once, and the two functions `percentile`
of `src/src/server/http_server.cpp` and `src/src/bindings/py_module.cpp`, which are the same and
sort a copy at each call. The numbers are binary64 numbers, rounded after each operation (`fl`);
`std::ceil` is exact.

The rank of a percentile is computed with rounding, `ceil(p / 100.0 * n)`. For the percentiles the
program asks for the rounding does no harm (`rank_eq`): `95 / 100.0` and `99 / 100.0` are rounded
down, so that the product does not get over a whole number that the exact one is at, and by so
little that it does not get down to the one below either. This is not so of every percentile: of
100 latencies the 55th percentile would be the 56th smallest.

So what is reported is the percentile of the latencies that `metrics_` has of the jobs that
succeeded, by nearest rank (`IsPercentile`), in all three places the same; and in a run in which
the clock is read as it is they are not negative (`reported_percentiles`).
-/

namespace Gbis.Server

open Gbis.Core Gbis.Sched Library

/-! ### The code -/

/-- Round a `double`. -/
abbrev fl : ℚ → ℚ := binary64.round

/-- `milliseconds()`: of a duration in nanoseconds. -/
def milliseconds (duration : ℤ) : ℚ := fl (fl duration / 1000000)

/-- The latencies of the jobs that have not failed, and how many have. -/
def latencies (metrics : List JobMetrics) : List ℚ × ℕ :=
  metrics.foldl (fun (e2e, failed) m => if m.ok then (e2e ++ [milliseconds m.e2e], failed) else (e2e, failed + 1))
    ([], 0)

/-- The rank that is computed: `ceil(p / 100.0 * n)`. -/
def rank (p : ℚ) (n : ℕ) : ℕ := ⌈fl (fl (p / 100) * fl n)⌉₊

/-- `std::sort`. -/
def sort (v : List ℚ) : List ℚ := stable_sort (fun x y => decide (x < y)) v

/-- The `percentile` of `print_summary`, of latencies that are sorted; `none` if the access is out
of bounds. -/
def percentileSorted (e2e : List ℚ) (p : ℚ) : Option ℚ :=
  if e2e.isEmpty then some 0 else e2e[max 1 (rank p e2e.length) - 1]?

/-- `percentile()`, which sorts its copy. -/
def percentile (v : List ℚ) (p : ℚ) : Option ℚ :=
  if v.isEmpty then some 0 else (sort v)[max 1 (rank p (sort v).length) - 1]?

/-- `completed / wall`, if there is a time. -/
def throughput (completed : ℕ) (wall : ℚ) : ℚ := if wall > 0 then fl (fl completed / wall) else 0

/-- What `print_summary` prints of the jobs. -/
structure Summary where
  failed : ℕ
  throughput : ℚ
  p50 : Option ℚ
  p95 : Option ℚ
  p99 : Option ℚ

/-- `print_summary()`, of what it reads. -/
def print_summary (metrics : List JobMetrics) (completed : ℕ) (wall_seconds : ℚ) : Summary :=
  let (e2e, failed) := latencies metrics
  let e2e := sort e2e
  { failed, throughput := throughput completed wall_seconds, p50 := percentileSorted e2e 50,
    p95 := percentileSorted e2e 95, p99 := percentileSorted e2e 99 }

/-- What `scheduler_stats` returns. -/
structure SchedulerStats where
  running : Bool
  submitted : ℕ
  completed : ℕ
  queued : ℕ
  failed : ℕ
  p50_ms : Option ℚ
  p95_ms : Option ℚ
  p99_ms : Option ℚ
  throughput_jobs_per_s : ℚ
  wall_seconds : ℚ
  mean_gpu_utilization : ℚ

/-- What `scheduler_stats` reads of its scheduler, in the order of the reads. -/
structure StatsReads where
  metrics : List JobMetrics
  wall : ℚ
  submitted : ℕ
  completed : ℕ
  queued : ℕ
  /-- `completed()`, which is read again for the throughput. -/
  completed_again : ℕ
  mean_gpu_utilization : ℚ

/-- `scheduler_stats()`; without a scheduler all is zero. -/
def scheduler_stats (g_running : Bool) : Option StatsReads → SchedulerStats
  | none =>
    { running := g_running, submitted := 0, completed := 0, queued := 0, failed := 0, p50_ms := some 0,
      p95_ms := some 0, p99_ms := some 0, throughput_jobs_per_s := 0, wall_seconds := 0, mean_gpu_utilization := 0 }
  | some r =>
    let (e2e, failed) := latencies r.metrics
    { running := g_running, submitted := r.submitted, completed := r.completed, queued := r.queued, failed,
      p50_ms := percentile e2e 50, p95_ms := percentile e2e 95, p99_ms := percentile e2e 99,
      throughput_jobs_per_s := throughput r.completed_again r.wall, wall_seconds := r.wall,
      mean_gpu_utilization := r.mean_gpu_utilization }

/-- The latency that the response to `GET /metrics` has, `gbis_e2e_latency_p95_ms`. -/
def Report.p95 (r : Report) : Option ℚ := percentile (r.e2e.map milliseconds) 95

/-! ### The rank -/

variable {v : List ℚ} {p n : ℕ} {x y : ℚ}

theorem fl_div_100 (hp : p = 50 ∨ p = 95 ∨ p = 99) :
    fl (p / 100) ≤ p / 100 ∧ (p : ℚ) / 100 ≤ fl (p / 100) + 1 / 2 ^ 53 := by
  rcases hp with rfl | rfl | rfl <;> decide +kernel

/-- Not too large whole numbers and a 256th more are binary64 numbers. -/
theorem add_256th_mem {k : ℕ} (h : k ≤ 2 ^ 44) : (k : ℚ) + 1 / 2 ^ 8 ∈ binary64.numbers := by
  refine ⟨k * 2 ^ 8 + 1, -8, ?_, by decide, ?_⟩
  · change |(k : ℤ) * 2 ^ 8 + 1| ≤ 2 ^ 53
    rw [abs_of_nonneg (by omega)]
    omega
  · push_cast
    rw [zpow_neg, add_mul]
    norm_num
    ring

/-- The number of which the rank is taken does not get over a whole number … -/
theorem fl_le_of_le {q : ℚ} {k : ℕ} (hq : q ≤ p / 100) (hk : p * n ≤ 100 * k) (hkn : k ≤ 2 ^ 53) : fl (q * n) ≤ k := by
  refine (Format.round_isNearest _).le_of_le (Format.natCast_mem hkn (by decide)) ?_
  have hk' : (p : ℚ) * n ≤ 100 * k := by exact_mod_cast hk
  calc q * n ≤ p / 100 * n := mul_le_mul_of_nonneg_right hq (Nat.cast_nonneg n)
    _ ≤ k := by linarith

/-- … nor down to one. -/
theorem lt_fl_of_lt {q : ℚ} {k : ℕ} (hq : (p : ℚ) / 100 ≤ q + 1 / 2 ^ 53) (hk : 100 * k < p * n) (hkn : k ≤ 2 ^ 44)
    (hn : n ≤ 2 ^ 44) : (k : ℚ) < fl (q * n) := by
  have hk' : (100 : ℚ) * k + 1 ≤ p * n := by exact_mod_cast hk
  have hn' : (n : ℚ) ≤ 2 ^ 44 := by exact_mod_cast hn
  have hexact : (k : ℚ) + 1 / 2 ^ 8 ≤ q * n := by
    have hmul : (p : ℚ) / 100 * n ≤ (q + 1 / 2 ^ 53) * n := mul_le_mul_of_nonneg_right hq (Nat.cast_nonneg n)
    linarith
  calc (k : ℚ) < k + 1 / 2 ^ 8 := by norm_num
    _ ≤ fl (q * n) := (Format.round_isNearest _).ge_of_ge (add_256th_mem hkn) hexact

/-- **The rank is the exact one**, `p * n / 100` rounded up. -/
theorem rank_eq (hp : p = 50 ∨ p = 95 ∨ p = 99) (hn : n ≤ 2 ^ 44) : rank p n = (p * n + 99) / 100 := by
  obtain ⟨hup, hdown⟩ := fl_div_100 hp
  have hkn : (p * n + 99) / 100 ≤ n := by rcases hp with rfl | rfl | rfl <;> omega
  unfold rank
  rw [fl, Format.round_of_mem (Format.natCast_mem (hn.trans (by decide)) (by decide))]
  refine le_antisymm ?_ ?_
  · exact Nat.ceil_le.mpr (fl_le_of_le hup (by omega) (by omega))
  · rcases Nat.eq_zero_or_pos ((p * n + 99) / 100) with hz | hpos
    · rw [hz]
      exact Nat.zero_le _
    · refine Nat.le_of_pred_lt (Nat.lt_ceil.mpr (lt_fl_of_lt hdown ?_ ?_ hn))
      · rw [Nat.pred_eq_sub_one]
        omega
      · rw [Nat.pred_eq_sub_one]
        omega

/-- With rounding up the 55th percentile is one too high. -/
example : rank 55 100 = 56 := by decide +kernel

/-! ### What is reported -/

/-- The percentile by nearest rank: at least `p` of 100 values are at most as large, and fewer are
smaller. -/
structure IsPercentile (v : List ℚ) (p : ℕ) (x : ℚ) : Prop where
  le : p * v.length ≤ 100 * v.countP (· ≤ x)
  lt : 100 * v.countP (· < x) < p * v.length

/-- Its rank is the exact one. -/
theorem isPercentile_iff : IsPercentile v p x ↔ Ranked v ((p * v.length + 99) / 100) x := by
  constructor
  · rintro ⟨hle, hlt⟩
    exact ⟨by omega, by omega⟩
  · rintro ⟨hle, hlt⟩
    exact ⟨by omega, by omega⟩

theorem sort_perm (v : List ℚ) : List.Perm (sort v) v := stable_sort_perm _ v

theorem sort_sorted (v : List ℚ) : (sort v).Pairwise (· ≤ ·) :=
  have hkey : ∀ x y : ℚ, decide (x < y) = true ↔ id x < id y := fun _ _ => decide_eq_true_iff
  stable_sort_sorted hkey v

/-- To sort once or at each call comes to the same. -/
theorem percentileSorted_sort (v : List ℚ) (q : ℚ) : percentileSorted (sort v) q = percentile v q := by
  have hempty : (sort v).isEmpty = v.isEmpty := by
    rw [Bool.eq_iff_iff, List.isEmpty_iff, List.isEmpty_iff]
    exact ⟨fun h => List.Perm.eq_nil (h ▸ (sort_perm v).symm), fun h => List.Perm.eq_nil (h ▸ sort_perm v)⟩
  unfold percentileSorted percentile
  rw [hempty]

/-- **`percentile` returns the percentile**, and looks for it inside the vector. -/
theorem percentile_isPercentile (hp : p = 50 ∨ p = 95 ∨ p = 99) (hv : v ≠ []) (hn : v.length ≤ 2 ^ 44) :
    ∃ x, percentile v p = some x ∧ IsPercentile v p x := by
  have hlen : (sort v).length = v.length := (sort_perm v).length_eq
  have hpos : 0 < v.length := List.length_pos_iff.mpr hv
  have hrank : 0 < (p * v.length + 99) / 100 ∧ (p * v.length + 99) / 100 ≤ v.length := by
    rcases hp with rfl | rfl | rfl <;> omega
  have hlt : (p * v.length + 99) / 100 - 1 < (sort v).length := by omega
  have hget := List.getElem?_eq_getElem hlt
  have hranked := ranked_of_sorted (sort_sorted v) hget
  rw [Nat.sub_add_cancel hrank.1] at hranked
  refine ⟨_, ?_, isPercentile_iff.mpr (hranked.perm (sort_perm v))⟩
  rw [percentile, if_neg (by simpa using hv), hlen, rank_eq hp hn, max_eq_right hrank.1]
  exact hget

/-- The latencies are those of the entries that say so. -/
theorem latencies_eq (metrics : List JobMetrics) :
    latencies metrics = ((metrics.filter (·.ok)).map (fun m => milliseconds m.e2e), failedEntries metrics) := by
  have hloop : ∀ (e2e : List ℚ) (failed : ℕ), metrics.foldl (fun (e2e, failed) m =>
      if m.ok then (e2e ++ [milliseconds m.e2e], failed) else (e2e, failed + 1)) (e2e, failed) =
      (e2e ++ (metrics.filter (·.ok)).map (fun m => milliseconds m.e2e), failed + failedEntries metrics) := by
    induction metrics with
    | nil => simp [failedEntries]
    | cons m metrics ih =>
      intro e2e failed
      rw [List.foldl_cons]
      cases hok : m.ok with
      | true => simp [hok, ih, failedEntries]
      | false => simp [hok, ih, failedEntries, Nat.add_assoc, Nat.add_comm 1]
  unfold latencies
  simpa using hloop [] 0

theorem milliseconds_nonneg {d : ℤ} (h : 0 ≤ d) : 0 ≤ milliseconds d := by
  have hround : ∀ x : ℚ, 0 ≤ x → 0 ≤ fl x := fun x hx => Format.round_zero (F := binary64) ▸ Format.round_mono hx
  exact hround _ (div_nonneg (hround _ (by exact_mod_cast h)) (by norm_num))

/-- What is to be reported as a percentile: `0` if there are no values. -/
def Reports (v : List ℚ) (p : ℕ) (x : ℚ) : Prop := if v = [] then x = 0 else x ∈ v ∧ IsPercentile v p x

theorem percentile_reports (hp : p = 50 ∨ p = 95 ∨ p = 99) (hn : v.length ≤ 2 ^ 44) :
    ∃ x, percentile v p = some x ∧ Reports v p x := by
  by_cases hv : v = []
  · exact ⟨0, by simp [percentile, hv], by simp [Reports, hv]⟩
  · obtain ⟨x, hx, hperc⟩ := percentile_isPercentile hp hv hn
    exact ⟨x, hx, by simpa [Reports, hv] using ⟨(isPercentile_iff.mp hperc).mem, hperc⟩⟩

theorem Reports.mono {q : ℕ} (h : Reports v p x) (h' : Reports v q y) (hpq : p ≤ q) : x ≤ y := by
  unfold Reports at h h'
  split_ifs at h h' with hv
  · rw [h, h']
  · have hrank : (p * v.length + 99) / 100 ≤ (q * v.length + 99) / 100 :=
      Nat.div_le_div_right (Nat.add_le_add_right (Nat.mul_le_mul_right _ hpq) 99)
    exact (isPercentile_iff.mp h.2).mono (isPercentile_iff.mp h'.2) hrank

theorem Reports.nonneg (h : Reports v p x) (hv : ∀ y ∈ v, 0 ≤ y) : 0 ≤ x := by
  unfold Reports at h
  split_ifs at h with hnil
  · exact h.ge
  · exact hv x h.1

/-- The latencies of the jobs that have succeeded. -/
def succeededLatencies (metrics : List JobMetrics) : List ℚ :=
  (metrics.filter (·.ok)).map fun m => milliseconds m.e2e

variable {o : Options} {s : State}

/-- **The percentiles that are reported are those of the jobs that succeeded**, by nearest rank, in
all three places the same; they increase, and are not negative if the clock is read as it is. That
many entries do not fit the address space of a process. -/
theorem reported_percentiles (h : Reachable (scheduler o) Honest s) (hn : s.metrics_.length ≤ 2 ^ 44) :
    ∃ p50 p95 p99, Reports (succeededLatencies s.metrics_) 50 p50 ∧ Reports (succeededLatencies s.metrics_) 95 p95 ∧
      Reports (succeededLatencies s.metrics_) 99 p99 ∧ 0 ≤ p50 ∧ p50 ≤ p95 ∧ p95 ≤ p99 ∧
      (∀ completed wall, (print_summary s.metrics_ completed wall).p50 = some p50 ∧
        (print_summary s.metrics_ completed wall).p95 = some p95 ∧
        (print_summary s.metrics_ completed wall).p99 = some p99) ∧
      (∀ running (r : StatsReads), r.metrics = s.metrics_ → (scheduler_stats running (some r)).p50_ms = some p50 ∧
        (scheduler_stats running (some r)).p95_ms = some p95 ∧ (scheduler_stats running (some r)).p99_ms = some p99) ∧
      ∀ submitted completed queued, (report submitted completed queued s.metrics_).p95 = some p95 := by
  have hlat := latencies_eq s.metrics_
  have hlen : (succeededLatencies s.metrics_).length ≤ 2 ^ 44 := by
    rw [succeededLatencies, List.length_map]
    exact (List.length_filter_le _ _).trans hn
  have hpos : ∀ y ∈ succeededLatencies s.metrics_, 0 ≤ y := by
    intro y hy
    obtain ⟨m, hm, rfl⟩ := List.mem_map.mp hy
    obtain ⟨hwait, hexec, hsum, -⟩ := (onTime h).entries m (List.mem_of_mem_filter hm)
    exact milliseconds_nonneg (hsum ▸ Int.add_nonneg hwait hexec)
  obtain ⟨p50, h50, hr50⟩ := percentile_reports (p := 50) (.inl rfl) hlen
  obtain ⟨p95, h95, hr95⟩ := percentile_reports (p := 95) (.inr (.inl rfl)) hlen
  obtain ⟨p99, h99, hr99⟩ := percentile_reports (p := 99) (.inr (.inr rfl)) hlen
  refine ⟨p50, p95, p99, hr50, hr95, hr99, hr50.nonneg hpos, hr50.mono hr95 (by decide), hr95.mono hr99 (by decide),
    fun completed wall => ?_, fun running r hr => ?_, fun submitted completed queued => ?_⟩
  · simp only [print_summary, hlat, percentileSorted_sort]
    exact ⟨h50, h95, h99⟩
  · simp only [scheduler_stats, hr, hlat]
    exact ⟨h50, h95, h99⟩
  · simp only [Report.p95, report, List.map_map]
    exact h95

/-- Of two jobs that took `6` and `6` ticks. -/
theorem reported_percentiles_timed : ∃ s : State, s.metrics_.map (·.e2e) = [6, 6] ∧
    ∃ p95, (print_summary s.metrics_ 2 1).p95 = some p95 ∧ Reports (succeededLatencies s.metrics_) 95 p95 := by
  obtain ⟨s, hr, hp⟩ := exists_of_follow retaining Honest 1 timedTrace (fun s => s.metrics_.map (·.e2e) = [6, 6])
    (by decide +kernel)
  have hp : s.metrics_.map (·.e2e) = [6, 6] := by simpa using hp
  have hlen : s.metrics_.length = 2 := by simpa using congrArg List.length hp
  obtain ⟨_, p95, _, -, hr95, -, -, -, -, hsummary, -⟩ := reported_percentiles hr (by rw [hlen]; norm_num)
  exact ⟨s, hp, p95, (hsummary 2 1).2.1, hr95⟩

end Gbis.Server
