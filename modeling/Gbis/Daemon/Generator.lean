import Gbis.Daemon.Main
import Gbis.Daemon.Replay
import Mathlib.Data.List.Range

/-!
# The jobs of the daemon

What `main` of `src/src/main.cpp` does before it calls `sched.start()`, and where the jobs come
from that it submits: the replay file, the workload of `--stress`, or `make_job`
(`set_up`). The list is of all the jobs that are submitted if nothing interrupts it; what an
interrupted generator submits is the beginning of it (`Gbis.Daemon.Submission`).

`std::uniform_int_distribution` is what it promises: a draw lies between its bounds if these are
in order, and is anything otherwise. The bounds of all draws are kept (`Drawing`). What is done
in floating point, the side of the oversized jobs of `--stress`, may be any `int`. The loop over
`std::uint64_t` ids is one over their list, in which `2^64 - 1` jobs come to an end.
-/

namespace Gbis.Daemon

open Gbis.Core Gbis.Sched Library

/-! ### Random numbers -/

/-- `rng`, as `std::uniform_int_distribution<int>` uses it: what the draw of each number gives. -/
structure Rng where
  draw : ℕ → Int32 → Int32 → Int32
  mem : ∀ i low high, low ≤ high → low ≤ draw i low high ∧ draw i low high ≤ high

/-- A program that draws; it keeps the bounds of its draws. -/
abbrev Drawing (α : Type) : Type := StateM (List (Int32 × Int32)) α

/-- Draw from `std::uniform_int_distribution<int>(low, high)`. -/
def uniform_int_distribution (rng : Rng) (low high : Int32) : Drawing Int32 := fun bounds =>
  (rng.draw bounds.length low high, bounds ++ [(low, high)])

/-! ### Where jobs come from -/

variable {f : Doubles}

/-- `make_job`. -/
def make_job (rng : Rng) (cfg : Config f) (id : ℕ) : Drawing InferenceJob := do
  let m ← uniform_int_distribution rng cfg.min_size cfg.max_size
  let n ← uniform_int_distribution rng cfg.min_size cfg.max_size
  let k ← uniform_int_distribution rng cfg.min_size cfg.max_size
  let batch ← uniform_int_distribution rng 1 cfg.max_job_batch
  let priority ← uniform_int_distribution rng 0 (cfg.priority_levels - 1)
  pure { id, m, n, k, batch, priority }

/-- What the daemon finds when it runs. -/
structure Environment where
  /-- `monitor.gpu_present()`. -/
  gpu_present : Bool
  /-- `monitor.sample().total_mem_bytes`. -/
  total_mem_bytes : UInt64
  /-- The total of `cudaMemGetInfo`, if it succeeds. -/
  mem_get_info : Option UInt64
  /-- `std::ceil(std::sqrt(total / bytes_per_side) * 1.25)`, as an `int`. -/
  square_side : UInt64 → Int32
  rng : Rng

/-- The side of the oversized jobs. -/
def side (env : Environment) : Int32 :=
  let total := if env.total_mem_bytes = 0 then env.mem_get_info.getD 0 else env.total_mem_bytes
  let side := if 0 < total then env.square_side total else 16000
  if side < 1 then 1 else side

/-- The job `i` of `--stress`: the first two are oversized. -/
def stress_job (side : Int32) (i : ℕ) : InferenceJob :=
  if Int32.ofNat i < 2 then { id := i + 1, m := side, n := side, k := side, batch := 8 }
  else { id := i + 1, m := 768, n := 768, k := 768, batch := 8 }

/-- The options that `main` passes to the scheduler. -/
def Config.options (cfg : Config f) : Options where
  max_batch := cfg.max_batch
  num_workers := cfg.workers
  impl := if cfg.impl = "cublas".toList then .cublas else .tiled
  safety_margin_bytes := cfg.margin_mb * 1024 * 1024

/-- The generator's jobs. -/
def generate (cfg : Config f) (env : Environment) : Drawing (List InferenceJob) :=
  if cfg.stress then pure ((List.range cfg.jobs.toNat).map (stress_job (side env)))
  else (List.range' 1 cfg.jobs.toNat).mapM (make_job env.rng cfg)

/-- What `main` is left with when it calls `sched.start()`. -/
structure SetUp where
  options : Options
  workload : Workload
  /-- The bounds of the draws of the generator. -/
  bounds : List (Int32 × Int32) := []

/-- `main` up to the call of `sched.start()`; none if it returns before. `files` is what the
files hold that can be opened. -/
def set_up (f : Doubles) (files : Str → Option Str) (env : Environment) (args : List Str) :
    Except RuntimeError (Option SetUp) := do
  let cfg ← parse_args f args
  if cfg.help then pure none
  else if !env.gpu_present && !cfg.force_cpu then pure none
  else if cfg.replay_csv = [] then
    let (jobs, bounds) := generate cfg env []
    pure (some { options := cfg.options, workload := { jobs }, bounds })
  else do
    let (ok, jobs) ← parse_replay (files cfg.replay_csv)
    if ok then pure (some { options := cfg.options, workload := { replay := true, jobs } })
    else pure none

/-! ### What the draws are asked for -/

/-- The bounds of `make_job` are in order. -/
def Ordered (bounds : List (Int32 × Int32)) : Prop := ∀ b ∈ bounds, b.1 ≤ b.2

/-- The bounds of the draws of one job. -/
def job_bounds (cfg : Config f) : List (Int32 × Int32) :=
  [(cfg.min_size, cfg.max_size), (cfg.min_size, cfg.max_size), (cfg.min_size, cfg.max_size), (1, cfg.max_job_batch),
    (0, cfg.priority_levels - 1)]

theorem make_job_bounds (rng : Rng) (cfg : Config f) (id : ℕ) (bounds : List (Int32 × Int32)) :
    (make_job rng cfg id bounds).2 = bounds ++ job_bounds cfg := by
  -- five draws, each of which adds its bounds
  change ((((bounds ++ [_]) ++ [_]) ++ [_]) ++ [_]) ++ [_] = _
  simp [job_bounds]

/-- What lies above a positive bound is positive. -/
theorem one_le_of_le {low i : Int32} (h : 1 ≤ low.toInt) (hle : low ≤ i) : 1 ≤ i.toInt := by
  rw [Int32.le_iff_toInt_le] at hle
  exact h.trans hle

/-- A job is well formed if its bounds are in order. -/
theorem make_job_positive (rng : Rng) {cfg : Config f} (hmin : 1 ≤ cfg.min_size.toInt)
    (hord : Ordered (job_bounds cfg)) (id : ℕ) (bounds : List (Int32 × Int32)) :
    (make_job rng cfg id bounds).1.Positive := by
  have hsize : cfg.min_size ≤ cfg.max_size := hord (cfg.min_size, cfg.max_size) (by simp [job_bounds])
  have hbatch : 1 ≤ cfg.max_job_batch := hord (1, cfg.max_job_batch) (by simp [job_bounds])
  exact ⟨one_le_of_le hmin (rng.mem _ _ _ hsize).1, one_le_of_le hmin (rng.mem _ _ _ hsize).1,
    one_le_of_le hmin (rng.mem _ _ _ hsize).1, one_le_of_le (by decide) (rng.mem _ _ _ hbatch).1⟩

/-- The draws of many jobs, and the jobs. -/
theorem mapM_make_job (rng : Rng) (cfg : Config f) (ids : List ℕ) (bounds : List (Int32 × Int32)) :
    (ids.mapM (make_job rng cfg) bounds).2 = bounds ++ ids.flatMap (fun _ => job_bounds cfg) ∧
    (1 ≤ cfg.min_size.toInt → Ordered (job_bounds cfg) →
      ∀ job ∈ (ids.mapM (make_job rng cfg) bounds).1, job.Positive) := by
  induction ids generalizing bounds with
  | nil =>
    have hnil : ([] : List ℕ).mapM (make_job rng cfg) bounds = ([], bounds) := rfl
    simp [hnil]
  | cons id ids ih =>
    obtain ⟨hbounds, hpos⟩ := ih (make_job rng cfg id bounds).2
    have hcons : (id :: ids).mapM (make_job rng cfg) bounds =
        ((make_job rng cfg id bounds).1 :: (ids.mapM (make_job rng cfg) (make_job rng cfg id bounds).2).1,
          (ids.mapM (make_job rng cfg) (make_job rng cfg id bounds).2).2) := by
      rw [List.mapM_cons]
      rfl
    rw [hcons]
    constructor
    · rw [hbounds, make_job_bounds, List.flatMap_cons, List.append_assoc]
    · intro hmin hord job hjob
      rcases List.mem_cons.mp hjob with rfl | hjob
      · exact make_job_positive rng hmin hord id bounds
      · exact hpos hmin hord job hjob

theorem one_le_side (env : Environment) : 1 ≤ (side env).toInt := by
  have hclamp : ∀ i : Int32, 1 ≤ (if i < 1 then 1 else i).toInt := by
    intro i
    split_ifs with h
    · decide
    · exact one_le_of_le (by decide) (Int32.not_lt.mp h)
  exact hclamp _

theorem stress_job_positive {side : Int32} (h : 1 ≤ side.toInt) (i : ℕ) : (stress_job side i).Positive := by
  have h8 : 1 ≤ (8 : Int32).toInt := by decide
  have h768 : 1 ≤ (768 : Int32).toInt := by decide
  unfold stress_job
  split_ifs
  · exact ⟨h, h, h, h8⟩
  · exact ⟨h768, h768, h768, h8⟩

/-- Whether the generator calls `make_job`. -/
def Generates (cfg : Config f) : Prop := cfg.stress = false ∧ 0 < cfg.jobs

/-- The generator draws with the bounds of its jobs, if it makes any. -/
theorem ordered_generate_iff (cfg : Config f) (env : Environment) :
    Ordered (generate cfg env []).2 ↔ (Generates cfg → Ordered (job_bounds cfg)) := by
  unfold generate
  split_ifs with hstress
  · change Ordered [] ↔ _
    simp [Ordered, Generates, hstress]
  · obtain ⟨hbounds, -⟩ := mapM_make_job env.rng cfg (List.range' 1 cfg.jobs.toNat) []
    rw [hbounds, List.nil_append]
    simp only [Ordered, List.mem_flatMap, forall_exists_index, and_imp]
    constructor
    · intro h hgen b hb
      have hpos : 0 < cfg.jobs.toNat := UInt64.lt_iff_toNat_lt.mp hgen.2
      exact h b 1 (by simp [List.mem_range']; omega) hb
    · intro h b i hi hb
      have hpos : 0 < cfg.jobs.toNat := by
        obtain ⟨j, hj, -⟩ := List.mem_range'.mp hi
        omega
      exact h ⟨by simpa using hstress, UInt64.lt_iff_toNat_lt.mpr hpos⟩ b hb

/-- Then its jobs are well formed. -/
theorem generate_positive {cfg : Config f} (hmin : 1 ≤ cfg.min_size.toInt) (env : Environment)
    (h : Generates cfg → Ordered (job_bounds cfg)) : ∀ job ∈ (generate cfg env []).1, job.Positive := by
  intro job hjob
  unfold generate at hjob
  split_ifs at hjob with hstress
  · obtain ⟨i, -, rfl⟩ := List.mem_map.mp hjob
    exact stress_job_positive (one_le_side env) i
  · obtain ⟨-, hpos⟩ := mapM_make_job env.rng cfg (List.range' 1 cfg.jobs.toNat) []
    by_cases hjobs : 0 < cfg.jobs
    · exact hpos hmin (h ⟨by simpa using hstress, hjobs⟩) job hjob
    · have hzero : cfg.jobs.toNat = 0 := by
        rw [UInt64.lt_iff_toNat_lt] at hjobs
        exact Nat.eq_zero_of_not_pos hjobs
      rw [hzero] at hjob
      cases hjob

end Gbis.Daemon
