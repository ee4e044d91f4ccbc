import Gbis.Sched.ExecuteBatch

/-!
# The arguments from Python

What the functions of `src/src/bindings/py_module.cpp` check of their arguments before they
do anything else, in the order in which they check it, and what they make of them. An
argument that does not pass is a `py::value_error`.
-/

namespace Gbis.Bindings

open Gbis.Sched

/-- `py::value_error`. -/
structure ValueError where
  what : String
  deriving DecidableEq

/-- The job that `submit_job` submits. -/
def submitted_job (m_dim n_dim k_dim batch priority : Int32) : Except ValueError InferenceJob :=
  if m_dim ≤ 0 ∨ n_dim ≤ 0 ∨ k_dim ≤ 0 then .error ⟨"m, n and k must be positive"⟩
  else if batch ≤ 0 then .error ⟨"batch must be positive"⟩
  else .ok { m := m_dim, n := n_dim, k := k_dim, batch, priority }

/-- What `start_scheduler` writes to `g_opts`. -/
structure StartArgs where
  max_batch : Int32 := 8
  workers : Int32 := 2
  impl : Impl := .tiled
  deriving DecidableEq

/-- The checks of `start_scheduler`, and of the constructor of `Scheduler`. -/
def start_args (max_batch workers : Int32) (impl : String) : Except ValueError StartArgs :=
  if impl ≠ "tiled" ∧ impl ≠ "cublas" then .error ⟨"impl must be 'tiled' or 'cublas'"⟩
  else if max_batch ≤ 0 then .error ⟨"max_batch must be positive"⟩
  else if workers ≤ 0 then .error ⟨"workers must be positive"⟩
  else .ok { max_batch, workers, impl := if impl = "tiled" then .tiled else .cublas }

theorem not_le_zero_iff {i : Int32} : ¬ i ≤ 0 ↔ 1 ≤ i.toInt := by
  rw [Int32.le_iff_toInt_le]
  change ¬ i.toInt ≤ 0 ↔ _
  omega

/-- A job is submitted as it was asked for, if its dimensions are positive. -/
theorem submitted_job_eq_ok {m_dim n_dim k_dim batch priority : Int32} {job : InferenceJob} :
    submitted_job m_dim n_dim k_dim batch priority = .ok job ↔
      job.Positive ∧ job = { m := m_dim, n := n_dim, k := k_dim, batch, priority } := by
  unfold submitted_job
  split_ifs with hdims hbatch
  · simp only [false_iff, not_and]
    rintro ⟨hm, hn, hk, -⟩ rfl
    simp only [← not_le_zero_iff] at hm hn hk
    tauto
  · simp only [false_iff, not_and]
    rintro ⟨-, -, -, hb⟩ rfl
    exact not_le_zero_iff.mpr hb hbatch
  · simp only [not_or, not_le_zero_iff] at hdims hbatch
    constructor
    · rintro ⟨⟩
      exact ⟨⟨hdims.1, hdims.2.1, hdims.2.2, hbatch⟩, rfl⟩
    · rintro ⟨-, rfl⟩
      rfl

end Gbis.Bindings
