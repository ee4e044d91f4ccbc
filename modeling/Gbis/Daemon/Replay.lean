import Gbis.Daemon.Arguments
import Gbis.Sched.Job
import Mathlib.Data.List.Forall2

/-!
# Replaying

`parse_replay` of `src/src/main.cpp`: a job for each line of a CSV file, but for the empty lines,
the comments, and those whose first field is `id`. It fails at the first line with fewer than six
fields, and throws at the first field that is not a number; fields after the sixth are ignored.

The jobs that it reads are those the lines denote, in their order (`parse_replay_denotes`).
Nothing is asked of the dimensions: a line denotes a job with positive ones exactly when its
fields are positive (`Denotes.positive_iff`).
-/

namespace Gbis.Daemon

open Gbis.Sched Library

/-- The job of six fields. -/
def parse_job (id m n k batch priority : Str) : Except RuntimeError InferenceJob := do
  let id ← parse_u64 "replay id".toList id
  let m ← parse_int "replay m".toList m
  let n ← parse_int "replay n".toList n
  let k ← parse_int "replay k".toList k
  let batch ← parse_int "replay batch".toList batch
  let priority ← parse_int "replay priority".toList priority
  pure { id := id.toNat, m, n, k, batch, priority }

/-- The loop of `parse_replay` over the lines; `out` is what it has read. -/
def parse_rows : List Str → List InferenceJob → Except RuntimeError (Bool × List InferenceJob)
  | [], out => .ok (!out.isEmpty, out)
  | line :: lines, out =>
    if line = [] ∨ line.head? = some '#' then parse_rows lines out
    else match getlines ',' line with
      | id :: m :: n :: k :: batch :: priority :: _ =>
        if id = "id".toList then parse_rows lines out
        else match parse_job id m n k batch priority with
          | .error e => .error e
          | .ok job => parse_rows lines (out ++ [job])
      | _ => .ok (false, out)

/-- `parse_replay`: whether it succeeds, and the jobs; the file may be one that cannot be opened. -/
def parse_replay (file : Option Str) : Except RuntimeError (Bool × List InferenceJob) :=
  match file with
  | none => .ok (false, [])
  | some text => parse_rows (getlines '\n' text) []

/-- A line with a job: not empty, not a comment, not a header. -/
def isData (line : Str) : Bool :=
  line ≠ [] ∧ line.head? ≠ some '#' ∧ (getlines ',' line).head? ≠ some "id".toList

/-- The job that a line denotes. -/
def Denotes (line : Str) (job : InferenceJob) : Prop :=
  ∃ id m n k batch priority rest, getlines ',' line = id :: m :: n :: k :: batch :: priority :: rest ∧
    parse_job id m n k batch priority = .ok job

/-- The fields of a job are the numbers in its text. -/
theorem parse_job_eq_ok {id m n k batch priority : Str} {job : InferenceJob}
    (h : parse_job id m n k batch priority = .ok job) :
    stoi m = .ok (job.m, m.length) ∧ stoi n = .ok (job.n, n.length) ∧ stoi k = .ok (job.k, k.length) ∧
      stoi batch = .ok (job.batch, batch.length) := by
  unfold parse_job at h
  obtain ⟨id', -, h⟩ := bind_eq_ok_iff.mp h
  obtain ⟨m', hm, h⟩ := bind_eq_ok_iff.mp h
  obtain ⟨n', hn, h⟩ := bind_eq_ok_iff.mp h
  obtain ⟨k', hk, h⟩ := bind_eq_ok_iff.mp h
  obtain ⟨batch', hbatch, h⟩ := bind_eq_ok_iff.mp h
  obtain ⟨priority', -, h⟩ := bind_eq_ok_iff.mp h
  cases h
  exact ⟨parse_eq_ok_iff.mp hm, parse_eq_ok_iff.mp hn, parse_eq_ok_iff.mp hk, parse_eq_ok_iff.mp hbatch⟩

/-- The fields of a line that have to be positive are. -/
def RowPositive (line : Str) : Prop :=
  ∀ i ∈ [1, 2, 3, 4], ∀ field v pos, (getlines ',' line)[i]? = some field → stoi field = .ok (v, pos) → 1 ≤ v.toInt

/-- A line denotes a job with positive dimensions exactly when its fields are positive. -/
theorem Denotes.positive_iff {line : Str} {job : InferenceJob} (h : Denotes line job) :
    job.Positive ↔ RowPositive line := by
  obtain ⟨id, m, n, k, batch, priority, rest, hline, hjob⟩ := h
  obtain ⟨hm, hn, hk, hbatch⟩ := parse_job_eq_ok hjob
  unfold RowPositive
  rw [hline]
  constructor
  · intro hpos i hi field v pos hfield hv
    simp only [List.mem_cons, List.not_mem_nil, or_false] at hi
    obtain rfl | rfl | rfl | rfl := hi <;> cases hfield
    · rw [hm] at hv; cases hv; exact hpos.m
    · rw [hn] at hv; cases hv; exact hpos.n
    · rw [hk] at hv; cases hv; exact hpos.k
    · rw [hbatch] at hv; cases hv; exact hpos.batch
  · intro hrow
    exact ⟨hrow 1 (by simp) m _ _ rfl hm, hrow 2 (by simp) n _ _ rfl hn, hrow 3 (by simp) k _ _ rfl hk,
      hrow 4 (by simp) batch _ _ rfl hbatch⟩

/-- The loop reads the jobs that the lines denote. -/
theorem parse_rows_denotes {lines : List Str} {out jobs : List InferenceJob}
    (h : parse_rows lines out = .ok (true, jobs)) :
    ∃ new, jobs = out ++ new ∧ List.Forall₂ Denotes (lines.filter isData) new := by
  induction lines generalizing out with
  | nil =>
    obtain ⟨-, rfl⟩ : (!out.isEmpty) = true ∧ out = jobs := by simpa [parse_rows] using h
    exact ⟨[], (List.append_nil _).symm, .nil⟩
  | cons line lines ih =>
    rw [parse_rows] at h
    split_ifs at h with hskip
    · have hdata : isData line = false := by
        rcases hskip with rfl | hhead
        · rfl
        · simp [isData, hhead]
      rw [List.filter_cons_of_neg (by simp [hdata])]
      exact ih h
    · split at h
      · rename_i id m n k batch priority rest hline
        split_ifs at h with hid
        · have hdata : isData line = false := by simp [isData, hline, hid]
          rw [List.filter_cons_of_neg (by simp [hdata])]
          exact ih h
        · split at h
          · cases h
          · rename_i job hjob
            obtain ⟨new, rfl, hnew⟩ := ih h
            have hdata : isData line = true := by
              rw [not_or] at hskip
              simp only [isData, hline, List.head?_cons, decide_eq_true_eq]
              exact ⟨hskip.1, hskip.2, fun he => hid (Option.some.inj he)⟩
            rw [List.filter_cons_of_pos hdata]
            exact ⟨job :: new, by simp, .cons ⟨id, m, n, k, batch, priority, rest, hline, hjob⟩ hnew⟩
      · cases h

/-- **What is replayed** is what the file says: a job for each line with one, in their order. -/
theorem parse_replay_denotes {text : Str} {jobs : List InferenceJob}
    (h : parse_replay (some text) = .ok (true, jobs)) :
    List.Forall₂ Denotes ((getlines '\n' text).filter isData) jobs := by
  obtain ⟨new, rfl, hnew⟩ := parse_rows_denotes h
  exact hnew

/-- The jobs have positive dimensions exactly when the lines have positive fields. -/
theorem forall_positive_iff {text : Str} {jobs : List InferenceJob}
    (h : parse_replay (some text) = .ok (true, jobs)) :
    (∀ job ∈ jobs, job.Positive) ↔ ∀ line ∈ (getlines '\n' text).filter isData, RowPositive line := by
  have hall := parse_replay_denotes h
  generalize (getlines '\n' text).filter isData = lines at hall ⊢
  clear h
  induction hall with
  | nil => simp
  | cons hd _ ih =>
    rw [List.forall_mem_cons, List.forall_mem_cons]
    exact and_congr hd.positive_iff ih

end Gbis.Daemon
