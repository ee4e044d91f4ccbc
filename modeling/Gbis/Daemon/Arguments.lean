import Gbis.Library.Text
import Mathlib.Data.List.Infix

/-!
# The command line

`parse_args` of `src/src/main.cpp`, with the functions it calls. The arguments are those after
the program's name. The chain of comparisons in its loop is `Opt.all`, in the order of the
source: what an option is called, whether it takes a value, and what becomes of the value
(`Opt.apply`). A value is in the same argument, after a `=`, or is the next one.

A `double` is what it is used for (`Doubles`): it is read, and compared to `0.0`.

The order of the options matters only where one is given again, and then the last counts:
`given` is that one's value, and `parse_args_given` says what `parse_args` makes of it.
-/

namespace Gbis.Daemon

open Library

/-- `std::runtime_error`. -/
structure RuntimeError where
  what : Str
  deriving DecidableEq

/-- The type `double`. -/
structure Doubles where
  Double : Type
  /-- `0.0`. -/
  zero : Double
  lt : Double → Double → Bool
  stod : Str → Except ConversionError (Double × ℕ)

/-- `Config`. -/
structure Config (f : Doubles) where
  jobs : UInt64 := 0
  arrival_rate : f.Double := f.zero
  saturation : Bool := false
  replay_csv : Str := []
  max_batch : Int32 := 8
  workers : Int32 := 2
  impl : Str := "tiled".toList
  margin_mb : UInt64 := 256
  metrics_csv : Str := "scheduler_metrics.csv".toList
  min_size : Int32 := 64
  max_size : Int32 := 1024
  max_job_batch : Int32 := 8
  priority_levels : Int32 := 4
  http_port : Int32 := 8080
  force_cpu : Bool := false
  stress : Bool := false
  help : Bool := false

/-! ### Values -/

/-- What `parse_int` and its like have in common: a conversion has to take the whole text. -/
def parse {α : Type} (convert : Str → Except ConversionError (α × ℕ)) (kind : String) (name value : Str) :
    Except RuntimeError α :=
  match convert value with
  | .ok (v, pos) =>
    if pos = value.length then .ok v
    else .error ⟨"invalid ".toList ++ kind.toList ++ " for ".toList ++ name ++ ": ".toList ++ value⟩
  | .error _ => .error ⟨"invalid ".toList ++ kind.toList ++ " for ".toList ++ name ++ ": ".toList ++ value⟩

/-- `parse_int`. -/
def parse_int : Str → Str → Except RuntimeError Int32 := parse stoi "integer"

/-- `parse_u64`. -/
def parse_u64 : Str → Str → Except RuntimeError UInt64 := parse stoull "integer"

/-- `parse_double`. -/
def parse_double (f : Doubles) : Str → Str → Except RuntimeError f.Double := parse f.stod "number"

/-- What a value is read as does not depend on the name that it is read for. -/
theorem parse_eq_ok_iff {α : Type} {convert : Str → Except ConversionError (α × ℕ)} {kind : String}
    {name value : Str} {v : α} : parse convert kind name value = .ok v ↔ convert value = .ok (v, value.length) := by
  unfold parse
  split
  · rename_i w pos h
    rw [h]
    split_ifs with hpos
    · rw [Except.ok.injEq, Except.ok.injEq, Prod.mk.injEq, and_iff_left hpos]
    · simp [hpos]
  · rename_i h
    simp [h]

/-- `option_value`: the value of an argument, and whether it is the next one. -/
def option_value (arg : Str) (rest : List Str) (name : Str) : Except RuntimeError (Str × Bool) :=
  if (name ++ "=".toList).isPrefixOf arg then .ok (arg.drop (name.length + 1), false)
  else match rest with
    | value :: _ => .ok (value, true)
    | [] => .error ⟨"missing value for ".toList ++ name⟩

/-! ### Options -/

/-- The options, and the flags. -/
inductive Opt where
  | help
  | jobs
  | arrival_rate
  | saturation
  | replay
  | max_batch
  | workers
  | impl
  | margin_mb
  | metrics_csv
  | min_size
  | max_size
  | job_batch_max
  | http_port
  | force_cpu
  | stress
  deriving DecidableEq

namespace Opt

/-- The options, in the order in which an argument is compared to them. -/
def all : List Opt :=
  [help, jobs, arrival_rate, saturation, replay, max_batch, workers, impl, margin_mb, metrics_csv, min_size, max_size,
    job_batch_max, http_port, force_cpu, stress]

/-- What it is called. -/
def name : Opt → Str
  | help => "--help".toList
  | jobs => "--jobs".toList
  | arrival_rate => "--arrival-rate".toList
  | saturation => "--saturation".toList
  | replay => "--replay".toList
  | max_batch => "--max-batch".toList
  | workers => "--workers".toList
  | impl => "--impl".toList
  | margin_mb => "--margin-mb".toList
  | metrics_csv => "--metrics-csv".toList
  | min_size => "--min-size".toList
  | max_size => "--max-size".toList
  | job_batch_max => "--job-batch-max".toList
  | http_port => "--http-port".toList
  | force_cpu => "--force-cpu".toList
  | stress => "--stress".toList

/-- Whether it takes no value. -/
def isFlag : Opt → Bool
  | help | saturation | force_cpu | stress => true
  | _ => false

/-- Whether an argument is this option. -/
def isAt (o : Opt) (arg : Str) : Bool :=
  if o.isFlag then arg = o.name || (o = help && arg = "-h".toList)
  else arg = o.name || (o.name ++ "=".toList).isPrefixOf arg

end Opt

/-- The variables of the loop. -/
structure Parsed (f : Doubles) where
  cfg : Config f := {}
  arrival_rate_given : Bool := false

variable {f : Doubles}

/-- What an option does with its value. -/
def Opt.apply (o : Opt) (value : Str) (p : Parsed f) : Except RuntimeError (Parsed f) :=
  match o with
  | help => .ok { p with cfg := { p.cfg with help := true } }
  | jobs => (parse_u64 o.name value).map fun v => { p with cfg := { p.cfg with jobs := v } }
  | arrival_rate => (parse_double f o.name value).map fun v =>
    { cfg := { p.cfg with arrival_rate := v }, arrival_rate_given := true }
  | saturation => .ok { p with cfg := { p.cfg with saturation := true } }
  | replay => .ok { p with cfg := { p.cfg with replay_csv := value } }
  | max_batch => (parse_int o.name value).map fun v => { p with cfg := { p.cfg with max_batch := v } }
  | workers => (parse_int o.name value).map fun v => { p with cfg := { p.cfg with workers := v } }
  | impl => .ok { p with cfg := { p.cfg with impl := value } }
  | margin_mb => (parse_u64 o.name value).map fun v => { p with cfg := { p.cfg with margin_mb := v } }
  | metrics_csv => .ok { p with cfg := { p.cfg with metrics_csv := value } }
  | min_size => (parse_int o.name value).map fun v => { p with cfg := { p.cfg with min_size := v } }
  | max_size => (parse_int o.name value).map fun v => { p with cfg := { p.cfg with max_size := v } }
  | job_batch_max => (parse_int o.name value).map fun v => { p with cfg := { p.cfg with max_job_batch := v } }
  | http_port => (parse_int o.name value).map fun v => { p with cfg := { p.cfg with http_port := v } }
  | force_cpu => .ok { p with cfg := { p.cfg with force_cpu := true } }
  | stress => .ok { p with cfg := { p.cfg with stress := true } }

/-- The value of an option, and whether the loop passes over the next argument. -/
def Opt.value (o : Opt) (arg : Str) (rest : List Str) : Except RuntimeError (Str × Bool) :=
  if o.isFlag then .ok ([], false) else option_value arg rest o.name

/-- The loop of `parse_args`; `skip` says that the next argument has been taken for a value. -/
def parse_loop : List Str → Bool → Parsed f → Except RuntimeError (Parsed f)
  | [], _, p => .ok p
  | _ :: rest, true, p => parse_loop rest false p
  | arg :: rest, false, p =>
    match Opt.all.find? (·.isAt arg) with
    | none => .error ⟨"unknown argument: ".toList ++ arg⟩
    | some o =>
      match o.value arg rest with
      | .error e => .error e
      | .ok (value, skip) =>
        match o.apply value p with
        | .error e => .error e
        | .ok p => parse_loop rest skip p

/-- The jobs that a `--saturation` without `--jobs` submits. -/
def saturated (cfg : Config f) : Config f :=
  if cfg.saturation then { cfg with arrival_rate := f.zero, jobs := if cfg.jobs = 0 then 1000 else cfg.jobs }
  else cfg

/-- Those that a `--stress` without `--jobs` submits. -/
def stressed (cfg : Config f) : Config f := if cfg.stress ∧ cfg.jobs = 0 then { cfg with jobs := 1000 } else cfg

/-- The checks of `parse_args` before `saturated`. -/
def early_checks (p : Parsed f) : Except RuntimeError Unit :=
  if p.cfg.max_batch ≤ 0 then .error ⟨"--max-batch must be positive".toList⟩
  else if p.cfg.workers ≤ 0 then .error ⟨"--workers must be positive".toList⟩
  else if p.cfg.impl ≠ "tiled".toList ∧ p.cfg.impl ≠ "cublas".toList then .error ⟨"--impl must be tiled|cublas".toList⟩
  else if f.lt p.cfg.arrival_rate f.zero then .error ⟨"--arrival-rate must be >= 0".toList⟩
  else if p.cfg.saturation ∧ p.arrival_rate_given then
    .error ⟨"use either --saturation or --arrival-rate, not both".toList⟩
  else if p.cfg.saturation ∧ p.cfg.replay_csv ≠ [] then .error ⟨"--saturation cannot be combined with --replay".toList⟩
  else if p.cfg.saturation ∧ p.cfg.stress then .error ⟨"--saturation cannot be combined with --stress".toList⟩
  else .ok ()

/-- The checks after it. -/
def late_checks (cfg : Config f) : Except RuntimeError Unit :=
  if cfg.http_port < 0 ∨ 65535 < cfg.http_port then .error ⟨"--http-port must be in [0, 65535]".toList⟩
  else if cfg.min_size ≤ 0 ∨ cfg.max_size < cfg.min_size then .error ⟨"invalid --min-size/--max-size".toList⟩
  else if 0 < cfg.jobs ∧ cfg.replay_csv ≠ [] then .error ⟨"use either --jobs or --replay, not both".toList⟩
  else if cfg.stress ∧ cfg.replay_csv ≠ [] then .error ⟨"--stress cannot be combined with --replay".toList⟩
  else .ok ()

/-- `parse_args`. -/
def parse_args (f : Doubles) (args : List Str) : Except RuntimeError (Config f) := do
  let p ← parse_loop args false {}
  early_checks p
  let cfg := saturated p.cfg
  late_checks cfg
  pure (stressed cfg)

/-! ### What has been given -/

/-- The options of a command line, each with its value, in order. -/
def occurrences : List Str → Bool → List (Opt × Str)
  | [], _ => []
  | _ :: rest, true => occurrences rest false
  | arg :: rest, false =>
    match Opt.all.find? (·.isAt arg) with
    | none => []
    | some o =>
      match o.value arg rest with
      | .error _ => []
      | .ok (value, skip) => (o, value) :: occurrences rest skip

/-- The value of the last occurrence of an option. -/
def last (o : Opt) (l : List (Opt × Str)) : Option Str := (l.filter (·.1 = o)).getLast?.map Prod.snd

/-- The value of an option: that of its last occurrence. -/
def given (o : Opt) (args : List Str) : Option Str := last o (occurrences args false)

theorem last_concat (o o' : Opt) (v : Str) (l : List (Opt × Str)) :
    last o (l ++ [(o', v)]) = if o' = o then some v else last o l := by
  unfold last
  split_ifs with h <;> simp [h]

/-- The loop applies the options one after the other. -/
theorem foldlM_of_parse_loop {args : List Str} {skip : Bool} {p p' : Parsed f}
    (h : parse_loop args skip p = .ok p') :
    (occurrences args skip).foldlM (fun p ov => ov.1.apply ov.2 p) p = .ok p' := by
  induction args generalizing skip p with
  | nil => exact h
  | cons arg rest ih =>
    cases skip with
    | true => exact ih h
    | false =>
      rw [parse_loop] at h
      rw [occurrences]
      split at h
      · cases h
      · split at h
        · cases h
        · split at h
          · cases h
          · rename_i q hq
            rw [List.foldlM_cons]
            simp only [hq]
            exact ih h

/-- What an option does not concern it leaves alone. -/
structure Keeps (o : Opt) (p p' : Parsed f) : Prop where
  help : o ≠ .help → p'.cfg.help = p.cfg.help
  jobs : o ≠ .jobs → p'.cfg.jobs = p.cfg.jobs
  saturation : o ≠ .saturation → p'.cfg.saturation = p.cfg.saturation
  replay : o ≠ .replay → p'.cfg.replay_csv = p.cfg.replay_csv
  job_batch_max : o ≠ .job_batch_max → p'.cfg.max_job_batch = p.cfg.max_job_batch
  stress : o ≠ .stress → p'.cfg.stress = p.cfg.stress
  priority_levels : p'.cfg.priority_levels = p.cfg.priority_levels

theorem Opt.apply_keeps {o : Opt} {v : Str} {p p' : Parsed f} (h : o.apply v p = .ok p') : Keeps o p p' := by
  have hmap : ∀ {α : Type} {r : Except RuntimeError α} {g : α → Parsed f}, (∀ a, Keeps o p (g a)) → r.map g = .ok p' →
      Keeps o p p' := by
    intro α r g hg hr
    cases r with
    | error e => cases hr
    | ok a => cases hr; exact hg a
  cases o with
  | help | saturation | replay | impl | metrics_csv | force_cpu | stress => cases h; constructor <;> simp
  | jobs | arrival_rate | max_batch | workers | margin_mb | min_size | max_size | job_batch_max | http_port =>
    exact hmap (fun _ => by constructor <;> simp) h

/-- A variable that one option alone writes has its last value, or the one it had before. -/
theorem of_foldlM {α : Type} {g : Parsed f → α} {R : Str → α → Prop} {o : Opt}
    (hkeep : ∀ {o' : Opt} {p p' : Parsed f}, Keeps o' p p' → o' ≠ o → g p' = g p)
    (hread : ∀ {v : Str} {p p' : Parsed f}, o.apply v p = .ok p' → R v (g p')) {l : List (Opt × Str)} {p p' : Parsed f}
    (h : l.foldlM (fun p ov => ov.1.apply ov.2 p) p = .ok p') :
    (last o l = none → g p' = g p) ∧ ∀ v, last o l = some v → R v (g p') := by
  induction l using List.reverseRecOn generalizing p' with
  | nil =>
    cases h
    exact ⟨fun _ => rfl, fun _ hv => by cases hv⟩
  | append_singleton l ov ih =>
    obtain ⟨o', v'⟩ := ov
    rw [List.foldlM_append] at h
    cases hq : l.foldlM (fun p ov => ov.1.apply ov.2 p) p with
    | error e => rw [hq] at h; cases h
    | ok q =>
      rw [hq] at h
      have happly : o'.apply v' q = .ok p' := by
        rw [← bind_pure (o'.apply v' q)]
        exact h
      rw [last_concat]
      split_ifs with ho
      · subst ho
        constructor
        · intro hn
          cases hn
        · rintro v ⟨⟩
          exact hread happly
      · have hg := hkeep (Opt.apply_keeps happly) ho
        rw [hg]
        exact ih hq

/-- A variable that no option writes is what it was. -/
theorem eq_of_foldlM {α : Type} {g : Parsed f → α}
    (hkeep : ∀ {o : Opt} {p p' : Parsed f}, Keeps o p p' → g p' = g p) {l : List (Opt × Str)} {p p' : Parsed f}
    (h : l.foldlM (fun p ov => ov.1.apply ov.2 p) p = .ok p') : g p' = g p := by
  induction l generalizing p with
  | nil => cases h; rfl
  | cons ov l ih =>
    rw [List.foldlM_cons] at h
    cases hq : ov.1.apply ov.2 p with
    | error e => rw [hq] at h; cases h
    | ok q =>
      rw [hq] at h
      exact (ih h).trans (hkeep (Opt.apply_keeps hq))

/-- A flag is set if it has been given. -/
theorem flag_of_foldlM {g : Parsed f → Bool} {o : Opt}
    (hkeep : ∀ {o' : Opt} {p p' : Parsed f}, Keeps o' p p' → o' ≠ o → g p' = g p)
    (hread : ∀ {v : Str} {p p' : Parsed f}, o.apply v p = .ok p' → g p' = true) {l : List (Opt × Str)} {p p' : Parsed f}
    (hp : g p = false) (h : l.foldlM (fun p ov => ov.1.apply ov.2 p) p = .ok p') :
    g p' = true ↔ last o l ≠ none := by
  obtain ⟨hnone, hsome⟩ := of_foldlM (R := fun _ b => b = true) hkeep hread h
  cases hl : last o l with
  | none => simp [hnone hl, hp]
  | some v => simp [hsome v hl]

/-- A value that has been read has been converted as a whole. -/
theorem of_parse_map {α β : Type} {convert : Str → Except ConversionError (α × ℕ)} {kind : String} {name v : Str}
    {g : α → β} {b : β} (h : (parse convert kind name v).map g = .ok b) :
    ∃ a, convert v = .ok (a, v.length) ∧ g a = b := by
  cases hr : parse convert kind name v with
  | error e => rw [hr] at h; cases h
  | ok a =>
    rw [hr] at h
    cases h
    exact ⟨a, parse_eq_ok_iff.mp hr, rfl⟩

/-- The stages of `parse_args`. -/
theorem parse_args_eq_ok_iff {args : List Str} {cfg : Config f} :
    parse_args f args = .ok cfg ↔
      ∃ p, parse_loop args false {} = .ok p ∧ early_checks p = .ok () ∧ late_checks (saturated p.cfg) = .ok () ∧
        stressed (saturated p.cfg) = cfg := by
  unfold parse_args
  simp only [bind_eq_ok_iff, pure, Except.pure, Except.ok.injEq]
  constructor
  · rintro ⟨p, hloop, ⟨⟩, hearly, ⟨⟩, hlate, hcfg⟩
    exact ⟨p, hloop, hearly, hlate, hcfg⟩
  · rintro ⟨p, hloop, hearly, hlate, hcfg⟩
    exact ⟨p, hloop, (), hearly, (), hlate, hcfg⟩

/-- The sizes that pass the checks. -/
theorem sizes_of_late_checks {cfg : Config f} (h : late_checks cfg = .ok ()) :
    1 ≤ cfg.min_size.toInt ∧ cfg.min_size ≤ cfg.max_size := by
  unfold late_checks at h
  split_ifs at h with _ hsize
  simp only [not_or, Int32.not_lt] at hsize
  obtain ⟨hmin, hmax⟩ := hsize
  rw [Int32.le_iff_toInt_le] at hmin
  change ¬ cfg.min_size.toInt ≤ 0 at hmin
  exact ⟨by omega, hmax⟩

/-- What `saturated` and `stressed` leave alone. -/
theorem stressed_saturated (cfg : Config f) :
    (stressed (saturated cfg)).help = cfg.help ∧ (stressed (saturated cfg)).saturation = cfg.saturation ∧
      (stressed (saturated cfg)).stress = cfg.stress ∧ (stressed (saturated cfg)).replay_csv = cfg.replay_csv ∧
      (stressed (saturated cfg)).max_job_batch = cfg.max_job_batch ∧
      (stressed (saturated cfg)).priority_levels = cfg.priority_levels := by
  unfold stressed saturated
  split_ifs <;> simp

theorem sizes_stressed (cfg : Config f) :
    (stressed cfg).min_size = cfg.min_size ∧ (stressed cfg).max_size = cfg.max_size := by
  unfold stressed
  split_ifs <;> simp

/-- Jobs are submitted if they are asked for, by `--stress`, by `--saturation` or by their number. -/
theorem jobs_stressed_saturated (cfg : Config f) :
    0 < (stressed (saturated cfg)).jobs ↔ cfg.stress = true ∨ cfg.saturation = true ∨ 0 < cfg.jobs := by
  have hpos : ∀ n : UInt64, 0 < n ↔ n ≠ 0 := fun n => UInt64.pos_iff_ne_zero
  unfold stressed saturated
  simp only [hpos]
  split_ifs <;> simp_all

/-- What a configuration has of the command line. -/
structure Reflects (args : List Str) (cfg : Config f) : Prop where
  help : cfg.help = true ↔ given .help args ≠ none
  saturation : cfg.saturation = true ↔ given .saturation args ≠ none
  stress : cfg.stress = true ↔ given .stress args ≠ none
  replay_csv : cfg.replay_csv = (given .replay args).getD []
  jobs : 0 < cfg.jobs ↔ given .stress args ≠ none ∨ given .saturation args ≠ none ∨
    ∃ v n, given .jobs args = some v ∧ stoull v = .ok (n, v.length) ∧ 0 < n
  max_job_batch : (given .job_batch_max args = none → cfg.max_job_batch = 8) ∧
    ∀ v, given .job_batch_max args = some v → stoi v = .ok (cfg.max_job_batch, v.length)
  sizes : 1 ≤ cfg.min_size.toInt ∧ cfg.min_size ≤ cfg.max_size
  priority_levels : cfg.priority_levels = 4

/-- **What `parse_args` accepts** is configured as the last value of each option says. -/
theorem parse_args_reflects {args : List Str} {cfg : Config f} (h : parse_args f args = .ok cfg) :
    Reflects args cfg := by
  obtain ⟨p, hloop, -, hlate, rfl⟩ := parse_args_eq_ok_iff.mp h
  have hfold := foldlM_of_parse_loop hloop
  obtain ⟨hhelp, hsat, hstress, hreplay, hbatch, hprio⟩ := stressed_saturated p.cfg
  have hsaturation : p.cfg.saturation = true ↔ given .saturation args ≠ none :=
    flag_of_foldlM (g := fun p => p.cfg.saturation) (fun h => h.saturation) (by rintro _ _ _ ⟨⟩; rfl) rfl hfold
  have hstressed : p.cfg.stress = true ↔ given .stress args ≠ none :=
    flag_of_foldlM (g := fun p => p.cfg.stress) (fun h => h.stress) (by rintro _ _ _ ⟨⟩; rfl) rfl hfold
  constructor
  case help =>
    rw [hhelp]
    exact flag_of_foldlM (g := fun p => p.cfg.help) (fun h => h.help) (by rintro _ _ _ ⟨⟩; rfl) rfl hfold
  case saturation => rwa [hsat]
  case stress => rwa [hstress]
  case replay_csv =>
    obtain ⟨hnone, hsome⟩ := of_foldlM (g := fun p => p.cfg.replay_csv) (R := fun v s => s = v) (fun h => h.replay)
      (by rintro _ _ _ ⟨⟩; rfl) hfold
    rw [hreplay]
    cases hl : given .replay args with
    | none => exact hnone hl
    | some v => exact hsome v hl
  case jobs =>
    obtain ⟨hnone, hsome⟩ := of_foldlM (g := fun p => p.cfg.jobs) (R := fun v n => stoull v = .ok (n, v.length))
      (fun h => h.jobs) (fun h => by obtain ⟨n, hn, rfl⟩ := of_parse_map h; exact hn) hfold
    rw [jobs_stressed_saturated, hstressed, hsaturation]
    cases hl : given .jobs args with
    | none =>
      have h₀ : p.cfg.jobs = 0 := hnone hl
      simp [h₀]
    | some v =>
      have hv := hsome v hl
      simp [hv]
  case max_job_batch =>
    rw [hbatch]
    exact of_foldlM (g := fun p => p.cfg.max_job_batch) (R := fun v i => stoi v = .ok (i, v.length))
      (fun h => h.job_batch_max) (fun h => by obtain ⟨n, hn, rfl⟩ := of_parse_map h; exact hn) hfold
  case sizes =>
    rw [(sizes_stressed _).1, (sizes_stressed _).2]
    exact sizes_of_late_checks hlate
  case priority_levels =>
    rw [hprio]
    exact eq_of_foldlM (g := fun p => p.cfg.priority_levels) (fun h => h.priority_levels) hfold

end Gbis.Daemon
