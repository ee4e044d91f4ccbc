import Gbis.Daemon.Generator

/-!
# What the daemon submits

The scheduler checks nothing of a job, and Python's `submit_job` refuses one that is not
`Positive`. Here it is asked whether the daemon submits any other. The jobs that the process
hands to `submit()` are those of its workload, in one run or another (`submits_iff`), so that it
is a matter of what `set_up` makes of the command line and the file.

`parse_args` checks the sizes, but not `--job-batch-max`, and `parse_replay` checks nothing. The
jobs are well formed, and the bounds of all draws in order, when no job is made with a
`--job-batch-max` below `1`, and the data lines of the replay file have positive fields; and only
then (`well_formed_iff`).
-/

namespace Gbis.Daemon

open Gbis.Core Gbis.Sched Library

variable {o : Options} {w : Workload} {p p' : Process} {a : Action}

/-! ### The jobs of the workload -/

/-- In some run, the job is handed to `submit()`. -/
def Submits (o : Options) (w : Workload) (job : InferenceJob) : Prop :=
  ∃ p p' jobs, Reachable (daemon o w) Always p ∧ p.generator = .next (job :: jobs) ∧
    ProcessStep o w p .generator p' ∧ p'.generator = .submitting p.sched.submits.length jobs

/-- The jobs that are left to submit. -/
def GeneratorPc.pending : GeneratorPc → List InferenceJob
  | .next jobs | .submitting _ jobs => jobs
  | _ => []

/-- What is left is the end of the workload. -/
theorem pending_suffix (h : Reachable (daemon o w) Always p) : p.generator.pending <:+ w.jobs := by
  refine h.invariant (I := fun p => p.generator.pending <:+ w.jobs) ?_ fun {p a p'} _ hs hstep _ => ?_
  · rintro _ ⟨t, rfl⟩
    exact List.nil_suffix
  · have hstep : ProcessStep o w p a p' := hstep
    cases hstep with
    | sched | interrupt => exact hs
    | generator _ h =>
      cases h with
      | submit hg =>
        rw [hg] at hs
        exact (List.suffix_cons _ _).trans hs
      | none | interrupted | done => exact List.nil_suffix
      | returned hg =>
        rw [hg] at hs
        exact hs
    | main _ h =>
      cases h with
      | generate | replay => exact List.suffix_rfl
      | _ => exact hs

/-- Nothing is in the way of the generator: the dispatcher has just begun, and nobody interrupts. -/
structure Undisturbed (p : Process) : Prop where
  dispatcher : p.sched.dispatcher = .space_wait
  terminated : p.sched.terminated = false
  g_interrupted : p.g_interrupted = false

/-- `start()` creates the workers that are left. -/
theorem exists_spawned {left : ℕ} (hp : Undisturbed p) (hm : p.main = .starting)
    (hc : p.sched.control = .spawning left) :
    ∃ p', Steps (daemon o w) Always p p' ∧ Undisturbed p' ∧ p'.main = .starting ∧ p'.sched.control = .idle := by
  induction left generalizing p with
  | zero =>
    refine ⟨{ p with sched := { p.sched with control := .idle } }, .single (a := .sched .spawn) ?_ trivial,
      ⟨hp.dispatcher, hp.terminated, hp.g_interrupted⟩, hm, rfl⟩
    exact .sched (by simp [Process.permits, hm]) (.control hp.terminated (.started hc))
  | succ left ih =>
    obtain ⟨p', hsteps, hp'⟩ := ih
      (p := { p with sched := { p.sched with workers := p.sched.workers ++ [{}], control := .spawning left } })
      ⟨hp.dispatcher, hp.terminated, hp.g_interrupted⟩ hm rfl
    refine ⟨p', .trans (.single (a := .sched .spawn) ?_ trivial) hsteps, hp'⟩
    exact .sched (by simp [Process.permits, hm]) (.control hp.terminated (.spawn hc))

/-- The generator may begin with the whole workload. -/
theorem exists_begun (o : Options) (w : Workload) :
    ∃ p, Reachable (daemon o w) Always p ∧ Undisturbed p ∧ p.generator = .next w.jobs := by
  have hstart : Reachable (daemon o w) Always { sched := { clock := 0 } } := .start ⟨0, rfl⟩
  have hmain : ProcessStep o w { sched := { clock := 0 } } .main
      { sched := { clock := 0, started_ := true, control := .starting }, main := .starting } :=
    .main rfl (.start rfl (.start rfl rfl))
  have hprobe : ProcessStep o w { sched := { clock := 0, started_ := true, control := .starting }, main := .starting }
      (.sched (.probe false 0))
      { sched := { clock := 0, started_ := true, dispatcher := .space_wait,
                   control := .spawning o.num_workers.toInt.toNat }, main := .starting } :=
    .sched rfl (.control rfl (.probe false 0 rfl))
  obtain ⟨p, hsteps, hp, hm, hc⟩ := exists_spawned (o := o) (w := w)
    (p := { sched := { clock := 0, started_ := true, dispatcher := .space_wait,
                       control := .spawning o.num_workers.toInt.toNat }, main := .starting })
    ⟨rfl, rfl, rfl⟩ rfl rfl
  have hidle := ((hstart.tail hmain trivial).tail hprobe trivial).steps hsteps
  cases hr : w.replay with
  | false =>
    exact ⟨_, hidle.tail (a := .http true) (.main hp.terminated (.generate hm hc hr)) trivial,
      ⟨hp.dispatcher, hp.terminated, hp.g_interrupted⟩, rfl⟩
  | true =>
    exact ⟨_, hidle.tail (a := .http true) (.main hp.terminated (.replay hm hc hr)) trivial,
      ⟨hp.dispatcher, hp.terminated, hp.g_interrupted⟩, rfl⟩

/-- The generator may go on to these jobs. -/
def MayContinue (o : Options) (w : Workload) (p : Process) (jobs : List InferenceJob) : Prop :=
  ∃ p', Steps (daemon o w) Always p p' ∧ Undisturbed p' ∧ p'.generator = .next jobs

/-- It may if it may after a step of its call of `submit()`. -/
theorem MayContinue.client {i : ℕ} {jobs : List InferenceJob} {s : State} (hp : Undisturbed p)
    (hg : p.generator = .submitting i jobs) (h : ClientStep p.sched (.client i) s)
    (hs : MayContinue o w { p with sched := s } jobs) : MayContinue o w p jobs := by
  obtain ⟨p', hsteps, hp'⟩ := hs
  have hstep : ProcessStep o w p (.sched (.client i)) { p with sched := s } :=
    .sched (by simp [Process.permits, hg]) (.client hp.terminated h)
  exact ⟨p', .trans (.single hstep trivial) hsteps, hp'⟩

/-- A call of `submit()` returns, wherever it is. -/
theorem mayContinue_of_submitting {i : ℕ} {jobs : List InferenceJob} {pc : SubmitPc} (hp : Undisturbed p)
    (hg : p.generator = .submitting i jobs) (hi : p.sched.submits[i]? = some pc) : MayContinue o w p jobs := by
  have hset : ∀ {l : List SubmitPc} {pc : SubmitPc} (pc' : SubmitPc), l[i]? = some pc →
    (l.set i pc')[i]? = some pc' := by
    intro l pc pc' h
    obtain ⟨hlt, -⟩ := List.getElem?_eq_some_iff.mp h
    exact List.getElem?_set_self hlt
  have hreturned : ∀ (p : Process) (seq : ℕ), Undisturbed p → p.generator = .submitting i jobs →
      p.sched.submits[i]? = some (.returned seq) → MayContinue o w p jobs := by
    intro p seq hp hg hi
    exact ⟨{ p with generator := .next jobs },
      .single (a := .generator) (.generator hp.terminated (.returned hg hi)) trivial,
      ⟨hp.dispatcher, hp.terminated, hp.g_interrupted⟩, rfl⟩
  have hcounted : ∀ (p : Process) (seq : ℕ), Undisturbed p → p.generator = .submitting i jobs →
      p.sched.submits[i]? = some (.counted seq) → MayContinue o w p jobs := by
    intro p seq hp hg hi
    have hd : (p.sched.wakeDispatcher .queue_blocked .queue_wait).dispatcher = .space_wait := by
      simp [State.wakeDispatcher, hp.dispatcher]
    exact .client hp hg (.notify hi)
      (hreturned _ seq ⟨hd, hp.terminated, hp.g_interrupted⟩ hg (hset (.returned seq) hi))
  have hpushed : ∀ (p : Process) (seq : ℕ), Undisturbed p → p.generator = .submitting i jobs →
      p.sched.submits[i]? = some (.pushed seq) → MayContinue o w p jobs := by
    intro p seq hp hg hi
    exact .client hp hg (.count hi)
      (hcounted _ seq ⟨hp.dispatcher, hp.terminated, hp.g_interrupted⟩ hg (hset (.counted seq) hi))
  cases pc with
  | returned seq => exact hreturned p seq hp hg hi
  | counted seq => exact hcounted p seq hp hg hi
  | pushed seq => exact hpushed p seq hp hg hi
  | stamped job =>
    have hfree : p.sched.queue_mutex_free := by
      unfold State.queue_mutex_free
      rw [hp.dispatcher]
      decide
    exact .client hp hg (.push hi hfree)
      (hpushed _ p.sched.next_seq_ ⟨hp.dispatcher, hp.terminated, hp.g_interrupted⟩ hg
      (hset (.pushed p.sched.next_seq_) hi))

/-- The next job is handed to `submit()`. -/
theorem submits_next {job : InferenceJob} {jobs : List InferenceJob} (h : Reachable (daemon o w) Always p)
    (hp : Undisturbed p) (hg : p.generator = .next (job :: jobs)) :
    Submits o w job ∧ ∃ p', Reachable (daemon o w) Always p' ∧ Undisturbed p' ∧ p'.generator = .next jobs := by
  have hstep : ProcessStep o w p .generator _ := .generator hp.terminated (.submit hg hp.g_interrupted (.submit job))
  let s : State := { p.sched with submits := p.sched.submits ++ [.stamped { job with submit_time := p.sched.clock }] }
  have hlast : s.submits[p.sched.submits.length]? = some (.stamped { job with submit_time := p.sched.clock }) := by
    simp [s]
  obtain ⟨p', hsteps, hp'⟩ := mayContinue_of_submitting (o := o) (w := w)
    (p := { p with sched := s, generator := .submitting p.sched.submits.length jobs })
    ⟨hp.dispatcher, hp.terminated, hp.g_interrupted⟩ rfl hlast
  exact ⟨⟨p, _, jobs, h, hg, hstep, rfl⟩, p', (h.tail hstep trivial).steps hsteps, hp'⟩

/-- **What is submitted** is the workload: every job of it in some run, and no other. -/
theorem submits_iff {job : InferenceJob} : Submits o w job ↔ job ∈ w.jobs := by
  constructor
  · rintro ⟨p, _, jobs, h, hg, -, -⟩
    have hsuffix := pending_suffix h
    rw [hg] at hsuffix
    exact hsuffix.subset List.mem_cons_self
  · have hall : ∀ rest : List InferenceJob, (∃ p, Reachable (daemon o w) Always p ∧ Undisturbed p ∧
        p.generator = .next rest) → ∀ job ∈ rest, Submits o w job := by
      intro rest
      induction rest with
      | nil => simp
      | cons next rest ih =>
        rintro ⟨p, h, hp, hg⟩ job hjob
        obtain ⟨hnext, hrest⟩ := submits_next h hp hg
        rcases List.mem_cons.mp hjob with rfl | hjob
        · exact hnext
        · exact ih hrest job hjob
    exact hall w.jobs (exists_begun o w) job

/-! ### Well-formed jobs -/

variable {f : Doubles} {files : Str → Option Str} {args : List Str} {cfg : Config f}

/-- The jobs that are submitted have positive dimensions, and the bounds of all draws are in
order. -/
structure WellFormed (u : SetUp) : Prop where
  positive : ∀ job, Submits u.options u.workload job → job.Positive
  ordered : Ordered u.bounds

/-- The command line asks for jobs of `make_job`. -/
def AsksForJobs (args : List Str) : Prop :=
  given .help args = none ∧ (given .replay args).getD [] = [] ∧ given .stress args = none ∧
    (given .saturation args ≠ none ∨ ∃ v n, given .jobs args = some v ∧ stoull v = .ok (n, v.length) ∧ 0 < n)

/-- It does not ask for batches below `1`. -/
def BatchMaxPositive (args : List Str) : Prop :=
  ∀ v i pos, given .job_batch_max args = some v → stoi v = .ok (i, pos) → 1 ≤ i.toInt

/-- It asks for the jobs of a file. -/
def Replays (args : List Str) (path : Str) : Prop :=
  given .help args = none ∧ (given .replay args).getD [] = path ∧ path ≠ []

/-- What makes the jobs well formed: a `--job-batch-max` of at least `1` where jobs are made, and
positive fields where they are replayed. -/
structure PositiveInput (files : Str → Option Str) (args : List Str) : Prop where
  batch_max : AsksForJobs args → BatchMaxPositive args
  rows : ∀ path text, Replays args path → files path = some text →
    ∀ line ∈ (getlines '\n' text).filter isData, RowPositive line

theorem Reflects.asksForJobs_iff (h : Reflects args cfg) (hhelp : cfg.help = false) (hreplay : cfg.replay_csv = []) :
    AsksForJobs args ↔ Generates cfg := by
  have hno_help : given .help args = none := by
    by_contra hne
    rw [h.help.mpr hne] at hhelp
    cases hhelp
  have hstress : given .stress args = none ↔ cfg.stress = false := by
    rw [← not_iff_not, ← ne_eq, ← h.stress, Bool.not_eq_false]
  unfold AsksForJobs Generates
  rw [← h.replay_csv, h.jobs, hstress]
  constructor
  · rintro ⟨-, -, hs, hjobs⟩
    exact ⟨hs, .inr hjobs⟩
  · rintro ⟨hs, hjobs⟩
    exact ⟨hno_help, hreplay, hs, hjobs.resolve_left fun hne => hne (hstress.mpr hs)⟩

theorem Reflects.batchMaxPositive_iff (h : Reflects args cfg) :
    BatchMaxPositive args ↔ 1 ≤ cfg.max_job_batch.toInt := by
  obtain ⟨hnone, hsome⟩ := h.max_job_batch
  unfold BatchMaxPositive
  cases hg : given .job_batch_max args with
  | none => simp [hnone hg]
  | some v =>
    have hv := hsome v hg
    constructor
    · intro hall
      exact hall v _ _ rfl hv
    · rintro hpos v' i pos ⟨⟩ hi
      rw [hv] at hi
      cases hi
      exact hpos

/-- Of the bounds of `make_job` only those of the batch may be out of order. -/
theorem Reflects.ordered_iff (h : Reflects args cfg) : Ordered (job_bounds cfg) ↔ 1 ≤ cfg.max_job_batch.toInt := by
  have hle : (1 : Int32) ≤ cfg.max_job_batch ↔ 1 ≤ cfg.max_job_batch.toInt := Int32.le_iff_toInt_le
  simp [Ordered, job_bounds, h.priority_levels, h.sizes.2, hle]

/-- A set-up is well formed exactly when the workload is and the bounds are. -/
theorem wellFormed_iff (u : SetUp) :
    WellFormed u ↔ (∀ job ∈ u.workload.jobs, job.Positive) ∧ Ordered u.bounds := by
  constructor
  · intro h
    exact ⟨fun job hjob => h.positive job (submits_iff.mpr hjob), h.ordered⟩
  · rintro ⟨hpos, hord⟩
    exact ⟨fun job hjob => hpos job (submits_iff.mp hjob), hord⟩

/-- What `set_up` comes to, when it comes to jobs that are made. -/
theorem set_up_generate (hargs : parse_args f args = .ok cfg) (hhelp : cfg.help = false)
    (hreplay : cfg.replay_csv = []) (env : Environment) :
    set_up f files env args = if !env.gpu_present && !cfg.force_cpu then .ok none
      else .ok (some { options := cfg.options, workload := { jobs := (generate cfg env []).1 },
                       bounds := (generate cfg env []).2 }) := by
  unfold set_up
  simp only [hargs, hhelp, hreplay, bind, Except.bind, pure, Except.pure, Bool.false_eq_true, if_false, if_true]
  rfl

/-- And when it comes to jobs that are replayed. -/
theorem set_up_replay {jobs : List InferenceJob} (hargs : parse_args f args = .ok cfg) (hhelp : cfg.help = false)
    (hreplay : cfg.replay_csv ≠ []) (hjobs : parse_replay (files cfg.replay_csv) = .ok (true, jobs))
    (env : Environment) :
    set_up f files env args = if !env.gpu_present && !cfg.force_cpu then .ok none
      else .ok (some { options := cfg.options, workload := { replay := true, jobs } }) := by
  unfold set_up
  simp only [hargs, hhelp, hreplay, hjobs, bind, Except.bind, pure, Except.pure, Bool.false_eq_true, if_false, if_true]

/-- A source of the lowest numbers. -/
def lowest : Rng where
  draw _ low _ := low
  mem _ low _ h := ⟨Int32.le_refl low, h⟩

/-- A machine with a GPU. -/
def withGpu : Environment where
  gpu_present := true
  total_mem_bytes := 16106127360
  mem_get_info := none
  square_side _ := 16194
  rng := lowest

/-- Where jobs are made, they are well formed exactly when none is made with a batch below `1`. -/
theorem wellFormed_iff_of_generate (hargs : parse_args f args = .ok cfg) (hhelp : cfg.help = false)
    (hreplay : cfg.replay_csv = []) :
    (∀ env u, set_up f files env args = .ok (some u) → WellFormed u) ↔ (AsksForJobs args → BatchMaxPositive args) := by
  have hr := parse_args_reflects hargs
  rw [hr.asksForJobs_iff hhelp hreplay, hr.batchMaxPositive_iff, ← hr.ordered_iff]
  constructor
  · intro h
    have hwf := h withGpu _ (by rw [set_up_generate hargs hhelp hreplay]; rfl)
    exact (ordered_generate_iff cfg withGpu).mp hwf.ordered
  · intro h env u hu
    rw [set_up_generate hargs hhelp hreplay] at hu
    split_ifs at hu
    · cases hu
    · cases hu
      exact (wellFormed_iff _).mpr ⟨generate_positive hr.sizes.1 env h, (ordered_generate_iff cfg env).mpr h⟩

/-- Where they are replayed, exactly when the data lines have positive fields. -/
theorem wellFormed_iff_of_replay {text : Str} {jobs : List InferenceJob} (hargs : parse_args f args = .ok cfg)
    (hhelp : cfg.help = false) (hreplay : cfg.replay_csv ≠ []) (htext : files cfg.replay_csv = some text)
    (hjobs : parse_replay (some text) = .ok (true, jobs)) :
    (∀ env u, set_up f files env args = .ok (some u) → WellFormed u) ↔
      ∀ line ∈ (getlines '\n' text).filter isData, RowPositive line := by
  have hset : ∀ env, set_up f files env args = _ := set_up_replay hargs hhelp hreplay (htext ▸ hjobs)
  rw [← forall_positive_iff hjobs]
  constructor
  · intro h
    have hwf := h withGpu _ (by rw [hset]; rfl)
    exact ((wellFormed_iff _).mp hwf).1
  · intro h env u hu
    rw [hset] at hu
    split_ifs at hu
    · cases hu
    · cases hu
      exact (wellFormed_iff _).mpr ⟨h, by simp [Ordered]⟩

/-- **When the daemon submits only well-formed jobs.** For a command line that `parse_args`
accepts, with a replay file, if it names one, that `parse_replay` accepts: whatever the machine
and the draws, and in every run, exactly when the input is positive. -/
theorem well_formed_iff (hargs : parse_args f args = .ok cfg)
    (hfile : ∀ path, Replays args path → ∃ jobs, parse_replay (files path) = .ok (true, jobs)) :
    (∀ env u, set_up f files env args = .ok (some u) → WellFormed u) ↔ PositiveInput files args := by
  have hr := parse_args_reflects hargs
  cases hhelp : cfg.help with
  | true =>
    -- the usage is printed, and nothing is submitted
    have hgiven : given .help args ≠ none := hr.help.mp hhelp
    constructor
    · intro _
      exact ⟨fun h => absurd h.1 hgiven, fun _ _ h => absurd h.1 hgiven⟩
    · intro _ env u hu
      unfold set_up at hu
      simp [hargs, hhelp, bind, Except.bind, pure, Except.pure] at hu
  | false =>
    have hno_help : given .help args = none := by
      by_contra hne
      rw [hr.help.mpr hne] at hhelp
      cases hhelp
    by_cases hreplay : cfg.replay_csv = []
    · rw [wellFormed_iff_of_generate hargs hhelp hreplay]
      constructor
      · intro h
        refine ⟨h, fun path _ hpath => absurd ?_ hpath.2.2⟩
        rw [← hpath.2.1, ← hr.replay_csv, hreplay]
      · intro h
        exact h.batch_max
    · have hpath : Replays args cfg.replay_csv := ⟨hno_help, hr.replay_csv.symm, hreplay⟩
      obtain ⟨jobs, hjobs⟩ := hfile _ hpath
      cases htext : files cfg.replay_csv with
      | none =>
        rw [htext] at hjobs
        cases hjobs
      | some text =>
        rw [htext] at hjobs
        rw [wellFormed_iff_of_replay hargs hhelp hreplay htext hjobs]
        constructor
        · intro h
          refine ⟨fun hasks => absurd (hr.replay_csv.trans hasks.2.1) hreplay, fun path text' hp ht => ?_⟩
          rw [← hp.2.1, ← hr.replay_csv, htext] at ht
          cases ht
          exact h
        · intro h
          exact h.rows _ text hpath htext

/-- The integers, in the place of `double`. -/
def integers : Doubles where
  Double := ℤ
  zero := 0
  lt x y := x < y
  stod s := (stoi s).map fun r => (r.1.toInt, r.2)

/-- A file with a comment, two rows and an empty line. -/
def twoRows (path : Str) : Option Str :=
  if path = "jobs.csv".toList then some "# id,m,n,k,batch,priority\n1,64,32,16,4,0\n\n2,7,5,3,1,2".toList else none

/-- A daemon that replays the file. -/
def replayArgs : List Str := ["--replay=jobs.csv".toList, "--job-batch-max".toList, "4".toList]

/-- A daemon that makes jobs of up to four matrices. -/
def makeArgs : List Str := ["--jobs".toList, "3".toList, "--job-batch-max=4".toList]

theorem parse_replay_twoRows : parse_replay (twoRows "jobs.csv".toList) =
    .ok (true, [{ id := 1, m := 64, n := 32, k := 16, batch := 4 },
      { id := 2, m := 7, n := 5, k := 3, priority := 2 }]) :=
  rfl

theorem replays_replayArgs {path : Str} (h : Replays replayArgs path) : path = "jobs.csv".toList := by
  rw [← h.2.1, show given .replay replayArgs = some "jobs.csv".toList by decide]
  rfl

theorem not_replays_makeArgs (path : Str) : ¬ Replays makeArgs path := by
  intro h
  obtain ⟨-, hpath, hne⟩ := h
  rw [show given .replay makeArgs = none by decide] at hpath
  exact hne hpath.symm

theorem positiveInput_replayArgs : PositiveInput twoRows replayArgs where
  batch_max := by
    intro hasks
    have hempty := hasks.2.1
    rw [show given .replay replayArgs = some "jobs.csv".toList by decide] at hempty
    cases hempty
  rows := by
    intro path text hpath htext
    obtain rfl := replays_replayArgs hpath
    have hrows := parse_replay_twoRows
    rw [htext] at hrows
    apply (forall_positive_iff hrows).mp
    simp only [List.forall_mem_cons, List.not_mem_nil, false_implies, implies_true, and_true]
    exact ⟨⟨by decide, by decide, by decide, by decide⟩, ⟨by decide, by decide, by decide, by decide⟩⟩

theorem positiveInput_makeArgs : PositiveInput twoRows makeArgs where
  batch_max := by
    intro _ v i pos hv hi
    rw [show given .job_batch_max makeArgs = some "4".toList by decide] at hv
    cases hv
    rw [show stoi "4".toList = .ok (4, 1) by decide] at hi
    cases hi
    decide
  rows := fun path _ hpath => absurd hpath (not_replays_makeArgs path)

/-- One daemon submits the two jobs of the file, the other draws batches from one to four. -/
theorem well_formed_iff_both :
    (∀ env u, set_up integers twoRows env replayArgs = .ok (some u) → WellFormed u) ∧
    (∀ env u, set_up integers twoRows env makeArgs = .ok (some u) → WellFormed u) ∧
    (∃ u, set_up integers twoRows withGpu replayArgs = .ok (some u) ∧ u.workload.jobs.map InferenceJob.id = [1, 2]) ∧
    ∃ u, set_up integers twoRows withGpu makeArgs = .ok (some u) ∧ (1, 4) ∈ u.bounds := by
  refine ⟨?_, ?_, ⟨_, rfl, rfl⟩, ⟨_, rfl, by decide⟩⟩
  · apply (well_formed_iff (show parse_args integers replayArgs = .ok _ from rfl) _).mpr positiveInput_replayArgs
    intro path hpath
    rw [replays_replayArgs hpath]
    exact ⟨_, parse_replay_twoRows⟩
  · apply (well_formed_iff (show parse_args integers makeArgs = .ok _ from rfl) _).mpr positiveInput_makeArgs
    exact fun path hpath => absurd hpath (not_replays_makeArgs path)

/-- A file with one row, whose first dimension is `0`. -/
def zeroRow (path : Str) : Option Str := if path = "zero.csv".toList then some "1,0,1,1,1,0".toList else none

/-- A `--job-batch-max` of `0` is accepted, and `make_job` draws between `1` and `0`; a job without
rows is read from a file, and submitted. -/
theorem ill_formed_jobs :
    (∃ u, set_up integers (fun _ => none) withGpu ["--jobs".toList, "1".toList, "--job-batch-max=0".toList] =
      .ok (some u) ∧ (1, 0) ∈ u.bounds ∧ ¬ WellFormed u) ∧
    ∃ u job, set_up integers zeroRow withGpu ["--replay".toList, "zero.csv".toList] = .ok (some u) ∧
      Submits u.options u.workload job ∧ ¬ job.Positive := by
  refine ⟨⟨_, rfl, by decide, fun h => ?_⟩, _, { id := 1, m := 0, n := 1, k := 1 }, rfl, ?_, fun h => ?_⟩
  · exact absurd (h.ordered (1, 0) (by decide)) (by decide)
  · exact submits_iff.mpr (by decide)
  · exact absurd h.m (by decide)

end Gbis.Daemon
