import Gbis.Sched.Entries
import Gbis.Sched.Launches
import Gbis.Sched.Pipeline
import Gbis.Sched.Timeline

/-!
# From `submit()` to `get_result()`

The scheduler with its threads, each of its workers with its GPU: the scheduler's steps are
those of `Gbis.Sched.scheduler`, the answers a worker gets are those of its GPU
(`Gpu.Serves`), and the GPU finishes what has been issued to it in any order the rules of
streams and events allow (`machine`). The GPU of a worker is what the runtime shows to it:
its streams and events, and its allocations. The launch of a grid that is not within CUDA's
limits executes nothing, and the worker does not learn of it.

Two ghosts say where the jobs come from: `given` is what clients have handed in, in the order
of their calls, and `accepted` what was pushed into the queue, by its number.

The result is the whole way (`delivered`): the number that `submit(job)` returns is the
job's own, and an entry of `metrics_` with that number is the job's; if it says that the job has
succeeded, and results are retained, there is a result; and if no job has been handed in whose
launch is refused, whatever `get_result` ever returns is the product of that job's matrices. It
needs the pipeline's safety (`worker_body_gpu`), in which the result a worker stores is the
product of the job of its batch that has the number, that a turn launches kernels for the jobs of
its batch only (`worker_body_launching`), and that a job is nowhere in the scheduler but under its
own number (`Pending`).
-/

namespace Gbis.Sched

open Gbis.Core Library

variable {K : Kernels} {o : Options} {s t : State} {a : Action} {batch : List InferenceJob} {l : Locals}

/-! ### Where the jobs are -/

/-- The job a step pushes into the queue, with its number. -/
def State.accepts (s : State) : Action → List InferenceJob
  | .client i => match s.submits[i]? with
    | some (.stamped job) => [{ job with seq := s.next_seq_ }]
    | _ => []
  | _ => []

/-- The state without its clients. -/
def State.alone (s : State) : State := { s with submits := [] }

/-- `P` holds of every job that has been pushed and not been recorded. -/
abbrev Pending (P : InferenceJob → Prop) (s : State) : Prop := Carried P (fun batch => ∀ job ∈ batch, P job) s.alone

variable {P Q : InferenceJob → Prop}

theorem Pending.mono (h : Pending P s) (hPQ : ∀ job, P job → Q job) : Pending Q s :=
  ⟨by simp [State.alone], fun job hj => hPQ job (h.queue_ job hj), fun job hj => hPQ job (h.undecided job hj),
    fun job hj => hPQ job (h.chosen job hj), fun batch hb job hj => hPQ job (h.batch_queue_ batch hb job hj),
    fun w hw turn hpc job hj => hPQ job (h.running w hw turn hpc job hj)⟩

/-- The other threads do not look at the clients. -/
theorem ControlStep.alone (h : ControlStep o s a t) : ControlStep o s.alone a t.alone := by
  cases h <;> constructor <;> assumption

theorem DispatcherStep.alone (h : DispatcherStep o s a t) : DispatcherStep o s.alone a t.alone := by
  cases h with
  | queue_exit hd hs => exact .queue_exit hd hs
  | _ => constructor <;> assumption

theorem State.effect_alone (s : State) (c : Call) : s.alone.effect c = (s.effect c).alone := by
  cases c <;> rfl

theorem WorkerStep.alone (h : WorkerStep o s a t) : WorkerStep o s.alone a t.alone := by
  cases h with
  | @call i w turn c k r hi hw hp hr =>
    have hcall : WorkerStep o s.alone (.answer i c r) _ := .call hi hw hp hr
    rw [s.effect_alone] at hcall
    exact hcall
  | _ => constructor <;> assumption

/-- **Jobs come from clients**: a job in the scheduler was there before, or has just been pushed. -/
theorem Step.pending (h : Step o s a t) (hs : Pending P s) (ha : ∀ job ∈ s.accepts a, P job) : Pending P t := by
  have hnil : ∀ job ∈ ([] : List InferenceJob), P job := List.forall_mem_nil _
  cases h with
  | client _ h =>
    obtain ⟨h₁, h₂, h₃, h₄, h₅, h₆⟩ := hs
    cases h with
    | tick | submit | count => exact ⟨h₁, h₂, h₃, h₄, h₅, h₆⟩
    | @push i job hi =>
      have hnew : P { job with seq := s.next_seq_ } := ha _ (by simp [State.accepts, hi])
      exact ⟨h₁, List.forall_mem_append.mpr ⟨h₂, List.forall_mem_singleton.mpr hnew⟩, h₃, h₄, h₅, h₆⟩
    | notify =>
      have hd := s.wakeDispatcher_woken_queue
      exact ⟨h₁, h₂, hd.undecided ▸ h₃, hd.chosen ▸ h₄, h₅, h₆⟩
  | control hterm h =>
    have halone : Step o s.alone a t.alone := .control hterm h.alone
    exact h.alone.carried hnil (halone.running_carried hs) hs
  | dispatcher hterm h =>
    have halone : Step o s.alone a t.alone := .dispatcher hterm h.alone
    exact h.alone.carried hnil (fun _ _ _ hc job hj => hc job (mem_of_mem_selected hj)) (halone.running_carried hs) hs
  | worker hterm h =>
    have halone : Step o s.alone a t.alone := .worker hterm h.alone
    exact h.alone.carried (halone.running_carried hs) hs

/-! ### What a turn has stored -/

/-- The results stored so far with which a call may be made: when entries of success are recorded,
they are those of the batch, with all of its results stored if they are to be. -/
def storedPre (retain_results : Bool) (batch : List InferenceJob) : Call → List ℕ → Prop
  | .insert_metrics out, stored =>
    List.Forall₂ Succeeded batch out ∧ (retain_results = true → batch.map InferenceJob.seq ⊆ stored)
  | _, _ => True

/-- What a call stores. -/
def storedApply (stored : List ℕ) : (c : Call) → c.Ret → List ℕ
  | .store_result seq _, _ => seq :: stored
  | _, _ => stored

/-- The world of the results a turn has stored. -/
def storedWorld (retain_results : Bool) (batch : List InferenceJob) : World Call Call.Ret (List ℕ) :=
  .ofFun (storedPre retain_results batch) storedApply

variable {retain_results : Bool} {stored : List ℕ}

/-- What does not settle only adds to what is stored. -/
theorem unsettled_stored_wp {α : Type} {p : WorkerM α} {γ : Type} {g : Locals → γ}
    (hp : p.Within (fun c => settles c = false) g) :
    p.wp (storedWorld retain_results batch) (fun _ _ stored' => stored ⊆ stored') (fun _ _ _ => True) l stored := by
  refine Host.wp_mono (Host.wp_of_within (I := fun stored' => stored ⊆ stored') (fun c stored' hc hsub => ?_) hp
    (List.Subset.refl stored)) (fun _ _ _ h => h.2) fun _ _ _ _ => trivial
  cases c with
  | insert_metrics => cases hc
  | store_result => exact ⟨trivial, fun _ _ hr => hr ▸ List.subset_cons_of_subset _ hsub⟩
  | _ => exact ⟨trivial, fun _ _ hr => hr ▸ hsub⟩

theorem collect_job_stored (i : ℕ) (job : InferenceJob) :
    (collect_job retain_results i job).wp (storedWorld retain_results batch)
      (fun _ _ stored' => stored ⊆ stored' ∧ (retain_results = true → job.seq ∈ stored')) (fun _ _ _ => True)
      l stored := by
  unfold collect_job
  refine Host.wp_seq (unsettled_stored_wp (event_at_passive _ i)) ?_ fun _ _ _ _ => trivial
  intro ev l₁ s₁ h₁
  rw [Host.wp_bind, Host.wp_call]
  refine ⟨trivial, ?_⟩
  rintro r _ rfl
  rw [Host.wp_bind, wp_CUDA_CHECK]
  refine ⟨fun _ _ => ?_, fun _ _ => trivial⟩
  rw [Host.wp_bind, Host.wp_call]
  refine ⟨trivial, ?_⟩
  rintro finish _ rfl
  rw [Host.wp_bind, Host.wp_locals]
  cases retain_results with
  | false => exact ⟨h₁, by simp⟩
  | true =>
    rw [Host.wp_bind, retain, if_pos rfl, Host.wp_bind, Host.wp_call]
    refine ⟨trivial, ?_⟩
    rintro c _ rfl
    rw [Host.wp_call]
    refine ⟨trivial, ?_⟩
    rintro _ _ rfl
    exact ⟨List.subset_cons_of_subset _ h₁, fun _ => List.mem_cons_self⟩

theorem collect_jobs_stored (i : ℕ) (jobs : List InferenceJob) :
    (collect_jobs retain_results i jobs).wp (storedWorld retain_results batch)
      (fun _ _ stored' => stored ⊆ stored' ∧ (retain_results = true → jobs.map InferenceJob.seq ⊆ stored'))
      (fun _ _ _ => True) l stored := by
  induction jobs generalizing i l stored with
  | nil => exact ⟨List.Subset.refl stored, fun _ => List.nil_subset _⟩
  | cons job jobs ih =>
    refine Host.wp_seq (collect_job_stored i job) ?_ fun _ _ _ _ => trivial
    intro m l₁ s₁ h₁
    refine Host.wp_seq (ih (i + 1)) ?_ fun _ _ _ _ => trivial
    intro out l₂ s₂ h₂
    refine ⟨List.Subset.trans h₁.1 h₂.1, fun hret => ?_⟩
    rw [List.map_cons]
    exact List.cons_subset.mpr ⟨h₂.1 (h₁.2 hret), h₂.2 hret⟩

/-- Of what does not settle, nothing need be known. -/
theorem any_stored_wp {α : Type} {p : WorkerM α} {γ : Type} {g : Locals → γ}
    (hp : p.Within (fun c => settles c = false) g) :
    p.wp (storedWorld retain_results batch) (fun _ _ _ => True) (fun _ _ _ => True) l stored :=
  Host.wp_mono (unsettled_stored_wp hp) (fun _ _ _ _ => trivial) fun _ _ _ _ => trivial

theorem try_block_stored :
    (try_block o batch).wp (storedWorld o.retain_results batch) (fun _ _ _ => True) (fun _ _ _ => True) l stored := by
  refine try_block_rule (A := fun _ _ _ => True) (I := fun _ _ => True) (O := fun out _ stored =>
      List.Forall₂ Succeeded batch out ∧ (o.retain_results = true → batch.map InferenceJob.seq ⊆ stored))
    (any_stored_wp ((allocate_attempts_quiet batch _).mono (fun _ h => h.2.1) fun _ _ h => h)) ?_ ?_ ?_ ?_
  · intro err l stored _
    exact any_stored_wp ((throw_unless_allocated_inert err).mono (fun _ h => h.2.2.1) fun _ _ h => h)
  · intro p hp l stored _
    exact any_stored_wp (hp.mono (fun _ h => h.2.2.1) fun _ _ h => h)
  · intro l stored _
    exact Host.wp_mono ((collect_jobs_yields o.retain_results 0 batch).wp (collect_jobs_stored 0 batch))
      (fun _ _ _ h => ⟨h.1, h.2.2⟩) fun _ _ _ h => h
  · intro out l stored h
    rw [Host.wp_bind, Host.wp_call]
    refine ⟨h, fun _ _ _ => ?_⟩
    rw [Host.wp_call]
    exact ⟨trivial, fun _ _ _ => trivial⟩

/-- A call that records no success may always be made. -/
theorem call_stored_wp {c : Call} (hc : ∀ stored, storedPre retain_results batch c stored) :
    (call c : WorkerM c.Ret).wp (storedWorld retain_results batch) (fun _ _ _ => True) (fun _ _ _ => True) l stored :=
  (Host.wp_call c).mpr ⟨hc stored, fun _ _ _ => trivial⟩

theorem execute_batch_stored : (execute_batch o batch).wp (storedWorld o.retain_results batch) (fun _ _ _ => True)
    (fun _ _ _ => True) l stored := by
  refine execute_batch_rule (P := fun _ _ => True) (R := fun _ _ => True) (Y := fun _ _ => True) (M := fun _ _ => True)
    (any_stored_wp (create_streams_preparing.steady.mono (fun _ h => h.2.1) fun _ _ h => h)) ?_ ?_ ?_ ?_
  · intro l stored _
    exact any_stored_wp ((grow_events_preparing _).steady.mono (fun _ h => h.2.1) fun _ _ h => h)
  · intro l stored _
    exact try_block_stored
  · intro e l stored _
    unfold catch_block
    rw [Host.wp_bind, Host.wp_call]
    exact ⟨trivial, fun _ _ _ => call_stored_wp fun _ => trivial⟩
  · intro l stored _
    exact any_stored_wp ((release_jobs_quiet _ _).mono (fun _ h => h.2.1) fun _ _ h => h)

/-- **When a turn records success its results are stored**, whatever the library answers. -/
theorem worker_body_stored (gpu_absent : Bool) :
    (worker_body o gpu_absent batch).wp (storedWorld o.retain_results batch) (fun _ _ _ => True) (fun _ _ _ => True)
      l stored := by
  refine worker_body_rule (P := fun _ _ => True) (M := fun _ _ => True) (Y := fun _ _ => True)
    (call_stored_wp fun _ => trivial) ?_ ?_ ?_ ?_
  · intro _ l stored _
    exact call_stored_wp fun _ => trivial
  · intro l stored _
    exact execute_batch_stored
  · intro l stored _
    exact call_stored_wp fun _ => trivial
  · intro l stored _
    exact call_stored_wp fun _ => trivial

/-! ### The machine -/

/-- The scheduler, the GPU each worker drives, and where the jobs come from. -/
structure Machine where
  sched : State
  /-- The GPU, as worker `i` sees it. -/
  gpus : ℕ → Gpu
  /-- The jobs clients have handed to `submit()`, in the order of their calls. -/
  given : List InferenceJob := []
  /-- The jobs that have been pushed, by their numbers. -/
  accepted : List InferenceJob := []

/-- The labels of the machine's steps. -/
inductive MachineAction where
  /-- The scheduler goes on. -/
  | sched (a : Action)
  /-- The GPU of worker `i` finishes an operation. -/
  | execute (i : ℕ)

/-- The job a client hands in. -/
def Action.gives : Action → List InferenceJob
  | .submit job => [job]
  | _ => []

/-- What a call does to a GPU: a launch that CUDA refuses does nothing, and anything else is as in `Answers`. -/
def Gpu.Serves (K : Kernels) (g : Gpu) (c : Call) (r : c.Ret) (g' : Gpu) : Prop :=
  if refused c then g' = g else g.Answers K c r g'

/-- A worker's call is answered by its GPU; no other step concerns the GPUs. -/
def Serves (K : Kernels) (gpus gpus' : ℕ → Gpu) : Action → Prop
  | .answer i c r => ∃ g, (gpus i).Serves K c r g ∧ gpus' = Function.update gpus i g
  | _ => gpus' = gpus

/-- **A step** of the machine. -/
inductive MachineStep (K : Kernels) (o : Options) (p : Machine) : MachineAction → Machine → Prop where
  | sched {a : Action} {t : State} {gpus : ℕ → Gpu} : Step o p.sched a t → Serves K p.gpus gpus a →
      MachineStep K o p (.sched a)
        { sched := t, gpus, given := p.given ++ a.gives, accepted := p.accepted ++ p.sched.accepts a }
  | execute {i : ℕ} {g : Gpu} : (p.gpus i).Executes K g →
      MachineStep K o p (.execute i) { p with gpus := Function.update p.gpus i g }

/-- The scheduler on its GPUs, from its construction on. -/
def machine (K : Kernels) (o : Options) : System Machine MachineAction where
  init p := ∃ (t : ℤ) (memory : ℕ → Contents),
    p = { sched := { clock := t }, gpus := fun i => { dev := { memory := memory i } } }
  step := MachineStep K o

variable {p q : Machine} {b : MachineAction}

/-- The scheduler of the machine is a scheduler. -/
theorem machine_simulation : Simulation (machine K o) Always (scheduler o) Machine.sched := by
  refine ⟨?_, fun _ hstep _ => ?_⟩
  · rintro _ ⟨t, _, rfl⟩
    exact ⟨t, rfl⟩
  · cases hstep with
    | sched h => exact .inr ⟨_, h⟩
    | execute => exact .inl rfl

/-! ### The launches -/

/-- A turn launches what is left of it for jobs of its batch. -/
def LaunchesOwn (o : Options) (turn : Turn) : Prop := turn.prog.Within (LaunchOf o.impl turn.batch) fun _ => True

theorem Step.launchesOwn (h : Step o s a t) (hs : AllTurns (LaunchesOwn o) s.workers) :
    AllTurns (LaunchesOwn o) t.workers := by
  refine h.allTurns hs (fun batch l => ?_) ?_
  · exact (worker_body_launching o s.gpu_absent_ l).mono (fun _ h => h) fun _ _ => trivial
  · intro i c r w turn k _ hw hpc hprog
    have hturn := hs w hw turn hpc
    unfold LaunchesOwn at hturn ⊢
    rw [hprog] at hturn
    exact hturn.2 r

/-- The launches for jobs within the limits are accepted. -/
theorem Gpu.Serves.answers {g g' : Gpu} {c : Call} {r : c.Ret} (h : g.Serves K c r g') (hc : LaunchOf o.impl batch c)
    (hbatch : ∀ job ∈ batch, Launchable o.impl job) : g.Answers K c r g' := by
  rw [Gpu.Serves, if_neg (ne_true_of_eq_false (hc.accepted hbatch))] at h
  exact h

/-! ### The workers and their GPUs -/

/-- A worker in a turn goes on safely on its GPU; one that may take a batch has an idle GPU. -/
def WorkerGood (K : Kernels) (o : Options) (w : Worker) (g : Gpu) : Prop :=
  match w.pc with
  | .running turn => turn.prog.wp (gpuWorld K o.impl turn.batch) (Host.ends (fun _ => Between) fun _ _ _ => True) g
  | .exited => True
  | _ => Between w.locals g

/-- All workers are good, also those that have yet to be created. -/
def Driven (K : Kernels) (o : Options) (workers : List Worker) (gpus : ℕ → Gpu) : Prop :=
  ∀ i, WorkerGood K o (workers.getD i {}) (gpus i)

variable {gpus gpus' : ℕ → Gpu} {workers : List Worker} {i : ℕ} {w w' : Worker} {g g' : Gpu}

theorem Driven.of_getElem? (h : Driven K o workers gpus) (hi : workers[i]? = some w) : WorkerGood K o w (gpus i) := by
  have hgood := h i
  rwa [List.getD_eq_getElem?_getD, hi] at hgood

/-- A worker changes, and its GPU. -/
theorem Driven.advance (h : Driven K o workers gpus) (hi : workers[i]? = some w) (hw : WorkerGood K o w' g) :
    Driven K o (workers.set i w') (Function.update gpus i g) := by
  intro j
  rcases eq_or_ne i j with rfl | hne
  · have hlt := (List.getElem?_eq_some_iff.mp hi).1
    rw [List.getD_eq_getElem?_getD, List.getElem?_set_self hlt, Function.update_self]
    exact hw
  · rw [List.getD_eq_getElem?_getD, List.getElem?_set_ne hne, ← List.getD_eq_getElem?_getD,
      Function.update_of_ne hne.symm]
    exact h j

theorem Driven.set (h : Driven K o workers gpus) (hi : workers[i]? = some w) (hw : WorkerGood K o w' (gpus i)) :
    Driven K o (workers.set i w') gpus := by
  have hdriven := h.advance hi hw
  rwa [Function.update_eq_self] at hdriven

theorem WorkerGood.wake (h : WorkerGood K o w g) : WorkerGood K o w.wake g := by
  unfold Worker.wake
  split
  · rename_i hpc
    unfold WorkerGood at h
    rw [hpc] at h
    exact h
  · exact h

theorem WorkerGood.executes (h : WorkerGood K o w g) (hx : g.Executes K g') : WorkerGood K o w g' := by
  unfold WorkerGood at h ⊢
  split at h
  · refine Prog.wp_move (fun r g g' hx hr => ?_) hx h
    rcases r with ⟨e | a, l⟩
    · trivial
    · exact Between.stable hr hx
  · trivial
  · exact Between.stable h hx

/-- Without a GPU a turn makes no call of the GPU. -/
theorem worker_body_absent_gpu (h : Between l g) :
    (worker_body o true batch).wp (gpuWorld K o.impl batch) (fun _ => Between) (fun _ _ _ => True) l g := by
  have hcalls : (worker_body o true batch).Within (fun c => aside c = true) id := by
    refine Host.within_bind (Host.within_call rfl) fun _ => ?_
    exact Host.within_bind (Host.within_call rfl) fun _ => Host.within_call rfl
  refine Host.wp_mono (aside_wp (I := Between l) (fun _ _ hx hb => hb.stable hx) hcalls h) ?_ fun _ _ _ _ => trivial
  rintro _ l' g' ⟨rfl, h⟩
  exact h

theorem Driven.update (h : Driven K o workers gpus) (hg : ∀ w, WorkerGood K o w (gpus i) → WorkerGood K o w g) :
    Driven K o workers (Function.update gpus i g) := by
  intro j
  rcases eq_or_ne j i with rfl | hne
  · rw [Function.update_self]
    exact hg _ (h j)
  · rw [Function.update_of_ne hne]
    exact h j

/-- **The scheduler keeps its workers on good GPUs**, in every interleaving, if no launch is refused. -/
theorem Step.driven (h : Step o s a t) (hserve : Serves K gpus gpus' a)
    (hbatches : ∀ batch ∈ s.batch_queue_, batch ≠ []) (hown : AllTurns (LaunchesOwn o) s.workers)
    (hjobs : Pending (Launchable o.impl) s) (hs : Driven K o s.workers gpus) : Driven K o t.workers gpus' := by
  cases h with
  | client _ h => cases h <;> exact hserve ▸ hs
  | control _ h =>
    cases h with
    | spawn =>
      obtain rfl : gpus' = gpus := hserve
      intro i
      have hsame : (s.workers ++ [({} : Worker)]).getD i {} = s.workers.getD i {} := by
        simp only [List.getD_eq_getElem?_getD, List.getElem?_append]
        split_ifs with hi
        · rfl
        · rw [List.getElem?_eq_none (l := s.workers) (Nat.le_of_not_lt hi)]
          cases (i - s.workers.length) <;> rfl
      exact hsame ▸ hs i
    | notify_batch =>
      obtain rfl : gpus' = gpus := hserve
      intro i
      have hwake : (s.workers.map Worker.wake).getD i {} = (s.workers.getD i {}).wake := by
        simp only [List.getD_eq_getElem?_getD, List.getElem?_map]
        cases s.workers[i]? <;> rfl
      exact hwake ▸ (hs i).wake
    | _ => exact hserve ▸ hs
  | dispatcher _ h =>
    cases h with
    | notify _ hi =>
      obtain rfl : gpus' = gpus := hserve
      exact hs.set hi (hs.of_getElem? hi).wake
    | _ => exact hserve ▸ hs
  | worker _ h =>
    cases h with
    | exit hi =>
      obtain rfl : gpus' = gpus := hserve
      exact hs.set hi trivial
    | found_empty hi hw | block hi hw =>
      obtain rfl : gpus' = gpus := hserve
      have hgood := hs.of_getElem? hi
      rw [WorkerGood, hw] at hgood
      exact hs.set hi hgood
    | @pop i w batch rest hi hw _ hq =>
      obtain rfl : gpus' = gpus := hserve
      have hbetween := hs.of_getElem? hi
      rw [WorkerGood, hw] at hbetween
      refine hs.set hi ?_
      change (worker_body o s.gpu_absent_ batch).wp (gpuWorld K o.impl batch) (fun _ => Between) (fun _ _ _ => True) _ _
      cases s.gpu_absent_ with
      | true => exact worker_body_absent_gpu hbetween
      | false => exact worker_body_gpu o (hbatches batch (by simp [hq])) hbetween
    | @call i w turn c k r hi hw hp _ =>
      obtain ⟨g, hserve, rfl⟩ := hserve
      have hmem := List.mem_of_getElem? hi
      have hturn := hown w hmem turn hw
      rw [LaunchesOwn, hp] at hturn
      have hanswer := hserve.answers hturn.1 (hjobs.running w hmem turn hw)
      have hgood := hs.of_getElem? hi
      rw [WorkerGood, hw] at hgood
      change turn.prog.wp _ _ _ at hgood
      rw [hp] at hgood
      simp only [State.setWorker, s.effect_workers]
      exact hs.advance hi (hgood.2 r g ⟨_, .refl, hanswer⟩)
    | @done i w turn l hi hw hp =>
      obtain rfl : gpus' = gpus := hserve
      have hgood := hs.of_getElem? hi
      rw [WorkerGood, hw] at hgood
      change turn.prog.wp _ _ _ at hgood
      rw [hp] at hgood
      exact hs.set hi hgood
    | throw => exact hserve ▸ hs
    | spurious hi =>
      obtain rfl : gpus' = gpus := hserve
      exact hs.set hi (hs.of_getElem? hi).wake

/-! ### Where the jobs come from -/

/-- The job of a client that has been handed `job`, wherever the client is. -/
def Handed (accepted : List InferenceJob) (job : InferenceJob) : SubmitPc → Prop
  | .stamped job' => ∃ t, job' = { job with submit_time := t }
  | .pushed seq | .counted seq | .returned seq => ∃ t, accepted[seq]? = some { job with submit_time := t, seq := seq }

/-- Each client has its job, and each number too. -/
structure Traced (given accepted : List InferenceJob) (s : State) : Prop where
  clients : given.length = s.submits.length
  numbers : accepted.length = s.next_seq_
  handed : ∀ (i : ℕ) (pc : SubmitPc) (job : InferenceJob), s.submits[i]? = some pc → given[i]? = some job →
    Handed accepted job pc

variable {given accepted : List InferenceJob} {job : InferenceJob}

theorem getElem?_append_of_some {xs ys : List InferenceJob} {n : ℕ} (h : xs[n]? = some job) :
    (xs ++ ys)[n]? = some job := by
  rwa [List.getElem?_append_left (List.getElem?_eq_some_iff.mp h).1]

theorem Handed.append {pc : SubmitPc} (h : Handed accepted job pc) (xs : List InferenceJob) :
    Handed (accepted ++ xs) job pc := by
  cases pc with
  | stamped => exact h
  | pushed | counted | returned =>
    obtain ⟨t, ht⟩ := h
    exact ⟨t, getElem?_append_of_some ht⟩

/-- A client goes on. -/
theorem Traced.go_on (h : Traced given accepted s) {i : ℕ} {pc pc' : SubmitPc} (hi : s.submits[i]? = some pc)
    (ht : t.submits = s.submits.set i pc') {xs : List InferenceJob} (hx : (accepted ++ xs).length = t.next_seq_)
    (hpc : ∀ job, Handed accepted job pc → Handed (accepted ++ xs) job pc') : Traced given (accepted ++ xs) t := by
  refine ⟨by simpa [ht] using h.clients, hx, fun j pc'' job hj hjob => ?_⟩
  rw [ht] at hj
  rcases eq_or_ne i j with rfl | hne
  · rw [List.getElem?_set_self (List.getElem?_eq_some_iff.mp hi).1] at hj
    obtain rfl := Option.some.inj hj
    exact hpc job (h.handed i pc job hi hjob)
  · rw [List.getElem?_set_ne hne] at hj
    exact (h.handed j pc'' job hj hjob).append xs

theorem ClientStep.traced (h : ClientStep s a t) (hs : Traced given accepted s) :
    Traced (given ++ a.gives) (accepted ++ s.accepts a) t := by
  cases h with
  | tick => simpa [Action.gives, State.accepts] using ⟨hs.clients, hs.numbers, hs.handed⟩
  | submit job =>
    simp only [Action.gives, State.accepts, List.append_nil]
    refine ⟨by simp [hs.clients], hs.numbers, fun i pc job' hi hjob => ?_⟩
    rcases Nat.lt_or_ge i s.submits.length with hlt | hge
    · rw [List.getElem?_append_left hlt] at hi
      rw [List.getElem?_append_left (hs.clients ▸ hlt)] at hjob
      exact hs.handed i pc job' hi hjob
    · rw [List.getElem?_append_right hge, List.getElem?_singleton] at hi
      rw [List.getElem?_append_right (hs.clients ▸ hge), List.getElem?_singleton] at hjob
      split_ifs at hi with hz
      obtain rfl := Option.some.inj hi
      rw [hs.clients, if_pos hz] at hjob
      obtain rfl := Option.some.inj hjob
      exact ⟨s.clock, rfl⟩
  | @push i job hi =>
    have hgives : (Action.client i).gives = [] := rfl
    have haccepts : s.accepts (.client i) = [{ job with seq := s.next_seq_ }] := by simp [State.accepts, hi]
    rw [haccepts, hgives, List.append_nil]
    refine hs.go_on hi rfl (by simp [hs.numbers]) fun job' hjob => ?_
    obtain ⟨t, rfl⟩ := hjob
    exact ⟨t, by rw [← hs.numbers, List.getElem?_concat_length]⟩
  | @count i seq hi =>
    have hgives : (Action.client i).gives = [] := rfl
    have haccepts : s.accepts (.client i) = [] := by simp [State.accepts, hi]
    rw [haccepts, hgives, List.append_nil]
    have hlen : (accepted ++ []).length = s.next_seq_ := by simpa using hs.numbers
    have hgo : ∀ job, Handed accepted job (.pushed seq) → Handed (accepted ++ []) job (.counted seq) :=
      fun job hjob => hjob.append []
    exact hs.go_on hi rfl hlen hgo
  | @notify i seq hi =>
    have hgives : (Action.client i).gives = [] := rfl
    have haccepts : s.accepts (.client i) = [] := by simp [State.accepts, hi]
    rw [haccepts, hgives, List.append_nil]
    have hlen : (accepted ++ []).length = s.next_seq_ := by simpa using hs.numbers
    have hgo : ∀ job, Handed accepted job (.counted seq) → Handed (accepted ++ []) job (.returned seq) :=
      fun job hjob => hjob.append []
    exact hs.go_on hi rfl hlen hgo

/-- The other threads accept no job. -/
theorem Step.traced (h : Step o s a t) (hs : Traced given accepted s) :
    Traced (given ++ a.gives) (accepted ++ s.accepts a) t := by
  have hsame : a.gives = [] → s.accepts a = [] → SameClients s t →
      Traced (given ++ a.gives) (accepted ++ s.accepts a) t := by
    rintro hgives haccepts ⟨hsub, hnext, -⟩
    rw [hgives, haccepts, List.append_nil, List.append_nil]
    exact ⟨by rw [hsub]; exact hs.clients, by rw [hnext]; exact hs.numbers, by rw [hsub]; exact hs.handed⟩
  cases h with
  | client _ h => exact h.traced hs
  | control _ h => cases h <;> exact hsame rfl rfl ⟨rfl, rfl, rfl⟩
  | dispatcher _ h => cases h <;> exact hsame rfl rfl ⟨rfl, rfl, rfl⟩
  | worker _ h =>
    cases h with
    | @call _ _ _ c =>
      obtain ⟨h₁, h₂, h₃⟩ := s.effect_sameClients c
      exact hsame rfl rfl ⟨h₁, h₂, h₃⟩
    | _ => exact hsame rfl rfl ⟨rfl, rfl, rfl⟩

/-- The number a job is accepted under is its own. -/
theorem Traced.accepts (h : Traced given accepted s) :
    ∀ job ∈ s.accepts a, (accepted ++ s.accepts a)[job.seq]? = some job := by
  intro job hjob
  cases a with
  | client i =>
    cases hi : s.submits[i]? with
    | none => simp [State.accepts, hi] at hjob
    | some pc =>
      cases pc with
      | stamped job' =>
        have haccepts : s.accepts (.client i) = [{ job' with seq := s.next_seq_ }] := by simp [State.accepts, hi]
        rw [haccepts] at hjob ⊢
        obtain rfl := List.mem_singleton.mp hjob
        dsimp only
        rw [← h.numbers, List.getElem?_concat_length]
      | _ => simp [State.accepts, hi] at hjob
  | _ => cases hjob

/-! ### The whole way -/

/-- An entry is that of the job with its number; if it says that the job has succeeded, there is a
result, if results are retained. -/
def Rightful (retain_results : Bool) (accepted : List InferenceJob) (s : State) (m : JobMetrics) : Prop :=
  ∃ job, accepted[m.seq]? = some job ∧ m.job_id = job.id ∧ m.priority = job.priority ∧
    (m.ok = true → retain_results = true → (s.results_ m.seq).isSome)

theorem rightful_failed (hjob : accepted[job.seq]? = some job) :
    Rightful retain_results accepted s (failedMetrics job) :=
  ⟨job, hjob, rfl, rfl, by simp [failedMetrics]⟩

/-- The entries of a batch that has succeeded, and been stored. -/
theorem rightful_of_succeeded {out : List JobMetrics} (h : List.Forall₂ Succeeded batch out)
    (hbatch : ∀ job ∈ batch, accepted[job.seq]? = some job)
    (hstored : retain_results = true → ∀ job ∈ batch, (s.results_ job.seq).isSome) :
    ∀ m ∈ out, Rightful retain_results accepted s m := by
  induction h with
  | nil => exact List.forall_mem_nil _
  | cons hsucc _ ih =>
    obtain ⟨hjob, hjobs⟩ := List.forall_mem_cons.mp hbatch
    refine List.forall_mem_cons.mpr ⟨⟨_, by rwa [hsucc.seq], hsucc.job_id, hsucc.priority, fun _ hret => ?_⟩, ?_⟩
    · rw [hsucc.seq]
      exact hstored hret _ List.mem_cons_self
    · exact ih hjobs fun hret job hj => hstored hret job (List.mem_cons_of_mem _ hj)

/-- What a turn has stored so far can be fetched, and what it has yet to do is in order. -/
def StoredBy (o : Options) (s : State) (turn : Turn) : Prop :=
  ∃ stored, turn.prog.wp (storedWorld o.retain_results turn.batch) (Host.ends (fun _ _ _ => True) fun _ _ _ => True)
    stored ∧ ∀ seq ∈ stored, (s.results_ seq).isSome

/-- What holds of the machine all the time. -/
structure Machine.Good (o : Options) (p : Machine) : Prop where
  traced : Traced p.given p.accepted p.sched
  pending : Pending (fun job => p.accepted[job.seq]? = some job) p.sched
  launches : AllTurns (LaunchesOwn o) p.sched.workers
  turns : AllTurns (StoredBy o p.sched) p.sched.workers
  entries : ∀ m ∈ p.sched.metrics_, Rightful o.retain_results p.accepted p.sched m

/-- What holds of it as long as all jobs are within the limits. -/
structure Machine.Delivers (K : Kernels) (o : Options) (p : Machine) : Prop where
  pending : Pending (Launchable o.impl) p.sched
  driven : Driven K o p.sched.workers p.gpus
  results : ∀ seq c, p.sched.results_ seq = some c → ∃ job, p.accepted[seq]? = some job ∧ c = product K o.impl job

theorem Step.stores {seq : ℕ} {c : Floats} {i : ℕ} {r : Unit} (h : Step o s (.answer i (.store_result seq c) r) t) :
    t.results_ = Function.update s.results_ seq (some c) := by
  cases h with
  | client _ h => cases h
  | control _ h => cases h
  | dispatcher _ h => cases h
  | worker _ h => cases h; rfl

/-- The results a step leaves are those there were, and the one it stores. -/
theorem Step.results_cases (h : Step o s a t) :
    t.results_ = s.results_ ∨ ∃ i seq c w turn k, a = .answer i (.store_result seq c) () ∧ s.workers[i]? = some w ∧
      w.pc = .running turn ∧ turn.prog = .call (.store_result seq c) k := by
  cases h with
  | client _ h => cases h <;> exact .inl rfl
  | control _ h => cases h <;> exact .inl rfl
  | dispatcher _ h => cases h <;> exact .inl rfl
  | worker _ h =>
    cases h with
    | @call i w turn c k r hi hw hp =>
      cases c with
      | store_result seq c => exact .inr ⟨i, seq, c, w, turn, k, rfl, hi, hw, hp⟩
      | _ => exact .inl rfl
    | _ => exact .inl rfl

/-- Results stay. -/
theorem Step.results_kept (h : Step o s a t) {seq : ℕ} (hs : (s.results_ seq).isSome) : (t.results_ seq).isSome := by
  rcases h.results_cases with he | ⟨i, seq', c, w, turn, k, rfl, -⟩
  · rwa [he]
  · rw [h.stores]
    rcases eq_or_ne seq seq' with rfl | hne
    · rw [Function.update_self]
      rfl
    · rwa [Function.update_of_ne hne]

theorem Rightful.kept {m : JobMetrics} (h : Rightful retain_results accepted s m) (hst : Step o s a t) :
    Rightful retain_results accepted t m := by
  obtain ⟨job, hjob, hid, hprio, hres⟩ := h
  exact ⟨job, hjob, hid, hprio, fun hok hret => hst.results_kept (hres hok hret)⟩

/-- What a turn has stored stays, and grows when it stores. -/
theorem Step.storedBy (h : Step o s a t) (hs : AllTurns (StoredBy o s) s.workers) :
    AllTurns (StoredBy o t) t.workers := by
  refine h.allTurns (fun w hw turn hpc => ?_) (fun batch l => ⟨[], worker_body_stored _, List.forall_mem_nil _⟩) ?_
  · obtain ⟨stored, hwp, hstored⟩ := hs w hw turn hpc
    exact ⟨stored, hwp, fun seq hseq => h.results_kept (hstored seq hseq)⟩
  · rintro i c r w turn k rfl hw hpc hprog
    obtain ⟨stored, hwp, hstored⟩ := hs w hw turn hpc
    rw [hprog] at hwp
    refine ⟨storedApply stored c r, hwp.2 r _ rfl, fun seq hseq => ?_⟩
    cases c with
    | store_result seq' v =>
      rcases List.mem_cons.mp hseq with rfl | hseq
      · rw [h.stores, Function.update_self]
        rfl
      · exact h.results_kept (hstored seq hseq)
    | _ => exact h.results_kept (hstored seq hseq)

/-- **A result is the product of its job**: the pipeline is safe, so what a worker stores is the
product of a job of its batch, under the job's number. -/
theorem Step.products (h : Step o s a t) (hpending : Pending (fun job => accepted[job.seq]? = some job) s)
    (hdriven : Driven K o s.workers gpus)
    (hs : ∀ seq c, s.results_ seq = some c → ∃ job, accepted[seq]? = some job ∧ c = product K o.impl job) :
    ∀ seq c, t.results_ seq = some c → ∃ job, accepted[seq]? = some job ∧ c = product K o.impl job := by
  intro seq c hc
  rcases h.results_cases with he | ⟨i, seq', c', w, turn, k, rfl, hi, hw, hprog⟩
  · exact hs seq c (he ▸ hc)
  · rw [h.stores] at hc
    rcases eq_or_ne seq seq' with rfl | hne
    · rw [Function.update_self] at hc
      obtain rfl := Option.some.inj hc
      have hgood := hdriven.of_getElem? hi
      rw [WorkerGood, hw] at hgood
      change turn.prog.wp _ _ _ at hgood
      rw [hprog] at hgood
      obtain ⟨job, hjob, rfl, rfl⟩ := hgood.1 _ .refl
      exact ⟨job, hpending.running w (List.mem_of_getElem? hi) turn hw job hjob, rfl⟩
    · rw [Function.update_of_ne hne] at hc
      exact hs seq c hc

/-- **An entry is its job's**, whoever records it. -/
theorem Step.rightful (h : Step o s a t) (hr : Reachable (scheduler o) Always s)
    (hpending : Pending (fun job => accepted[job.seq]? = some job) s) (hturns : AllTurns (StoredBy o s) s.workers)
    (hs : ∀ m ∈ s.metrics_, Rightful o.retain_results accepted s m) :
    ∀ m ∈ t.metrics_, Rightful o.retain_results accepted t m := by
  have hkept : ∀ m ∈ s.metrics_, Rightful o.retain_results accepted t m := fun m hm => (hs m hm).kept h
  have hfailed : ∀ batch : List InferenceJob, (∀ job ∈ batch, accepted[job.seq]? = some job) →
      ∀ m ∈ batch.map failedMetrics, Rightful o.retain_results accepted t m :=
    fun batch hbatch => List.forall_mem_map.mpr fun job hj => rightful_failed (hbatch job hj)
  cases h with
  | client _ h => cases h <;> exact hkept
  | control _ h => cases h <;> exact hkept
  | dispatcher _ h =>
    have hundecided := hpending.undecided
    cases h with
    | @no_gpu candidates hd =>
      refine List.forall_mem_append.mpr ⟨hkept, hfailed candidates fun job hj => hundecided job ?_⟩
      rw [State.alone, hd]
      exact hj
    | @reject large candidates hd =>
      refine List.forall_mem_append.mpr ⟨hkept, hfailed large fun job hj => hundecided job ?_⟩
      rw [State.alone, hd]
      exact List.mem_append_left _ hj
    | _ => exact hkept
  | worker _ h =>
    cases h with
    | @call i w turn c k r hi hw hprog =>
      have hmem := List.mem_of_getElem? hi
      have hbatch := hpending.running w hmem turn hw
      cases c with
      | insert_metrics out =>
        obtain ⟨stored, hwp, hstored⟩ := hturns w hmem turn hw
        rw [hprog] at hwp
        obtain ⟨hsucc, hall⟩ := hwp.1
        refine List.forall_mem_append.mpr ⟨hkept, rightful_of_succeeded hsucc hbatch fun hret job hj => ?_⟩
        exact hstored _ (hall hret (List.mem_map_of_mem hj))
      | fail_batch failed =>
        have hentry := turn_entries hr w hmem turn hw
        rw [hprog] at hentry
        obtain ⟨-, rfl⟩ := hentry.1
        exact List.forall_mem_append.mpr ⟨hkept, hfailed _ hbatch⟩
      | _ => exact hkept
    | _ => exact hkept

theorem MachineStep.good (h : MachineStep K o p b q) (hr : Reachable (scheduler o) Always p.sched) (hp : p.Good o) :
    q.Good o := by
  obtain ⟨htraced, hpending, hlaunches, hturns, hentries⟩ := hp
  cases h with
  | execute hx => exact ⟨htraced, hpending, hlaunches, hturns, hentries⟩
  | @sched a t gpus h hserve =>
    -- what is accepted only grows
    have hpending' : Pending (fun job => (p.accepted ++ p.sched.accepts a)[job.seq]? = some job) p.sched :=
      hpending.mono fun _ => getElem?_append_of_some
    refine ⟨h.traced htraced, h.pending hpending' htraced.accepts, h.launchesOwn hlaunches, h.storedBy hturns,
      h.rightful hr hpending' hturns fun m hm => ?_⟩
    obtain ⟨job, hjob, hentry⟩ := hentries m hm
    exact ⟨job, getElem?_append_of_some hjob, hentry⟩

theorem good (h : Reachable (machine K o) Always p) : p.Good o := by
  refine h.invariant (I := Machine.Good o) ?_ fun hr hp hstep _ =>
    MachineStep.good hstep (machine_simulation.reachable hr) hp
  rintro _ ⟨t, memory, rfl⟩
  refine ⟨⟨rfl, rfl, by simp⟩, ?_, by simp [AllTurns], by simp [AllTurns], by simp⟩
  exact ⟨by simp [State.alone], by simp [State.alone], by simp [State.alone, DispatcherPc.undecided],
    List.forall_mem_nil _, by simp [State.alone], by simp [State.alone]⟩

/-- A job that is pushed is within the limits, if all that have been handed in are. -/
theorem Traced.launchable (h : Traced given accepted s) (hall : ∀ job ∈ given, Launchable o.impl job) :
    ∀ job ∈ s.accepts a, Launchable o.impl job := by
  intro job hjob
  obtain ⟨i, rfl⟩ : ∃ i, a = .client i := by
    cases a with
    | client i => exact ⟨i, rfl⟩
    | _ => cases hjob
  cases hi : s.submits[i]? with
  | none => simp [State.accepts, hi] at hjob
  | some pc =>
    cases pc with
    | stamped job' =>
      obtain rfl : job = { job' with seq := s.next_seq_ } := by simpa [State.accepts, hi] using hjob
      have hlt : i < given.length := h.clients ▸ (List.getElem?_eq_some_iff.mp hi).1
      obtain ⟨t, rfl⟩ := h.handed i _ _ hi (List.getElem?_eq_getElem hlt)
      have hfits : Launchable o.impl given[i] := hall _ (List.getElem_mem hlt)
      exact hfits
    | _ => simp [State.accepts, hi] at hjob

theorem MachineStep.delivers (h : MachineStep K o p b q) (hr : Reachable (scheduler o) Always p.sched)
    (hgood : p.Good o) (hall : ∀ job ∈ p.given, Launchable o.impl job) (hp : p.Delivers K o) : q.Delivers K o := by
  obtain ⟨hpending, hdriven, hresults⟩ := hp
  cases h with
  | execute hx => exact ⟨hpending, hdriven.update fun _ hw => hw.executes hx, hresults⟩
  | @sched a t gpus h hserve =>
    have hnumbered : Pending (fun job => (p.accepted ++ p.sched.accepts a)[job.seq]? = some job) p.sched :=
      hgood.pending.mono fun _ => getElem?_append_of_some
    refine ⟨h.pending hpending (hgood.traced.launchable hall),
      h.driven hserve (batched hr).batches hgood.launches hpending hdriven,
      h.products hnumbered hdriven fun seq c hc => ?_⟩
    obtain ⟨job, hjob, rfl⟩ := hresults seq c hc
    exact ⟨job, getElem?_append_of_some hjob, rfl⟩

theorem delivers (h : Reachable (machine K o) Always p) (hall : ∀ job ∈ p.given, Launchable o.impl job) :
    p.Delivers K o := by
  refine h.invariant (I := fun p => (∀ job ∈ p.given, Launchable o.impl job) → p.Delivers K o) ?_ ?_ hall
  · rintro _ ⟨t, memory, rfl⟩ -
    refine ⟨?_, fun i => ?_, by simp⟩
    · exact ⟨by simp [State.alone], by simp [State.alone], by simp [State.alone, DispatcherPc.undecided],
        List.forall_mem_nil _, by simp [State.alone], by simp [State.alone]⟩
    · exact ⟨⟨fun _ hi => hi.elim, fun _ hi => hi.elim⟩, fun i hi => absurd hi (Nat.not_lt_zero i),
        ⟨List.nodup_nil, fun _ he => absurd he List.not_mem_nil, rfl, rfl⟩⟩
  · intro p b q hr hp hstep _ hall
    -- the jobs handed in so far are among those handed in by then
    have hbefore : ∀ job ∈ p.given, Launchable o.impl job := by
      cases hstep with
      | execute => exact hall
      | sched => exact fun job hj => hall job (List.mem_append_left _ hj)
    exact hstep.delivers (machine_simulation.reachable hr) (good hr) hbefore (hp hbefore)

/-- A machine whose GPUs work in order, and how many operations each of them has finished. -/
structure PacedMachine where
  machine : Machine
  finished : ℕ → ℕ := fun _ => 0

/-- The machine. -/
def PacedMachine.state (p : PacedMachine) : Machine :=
  { p.machine with gpus := fun i => (p.machine.gpus i).upTo (p.finished i) }

/-- What is to happen next. -/
inductive Move where
  /-- A step of the scheduler that is no answer. -/
  | sched (a : Action)
  /-- Worker `i` is answered, with `fresh` for what is new, or waits for its GPU to finish another operation. -/
  | serve (i fresh : ℕ)

/-- The machine, when the scheduler has gone on. -/
def Machine.advance (p : Machine) (a : Action) (t : State) (gpus : ℕ → Gpu) : Machine :=
  { sched := t, gpus, given := p.given ++ a.gives, accepted := p.accepted ++ p.sched.accepts a }

/-- What a call makes of the GPU of worker `i`. -/
def PacedMachine.serve (K : Kernels) (p : PacedMachine) (i : ℕ) (c : Call) (r : c.Ret) : Option Gpu :=
  if refused c then some (p.machine.gpus i) else (p.machine.gpus i).serve K (p.finished i) c r

/-- The scheduler, the worker, or its GPU goes on. -/
def PacedMachine.next (K : Kernels) (o : Options) (p : PacedMachine) : Move → Option PacedMachine
  | .sched (.answer ..) => none
  | .sched a =>
    (stepAt o p.machine.sched a).map fun t => { p with machine := p.machine.advance a t p.machine.gpus }
  | .serve i fresh =>
    (p.machine.sched.nextCall i).bind fun c =>
      let r := (p.machine.gpus i).answer fresh c
      match p.serve K i c r with
      | some g =>
        (stepAt o p.machine.sched (.answer i c r)).map fun t =>
          { p with machine := p.machine.advance (.answer i c r) t (Function.update p.machine.gpus i g) }
      | none =>
        ((p.machine.gpus i).finish K (p.finished i)).map fun g =>
          { machine := { p.machine with gpus := Function.update p.machine.gpus i g },
            finished := Function.update p.finished i (p.finished i + 1) }

theorem PacedMachine.serves {p : PacedMachine} {i : ℕ} {c : Call} {r : c.Ret} {g : Gpu} (h : p.serve K i c r = some g) :
    (p.state.gpus i).Serves K c r (g.upTo (p.finished i)) := by
  unfold PacedMachine.serve at h
  unfold Gpu.Serves
  split_ifs at h ⊢ with hc
  · cases h
    rfl
  · exact answers_of_serve h

/-- Each is a step of the machine. -/
theorem step_of_pacedMachine {p q : PacedMachine} {m : Move} (h : p.next K o m = some q) :
    ∃ b, MachineStep K o p.state b q.state := by
  have hone : ∀ (i : ℕ) (g : Gpu), (fun j => (Function.update p.machine.gpus i g j).upTo (p.finished j)) =
      Function.update p.state.gpus i (g.upTo (p.finished i)) :=
    fun i g => funext fun j => Function.apply_update (fun j (g : Gpu) => g.upTo (p.finished j)) _ i g j
  cases m with
  | sched a =>
    cases a with
    | answer => cases h
    | _ =>
      obtain ⟨t, ht, rfl⟩ := Option.map_eq_some_iff.mp h
      exact ⟨_, .sched (p := p.state) (step_of_stepAt o ht) rfl⟩
  | serve i fresh =>
    obtain ⟨c, -, h⟩ := Option.bind_eq_some_iff.mp h
    dsimp only at h
    split at h
    · rename_i g hserve
      obtain ⟨t, ht, rfl⟩ := Option.map_eq_some_iff.mp h
      refine ⟨_, .sched (p := p.state) (step_of_stepAt o ht) ⟨_, PacedMachine.serves hserve, hone i g⟩⟩
    · obtain ⟨g, hfinish, rfl⟩ := Option.map_eq_some_iff.mp h
      have hx : (p.state.gpus i).Executes K (g.upTo (p.finished i + 1)) := executes_of_finish hfinish
      have hgpus : (fun j => (Function.update p.machine.gpus i g j).upTo
          (Function.update p.finished i (p.finished i + 1) j)) =
          Function.update p.state.gpus i (g.upTo (p.finished i + 1)) := by
        funext j
        rcases eq_or_ne j i with rfl | hne
        · simp only [Function.update_self]
        · simp only [Function.update_of_ne hne]
          rfl
      have hstep := MachineStep.execute (o := o) hx
      rw [← hgpus] at hstep
      exact ⟨_, hstep⟩

/-- Two clients submit jobs, which are packed into one batch, and a worker takes it. -/
def packingTrace : List Action :=
  [.start, .probe false 1073741824, .spawn, .spawn, .submit { id := 7, m := 2, n := 3, k := 2 },
   .submit { id := 8, m := 1, n := 2, k := 4, batch := 2 }, .client 1, .client 0, .client 0, .client 1, .client 0,
   .client 1] ++ List.replicate 9 .dispatcher ++ [.notify_worker none, .worker 0]

end Gbis.Sched
