import Gbis.Library.Integers
import Gbis.Daemon.Replay

/-!
# What a replay file says

The jobs that a CSV file describes, whatever reads it: one for each of its data lines (`rows`),
and the integers that the first six fields of the line represent (`Says`). A line that has
fewer fields, or one that represents no integer of its type, describes no job (`Proper`).

`ReadsExactly` compares `parse_replay` with it. The one difference is in the sign of `id`:
`parse_u64` is a `std::stoull`, which takes a negative number and returns it modulo `2^64`, where
`parse_int` refuses what is out of its range. A file is read exactly unless such a line is in
it, and nothing else that makes `parse_replay` refuse it (`reads_exactly_iff`).
-/

namespace Gbis.Daemon

open Gbis.Sched Library

/-! ### The file -/

/-- The comma-separated fields of a line. -/
def fields (line : Str) : List Str := line.splitOn ','

/-- A field of a line represents an integer. -/
def FieldIs (line : Str) (i : ℕ) (v : ℤ) : Prop := ∃ field, (fields line)[i]? = some field ∧ Represents field v

/-- A data line: not empty, not a comment, not a header. -/
def IsRow (line : Str) : Prop :=
  line ≠ [] ∧ line.head? ≠ some '#' ∧ (fields line).head? ≠ some "id".toList

instance (line : Str) : Decidable (IsRow line) := inferInstanceAs (Decidable (_ ∧ _ ∧ _))

/-- The data lines of a file, in their order. -/
def rows (text : Str) : List Str := (text.splitOn '\n').filter (IsRow ·)

/-- A line describes a job: its first six fields represent the job's. -/
structure Says (line : Str) (job : InferenceJob) : Prop where
  id : FieldIs line 0 job.id
  id_lt : job.id < 2 ^ 64
  m : FieldIs line 1 job.m.toInt
  n : FieldIs line 2 job.n.toInt
  k : FieldIs line 3 job.k.toInt
  batch : FieldIs line 4 job.batch.toInt
  priority : FieldIs line 5 job.priority.toInt
  /-- The other fields of a job have their defaults. -/
  rest : job.submit_time = 0 ∧ job.seq = 0

/-- Fields 1 to 5 represent values of `int`. -/
def IntFields (line : Str) : Prop := ∀ i, 1 ≤ i → i ≤ 5 → ∃ v, FieldIs line i v ∧ -2 ^ 31 ≤ v ∧ v < 2 ^ 31

/-- A line has six fields, and each represents an integer in the range of its type. -/
structure Proper (line : Str) : Prop where
  length : 6 ≤ (fields line).length
  id : ∃ v, FieldIs line 0 v ∧ 0 ≤ v ∧ v < 2 ^ 64
  ints : IntFields line

/-- `parse_replay` reads a file exactly. -/
structure ReadsExactly (text : Str) : Prop where
  /-- Where it succeeds, the jobs are those that the data lines describe, one each, in order. -/
  jobs : ∀ jobs, parse_replay (some text) = .ok (true, jobs) → List.Forall₂ Says (rows text) jobs
  /-- A file with an improper data line is refused. -/
  refused : ∀ line ∈ rows text, ¬ Proper line → ∀ jobs, parse_replay (some text) ≠ .ok (true, jobs)

/-! ### Fields -/

/-- What `std::getline` finds is a field. -/
theorem fields_of_getlines {line field : Str} {i : ℕ} (h : (getlines ',' line)[i]? = some field) :
    (fields line)[i]? = some field := by
  have hi := (List.getElem?_eq_some_iff.mp h).1
  unfold fields
  rcases splitOn_eq_getlines ',' line with hs | hs
  · rw [hs, h]
  · rw [hs, List.getElem?_append_left hi, h]

/-- It finds every field that is not empty. -/
theorem getlines_of_fields {line field : Str} {i : ℕ} (h : (fields line)[i]? = some field) (hne : field ≠ []) :
    (getlines ',' line)[i]? = some field := by
  unfold fields at h
  rcases splitOn_eq_getlines ',' line with hs | hs
  · rwa [hs] at h
  · rw [hs, List.getElem?_append] at h
    split_ifs at h with hi
    · exact h
    · obtain ⟨hlt, he⟩ := List.getElem?_eq_some_iff.mp h
      exact absurd (by simpa using he.symm) hne

/-- A field represents at most one integer. -/
theorem FieldIs.unique {line : Str} {i : ℕ} {v w : ℤ} (h : FieldIs line i v) (h' : FieldIs line i w) : v = w := by
  obtain ⟨field, hf, hv⟩ := h
  obtain ⟨field', hf', hw⟩ := h'
  rw [hf] at hf'
  cases hf'
  exact hv.unique hw

/-- A field with an integer is found. -/
theorem FieldIs.getlines {line : Str} {i : ℕ} {v : ℤ} (h : FieldIs line i v) :
    ∃ field, (Library.getlines ',' line)[i]? = some field ∧ Represents field v := by
  obtain ⟨field, hf, hv⟩ := h
  exact ⟨field, getlines_of_fields hf hv.ne_nil, hv⟩

/-- The first field that is found is the first one. -/
theorem head_fields (line : Str) (hne : line ≠ []) : (fields line).head? = (getlines ',' line).head? := by
  have hpiece : getlines ',' line ≠ [] := by
    rw [getlines_eq]
    cases line with
    | nil => exact absurd rfl hne
    | cons c line => exact List.cons_ne_nil _ _
  unfold fields
  rcases splitOn_eq_getlines ',' line with hs | hs
  · rw [hs]
  · rw [hs, List.head?_append_of_ne_nil _ hpiece]

/-- The lines that are read are the data lines. -/
theorem isData_iff (line : Str) : isData line = true ↔ IsRow line := by
  unfold isData IsRow
  rw [decide_eq_true_eq]
  refine and_congr_right fun hne => and_congr_right fun _ => ?_
  rw [head_fields line hne]

/-- `std::getline` finds the data lines. -/
theorem rows_eq (text : Str) : rows text = (getlines '\n' text).filter isData := by
  have hfilter : ∀ lines : List Str, lines.filter (IsRow ·) = lines.filter isData := fun lines =>
    List.filter_congr fun line _ => by rw [Bool.eq_iff_iff, decide_eq_true_eq, isData_iff]
  unfold rows
  rcases splitOn_eq_getlines '\n' text with hs | hs
  · rw [hs, hfilter]
  · rw [hs, hfilter, List.filter_append]
    simp [isData]

/-! ### A line -/

/-- What the code takes for the job of a line. -/
structure ReadAs (line : Str) (job : InferenceJob) : Prop where
  id : ∃ v, FieldIs line 0 v ∧ v.natAbs < 2 ^ 64 ∧ job.id = (UInt64.ofInt v).toNat
  m : FieldIs line 1 job.m.toInt
  n : FieldIs line 2 job.n.toInt
  k : FieldIs line 3 job.k.toInt
  batch : FieldIs line 4 job.batch.toInt
  priority : FieldIs line 5 job.priority.toInt
  rest : job.submit_time = 0 ∧ job.seq = 0

/-- When six fields are read, and as what. -/
theorem parse_job_eq_ok_iff {id m n k batch priority : Str} {job : InferenceJob} :
    parse_job id m n k batch priority = .ok job ↔
      (∃ u, stoull id = .ok (u, id.length) ∧ job.id = u.toNat) ∧ stoi m = .ok (job.m, m.length) ∧
        stoi n = .ok (job.n, n.length) ∧ stoi k = .ok (job.k, k.length) ∧ stoi batch = .ok (job.batch, batch.length) ∧
        stoi priority = .ok (job.priority, priority.length) ∧ job.submit_time = 0 ∧ job.seq = 0 := by
  unfold parse_job parse_u64 parse_int
  simp only [bind_eq_ok_iff, parse_eq_ok_iff, pure, Except.pure, Except.ok.injEq]
  constructor
  · intro h
    obtain ⟨u, hid, _, hm, _, hn, _, hk, _, hbatch, _, hpriority, rfl⟩ := h
    exact ⟨⟨u, hid, rfl⟩, hm, hn, hk, hbatch, hpriority, rfl, rfl⟩
  · intro h
    obtain ⟨⟨u, hid, hu⟩, hm, hn, hk, hbatch, hpriority, hsubmit, hseq⟩ := h
    refine ⟨u, hid, _, hm, _, hn, _, hk, _, hbatch, _, hpriority, ?_⟩
    cases job
    simp_all

/-- **The jobs that the code takes for those of a line** are the ones that its integers give, the
first of them modulo `2^64`. -/
theorem denotes_iff {line : Str} {job : InferenceJob} : Denotes line job ↔ ReadAs line job := by
  constructor
  · intro h
    obtain ⟨id, m, n, k, batch, priority, rest, hline, hjob⟩ := h
    obtain ⟨⟨u, hid, hu⟩, hm, hn, hk, hbatch, hpriority, hrest⟩ := parse_job_eq_ok_iff.mp hjob
    obtain ⟨v, hv, hlt, rfl⟩ := stoull_eq_ok_iff.mp hid
    have hfield : ∀ {i : ℕ} {field : Str} {v : ℤ}, (getlines ',' line)[i]? = some field → Represents field v →
        FieldIs line i v := fun hf hv => ⟨_, fields_of_getlines hf, hv⟩
    rw [hline] at hfield
    constructor
    case id => exact ⟨v, hfield (i := 0) rfl hv, hlt, hu⟩
    case m => exact hfield (i := 1) rfl (stoi_eq_ok_iff.mp hm)
    case n => exact hfield (i := 2) rfl (stoi_eq_ok_iff.mp hn)
    case k => exact hfield (i := 3) rfl (stoi_eq_ok_iff.mp hk)
    case batch => exact hfield (i := 4) rfl (stoi_eq_ok_iff.mp hbatch)
    case priority => exact hfield (i := 5) rfl (stoi_eq_ok_iff.mp hpriority)
    case rest => exact hrest
  · intro h
    obtain ⟨v, hid, hlt, hu⟩ := h.id
    obtain ⟨id, h₀, hid⟩ := hid.getlines
    obtain ⟨m, h₁, hm⟩ := h.m.getlines
    obtain ⟨n, h₂, hn⟩ := h.n.getlines
    obtain ⟨k, h₃, hk⟩ := h.k.getlines
    obtain ⟨batch, h₄, hbatch⟩ := h.batch.getlines
    obtain ⟨priority, h₅, hpriority⟩ := h.priority.getlines
    have hcut : ∀ {i : ℕ} {field : Str}, (getlines ',' line)[i]? = some field →
        (getlines ',' line).drop i = field :: (getlines ',' line).drop (i + 1) := by
      intro i field hf
      obtain ⟨hi, rfl⟩ := List.getElem?_eq_some_iff.mp hf
      exact List.drop_eq_getElem_cons hi
    refine ⟨id, m, n, k, batch, priority, (getlines ',' line).drop 6, ?_, ?_⟩
    · rw [← List.drop_zero (l := getlines ',' line), hcut h₀, hcut h₁, hcut h₂, hcut h₃, hcut h₄, hcut h₅]
      rfl
    · exact parse_job_eq_ok_iff.mpr ⟨⟨_, stoull_eq_ok_iff.mpr ⟨v, hid, hlt, rfl⟩, hu⟩, stoi_eq_ok_iff.mpr hm,
        stoi_eq_ok_iff.mpr hn, stoi_eq_ok_iff.mpr hk, stoi_eq_ok_iff.mpr hbatch, stoi_eq_ok_iff.mpr hpriority, h.rest⟩

/-- A line that describes a job is read as that job. -/
theorem Says.readAs {line : Str} {job : InferenceJob} (h : Says line job) : ReadAs line job := by
  have hlt : (job.id : ℤ).natAbs < 2 ^ 64 := h.id_lt
  have hexact : ((UInt64.ofInt job.id).toNat : ℤ) = job.id := (toNat_ofInt_eq_iff hlt).mpr (Int.natCast_nonneg _)
  constructor
  case id => exact ⟨job.id, h.id, hlt, (Int.natCast_inj.mp hexact).symm⟩
  case m => exact h.m
  case n => exact h.n
  case k => exact h.k
  case batch => exact h.batch
  case priority => exact h.priority
  case rest => exact h.rest

/-- A line that is read as a job describes it, if its first field is not negative. -/
theorem says_of_readAs {line : Str} {job : InferenceJob} (h : ReadAs line job) (hid : ∀ v, FieldIs line 0 v → 0 ≤ v) :
    Says line job := by
  obtain ⟨v, hv, hlt, hu⟩ := h.id
  have hexact : (job.id : ℤ) = v := hu ▸ (toNat_ofInt_eq_iff hlt).mpr (hid v hv)
  constructor
  case id => exact hexact ▸ hv
  case id_lt => omega
  case m => exact h.m
  case n => exact h.n
  case k => exact h.k
  case batch => exact h.batch
  case priority => exact h.priority
  case rest => exact h.rest

/-- The fields of type `int`, as such. -/
theorem intFields_iff (line : Str) :
    IntFields line ↔ ∃ m n k batch priority : Int32, FieldIs line 1 m.toInt ∧ FieldIs line 2 n.toInt ∧
      FieldIs line 3 k.toInt ∧ FieldIs line 4 batch.toInt ∧ FieldIs line 5 priority.toInt := by
  constructor
  · intro h
    have hint : ∀ i, 1 ≤ i → i ≤ 5 → ∃ x : Int32, FieldIs line i x.toInt := by
      intro i h₁ h₅
      obtain ⟨w, hw, hge, hlt⟩ := h i h₁ h₅
      exact ⟨Int32.ofInt w, by rwa [Int32.toInt_ofInt_of_le hge hlt]⟩
    obtain ⟨m, hm⟩ := hint 1 (by omega) (by omega)
    obtain ⟨n, hn⟩ := hint 2 (by omega) (by omega)
    obtain ⟨k, hk⟩ := hint 3 (by omega) (by omega)
    obtain ⟨batch, hbatch⟩ := hint 4 (by omega) (by omega)
    obtain ⟨priority, hpriority⟩ := hint 5 (by omega) (by omega)
    exact ⟨m, n, k, batch, priority, hm, hn, hk, hbatch, hpriority⟩
  · intro h i h₁ h₅
    obtain ⟨m, n, k, batch, priority, hm, hn, hk, hbatch, hpriority⟩ := h
    obtain rfl | rfl | rfl | rfl | rfl : i = 1 ∨ i = 2 ∨ i = 3 ∨ i = 4 ∨ i = 5 := by omega
    · exact ⟨_, hm, m.le_toInt, m.toInt_lt⟩
    · exact ⟨_, hn, n.le_toInt, n.toInt_lt⟩
    · exact ⟨_, hk, k.le_toInt, k.toInt_lt⟩
    · exact ⟨_, hbatch, batch.le_toInt, batch.toInt_lt⟩
    · exact ⟨_, hpriority, priority.le_toInt, priority.toInt_lt⟩

/-- A line that describes a job is proper. -/
theorem Says.proper {line : Str} {job : InferenceJob} (h : Says line job) : Proper line := by
  constructor
  case length =>
    obtain ⟨field, hf, -⟩ := h.priority
    exact (List.getElem?_eq_some_iff.mp hf).1
  case id => exact ⟨job.id, h.id, Int.natCast_nonneg _, by exact_mod_cast h.id_lt⟩
  case ints => exact (intFields_iff line).mpr ⟨_, _, _, _, _, h.m, h.n, h.k, h.batch, h.priority⟩

/-- A line that would be proper, but for the sign of its first field. -/
structure Readable (line : Str) : Prop where
  id : ∃ v, FieldIs line 0 v ∧ v.natAbs < 2 ^ 64
  ints : IntFields line

/-- The code reads these lines. -/
theorem readable_iff (line : Str) : Readable line ↔ ∃ job, ReadAs line job := by
  constructor
  · intro h
    obtain ⟨v, hv, hlt⟩ := h.id
    obtain ⟨m, n, k, batch, priority, hm, hn, hk, hbatch, hpriority⟩ := (intFields_iff line).mp h.ints
    exact ⟨{ id := (UInt64.ofInt v).toNat, m, n, k, batch, priority },
      ⟨v, hv, hlt, rfl⟩, hm, hn, hk, hbatch, hpriority, rfl, rfl⟩
  · intro h
    obtain ⟨job, h⟩ := h
    obtain ⟨v, hv, hlt, -⟩ := h.id
    exact ⟨⟨v, hv, hlt⟩, (intFields_iff line).mpr ⟨_, _, _, _, _, h.m, h.n, h.k, h.batch, h.priority⟩⟩

/-! ### The loop -/

/-- A header in which fewer than six fields are found. -/
def ShortHeader (line : Str) : Prop := (getlines ',' line).head? = some "id".toList ∧ (getlines ',' line).length < 6

theorem exists_six {l : List Str} (h : 6 ≤ l.length) : ∃ a b c d e f rest, l = a :: b :: c :: d :: e :: f :: rest :=
  match l, h with
  | a :: b :: c :: d :: e :: f :: rest, _ => ⟨a, b, c, d, e, f, rest, rfl⟩

/-- A line that is passed over. -/
theorem parse_rows_cons_of_not_isData {line : Str} {lines : List Str} {out : List InferenceJob}
    (hdata : ¬ isData line = true) (hshort : ¬ ShortHeader line) :
    parse_rows (line :: lines) out = parse_rows lines out := by
  rw [parse_rows]
  split_ifs with hskip
  · rfl
  · rw [not_or] at hskip
    have hhead : (getlines ',' line).head? = some "id".toList := by simpa [isData, hskip] using hdata
    obtain ⟨id, m, n, k, batch, priority, rest, hline⟩ := exists_six (not_lt.mp fun hlt => hshort ⟨hhead, hlt⟩)
    rw [hline] at hhead ⊢
    exact if_pos (Option.some.inj hhead)

/-- A line that ends the reading. -/
theorem parse_rows_cons_of_shortHeader {line : Str} {lines : List Str} {out : List InferenceJob}
    (hshort : ShortHeader line) : parse_rows (line :: lines) out = .ok (false, out) := by
  obtain ⟨hhead, hlt⟩ := hshort
  have hskip : ¬ (line = [] ∨ line.head? = some '#') := by
    rw [getlines_eq] at hhead
    cases line with
    | nil => cases hhead
    | cons c line =>
      intro h
      obtain rfl : c = '#' := by simpa using h
      cases hhead
  rw [parse_rows, if_neg hskip]
  split
  · rename_i hline
    rw [hline] at hlt
    simp only [List.length_cons] at hlt
    omega
  · rfl

/-- A data line is read if it denotes a job. -/
theorem parse_rows_cons_of_isData {line : Str} {lines : List Str} {out jobs : List InferenceJob}
    (hdata : isData line = true) :
    parse_rows (line :: lines) out = .ok (true, jobs) ↔
      ∃ job, Denotes line job ∧ parse_rows lines (out ++ [job]) = .ok (true, jobs) := by
  obtain ⟨hne, hcomment, hhead⟩ := of_decide_eq_true hdata
  rw [parse_rows, if_neg (not_or.mpr ⟨hne, hcomment⟩)]
  unfold Denotes
  split
  · rename_i id m n k batch priority rest hline
    rw [hline, List.head?_cons] at hhead
    rw [if_neg fun hid => hhead (congrArg some hid)]
    cases hjob : parse_job id m n k batch priority with
    | error e => simp [hline, hjob]
    | ok job => simp [hline, hjob]
  · rename_i hline
    constructor
    · intro h
      cases h
    · intro h
      obtain ⟨job, ⟨id, m, n, k, batch, priority, rest, he, -⟩, -⟩ := h
      exact (hline id m n k batch priority rest he).elim

/-- **What the loop reads**: the data lines, if each denotes a job and no header is short. -/
theorem parse_rows_eq_ok_iff {lines : List Str} {out jobs : List InferenceJob} :
    parse_rows lines out = .ok (true, jobs) ↔
      (∀ line ∈ lines, ¬ ShortHeader line) ∧
        ∃ new, jobs = out ++ new ∧ jobs ≠ [] ∧ List.Forall₂ Denotes (lines.filter isData) new := by
  induction lines generalizing out with
  | nil =>
    simp only [parse_rows, List.filter_nil, List.forall₂_nil_left_iff, Except.ok.injEq, Prod.mk.injEq]
    constructor
    · intro h
      obtain ⟨hne, rfl⟩ := h
      exact ⟨by simp, [], by simp, by simpa using hne, rfl⟩
    · intro h
      obtain ⟨-, _, rfl, hne, rfl⟩ := h
      rw [List.append_nil] at hne ⊢
      simpa using hne
  | cons line lines ih =>
    rw [List.forall_mem_cons]
    by_cases hshort : ShortHeader line
    · rw [parse_rows_cons_of_shortHeader hshort]
      simp [hshort]
    · rw [and_iff_right hshort]
      by_cases hdata : isData line = true
      · rw [parse_rows_cons_of_isData hdata, List.filter_cons_of_pos hdata]
        simp only [ih, List.forall₂_cons_left_iff]
        constructor
        · intro h
          obtain ⟨job, hjob, hlines, new, rfl, hne, hnew⟩ := h
          exact ⟨hlines, job :: new, by simp, hne, job, new, hjob, hnew, rfl⟩
        · intro h
          obtain ⟨hlines, _, rfl, hne, job, new, hjob, hnew, rfl⟩ := h
          exact ⟨job, hjob, hlines, new, by simp, hne, hnew⟩
      · rw [parse_rows_cons_of_not_isData hdata hshort, ih, List.filter_cons_of_neg hdata]

/-- A relation to the members of some list is one that each element has to something. -/
theorem exists_forall₂_iff {α β : Type} {R : α → β → Prop} (l : List α) :
    (∃ u, List.Forall₂ R l u) ↔ ∀ a ∈ l, ∃ b, R a b := by
  induction l with
  | nil => simp
  | cons a l ih =>
    rw [List.forall_mem_cons, ← ih]
    simp only [List.forall₂_cons_left_iff]
    constructor
    · intro h
      obtain ⟨_, b, u, hb, hu, -⟩ := h
      exact ⟨⟨b, hb⟩, u, hu⟩
    · intro h
      obtain ⟨⟨b, hb⟩, u, hu⟩ := h
      exact ⟨b :: u, b, u, hb, hu, rfl⟩

/-! ### Reading exactly -/

/-- **When a file is read**, and what is read of it. -/
theorem parse_replay_eq_ok_iff {text : Str} {jobs : List InferenceJob} :
    parse_replay (some text) = .ok (true, jobs) ↔
      (∀ line ∈ getlines '\n' text, ¬ ShortHeader line) ∧ jobs ≠ [] ∧ List.Forall₂ ReadAs (rows text) jobs := by
  have hdenotes : Denotes = ReadAs := funext₂ fun _ _ => propext denotes_iff
  rw [parse_replay, parse_rows_eq_ok_iff, rows_eq, ← hdenotes]
  simp

/-- The first field of a line is a negative integer. -/
def NegativeId (line : Str) : Prop := ∃ v, FieldIs line 0 v ∧ v < 0

/-- A line that is read describes what it is read as, unless its first field is negative. -/
theorem says_of_not_negativeId {text : Str} {jobs : List InferenceJob}
    (h : List.Forall₂ ReadAs (rows text) jobs) (hpos : ∀ line ∈ rows text, ¬ NegativeId line) :
    List.Forall₂ Says (rows text) jobs := by
  refine ((List.forall₂_and_left _ _).mpr ⟨hpos, h⟩).imp ?_
  intro line job h
  exact says_of_readAs h.2 fun v hv => not_lt.mp fun hlt => h.1 ⟨v, hv, hlt⟩

/-- **`parse_replay` reads a file exactly** unless a data line of it has a negative first field, every
data line can be read, and so can every header. -/
theorem reads_exactly_iff (text : Str) :
    ReadsExactly text ↔
      (∀ line ∈ rows text, ¬ NegativeId line) ∨ (∃ line ∈ rows text, ¬ Readable line) ∨
        ∃ line ∈ getlines '\n' text, ShortHeader line := by
  constructor
  · intro h
    by_contra hnot
    push Not at hnot
    obtain ⟨⟨line, hline, v, hv, hneg⟩, hread, hshort⟩ := hnot
    -- all lines are read, and the one with the negative field among them
    obtain ⟨jobs, hjobs⟩ := (exists_forall₂_iff (R := ReadAs) (rows text)).mpr fun line hline =>
      (readable_iff line).mp (hread line hline)
    have hne : jobs ≠ [] := by
      intro he
      simp [he, List.forall₂_nil_right_iff] at hjobs
      simp [hjobs] at hline
    have hsays := h.jobs jobs (parse_replay_eq_ok_iff.mpr ⟨hshort, hne, hjobs⟩)
    obtain ⟨job, hjob⟩ := (exists_forall₂_iff (R := Says) (rows text)).mp ⟨jobs, hsays⟩ line hline
    have := hjob.id.unique hv
    omega
  · intro h
    have hsays : ∀ jobs, parse_replay (some text) = .ok (true, jobs) → List.Forall₂ Says (rows text) jobs := by
      intro jobs hok
      obtain ⟨hshort, -, hjobs⟩ := parse_replay_eq_ok_iff.mp hok
      rcases h with hpos | ⟨line, hline, hread⟩ | ⟨line, hline, hhead⟩
      · exact says_of_not_negativeId hjobs hpos
      · exact absurd ((readable_iff line).mpr ((exists_forall₂_iff _).mp ⟨jobs, hjobs⟩ line hline)) hread
      · exact absurd hhead (hshort line hline)
    constructor
    case jobs => exact hsays
    case refused =>
      intro line hline himproper jobs hok
      obtain ⟨job, hjob⟩ := (exists_forall₂_iff _).mp ⟨jobs, hsays jobs hok⟩ line hline
      exact himproper hjob.proper

/-- The line `-1,1,1,1,1,0` is read as a job with the number `2^64 - 1`. -/
theorem negative_id_accepted :
    parse_replay (some "-1,1,1,1,1,0".toList) =
        .ok (true, [{ id := 18446744073709551615, m := 1, n := 1, k := 1, batch := 1, priority := 0 }]) ∧
      ¬ ReadsExactly "-1,1,1,1,1,0".toList := by
  have hread : parse_replay (some "-1,1,1,1,1,0".toList) =
      .ok (true, [{ id := 18446744073709551615, m := 1, n := 1, k := 1, batch := 1, priority := 0 }]) := by decide
  refine ⟨hread, fun h => ?_⟩
  have hrow : "-1,1,1,1,1,0".toList ∈ rows "-1,1,1,1,1,0".toList := by
    rw [rows_eq]
    decide
  obtain ⟨job, hjob⟩ := (exists_forall₂_iff (R := Says) _).mp ⟨_, h.jobs _ hread⟩ _ hrow
  have hid : FieldIs "-1,1,1,1,1,0".toList 0 (-ofDigits "1".toList) :=
    ⟨"-1".toList, fields_of_getlines (by decide), .minus (by decide) (List.all_eq_true.mp rfl)⟩
  have heq : (job.id : ℤ) = -ofDigits "1".toList := hjob.id.unique hid
  rw [show ofDigits "1".toList = 1 from rfl] at heq
  omega

end Gbis.Daemon
