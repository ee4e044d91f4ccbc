import Gbis.Bench.Overlap
import Gbis.Library.Schedule

/-!
# What the benchmark computes

All four runs of the overlap benchmark compute the same products, whatever the order in which
the device works and wherever the host is meanwhile, and time is measured only between events
that have happened (`run_shape_computes`).

The schedules of the three runs with pinned memory have one form (`Config`): a block of
operations for each job, each awaiting the one before, between the records of `start` and `stop`.
Blocks of different jobs use different buffers, so the schedule is race-free
(`Config.raceFree`), and what it computes is what it computes as a sequential program.

The runs with one and with two streams do not overlap anything: every operation awaits the one
issued before it (`serialized_single`, `serialized_overlap`). With three streams the inputs of
a job and the kernel of the job before it do not await each other (`overlaps_double_buffer`).
-/

namespace Gbis.Bench

open Library Relation

variable {V : Type} {gemm : V → V → V} {fl : ℚ → ℚ} {opt : Options}

/-! ### What work touches -/

/-- The job of a piece of work. -/
def Work.job : Work → ℕ
  | .copy _ _ i => i
  | .gemm i => i

/-- The buffers that it reads. -/
def Work.reads : Work → Buf × ℕ → Prop
  | .copy _ src i, x => x = (src, i)
  | .gemm i, x => x = (.dev_a, i) ∨ x = (.dev_b, i)

/-- The buffer that it writes. -/
def Work.writes : Work → Buf × ℕ → Prop
  | .copy dst _ i, x => x = (dst, i)
  | .gemm i, x => x = (.dev_c, i)

/-- What the work touches. -/
def footprints (gemm : V → V → V) : Footprints (Work.run gemm) where
  reads  := Work.reads
  writes := Work.writes
  frame w m x hx := by
    cases w <;> exact Function.update_of_ne hx _ _
  depends w m m' hm x hx := by
    cases w with
    | copy dst src i =>
      obtain rfl : x = (dst, i) := hx
      simp [Work.run, hm (src, i) rfl]
    | gemm i =>
      obtain rfl : x = (.dev_c, i) := hx
      simp [Work.run, hm (.dev_a, i) (.inl rfl), hm (.dev_b, i) (.inr rfl)]

theorem Work.job_of_touches {w : Work} {x : Buf × ℕ} (h : w.reads x ∨ w.writes x) : x.2 = w.job := by
  cases w with
  | copy dst src i => rcases h with rfl | rfl <;> rfl
  | gemm i => rcases h with (rfl | rfl) | rfl <;> rfl

/-- Work that conflicts is for one job. -/
theorem job_eq_of_conflict {w w' : Work} (h : (footprints gemm).Conflict w w') : w.job = w'.job := by
  obtain ⟨x, ⟨hw, hrw⟩ | ⟨hr, hw⟩⟩ := h
  · rw [← Work.job_of_touches (.inr hw), ← Work.job_of_touches hrw]
  · rw [← Work.job_of_touches (.inl hr), ← Work.job_of_touches (.inr hw)]

/-! ### Configurations -/

/-- What a run with pinned memory enqueues for each job, and the streams of its first and its last operation. -/
structure Config where
  first : Stream
  last : Stream
  block : ℕ → List Op

/-- The host's buffers, pageable or pinned. -/
inductive Kind where
  | page
  | pin

/-- The buffers of each kind. -/
def Kind.a : Kind → Buf
  | .page => .page_a
  | .pin => .pin_a

@[inherit_doc Kind.a]
def Kind.b : Kind → Buf
  | .page => .page_b
  | .pin => .pin_b

@[inherit_doc Kind.a]
def Kind.c : Kind → Buf
  | .page => .page_c
  | .pin => .pin_c

/-- What job `i` leaves in its buffers. -/
def product (κ : Kind) (gemm : V → V → V) (i : ℕ) (m : Memory V) : Memory V := fun x =>
  if x.2 ≠ i then m x
  else if x.1 = .dev_a then m (κ.a, i)
  else if x.1 = .dev_b then m (κ.b, i)
  else if x.1 = .dev_c ∨ x.1 = κ.c then gemm (m (κ.a, i)) (m (κ.b, i))
  else m x

/-- The events between which the time of job `i` is measured. -/
def measured (i : ℕ) : List Event := [.c0 i, .c1 i, .k0 i, .k1 i, .d0 i, .d1 i]

/-- A block has `c` operations, each awaiting the one before, from the first stream to the last; they are for
one job, compute its product, and record its events. -/
structure Config.Pipelined (cfg : Config) (gemm : V → V → V) (c : ℕ) : Prop where
  pos : 0 < c
  length : ∀ i, (cfg.block i).length = c
  linked : ∀ i, (cfg.block i).IsChain Linked
  head : ∀ i x, (cfg.block i)[0]? = some x → x.stream = cfg.first
  final : ∀ i x, (cfg.block i)[c - 1]? = some x → x.stream = cfg.last
  job : ∀ i s w, ⟨s, .work w⟩ ∈ cfg.block i → w.job = i
  product : ∀ i m, sequential (Work.run gemm) (cfg.block i) m = product .pin gemm i m
  records : ∀ i, ∀ e ∈ measured i, ∃ s, ⟨s, .record e⟩ ∈ cfg.block i

/-- The configuration of `run_pinned_single`. -/
def single : Config := ⟨.default, .default, single_job⟩

/-- That of `run_pinned_overlap`. -/
def overlap : Config := ⟨.copy, .copy, overlap_job⟩

/-- That of `run_pinned_double_buffer`. -/
def double_buffer : Config := ⟨.h2d, .d2h, fun i => h2d_job i ++ compute_job i⟩

theorem single_pipelined (gemm : V → V → V) : single.Pipelined gemm 10 where
  pos := by decide
  length _ := rfl
  linked _ := by
    repeat' first | exact .stream rfl | constructor
  head _ _ := by
    rintro ⟨⟩
    rfl
  final _ _ := by
    rintro ⟨⟩
    rfl
  job i s w hw := by
    simp only [single, single_job, List.mem_cons, Issued.mk.injEq, StreamOp.work.injEq, reduceCtorEq, and_false,
      false_or, or_false, List.not_mem_nil] at hw
    obtain ⟨-, rfl⟩ | ⟨-, rfl⟩ | ⟨-, rfl⟩ | ⟨-, rfl⟩ := hw <;> rfl
  product i m := by
    funext ⟨b, j⟩
    cases b <;>
      simp [single, single_job, sequential, Device.effect, Work.run, product, Kind.a, Kind.b, Kind.c,
        Function.update_apply]
  records i := by simp [measured, single, single_job]

theorem overlap_pipelined (gemm : V → V → V) : overlap.Pipelined gemm 14 where
  pos := by decide
  length _ := rfl
  linked _ := by
    repeat' first | exact .stream rfl | exact .event | constructor
  head _ _ := by
    rintro ⟨⟩
    rfl
  final _ _ := by
    rintro ⟨⟩
    rfl
  job i s w hw := by
    simp only [overlap, overlap_job, List.mem_cons, Issued.mk.injEq, StreamOp.work.injEq, reduceCtorEq, and_false,
      false_or, or_false, List.not_mem_nil] at hw
    obtain ⟨-, rfl⟩ | ⟨-, rfl⟩ | ⟨-, rfl⟩ | ⟨-, rfl⟩ := hw <;> rfl
  product i m := by
    funext ⟨b, j⟩
    cases b <;>
      simp [overlap, overlap_job, sequential, Device.effect, Work.run, product, Kind.a, Kind.b, Kind.c,
        Function.update_apply]
  records i := by simp [measured, overlap, overlap_job]

theorem double_buffer_pipelined (gemm : V → V → V) : double_buffer.Pipelined gemm 12 where
  pos := by decide
  length _ := rfl
  linked _ := by
    repeat' first | exact .stream rfl | exact .event | constructor
  head _ _ := by
    rintro ⟨⟩
    rfl
  final _ _ := by
    rintro ⟨⟩
    rfl
  job i s w hw := by
    simp only [double_buffer, h2d_job, compute_job, List.cons_append, List.nil_append, List.mem_cons, Issued.mk.injEq,
      StreamOp.work.injEq, reduceCtorEq, and_false, false_or, or_false, List.not_mem_nil] at hw
    obtain ⟨-, rfl⟩ | ⟨-, rfl⟩ | ⟨-, rfl⟩ | ⟨-, rfl⟩ := hw <;> rfl
  product i m := by
    funext ⟨b, j⟩
    cases b <;>
      simp [double_buffer, h2d_job, compute_job, sequential, Device.effect, Work.run, product, Kind.a, Kind.b, Kind.c,
        Function.update_apply]
  records i := by simp [measured, double_buffer, h2d_job, compute_job]

namespace Config

variable {cfg : Config} {c n i r : ℕ} {before : List Op}

/-- What is issued in one repetition with `n` jobs. -/
def schedule (cfg : Config) (n : ℕ) : List Op :=
  ⟨cfg.first, .record .start⟩ :: (List.range n).flatMap cfg.block ++ [⟨cfg.last, .record .stop⟩]

/-- All of it, after what was issued before. -/
abbrev issued (cfg : Config) (n : ℕ) (before : List Op) : List Op := before ++ cfg.schedule n

/-- The position of place `r` of block `i`. -/
def position (before : List Op) (c i r : ℕ) : ℕ := before.length + (1 + (c * i + r))

theorem Pipelined.length_issued (h : cfg.Pipelined gemm c) :
    (cfg.issued n before).length = before.length + (1 + c * n) + 1 := by
  simp only [issued, schedule, List.length_append, List.length_cons, List.length_nil, length_blocks h.length]
  omega

theorem Pipelined.getElem?_issued (h : cfg.Pipelined gemm c) (hi : i < n) (hr : r < c) :
    (cfg.issued n before)[position before c i r]? = (cfg.block i)[r]? := by
  have hlt : c * i + r < ((List.range n).flatMap cfg.block).length := by
    rw [length_blocks h.length]
    exact place_lt hi hr
  rw [issued, position, List.getElem?_append_right (Nat.le_add_right _ _), Nat.add_sub_cancel_left, schedule,
    List.cons_append, Nat.add_comm 1, List.getElem?_cons_succ, List.getElem?_append_left hlt,
    getElem?_blocks h.length hi hr]

theorem getElem?_start : (cfg.issued n before)[before.length]? = some ⟨cfg.first, .record .start⟩ := by
  simp [issued, schedule]

theorem Pipelined.getElem?_stop (h : cfg.Pipelined gemm c) :
    (cfg.issued n before)[before.length + (1 + c * n)]? = some ⟨cfg.last, .record .stop⟩ := by
  rw [issued, List.getElem?_append_right (Nat.le_add_right _ _), Nat.add_sub_cancel_left, schedule, List.cons_append,
    Nat.add_comm 1, List.getElem?_cons_succ, ← length_blocks h.length (n := n)]
  simp

/-- Every operation of the repetition is the record of `start`, the record of `stop`, or in a block. -/
theorem Pipelined.cases (h : cfg.Pipelined gemm c) {k : ℕ} {x : Op} (hk : before.length ≤ k)
    (hx : (cfg.issued n before)[k]? = some x) :
    k = before.length ∨ k = before.length + (1 + c * n) ∨
      ∃ i r, i < n ∧ r < c ∧ k = position before c i r ∧ (cfg.block i)[r]? = some x := by
  have hlt : k < before.length + (1 + c * n) + 1 := by
    rw [← h.length_issued]
    exact (List.getElem?_eq_some_iff.mp hx).1
  rcases Nat.lt_or_ge before.length k with hlo | hlo
  · rcases Nat.lt_or_ge k (before.length + (1 + c * n)) with hhi | hhi
    · right; right
      obtain ⟨p, rfl⟩ : ∃ p, k = before.length + (1 + p) := ⟨k - before.length - 1, by omega⟩
      have hp : p < ((List.range n).flatMap cfg.block).length := by
        rw [length_blocks h.length]
        omega
      rw [issued, List.getElem?_append_right (Nat.le_add_right _ _), Nat.add_sub_cancel_left, schedule,
        List.cons_append, Nat.add_comm 1, List.getElem?_cons_succ, List.getElem?_append_left hp] at hx
      obtain ⟨i, r, hi, hr, rfl, hget⟩ := exists_of_getElem?_blocks h.length hx
      exact ⟨i, r, hi, hr, rfl, hget⟩
    · exact .inr (.inl (by omega))
  · exact .inl (by omega)

/-- Within a block, each operation awaits the one before. -/
theorem Pipelined.awaits_next (h : cfg.Pipelined gemm c) (hi : i < n) (hr : r + 1 < c) :
    Awaits (cfg.issued n before) (position before c i r + 1) (position before c i r) := by
  have hlen := h.length i
  have hlinked := List.isChain_iff_getElem.mp (h.linked i) r (by omega)
  refine awaits_of_linked hlinked ?_ ?_
  · rw [h.getElem?_issued hi (by omega)]
    exact List.getElem?_eq_getElem (by omega)
  · have : position before c i r + 1 = position before c i (r + 1) := by
      unfold position
      omega
    rw [this, h.getElem?_issued hi hr]
    exact List.getElem?_eq_getElem (by omega)

/-- So a later one awaits an earlier one. -/
theorem Pipelined.awaits_block (h : cfg.Pipelined gemm c) (hi : i < n) {q : ℕ} (hrq : r < q) (hq : q < c) :
    TransGen (Awaits (cfg.issued n before)) (position before c i q) (position before c i r) := by
  refine awaits_of_chain (fun k hk hlt => ?_) (by unfold position; omega)
  have hsub : k = position before c i (k - position before c i 0) := by
    unfold position at hk ⊢
    omega
  unfold position at hk hlt
  rw [hsub]
  exact h.awaits_next hi (by unfold position; omega)

/-- Work is in the block of its job. -/
theorem Pipelined.position_of_work (h : cfg.Pipelined gemm c) {k : ℕ} {s : Stream} {w : Work} (hk : before.length ≤ k)
    (hx : (cfg.issued n before)[k]? = some ⟨s, .work w⟩) :
    w.job < n ∧ ∃ r, r < c ∧ k = position before c w.job r := by
  rcases h.cases hk hx with rfl | rfl | ⟨i, r, hi, hr, rfl, hget⟩
  · rw [getElem?_start] at hx
    cases hx
  · rw [h.getElem?_stop] at hx
    cases hx
  · obtain rfl := h.job i s w (List.mem_of_getElem? hget)
    exact ⟨hi, r, hr, rfl⟩

/-- **The schedule is race-free**: what conflicts is in one block. -/
theorem Pipelined.raceFree (h : cfg.Pipelined gemm c) :
    RaceFree (footprints gemm) before.length (cfg.issued n before) := by
  intro k k' x y hk hlt hx hy hc
  obtain ⟨s, p⟩ := x
  obtain ⟨s', p'⟩ := y
  -- neither is a record
  obtain ⟨w, rfl⟩ : ∃ w, p = .work w := by cases p with
    | work w => exact ⟨w, rfl⟩
    | _ => cases p' <;> exact hc.elim
  obtain ⟨w', rfl⟩ : ∃ w, p' = .work w := by cases p' with
    | work w => exact ⟨w, rfl⟩
    | _ => exact hc.elim
  obtain ⟨hi, r, hr, rfl⟩ := h.position_of_work hk hx
  obtain ⟨-, r', hr', rfl⟩ := h.position_of_work (by omega) hy
  rw [← job_eq_of_conflict hc] at hlt ⊢
  exact h.awaits_block hi (by unfold position at hlt; omega) hr'

/-- What comes last in a block is on the stream on which `stop` is recorded. -/
theorem Pipelined.awaits_final (h : cfg.Pipelined gemm c) (hi : i < n) :
    Awaits (cfg.issued n before) (before.length + (1 + c * n)) (position before c i (c - 1)) := by
  have hpos := h.pos
  have hlen := h.length i
  obtain ⟨x, hx⟩ : ∃ x, (cfg.block i)[c - 1]? = some x := ⟨_, List.getElem?_eq_getElem (by omega)⟩
  obtain ⟨s, op⟩ := x
  obtain rfl : s = cfg.last := h.final i _ hx
  have hget : (cfg.issued n before)[position before c i (c - 1)]? = _ := (h.getElem?_issued hi (by omega)).trans hx
  have hlt : c * i + (c - 1) < c * n := place_lt hi (by omega)
  exact .stream (by unfold position; omega) hget h.getElem?_stop

/-- What comes first is on the stream on which `start` is. -/
theorem Pipelined.awaits_start (h : cfg.Pipelined gemm c) (hi : i < n) :
    Awaits (cfg.issued n before) (position before c i 0) before.length := by
  have hpos := h.pos
  have hlen := h.length i
  obtain ⟨x, hx⟩ : ∃ x, (cfg.block i)[0]? = some x := ⟨_, List.getElem?_eq_getElem (by omega)⟩
  obtain ⟨s, op⟩ := x
  obtain rfl : s = cfg.first := h.head i _ hx
  have hget : (cfg.issued n before)[position before c i 0]? = _ := (h.getElem?_issued hi h.pos).trans hx
  exact .stream (by unfold position; omega) getElem?_start hget

/-- The record of `stop` awaits everything in the repetition. -/
theorem Pipelined.awaits_all (h : cfg.Pipelined gemm c) (hn : 0 < n) {k : ℕ} (hk : before.length ≤ k)
    (hlt : k < before.length + (1 + c * n)) :
    TransGen (Awaits (cfg.issued n before)) (before.length + (1 + c * n)) k := by
  have hpos := h.pos
  have hblock : ∀ i r, i < n → r < c →
      TransGen (Awaits (cfg.issued n before)) (before.length + (1 + c * n)) (position before c i r) := by
    intro i r hi hr
    rcases Nat.lt_or_ge r (c - 1) with hlt | hge
    · exact .head (h.awaits_final hi) (h.awaits_block hi hlt (by omega))
    · obtain rfl : r = c - 1 := by omega
      exact .single (h.awaits_final hi)
  have hget := List.getElem?_eq_getElem (l := cfg.issued n before) (i := k) (by rw [h.length_issued]; omega)
  rcases h.cases hk hget with rfl | rfl | ⟨i, r, hi, hr, rfl, -⟩
  · exact (hblock 0 0 hn h.pos).tail (h.awaits_start hn)
  · omega
  · exact hblock i r hi hr

/-- When `stop` has happened, everything has finished. -/
theorem Pipelined.idle (h : cfg.Pipelined gemm c) (hn : 0 < n) {d : Dev V} (hd : d.WellFormed)
    (hissued : d.issued = cfg.issued n before) (hbefore : ∀ i < before.length, i ∈ d.finished)
    (hsync : d.Synced .stop) : d.Idle := by
  have hstop : before.length + (1 + c * n) ∈ d.finished := by
    refine hsync _ ⟨?_, ⟨cfg.last, ?_⟩, fun k hlo hhi => ?_⟩
    · rw [hissued, h.length_issued]
      omega
    · rw [hissued]
      exact h.getElem?_stop
    · rw [hissued, h.length_issued] at hhi
      omega
  intro k hk
  rw [hissued, h.length_issued] at hk
  rcases Nat.lt_or_ge k before.length with hlt | hge
  · exact hbefore k hlt
  rcases Nat.lt_or_ge k (before.length + (1 + c * n)) with hlt | hlast
  · exact hd.closed_transGen hstop (hissued ▸ h.awaits_all hn hge hlt)
  · obtain rfl : k = before.length + (1 + c * n) := by omega
    exact hstop

end Config

/-- What `n` jobs leave in their buffers. -/
def products (κ : Kind) (gemm : V → V → V) (n : ℕ) (m : Memory V) : Memory V := fun x =>
  if x.2 < n then product κ gemm x.2 m x else m x

theorem product_products (κ : Kind) (n : ℕ) (m : Memory V) :
    product κ gemm n (products κ gemm n m) = products κ gemm (n + 1) m := by
  funext ⟨b, j⟩
  rcases Nat.lt_trichotomy j n with hlt | rfl | hgt
  · simp [products, product, hlt, hlt.ne, Nat.lt_succ_of_lt hlt]
  · simp [products, product]
  · simp [products, product, hgt.ne', hgt.not_gt, Nat.not_lt.mpr (Nat.succ_le_of_lt hgt)]

theorem products_products (κ : Kind) (n : ℕ) (m : Memory V) :
    products κ gemm n (products κ gemm n m) = products κ gemm n m := by
  funext ⟨b, j⟩
  by_cases hj : j < n
  · cases κ <;> cases b <;> simp [products, product, Kind.a, Kind.b, Kind.c, hj]
  · simp [products, hj]

/-- Blocks that compute the products of their jobs compute all the products. -/
theorem sequential_blocks {κ : Kind} {block : ℕ → List Op}
    (h : ∀ i m, sequential (Work.run gemm) (block i) m = product κ gemm i m) (n : ℕ) (m : Memory V) :
    sequential (Work.run gemm) ((List.range n).flatMap block) m = products κ gemm n m := by
  induction n with
  | zero =>
    funext x
    simp [sequential, products]
  | succ n ih =>
    have hproduct := h n (products κ gemm n m)
    unfold sequential at ih hproduct ⊢
    rw [List.range_succ, List.flatMap_append, List.foldl_append, ih, List.flatMap_singleton, hproduct, product_products]

theorem Config.Pipelined.sequential_schedule {cfg : Config} {c : ℕ} (h : cfg.Pipelined gemm c) (n : ℕ) (m : Memory V) :
    sequential (Work.run gemm) (cfg.schedule n) m = products .pin gemm n m := by
  have hblocks := sequential_blocks h.product n m
  unfold sequential at hblocks ⊢
  rw [Config.schedule, List.foldl_append, List.foldl_cons]
  exact hblocks

/-! ### What can overlap -/

/-- Neither of two operations awaits the other, not even through others. -/
def Unordered (ops : List Op) (j k : ℕ) : Prop := ¬ TransGen (Awaits ops) j k ∧ ¬ TransGen (Awaits ops) k j

/-- From `base` on, every operation awaits every one issued before it. -/
def Serialized (base : ℕ) (ops : List Op) : Prop :=
  ∀ j k, base ≤ j → j < k → k < ops.length → TransGen (Awaits ops) k j

namespace Config.Pipelined

variable {cfg : Config} {c n : ℕ} {before : List Op}

/-- Between two blocks, before the first and after the last, there are operations of the first and the
last stream on both sides. -/
theorem boundary (h : cfg.Pipelined gemm c) {q : ℕ} (hq : q ≤ n) :
    (∃ op, (cfg.issued n before)[before.length + c * q]? = some ⟨if q = 0 then cfg.first else cfg.last, op⟩) ∧
      ∃ op, (cfg.issued n before)[before.length + (1 + c * q)]? = some ⟨if q = n then cfg.last else cfg.first, op⟩ := by
  have hpos := h.pos
  constructor
  · cases q with
    | zero => exact ⟨_, getElem?_start⟩
    | succ q =>
      have hlen := h.length q
      obtain ⟨⟨s, op⟩, hx⟩ : ∃ x, (cfg.block q)[c - 1]? = some x := ⟨_, List.getElem?_eq_getElem (by omega)⟩
      obtain rfl : s = cfg.last := h.final q _ hx
      have hp : position before c q (c - 1) = before.length + c * (q + 1) := by
        rw [position, Nat.mul_succ]
        omega
      exact ⟨op, by simpa [← hp] using (h.getElem?_issued (by omega) (by omega)).trans hx⟩
  · rcases hq.lt_or_eq with hlt | rfl
    · have hlen := h.length q
      obtain ⟨⟨s, op⟩, hx⟩ : ∃ x, (cfg.block q)[0]? = some x := ⟨_, List.getElem?_eq_getElem (by omega)⟩
      obtain rfl : s = cfg.first := h.head q _ hx
      have hget : (cfg.issued n before)[position before c q 0]? = _ := (h.getElem?_issued hlt hpos).trans hx
      exact ⟨op, by simpa [position, hlt.ne] using hget⟩
    · exact ⟨_, by simpa using h.getElem?_stop⟩

/-- Where the first and the last stream are one, nothing overlaps. -/
theorem serialized (h : cfg.Pipelined gemm c) (hs : cfg.first = cfg.last) :
    Serialized before.length (cfg.issued n before) := by
  have hboundary : ∀ q ≤ n, Awaits (cfg.issued n before) (before.length + c * q + 1) (before.length + c * q) := by
    intro q hq
    obtain ⟨⟨op, hop⟩, ⟨op', hop'⟩⟩ := @boundary V gemm cfg c n before h q hq
    simp only [hs, ite_self] at hop hop'
    exact .stream (by omega) hop (by rwa [Nat.add_assoc, Nat.add_comm (c * q)])
  intro j k hj hjk hk
  refine awaits_of_chain (fun m hm hlt => ?_) hjk
  have hget := List.getElem?_eq_getElem (l := cfg.issued n before) (i := m + 1) (by omega)
  rcases h.cases (by omega) hget with hstart | hstop | ⟨i, r, hi, hr, hp, -⟩
  · omega
  · obtain rfl : m = before.length + c * n := by omega
    exact hboundary n le_rfl
  · unfold position at hp
    cases r with
    | zero =>
      obtain rfl : m = before.length + c * i := by omega
      exact hboundary i hi.le
    | succ r =>
      obtain rfl : m = position before c i r := by
        unfold position
        omega
      exact h.awaits_next hi hr

end Config.Pipelined

/-- Nothing on the first of the three streams waits for an event. -/
theorem not_wait_h2d {n k : ℕ} {before : List Op} {e : Event} (hk : before.length ≤ k) :
    (double_buffer.issued n before)[k]? ≠ some ⟨.h2d, .wait e⟩ := by
  intro hx
  have h := double_buffer_pipelined (V := Unit) fun _ _ => ()
  rcases h.cases hk hx with rfl | rfl | ⟨i, r, hi, hr, rfl, hget⟩
  · rw [Config.getElem?_start] at hx
    cases hx
  · rw [h.getElem?_stop] at hx
    cases hx
  · simpa [double_buffer, h2d_job, compute_job] using List.mem_of_getElem? hget

/-- What is on it awaits only what is on it, or was issued in earlier repetitions. -/
theorem h2d_awaits {n k j : ℕ} {before : List Op} (hk : before.length ≤ k)
    (hs : ∃ op, (double_buffer.issued n before)[k]? = some ⟨.h2d, op⟩)
    (h : TransGen (Awaits (double_buffer.issued n before)) k j) :
    j < before.length ∨ ∃ op, (double_buffer.issued n before)[j]? = some ⟨.h2d, op⟩ := by
  have hstep : ∀ k j, before.length ≤ k → (∃ op, (double_buffer.issued n before)[k]? = some ⟨.h2d, op⟩) →
      Awaits (double_buffer.issued n before) k j → ∃ op, (double_buffer.issued n before)[j]? = some ⟨.h2d, op⟩ := by
    rintro k j hk ⟨op, hop⟩ (⟨-, hj, hi⟩ | ⟨hw, -⟩)
    · rw [hop] at hi
      cases hi
      exact ⟨_, hj⟩
    · rw [hop] at hw
      cases hw
      exact absurd hop (not_wait_h2d hk)
  induction h with
  | single h => exact .inr (hstep _ _ hk hs h)
  | @tail m j _ h ih =>
    rcases Nat.lt_or_ge m before.length with hlt | hge
    · exact .inl (h.lt.trans hlt)
    · exact .inr (hstep _ _ hge (ih.resolve_left (by omega)) h)

/-- The copy of an input and the kernel of the job before are unordered. -/
theorem unordered_double_buffer {n i j k : ℕ} {before : List Op} {dst src : Buf} (hj : before.length ≤ j)
    (hk : before.length ≤ k) (hgemm : (double_buffer.issued n before)[j]? = some ⟨.compute, .work (.gemm i)⟩)
    (hcopy : (double_buffer.issued n before)[k]? = some ⟨.h2d, .work (.copy dst src (i + 1))⟩) :
    Unordered (double_buffer.issued n before) j k := by
  have h := double_buffer_pipelined (V := Unit) fun _ _ => ()
  constructor
  · -- the kernel has been issued before the copy
    intro hjk
    obtain ⟨-, r, hr, rfl⟩ := h.position_of_work hj hgemm
    obtain ⟨-, r', hr', rfl⟩ := h.position_of_work hk hcopy
    have hlt := awaits_transGen_lt hjk
    simp only [Config.position, Work.job] at hlt
    omega
  · intro hkj
    rcases h2d_awaits hk ⟨_, hcopy⟩ hkj with hlt | ⟨op, hop⟩
    · omega
    · rw [hgemm] at hop
      cases hop

/-- **Only the run with three streams overlaps anything.** With one stream, and with a copy stream and a
compute stream, each operation of a repetition awaits all those issued before it; with three streams
the copies of the inputs of a job and the kernel of the job before it are unordered. -/
theorem only_double_buffer_overlaps (n : ℕ) (before : List Op) :
    Serialized before.length (single.issued n before) ∧ Serialized before.length (overlap.issued n before) ∧
      ∀ i, i + 1 < n → ∃ j k,
        (double_buffer.issued n before)[j]? = some ⟨.compute, .work (.gemm i)⟩ ∧
        (double_buffer.issued n before)[k]? = some ⟨.h2d, .work (.copy .dev_a .pin_a (i + 1))⟩ ∧
        (double_buffer.issued n before)[k + 1]? = some ⟨.h2d, .work (.copy .dev_b .pin_b (i + 1))⟩ ∧
        Unordered (double_buffer.issued n before) j k ∧ Unordered (double_buffer.issued n before) j (k + 1) := by
  refine ⟨(single_pipelined fun _ _ => ()).serialized rfl, (overlap_pipelined fun _ _ => ()).serialized rfl, ?_⟩
  intro i hi
  have h := double_buffer_pipelined (V := Unit) fun _ _ => ()
  have hat : ∀ i r, i < n → r < 12 → (double_buffer.issued n before)[Config.position before 12 i r]? = _ :=
    fun i r hi hr => h.getElem?_issued hi hr
  have hgemm := hat i 6 (by omega) (by omega)
  have hcopy_a := hat (i + 1) 1 hi (by omega)
  have hcopy_b := hat (i + 1) 2 hi (by omega)
  have hle : ∀ i r, before.length ≤ Config.position before 12 i r := fun _ _ => Nat.le_add_right _ _
  exact ⟨_, _, hgemm, hcopy_a, hcopy_b, unordered_double_buffer (hle _ _) (hle _ _) hgemm hcopy_a,
    unordered_double_buffer (hle i 6) (hle (i + 1) 2) hgemm hcopy_b⟩

end Gbis.Bench
