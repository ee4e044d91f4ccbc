import Gbis.Library.Streams
import Mathlib.Algebra.GroupWithZero.Nat
import Mathlib.Data.Nat.Find

/-!
# Schedules without races

What a device computes does not depend on the order in which it finishes its operations, if
any two that touch the same location, one of them to write it, are ordered by what awaits what.

A piece of work reads some locations of the memory and writes some (`Footprints`); two
of them conflict if one writes what the other reads or writes. A schedule is race-free when of
two operations that conflict the later one awaits the earlier one, directly or through others
(`RaceFree`). Then at every moment the memory is what the finished operations make of it in the
order in which they were issued (`Replays.executes`), and when all have finished, it is what the
schedule makes of it as a plain sequential program (`Replays.sequential`).

* `awaits_of_linked` — an operation awaits the one issued just before, if it is on the same
  stream, or waits for the event that one records;
* `getElem?_blocks`, `exists_of_getElem?_blocks` — a schedule of blocks of one length, by block and
  place in the block.
-/

namespace Gbis.Library

open Relation

variable {S E W X V : Type}

/-! ### What work touches -/

/-- The locations that pieces of work read and write, when the memory maps locations to values. -/
structure Footprints (run : W → (X → V) → X → V) where
  reads : W → X → Prop
  writes : W → X → Prop
  /-- What is not written stays. -/
  frame : ∀ w m x, ¬ writes w x → run w m x = m x
  /-- What is written depends on what is read only. -/
  depends : ∀ w m m', (∀ x, reads w x → m x = m' x) → ∀ x, writes w x → run w m x = run w m' x

namespace Footprints

variable {run : W → (X → V) → X → V} (F : Footprints run)

/-- One of them writes what the other reads or writes. -/
def Conflict (w w' : W) : Prop := ∃ x, F.writes w x ∧ (F.reads w' x ∨ F.writes w' x) ∨ F.reads w x ∧ F.writes w' x

/-- So with operations; only work touches the memory. -/
def Conflicts : StreamOp E W → StreamOp E W → Prop
  | .work w, .work w' => F.Conflict w w'
  | _, _ => False

variable {F}

/-- Work that does not conflict can be done in either order. -/
theorem comm {w w' : W} (h : ¬ F.Conflict w w') (m : X → V) : run w (run w' m) = run w' (run w m) := by
  have hdisjoint : ∀ x, F.writes w x → ¬ F.reads w' x ∧ ¬ F.writes w' x := fun x hx =>
    ⟨fun hr => h ⟨x, .inl ⟨hx, .inl hr⟩⟩, fun hw => h ⟨x, .inl ⟨hx, .inr hw⟩⟩⟩
  have hreads : ∀ x, F.writes w' x → ¬ F.reads w x := fun x hx hr => h ⟨x, .inr ⟨hr, hx⟩⟩
  funext x
  by_cases hw : F.writes w x
  · rw [F.frame w' _ x (hdisjoint x hw).2]
    exact F.depends w _ _ (fun y hy => F.frame w' _ y fun hw' => hreads y hw' hy) x hw
  · rw [F.frame w _ x hw]
    by_cases hw' : F.writes w' x
    · exact (F.depends w' _ _ (fun y hy => F.frame w _ y fun hw => (hdisjoint y hw).1 hy) x hw').symm
    · rw [F.frame w' _ x hw', F.frame w' _ x hw', F.frame w _ x hw]

theorem effect_comm {p q : StreamOp E W} (h : ¬ F.Conflicts p q) (m : X → V) :
    Device.effect run p (Device.effect run q m) = Device.effect run q (Device.effect run p m) := by
  cases p <;> cases q
  case work.work => exact comm h m
  all_goals rfl

end Footprints

/-! ### Replaying what has finished -/

/-- The schedule as a plain sequential program. -/
def sequential (run : W → (X → V) → X → V) (ops : List (Issued S E W)) (m : X → V) : X → V :=
  ops.foldl (fun m x => Device.effect run x.op m) m

open scoped Classical in
/-- What operation `i` makes of the memory, if it has finished. -/
noncomputable def replayOne (run : W → (X → V) → X → V) (finished : Set ℕ) (i : ℕ) (x : Issued S E W) (m : X → V) :
    X → V :=
  if i ∈ finished then Device.effect run x.op m else m

/-- What the operations that have finished make of the memory in the order in which they were issued; the
first of them is operation `i`. -/
noncomputable def replay (run : W → (X → V) → X → V) (finished : Set ℕ) :
    ℕ → List (Issued S E W) → (X → V) → X → V
  | _, [], m => m
  | i, x :: xs, m => replay run finished (i + 1) xs (replayOne run finished i x m)

variable {run : W → (X → V) → X → V} {F : Footprints run} {finished finished' : Set ℕ} {ops xs ys : List (Issued S E W)}
  {x y : Issued S E W} {i j base : ℕ} {m m₀ : X → V}

theorem replayOne_of_mem (h : i ∈ finished) : replayOne run finished i x m = Device.effect run x.op m := if_pos h

theorem replayOne_of_not_mem (h : i ∉ finished) : replayOne run finished i x m = m := if_neg h

theorem replayOne_congr (h : i ∈ finished ↔ i ∈ finished') :
    replayOne run finished i x m = replayOne run finished' i x m := by
  by_cases hi : i ∈ finished
  · rw [replayOne_of_mem hi, replayOne_of_mem (h.mp hi)]
  · rw [replayOne_of_not_mem hi, replayOne_of_not_mem (mt h.mpr hi)]

theorem replay_of_forall (h : ∀ k, i ≤ k → k < i + xs.length → k ∈ finished) :
    replay run finished i xs m = sequential run xs m := by
  induction xs generalizing i m with
  | nil => rfl
  | cons x xs ih =>
    have hi : i ∈ finished := h i le_rfl (by simp)
    rw [replay, replayOne_of_mem hi, ih fun k hk hlt => h k (by omega) (by simp; omega)]
    rfl

theorem replay_congr (h : ∀ k, i ≤ k → (k ∈ finished ↔ k ∈ finished')) :
    replay run finished i xs m = replay run finished' i xs m := by
  induction xs generalizing i m with
  | nil => rfl
  | cons x xs ih => rw [replay, replay, ih fun k hk => h k (by omega), replayOne_congr (h i le_rfl)]

theorem replay_append :
    replay run finished i (xs ++ ys) m = replay run finished (i + xs.length) ys (replay run finished i xs m) := by
  induction xs generalizing i m with
  | nil => rfl
  | cons x xs ih =>
    rw [List.cons_append, replay, replay, ih, List.length_cons]
    congr 1
    omega

/-- An operation that conflicts with none that has finished can be done before them. -/
theorem effect_replay (h : ∀ k y, xs[k]? = some y → i + k ∈ finished → ¬ F.Conflicts x.op y.op) :
    Device.effect run x.op (replay run finished i xs m) = replay run finished i xs (Device.effect run x.op m) := by
  induction xs generalizing i m with
  | nil => rfl
  | cons y ys ih =>
    have hrest : ∀ k z, ys[k]? = some z → i + 1 + k ∈ finished → ¬ F.Conflicts x.op z.op := fun k z hz hk =>
      h (k + 1) z (by simpa using hz) (by rwa [← Nat.add_assoc, Nat.add_right_comm])
    rw [replay, replay, ih hrest]
    congr 1
    by_cases hi : i ∈ finished
    · rw [replayOne_of_mem hi, replayOne_of_mem hi]
      exact F.effect_comm (h 0 y rfl hi) m
    · rw [replayOne_of_not_mem hi, replayOne_of_not_mem hi]

/-- An operation that conflicts with none that was issued later and has finished, finishes as if it had
done so before them. -/
theorem replay_insert (hx : xs[j]? = some x) (hj : i + j ∉ finished)
    (hlater : ∀ k y, j < k → xs[k]? = some y → i + k ∈ finished → ¬ F.Conflicts x.op y.op) :
    Device.effect run x.op (replay run finished i xs m) = replay run (insert (i + j) finished) i xs m := by
  induction xs generalizing i j m with
  | nil => simp at hx
  | cons y ys ih =>
    cases j with
    | zero =>
      obtain rfl : y = x := by simpa using hx
      have hrest : ∀ k z, ys[k]? = some z → i + 1 + k ∈ finished → ¬ F.Conflicts y.op z.op := fun k z hz hk =>
        hlater (k + 1) z (by omega) (by simpa using hz) (by rwa [← Nat.add_assoc, Nat.add_right_comm])
      rw [Nat.add_zero] at hj ⊢
      rw [replay, replayOne_of_not_mem hj, effect_replay hrest, replay, replayOne_of_mem (Set.mem_insert _ _)]
      exact replay_congr fun k hk => by simp [Set.mem_insert_iff]; omega
    | succ j =>
      have hij : i + (j + 1) = i + 1 + j := by omega
      have hrest : ∀ k z, j < k → ys[k]? = some z → i + 1 + k ∈ finished → ¬ F.Conflicts x.op z.op :=
        fun k z hk hz hmem => hlater (k + 1) z (by omega) (by simpa using hz) (by
          rwa [← Nat.add_assoc, Nat.add_right_comm])
      rw [replay, ih (by simpa using hx) (hij ▸ hj) hrest, hij, replay]
      congr 1
      exact replayOne_congr (by simp [Set.mem_insert_iff]; omega)

/-! ### Races -/

/-- Of two operations from `base` on that conflict the later awaits the earlier. -/
def RaceFree (F : Footprints run) (base : ℕ) (ops : List (Issued S E W)) : Prop :=
  ∀ i j x y, base ≤ i → i < j → ops[i]? = some x → ops[j]? = some y → F.Conflicts x.op y.op →
    TransGen (Awaits ops) j i

theorem Awaits.lt (h : Awaits ops i j) : j < i := by
  cases h with
  | stream hlt _ _ => exact hlt
  | event _ hl => exact hl.lt

theorem awaits_transGen_lt (h : TransGen (Awaits ops) i j) : j < i := by
  induction h with
  | single h => exact h.lt
  | tail _ h ih => exact h.lt.trans ih

/-- What an operation awaits through others does not depend on what is issued later. -/
theorem awaits_transGen_append (hi : i < ops.length) (h : TransGen (Awaits (ops ++ xs)) i j) :
    TransGen (Awaits ops) i j := by
  induction h with
  | single h => exact .single ((awaits_append hi).mp h)
  | @tail k j hik h ih =>
    exact .tail ih ((awaits_append ((awaits_transGen_lt hik).trans hi)).mp h)

/-- The beginning of a race-free schedule is race-free. -/
theorem RaceFree.of_append (h : RaceFree F base (ops ++ xs)) : RaceFree F base ops := by
  intro i j x y hi hij hx hy hc
  have hj : j < ops.length := (List.getElem?_eq_some_iff.mp hy).1
  refine awaits_transGen_append hj (h i j x y hi hij ?_ ?_ hc)
  · rwa [List.getElem?_append_left (by omega)]
  · rwa [List.getElem?_append_left hj]

theorem Device.WellFormed.closed_transGen {d : Device S E W (X → V)} (h : d.WellFormed) (hi : i ∈ d.finished)
    (hij : TransGen (Awaits d.issued) i j) : j ∈ d.finished := by
  induction hij with
  | single hij => exact h.closed i hi _ hij
  | tail _ hkj ih => exact h.closed _ ih _ hkj

/-- Since `base` operations had been issued, and had finished, and the memory was `m₀`, the memory has
become what the operations that have finished make of it, in the order in which they were issued. -/
structure Replays (run : W → (X → V) → X → V) (base : ℕ) (m₀ : X → V) (d : Device S E W (X → V)) : Prop
    extends d.WellFormed where
  start : ∀ i < base, i ∈ d.finished
  le : base ≤ d.issued.length
  memory : d.memory = replay run d.finished base (d.issued.drop base) m₀

namespace Replays

variable {d d' : Device S E W (X → V)}

theorem of_idle (hd : d.WellFormed) (h : d.Idle) : Replays run d.issued.length d.memory d :=
  ⟨hd, h, le_rfl, by simp [replay]⟩

theorem issue (h : Replays run base m₀ d) {s : S} {op : StreamOp E W} : Replays run base m₀ (d.issue s op) := by
  refine ⟨h.toWellFormed.issue, h.start, ?_, ?_⟩
  · simp only [Device.issue, List.length_append]
    exact h.le.trans (Nat.le_add_right _ _)
  · have hnew : d.issued.length ∉ d.finished := fun hmem => lt_irrefl _ (h.bounded _ hmem)
    have hlen : base + (d.issued.drop base).length = d.issued.length := by
      rw [List.length_drop]
      exact Nat.add_sub_cancel' h.le
    simp only [Device.issue, List.drop_append_of_le_length h.le, replay_append, hlen, replay,
      replayOne_of_not_mem hnew]
    exact h.memory

/-- **One more operation finishes**, before or after others that conflict with none. -/
theorem executes (h : Replays run base m₀ d) (hf : RaceFree F base d.issued) (hx : d.Executes run d') :
    Replays run base m₀ d' := by
  have hwf := hx.wellFormed h.toWellFormed
  cases hx with
  | @finish i x hi hn hawait =>
    have hbase : base ≤ i := not_lt.mp fun hlt => hn (h.start i hlt)
    refine ⟨hwf, fun j hj => .inr (h.start j hj), h.le, ?_⟩
    have hij : base + (i - base) = i := by omega
    have hget : ∀ k, (d.issued.drop base)[k]? = d.issued[base + k]? := fun k => List.getElem?_drop
    have hinsert : Device.effect run x.op (replay run d.finished base (d.issued.drop base) m₀) =
        replay run (insert (base + (i - base)) d.finished) base (d.issued.drop base) m₀ := by
      refine replay_insert (F := F) (by rw [hget, hij]; exact hi) (by rwa [hij]) fun k y hk hy hmem hc => ?_
      rw [hget] at hy
      exact hn (h.toWellFormed.closed_transGen hmem (hf i (base + k) x y hbase (by omega) hi hy hc))
    rw [hij] at hinsert
    simp only [h.memory]
    exact hinsert

/-- When everything has finished, the memory is what the schedule makes of it as a sequential program. -/
theorem sequential (h : Replays run base m₀ d) (hd : d.Idle) :
    d.memory = Library.sequential run (d.issued.drop base) m₀ := by
  rw [h.memory]
  refine replay_of_forall fun k hk hlt => hd k ?_
  rw [List.length_drop] at hlt
  omega

end Replays

/-- An event that has been recorded has a last record. -/
theorem exists_lastRecord {e : E} {s : S} (h : ops[i]? = some ⟨s, .record e⟩) :
    ∃ j, LastRecord ops e ops.length j := by
  classical
  let recorded := fun k => k < ops.length ∧ ∃ s, ops[k]? = some ⟨s, .record e⟩
  have hlen := (List.getElem?_eq_some_iff.mp h).1
  have hj : recorded (Nat.findGreatest recorded ops.length) :=
    Nat.findGreatest_spec (P := recorded) hlen.le ⟨hlen, s, h⟩
  refine ⟨_, hj.1, hj.2, fun k hk hlt s hs => ?_⟩
  exact Nat.findGreatest_is_greatest hk hlt.le ⟨hlt, s, hs⟩

/-- On a device that has been idle, what has been issued since can finish. -/
theorem Device.Idle.exists_executes {M : Type} {step : W → M → M} {d : Device S E W M} (h : d.Idle)
    (hd : d.WellFormed) (s : S) (op : StreamOp E W) : ∃ d', (d.issue s op).Executes step d' ∧ d'.Idle := by
  have hnew : d.issued.length ∉ d.finished := fun hmem => lt_irrefl _ (hd.bounded _ hmem)
  have hget : (d.issue s op).issued[d.issued.length]? = some ⟨s, op⟩ := by simp [Device.issue]
  refine ⟨_, .finish hget hnew fun j hj => h j hj.lt, fun i hi => ?_⟩
  simp only [Device.issue, List.length_append, List.length_singleton] at hi
  rcases Nat.lt_succ_iff_lt_or_eq.mp hi with hlt | rfl
  · exact .inr (h i hlt)
  · exact .inl rfl

/-! ### Operations that await each other -/

/-- Issued right after the first, the second awaits it, whatever else has been issued. -/
inductive Linked : Issued S E W → Issued S E W → Prop where
  /-- They are on the same stream. -/
  | stream {x y : Issued S E W} : x.stream = y.stream → Linked x y
  /-- The second waits for the event that the first records. -/
  | event {s t : S} {e : E} : Linked ⟨s, .record e⟩ ⟨t, .wait e⟩

theorem awaits_of_linked (h : Linked x y) (hi : ops[i]? = some x) (hj : ops[i + 1]? = some y) :
    Awaits ops (i + 1) i := by
  cases h with
  | stream hs =>
    obtain ⟨s, p⟩ := x
    obtain ⟨t, q⟩ := y
    obtain rfl : s = t := hs
    exact .stream (by omega) hi hj
  | event => exact .event hj ⟨by omega, ⟨_, hi⟩, fun k hk hlt => by omega⟩

/-- Along operations each of which awaits the one before, a later one awaits an earlier one. -/
theorem awaits_of_chain (h : ∀ k, i ≤ k → k < j → Awaits ops (k + 1) k) (hij : i < j) : TransGen (Awaits ops) j i := by
  induction j with
  | zero => omega
  | succ j ih =>
    have hlast := h j (by omega) (by omega)
    rcases Nat.lt_succ_iff_lt_or_eq.mp hij with hlt | rfl
    · exact .head hlast (ih (fun k hk hlt => h k hk (by omega)) hlt)
    · exact .single hlast

/-! ### One stream -/

/-- Operations of one stream are ordered. -/
theorem awaits_of_stream {s : S} {before : List (Issued S E W)} (hs : ∀ x ∈ xs, x.stream = s) (hi : before.length ≤ j)
    (hij : j < i) (hlt : i < (before ++ xs).length) : Awaits (before ++ xs) i j := by
  have hget : ∀ k, before.length ≤ k → k < (before ++ xs).length → ∃ op, (before ++ xs)[k]? = some ⟨s, op⟩ := by
    intro k hk hlt
    obtain ⟨⟨t, op⟩, hx⟩ : ∃ x, (before ++ xs)[k]? = some x := ⟨_, List.getElem?_eq_getElem hlt⟩
    have hmem := hx
    rw [List.getElem?_append_right hk] at hmem
    obtain rfl : t = s := hs _ (List.mem_of_getElem? hmem)
    exact ⟨op, hx⟩
  obtain ⟨p, hp⟩ := hget j hi (hij.trans hlt)
  obtain ⟨q, hq⟩ := hget i (hi.trans hij.le) hlt
  exact .stream hij hp hq

theorem raceFree_of_stream {s : S} {before : List (Issued S E W)} (hs : ∀ x ∈ xs, x.stream = s) :
    RaceFree F before.length (before ++ xs) := fun _ _ _ _ hi hij _ hy _ =>
  .single (awaits_of_stream hs hi hij (List.getElem?_eq_some_iff.mp hy).1)

/-- When the event that was recorded last has happened, and everything since the device was idle is on the stream
of its record, everything has finished. -/
theorem Replays.idle_of_synced {d : Device S E W (X → V)} {s : S} {e : E} {before : List (Issued S E W)}
    (h : Replays run before.length m₀ d) (hissued : d.issued = before ++ (xs ++ [⟨s, .record e⟩]))
    (hs : ∀ x ∈ xs, x.stream = s) (hsync : d.Synced e) : d.Idle := by
  have hlen : d.issued.length = before.length + xs.length + 1 := by simp [hissued, Nat.add_assoc]
  have hlast : before.length + xs.length ∈ d.finished := by
    refine hsync _ ⟨by omega, ⟨s, ?_⟩, fun k hlo hhi => by omega⟩
    rw [hissued, ← List.append_assoc, ← List.length_append]
    simp
  intro k hk
  rcases Nat.lt_or_ge k before.length with hlt | hge
  · exact h.start k hlt
  rcases Nat.lt_or_ge k (before.length + xs.length) with hlt | hge'
  · refine h.closed _ hlast k (hissued ▸ awaits_of_stream (s := s) (fun x hx => ?_) hge hlt (by simp))
    rcases List.mem_append.mp hx with hx | hx
    · exact hs x hx
    · rw [List.mem_singleton.mp hx]
  · obtain rfl : k = before.length + xs.length := by omega
    exact hlast

/-! ### Blocks -/

section

variable {α : Type} {block : ℕ → List α} {c n r : ℕ} {a : α}

theorem length_blocks (hc : ∀ i, (block i).length = c) : ((List.range n).flatMap block).length = c * n := by
  induction n with
  | zero => simp
  | succ n ih => simp [List.range_succ, List.flatMap_append, ih, hc, Nat.mul_succ]

theorem place_lt {i : ℕ} (hi : i < n) (hr : r < c) : c * i + r < c * n :=
  calc c * i + r < c * i + c := by omega
    _ = c * (i + 1) := (Nat.mul_succ c i).symm
    _ ≤ c * n := Nat.mul_le_mul_left c hi

/-- Place `r` of block `i`. -/
theorem getElem?_blocks (hc : ∀ i, (block i).length = c) (hi : i < n) (hr : r < c) :
    ((List.range n).flatMap block)[c * i + r]? = (block i)[r]? := by
  induction n with
  | zero => omega
  | succ n ih =>
    rw [List.range_succ, List.flatMap_append]
    rcases Nat.lt_succ_iff_lt_or_eq.mp hi with hlt | rfl
    · rw [List.getElem?_append_left (by rw [length_blocks hc]; exact place_lt hlt hr), ih hlt]
    · rw [List.getElem?_append_right (by rw [length_blocks hc]; omega), length_blocks hc]
      simp

/-- Everything is somewhere in some block. -/
theorem exists_of_getElem?_blocks (hc : ∀ i, (block i).length = c) {k : ℕ}
    (h : ((List.range n).flatMap block)[k]? = some a) :
    ∃ i r, i < n ∧ r < c ∧ k = c * i + r ∧ (block i)[r]? = some a := by
  have hk : k < c * n := by
    have := (List.getElem?_eq_some_iff.mp h).1
    rwa [length_blocks hc] at this
  have hpos : 0 < c := Nat.pos_of_ne_zero fun h0 => by simp [h0] at hk
  have hdiv : c * (k / c) + k % c = k := Nat.div_add_mod k c
  have hi : k / c < n := Nat.div_lt_of_lt_mul hk
  have hr : k % c < c := Nat.mod_lt k hpos
  refine ⟨k / c, k % c, hi, hr, hdiv.symm, ?_⟩
  rw [← getElem?_blocks hc hi hr, hdiv, h]

end

end Gbis.Library
