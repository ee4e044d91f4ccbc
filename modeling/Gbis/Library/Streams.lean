import Gbis.Library.HostProgram
import Mathlib.Data.Set.Insert
import Mathlib.Tactic.Common

/-!
# Streams and events

A device that works through operations on its own, while the host goes on. The host
issues operations on streams, and the device finishes them in any order that respects
two rules: an operation awaits the operations issued before it on its stream; and a wait
for an event awaits the last record of the event issued before the wait. An operation may
be a piece of work on the device's memory.

* `Device.Executes` — the device finishes one operation that awaits nothing unfinished;
* `Device.WellFormed` — in a device that is used in this way, what has finished awaits
  nothing that has not; so along a chain of operations, each awaiting the one before, all
  have finished once the last has (`Device.WellFormed.chain`);
* `Device.Executes.post` — assertions about the memory, one for each operation, hold of
  the finished ones whatever the order, if each is established by its operation from
  those it awaits and no other operation destroys it.

The streams `S`, the events `E`, the pieces of work `W` and the memory `M` are arbitrary.
-/

namespace Gbis.Library

variable {S E W M : Type}

/-- What is issued on a stream. -/
inductive StreamOp (E W : Type) where
  /-- A piece of work. -/
  | work (w : W)
  /-- Record an event. -/
  | record (e : E)
  /-- Wait for an event. -/
  | wait (e : E)

/-- An operation and its stream. -/
structure Issued (S E W : Type) where
  stream : S
  op : StreamOp E W

/-- Operation `j` is the last record of `e` issued before operation `i`. -/
structure LastRecord (ops : List (Issued S E W)) (e : E) (i j : ℕ) : Prop where
  lt : j < i
  record : ∃ s, ops[j]? = some ⟨s, .record e⟩
  last : ∀ k, j < k → k < i → ∀ s, ops[k]? ≠ some ⟨s, .record e⟩

/-- Operation `i` awaits operation `j`. -/
inductive Awaits (ops : List (Issued S E W)) (i j : ℕ) : Prop where
  /-- They are on the same stream. -/
  | stream {s : S} {p q : StreamOp E W} : j < i → ops[j]? = some ⟨s, p⟩ → ops[i]? = some ⟨s, q⟩ → Awaits ops i j
  /-- `i` waits for an event whose last record is `j`. -/
  | event {s : S} {e : E} : ops[i]? = some ⟨s, .wait e⟩ → LastRecord ops e i j → Awaits ops i j

/-- The device: what has been issued, in the order in which it was; which operations have
finished, by their positions; and the memory. -/
structure Device (S E W M : Type) where
  issued : List (Issued S E W) := []
  finished : Set ℕ := ∅
  memory : M

namespace Device

variable {run : W → M → M} {d d' : Device S E W M} {s : S} {op : StreamOp E W} {i j : ℕ}

/-- Issue an operation. -/
def issue (d : Device S E W M) (s : S) (op : StreamOp E W) : Device S E W M :=
    { d with issued := d.issued ++ [⟨s, op⟩] }

/-- Everything issued has finished. -/
def Idle (d : Device S E W M) : Prop := ∀ i < d.issued.length, i ∈ d.finished

/-- The last record of `e` has finished. -/
def Synced (d : Device S E W M) (e : E) : Prop := ∀ j, LastRecord d.issued e d.issued.length j → j ∈ d.finished

/-- What an operation does to the memory. -/
def effect (run : W → M → M) : StreamOp E W → M → M
  | .work w, m => run w m
  | .record _, m => m
  | .wait _, m => m

/-- The device finishes an operation. -/
inductive Executes (run : W → M → M) (d : Device S E W M) : Device S E W M → Prop where
  | finish {i : ℕ} {x : Issued S E W} : d.issued[i]? = some x → i ∉ d.finished →
      (∀ j, Awaits d.issued i j → j ∈ d.finished) →
      Executes run d { d with finished := insert i d.finished, memory := effect run x.op d.memory }

/-- What has finished has been issued, and awaits nothing that has not finished. -/
structure WellFormed (d : Device S E W M) : Prop where
  bounded : ∀ i ∈ d.finished, i < d.issued.length
  closed : ∀ i ∈ d.finished, ∀ j, Awaits d.issued i j → j ∈ d.finished

end Device

/-! ### Issuing -/

variable {ops xs : List (Issued S E W)} {e : E} {i j : ℕ}

theorem lastRecord_append (hi : i ≤ ops.length) : LastRecord (ops ++ xs) e i j ↔ LastRecord ops e i j := by
  constructor
  · rintro ⟨hlt, ⟨s, hs⟩, hlast⟩
    refine ⟨hlt, ⟨s, ?_⟩, fun k hj hk s hs => hlast k hj hk s ?_⟩
    · rwa [List.getElem?_append_left (by omega)] at hs
    · rwa [List.getElem?_append_left (by omega)]
  · rintro ⟨hlt, ⟨s, hs⟩, hlast⟩
    refine ⟨hlt, ⟨s, ?_⟩, fun k hj hk s hs => hlast k hj hk s ?_⟩
    · rwa [List.getElem?_append_left (by omega)]
    · rwa [List.getElem?_append_left (by omega)] at hs

/-- What an operation awaits does not depend on what is issued later. -/
theorem awaits_append (hi : i < ops.length) : Awaits (ops ++ xs) i j ↔ Awaits ops i j := by
  have hget : ∀ k, k ≤ i → (ops ++ xs)[k]? = ops[k]? := fun k hk => List.getElem?_append_left (by omega)
  constructor
  · rintro (⟨hlt, hj, hi'⟩ | ⟨hw, hl⟩)
    · exact .stream hlt (by rwa [hget j (by omega)] at hj) (by rwa [hget i le_rfl] at hi')
    · exact .event (by rwa [hget i le_rfl] at hw) ((lastRecord_append (by omega)).mp hl)
  · rintro (⟨hlt, hj, hi'⟩ | ⟨hw, hl⟩)
    · exact .stream hlt (by rwa [hget j (by omega)]) (by rwa [hget i le_rfl])
    · exact .event (by rwa [hget i le_rfl]) ((lastRecord_append (by omega)).mpr hl)

namespace Device

variable {run : W → M → M} {d d' : Device S E W M} {s : S} {op : StreamOp E W}

theorem WellFormed.issue (h : d.WellFormed) : (d.issue s op).WellFormed := by
  refine ⟨fun i hi => ?_, fun i hi j hj => h.closed i hi j ((awaits_append (h.bounded i hi)).mp hj)⟩
  have := h.bounded i hi
  simp only [Device.issue, List.length_append, List.length_singleton]
  omega

/-! ### Executing -/

theorem Executes.issued_eq (h : d.Executes run d') : d'.issued = d.issued := by
  cases h
  rfl

theorem Executes.finished_subset (h : d.Executes run d') : d.finished ⊆ d'.finished := by
  cases h
  exact Set.subset_insert _ _

theorem Executes.wellFormed (h : d.Executes run d') (hd : d.WellFormed) : d'.WellFormed := by
  cases h with
  | finish hi _ hawait =>
    refine ⟨fun k hk => ?_, fun k hk j hj => ?_⟩
    · rcases hk with rfl | hk
      · exact (List.getElem?_eq_some_iff.mp hi).1
      · exact hd.bounded k hk
    · rcases hk with rfl | hk
      · exact .inr (hawait j hj)
      · exact .inr (hd.closed k hk j hj)

/-- An idle device does nothing. -/
theorem Idle.not_executes (h : d.Idle) : ¬ d.Executes run d' := by
  rintro ⟨hi, hn, -⟩
  exact hn (h _ (List.getElem?_eq_some_iff.mp hi).1)

/-- Along a chain of operations, each of which awaits the one before, all have finished
when one has that comes later. -/
theorem WellFormed.chain (h : d.WellFormed) {a b : ℕ} (hchain : ∀ k, a ≤ k → k < b → Awaits d.issued (k + 1) k)
    (hb : b ∈ d.finished) : ∀ k, a ≤ k → k ≤ b → k ∈ d.finished := by
  suffices ∀ n k, k + n = b → a ≤ k → k ∈ d.finished from fun k ha hk => this (b - k) k (by omega) ha
  intro n
  induction n with
  | zero => rintro k rfl _; exact hb
  | succ n ih =>
    intro k hk ha
    exact h.closed (k + 1) (ih (k + 1) (by omega) (by omega)) k (hchain k ha (by omega))

/-- **Assertions hold of what has finished, in whatever order it has.** -/
theorem Executes.post {Q : ℕ → M → Prop} (h : d.Executes run d') (hd : ∀ i ∈ d.finished, Q i d.memory)
    (hnew : ∀ i x, d.issued[i]? = some x → i ∉ d.finished → (∀ j, Awaits d.issued i j → j ∈ d.finished) →
      Q i (effect run x.op d.memory))
    (hkeep : ∀ i x j, d.issued[i]? = some x → i ∉ d.finished → j ≠ i → Q j d.memory →
      Q j (effect run x.op d.memory)) :
    ∀ i ∈ d'.finished, Q i d'.memory := by
  cases h with
  | @finish i x hi hn hawait =>
    rintro j (rfl | hj)
    · exact hnew j x hi hn hawait
    · exact hkeep i x j hi hn (fun he => hn (he ▸ hj)) (hd j hj)

end Device

/-! ### Host programs beside a device -/

section

variable {C : Type} {R : C → Type} {L X α σ : Type} {V : World C R σ} {A : σ → σ → Prop} {I : σ → Prop}

theorem stable_of_step (hI : ∀ s s', A s s' → I s → I s') {s s' : σ} (h : Relation.ReflTransGen A s s') (hs : I s) :
    I s' := by
  induction h with
  | refl => exact hs
  | tail _ hstep ih => exact hI _ _ hstep ih

/-- The call rule beside a world that moves on its own, for an invariant that the moves keep. -/
theorem Host.wp_call_interleave (hI : ∀ s s', A s s' → I s → I s') {c : C} {Q : R c → L → σ → Prop}
    {Y : X → L → σ → Prop} {l : L} {s : σ} (hs : I s) (hpre : ∀ s, I s → V.pre c s)
    (hanswer : ∀ s r s', I s → V.answer s c r s' → Q r l s') :
    (Host.call c : Host C R L X (R c)).wp (V.interleave A) Q Y l s := by
  refine (Host.wp_call c).mpr ⟨fun s₁ h₁ => hpre s₁ (stable_of_step hI h₁ hs), ?_⟩
  rintro r s' ⟨s₁, h₁, hr⟩
  exact hanswer s₁ r s' (stable_of_step hI h₁ hs) hr

/-- A move of the world leaves the weakest precondition of what is left of a program. -/
theorem Prog.wp_move {Q : α → σ → Prop} (hQ : ∀ a s s', A s s' → Q a s → Q a s') {s s' : σ} (h : A s s') :
    ∀ {p : Prog C R α}, p.wp (V.interleave A) Q s → p.wp (V.interleave A) Q s'
  | .pure a, hp => hQ a _ _ h hp
  | .call _ _, hp => by
    refine ⟨fun s₁ h₁ => hp.1 s₁ (.head h h₁), ?_⟩
    rintro r t ⟨s₁, h₁, hr⟩
    exact hp.2 r t ⟨s₁, .head h h₁, hr⟩

end

end Gbis.Library
