import Mathlib.Data.Nat.Notation
import Mathlib.Logic.Relation
import Mathlib.Tactic.SplitIfs

/-!
# Transition systems

A program of several threads is described by what it may start from and by what
one labelled step may do. This module gives such systems their runs, and the
rules by which everything about a run is proved from what one step does:

* `Steps.preserves`, `Reachable.invariant` — what holds at the start and is kept
  by every step holds of every state reached;
* `Reachable.of_follow` — a run is found by a function that takes the steps with given labels;
* `Steps.exists_of_decreasing` — a run to a goal is found where a measure can always be lowered;
* `Counted.bounded` — the steps of one kind in a run are counted by what they use up;
* `Simulation.reachable` — when every step of one system is a step of another,
  or no step at all, seen through a map of states, then so is every run.

Runs carry a condition `ok` on their steps (the state before the step and its
label), so that a property of all the runs that avoid some steps is stated as one
of `Reachable T ok`; `Always` is the condition that excludes nothing.
-/

namespace Gbis.Library

universe u v w x

variable {σ : Type u} {α : Type v} {τ : Type w} {β : Type x}

/-- A transition system: the states it may start in, and its labelled steps. -/
structure System (σ : Type u) (α : Type v) where
  /-- The initial states. -/
  init : σ → Prop
  /-- The steps. -/
  step : σ → α → σ → Prop

/-- The condition on steps that excludes none. -/
def Always : σ → α → Prop := fun _ _ => True

instance (s : σ) (a : α) : Decidable (Always s a) := .isTrue trivial

/-- A run from one state to another, all of whose steps meet the condition `ok`. -/
inductive Steps (T : System σ α) (ok : σ → α → Prop) (s : σ) : σ → Prop where
  /-- No step. -/
  | refl : Steps T ok s s
  /-- One step more. -/
  | tail {t u : σ} {a : α} : Steps T ok s t → T.step t a u → ok t a → Steps T ok s u

/-- The states reached by runs from an initial state. -/
def Reachable (T : System σ α) (ok : σ → α → Prop) (t : σ) : Prop := ∃ s, T.init s ∧ Steps T ok s t

variable {T : System σ α} {ok ok' : σ → α → Prop}

theorem Steps.single {s t : σ} {a : α} (h : T.step s a t) (ha : ok s a) : Steps T ok s t := .tail .refl h ha

theorem Steps.trans {s t u : σ} (h : Steps T ok s t) (h' : Steps T ok t u) : Steps T ok s u := by
  induction h' with
  | refl => exact h
  | tail _ hs ha ih => exact .tail ih hs ha

/-- A weaker condition on the steps allows more runs. -/
theorem Steps.mono (hok : ∀ s a, ok s a → ok' s a) {s t : σ} (h : Steps T ok s t) : Steps T ok' s t := by
  induction h with
  | refl => exact .refl
  | tail _ hs ha ih => exact .tail ih hs (hok _ _ ha)

/-- **What every step keeps, a run keeps.** -/
theorem Steps.preserves {I : σ → Prop} (hI : ∀ {s a t}, I s → T.step s a t → ok s a → I t) {s t : σ}
    (h : Steps T ok s t) (hs : I s) : I t := by
  induction h with
  | refl => exact hs
  | tail _ h ha ih => exact hI ih h ha

theorem Reachable.start {s : σ} (h : T.init s) : Reachable T ok s := ⟨s, h, .refl⟩

theorem Reachable.tail {s t : σ} {a : α} (h : Reachable T ok s) (hs : T.step s a t) (ha : ok s a) :
    Reachable T ok t := by
  obtain ⟨s₀, h₀, h⟩ := h
  exact ⟨s₀, h₀, h.tail hs ha⟩

theorem Reachable.steps {s t : σ} (h : Reachable T ok s) (hs : Steps T ok s t) : Reachable T ok t := by
  obtain ⟨s₀, h₀, h⟩ := h
  exact ⟨s₀, h₀, h.trans hs⟩

theorem Reachable.mono (hok : ∀ s a, ok s a → ok' s a) {s : σ} (h : Reachable T ok s) : Reachable T ok' s := by
  obtain ⟨s₀, h₀, h⟩ := h
  exact ⟨s₀, h₀, h.mono hok⟩

/-- **The invariant rule**: what holds of the initial states and is kept by every
step, from states that are themselves reached, holds of every state reached. -/
theorem Reachable.invariant {I : σ → Prop} (h₀ : ∀ s, T.init s → I s)
    (hI : ∀ {s a t}, Reachable T ok s → I s → T.step s a t → ok s a → I t) {s : σ} (h : Reachable T ok s) : I s := by
  obtain ⟨s₀, hs₀, h⟩ := h
  suffices Reachable T ok s ∧ I s from this.2
  exact h.preserves (I := fun s => Reachable T ok s ∧ I s)
    (fun hs hst ha => ⟨hs.1.tail hst ha, hI hs.1 hs.2 hst ha⟩) ⟨.start hs₀, h₀ _ hs₀⟩

/-! ### Runs with given labels -/

/-- Take the steps with these labels one after the other, as `next` does, if all of them meet the
condition `ok`. -/
def follow (next : σ → α → Option σ) (ok : σ → α → Prop) [∀ s a, Decidable (ok s a)] (s : σ) : List α → Option σ
  | [] => some s
  | a :: as => if ok s a then (next s a).bind fun t => follow next ok t as else none

/-- When what `next` does is a run of `T`, seen through `f`, then so is all of this. -/
theorem Steps.map_follow {f : τ → σ} {next : τ → β → Option τ} {ok' : τ → β → Prop} [∀ s a, Decidable (ok' s a)]
    (hnext : ∀ s a t, next s a = some t → ok' s a → Steps T ok (f s) (f t)) {as : List β} {s t : τ}
    (h : follow next ok' s as = some t) : Steps T ok (f s) (f t) := by
  induction as generalizing s with
  | nil =>
    cases h
    exact .refl
  | cons a as ih =>
    unfold follow at h
    split_ifs at h with ha
    obtain ⟨u, hu, h⟩ := Option.bind_eq_some_iff.mp h
    exact (hnext s a u hu ha).trans (ih h)

/-- When `next` takes steps of `T` only, this is a run of `T`. -/
theorem Steps.of_follow {next : σ → α → Option σ} (hnext : ∀ s a t, next s a = some t → T.step s a t)
    [∀ s a, Decidable (ok s a)] {as : List α} {s t : σ} (h : follow next ok s as = some t) : Steps T ok s t :=
  Steps.map_follow (f := id) (fun s a t hst ha => .single (hnext s a t hst) ha) h

/-- What is found of the end of such a run holds of a state that is reached. -/
theorem Reachable.of_follow (ok : σ → α → Prop) [∀ s a, Decidable (ok s a)] {next : σ → α → Option σ}
    (hnext : ∀ s a t, next s a = some t → T.step s a t) {s : σ} (hs : T.init s) (as : List α) (p : σ → Bool)
    (h : (follow next ok s as).any p = true) : ∃ t, Reachable T ok t ∧ p t = true := by
  obtain ⟨t, ht, hp⟩ := (Option.any_eq_true _ _).mp h
  exact ⟨t, ⟨s, hs, .of_follow hnext ht⟩, hp⟩

/-- The same of two states, one after the other. -/
theorem Reachable.steps_of_follow (ok ok' : σ → α → Prop) [∀ s a, Decidable (ok s a)] [∀ s a, Decidable (ok' s a)]
    {next : σ → α → Option σ} (hnext : ∀ s a t, next s a = some t → T.step s a t) {s : σ} (hs : T.init s)
    (as bs : List α) (p : σ → σ → Bool)
    (h : ((follow next ok s as).any fun t => (follow next ok' t bs).any (p t)) = true) :
    ∃ t u, Reachable T ok t ∧ Steps T ok' t u ∧ p t u = true := by
  obtain ⟨t, ht, h⟩ := Reachable.of_follow ok hnext hs as _ h
  obtain ⟨u, hu, hp⟩ := (Option.any_eq_true _ _).mp h
  exact ⟨t, u, ht, .of_follow hnext hu, hp⟩

/-- Labels that do not depend on the state. -/
def ofLabels (as : List α) : List (σ → Option α) := as.map fun a _ => some a

/-- The step whose label is chosen in the state it begins in, if it meets the condition `ok`. -/
def chosen (next : σ → α → Option σ) (ok : σ → α → Prop) [∀ s a, Decidable (ok s a)] (s : σ)
    (choice : σ → Option α) : Option σ :=
  (choice s).bind fun a => if ok s a then next s a else none

/-- What is found of the end of a run with such labels holds of a state that is reached. -/
theorem Reachable.of_chosen (ok : σ → α → Prop) [∀ s a, Decidable (ok s a)] {next : σ → α → Option σ}
    (hnext : ∀ s a t, next s a = some t → T.step s a t) {s : σ} (hs : T.init s) (choices : List (σ → Option α))
    (p : σ → Bool) (h : (follow (chosen next ok) Always s choices).any p = true) :
    ∃ t, Reachable T ok t ∧ p t = true := by
  obtain ⟨t, ht, hp⟩ := (Option.any_eq_true _ _).mp h
  refine ⟨t, ⟨s, hs, Steps.map_follow (f := id) ?_ ht⟩, hp⟩
  intro u choice v huv _
  obtain ⟨a, -, huv⟩ := Option.bind_eq_some_iff.mp huv
  split_ifs at huv with ha
  exact .single (hnext u a v huv) ha

/-! ### Runs that lead somewhere -/

/-- **The progress rule**: if from every state in `G` that is not in `D` a run leads to a state in
`G` that is smaller, then from every state in `G` a run leads to one that is also in `D`. -/
theorem Steps.exists_of_decreasing {ι : Type w} {r : ι → ι → Prop} (hr : WellFounded r) (measure : σ → ι)
    {G D : σ → Prop} (h : ∀ s, G s → ¬ D s → ∃ t, Steps T ok s t ∧ G t ∧ r (measure t) (measure s)) {s : σ} (hs : G s) :
    ∃ t, Steps T ok s t ∧ G t ∧ D t := by
  induction hm : measure s using hr.induction generalizing s with
  | h m ih =>
    by_cases hD : D s
    · exact ⟨s, .refl, hs, hD⟩
    · obtain ⟨t, hst, ht, hlt⟩ := h s hs hD
      obtain ⟨u, htu, hu⟩ := ih (measure t) (hm ▸ hlt) ht rfl
      exact ⟨u, hst.trans htu, hu⟩

/-! ### Counting steps -/

/-- A run in which there are `n` steps with labels in `A`, and any number of others. -/
inductive Counted (T : System σ α) (ok : σ → α → Prop) (A : α → Prop) (s : σ) : ℕ → σ → Prop where
  /-- No step. -/
  | refl : Counted T ok A s 0 s
  /-- One step more that counts. -/
  | counted {n : ℕ} {t u : σ} {a : α} : Counted T ok A s n t → T.step t a u → ok t a → A a → Counted T ok A s (n + 1) u
  /-- One more that does not. -/
  | other {n : ℕ} {t u : σ} {a : α} : Counted T ok A s n t → T.step t a u → ok t a → ¬ A a → Counted T ok A s n u

/-- **The counting rule**: where `k` is left, there are no more than `k` steps that use some of it
up, as long as no other step adds to it. -/
theorem Counted.bounded {A : α → Prop} {left : ℕ → σ → Prop}
    (hA : ∀ {k s a t}, left k s → T.step s a t → ok s a → A a → ∃ j, j < k ∧ left j t)
    (hother : ∀ {k s a t}, left k s → T.step s a t → ok s a → ¬ A a → left k t) {n k : ℕ} {s t : σ}
    (h : Counted T ok A s n t) (hs : left k s) : ∃ j, n + j ≤ k ∧ left j t := by
  induction h with
  | refl => exact ⟨k, by omega, hs⟩
  | counted _ hst ha hin ih =>
    obtain ⟨j, hj, hleft⟩ := ih
    obtain ⟨i, hi, hleft⟩ := hA hleft hst ha hin
    exact ⟨i, by omega, hleft⟩
  | other _ hst ha hout ih =>
    obtain ⟨j, hj, hleft⟩ := ih
    exact ⟨j, hj, hother hleft hst ha hout⟩

/-! ### Simulation -/

/-- `f` maps the runs of `T` that meet `ok` to runs of `A`: an initial state to an
initial state, and a step from a state reached to a step of `A` or to none. -/
structure Simulation (T : System σ α) (ok : σ → α → Prop) (A : System τ β) (f : σ → τ) : Prop where
  /-- Initial states. -/
  init : ∀ s, T.init s → A.init (f s)
  /-- Steps. -/
  step : ∀ {s a t}, Reachable T ok s → T.step s a t → ok s a → f t = f s ∨ ∃ b, A.step (f s) b (f t)

/-- A run is mapped to a run. -/
theorem Simulation.steps {A : System τ β} {f : σ → τ} (h : Simulation T ok A f) {s t : σ}
    (hs : Reachable T ok s) (hst : Steps T ok s t) : Steps A Always (f s) (f t) := by
  induction hst with
  | refl => exact .refl
  | tail hst' hstep ha ih =>
    rcases h.step (hs.steps hst') hstep ha with he | ⟨b, hb⟩
    · rw [he]; exact ih
    · exact ih.tail hb trivial

/-- What the simulated system reaches covers what the simulating one does. -/
theorem Simulation.reachable {A : System τ β} {f : σ → τ} (h : Simulation T ok A f) {s : σ}
    (hs : Reachable T ok s) : Reachable A Always (f s) := by
  obtain ⟨s₀, h₀, hst⟩ := hs
  exact ⟨f s₀, h.init s₀ h₀, h.steps (.start h₀) hst⟩

end Gbis.Library
