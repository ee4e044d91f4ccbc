import Mathlib.Logic.Equiv.Basic

/-!
# Owners

Things that are handed out and given back, and the slots that own them. `Owners own live`
says that the slots account for all that is live: a thing is live if and only if a slot owns
it, and no two slots own the same. What a thing was asked for with, its size, say, goes with
it. What a program may do keeps this: a slot gives back what it owns (`Owners.release`), an
empty slot takes what is handed out (`Owners.acquire`), and two slots change what they own
(`Owners.swap`), one of them nothing, perhaps. Where all slots are empty nothing is live
(`Owners.live_eq_none`). `Owners.release_slot` and `Owners.acquire_slot` are the same of slots
with contents, a function of which says what they own.
-/

namespace Gbis.Library

universe u v w x

variable {ι : Type u} {α : Type v} {β : Type w}

/-- The slots own all that is live, each thing in one slot. -/
structure Owners (own : ι → Option (α × β)) (live : α → Option β) : Prop where
  live_iff : ∀ a b, live a = some b ↔ ∃ i, own i = some (a, b)
  inj : ∀ i j a b c, own i = some (a, b) → own j = some (a, c) → i = j

/-- A thing, if there is one, with what it was asked for with. -/
def along (b : β) (a : Option α) : Option (α × β) := a.map fun a => (a, b)

@[simp] theorem map_fst_along (b : β) (a : Option α) : (along b a).map Prod.fst = a := by
  cases a <;> rfl

@[simp] theorem along_none (b : β) : along b (none : Option α) = none := rfl

@[simp] theorem along_some (b : β) (a : α) : along b (some a) = some (a, b) := rfl

@[simp] theorem along_eq_none_iff {b : β} {a : Option α} : along b a = none ↔ a = none := Option.map_eq_none_iff

variable {own : ι → Option (α × β)} {live : α → Option β}

/-- Where all slots are empty nothing is live. -/
theorem Owners.live_eq_none (h : Owners own live) (ho : ∀ i, own i = none) (a : α) : live a = none := by
  cases ha : live a with
  | none => rfl
  | some b =>
    obtain ⟨i, hi⟩ := (h.live_iff a b).mp ha
    rw [ho i] at hi
    cases hi

/-- Empty slots own all of nothing. -/
theorem owners_of_empty (ho : ∀ i, own i = none) (hl : ∀ a, live a = none) : Owners own live := by
  constructor
  · intro a b
    simp [ho, hl]
  · intro i j a b c hi
    rw [ho i] at hi
    cases hi

/-- Two slots change what they own. -/
theorem Owners.swap [DecidableEq ι] (h : Owners own live) (i j : ι) : Owners (own ∘ Equiv.swap i j) live := by
  constructor
  · intro a b
    rw [h.live_iff]
    exact (Equiv.swap i j).exists_congr_left.trans (by simp)
  · intro k l a b c hk hl
    exact (Equiv.swap i j).injective (h.inj _ _ a b c hk hl)

variable [DecidableEq α]

/-- What is live once a thing, if any, has been given back. -/
def without (live : α → Option β) : Option α → α → Option β
  | some a => Function.update live a none
  | none => live

variable [DecidableEq ι]

/-- A slot gives back what it owns. -/
theorem Owners.release (h : Owners own live) (i : ι) :
    Owners (Function.update own i none) (without live ((own i).map Prod.fst)) := by
  cases hi : own i with
  | none => rwa [← hi, Function.update_eq_self, hi]
  | some t =>
    obtain ⟨a, b⟩ := t
    have hother : ∀ j c, Function.update own i none j = some c ↔ j ≠ i ∧ own j = some c := by
      intro j c
      by_cases hj : j = i
      · simp [hj]
      · simp [hj, Function.update_of_ne]
    constructor
    · intro a' b'
      simp only [hother, Option.map_some, without]
      by_cases ha : a' = a
      · subst ha
        rw [Function.update_self]
        constructor
        · intro hn
          cases hn
        · rintro ⟨j, hj, hown⟩
          exact absurd (h.inj j i a' b' b hown hi) hj
      · rw [Function.update_of_ne ha, h.live_iff]
        constructor
        · rintro ⟨j, hown⟩
          refine ⟨j, ?_, hown⟩
          rintro rfl
          rw [hi] at hown
          cases hown
          exact ha rfl
        · rintro ⟨j, -, hown⟩
          exact ⟨j, hown⟩
    · intro j k a' b' c' hj hk
      exact h.inj j k a' b' c' ((hother j _).mp hj).2 ((hother k _).mp hk).2

/-- An empty slot takes a thing that was not live. -/
theorem Owners.acquire (h : Owners own live) {i : ι} (hi : own i = none) {a : α} (ha : live a = none) (b : β) :
    Owners (Function.update own i (some (a, b))) (Function.update live a (some b)) := by
  -- no slot owns the new thing
  have hnew : ∀ j c, own j ≠ some (a, c) := by
    intro j c hj
    have := (h.live_iff a c).mpr ⟨j, hj⟩
    rw [ha] at this
    cases this
  have hown : ∀ j t, Function.update own i (some (a, b)) j = some t ↔ j = i ∧ t = (a, b) ∨ own j = some t := by
    intro j t
    by_cases hj : j = i
    · subst hj
      simp [hi, eq_comm]
    · simp [hj, Function.update_of_ne]
  constructor
  · intro a' b'
    simp only [hown]
    by_cases haa : a' = a
    · subst haa
      simp [hnew, eq_comm]
    · simp [haa, h.live_iff, Function.update_of_ne]
  · intro j k a' b' c' hj hk
    rcases (hown j _).mp hj with ⟨rfl, htj⟩ | hj' <;> rcases (hown k _).mp hk with ⟨rfl, htk⟩ | hk'
    · rfl
    · cases htj
      exact absurd hk' (hnew k c')
    · cases htk
      exact absurd hj' (hnew j b')
    · exact h.inj j k a' b' c' hj' hk'

/-! ### Slots with contents -/

section Contents

variable {γ : Type x} {own : γ → Option (α × β)} {slots : ι → γ}

omit [DecidableEq α] in
theorem own_update (own : γ → Option (α × β)) (slots : ι → γ) (i : ι) (v : γ) :
    (fun j => own (Function.update slots i v j)) = Function.update (fun j => own (slots j)) i (own v) :=
  Function.comp_update own slots i v

/-- A slot is emptied, and what it owned is given back. -/
theorem Owners.release_slot (h : Owners (fun i => own (slots i)) live) (i : ι) {v : γ} (hv : own v = none) :
    Owners (fun j => own (Function.update slots i v j)) (without live ((own (slots i)).map Prod.fst)) := by
  rw [own_update, hv]
  exact h.release i

/-- An empty slot is filled with a thing that was not live. -/
theorem Owners.acquire_slot (h : Owners (fun i => own (slots i)) live) {i : ι} (hi : own (slots i) = none) {a : α}
    (ha : live a = none) {b : β} {v : γ} (hv : own v = some (a, b)) :
    Owners (fun j => own (Function.update slots i v j)) (Function.update live a (some b)) := by
  rw [own_update, hv]
  exact h.acquire hi ha b

end Contents

end Gbis.Library
