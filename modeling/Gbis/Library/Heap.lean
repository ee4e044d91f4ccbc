import Gbis.Library.Ownership
import Mathlib.Data.List.Nodup
import Mathlib.Data.List.Range

/-!
# Heaps

An allocator that hands out addresses, as those see it who use it: which addresses have an
allocation, and what has been freed. An address may be handed out again once it is free, so
the allocations are told apart by the order in which they were made.

A heap is `Sound` if every allocation made so far is live at one address or has been freed, and
once at that, and nothing else has been freed. It stays so as long as only free addresses are
handed out and only live ones are freed (`Sound.alloc`, `Sound.free`). Who may free what is the
business of the owners: `held` is what `Owners` has to account for.
-/

namespace Gbis.Library

universe u

/-- What an allocator has handed out and taken back. -/
structure Heap (α : Type u) where
  /-- The allocation at an address. -/
  live : α → Option ℕ := fun _ => none
  /-- The number of allocations made. They are numbered in their order. -/
  made : ℕ := 0
  /-- The allocations that have been freed, in order. -/
  freed : List ℕ := []
  /-- The addresses that have been freed without an allocation there. -/
  invalid : List α := []

namespace Heap

variable {α : Type u} {h : Heap α} {a : α}

/-- The addresses with an allocation. -/
def held (h : Heap α) (a : α) : Option Unit := (h.live a).map fun _ => ()

/-- Nothing is lost, and nothing is freed twice. -/
structure Sound (h : Heap α) : Prop where
  lt_made : ∀ n, n < h.made ↔ n ∈ h.freed ∨ ∃ a, h.live a = some n
  not_freed : ∀ a n, h.live a = some n → n ∉ h.freed
  inj : ∀ a b n, h.live a = some n → h.live b = some n → a = b
  nodup : h.freed.Nodup
  invalid : h.invalid = []

/-- Nothing has been handed out. -/
theorem sound_empty : Sound ({} : Heap α) := by
  constructor
  case lt_made => simp
  case not_freed => simp
  case inj => simp
  case nodup => simp
  case invalid => rfl

/-- What has been freed is what is live no more. -/
theorem Sound.mem_freed_iff (hs : Sound h) (n : ℕ) : n ∈ h.freed ↔ n < h.made ∧ ∀ a, h.live a ≠ some n := by
  constructor
  · intro hn
    exact ⟨(hs.lt_made n).mpr (.inl hn), fun a ha => hs.not_freed a n ha hn⟩
  · intro hn
    rcases (hs.lt_made n).mp hn.1 with hfreed | ⟨a, ha⟩
    · exact hfreed
    · exact absurd ha (hn.2 a)

/-- **Where nothing is live** every allocation has been freed, once. -/
theorem Sound.freed_perm (hs : Sound h) (hl : ∀ a, h.live a = none) : List.Perm h.freed (List.range h.made) := by
  refine (List.perm_ext_iff_of_nodup hs.nodup List.nodup_range).mpr fun n => ?_
  simp [hs.lt_made, hl]

variable [DecidableEq α]

/-- An address is handed out. -/
def alloc (h : Heap α) (a : α) : Heap α :=
  { h with live := Function.update h.live a (some h.made), made := h.made + 1 }

/-- The allocation at an address is freed. -/
def free (h : Heap α) (a : α) : Heap α :=
  match h.live a with
  | some n => { h with live := Function.update h.live a none, freed := h.freed ++ [n] }
  | none => { h with invalid := h.invalid ++ [a] }

/-- What is freed by one who may have nothing to free. -/
def giveBack (h : Heap α) : Option α → Heap α
  | some a => h.free a
  | none => h

/-- An address is handed out that was free. -/
theorem Sound.alloc (hs : Sound h) (ha : h.live a = none) : Sound (h.alloc a) := by
  have hlive : ∀ b n, (h.alloc a).live b = some n ↔ b = a ∧ n = h.made ∨ h.live b = some n := by
    intro b n
    by_cases hb : b = a
    · subst hb
      simp [Heap.alloc, ha, eq_comm]
    · simp [Heap.alloc, hb]
  -- the new allocation is not one of those before it
  have hold : ∀ n, n ∈ h.freed ∨ (∃ b, h.live b = some n) → n ≠ h.made := fun n hn =>
    Nat.ne_of_lt ((hs.lt_made n).mpr hn)
  constructor
  case lt_made =>
    intro n
    have hnew : (∃ b, (h.alloc a).live b = some n) ↔ n = h.made ∨ ∃ b, h.live b = some n := by
      simp [hlive, exists_or]
    change n < h.made + 1 ↔ n ∈ h.freed ∨ _
    rw [hnew, or_left_comm, ← hs.lt_made n, or_comm]
    exact Nat.lt_succ_iff_lt_or_eq
  case not_freed =>
    intro b n hb hn
    rcases (hlive b n).mp hb with ⟨-, rfl⟩ | hb
    · exact hold _ (.inl hn) rfl
    · exact hs.not_freed b n hb hn
  case inj =>
    intro b c n hb hc
    rcases (hlive b n).mp hb with ⟨rfl, hn⟩ | hb
    · rcases (hlive c n).mp hc with ⟨rfl, -⟩ | hc
      · rfl
      · exact absurd hn (hold n (.inr ⟨c, hc⟩))
    · rcases (hlive c n).mp hc with ⟨-, hn⟩ | hc
      · exact absurd hn (hold n (.inr ⟨b, hb⟩))
      · exact hs.inj b c n hb hc
  case nodup => exact hs.nodup
  case invalid => exact hs.invalid

/-- An address is freed that was live. -/
theorem Sound.free (hs : Sound h) (ha : h.live a ≠ none) : Sound (h.free a) := by
  obtain ⟨n, hn⟩ := Option.ne_none_iff_exists'.mp ha
  have hfree : h.free a = { h with live := Function.update h.live a none, freed := h.freed ++ [n] } := by
    rw [Heap.free, hn]
  rw [hfree]
  have hlive : ∀ b m, Function.update h.live a none b = some m ↔ b ≠ a ∧ h.live b = some m := by
    intro b m
    by_cases hb : b = a
    · simp [hb]
    · simp [hb]
  constructor
  case lt_made =>
    intro m
    simp only [hlive, hs.lt_made, List.mem_append, List.mem_singleton]
    constructor
    · intro h
      rcases h with hm | ⟨b, hb⟩
      · exact .inl (.inl hm)
      · by_cases hba : b = a
        · rw [hba, hn] at hb
          exact .inl (.inr (Option.some.inj hb).symm)
        · exact .inr ⟨b, hba, hb⟩
    · intro h
      rcases h with (hm | rfl) | ⟨b, -, hb⟩
      · exact .inl hm
      · exact .inr ⟨a, hn⟩
      · exact .inr ⟨b, hb⟩
  case not_freed =>
    intro b m hb hm
    obtain ⟨hba, hbm⟩ := (hlive b m).mp hb
    rcases List.mem_append.mp hm with hm | hm
    · exact hs.not_freed b m hbm hm
    · obtain rfl := List.mem_singleton.mp hm
      exact hba (hs.inj b a m hbm hn)
  case inj =>
    intro b c m hb hc
    exact hs.inj b c m ((hlive b m).mp hb).2 ((hlive c m).mp hc).2
  case nodup =>
    have hnot : n ∉ h.freed := hs.not_freed a n hn
    exact hs.nodup.append (List.nodup_singleton n) (by simpa using hnot)
  case invalid => exact hs.invalid

/-- One gives back what one has, or nothing. -/
theorem Sound.giveBack (hs : Sound h) {x : Option α} (hx : ∀ a ∈ x, h.live a ≠ none) : Sound (h.giveBack x) := by
  cases x with
  | none => exact hs
  | some a => exact hs.free (hx a rfl)

theorem held_alloc (h : Heap α) (a : α) : (h.alloc a).held = Function.update h.held a (some ()) := by
  funext b
  by_cases hb : b = a
  · simp [held, alloc, hb]
  · simp [held, alloc, hb]

theorem held_giveBack (h : Heap α) (x : Option α) : (h.giveBack x).held = without h.held x := by
  cases x with
  | none => rfl
  | some a =>
    funext b
    cases ha : h.live a with
    | none =>
      by_cases hb : b = a
      · simp [held, giveBack, free, without, ha, hb]
      · simp [held, giveBack, free, without, ha, hb]
    | some n =>
      by_cases hb : b = a
      · simp [held, giveBack, free, without, ha, hb]
      · simp [held, giveBack, free, without, ha, hb]

end Heap

end Gbis.Library
