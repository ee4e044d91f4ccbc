import Mathlib.Order.Lattice
import Mathlib.Data.List.Count
import Mathlib.Tactic.Common

/-!
# The rank of a value among others

A value has rank `k` among others when `k` of them are at most as large and fewer than `k` are
smaller (`Ranked`). This says which value it is, without sorting the others: a higher rank has no
smaller value (`Ranked.mono`), and it does not matter in which order the others are listed
(`Ranked.perm`). Once they are sorted, it is the one at the place (`ranked_of_sorted`).
-/

namespace Gbis.Library

universe u

variable {α : Type u} [LinearOrder α] {l l' : List α} {k k' i : ℕ} {x x' : α}

/-- `x` is as large as `k` of the values, and fewer are smaller. -/
structure Ranked (l : List α) (k : ℕ) (x : α) : Prop where
  le : k ≤ l.countP (· ≤ x)
  lt : l.countP (· < x) < k

/-- A higher rank has no smaller value. -/
theorem Ranked.mono (h : Ranked l k x) (h' : Ranked l k' x') (hk : k ≤ k') : x ≤ x' := by
  by_contra hlt
  have hcount : l.countP (· ≤ x') ≤ l.countP (· < x) := by
    refine List.countP_mono_left fun y _ hy => ?_
    simp only [decide_eq_true_eq] at hy ⊢
    exact lt_of_le_of_lt hy (not_le.mp hlt)
  have hle := h'.le
  have hx := h.lt
  omega

theorem Ranked.perm (h : Ranked l k x) (hp : List.Perm l l') : Ranked l' k x :=
  ⟨hp.countP_eq _ ▸ h.le, hp.countP_eq _ ▸ h.lt⟩

/-- It is one of the values. -/
theorem Ranked.mem (h : Ranked l k x) : x ∈ l := by
  by_contra hx
  have hcount : l.countP (· ≤ x) ≤ l.countP (· < x) := by
    refine List.countP_mono_left fun y hy hle => ?_
    simp only [decide_eq_true_eq] at hle ⊢
    exact lt_of_le_of_ne hle fun he => hx (he ▸ hy)
  have hle := h.le
  have hlt := h.lt
  omega

/-- The values in order have their places as ranks. -/
theorem ranked_of_sorted (hs : l.Pairwise (· ≤ ·)) (hi : l[i]? = some x) : Ranked l (i + 1) x := by
  induction l generalizing i with
  | nil => simp at hi
  | cons y l ih =>
    obtain ⟨hy, hs⟩ := List.pairwise_cons.mp hs
    cases i with
    | zero =>
      obtain rfl := Option.some.inj hi
      have hnone : l.countP (· < y) = 0 := by
        simpa [List.countP_eq_zero] using hy
      exact ⟨by simp, by simp [hnone]⟩
    | succ i =>
      rw [List.getElem?_cons_succ] at hi
      obtain ⟨hle, hlt⟩ := ih hs hi
      have hyx := hy x (List.mem_of_getElem? hi)
      refine ⟨by simpa [hyx] using hle, ?_⟩
      rw [List.countP_cons]
      split <;> omega

end Gbis.Library
