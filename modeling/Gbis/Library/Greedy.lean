import Mathlib.Algebra.BigOperators.Group.List.Basic
import Mathlib.Algebra.GroupWithZero.Nat
import Mathlib.Algebra.Order.Group.Nat
import Mathlib.Data.List.Perm.Basic
import Mathlib.Data.List.Perm.Subperm
import Mathlib.Data.List.Sublists

/-!
# Greedy passes

One pass over a list that takes each item fitting what has been taken so far, and
leaves the others: an item that does not fit is passed over, not a stop. What has
been taken is summarised by a state of any type, so that the items may compete for
several things at once.

* `greedy_perm`, `greedy_fst_sublist`, `greedy_snd_sublist` — the items are taken
  or left, each once and in their order;
* `greedy_invariant` — what every taking keeps holds of all that was taken;
* `greedy_append` — a pass over two lists is a pass over the one and then, from the
  state it ends in, over the other;
* `greedy_eq_nil_iff` — a pass takes nothing exactly when nothing fits the starting state;
* `greedy_left` — an item left did not fit what had been taken before it;
* `filter_eq_greedy_append` — where what rejects an item rejects the later ones of its
  class, the pass takes the first items of the class;
* `sum_take_le_of_subperm` — no items weigh less than as many of the lightest.
-/

namespace Gbis.Library

universe u v

variable {α : Type u} {σ : Type v}

/-- The items taken and the items left by a pass from the state `st`. -/
def greedy (fits : σ → α → Bool) (add : σ → α → σ) : σ → List α → List α × List α
  | _, [] => ([], [])
  | st, x :: xs =>
    if fits st x then (x :: (greedy fits add (add st x) xs).1, (greedy fits add (add st x) xs).2)
    else ((greedy fits add st xs).1, x :: (greedy fits add st xs).2)

variable {fits : σ → α → Bool} {add : σ → α → σ}

theorem greedy_cons_of_fits {st : σ} {x : α} {xs : List α} (h : fits st x = true) :
    greedy fits add st (x :: xs) =
      (x :: (greedy fits add (add st x) xs).1, (greedy fits add (add st x) xs).2) := by
  simp [greedy, h]

theorem greedy_cons_of_not_fits {st : σ} {x : α} {xs : List α} (h : fits st x = false) :
    greedy fits add st (x :: xs) = ((greedy fits add st xs).1, x :: (greedy fits add st xs).2) := by
  simp [greedy, h]

/-- Each item is taken or left, once. -/
theorem greedy_perm (st : σ) (l : List α) :
    List.Perm ((greedy fits add st l).1 ++ (greedy fits add st l).2) l := by
  induction l generalizing st with
  | nil => exact .refl _
  | cons x xs ih =>
    by_cases h : fits st x = true
    · rw [greedy_cons_of_fits h]
      exact (ih _).cons x
    · rw [greedy_cons_of_not_fits (by simpa using h)]
      exact List.perm_middle.trans ((ih _).cons x)

/-- The items taken keep their order. -/
theorem greedy_fst_sublist (st : σ) (l : List α) : List.Sublist (greedy fits add st l).1 l := by
  induction l generalizing st with
  | nil => exact .refl _
  | cons x xs ih =>
    by_cases h : fits st x = true
    · rw [greedy_cons_of_fits h]
      exact (ih _).cons_cons x
    · rw [greedy_cons_of_not_fits (by simpa using h)]
      exact (ih _).cons x

/-- The items left keep their order. -/
theorem greedy_snd_sublist (st : σ) (l : List α) : List.Sublist (greedy fits add st l).2 l := by
  induction l generalizing st with
  | nil => exact .refl _
  | cons x xs ih =>
    by_cases h : fits st x = true
    · rw [greedy_cons_of_fits h]
      exact (ih _).cons x
    · rw [greedy_cons_of_not_fits (by simpa using h)]
      exact (ih _).cons_cons x

/-- **What each taking keeps**, all the takings of a pass keep. -/
theorem greedy_invariant {I : σ → Prop} (hI : ∀ st x, I st → fits st x = true → I (add st x)) {st : σ} (hst : I st)
    (l : List α) : I ((greedy fits add st l).1.foldl add st) := by
  induction l generalizing st with
  | nil => exact hst
  | cons x xs ih =>
    by_cases h : fits st x = true
    · rw [greedy_cons_of_fits h]
      exact ih (hI st x hst h)
    · rw [greedy_cons_of_not_fits (by simpa using h)]
      exact ih hst

/-- A pass over two lists, one after the other. -/
theorem greedy_append (st : σ) (l₁ l₂ : List α) :
    greedy fits add st (l₁ ++ l₂) =
      ((greedy fits add st l₁).1 ++ (greedy fits add ((greedy fits add st l₁).1.foldl add st) l₂).1,
        (greedy fits add st l₁).2 ++ (greedy fits add ((greedy fits add st l₁).1.foldl add st) l₂).2) := by
  induction l₁ generalizing st with
  | nil => rfl
  | cons x xs ih =>
    rw [List.cons_append]
    by_cases h : fits st x = true
    · rw [greedy_cons_of_fits h, greedy_cons_of_fits h, ih]
      rfl
    · rw [greedy_cons_of_not_fits (by simpa using h), greedy_cons_of_not_fits (by simpa using h), ih]
      rfl

/-- Nothing is taken exactly where nothing fits. -/
theorem greedy_eq_nil_iff {st : σ} {l : List α} : (greedy fits add st l).1 = [] ↔ ∀ x ∈ l, fits st x = false := by
  induction l with
  | nil => simp [greedy]
  | cons x xs ih =>
    by_cases h : fits st x = true
    · simp [greedy_cons_of_fits h, h]
    · have h : fits st x = false := by simpa using h
      simp [greedy_cons_of_not_fits h, h, ih]

/-- An item taken fitted the state it was taken in. -/
theorem exists_fits_of_mem_greedy {st : σ} {l : List α} {x : α} (h : x ∈ (greedy fits add st l).1) :
    ∃ l₁ l₂, l = l₁ ++ x :: l₂ ∧ fits ((greedy fits add st l₁).1.foldl add st) x = true := by
  induction l generalizing st with
  | nil => simp [greedy] at h
  | cons y ys ih =>
    by_cases hy : fits st y = true
    · rw [greedy_cons_of_fits hy] at h
      rcases List.mem_cons.mp h with rfl | h
      · exact ⟨[], ys, rfl, hy⟩
      · obtain ⟨l₁, l₂, rfl, hf⟩ := ih h
        refine ⟨y :: l₁, l₂, rfl, ?_⟩
        rw [greedy_cons_of_fits hy]
        exact hf
    · have hy' : fits st y = false := by simpa using hy
      rw [greedy_cons_of_not_fits hy'] at h
      obtain ⟨l₁, l₂, rfl, hf⟩ := ih h
      refine ⟨y :: l₁, l₂, rfl, ?_⟩
      rw [greedy_cons_of_not_fits hy']
      exact hf

theorem greedy_split_left {st : σ} {l left₁ left₂ : List α} {x : α}
    (h : (greedy fits add st l).2 = left₁ ++ x :: left₂) : ∃ pre post, l = pre ++ x :: post ∧
      (greedy fits add st pre).2 = left₁ ∧
      fits ((greedy fits add st pre).1.foldl add st) x = false := by
  induction l generalizing st left₁ with
  | nil => simp [greedy] at h
  | cons y ys ih =>
    by_cases hy : fits st y = true
    · rw [greedy_cons_of_fits hy] at h
      obtain ⟨pre, post, rfl, hleft, hf⟩ := ih h
      refine ⟨y :: pre, post, rfl, ?_, ?_⟩
      · rw [greedy_cons_of_fits hy, hleft]
      · rw [greedy_cons_of_fits hy]
        exact hf
    · have hy' : fits st y = false := by simpa using hy
      rw [greedy_cons_of_not_fits hy'] at h
      cases left₁ with
      | nil =>
        obtain ⟨rfl, -⟩ := List.cons.inj h
        exact ⟨[], ys, rfl, rfl, hy'⟩
      | cons z left₁ =>
        obtain ⟨rfl, htail⟩ := List.cons.inj h
        obtain ⟨pre, post, rfl, hleft, hf⟩ := ih htail
        refine ⟨y :: pre, post, rfl, ?_, ?_⟩
        · rw [greedy_cons_of_not_fits hy', hleft]
        · rw [greedy_cons_of_not_fits hy']
          exact hf

/-- **An item left** did not fit what had been taken of the items before it; these and the
items after it are taken or left. -/
theorem greedy_left {st : σ} {l left₁ left₂ : List α} {x : α} (h : (greedy fits add st l).2 = left₁ ++ x :: left₂) :
    ∃ pre post, l = pre ++ x :: post ∧ fits ((greedy fits add st pre).1.foldl add st) x = false ∧
      (greedy fits add st l).1 =
        (greedy fits add st pre).1 ++ (greedy fits add ((greedy fits add st pre).1.foldl add st) post).1 ∧
      List.Perm ((greedy fits add st pre).1 ++ left₁) pre ∧
      List.Perm ((greedy fits add ((greedy fits add st pre).1.foldl add st) post).1 ++ left₂) post := by
  obtain ⟨pre, post, rfl, hleft, hf⟩ := greedy_split_left h
  have happend := (greedy_append st pre (x :: post) : greedy fits add st _ = _)
  rw [greedy_cons_of_not_fits hf, hleft] at happend
  rw [happend] at h
  have hright := (List.cons.inj (List.append_cancel_left h)).2
  refine ⟨pre, post, rfl, hf, congrArg Prod.fst happend, ?_, ?_⟩
  · rw [← hleft]
    exact greedy_perm st pre
  · rw [← hright]
    exact greedy_perm _ post

/-! ### Classes of items -/

section Classes

variable {I : σ → Prop} {p : α → Bool} {R : α → α → Prop}
  (hI : ∀ st x, I st → fits st x = true → I (add st x))
  (hadd : ∀ st x y, I st → fits st x = true → fits st y = false → fits (add st x) y = false)

include hI hadd

/-- What does not fit now is not taken later, where taking more makes nothing fit. -/
theorem greedy_filter_eq_nil {st : σ} (hst : I st) {l : List α} (h : ∀ x ∈ l, p x = true → fits st x = false) :
    (greedy fits add st l).1.filter p = [] := by
  induction l generalizing st with
  | nil => rfl
  | cons x xs ih =>
    by_cases hx : fits st x = true
    · have hpx : ¬ p x = true := fun hp => by
        rw [h x List.mem_cons_self hp] at hx
        cases hx
      rw [greedy_cons_of_fits hx, List.filter_cons_of_neg hpx]
      exact ih (hI st x hst hx) fun y hy hpy => hadd st x y hst hx (h y (List.mem_cons_of_mem _ hy) hpy)
    · rw [greedy_cons_of_not_fits (by simpa using hx)]
      exact ih hst fun y hy => h y (List.mem_cons_of_mem _ hy)

/-- **The pass takes the first items of a class** and leaves the rest, where an item that
does not fit keeps out every later one of its class. -/
theorem filter_eq_greedy_append (hR : ∀ st x y, I st → R x y → fits st x = false → fits st y = false) {st : σ}
    (hst : I st) {l : List α} (hl : l.Pairwise fun x y => p x = true → p y = true → R x y) :
    l.filter p = (greedy fits add st l).1.filter p ++ (greedy fits add st l).2.filter p := by
  induction l generalizing st with
  | nil => rfl
  | cons x xs ih =>
    obtain ⟨hx, hxs⟩ := List.pairwise_cons.mp hl
    by_cases hf : fits st x = true
    · have ih := ih (hI st x hst hf) hxs
      rw [greedy_cons_of_fits hf]
      by_cases hp : p x = true
      · rw [List.filter_cons_of_pos hp, List.filter_cons_of_pos hp, ih, List.cons_append]
      · rw [List.filter_cons_of_neg hp, List.filter_cons_of_neg hp, ih]
    · have hf' : fits st x = false := by simpa using hf
      have ih := ih hst hxs
      rw [greedy_cons_of_not_fits hf']
      by_cases hp : p x = true
      · have hnone : (greedy fits add st xs).1.filter p = [] :=
          greedy_filter_eq_nil hI hadd hst fun y hy hpy => hR st x y hst (hx y hy hp hpy) hf'
        rw [List.filter_cons_of_pos hp, List.filter_cons_of_pos hp, ih, hnone, List.nil_append, List.nil_append]
      · rw [List.filter_cons_of_neg hp, List.filter_cons_of_neg hp, ih]

end Classes

/-! ### The lightest items -/

/-- One item fewer and a lighter one instead weigh no more. -/
theorem add_sum_take_le {x : ℕ} {l : List ℕ} (hx : ∀ y ∈ l, x ≤ y) {n : ℕ} (hn : n < l.length) :
    x + (l.take n).sum ≤ (l.take (n + 1)).sum := by
  rw [List.take_add_one, List.getElem?_eq_getElem hn, Option.toList_some, List.sum_append, List.sum_singleton,
    Nat.add_comm]
  exact Nat.add_le_add_left (hx _ (List.getElem_mem hn)) _

/-- **No items weigh less than as many of the lightest.** -/
theorem sum_take_le_of_subperm {l T : List ℕ} (hl : l.Pairwise (· ≤ ·)) (hT : List.Subperm T l) :
    (l.take T.length).sum ≤ T.sum := by
  induction l generalizing T with
  | nil => simp
  | cons x xs ih =>
    obtain ⟨hx, hxs⟩ := List.pairwise_cons.mp hl
    by_cases hmem : x ∈ T
    · have hperm := List.perm_cons_erase hmem
      have hsub : List.Subperm (T.erase x) xs := by simpa using hT.erase x
      have hle := ih hxs hsub
      rw [hperm.length_eq, hperm.sum_eq, List.length_cons, List.take_succ_cons, List.sum_cons, List.sum_cons]
      exact Nat.add_le_add_left hle x
    · have hsub : List.Subperm T xs := by simpa [List.erase_of_not_mem hmem] using hT.erase x
      have hle := ih hxs hsub
      cases hn : T.length with
      | zero => simp
      | succ n =>
        rw [hn] at hle
        rw [List.take_succ_cons, List.sum_cons]
        exact (add_sum_take_le hx (by have := hsub.length_le; omega)).trans hle

end Gbis.Library
