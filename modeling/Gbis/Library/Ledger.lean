import Gbis.Library.Transition
import Mathlib.Algebra.BigOperators.Group.Finset.Basic
import Mathlib.Algebra.BigOperators.Pi
import Mathlib.Data.Multiset.Count
import Mathlib.Data.Multiset.Range

/-!
# Ledgers

Tokens that are handed out once each, numbered from `0` on, and moved between places.
A `Ledger` says which tokens each place holds and how many have been handed out. A step
either hands out the next token to a place that takes new ones, or moves some of what
one place holds to another that it may go to.

* `Reachable.sum_hold` — in every state reached, all places together hold every token
  handed out, once; so each is in exactly one place (`Reachable.exists_unique_place`);
* `Steps.mem_of_closed` — a token in a set of places that no move leaves stays there.

A program that passes work from hand to hand is shown to neither lose nor duplicate any
by mapping its states to a ledger whose moves are the hand-overs it has.
-/

namespace Gbis.Library

universe u

variable {P : Type u}

/-- Tokens in places. -/
@[ext]
structure Ledger (P : Type u) where
  /-- How many tokens have been handed out. -/
  next : ℕ
  /-- The tokens each place holds. -/
  hold : P → Multiset ℕ

/-- What happens to tokens. -/
inductive Entry (P : Type u) where
  /-- The next token is handed out to a place. -/
  | arrive (p : P)
  /-- Some of what one place holds is moved to another. -/
  | move (p q : P)

variable [DecidableEq P]

/-- The steps: new tokens go where `enters` says, and moves are those of `moves`. -/
inductive Ledger.Step (enters : P → Prop) (moves : P → P → Prop) (s : Ledger P) : Entry P → Ledger P → Prop where
  /-- A token arrives. -/
  | arrive {p : P} : enters p →
      Step enters moves s (.arrive p) ⟨s.next + 1, Function.update s.hold p (s.next ::ₘ s.hold p)⟩
  /-- Tokens are moved. -/
  | move {p q : P} {rest moved : Multiset ℕ} : moves p q → p ≠ q → s.hold p = rest + moved →
      Step enters moves s (.move p q)
        ⟨s.next, Function.update (Function.update s.hold p rest) q (s.hold q + moved)⟩

/-- The ledgers that start empty. -/
def ledger (enters : P → Prop) (moves : P → P → Prop) : System (Ledger P) (Entry P) where
  init s := s = ⟨0, fun _ => 0⟩
  step := Ledger.Step enters moves

variable {enters : P → Prop} {moves : P → P → Prop} {s t : Ledger P} {e : Entry P}

/-- Two ledgers that differ by an arrival. -/
theorem Ledger.Step.of_arrive {p : P} (hp : enters p) (hn : t.next = s.next + 1) (hh : t.hold p = s.next ::ₘ s.hold p)
    (ho : ∀ q, q ≠ p → t.hold q = s.hold q) : ∃ e, Ledger.Step enters moves s e t := by
  refine ⟨.arrive p, ?_⟩
  convert (Ledger.Step.arrive hp : Ledger.Step enters moves s (.arrive p) _) using 1
  refine Ledger.ext hn (funext fun q => ?_)
  by_cases hq : q = p
  · subst hq
    simpa using hh
  · simpa [Function.update_of_ne hq] using ho q hq

/-- Two ledgers that differ by what has been moved from one place to another. -/
theorem Ledger.Step.of_move {p q : P} (moved : Multiset ℕ) (hm : moves p q) (hpq : p ≠ q) (hn : t.next = s.next)
    (hp : s.hold p = t.hold p + moved) (hq : t.hold q = s.hold q + moved)
    (ho : ∀ r, r ≠ p → r ≠ q → t.hold r = s.hold r) : ∃ e, Ledger.Step enters moves s e t := by
  refine ⟨.move p q, ?_⟩
  convert (Ledger.Step.move hm hpq hp : Ledger.Step enters moves s (.move p q) _) using 1
  refine Ledger.ext hn (funext fun r => ?_)
  by_cases hrq : r = q
  · subst hrq
    simpa using hq
  · by_cases hrp : r = p
    · subst hrp
      simp [Function.update_of_ne hrq]
    · simpa [Function.update_of_ne hrq, Function.update_of_ne hrp] using ho r hrp hrq

/-! ### Places that are many -/

/-- A sum over a list of which one element changes. -/
theorem exists_sum_set {α : Type*} {M : Type*} [AddCommMonoid M] (f : α → M) {l : List α} {i : ℕ} {a : α}
    (h : l[i]? = some a) : ∃ rest, (l.map f).sum = rest + f a ∧ ∀ b, ((l.set i b).map f).sum = rest + f b := by
  induction l generalizing i with
  | nil => simp at h
  | cons x l ih =>
    cases i with
    | zero =>
      obtain rfl : x = a := by simpa using h
      exact ⟨(l.map f).sum, by simp [add_comm], fun b => by simp [add_comm]⟩
    | succ i =>
      obtain ⟨rest, h₁, h₂⟩ := ih (i := i) (by simpa using h)
      refine ⟨f x + rest, by simp [h₁, add_assoc], fun b => ?_⟩
      rw [List.set_cons_succ, List.map_cons, List.sum_cons, h₂, add_assoc]

/-! ### Conservation -/

section

variable [Fintype P]

theorem sum_update_add (f : P → Multiset ℕ) (p : P) (m : Multiset ℕ) :
    ∑ q, Function.update f p m q + f p = ∑ q, f q + m := by
  rw [Finset.sum_update_of_mem (Finset.mem_univ p), Finset.sum_eq_add_sum_sdiff_singleton_of_mem (Finset.mem_univ p) f,
    add_right_comm, add_comm m, add_right_comm, add_comm (f p)]

/-- A step keeps: all places together hold every token handed out, once. -/
theorem Ledger.Step.sum_hold (h : Ledger.Step enters moves s e t) (hs : ∑ p, s.hold p = Multiset.range s.next) :
    ∑ p, t.hold p = Multiset.range t.next := by
  cases h with
  | @arrive p _ =>
    have h₁ := sum_update_add s.hold p (s.next ::ₘ s.hold p)
    rw [hs, Multiset.add_cons, ← Multiset.cons_add, ← Multiset.range_succ] at h₁
    exact Multiset.add_left_inj.mp h₁
  | @move p q rest moved _ hpq hp =>
    have h₁ := sum_update_add s.hold p rest
    have h₂ := sum_update_add (Function.update s.hold p rest) q (s.hold q + moved)
    -- what is taken out of `p` is what is put into `q`
    have h₃ : ∑ r, Function.update s.hold p rest r + moved = Multiset.range s.next := by
      rw [hp, hs, add_comm rest, ← add_assoc] at h₁
      exact Multiset.add_left_inj.mp h₁
    rw [Function.update_of_ne hpq.symm, add_left_comm, h₃, add_comm (s.hold q) (Multiset.range _)] at h₂
    exact Multiset.add_left_inj.mp h₂

/-- **Conservation**: in every state reached, all places together hold every token
handed out, once. -/
theorem Reachable.sum_hold {ok : Ledger P → Entry P → Prop} (h : Reachable (ledger enters moves) ok s) :
    ∑ p, s.hold p = Multiset.range s.next := by
  refine h.invariant (I := fun s => ∑ p, s.hold p = Multiset.range s.next) ?_ fun _ hs hstep _ =>
    Ledger.Step.sum_hold hstep hs
  rintro _ rfl
  simp

/-- **A token that has been handed out is in exactly one place, once.** -/
theorem Reachable.exists_unique_place {ok : Ledger P → Entry P → Prop} (h : Reachable (ledger enters moves) ok s)
    {n : ℕ} (hn : n < s.next) : ∃ p, (s.hold p).count n = 1 ∧ ∀ q, q ≠ p → n ∉ s.hold q := by
  have hc : ∑ p, (s.hold p).count n = 1 := by
    rw [← Multiset.count_sum', h.sum_hold]
    exact Multiset.count_eq_one_of_mem (Multiset.nodup_range _) (Multiset.mem_range.mpr hn)
  obtain ⟨p, -, hp⟩ := Finset.exists_ne_zero_of_sum_ne_zero (hc.trans_ne one_ne_zero)
  have hsplit := Finset.add_sum_erase Finset.univ (fun p => (s.hold p).count n) (Finset.mem_univ p)
  have hp₁ : (s.hold p).count n = 1 := by omega
  have h₀ : ∑ q ∈ Finset.univ.erase p, (s.hold q).count n = 0 := by omega
  refine ⟨p, hp₁, fun q hq => ?_⟩
  exact Multiset.count_eq_zero.mp (Finset.sum_eq_zero_iff.mp h₀ q (Finset.mem_erase.mpr ⟨hq, Finset.mem_univ q⟩))

/-- A token that has not been handed out is nowhere. -/
theorem Reachable.lt_of_mem {ok : Ledger P → Entry P → Prop} (h : Reachable (ledger enters moves) ok s) {n : ℕ} {p : P}
    (hn : n ∈ s.hold p) : n < s.next := by
  rw [← Multiset.mem_range, ← h.sum_hold]
  exact Multiset.mem_sum.mpr ⟨p, Finset.mem_univ p, hn⟩

/-- A place that holds as many tokens as have been handed out holds all of them, and no other
place holds any. -/
theorem Reachable.hold_eq_range {ok : Ledger P → Entry P → Prop} (h : Reachable (ledger enters moves) ok s) {p : P}
    (hp : s.next ≤ (s.hold p).card) : s.hold p = Multiset.range s.next ∧ ∀ q, q ≠ p → s.hold q = 0 := by
  have hsplit := Finset.add_sum_erase Finset.univ s.hold (Finset.mem_univ p)
  rw [h.sum_hold] at hsplit
  have heq : s.hold p = Multiset.range s.next :=
    Multiset.eq_of_le_of_card_le (Multiset.le_iff_exists_add.mpr ⟨_, hsplit.symm⟩) (by simpa using hp)
  refine ⟨heq, fun q hq => ?_⟩
  have hrest : ∑ r ∈ Finset.univ.erase p, s.hold r = 0 := by
    rw [heq] at hsplit
    exact add_eq_left.mp hsplit
  refine Multiset.eq_zero_of_forall_notMem fun n hn => ?_
  have hmem := Multiset.mem_sum.mpr ⟨q, Finset.mem_erase.mpr ⟨hq, Finset.mem_univ q⟩, hn⟩
  rw [hrest] at hmem
  exact Multiset.notMem_zero n hmem

end

/-! ### Places that are not left -/

theorem Ledger.Step.mem_of_closed {S : P → Prop} (hS : ∀ p q, moves p q → S p → S q)
    (h : Ledger.Step enters moves s e t) {n : ℕ} {p : P} (hp : S p) (hn : n ∈ s.hold p) : ∃ q, S q ∧ n ∈ t.hold q := by
  cases h with
  | @arrive r _ =>
    refine ⟨p, hp, ?_⟩
    by_cases hr : p = r
    · subst hr
      simpa using .inr hn
    · simpa [Function.update_of_ne hr] using hn
  | @move r q rest moved hm hrq hr =>
    by_cases hpr : p = r
    · subst hpr
      rcases Multiset.mem_add.mp (hr ▸ hn) with h | h
      · exact ⟨p, hp, by simpa [Function.update_of_ne hrq] using h⟩
      · exact ⟨q, hS p q hm hp, by simp [h]⟩
    · by_cases hpq : p = q
      · subst hpq
        exact ⟨p, hp, by simp [hn]⟩
      · exact ⟨p, hp, by simpa [Function.update_of_ne hpq, Function.update_of_ne hpr] using hn⟩

/-- **A token in a set of places that no move leaves stays in that set.** -/
theorem Steps.mem_of_closed {S : P → Prop} (hS : ∀ p q, moves p q → S p → S q) {ok : Ledger P → Entry P → Prop}
    (h : Steps (ledger enters moves) ok s t) {n : ℕ} {p : P} (hp : S p) (hn : n ∈ s.hold p) :
    ∃ q, S q ∧ n ∈ t.hold q := by
  refine h.preserves (I := fun t => ∃ q, S q ∧ n ∈ t.hold q) ?_ ⟨p, hp, hn⟩
  rintro s a t ⟨q, hq, hn⟩ hstep _
  exact Ledger.Step.mem_of_closed hS hstep hq hn

end Gbis.Library
