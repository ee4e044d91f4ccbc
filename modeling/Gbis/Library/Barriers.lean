import Gbis.Library.HostProgram
import Gbis.Library.Transition
import Mathlib.Data.DFinsupp.WellFounded
import Mathlib.Logic.Function.Basic

/-!
# Threads with barriers

Threads that run at once, on one memory, in any order. Each is a program whose calls act
on the memory, and each belongs to a block; the call `none` is the barrier of its block,
which all the threads of the block pass together, once every one of them has come to it.

* `Threads.finishes` — no run of finitely many threads goes on for ever; if they never get
  stuck, they finish;
* `ThreadModular` — the rule by which threads are verified one at a time. Each thread has
  a world of its own (`World`), of what it knows, owns and has done; the worlds are tied to
  the memory by `Link`. It is enough that a call a thread makes when its own world permits it
  keeps the link, and that a barrier does when the worlds of all its threads permit it
  (`ThreadModular.proved`).
-/

namespace Gbis.Library

universe u v w

variable {C : Type u} {R : C → Type u} {ρ σ τ : Type u} {T : Type v} {B : Type w}

/-- What the calls answer, the barrier among them. -/
@[reducible] def WithBarrier (R : C → Type u) : Option C → Type u
  | some c => R c
  | none => PUnit

/-! ### Programs get smaller -/

namespace Prog

open Relation

/-- What is left of a program when a call has been answered. -/
inductive After : Prog C R ρ → Prog C R ρ → Prop where
  /-- The answer is `r`. -/
  | call {c : C} {k : R c → Prog C R ρ} (r : R c) : After (k r) (.call c k)

theorem after_wellFounded : WellFounded (After (C := C) (R := R) (ρ := ρ)) := by
  refine ⟨fun p => ?_⟩
  induction p with
  | pure a => exact ⟨_, fun _ h => by cases h⟩
  | call c k ih =>
    refine ⟨_, fun _ h => ?_⟩
    cases h with
    | call r => exact ih r

instance : Preorder (Prog C R ρ) where
  le := ReflTransGen After
  lt := TransGen After
  le_refl _ := .refl
  le_trans _ _ _ := .trans
  lt_iff_le_not_ge p q := by
    refine ⟨fun h => ⟨h.to_reflTransGen, fun h' => ?_⟩, fun ⟨h, h'⟩ => ?_⟩
    · exact after_wellFounded.transGen.irrefl.irrefl p (h.trans_left h')
    · exact (reflTransGen_iff_eq_or_transGen.mp h).resolve_left fun he => h' (he ▸ .refl)

instance : WellFoundedLT (Prog C R ρ) := ⟨after_wellFounded.transGen⟩

theorem lt_call {c : C} {k : R c → Prog C R ρ} (r : R c) : k r < .call c k := .single (.call r)

end Prog

/-! ### Threads -/

/-- The threads, by what is left of their programs, and their memory. -/
structure Threads (T : Type v) (C : Type u) (R : C → Type u) (ρ σ : Type u) where
  progs : T → Prog (Option C) (WithBarrier R) ρ
  mem : σ

namespace Threads

section

variable [DecidableEq T] [DecidableEq B] (block : T → B) (answer : T → σ → (c : C) → R c → σ → Prop)

/-- What may happen next. -/
inductive Step (s : Threads T C R ρ σ) : Threads T C R ρ σ → Prop where
  /-- A thread makes a call. -/
  | call (t : T) {c : C} {k : R c → Prog (Option C) (WithBarrier R) ρ} {r : R c} {m : σ} :
      s.progs t = .call (some c) k → answer t s.mem c r m → Step s ⟨Function.update s.progs t (k r), m⟩
  /-- The threads of a block pass a barrier. -/
  | barrier (t₀ : T) {k : T → PUnit → Prog (Option C) (WithBarrier R) ρ} :
      (∀ t, block t = block t₀ → s.progs t = .call none (k t)) →
      Step s ⟨fun t => if block t = block t₀ then k t ⟨⟩ else s.progs t, s.mem⟩

/-- The threads as a system. -/
def system (progs : T → Prog (Option C) (WithBarrier R) ρ) (init : σ → Prop) : System (Threads T C R ρ σ) Unit where
  init s := s.progs = progs ∧ init s.mem
  step s _ t := Step block answer s t

end

/-- All the threads are done. -/
def Finished (s : Threads T C R ρ σ) : Prop := ∀ t, ∃ a, s.progs t = .pure a

variable [DecidableEq T] [DecidableEq B] {block : T → B} {answer : T → σ → (c : C) → R c → σ → Prop}
  {s s' : Threads T C R ρ σ}

theorem Step.progs_lt (h : Step block answer s s') : s'.progs < s.progs := by
  cases h with
  | @call t c k r m ht _ =>
    have hlt : k r < s.progs t := ht ▸ Prog.lt_call (R := WithBarrier R) (c := some c) r
    refine Pi.lt_def.mpr ⟨fun t' => ?_, t, ?_⟩
    · rcases eq_or_ne t' t with rfl | hne
      · exact (Function.update_self t' (k r) s.progs).trans_le hlt.le
      · exact (Function.update_of_ne hne (k r) s.progs).le
    · exact (Function.update_self t (k r) s.progs).trans_lt hlt
  | @barrier t₀ k ht =>
    have hlt : ∀ t, block t = block t₀ → k t ⟨⟩ < s.progs t := fun t hb =>
      ht t hb ▸ Prog.lt_call (R := WithBarrier R) (c := none) ⟨⟩
    refine Pi.lt_def.mpr ⟨fun t' => ?_, t₀, (if_pos rfl).trans_lt (hlt t₀ rfl)⟩
    dsimp only
    split_ifs with hb
    · exact (hlt t' hb).le
    · exact le_rfl

/-- **Threads that never get stuck finish.** -/
theorem exists_finished [Finite T] {progs : T → Prog (Option C) (WithBarrier R) ρ} {init : σ → Prop}
    (hnext : ∀ s, Reachable (system block answer progs init) Always s → ¬ s.Finished → ∃ s', Step block answer s s')
    (h : Reachable (system block answer progs init) Always s) :
    ∃ s', Steps (system block answer progs init) Always s s' ∧ s'.Finished := by
  induction hq : s.progs using WellFoundedLT.induction generalizing s with
  | ind q ih =>
    subst hq
    by_cases hf : s.Finished
    · exact ⟨s, .refl, hf⟩
    · obtain ⟨s₁, hs₁⟩ := hnext s h hf
      obtain ⟨s₂, hs₂, hf₂⟩ := ih s₁.progs hs₁.progs_lt (h.tail (a := ()) hs₁ trivial) rfl
      exact ⟨s₂, (Steps.single (a := ()) hs₁ trivial).trans hs₂, hf₂⟩

end Threads

/-! ### One thread at a time -/

/-- What each thread knows of itself is kept by what the threads do to the memory. -/
structure ThreadModular [DecidableEq T] (block : T → B) (answer : T → σ → (c : C) → R c → σ → Prop)
    (W : T → World (Option C) (WithBarrier R) τ) (Link : (T → τ) → σ → Prop) : Prop where
  /-- Of a call. -/
  call : ∀ {g : T → τ} {m m' : σ} {t : T} {c : C} {r : R c}, Link g m → (W t).pre (some c) (g t) → answer t m c r m' →
    ∃ x, (W t).answer (g t) (some c) r x ∧ Link (Function.update g t x) m'
  /-- Of a barrier. -/
  barrier : ∀ {g : T → τ} {m : σ} {t₀ : T}, Link g m → (∀ t, block t = block t₀ → (W t).pre none (g t)) →
    ∃ g', (∀ t, block t = block t₀ → (W t).answer (g t) none ⟨⟩ (g' t)) ∧ (∀ t, block t ≠ block t₀ → g' t = g t) ∧
      Link g' m

namespace ThreadModular

variable [DecidableEq T] [DecidableEq B] {block : T → B} {answer : T → σ → (c : C) → R c → σ → Prop}
  {W : T → World (Option C) (WithBarrier R) τ} {Link : (T → τ) → σ → Prop} {Q : T → ρ → τ → Prop}
    {s s' : Threads T C R ρ σ}

/-- What is left of each thread is right by what the thread knows. -/
def Proved (W : T → World (Option C) (WithBarrier R) τ) (Link : (T → τ) → σ → Prop) (Q : T → ρ → τ → Prop)
    (s : Threads T C R ρ σ) : Prop := ∃ g, Link g s.mem ∧ ∀ t, (s.progs t).wp (W t) (Q t) (g t)

/-- The step lemma. -/
theorem Proved.step (hm : ThreadModular block answer W Link) (h : Proved W Link Q s)
    (hs : Threads.Step block answer s s') :
    Proved W Link Q s' := by
  obtain ⟨g, hg, hw⟩ := h
  cases hs with
  | @call t c k r m ht hr =>
    have hwt := hw t
    rw [ht] at hwt
    obtain ⟨x, hx, hg'⟩ := hm.call hg hwt.1 hr
    refine ⟨Function.update g t x, hg', fun t' => ?_⟩
    rcases eq_or_ne t' t with rfl | hne
    · dsimp only
      rw [Function.update_self, Function.update_self]
      exact hwt.2 r x hx
    · dsimp only
      rw [Function.update_of_ne hne, Function.update_of_ne hne]
      exact hw t'
  | @barrier t₀ k ht =>
    have hwt : ∀ t, block t = block t₀ → (Prog.call none (k t)).wp (W t) (Q t) (g t) := fun t hb => ht t hb ▸ hw t
    obtain ⟨g', hin, hout, hg'⟩ := hm.barrier hg fun t hb => (hwt t hb).1
    refine ⟨g', hg', fun t => ?_⟩
    dsimp only
    split_ifs with hb
    · exact (hwt t hb).2 _ _ (hin t hb)
    · rw [hout t hb]
      exact hw t

/-- **The rule**: threads that are right one by one are right together. -/
theorem proved (hm : ThreadModular block answer W Link) {progs : T → Prog (Option C) (WithBarrier R) ρ}
    {init : σ → Prop}
    (hinit : ∀ m, init m → ∃ g, Link g m ∧ ∀ t, (progs t).wp (W t) (Q t) (g t))
    (h : Reachable (Threads.system block answer progs init) Always s) : Proved W Link Q s := by
  refine h.invariant (fun s hs => ?_) fun _ h hst _ => h.step hm hst
  obtain ⟨g, hg, hw⟩ := hinit s.mem hs.2
  exact ⟨g, hg, fun t => hs.1 ▸ hw t⟩

/-- They do not get stuck, if calls are answered and no thread is done while another of its block is at a barrier. -/
theorem Proved.exists_step (htotal : ∀ t m c, ∃ r m', answer t m c r m')
    (hexit : ∀ {g m t t' a}, Link g m → block t' = block t → (W t).pre none (g t) → ¬ Q t' a (g t'))
    (h : Proved W Link Q s) (hf : ¬ s.Finished) : ∃ s', Threads.Step block answer s s' := by
  obtain ⟨g, hg, hw⟩ := h
  by_cases hcall : ∃ t c k, s.progs t = .call (some c) k
  · obtain ⟨t, c, k, ht⟩ := hcall
    obtain ⟨r, m', hr⟩ := htotal t s.mem c
    exact ⟨_, .call t ht hr⟩
  · obtain ⟨t₀, ht₀⟩ := not_forall.mp hf
    -- so every thread of the block of `t₀` is at the barrier
    have hnone : ∀ t, (∃ a, s.progs t = .pure a) ∨ ∃ k, s.progs t = .call none k := by
      intro t
      rcases ht : s.progs t with a | ⟨_ | c, k⟩
      · exact .inl ⟨a, rfl⟩
      · exact .inr ⟨k, rfl⟩
      · exact absurd ⟨t, c, k, ht⟩ hcall
    obtain ⟨k₀, hk₀⟩ := (hnone t₀).resolve_left ht₀
    have hw₀ := hw t₀
    rw [hk₀] at hw₀
    have hall : ∀ t, ∃ k, block t = block t₀ → s.progs t = .call none k := by
      intro t
      rcases hnone t with ⟨a, ha⟩ | ⟨k, hk⟩
      · refine ⟨k₀, fun hb => absurd (hw t) ?_⟩
        rw [ha]
        exact hexit hg hb hw₀.1
      · exact ⟨k, fun _ => hk⟩
    choose k hk using hall
    exact ⟨_, .barrier t₀ hk⟩

end ThreadModular

end Gbis.Library
