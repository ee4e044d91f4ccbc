import Mathlib.Algebra.GroupWithZero.Nat
import Mathlib.Logic.Relation

/-!
# Host programs

A thread that calls a library it does not control is a tree: it makes a call, and
goes on in a way that depends on the answer (`Prog`). Every answer has its branch,
so a statement about all branches is one about every behaviour of the library.

What the calls do is a `World`: what each call requires of the world's state, and
the answers it may get with the states they leave. `Prog.wp W p Q` is the weakest
precondition of `p` for `Q`: from a state that satisfies it, every call `p` makes
is made in a state that meets the call's requirement, and every end `p` comes to
satisfies `Q` (`wp_exec`); where calls get answers, it comes to one (`exists_exec`).
One program is read in several worlds, one for each thing to be said about it.

`Host` is the shape of an imperative function written in this way: it reads and
writes local variables `L` and may throw. A throw leaves the locals as they are,
as an exception leaves the objects of the frames that catch it.

* `Host.wp_bind`, `Host.wp_tryCatch`, … — the rules, one for each construct;
* `Host.wp_of_within` — what every call a function may make keeps, it keeps;
* `Host.Yields` — what a function returns, in whatever world;
* `World.interleave` — a world that also moves on its own between two calls;
* `Prog.run`, `Prog.wp_run` — the run in which a given function answers the calls.
-/

namespace Gbis.Library

universe u v w x

/-- A host program over calls `C` with answers `R`: it is done, or it makes a call
and continues with the answer. -/
inductive Prog (C : Type u) (R : C → Type u) (α : Type u) : Type u where
  /-- Done. -/
  | pure (a : α)
  /-- A call, and what is done with each answer. -/
  | call (c : C) (k : R c → Prog C R α)

variable {C : Type u} {R : C → Type u} {α β L E : Type u} {σ : Type x}

/-- `p`, then `f` of its result. -/
def Prog.bind : Prog C R α → (α → Prog C R β) → Prog C R β
  | .pure a, f => f a
  | .call c k, f => .call c fun r => (k r).bind f

/-- All the calls `p` may make satisfy `P`, and all the ends it may come to satisfy `B`. -/
def Prog.Within (P : C → Prop) (B : α → Prop) : Prog C R α → Prop
  | .pure a => B a
  | .call c k => P c ∧ ∀ r, (k r).Within P B

variable {P P' : C → Prop} {B : α → Prop}

theorem Prog.Within.bind {D : β → Prop} {f : α → Prog C R β} (hf : ∀ a, B a → (f a).Within P D) :
    ∀ {p : Prog C R α}, p.Within P B → (p.bind f).Within P D
  | .pure a, h => hf a h
  | .call _ _, h => ⟨h.1, fun r => (h.2 r).bind hf⟩

theorem Prog.Within.mono {B' : α → Prop} (hP : ∀ c, P c → P' c) (hB : ∀ a, B a → B' a) :
    ∀ {p : Prog C R α}, p.Within P B → p.Within P' B'
  | .pure a, h => hB a h
  | .call c _, h => ⟨hP c h.1, fun r => (h.2 r).mono hP hB⟩

/-- Whatever the answers, `p` makes at most so many calls. -/
def Prog.AtMost : ℕ → Prog C R α → Prop
  | _, .pure _ => True
  | 0, .call _ _ => False
  | n + 1, .call _ k => ∀ r, (k r).AtMost n

/-- What calls require, and what they do. -/
structure World (C : Type u) (R : C → Type u) (σ : Type x) where
  /-- What a call requires. -/
  pre : C → σ → Prop
  /-- The answers a call may get, and the states they leave. -/
  answer : σ → (c : C) → R c → σ → Prop

/-- The weakest precondition of `p` for `Q` in the world `W`. -/
def Prog.wp (W : World C R σ) : Prog C R α → (α → σ → Prop) → σ → Prop
  | .pure a, Q, s => Q a s
  | .call c k, Q, s => W.pre c s ∧ ∀ r s', W.answer s c r s' → (k r).wp W Q s'

variable {W : World C R σ}

@[simp] theorem Prog.wp_pure (a : α) (Q : α → σ → Prop) (s : σ) :
    (Prog.pure a : Prog C R α).wp W Q s ↔ Q a s := Iff.rfl

theorem Prog.wp_mono {Q Q' : α → σ → Prop} (hQ : ∀ a s, Q a s → Q' a s) :
    ∀ {p : Prog C R α} {s : σ}, p.wp W Q s → p.wp W Q' s
  | .pure _, _, h => hQ _ _ h
  | .call _ _, _, h => ⟨h.1, fun r s' hr => Prog.wp_mono hQ (h.2 r s' hr)⟩

theorem Prog.wp_bind (p : Prog C R α) (f : α → Prog C R β) (Q : β → σ → Prop) (s : σ) :
    (p.bind f).wp W Q s ↔ p.wp W (fun a s' => (f a).wp W Q s') s := by
  induction p generalizing s with
  | pure a => exact Iff.rfl
  | call c k ih =>
    refine and_congr Iff.rfl (forall_congr' fun r => forall_congr' fun s' => ?_)
    exact imp_congr Iff.rfl (ih r s')

theorem Prog.Within.wp {Q : α → σ → Prop} :
    ∀ {p : Prog C R α} {s : σ}, p.Within P B → p.wp W Q s → p.wp W (fun a s' => B a ∧ Q a s') s
  | .pure _, _, hp, h => ⟨hp, h⟩
  | .call _ _, _, hp, h => ⟨h.1, fun r s' hr => (hp.2 r).wp (h.2 r s' hr)⟩

/-- What every call of a program keeps, the program keeps. -/
theorem Prog.wp_of_within {I : σ → Prop}
    (hI : ∀ c s, P c → I s → W.pre c s ∧ ∀ r s', W.answer s c r s' → I s') :
    ∀ {p : Prog C R α} {s : σ}, p.Within P B → I s → p.wp W (fun a s' => B a ∧ I s') s
  | .pure _, _, hp, hs => ⟨hp, hs⟩
  | .call c _, s, hp, hs =>
    ⟨(hI c s hp.1 hs).1, fun r s' hr => Prog.wp_of_within hI (hp.2 r) ((hI c s hp.1 hs).2 r s' hr)⟩

/-- What calls require, and ends satisfy, holds now. -/
theorem Prog.now_of_wp {I : σ → Prop} {Q : α → σ → Prop} (hpre : ∀ c s, W.pre c s → I s) (hQ : ∀ a s, Q a s → I s) :
    ∀ {p : Prog C R α} {s : σ}, p.wp W Q s → I s
  | .pure _, _, h => hQ _ _ h
  | .call _ _, _, h => hpre _ _ h.1

/-! ### Execution -/

/-- One call of a program in a world. -/
inductive Exec (W : World C R σ) : Prog C R α × σ → Prog C R α × σ → Prop where
  /-- The program makes its call and gets an answer. -/
  | call {c : C} {k : R c → Prog C R α} {s s' : σ} {r : R c} : W.answer s c r s' → Exec W (.call c k, s) (k r, s')

/-- **Soundness**: wherever an execution gets to, the weakest precondition of what is
left still holds: the next call's requirement is met, and the end satisfies `Q`. -/
theorem wp_exec {Q : α → σ → Prop} {p q : Prog C R α × σ} (h : Relation.ReflTransGen (Exec W) p q)
    (hp : p.1.wp W Q p.2) : q.1.wp W Q q.2 := by
  induction h with
  | refl => exact hp
  | tail _ hstep ih =>
    cases hstep with
    | call hr => exact ih.2 _ _ hr

/-- **Progress**: where calls get answers, a program whose weakest precondition holds comes to its end. -/
theorem exists_exec {Q : α → σ → Prop} (hW : ∀ c s, W.pre c s → ∃ r s', W.answer s c r s') {p : Prog C R α} {s : σ}
    (h : p.wp W Q s) : ∃ a s', Relation.ReflTransGen (Exec W) (p, s) (.pure a, s') ∧ Q a s' := by
  induction p generalizing s with
  | pure a => exact ⟨a, s, .refl, h⟩
  | call c k ih =>
    obtain ⟨r, s₁, hr⟩ := hW c s h.1
    obtain ⟨a, s', hexec, hend⟩ := ih r (h.2 r s₁ hr)
    exact ⟨a, s', .head (.call hr) hexec, hend⟩

/-- A world that moves on its own between calls, by any number of steps of `A`:
what a call requires it requires whatever moves come first. -/
def World.interleave (W : World C R σ) (A : σ → σ → Prop) : World C R σ where
  pre c s := ∀ s₁, Relation.ReflTransGen A s s₁ → W.pre c s₁
  answer s c r s' := ∃ s₁, Relation.ReflTransGen A s s₁ ∧ W.answer s₁ c r s'

/-! ### Running with given answers -/

/-- The run of `p` in which the `n`-th call from here on is answered by `f n`: the
calls made with their answers, and the result. -/
def Prog.run (f : ℕ → (c : C) → R c) : ℕ → Prog C R α → List ((c : C) × R c) × α
  | _, .pure a => ([], a)
  | n, .call c k => (⟨c, f n c⟩ :: (Prog.run f (n + 1) (k (f n c))).1, (Prog.run f (n + 1) (k (f n c))).2)

/-- The world in which every answer is possible and the state is a function of the
calls and answers so far. -/
def World.ofFun (pre : C → σ → Prop) (apply : σ → (c : C) → R c → σ) : World C R σ where
  pre := pre
  answer s c r s' := s' = apply s c r

/-- What a list of calls with their answers makes of a state. -/
def applyAll (apply : σ → (c : C) → R c → σ) (s : σ) (tr : List ((c : C) × R c)) : σ :=
  tr.foldl (fun s e => apply s e.1 e.2) s

/-- The end of a run satisfies the postcondition, in the state its calls lead to. -/
theorem Prog.wp_run {pre : C → σ → Prop} {apply : σ → (c : C) → R c → σ} {Q : α → σ → Prop} (f : ℕ → (c : C) → R c) :
    ∀ {p : Prog C R α} {s : σ} (n : ℕ), p.wp (World.ofFun pre apply) Q s →
      Q (p.run f n).2 (applyAll apply s (p.run f n).1)
  | .pure _, _, _, h => h
  | .call c _, s, n, h => Prog.wp_run f (n + 1) (h.2 (f n c) (apply s c (f n c)) rfl)

/-- The world in which the answers satisfy `ok`, and the state is the calls made so far with
their answers. -/
def World.recorded (pre : C → Prop) (ok : (c : C) → R c → Prop) : World C R (List ((c : C) × R c)) where
  pre c _ := pre c
  answer s c r s' := ok c r ∧ s' = s ++ [⟨c, r⟩]

/-- What is known of a program in that world is known of each run with such answers. -/
theorem Prog.wp_run_recorded {pre : C → Prop} {ok : (c : C) → R c → Prop} {Q : α → List ((c : C) × R c) → Prop}
    {f : ℕ → (c : C) → R c} (hf : ∀ n c, ok c (f n c)) :
    ∀ {p : Prog C R α} {s : List ((c : C) × R c)} (n : ℕ), p.wp (World.recorded pre ok) Q s →
      Q (p.run f n).2 (s ++ (p.run f n).1) ∧ ∀ e ∈ (p.run f n).1, pre e.1
  | .pure _, _, _, h => by simpa [Prog.run] using h
  | .call c k, s, n, h => by
    obtain ⟨hend, hpre⟩ := Prog.wp_run_recorded hf (n + 1) (h.2 (f n c) _ ⟨hf n c, rfl⟩)
    rw [List.append_assoc] at hend
    exact ⟨hend, List.forall_mem_cons.mpr ⟨h.1, hpre⟩⟩

/-- Calls that have been made stay made. -/
theorem Prog.wp_recorded_grows {ok : (c : C) → R c → Prop} :
    ∀ (p : Prog C R α) (s : List ((c : C) × R c)), p.wp (World.recorded (fun _ => True) ok) (fun _ s' => s ⊆ s') s
  | .pure _, s => List.Subset.refl s
  | .call c k, s => by
    refine ⟨trivial, ?_⟩
    rintro r _ ⟨-, rfl⟩
    exact Prog.wp_mono (fun _ _ h => List.Subset.trans (List.subset_append_left s _) h) (Prog.wp_recorded_grows (k r) _)

/-! ### Imperative functions -/

/-- A function with local variables `L` that may throw an `E`. -/
def Host (C : Type u) (R : C → Type u) (L E α : Type u) : Type u :=
  L → Prog C R (Except E α × L)

namespace Host

/-- The continuation of `bind`: a throw ends the function. -/
def andThen (f : α → Host C R L E β) : Except E α × L → Prog C R (Except E β × L)
  | (.ok a, l) => f a l
  | (.error e, l) => .pure (.error e, l)

/-- The continuation of `tryCatch`: a throw is handled, with the locals it left. -/
def orElse (h : E → Host C R L E α) : Except E α × L → Prog C R (Except E α × L)
  | (.ok a, l) => .pure (.ok a, l)
  | (.error e, l) => h e l

instance : Monad (Host C R L E) where
  pure a := fun l => .pure (.ok a, l)
  bind p f := fun l => (p l).bind (andThen f)

/-- `throw e`. -/
def throw (e : E) : Host C R L E α := fun l => .pure (.error e, l)

/-- `try p catch e => h e`. -/
def tryCatch (p : Host C R L E α) (h : E → Host C R L E α) : Host C R L E α := fun l => (p l).bind (orElse h)

/-- The local variables. -/
def locals : Host C R L E L := fun l => .pure (.ok l, l)

/-- Assign to the local variables. -/
def assign (f : L → L) : Host C R L E PUnit := fun l => .pure (.ok ⟨⟩, f l)

/-- Make a call. -/
def call (c : C) : Host C R L E (R c) := fun l => .call c fun r => .pure (.ok r, l)

/-- `for (x : xs) f(x);` -/
def forEach {ι : Type v} (f : ι → Host C R L E PUnit) : List ι → Host C R L E PUnit
  | [] => pure ⟨⟩
  | x :: xs => f x >>= fun _ => forEach f xs

/-- `for (; i < hi; i += step) b = f(i, b);` -/
def forLoop {ι : Type u} (step hi : ℕ) [NeZero step] (f : ℕ → ι → Host C R L E ι) (i : ℕ) (b : ι) : Host C R L E ι :=
  if i < hi then f i b >>= forLoop step hi f (i + step) else pure b
termination_by hi - i
decreasing_by have := Nat.pos_of_neZero step; omega

/-- What is said of an end: `Q` of a return and `X` of a throw. -/
def ends (Q : α → L → σ → Prop) (X : E → L → σ → Prop) : Except E α × L → σ → Prop
  | (.ok a, l) => Q a l
  | (.error e, l) => X e l

/-- The weakest precondition of a function for `Q` on return and `X` on a throw. -/
def wp (W : World C R σ) (p : Host C R L E α) (Q : α → L → σ → Prop) (X : E → L → σ → Prop) (l : L) (s : σ) :
    Prop :=
  (p l).wp W (ends Q X) s

variable {Q : α → L → σ → Prop} {X : E → L → σ → Prop} {l : L} {s : σ}

@[simp] theorem wp_pure (a : α) : wp W (pure a : Host C R L E α) Q X l s ↔ Q a l s := Iff.rfl

@[simp] theorem wp_throw (e : E) : wp W (throw e : Host C R L E α) Q X l s ↔ X e l s := Iff.rfl

@[simp] theorem wp_locals {Q : L → L → σ → Prop} : wp W (locals : Host C R L E L) Q X l s ↔ Q l l s := Iff.rfl

@[simp] theorem wp_assign (f : L → L) {Q : PUnit → L → σ → Prop} :
    wp W (assign f : Host C R L E PUnit) Q X l s ↔ Q ⟨⟩ (f l) s := Iff.rfl

@[simp] theorem wp_call (c : C) {Q : R c → L → σ → Prop} :
    wp W (call c : Host C R L E (R c)) Q X l s ↔ W.pre c s ∧ ∀ r s', W.answer s c r s' → Q r l s' := Iff.rfl

theorem wp_mono {Q' : α → L → σ → Prop} {X' : E → L → σ → Prop} {p : Host C R L E α} (h : wp W p Q X l s)
    (hQ : ∀ a l s, Q a l s → Q' a l s) (hX : ∀ e l s, X e l s → X' e l s) : wp W p Q' X' l s := by
  refine Prog.wp_mono (fun r s' hr => ?_) h
  rcases r with ⟨e | a, l'⟩
  · exact hX e l' s' hr
  · exact hQ a l' s' hr

@[simp] theorem wp_bind (p : Host C R L E α) (f : α → Host C R L E β) {Q : β → L → σ → Prop} :
    wp W (p >>= f) Q X l s ↔ wp W p (fun a => wp W (f a) Q X) X l s := by
  refine (Prog.wp_bind (p l) (andThen f) _ s).trans ?_
  constructor <;> refine Prog.wp_mono fun r s' hr => ?_
  · rcases r with ⟨e | a, l'⟩ <;> exact hr
  · rcases r with ⟨e | a, l'⟩ <;> exact hr

/-- Sequencing, from what the first function is known to establish. -/
theorem wp_seq {p : Host C R L E α} {f : α → Host C R L E β} {M : α → L → σ → Prop} {Y : E → L → σ → Prop}
    {Q : β → L → σ → Prop} (hp : wp W p M Y l s) (hf : ∀ a l s, M a l s → wp W (f a) Q X l s)
    (hY : ∀ e l s, Y e l s → X e l s) : wp W (p >>= f) Q X l s :=
  (wp_bind p f).mpr (wp_mono hp hf hY)

@[simp] theorem wp_tryCatch (p : Host C R L E α) (h : E → Host C R L E α) :
    wp W (tryCatch p h) Q X l s ↔ wp W p Q (fun e => wp W (h e) Q X) l s := by
  refine (Prog.wp_bind (p l) (orElse h) _ s).trans ?_
  constructor <;> refine Prog.wp_mono fun r s' hr => ?_
  · rcases r with ⟨e | a, l'⟩ <;> exact hr
  · rcases r with ⟨e | a, l'⟩ <;> exact hr

/-- The loop rule: what the body keeps on each of its items, and on a throw implies
`X`, the loop keeps. -/
theorem wp_forEach {ι : Type v} {f : ι → Host C R L E PUnit} {I : L → σ → Prop} {xs : List ι}
    (hf : ∀ x ∈ xs, ∀ l s, I l s → wp W (f x) (fun _ => I) X l s) (hI : I l s) :
    wp W (forEach f xs) (fun _ => I) X l s := by
  induction xs generalizing l s with
  | nil => exact hI
  | cons x xs ih =>
    refine (wp_bind (f x) _).mpr (wp_mono (hf x List.mem_cons_self l s hI) (fun _ l' s' h => ?_) fun _ _ _ h => h)
    exact ih (fun y hy => hf y (List.mem_cons_of_mem x hy)) h

/-- The rule for a loop whose body establishes `J` of what is its item's, and keeps it of everything else. -/
theorem wp_forEach_all {ι : Type v} {f : ι → Host C R L E PUnit} {I : L → σ → Prop} {κ : Type w} {J : κ → L → σ → Prop}
    {A : ι → κ → Prop} {xs : List ι}
    (hf : ∀ x ∈ xs, ∀ l s, I l s → wp W (f x) (fun _ l' s' => I l' s' ∧ ∀ y, A x y ∨ J y l s → J y l' s') X l s)
    (hI : I l s) :
    wp W (forEach f xs) (fun _ l' s' => I l' s' ∧ ∀ y, (∃ x ∈ xs, A x y) ∨ J y l s → J y l' s') X l s := by
  induction xs generalizing l s with
  | nil => exact ⟨hI, by simp⟩
  | cons x xs ih =>
    refine wp_seq (hf x List.mem_cons_self l s hI) ?_ fun _ _ _ h => h
    rintro _ l₁ s₁ ⟨h₁, hJ₁⟩
    refine wp_mono (ih (fun y hy => hf y (List.mem_cons_of_mem x hy)) h₁) ?_ fun _ _ _ h => h
    rintro _ l₂ s₂ ⟨h₂, hJ₂⟩
    refine ⟨h₂, fun y hy => hJ₂ y ?_⟩
    rcases hy with ⟨z, hz, hzy⟩ | hy
    · rcases List.mem_cons.mp hz with rfl | hz
      · exact .inr (hJ₁ y (.inl hzy))
      · exact .inl ⟨z, hz, hzy⟩
    · exact .inr (hJ₁ y (.inr hy))

/-- The rule for a loop over `0, …, n - 1`, whose invariant may depend on the counter. -/
theorem wp_forRange {f : ℕ → Host C R L E PUnit} {I : ℕ → L → σ → Prop} {n : ℕ}
    (hf : ∀ i < n, ∀ l s, I i l s → wp W (f i) (fun _ => I (i + 1)) X l s) (hI : I 0 l s) :
    wp W (forEach f (List.range n)) (fun _ => I n) X l s := by
  suffices ∀ m i l s, i + m = n → I i l s → wp W (forEach f (List.range' i m)) (fun _ => I n) X l s by
    rw [List.range_eq_range']
    exact this n 0 l s (Nat.zero_add n) hI
  intro m
  induction m with
  | zero => rintro i l s rfl hI; exact hI
  | succ m ih =>
    intro i l s him hI
    refine (wp_bind (f i) _).mpr (wp_mono (hf i (by omega) l s hI) (fun _ l' s' h => ?_) fun _ _ _ h => h)
    exact ih (i + 1) l' s' (by omega) h

/-- The rule for a counting loop: it ends with the first count that is not below `hi`. -/
theorem wp_forLoop {ι : Type u} {step hi : ℕ} [NeZero step] {f : ℕ → ι → Host C R L E ι} {I : ℕ → ι → L → σ → Prop}
    (hf : ∀ i < hi, ∀ b l s, I i b l s → wp W (f i b) (I (i + step)) X l s) {i : ℕ} {b : ι} (hi' : i < hi + step)
    (hI : I i b l s) :
    wp W (forLoop step hi f i b) (fun b l s => ∃ j, hi ≤ j ∧ j < hi + step ∧ I j b l s) X l s := by
  induction i, b using forLoop.induct step hi generalizing l s with
  | case1 i b hlt ih =>
    rw [forLoop, if_pos hlt]
    exact wp_seq (hf i hlt b l s hI) (fun b l s hI => ih b (Nat.add_lt_add_right hlt step) hI) fun _ _ _ h => h
  | case2 i b hge =>
    rw [forLoop, if_neg hge]
    exact ⟨i, Nat.le_of_not_lt hge, hi', hI⟩

/-- Calls that have been made stay made. -/
theorem wp_recorded_grows {ok : (c : C) → R c → Prop} (p : Host C R L E α) (l : L) (s : List ((c : C) × R c)) :
    wp (World.recorded (fun _ => True) ok) p (fun _ _ s' => s ⊆ s') (fun _ _ s' => s ⊆ s') l s := by
  refine Prog.wp_mono (fun r s' h => ?_) (Prog.wp_recorded_grows (p l) s)
  rcases r with ⟨e | a, l'⟩ <;> exact h

/-! ### What a function may do -/

variable {γ : Type v} {g : L → γ}

/-- All the calls `p` may make satisfy `P`, and it leaves what `g` reads of the local
variables as it is. -/
def Within (P : C → Prop) (g : L → γ) (p : Host C R L E α) : Prop := ∀ l, (p l).Within P fun r => g r.2 = g l

@[simp] theorem within_pure (a : α) : (pure a : Host C R L E α).Within P g := fun _ => rfl

@[simp] theorem within_throw (e : E) : (throw e : Host C R L E α).Within P g := fun _ => rfl

@[simp] theorem within_locals : (locals : Host C R L E L).Within P g := fun _ => rfl

@[simp] theorem within_assign {f : L → L} (h : ∀ l, g (f l) = g l) : (assign f : Host C R L E PUnit).Within P g := h

@[simp] theorem within_call {c : C} (h : P c) : (call c : Host C R L E (R c)).Within P g := fun _ => ⟨h, fun _ => rfl⟩

theorem within_bind {p : Host C R L E α} {f : α → Host C R L E β} (hp : p.Within P g) (hf : ∀ a, (f a).Within P g) :
    (p >>= f).Within P g := by
  refine fun l => (hp l).bind fun r hr => ?_
  rcases r with ⟨e | a, l'⟩
  · exact hr
  · exact (hf a l').mono (fun _ h => h) fun _ h => h.trans hr

theorem within_forEach {ι : Type w} {f : ι → Host C R L E PUnit} {xs : List ι} (hf : ∀ x ∈ xs, (f x).Within P g) :
    (forEach f xs).Within P g := by
  induction xs with
  | nil => exact within_pure _
  | cons x xs ih =>
    exact within_bind (hf x List.mem_cons_self) fun _ => ih fun y hy => hf y (List.mem_cons_of_mem x hy)

theorem within_tryCatch {p : Host C R L E α} {h : E → Host C R L E α} (hp : p.Within P g)
    (hh : ∀ e, (h e).Within P g) : (tryCatch p h).Within P g := by
  refine fun l => (hp l).bind fun r hr => ?_
  rcases r with ⟨e | a, l'⟩
  · exact (hh e l').mono (fun _ h => h) fun _ h => h.trans hr
  · exact hr

theorem Within.mono {δ : Type w} {g' : L → δ} {p : Host C R L E α} (hP : ∀ c, P c → P' c)
    (hg : ∀ l l', g l' = g l → g' l' = g' l) (hp : p.Within P g) : p.Within P' g' :=
  fun l => (hp l).mono hP fun _ h => hg _ _ h

/-- What every call of a function keeps, the function keeps, also when it throws. -/
theorem wp_of_within {I : σ → Prop} {p : Host C R L E α}
    (hI : ∀ c s, P c → I s → W.pre c s ∧ ∀ r s', W.answer s c r s' → I s') (hp : p.Within P g) (hs : I s) :
    wp W p (fun _ l' s' => g l' = g l ∧ I s') (fun _ l' s' => g l' = g l ∧ I s') l s := by
  refine Prog.wp_mono (fun r s' hs' => ?_) (Prog.wp_of_within hI (hp l) hs)
  rcases r with ⟨e | a, l'⟩ <;> exact hs'

/-- `p` does not throw. -/
def Returns (p : Host C R L E α) : Prop := ∀ l, (p l).Within (fun _ => True) fun r => ∃ a, r.1 = .ok a

theorem returns_pure (a : α) : (pure a : Host C R L E α).Returns := fun _ => ⟨a, rfl⟩

theorem returns_locals : (locals : Host C R L E L).Returns := fun l => ⟨l, rfl⟩

theorem returns_assign (f : L → L) : (assign f : Host C R L E PUnit).Returns := fun _ => ⟨⟨⟩, rfl⟩

theorem returns_call (c : C) : (call c : Host C R L E (R c)).Returns := fun _ => ⟨trivial, fun r => ⟨r, rfl⟩⟩

theorem returns_bind {p : Host C R L E α} {f : α → Host C R L E β} (hp : p.Returns) (hf : ∀ a, (f a).Returns) :
    (p >>= f).Returns := by
  refine fun l => (hp l).bind ?_
  rintro ⟨r, l'⟩ ⟨a, rfl⟩
  exact hf a l'

theorem returns_forEach {ι : Type w} {f : ι → Host C R L E PUnit} {xs : List ι} (hf : ∀ x ∈ xs, (f x).Returns) :
    (forEach f xs).Returns := by
  induction xs with
  | nil => exact returns_pure _
  | cons x xs ih =>
    exact returns_bind (hf x List.mem_cons_self) fun _ => ih fun y hy => hf y (List.mem_cons_of_mem x hy)

/-- Of a function that does not throw, what is said of a throw does not matter. -/
theorem Returns.wp {p : Host C R L E α} (hp : p.Returns) (h : wp W p Q X l s) : wp W p Q (fun _ _ _ => False) l s := by
  refine Prog.wp_mono ?_ ((hp l).wp h)
  rintro ⟨r, l'⟩ s' ⟨⟨a, rfl⟩, h⟩
  exact h

/-- Whatever `p` returns satisfies `B`. -/
def Yields (B : α → Prop) (p : Host C R L E α) : Prop :=
  ∀ l, (p l).Within (fun _ => True) fun r => ∀ a, r.1 = .ok a → B a

theorem yields_trivial (p : Host C R L E α) : p.Yields fun _ => True := by
  intro l
  induction p l with
  | pure r => exact fun _ _ => trivial
  | call c k ih => exact ⟨trivial, ih⟩

theorem yields_pure {B : α → Prop} {a : α} (h : B a) : (pure a : Host C R L E α).Yields B := by
  rintro l _ ⟨⟩
  exact h

theorem yields_bind {B : α → Prop} {D : β → Prop} {p : Host C R L E α} {f : α → Host C R L E β} (hp : p.Yields B)
    (hf : ∀ a, B a → (f a).Yields D) : (p >>= f).Yields D := by
  intro l
  refine (hp l).bind ?_
  rintro ⟨e | a, l'⟩ h
  · intro b hb
    cases hb
  · exact hf a (h a rfl) l'

/-- Where only what comes last matters. -/
theorem yields_of_then {D : β → Prop} {p : Host C R L E α} {f : α → Host C R L E β} (hf : ∀ a, (f a).Yields D) :
    (p >>= f).Yields D :=
  yields_bind (yields_trivial p) fun a _ => hf a

/-- What is returned satisfies `B`, besides all that is known in a world. -/
theorem Yields.wp {B : α → Prop} {p : Host C R L E α} (hp : p.Yields B) (h : wp W p Q X l s) :
    wp W p (fun a l s => B a ∧ Q a l s) X l s := by
  refine Prog.wp_mono ?_ ((hp l).wp h)
  rintro ⟨e | a, l'⟩ s' ⟨hB, h⟩
  · exact h
  · exact ⟨hB a rfl, h⟩

/-! ### What happens when the calls succeed -/

section

variable {pre : C → Prop} {ok : (c : C) → R c → Prop} {B : α → Prop} {B' : β → Prop}

/-- Whenever the answers satisfy `ok`, `p` makes calls that satisfy `pre`, and returns a value
that satisfies `B`. -/
def Proceeds (pre : C → Prop) (ok : (c : C) → R c → Prop) (B : α → Prop) (p : Host C R L E α) : Prop :=
  ∀ l s, wp (World.recorded pre ok) p (fun a _ s' => s ⊆ s' ∧ B a) (fun _ _ _ => False) l s

theorem proceeds_pure {a : α} (h : B a) : (pure a : Host C R L E α).Proceeds pre ok B :=
  fun _ s => ⟨List.Subset.refl s, h⟩

theorem proceeds_locals : (locals : Host C R L E L).Proceeds pre ok fun _ => True :=
  fun _ s => ⟨List.Subset.refl s, trivial⟩

theorem proceeds_assign (f : L → L) : (assign f : Host C R L E PUnit).Proceeds pre ok fun _ => True :=
  fun _ s => ⟨List.Subset.refl s, trivial⟩

theorem proceeds_call {c : C} (h : pre c) : (call c : Host C R L E (R c)).Proceeds pre ok (ok c) := by
  refine fun _ s => ⟨h, ?_⟩
  rintro r _ ⟨hr, rfl⟩
  exact ⟨List.subset_append_left s _, hr⟩

theorem proceeds_bind {p : Host C R L E α} {f : α → Host C R L E β} (hp : p.Proceeds pre ok B)
    (hf : ∀ a, B a → (f a).Proceeds pre ok B') : (p >>= f).Proceeds pre ok B' := by
  refine fun l s => wp_seq (hp l s) ?_ fun _ _ _ h => h
  rintro a l s' ⟨hs, ha⟩
  exact wp_mono (hf a ha l s') (fun _ _ _ h => ⟨List.Subset.trans hs h.1, h.2⟩) fun _ _ _ h => h

theorem proceeds_tryCatch {p : Host C R L E α} (h : E → Host C R L E α) (hp : p.Proceeds pre ok B) :
    (tryCatch p h).Proceeds pre ok B := by
  intro l s
  rw [wp_tryCatch]
  exact wp_mono (hp l s) (fun _ _ _ h => h) fun _ _ _ h => h.elim

theorem proceeds_forEach {ι : Type v} {f : ι → Host C R L E PUnit} {xs : List ι}
    (hf : ∀ x ∈ xs, (f x).Proceeds pre ok fun _ => True) : (forEach f xs).Proceeds pre ok fun _ => True := by
  induction xs with
  | nil => exact proceeds_pure trivial
  | cons x xs ih =>
    exact proceeds_bind (hf x List.mem_cons_self) fun _ _ => ih fun y hy => hf y (List.mem_cons_of_mem x hy)

theorem Proceeds.mono {B'' : α → Prop} {p : Host C R L E α} (hp : p.Proceeds pre ok B) (hB : ∀ a, B a → B'' a) :
    p.Proceeds pre ok B'' :=
  fun l s => wp_mono (hp l s) (fun a _ _ h => ⟨h.1, hB a h.2⟩) fun _ _ _ h => h

end

end Host

end Gbis.Library
