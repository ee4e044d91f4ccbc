import Gbis.Core.Objects

/-!
# Every allocation has one owner

What the operations on buffers do, as functions on the objects and the allocations (`Effect`),
and that the members of the two classes do just that (`Lawful`, `run_effect`). So in every state
that is reached the objects own all that is live, each allocation one object (`Owned`), and an
operation frees nothing but what its own object holds, and no other. Every operation comes to its
end (`exists_step`).

`operator=` leaves an object that is assigned to itself as it is; without its test it would free
the allocation and go on to hold it.
-/

namespace Gbis.Core

open Sched Library

namespace BufferClass

variable {B : Type} [Inhabited B] {K : BufferClass B} {s t : Storage B} {l : Objects B} {h : Heap Addr}
  {i j count : ℕ} {op : Op} {r : Except Exn Status}

/-! ### What the operations do -/

section

variable (K)

/-- An empty object is created. -/
def created (s : Storage B) (i : ℕ) : Storage B := ⟨Function.update s.objects i (some K.empty), s.heap⟩

/-- An object gives back what it holds. -/
def emptied (s : Storage B) (i : ℕ) : Storage B :=
  ⟨Function.update s.objects i (some K.empty), s.heap.giveBack (K.held s.objects i)⟩

/-- An object takes an allocation. -/
def filled (s : Storage B) (i count p : ℕ) : Storage B :=
  ⟨Function.update s.objects i (some (K.make (some p) count)), s.heap.alloc (K.space, p)⟩

/-- An object takes over what another one holds. -/
def moved (s : Storage B) (i other : ℕ) : Storage B :=
  ⟨Function.update (Function.update s.objects i (s.objects other)) other (some K.empty), s.heap⟩

/-- An object is destroyed. -/
def removed (s : Storage B) (i : ℕ) : Storage B := ⟨Function.update s.objects i none, s.heap⟩

/-- An object has been emptied, and has been given an allocation that was not in use, unless nothing was asked for. -/
def Obtains (s : Storage B) (i count : ℕ) (t : Storage B) : Prop :=
  if count = 0 then t = K.emptied s i
  else ∃ p, (K.emptied s i).heap.live (K.space, p) = none ∧ t = K.filled (K.emptied s i) i count p

/-- **What an operation does**, and returns or throws. -/
def Effect (s : Storage B) (op : Op) (r : Except Exn Status) (t : Storage B) : Prop :=
  match op with
  | .construct i => r = .ok (.ok ()) ∧ t = K.created s i
  | .construct_sized i count =>
    r = .ok (.ok ()) ∧ K.Obtains (K.created s i) i count t ∨ (∃ e, r = .error e) ∧ t = s
  | .construct_move i other => r = .ok (.ok ()) ∧ t = K.moved s i other
  | .assign_move this other =>
    r = .ok (.ok ()) ∧ t = if this = other then s else K.moved (K.emptied s this) this other
  | .try_allocate i count =>
    r = .ok (.ok ()) ∧ K.Obtains s i count t ∨ (∃ err, r = .ok (.error err)) ∧ t = K.emptied s i
  | .allocate i count => r = .ok (.ok ()) ∧ K.Obtains s i count t ∨ (∃ e, r = .error e) ∧ t = K.emptied s i
  | .release i => r = .ok (.ok ()) ∧ t = K.emptied s i
  | .destroy i => r = .ok (.ok ()) ∧ t = removed (K.emptied s i) i

end

/-- The members of a class are what they should be. -/
structure Lawful (K : BufferClass B) : Prop where
  data_make : ∀ p n, K.data_ (K.make p n) = p
  count_make : ∀ p n, K.count_ (K.make p n) = n
  make_eta : ∀ b, K.make (K.data_ b) (K.count_ b) = b
  release : ∀ {may : Addr → Prop} {l : Objects B} {h : Heap Addr} {i : ℕ}, l i ≠ none →
    (∀ a ∈ K.held l i, h.live a ≠ none ∧ may a) →
      (K.release (object i)).wp (allocator may) (fun _ l' h' => (⟨l', h'⟩ : Storage B) = K.emptied ⟨l, h⟩ i)
        (fun _ _ _ => False) l h
  allocate : ∀ {may : Addr → Prop} {l : Objects B} {h : Heap Addr} {i : ℕ} (count : ℕ), l i ≠ none →
    (∀ a ∈ K.held l i, h.live a ≠ none ∧ may a) →
      (K.allocate (object i) count).wp (allocator may) (fun _ l' h' => K.Obtains ⟨l, h⟩ i count ⟨l', h'⟩)
        (fun _ l' h' => (⟨l', h'⟩ : Storage B) = K.emptied ⟨l, h⟩ i) l h
  try_allocate : ∀ {may : Addr → Prop} {l : Objects B} {h : Heap Addr} {i : ℕ} (count : ℕ), l i ≠ none →
    (∀ a ∈ K.held l i, h.live a ≠ none ∧ may a) → ∀ f ∈ K.try_allocate,
      (f (object i) count).wp (allocator may)
        (fun r l' h' => r = .ok () ∧ K.Obtains ⟨l, h⟩ i count ⟨l', h'⟩ ∨
          (∃ err, r = .error err) ∧ (⟨l', h'⟩ : Storage B) = K.emptied ⟨l, h⟩ i)
        (fun _ _ _ => False) l h

/-! ### The two classes -/

variable {may : Addr → Prop}

/-- A member `release` that frees what the object holds, and empties it. -/
theorem release_rule {free : B → HostM (Objects B) Unit}
    (hfree : ∀ b, (∀ a ∈ (K.data_ b).map fun p => (K.space, p), h.live a ≠ none ∧ may a) →
      (free b).wp (allocator may)
        (fun _ l' h' => l' = l ∧ h' = h.giveBack ((K.data_ b).map fun p => (K.space, p))) (fun _ _ _ => False) l h)
    (hi : l i ≠ none) (hmay : ∀ a ∈ K.held l i, h.live a ≠ none ∧ may a) :
    (do
      let l ← Host.locals
      free ((object i).get l)
      Host.assign ((object i).set K.empty) : HostM (Objects B) Unit).wp (allocator may)
        (fun _ l' h' => (⟨l', h'⟩ : Storage B) = K.emptied ⟨l, h⟩ i) (fun _ _ _ => False) l h := by
  obtain ⟨b, hb⟩ := Option.ne_none_iff_exists'.mp hi
  have hheld := K.held_eq hb
  rw [hheld] at hmay
  rw [Host.wp_bind, Host.wp_locals, object_get hb]
  refine Host.wp_seq (hfree b hmay) ?_ fun _ _ _ h => h
  intro _ l' h' hend
  obtain ⟨rfl, rfl⟩ := hend
  rw [Host.wp_assign, emptied, hheld]
  rfl

end BufferClass

namespace DeviceBuffer

open BufferClass

variable {may : Addr → Prop} {l : Objects DeviceBuffer} {h : Heap Addr} {i : ℕ} (sizeof_T : ℕ)

theorem free_frees (b : DeviceBuffer) (hmay : ∀ a ∈ b.data_.map fun p => (Space.device, p), h.live a ≠ none ∧ may a) :
    (free b).wp (allocator may) (fun _ l' h' => l' = l ∧ h' = h.giveBack (b.data_.map fun p => (Space.device, p)))
      (fun _ _ _ => False) l h := by
  unfold free
  cases hb : b.data_ with
  | none => exact ⟨rfl, rfl⟩
  | some p =>
    rw [hb] at hmay
    refine ⟨hmay, ?_⟩
    intro _ h' hend
    exact ⟨rfl, hend.2⟩

theorem release_empties (hi : l i ≠ none) (hmay : ∀ a ∈ (ofType sizeof_T).held l i, h.live a ≠ none ∧ may a) :
    (release (object i)).wp (allocator may)
      (fun _ l' h' => (⟨l', h'⟩ : Storage DeviceBuffer) = (ofType sizeof_T).emptied ⟨l, h⟩ i) (fun _ _ _ => False)
        l h :=
  release_rule (K := ofType sizeof_T) free_frees hi hmay

theorem try_allocate_obtains (count : ℕ) (hi : l i ≠ none)
    (hmay : ∀ a ∈ (ofType sizeof_T).held l i, h.live a ≠ none ∧ may a) :
    (try_allocate_of sizeof_T (object i) count).wp (allocator may)
      (fun r l' h' => r = .ok () ∧ (ofType sizeof_T).Obtains ⟨l, h⟩ i count ⟨l', h'⟩ ∨
        (∃ err, r = .error err) ∧ (⟨l', h'⟩ : Storage DeviceBuffer) = (ofType sizeof_T).emptied ⟨l, h⟩ i)
      (fun _ _ _ => False) l h := by
  unfold try_allocate_of
  refine Host.wp_seq (release_empties sizeof_T hi hmay) ?_ fun _ _ _ h => h
  intro _ l₁ h₁ hs
  unfold Obtains
  rw [← hs]
  split_ifs with hc
  · exact .inl ⟨rfl, rfl⟩
  · rw [Host.wp_bind, Host.wp_call]
    refine ⟨by simp [allocator, frees], ?_⟩
    intro answer h₂ hanswer
    obtain ⟨hunused, rfl⟩ := hanswer
    cases answer with
    | error err =>
      -- the object is emptied again
      obtain ⟨rfl, rfl⟩ := Storage.mk.inj hs
      exact .inr ⟨⟨err, rfl⟩, congrArg (Storage.mk · _) (Function.update_idem _ _ _)⟩
    | ok p => exact .inl ⟨rfl, p, hunused, rfl⟩

theorem allocate_obtains (count : ℕ) (hi : l i ≠ none)
    (hmay : ∀ a ∈ (ofType sizeof_T).held l i, h.live a ≠ none ∧ may a) :
    (allocate_of sizeof_T (object i) count).wp (allocator may)
      (fun _ l' h' => (ofType sizeof_T).Obtains ⟨l, h⟩ i count ⟨l', h'⟩)
      (fun _ l' h' => (⟨l', h'⟩ : Storage DeviceBuffer) = (ofType sizeof_T).emptied ⟨l, h⟩ i) l h := by
  unfold allocate_of
  refine Host.wp_seq (try_allocate_obtains sizeof_T count hi hmay) ?_ fun _ _ _ h => h.elim
  intro r l' h' hr
  rcases hr with ⟨rfl, hr⟩ | ⟨⟨err, rfl⟩, hr⟩
  · exact hr
  · exact hr

theorem lawful : (ofType sizeof_T).Lawful where
  data_make _ _ := rfl
  count_make _ _ := rfl
  make_eta _ := rfl
  release := release_empties sizeof_T
  allocate := allocate_obtains sizeof_T
  try_allocate := by
    intro may l h i count hi hmay f hf
    cases hf
    exact try_allocate_obtains sizeof_T count hi hmay

end DeviceBuffer

namespace PinnedHostBuffer

open BufferClass

variable {may : Addr → Prop} {l : Objects PinnedHostBuffer} {h : Heap Addr} {i : ℕ} (sizeof_T : ℕ)

theorem free_frees (b : PinnedHostBuffer)
    (hmay : ∀ a ∈ b.data_.map fun p => (Space.pinned, p), h.live a ≠ none ∧ may a) :
    (free b).wp (allocator may) (fun _ l' h' => l' = l ∧ h' = h.giveBack (b.data_.map fun p => (Space.pinned, p)))
      (fun _ _ _ => False) l h := by
  unfold free
  cases hb : b.data_ with
  | none => exact ⟨rfl, rfl⟩
  | some p =>
    rw [hb] at hmay
    refine ⟨hmay, ?_⟩
    intro _ h' hend
    exact ⟨rfl, hend.2⟩

theorem release_empties (hi : l i ≠ none) (hmay : ∀ a ∈ (ofType sizeof_T).held l i, h.live a ≠ none ∧ may a) :
    (release (object i)).wp (allocator may)
      (fun _ l' h' => (⟨l', h'⟩ : Storage PinnedHostBuffer) = (ofType sizeof_T).emptied ⟨l, h⟩ i) (fun _ _ _ => False)
        l h :=
  release_rule (K := ofType sizeof_T) free_frees hi hmay

theorem allocate_obtains (count : ℕ) (hi : l i ≠ none)
    (hmay : ∀ a ∈ (ofType sizeof_T).held l i, h.live a ≠ none ∧ may a) :
    (allocate_of sizeof_T (object i) count).wp (allocator may)
      (fun _ l' h' => (ofType sizeof_T).Obtains ⟨l, h⟩ i count ⟨l', h'⟩)
      (fun _ l' h' => (⟨l', h'⟩ : Storage PinnedHostBuffer) = (ofType sizeof_T).emptied ⟨l, h⟩ i) l h := by
  unfold allocate_of
  refine Host.wp_seq (release_empties sizeof_T hi hmay) ?_ fun _ _ _ h => h.elim
  intro _ l₁ h₁ hs
  unfold Obtains
  rw [← hs]
  split_ifs with hc
  · rfl
  · rw [Host.wp_bind, Host.wp_call]
    refine ⟨by simp [allocator, frees], ?_⟩
    intro answer h₂ hanswer
    obtain ⟨hunused, rfl⟩ := hanswer
    cases answer with
    | error err => rfl
    | ok p => exact ⟨p, hunused, rfl⟩

theorem lawful : (ofType sizeof_T).Lawful where
  data_make _ _ := rfl
  count_make _ _ := rfl
  make_eta _ := rfl
  release := release_empties sizeof_T
  allocate := allocate_obtains sizeof_T
  try_allocate := by
    intro may l h i count hi hmay f hf
    cases hf

end PinnedHostBuffer

namespace BufferClass

variable {B : Type} {K : BufferClass B} {s t : Storage B} {i j count p : ℕ} {op : Op}
  {r : Except Exn Status}

/-! ### The owners -/

/-- What an object owns. -/
def owned (K : BufferClass B) (b : Option B) : Option (Addr × Unit) :=
  along () (b.bind fun b => (K.data_ b).map fun p => (K.space, p))

/-- An object without an allocation has size zero, and no other has. -/
def Sized (K : BufferClass B) (l : Objects B) : Prop := ∀ i b, l i = some b → (K.data_ b = none ↔ K.count_ b = 0)

/-- The objects own all that is live, each allocation one object. -/
structure Owned (K : BufferClass B) (s : Storage B) : Prop where
  owners : Owners (fun i => K.owned (s.objects i)) s.heap.held
  sound : s.heap.Sound
  sized : K.Sized s.objects

theorem owned_eq_some_iff {l : Objects B} {a : Addr} : K.owned (l i) = some (a, ()) ↔ K.held l i = some a := by
  change along () (K.held l i) = some (a, ()) ↔ _
  cases K.held l i <;> simp [along]

theorem owned_eq_none_iff {l : Objects B} : K.owned (l i) = none ↔ K.held l i = none :=
  along_eq_none_iff

/-- What an object holds is live, and no other object holds it. -/
theorem Owned.mayFree (h : Owned K s) {a : Addr} (ha : K.held s.objects i = some a) :
    s.heap.live a ≠ none ∧ K.mayFree s.objects i a := by
  have hlive := (h.owners.live_iff a ()).mpr ⟨i, owned_eq_some_iff.mpr ha⟩
  constructor
  · intro hn
    simp [Heap.held, hn] at hlive
  · intro j
    constructor
    · intro hj
      exact h.owners.inj j i a () () (owned_eq_some_iff.mpr hj) (owned_eq_some_iff.mpr ha)
    · intro hj
      rw [hj, ha]

/-- What is live is held by one object. -/
theorem Owned.existsUnique (h : Owned K s) {a : Addr} {n : ℕ} (ha : s.heap.live a = some n) :
    ∃! i, K.held s.objects i = some a := by
  obtain ⟨i, hi⟩ := (h.owners.live_iff a ()).mp (by simp [Heap.held, ha])
  have hheld := owned_eq_some_iff.mp hi
  exact ⟨i, hheld, fun j hj => (((h.mayFree hheld).2) j).mp hj⟩

theorem Sized.update {l : Objects B} (h : K.Sized l) {x : Option B}
    (hx : ∀ b, x = some b → (K.data_ b = none ↔ K.count_ b = 0)) (i : ℕ) : K.Sized (Function.update l i x) := by
  intro j b hb
  by_cases hj : j = i
  · rw [hj, Function.update_self] at hb
    exact hx b hb
  · rw [Function.update_of_ne hj] at hb
    exact h j b hb

theorem Owned.removed (h : Owned K s) (hi : K.held s.objects i = none) : Owned K (removed s i) := by
  constructor
  case owners =>
    unfold BufferClass.removed
    rw [own_update, Function.update_eq_self_iff.mpr (owned_eq_none_iff.mpr hi).symm]
    exact h.owners
  case sound => exact h.sound
  case sized => exact h.sized.update (fun b hb => by cases hb) i

variable [Inhabited B]

theorem Lawful.owned_empty (hK : K.Lawful) : K.owned (some K.empty) = none := by
  simp [owned, empty, hK.data_make]

theorem Lawful.owned_make (hK : K.Lawful) (p n : ℕ) :
    K.owned (some (K.make (some p) n)) = some ((K.space, p), ()) := by
  simp [owned, hK.data_make]

theorem Lawful.sized_empty (hK : K.Lawful) (b : B) (hb : some K.empty = some b) : K.data_ b = none ↔ K.count_ b = 0 := by
  cases hb
  simp [empty, hK.data_make, hK.count_make]

theorem Owned.created (h : Owned K s) (hK : K.Lawful) (hi : s.objects i = none) : Owned K (K.created s i) := by
  constructor
  case owners =>
    unfold BufferClass.created
    rw [own_update, hK.owned_empty, Function.update_eq_self_iff.mpr (by simp [hi, owned])]
    exact h.owners
  case sound => exact h.sound
  case sized => exact h.sized.update hK.sized_empty i

theorem Owned.emptied (h : Owned K s) (hK : K.Lawful) (i : ℕ) : Owned K (K.emptied s i) := by
  constructor
  case owners =>
    have hrelease := h.owners.release_slot i hK.owned_empty
    rwa [owned, map_fst_along, ← held, ← Heap.held_giveBack] at hrelease
  case sound => exact h.sound.giveBack fun a ha => (h.mayFree ha).1
  case sized => exact h.sized.update hK.sized_empty i

theorem Owned.filled (h : Owned K s) (hK : K.Lawful) (hi : K.held s.objects i = none)
    (hp : s.heap.live (K.space, p) = none) (hc : count ≠ 0) : Owned K (K.filled s i count p) := by
  constructor
  case owners =>
    have hacquire := h.owners.acquire_slot (owned_eq_none_iff.mpr hi) (by simp [Heap.held, hp]) (hK.owned_make p count)
    rwa [← Heap.held_alloc] at hacquire
  case sound => exact h.sound.alloc hp
  case sized =>
    refine h.sized.update ?_ i
    intro b hb
    cases hb
    simp [hK.data_make, hK.count_make, hc]

theorem Owned.moved (h : Owned K s) (hK : K.Lawful) (hi : K.held s.objects i = none) (hij : i ≠ j) :
    Owned K (K.moved s i j) := by
  have hnone : K.owned (s.objects i) = none := owned_eq_none_iff.mpr hi
  have howned : (fun k => K.owned ((K.moved s i j).objects k)) = (fun k => K.owned (s.objects k)) ∘ Equiv.swap i j := by
    unfold BufferClass.moved
    rw [own_update, hK.owned_empty, own_update]
    funext k
    by_cases hkj : k = j
    · simp [hkj, hnone]
    · by_cases hki : k = i
      · simp [hki, Function.update_of_ne hij]
      · simp [hkj, hki, Equiv.swap_apply_of_ne_of_ne hki hkj]
  constructor
  case owners =>
    rw [howned]
    exact h.owners.swap i j
  case sound => exact h.sound
  case sized => exact (h.sized.update (h.sized j) i).update hK.sized_empty j

/-! ### The operations -/

theorem held_emptied (hK : K.Lawful) (s : Storage B) (i : ℕ) : K.held (K.emptied s i).objects i = none := by
  rw [← owned_eq_none_iff]
  simp [emptied, hK.owned_empty]

theorem Owned.obtains (h : Owned K s) (hK : K.Lawful) (ht : K.Obtains s i count t) : Owned K t := by
  unfold Obtains at ht
  split_ifs at ht with hc
  · rw [ht]
    exact h.emptied hK i
  · obtain ⟨p, hp, rfl⟩ := ht
    exact (h.emptied hK i).filled hK (held_emptied hK s i) hp hc

/-- **Every operation keeps the owners.** -/
theorem Owned.effect (h : Owned K s) (hK : K.Lawful) (hop : K.Permits s.objects op) (he : K.Effect s op r t) :
    Owned K t := by
  cases op with
  | construct i =>
    rw [he.2]
    exact h.created hK hop
  | construct_sized i count =>
    rcases he with ⟨-, he⟩ | ⟨-, rfl⟩
    · exact (h.created hK hop).obtains hK he
    · exact h
  | construct_move i other =>
    have hi : K.held s.objects i = none := by simp [held, hop.1]
    rw [he.2]
    exact h.moved hK hi fun hij => hop.2 (hij ▸ hop.1)
  | assign_move this other =>
    rw [he.2]
    split_ifs with heq
    · exact h
    · exact (h.emptied hK this).moved hK (held_emptied hK s this) heq
  | try_allocate i count =>
    rcases he with ⟨-, he⟩ | ⟨-, rfl⟩
    · exact h.obtains hK he
    · exact h.emptied hK i
  | allocate i count =>
    rcases he with ⟨-, he⟩ | ⟨-, rfl⟩
    · exact h.obtains hK he
    · exact h.emptied hK i
  | release i =>
    rw [he.2]
    exact h.emptied hK i
  | destroy i =>
    rw [he.2]
    exact (h.emptied hK i).removed (held_emptied hK s i)

theorem held_created (hK : K.Lawful) (l : Objects B) (i : ℕ) : K.held (Function.update l i (some K.empty)) i = none := by
  rw [← owned_eq_none_iff, Function.update_self, hK.owned_empty]

/-- What an object holds goes over to another one. -/
theorem take_moves (hK : K.Lawful) {may : Addr → Prop} {l : Objects B} {h : Heap Addr} (hj : l j ≠ none) :
    (K.take i j).wp (allocator may) (fun _ l' h' => (⟨l', h'⟩ : Storage B) = K.moved ⟨l, h⟩ i j) (fun _ _ _ => False)
      l h := by
  obtain ⟨b, hb⟩ := Option.ne_none_iff_exists'.mp hj
  unfold take moved
  rw [Host.wp_bind, Host.wp_locals, object_get hb]
  dsimp only
  rw [hK.make_eta, Host.wp_bind, Host.wp_assign, Host.wp_assign, hb]
  rfl

/-- **The members do what they should**, and free nothing else on the way. -/
theorem run_effect (hK : K.Lawful) (h : Owned K s) (hop : K.Permits s.objects op) :
    (K.run op).wp (allocator (K.mayFree s.objects op.this)) (fun r l h => K.Effect s op (.ok r) ⟨l, h⟩)
      (fun e l h => K.Effect s op (.error e) ⟨l, h⟩) s.objects s.heap := by
  have hmay : ∀ a ∈ K.held s.objects op.this, s.heap.live a ≠ none ∧ K.mayFree s.objects op.this a :=
    fun a ha => h.mayFree ha
  cases op with
  | construct i => exact ⟨rfl, rfl⟩
  | construct_sized i count =>
    have hheld := held_created hK s.objects i
    unfold run construct_sized
    rw [Host.wp_bind, Host.wp_bind, construct, Host.wp_assign, Host.wp_tryCatch]
    refine Host.wp_mono (hK.allocate count (by simp [object]) (by simp [object, hheld])) ?_ ?_
    · intro _ l h hobtains
      exact .inl ⟨rfl, hobtains⟩
    · intro e l h hempty
      -- the object is gone, and it has held nothing
      obtain ⟨rfl, rfl⟩ := Storage.mk.inj hempty
      refine .inr ⟨⟨e, rfl⟩, ?_⟩
      have hgone : Function.update s.objects i none = s.objects := Function.update_eq_self_iff.mpr hop.symm
      simp [object, hheld, hgone, Heap.giveBack]
  | construct_move i other =>
    unfold run
    rw [Host.wp_bind]
    refine Host.wp_mono (take_moves hK hop.2) ?_ fun _ _ _ h => h.elim
    intro _ l h hmoved
    exact ⟨rfl, hmoved⟩
  | assign_move this other =>
    rw [run, Host.wp_bind, assign_move]
    split_ifs with hne
    · rw [Host.wp_bind]
      refine Host.wp_mono (hK.release hop.1 hmay) ?_ fun _ _ _ h => h.elim
      intro _ l h hempty
      obtain ⟨rfl, rfl⟩ := Storage.mk.inj hempty
      refine Host.wp_mono (take_moves hK ?_) ?_ fun _ _ _ h => h.elim
      · simpa [Function.update_of_ne (Ne.symm hne)] using hop.2
      · intro _ l h hmoved
        exact ⟨rfl, hmoved.trans (if_neg hne).symm⟩
    · exact ⟨rfl, (if_pos (not_not.mp hne)).symm⟩
  | try_allocate i count =>
    obtain ⟨f, hf⟩ := Option.isSome_iff_exists.mp hop.2
    unfold run
    rw [hf]
    refine Host.wp_mono (hK.try_allocate count hop.1 hmay f hf) ?_ fun _ _ _ h => h.elim
    intro r l h hr
    rcases hr with ⟨rfl, hr⟩ | ⟨⟨err, rfl⟩, hr⟩
    · exact .inl ⟨rfl, hr⟩
    · exact .inr ⟨⟨err, rfl⟩, hr⟩
  | allocate i count =>
    unfold run
    rw [Host.wp_bind]
    refine Host.wp_mono (hK.allocate count hop hmay) ?_ ?_
    · intro _ l h hobtains
      exact .inl ⟨rfl, hobtains⟩
    · intro e l h hempty
      exact .inr ⟨⟨e, rfl⟩, hempty⟩
  | release i =>
    unfold run
    rw [Host.wp_bind]
    refine Host.wp_mono (hK.release hop hmay) ?_ fun _ _ _ h => h.elim
    intro _ l h hempty
    exact ⟨rfl, hempty⟩
  | destroy i =>
    unfold run destroy
    rw [Host.wp_bind, Host.wp_bind]
    refine Host.wp_mono (hK.release hop hmay) ?_ fun _ _ _ h => h.elim
    intro _ l h hempty
    obtain ⟨rfl, rfl⟩ := Storage.mk.inj hempty
    exact ⟨rfl, rfl⟩

/-! ### Runs -/

/-- In a state with its owners, a step does what its operation does. -/
theorem Owned.step (h : Owned K s) (hK : K.Lawful) (hstep : K.buffers.step s (op, r) t) : K.Effect s op r t := by
  have hwp := wp_exec hstep.2 (run_effect hK h hstep.1)
  cases r with
  | error e => exact hwp
  | ok status => exact hwp

/-- **In every state that is reached** the objects own all that is live, each allocation one object. -/
theorem owned_of_reachable (hK : K.Lawful) (h : Reachable K.buffers Always s) : Owned K s := by
  refine h.invariant (I := Owned K) ?_ ?_
  · intro s hinit
    obtain rfl : s = {} := hinit
    exact ⟨owners_of_empty (fun _ => rfl) fun _ => rfl, Heap.sound_empty, fun i b hb => by cases hb⟩
  · intro s a t _ hs hstep _
    exact hs.effect hK hstep.1 (hs.step hK hstep)

/-- **No operation gets stuck**: in every state that is reached, each that is permitted comes to its end. -/
theorem exists_step (hK : K.Lawful) (hs : Reachable K.buffers Always s) (hop : K.Permits s.objects op) :
    ∃ r t, K.buffers.step s (op, r) t := by
  obtain ⟨⟨r, l⟩, h, hexec, -⟩ :=
    exists_exec (fun c h _ => allocator_answers _ c h) (run_effect hK (owned_of_reachable hK hs) hop)
  exact ⟨r, ⟨l, h⟩, hop, hexec⟩

/-- There is an object, and it is empty. -/
def EmptyAt (K : BufferClass B) (l : Objects B) (i : ℕ) : Prop := ∃ b, l i = some b ∧ K.data_ b = none ∧ K.count_ b = 0

/-- There is an object of a size, with an allocation unless this is zero. -/
def SizedAt (K : BufferClass B) (l : Objects B) (i count : ℕ) : Prop :=
  ∃ b, l i = some b ∧ K.count_ b = count ∧ (K.data_ b = none ↔ count = 0)

/-- Every allocation has one owner, which frees it once. -/
structure UniquelyOwned (K : BufferClass B) : Prop where
  /-- What is live is held by exactly one object. -/
  one_owner : ∀ s, Reachable K.buffers Always s → ∀ a n, s.heap.live a = some n → ∃! i, K.held s.objects i = some a
  /-- What an object holds is live. -/
  live : ∀ s, Reachable K.buffers Always s → ∀ i a, K.held s.objects i = some a → s.heap.live a ≠ none
  /-- What has been freed has been freed once; it is all that has been allocated and is not live, and nothing else. -/
  freed_once : ∀ s, Reachable K.buffers Always s → s.heap.freed.Nodup ∧ s.heap.invalid = [] ∧
    ∀ n, n ∈ s.heap.freed ↔ n < s.heap.made ∧ ∀ a, s.heap.live a ≠ some n
  /-- What an operation frees is live at that moment, and is held by the object it operates on, and by no other. -/
  freed_by_owner : ∀ s op q, Reachable K.buffers Always s → K.Permits s.objects op →
    K.Proceeds s op (K.run op s.objects, s.heap) q → ∀ c k, q.1 = .call c k → ∀ a ∈ frees c,
      q.2.live a ≠ none ∧ ∀ i, K.held s.objects i = some a ↔ i = op.this
  /-- An object whose allocation fails is empty afterwards, and otherwise it has the size asked for. -/
  allocated : ∀ s r t i count, Reachable K.buffers Always s →
    K.buffers.step s (.allocate i count, r) t ∨ K.buffers.step s (.try_allocate i count, r) t →
      if r = .ok (.ok ()) then K.SizedAt t.objects i count else K.EmptyAt t.objects i
  /-- There is no object whose first allocation fails. -/
  constructed : ∀ s r t i count, Reachable K.buffers Always s → K.buffers.step s (.construct_sized i count, r) t →
    if r = .ok (.ok ()) then K.SizedAt t.objects i count else t.objects i = none
  /-- An object that another one is moved from is empty afterwards. -/
  moved : ∀ s r t i other, Reachable K.buffers Always s →
    K.buffers.step s (.construct_move i other, r) t ∨ K.buffers.step s (.assign_move i other, r) t ∧ i ≠ other →
      K.EmptyAt t.objects other ∧ t.objects i = s.objects other
  /-- An object that is assigned to itself stays as it is. -/
  self_moved : ∀ s r t i, Reachable K.buffers Always s → K.buffers.step s (.assign_move i i, r) t → t = s
  /-- An object that is released is empty afterwards, and so is one that is created without a size. -/
  released : ∀ s r t i, Reachable K.buffers Always s →
    K.buffers.step s (.release i, r) t ∨ K.buffers.step s (.construct i, r) t → K.EmptyAt t.objects i
  /-- When all objects are destroyed nothing is live, and every allocation has been freed. -/
  destroyed : ∀ s, Reachable K.buffers Always s → (∀ i, s.objects i = none) →
    (∀ a, s.heap.live a = none) ∧ List.Perm s.heap.freed (List.range s.heap.made)

theorem Lawful.emptyAt (hK : K.Lawful) (l : Objects B) (i : ℕ) : K.EmptyAt (Function.update l i (some K.empty)) i :=
  ⟨K.empty, Function.update_self i _ l, hK.data_make _ _, hK.count_make _ _⟩

theorem Obtains.sizedAt (hK : K.Lawful) (ht : K.Obtains s i count t) : K.SizedAt t.objects i count := by
  unfold Obtains at ht
  split_ifs at ht with hc
  · obtain ⟨b, hb, hdata, hcount⟩ := hK.emptyAt s.objects i
    rw [ht]
    exact ⟨b, hb, hcount.trans hc.symm, by simp [hdata, hc]⟩
  · obtain ⟨p, -, rfl⟩ := ht
    exact ⟨K.make (some p) count, Function.update_self _ _ _, hK.count_make _ _, by simp [hK.data_make, hc]⟩

/-- The object an allocation has been asked for. -/
theorem Effect.allocated (hK : K.Lawful)
    (h : K.Effect s (.allocate i count) r t ∨ K.Effect s (.try_allocate i count) r t) :
    if r = .ok (.ok ()) then K.SizedAt t.objects i count else K.EmptyAt t.objects i := by
  rcases h with (⟨rfl, h⟩ | ⟨⟨e, rfl⟩, rfl⟩) | (⟨rfl, h⟩ | ⟨⟨err, rfl⟩, rfl⟩)
  · exact h.sizedAt hK
  · exact hK.emptyAt s.objects i
  · exact h.sizedAt hK
  · exact hK.emptyAt s.objects i

/-- The object that another one is moved from, and the one it is moved to. -/
theorem Lawful.moved (hK : K.Lawful) (s : Storage B) (hij : i ≠ j) :
    K.EmptyAt (K.moved s i j).objects j ∧ (K.moved s i j).objects i = s.objects j := by
  constructor
  · exact hK.emptyAt _ j
  · simp [BufferClass.moved, hij]

/-- **Where the members are lawful** every allocation has one owner. -/
theorem Lawful.uniquelyOwned (hK : K.Lawful) : UniquelyOwned K := by
  constructor
  case one_owner => exact fun s hs a n ha => (owned_of_reachable hK hs).existsUnique ha
  case live => exact fun s hs i a ha => ((owned_of_reachable hK hs).mayFree ha).1
  case freed_once =>
    intro s hs
    have hsound := (owned_of_reachable hK hs).sound
    exact ⟨hsound.nodup, hsound.invalid, hsound.mem_freed_iff⟩
  case freed_by_owner =>
    intro s op q hs hop hq c k hcall a ha
    have hwp := wp_exec hq (run_effect hK (owned_of_reachable hK hs) hop)
    rw [hcall] at hwp
    exact hwp.1 a ha
  case allocated =>
    intro s r t i count hs hstep
    have howned := owned_of_reachable hK hs
    exact Effect.allocated hK (hstep.imp (howned.step hK) (howned.step hK))
  case constructed =>
    intro s r t i count hs hstep
    rcases (owned_of_reachable hK hs).step hK hstep with ⟨rfl, h⟩ | ⟨⟨e, rfl⟩, rfl⟩
    · exact h.sizedAt hK
    · exact hstep.1
  case moved =>
    intro s r t i other hs hstep
    have howned := owned_of_reachable hK hs
    rcases hstep with hstep | ⟨hstep, hne⟩
    · rw [(howned.step hK hstep).2]
      exact hK.moved s fun hij => hstep.1.2 (hij ▸ hstep.1.1)
    · have ht := (howned.step hK hstep).2
      rw [if_neg hne] at ht
      have hmoved := hK.moved (K.emptied s i) hne
      rw [ht]
      exact ⟨hmoved.1, hmoved.2.trans (Function.update_of_ne hne.symm _ _)⟩
  case self_moved =>
    intro s r t i hs hstep
    exact ((owned_of_reachable hK hs).step hK hstep).2.trans (if_pos rfl)
  case released =>
    intro s r t i hs hstep
    have howned := owned_of_reachable hK hs
    rcases hstep with hstep | hstep
    · rw [(howned.step hK hstep).2]
      exact hK.emptyAt s.objects i
    · rw [(howned.step hK hstep).2]
      exact hK.emptyAt s.objects i
  case destroyed =>
    intro s hs hnone
    have howned := owned_of_reachable hK hs
    have hlive : ∀ a, s.heap.live a = none := by
      intro a
      have hheld := howned.owners.live_eq_none (fun i => by rw [hnone i]; rfl) a
      simpa [Heap.held] using hheld
    exact ⟨hlive, howned.sound.freed_perm hlive⟩

end BufferClass

/-- **Every allocation has one owner**: of all that a program may do with objects of type `DeviceBuffer<T>`, or
`PinnedHostBuffer<T>`, whatever the calls of the runtime answer. -/
theorem unique_ownership (sizeof_T : ℕ) :
    BufferClass.UniquelyOwned (DeviceBuffer.ofType sizeof_T) ∧
      BufferClass.UniquelyOwned (PinnedHostBuffer.ofType sizeof_T) :=
  ⟨(DeviceBuffer.lawful sizeof_T).uniquelyOwned, (PinnedHostBuffer.lawful sizeof_T).uniquelyOwned⟩

end Gbis.Core
