import Mathlib.Tactic

/-!
# A heap of identified blocks

An allocator that never gives the same identity twice is a list that only grows:
the identity of a block is the position at which its cell was appended, and
freeing a block marks its cell without removing it.  A *live* cell holds the
block's contents, a *freed* one holds nothing, and a position past the end was
never allocated.  So "has been passed to free" is a property of the heap, not of
a history kept beside it, and freshness needs no side condition.

The second half is about who holds the blocks.  A program keeps pointers in
finitely many places; `Owned h ptr` says that the places `ι` hold live blocks and
no two of them hold the same one, and `Covered h ptr` that every live block is
held.  What a program does to its places is a composition of four moves ---
allocate into a place, drop what a place holds, hand a block from one place to
another, overwrite a block's contents --- and for each there is one lemma.
-/

namespace Aesd

/-- What an identity stands for: a block with its contents, or a freed block. -/
inductive Cell (β : Type*) where
  | live (data : List β) : Cell β
  | freed : Cell β
  deriving DecidableEq, Repr

/-- A heap of identified blocks.  The identity of a block is its position. -/
structure BlockHeap (β : Type*) where
  /-- The cells, in the order in which they were allocated. -/
  cells : List (Cell β)
  deriving DecidableEq, Repr

namespace BlockHeap

variable {β ι : Type*}

/-- The identity the next allocation returns. -/
def fresh (h : BlockHeap β) : ℕ := h.cells.length

/-- The contents of a live block. -/
def data? (h : BlockHeap β) (i : ℕ) : Option (List β) :=
  match h.cells[i]? with
  | some (.live d) => some d
  | _ => none

/-- The block has been freed. -/
def Freed (h : BlockHeap β) (i : ℕ) : Prop := h.cells[i]? = some .freed

instance [DecidableEq β] (h : BlockHeap β) (i : ℕ) : Decidable (h.Freed i) :=
  inferInstanceAs (Decidable (_ = _))

/-- The block is allocated and has not been freed. -/
def Live (h : BlockHeap β) (i : ℕ) : Prop := ∃ d, h.data? i = some d

/-- Allocate a block with the given contents. -/
def alloc (h : BlockHeap β) (d : List β) : BlockHeap β := ⟨h.cells ++ [.live d]⟩

/-- Replace the contents of a block. -/
def store (h : BlockHeap β) (i : ℕ) (d : List β) : BlockHeap β :=
  ⟨h.cells.set i (.live d)⟩

/-- Free a block. -/
def release (h : BlockHeap β) (i : ℕ) : BlockHeap β := ⟨h.cells.set i .freed⟩

/-- Free the block a pointer refers to; the null pointer refers to none. -/
def releasePtr (h : BlockHeap β) : Option ℕ → BlockHeap β
  | none => h
  | some i => h.release i

@[simp] theorem releasePtr_none (h : BlockHeap β) : h.releasePtr none = h := rfl

@[simp] theorem releasePtr_some (h : BlockHeap β) (i : ℕ) :
    h.releasePtr (some i) = h.release i := rfl

/-! ## Reading after a change -/

theorem data?_eq_some {h : BlockHeap β} {i : ℕ} {d : List β} :
    h.data? i = some d ↔ h.cells[i]? = some (.live d) := by
  unfold data?
  split
  · next e he => simp [he]
  · next hne =>
    constructor
    · intro hh; exact absurd hh (by simp)
    · intro hh; exact absurd hh (hne d)

theorem lt_fresh_of_data? {h : BlockHeap β} {i : ℕ} {d : List β}
    (hd : h.data? i = some d) : i < h.fresh := by
  rw [data?_eq_some] at hd
  exact (List.getElem?_eq_some_iff.mp hd).1

theorem Live.lt_fresh {h : BlockHeap β} {i : ℕ} (hi : h.Live i) : i < h.fresh :=
  lt_fresh_of_data? hi.choose_spec

/-- A live block has not been freed. -/
theorem Live.not_freed {h : BlockHeap β} {i : ℕ} (hi : h.Live i) : ¬ h.Freed i := by
  obtain ⟨d, hd⟩ := hi
  rw [data?_eq_some] at hd
  intro hf
  rw [Freed, hd] at hf
  exact absurd hf (by simp)

@[simp] theorem data?_alloc_fresh (h : BlockHeap β) (d : List β) :
    (h.alloc d).data? h.fresh = some d := by
  simp [data?_eq_some, alloc, fresh]

theorem data?_alloc_of_ne (h : BlockHeap β) (d : List β) {i : ℕ} (hi : i ≠ h.fresh) :
    (h.alloc d).data? i = h.data? i := by
  unfold data? alloc
  rcases lt_or_ge i h.cells.length with hlt | hge
  · rw [List.getElem?_append_left hlt]
  · have hgt : h.cells.length + 1 ≤ i := by
      have : i ≠ h.cells.length := hi
      omega
    rw [List.getElem?_eq_none (by simpa using hgt), List.getElem?_eq_none hge]

theorem data?_alloc_of_some {h : BlockHeap β} (d : List β) {i : ℕ} {e : List β}
    (hi : h.data? i = some e) : (h.alloc d).data? i = some e := by
  rw [data?_alloc_of_ne h d (lt_fresh_of_data? hi).ne, hi]

/-- Writing to a block that was just allocated is allocating it with the new
contents. -/
@[simp] theorem store_alloc_fresh (h : BlockHeap β) (d e : List β) :
    (h.alloc d).store h.fresh e = h.alloc e := by
  simp [alloc, store, fresh, List.set_append_right]

theorem data?_release_of_ne (h : BlockHeap β) {i j : ℕ} (hij : i ≠ j) :
    (h.release i).data? j = h.data? j := by
  unfold data? release
  rw [List.getElem?_set_ne hij]

@[simp] theorem data?_release_self (h : BlockHeap β) (i : ℕ) :
    (h.release i).data? i = none := by
  unfold data? release
  rcases lt_or_ge i h.cells.length with hlt | hge
  · simp [List.getElem?_set_self hlt]
  · rw [List.getElem?_eq_none (by simpa using hge)]

theorem data?_releasePtr_of_ne (h : BlockHeap β) {p : Option ℕ} {j : ℕ} (hp : p ≠ some j) :
    (h.releasePtr p).data? j = h.data? j := by
  cases p with
  | none => rfl
  | some i => exact data?_release_of_ne h (by simpa using hp)

/-- Freeing makes no block live. -/
theorem Live.of_releasePtr {h : BlockHeap β} {p : Option ℕ} {j : ℕ}
    (hl : (h.releasePtr p).Live j) : h.Live j ∧ p ≠ some j := by
  obtain ⟨d, hd⟩ := hl
  have hne : p ≠ some j := by
    rintro rfl
    rw [releasePtr_some, data?_release_self] at hd
    exact absurd hd (by simp)
  rw [data?_releasePtr_of_ne h hne] at hd
  exact ⟨⟨d, hd⟩, hne⟩

/-- Allocating makes one block live. -/
theorem Live.of_alloc {h : BlockHeap β} {d : List β} {j : ℕ} (hl : (h.alloc d).Live j) :
    j = h.fresh ∨ h.Live j := by
  by_cases hj : j = h.fresh
  · exact Or.inl hj
  · obtain ⟨e, he⟩ := hl
    rw [data?_alloc_of_ne h d hj] at he
    exact Or.inr ⟨e, he⟩

/-! ## Who holds the blocks -/

/-- The places hold live blocks, and no block is held twice. -/
structure Owned (h : BlockHeap β) (ptr : ι → Option ℕ) : Prop where
  live : ∀ i p, ptr i = some p → h.Live p
  inj : ∀ i j p, ptr i = some p → ptr j = some p → i = j

/-- Every live block is held in some place. -/
def Covered (h : BlockHeap β) (ptr : ι → Option ℕ) : Prop :=
  ∀ p, h.Live p → ∃ i, ptr i = some p

variable [DecidableEq ι] {h : BlockHeap β} {ptr : ι → Option ℕ}

omit [DecidableEq ι] in
theorem Owned.ne_fresh (ho : Owned h ptr) (i : ι) : ptr i ≠ some h.fresh := by
  intro hi
  exact absurd (ho.live i _ hi).lt_fresh (lt_irrefl _)

omit [DecidableEq ι] in
/-- An allocation nobody keeps disturbs no owner. -/
theorem Owned.alloc (ho : Owned h ptr) (d : List β) : Owned (h.alloc d) ptr where
  live i p hp := by
    obtain ⟨e, he⟩ := ho.live i p hp
    exact ⟨e, data?_alloc_of_some d he⟩
  inj := ho.inj

/-- Allocating into a place, whatever the place held before. -/
theorem Owned.alloc_update (ho : Owned h ptr) (i : ι) (d : List β) :
    Owned (h.alloc d) (Function.update ptr i (some h.fresh)) where
  live j p hp := by
    by_cases hji : j = i
    · subst hji
      rw [Function.update_self, Option.some.injEq] at hp
      exact ⟨d, hp ▸ data?_alloc_fresh h d⟩
    · rw [Function.update_of_ne hji] at hp
      exact (ho.alloc d).live j p hp
  inj j k p hj hk := by
    by_cases hji : j = i <;> by_cases hki : k = i
    · rw [hji, hki]
    · subst hji
      rw [Function.update_self] at hj
      rw [Function.update_of_ne hki] at hk
      exact absurd (hk.trans hj.symm) (ho.ne_fresh k)
    · subst hki
      rw [Function.update_self] at hk
      rw [Function.update_of_ne hji] at hj
      exact absurd (hj.trans hk.symm) (ho.ne_fresh j)
    · rw [Function.update_of_ne hji] at hj
      rw [Function.update_of_ne hki] at hk
      exact ho.inj j k p hj hk

omit [DecidableEq ι] in
/-- Freeing a block no place holds any more. -/
theorem Owned.release_of_forall_ne (ho : Owned h ptr) {q : ℕ}
    (hq : ∀ i, ptr i ≠ some q) : Owned (h.release q) ptr where
  live i p hp := by
    obtain ⟨e, he⟩ := ho.live i p hp
    have hne : q ≠ p := by
      rintro rfl
      exact hq i hp
    exact ⟨e, by rw [data?_release_of_ne h hne, he]⟩
  inj := ho.inj

omit [DecidableEq ι] in
theorem Owned.releasePtr_of_forall_ne (ho : Owned h ptr) {p : Option ℕ}
    (hp : ∀ i q, ptr i = some q → p ≠ some q) : Owned (h.releasePtr p) ptr := by
  cases p with
  | none => exact ho
  | some q => exact ho.release_of_forall_ne fun i hi => hp i q hi rfl

/-- Freeing what a place holds. -/
theorem Owned.drop (ho : Owned h ptr) (i : ι) :
    Owned (h.releasePtr (ptr i)) (Function.update ptr i none) := by
  have hsub : Owned h (Function.update ptr i none) := by
    refine ⟨fun j p hp => ?_, fun j k p hj hk => ?_⟩
    · by_cases hji : j = i
      · subst hji; simp at hp
      · rw [Function.update_of_ne hji] at hp
        exact ho.live j p hp
    · by_cases hji : j = i
      · subst hji; simp at hj
      by_cases hki : k = i
      · subst hki; simp at hk
      rw [Function.update_of_ne hji] at hj
      rw [Function.update_of_ne hki] at hk
      exact ho.inj j k p hj hk
  refine hsub.releasePtr_of_forall_ne fun j q hj hq => ?_
  by_cases hji : j = i
  · subst hji; simp at hj
  · rw [Function.update_of_ne hji] at hj
    exact hji (ho.inj j i q hj hq)

/-- Handing a block from place `i` to place `j`, which loses what it held. -/
theorem Owned.move (ho : Owned h ptr) {i j : ι} (hij : i ≠ j) :
    Owned h (Function.update (Function.update ptr j (ptr i)) i none) where
  live k p hp := by
    by_cases hki : k = i
    · subst hki; simp at hp
    · rw [Function.update_of_ne hki] at hp
      by_cases hkj : k = j
      · subst hkj
        rw [Function.update_self] at hp
        exact ho.live i p hp
      · rw [Function.update_of_ne hkj] at hp
        exact ho.live k p hp
  inj k l p hk hl := by
    by_cases hki : k = i
    · subst hki; simp at hk
    by_cases hli : l = i
    · subst hli; simp at hl
    rw [Function.update_of_ne hki] at hk
    rw [Function.update_of_ne hli] at hl
    by_cases hkj : k = j <;> by_cases hlj : l = j
    · rw [hkj, hlj]
    · subst hkj
      rw [Function.update_self] at hk
      rw [Function.update_of_ne hlj] at hl
      exact absurd (ho.inj l i p hl hk) hli
    · subst hlj
      rw [Function.update_self] at hl
      rw [Function.update_of_ne hkj] at hk
      exact absurd (ho.inj k i p hk hl) hki
    · rw [Function.update_of_ne hkj] at hk
      rw [Function.update_of_ne hlj] at hl
      exact ho.inj k l p hk hl

/-- Nothing is lost when a place gets a new block and what it held is freed. -/
theorem Covered.replace (hc : Covered h ptr) (i : ι) (d : List β) :
    Covered ((h.alloc d).releasePtr (ptr i)) (Function.update ptr i (some h.fresh)) := by
  intro p hp
  obtain ⟨hl, hne⟩ := hp.of_releasePtr
  rcases hl.of_alloc with rfl | hl
  · exact ⟨i, Function.update_self ..⟩
  · obtain ⟨j, hj⟩ := hc p hl
    have hji : j ≠ i := by
      rintro rfl
      exact hne hj
    exact ⟨j, by rw [Function.update_of_ne hji, hj]⟩

/-- Nothing is lost when a block is handed over and what its new place held is
freed. -/
theorem Covered.move (hc : Covered h ptr) {i j : ι} (hij : i ≠ j) :
    Covered (h.releasePtr (ptr j)) (Function.update (Function.update ptr j (ptr i)) i none) := by
  intro p hp
  obtain ⟨hl, hne⟩ := hp.of_releasePtr
  obtain ⟨k, hk⟩ := hc p hl
  by_cases hki : k = i
  · subst hki
    exact ⟨j, by rw [Function.update_of_ne hij.symm, Function.update_self, hk]⟩
  · have hkj : k ≠ j := by
      rintro rfl
      exact hne hk
    exact ⟨k, by rw [Function.update_of_ne hki, Function.update_of_ne hkj, hk]⟩

end BlockHeap
end Aesd
