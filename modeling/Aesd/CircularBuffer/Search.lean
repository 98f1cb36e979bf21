import Aesd.CircularBuffer.Find

/-!
# How the search ends

A search that has not ended after ten iterations has been through all the slots.  So there
are three outcomes, and which one it is can be read off eleven sums: the search stops at the
first slot where the sum is not smaller than the position (`StopsAt`), or it finds at the end
of the lap that the position is past the last byte (`GivesUp`), or neither happens and it
starts a second lap (`GoesOn`).

With integers of any size the third cannot happen as long as one entry is non-empty.  With
`int16_t` it happens whenever the sizes add up to a multiple of `2 ^ 16`, zero included: then
`max_position` is `-1`, the largest `size_t` there is, and the sum is `0` again.  The second
lap is then the first lap, and the search goes round for ever.
-/

namespace Aesd

open FixedWidth

/-! ## The three outcomes -/

section Outcome

variable (A : Arith) (b : AesdCircularBuffer) (p : ℕ)

/-- The search stops `k` slots after the read index. -/
structure StopsAt (k : ℕ) : Prop where
  le : k ≤ 10
  before : ∀ j < k, A.seen (b.sizesUpTo j) < p
  here : p ≤ A.seen (b.sizesUpTo k)
  round : k = 10 → p ≤ A.seen (b.sizesUpTo 10 - 1)

/-- The search returns `NULL` at the end of the first lap. -/
structure GivesUp : Prop where
  before : ∀ j < 10, A.seen (b.sizesUpTo j) < p
  round : A.seen (b.sizesUpTo 10 - 1) < p

/-- The search starts a second lap. -/
structure GoesOn : Prop where
  before : ∀ j < 11, A.seen (b.sizesUpTo j) < p
  round : p ≤ A.seen (b.sizesUpTo 10 - 1)

variable {A b p} {k : ℕ}

/-- The first of the eleven sums that is not smaller than the position decides. -/
theorem outcome (A : Arith) (b : AesdCircularBuffer) (p : ℕ) :
    (∃ k, StopsAt A b p k) ∨ GivesUp A b p ∨ GoesOn A b p := by
  -- `max_position` matters if none of the first ten is
  have hround : (∀ j < 10, A.seen (b.sizesUpTo j) < p) →
      GivesUp A b p ∨ p ≤ A.seen (b.sizesUpTo 10 - 1) := by
    intro hbefore
    rcases lt_or_ge (A.seen (b.sizesUpTo 10 - 1)) p with hlt | hge
    · exact Or.inl ⟨hbefore, hlt⟩
    · exact Or.inr hge
  by_cases h : ∃ k, k ≤ 10 ∧ p ≤ A.seen (b.sizesUpTo k)
  · classical
    obtain ⟨hle, hhere⟩ := Nat.find_spec h
    have hbefore : ∀ j < Nat.find h, A.seen (b.sizesUpTo j) < p := fun j hj =>
      not_le.mp fun hp => Nat.find_min h hj ⟨by omega, hp⟩
    rcases hle.lt_or_eq with hlt | heq
    · exact Or.inl ⟨_, hle, hbefore, hhere, fun h10 => absurd h10 hlt.ne⟩
    · rcases hround (fun j hj => hbefore j (by omega)) with hgives | hge
      · exact Or.inr (Or.inl hgives)
      · exact Or.inl ⟨_, hle, hbefore, hhere, fun _ => hge⟩
  · have hbefore : ∀ j < 11, A.seen (b.sizesUpTo j) < p := fun j hj =>
      not_le.mp fun hp => h ⟨j, by omega, hp⟩
    rcases hround (fun j hj => hbefore j (by omega)) with hgives | hge
    · exact Or.inr (Or.inl hgives)
    · exact Or.inr (Or.inr ⟨hbefore, hge⟩)

/-- The loop goes through the states of the first lap as long as the sums look small. -/
theorem passes_of_before (hout : b.outOffs < 10) (hk : k ≤ 10)
    (hbefore : ∀ j < k, A.seen (b.sizesUpTo j) < p)
    (hround : k = 10 → p ≤ A.seen (b.sizesUpTo 10 - 1)) :
    Passes (findCond A p) (findBody A b p) (findVars A b p) k := by
  intro j hj
  rw [findCond_findVars, decide_eq_true_eq, findBody_findVars hout]
  refine ⟨hbefore j hj, if_neg ?_⟩
  rintro ⟨hmod, hmax⟩
  obtain rfl : j = 9 := by omega
  exact absurd hmax (not_lt.mpr (hround (by omega)))

/-- The loop, entered at the first of its states. -/
theorem findEntry_eq (hout : b.outOffs < 10) (n : ℕ) :
    findEntry A (some b) p n =
      (whileLoop (findCond A p) (findBody A b p) n (findVars A b p 0)).map fun
        | .error _ => none
        | .ok v => some (v.entryId, wrapU 64 v.offset) := by
  rw [findVars_zero hout]
  rfl

/-- **Where the search stops, it answers.** -/
theorem StopsAt.findEntry_eq (h : StopsAt A b p k) (hout : b.outOffs < 10) {n : ℕ}
    (hn : k ≤ n) :
    findEntry A (some b) p n =
      some (some ((b.outOffs + k) % 10, wrapU 64 (findVars A b p k).offset)) := by
  obtain ⟨m, rfl⟩ := Nat.exists_eq_add_of_le hn
  rw [Aesd.findEntry_eq hout, whileLoop_of_passes (passes_of_before hout h.le h.before h.round),
    whileLoop_exit]
  · rfl
  · rw [findCond_findVars, decide_eq_false_iff_not, not_lt]
    exact h.here

theorem GivesUp.findEntry_eq (h : GivesUp A b p) (hout : b.outOffs < 10) {n : ℕ}
    (hn : 10 ≤ n) : findEntry A (some b) p n = some none := by
  obtain ⟨m, rfl⟩ := Nat.exists_eq_add_of_le hn
  have hpasses : Passes (findCond A p) (findBody A b p) (findVars A b p) 9 :=
    passes_of_before hout (by omega) (fun j hj => h.before j (by omega)) (fun h9 => by omega)
  have hlast : findBody A b p (findVars A b p 9) = .error () := by
    rw [findBody_findVars hout, if_pos ⟨rfl, h.round⟩]
  have hcond : findCond A p (findVars A b p 9) = true := by
    rw [findCond_findVars, decide_eq_true_eq]
    exact h.before 9 (by omega)
  rw [Aesd.findEntry_eq hout, show 10 + m = 9 + (m + 1) by omega, whileLoop_of_passes hpasses,
    whileLoop_return hcond hlast]
  rfl

/-- A search has one answer. -/
theorem findEntry_unique {n m : ℕ} {r r' : Option (ℕ × ℕ)}
    (h : findEntry A (some b) p n = some r) (h' : findEntry A (some b) p m = some r') :
    r = r' := by
  obtain ⟨q, hq, rfl⟩ := Option.map_eq_some_iff.mp h
  obtain ⟨q', hq', rfl⟩ := Option.map_eq_some_iff.mp h'
  rw [whileLoop_unique hq hq']

end Outcome

end Aesd
