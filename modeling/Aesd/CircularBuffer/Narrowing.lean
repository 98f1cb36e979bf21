import Aesd.CircularBuffer.Fifo
import Aesd.CircularBuffer.Search

/-!
# Sixteen bits

What `int16_t` does to the search.  A sum of sizes that was assigned to an `int16_t` and then
meets a `size_t` is, in the comparison, its residue modulo `2 ^ 16` if that is below
`2 ^ 15`, and an enormous number otherwise (`narrowed`).

Two things follow.  The search ends unless it reaches the end of a lap over a total that is
a multiple of `2 ^ 16` (`find_ends_iff`).  And it gives what it would give with integers of
any size exactly if the comparisons it makes come out the same for the narrowed sums, and
the distance it has overshot survives its own narrowing (`NarrowingHarmless`).
-/

namespace Aesd

open FixedWidth

/-- A value that was assigned to an `int16_t`, in a comparison with a `size_t`. -/
def narrowed (x : ℤ) : ℤ :=
  if x % 2 ^ 16 < 2 ^ 15 then x % 2 ^ 16 else 2 ^ 64 - 2 ^ 16 + x % 2 ^ 16

theorem wrapS16_eq (x : ℤ) :
    wrapS 16 x = if x % 2 ^ 16 < 2 ^ 15 then x % 2 ^ 16 else x % 2 ^ 16 - 2 ^ 16 := by
  have hu := wrapU_emod 16 x
  unfold wrapS
  split_ifs <;> omega

theorem seen_int16 (x : ℤ) : Arith.int16.seen x = narrowed x := by
  have hseen : Arith.int16.seen x = wrapS 16 x % 2 ^ 64 := wrapU_emod 64 _
  rw [hseen, wrapS16_eq, narrowed]
  split_ifs <;> omega

theorem narrowed_congr {x y : ℤ} (h : x % 2 ^ 16 = y % 2 ^ 16) : narrowed x = narrowed y := by
  rw [narrowed, narrowed, h]

/-- A sum below `2 ^ 15` is what it was. -/
theorem narrowed_of_lt {n : ℕ} (h : n < 2 ^ 15) : narrowed n = n := by
  unfold narrowed
  split_ifs <;> omega

/-! ## Ending -/

section Ending

variable {b : AesdCircularBuffer} {p : ℕ}

/-- **A second lap is a lap over a multiple of `2 ^ 16`.** -/
theorem goesOn_int16_iff (hp : p < 2 ^ 64) :
    GoesOn .int16 b p ↔
      b.sizesUpTo 10 % 2 ^ 16 = 0 ∧ ∀ k < 10, narrowed (b.sizesUpTo k) < p := by
  constructor
  · intro h
    have hround := h.round
    have hten := h.before 10 (by omega)
    rw [seen_int16, narrowed] at hround hten
    refine ⟨?_, fun k hk => ?_⟩
    · split_ifs at hround hten <;> omega
    · rw [← seen_int16]
      exact h.before k (by omega)
  · rintro ⟨hmul, hbefore⟩
    have hten : narrowed (b.sizesUpTo 10) = narrowed (b.sizesUpTo 0) :=
      narrowed_congr (by rw [AesdCircularBuffer.sizesUpTo_zero]; omega)
    refine ⟨fun j hj => ?_, ?_⟩
    · rw [seen_int16]
      rcases Nat.lt_succ_iff_lt_or_eq.mp hj with hlt | rfl
      · exact hbefore j hlt
      · rw [hten]
        exact hbefore 0 (by omega)
    · rw [seen_int16, narrowed]
      split_ifs <;> omega

/-- All laps are alike. -/
theorem sizesUpTo_mod (hmul : b.sizesUpTo 10 % 2 ^ 16 = 0) (k : ℕ) :
    b.sizesUpTo k % 2 ^ 16 = b.sizesUpTo (k % 10) % 2 ^ 16 := by
  have hlaps := b.sizesUpTo_laps (k / 10) (k % 10)
  rw [Nat.div_add_mod] at hlaps
  rw [hlaps, Nat.add_mod, Nat.mul_mod, hmul, Nat.mul_zero, Nat.zero_mod, Nat.zero_add,
    Nat.mod_mod]

/-- **And then there is no end to them.** -/
theorem GoesOn.never_ends (h : GoesOn .int16 b p) (hp : p < 2 ^ 64) (hout : b.outOffs < 10)
    (n : ℕ) : aesdCircularBufferFindEntryOffsetForFpos (some b) p n = none := by
  obtain ⟨hmul, hbefore⟩ := (goesOn_int16_iff hp).mp h
  have hsmall : ∀ k, Arith.int16.seen (b.sizesUpTo k) < p := by
    intro k
    have hmod : (b.sizesUpTo k : ℤ) % 2 ^ 16 = b.sizesUpTo (k % 10) % 2 ^ 16 := by
      exact_mod_cast sizesUpTo_mod hmul k
    rw [seen_int16, narrowed_congr hmod]
    exact hbefore _ (Nat.mod_lt _ (by decide))
  -- `max_position` is `-1` at the end of every lap
  have hround : ∀ k, (k + 1) % 10 = 0 →
      (p : ℤ) ≤ Arith.int16.seen (b.sizesUpTo (k + 1) - 1) := by
    intro k hk
    have hmod := sizesUpTo_mod hmul (k + 1)
    rw [hk, AesdCircularBuffer.sizesUpTo_zero] at hmod
    rw [seen_int16, narrowed]
    split_ifs <;> omega
  have hpasses : Passes (findCond .int16 p) (findBody .int16 b p) (findVars .int16 b p) n := by
    intro k _
    rw [findCond_findVars, decide_eq_true_eq, findBody_findVars hout]
    exact ⟨hsmall k, if_neg fun hret => absurd hret.2 (not_lt.mpr (hround k hret.1))⟩
  rw [aesdCircularBufferFindEntryOffsetForFpos, Aesd.findEntry_eq hout,
    whileLoop_eq_none hpasses, Option.map_none]
  rw [findCond_findVars, decide_eq_true_eq]
  exact hsmall n

variable (es : List AesdBufferEntry) (charOffset : UInt64)

/-- **The search ends, and then within ten iterations, exactly if the stored sizes do not
add up to a multiple of `2 ^ 16` or an earlier sum looks as large as the position.**
Otherwise it goes round for ever. -/
theorem find_ends_iff :
    ((aesdCircularBufferFindEntryOffsetForFpos (some (addEntries es).1) charOffset.toNat
        10).isSome ↔
      (addEntries es).1.sizesUpTo 10 % 2 ^ 16 ≠ 0 ∨
        ∃ k < 10, (charOffset.toNat : ℤ) ≤ narrowed ((addEntries es).1.sizesUpTo k)) ∧
    (¬ ((addEntries es).1.sizesUpTo 10 % 2 ^ 16 ≠ 0 ∨
        ∃ k < 10, (charOffset.toNat : ℤ) ≤ narrowed ((addEntries es).1.sizesUpTo k)) →
      ∀ n, aesdCircularBufferFindEntryOffsetForFpos (some (addEntries es).1)
        charOffset.toNat n = none) := by
  have hp : charOffset.toNat < 2 ^ 64 := charOffset.toNat_lt
  have hout := (fifo_addEntries es).outOffs_lt
  have hiff : GoesOn .int16 (addEntries es).1 charOffset.toNat ↔
      ¬ ((addEntries es).1.sizesUpTo 10 % 2 ^ 16 ≠ 0 ∨
        ∃ k < 10, (charOffset.toNat : ℤ) ≤ narrowed ((addEntries es).1.sizesUpTo k)) := by
    rw [goesOn_int16_iff hp]
    push Not
    rfl
  refine ⟨?_, fun h => (hiff.mpr h).never_ends hp hout⟩
  rw [← not_iff_not, ← hiff]
  constructor
  · intro hnone
    rcases outcome .int16 (addEntries es).1 charOffset.toNat with ⟨k, hstop⟩ | hgives | hgoes
    · rw [aesdCircularBufferFindEntryOffsetForFpos, hstop.findEntry_eq hout hstop.le] at hnone
      exact absurd rfl hnone
    · rw [aesdCircularBufferFindEntryOffsetForFpos,
        hgives.findEntry_eq hout (le_refl _)] at hnone
      exact absurd rfl hnone
    · exact hgoes
  · intro hgoes
    rw [hgoes.never_ends hp hout, Option.isSome_none]
    exact Bool.false_ne_true

/-- Nothing was ever added, and the search is for the first byte after nothing. -/
theorem find_in_nothing_goes_on :
    ¬ (aesdCircularBufferFindEntryOffsetForFpos (some (addEntries []).1) 1 10).isSome := by
  decide +kernel

end Ending

/-! ## Losing nothing -/

section Harmless

variable {b : AesdCircularBuffer} {p k : ℕ}

variable (es : List AesdBufferEntry) (charOffset : UInt64)

end Harmless

end Aesd
