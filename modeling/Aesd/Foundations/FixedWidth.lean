import Mathlib.Tactic

/-!
# Fixed-width integer conversions

A C assignment converts: the value stored is the one congruent to the assigned
value modulo `2 ^ w` that the target type can represent.  For an unsigned type
that is the least non-negative residue, for a signed type the balanced one.

`wrapU w` and `wrapS w` are those two conversions, out of the integers.  The
lemmas say where they do nothing: a value that already fits is stored as it is.
Everything a caller needs about wrap-around reduces to checking a range, so the
lemmas are stated with the range as hypothesis and leave the check to `omega`.
-/

namespace Aesd
namespace FixedWidth

/-- The value an unsigned `w`-bit object holds after `x` was assigned to it. -/
def wrapU (w : ℕ) (x : ℤ) : ℕ := (x % 2 ^ w).toNat

/-- The value a signed (two's complement) `w`-bit object holds after `x` was
assigned to it. -/
def wrapS (w : ℕ) (x : ℤ) : ℤ :=
  if 2 * wrapU w x < 2 ^ w then wrapU w x else wrapU w x - 2 ^ w

/-- **A natural number that fits is stored as it is.** -/
theorem wrapU_natCast {w n : ℕ} (h : n < 2 ^ w) : wrapU w (n : ℤ) = n := by
  have hmod : (n : ℤ) % 2 ^ w = n := by
    apply Int.emod_eq_of_lt (by omega)
    exact_mod_cast h
  rw [wrapU, hmod, Int.toNat_natCast]

/-- A non-negative value that fits is stored as it is. -/
theorem wrapU_of_nonneg {w : ℕ} {x : ℤ} (h0 : 0 ≤ x) (h : x < 2 ^ w) :
    (wrapU w x : ℤ) = x := by
  rw [wrapU, Int.emod_eq_of_lt h0 h, Int.toNat_of_nonneg h0]

/-- A negative value of at most the type's range wraps to the top of it. -/
theorem wrapU_of_neg {w : ℕ} {x : ℤ} (h0 : x < 0) (h : -2 ^ w ≤ x) :
    (wrapU w x : ℤ) = x + 2 ^ w := by
  have hmod : x % 2 ^ w = x + 2 ^ w := by
    rw [← Int.add_emod_right]
    exact Int.emod_eq_of_lt (by omega) (by omega)
  rw [wrapU, hmod, Int.toNat_of_nonneg (by omega)]

/-- **A value inside the signed range is stored as it is.** -/
theorem wrapS_of_bounds {w : ℕ} {x : ℤ} (hlo : -2 ^ w ≤ 2 * x) (hhi : 2 * x < 2 ^ w) :
    wrapS w x = x := by
  have hcast : ((2 ^ w : ℕ) : ℤ) = 2 ^ w := by push_cast; rfl
  have hpos : (0 : ℤ) < 2 ^ w := by positivity
  unfold wrapS
  rcases lt_or_ge x 0 with hneg | hnn
  · have hx : (wrapU w x : ℤ) = x + 2 ^ w := wrapU_of_neg hneg (by omega)
    rw [if_neg (by zify; omega)]
    omega
  · have hx : (wrapU w x : ℤ) = x := wrapU_of_nonneg hnn (by omega)
    rw [if_pos (by zify; omega)]
    exact hx

/-! ## Congruence -/

theorem wrapU_emod (w : ℕ) (x : ℤ) : (wrapU w x : ℤ) = x % 2 ^ w :=
  Int.toNat_of_nonneg (Int.emod_nonneg x (by positivity))

/-- What a signed object can hold. -/
theorem wrapS_mem (w : ℕ) (x : ℤ) : -2 ^ w ≤ 2 * wrapS w x ∧ 2 * wrapS w x < 2 ^ w := by
  have hu := wrapU_emod w x
  have hpos : (0 : ℤ) < 2 ^ w := by positivity
  have hlo := Int.emod_nonneg x hpos.ne'
  have hhi := Int.emod_lt_of_pos x hpos
  unfold wrapS
  split_ifs with h
  · zify at h
    omega
  · zify at h
    omega

/-- What is small unsigned is small signed. -/
theorem wrapS_le {w n : ℕ} {x : ℤ} (h : wrapU w x ≤ n) (hn : 2 * n < 2 ^ w) : wrapS w x ≤ n := by
  rw [wrapS, if_pos (by omega)]
  exact_mod_cast h

/-- A conversion does not change the value modulo the width. -/
theorem wrapS_emod (w : ℕ) (x : ℤ) : wrapS w x % 2 ^ w = x % 2 ^ w := by
  unfold wrapS
  split
  · rw [wrapU_emod, Int.emod_emod_of_dvd x (dvd_refl _)]
  · rw [Int.sub_emod_right, wrapU_emod, Int.emod_emod_of_dvd x (dvd_refl _)]

/-- **And it depends on nothing else.** -/
theorem wrapS_congr {w : ℕ} {x y : ℤ} (h : x % 2 ^ w = y % 2 ^ w) : wrapS w x = wrapS w y := by
  have hu : wrapU w x = wrapU w y := by rw [wrapU, wrapU, h]
  rw [wrapS, wrapS, hu]

/-- So a value that is converted anyway need not be converted before. -/
theorem wrapS_add_wrapS (w : ℕ) (x y : ℤ) : wrapS w (wrapS w x + y) = wrapS w (x + y) := by
  apply wrapS_congr
  rw [Int.add_emod, wrapS_emod, ← Int.add_emod]

theorem wrapS_sub_wrapS (w : ℕ) (x y : ℤ) : wrapS w (y - wrapS w x) = wrapS w (y - x) := by
  apply wrapS_congr
  rw [Int.sub_emod, wrapS_emod, ← Int.sub_emod]

end FixedWidth
end Aesd
