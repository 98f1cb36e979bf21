import Aesd.CircularBuffer.Model
import Aesd.Foundations.FixedWidth
import Aesd.Foundations.While

/-!
# Looking up a position

`aesd_circular_buffer_find_entry_offset_for_fpos` walks from the read index, adds up the
sizes it passes, and stops when the sum is not smaller than the position it looks for, or
when it is back where it started.

Three of its variables are `int16_t`, and they meet a `size_t` in every comparison, which
makes a negative one enormous.  What such arithmetic does is a parameter of the loop
(`Arith`): the source is the loop at `Arith.int16`, and the same loop at `Arith.unbounded`
is what it is compared with.  All that is used of the arithmetic is that converting twice is
converting once.  So after `k` iterations the sum is the first `k` sizes converted once
(`findVars`), and what decides how the loop goes on is how that looks in a comparison
(`Arith.seen`).

The result is an index of a slot, where the source returns the slot's address, and what is
stored through `entry_offset_byte_rtn`.  `out_offs` is smaller than ten, so it fits the
`int8_t` it is assigned to.
-/

namespace Aesd

open FixedWidth

/-! ## Two kinds of arithmetic -/

/-- How the loop computes. -/
structure Arith where
  /-- What a variable holds after an assignment. -/
  store : ℤ → ℤ
  /-- What a variable is in a comparison with a `size_t`. -/
  compare : ℤ → ℤ
  store_zero : store 0 = 0
  store_add : ∀ x y, store (store x + y) = store (x + y)
  store_sub : ∀ x y, store (y - store x) = store (y - x)

namespace Arith

/-- `int16_t`. -/
def int16 : Arith where
  store := wrapS 16
  compare x := wrapU 64 x
  store_zero := by decide
  store_add := wrapS_add_wrapS 16
  store_sub := wrapS_sub_wrapS 16

/-- A value that was assigned, in a comparison. -/
def seen (A : Arith) (x : ℤ) : ℤ := A.compare (A.store x)

end Arith

/-! ## The function -/

/-- The local variables of the loop. -/
structure FindVars where
  accumulatedLength : ℤ
  entryId : ℕ
  offset : ℤ
  deriving DecidableEq, Repr

/-- The condition of the loop. -/
def findCond (A : Arith) (charOffset : ℕ) (v : FindVars) : Bool :=
  A.compare v.accumulatedLength < charOffset

/-- The body of the loop; an error is its `return NULL`. -/
def findBody (A : Arith) (buffer : AesdCircularBuffer) (charOffset : ℕ) (v : FindVars) :
    Except Unit FindVars :=
  let accumulatedLength := A.store (v.accumulatedLength + (buffer.slot v.entryId).size)
  let entryId := (v.entryId + 1) % maxWriteOperationsSupported
  let offset := A.store (charOffset - accumulatedLength)
  let offset := if offset < 0 then A.store (offset + (buffer.slot entryId).size) else offset
  let maxPosition := A.store (accumulatedLength - 1)
  if entryId = buffer.outOffs ∧ A.compare maxPosition < charOffset then .error ()
  else .ok ⟨accumulatedLength, entryId, offset⟩

/-- The function, with the arithmetic of its loop left open, for at most so many
iterations: `none` if the loop wants more, `some none` for `NULL`, and otherwise the slot
and what is stored through `entry_offset_byte_rtn`. -/
def findEntry (A : Arith) (buffer : Option AesdCircularBuffer) (charOffset iterations : ℕ) :
    Option (Option (ℕ × ℕ)) :=
  match buffer with
  -- if circular buffer does not exist, exit
  | none => some none
  | some b =>
      (whileLoop (findCond A charOffset) (findBody A b charOffset) iterations
        ⟨A.store 0, b.outOffs, A.store charOffset⟩).map fun
          | .error _ => none
          | .ok v => some (v.entryId, wrapU 64 v.offset)

/-- `aesd_circular_buffer_find_entry_offset_for_fpos`. -/
def aesdCircularBufferFindEntryOffsetForFpos (buffer : Option AesdCircularBuffer)
    (charOffset iterations : ℕ) : Option (Option (ℕ × ℕ)) :=
  findEntry .int16 buffer charOffset iterations

/-! ## The states the loop goes through -/

namespace AesdCircularBuffer

/-- The sizes of the first `k` slots from the read index on. -/
def sizesUpTo (b : AesdCircularBuffer) (k : ℕ) : ℕ :=
  ∑ i ∈ Finset.range k, (b.slot ((b.outOffs + i) % 10)).size

@[simp] theorem sizesUpTo_zero (b : AesdCircularBuffer) : b.sizesUpTo 0 = 0 := rfl

theorem sizesUpTo_succ (b : AesdCircularBuffer) (k : ℕ) :
    b.sizesUpTo (k + 1) = b.sizesUpTo k + (b.slot ((b.outOffs + k) % 10)).size :=
  Finset.sum_range_succ _ _

theorem sizesUpTo_mono (b : AesdCircularBuffer) : Monotone b.sizesUpTo :=
  monotone_nat_of_le_succ fun k => by
    rw [sizesUpTo_succ]
    exact Nat.le_add_right _ _

/-- Every lap adds the same. -/
theorem sizesUpTo_lap (b : AesdCircularBuffer) (k : ℕ) :
    b.sizesUpTo (10 + k) = b.sizesUpTo 10 + b.sizesUpTo k := by
  rw [sizesUpTo, Finset.sum_range_add, ← sizesUpTo, sizesUpTo, sizesUpTo]
  congr 1
  apply Finset.sum_congr rfl
  intro i _
  rw [show b.outOffs + (10 + i) = b.outOffs + i + 10 by omega, Nat.add_mod_right]

theorem sizesUpTo_laps (b : AesdCircularBuffer) (q k : ℕ) :
    b.sizesUpTo (10 * q + k) = q * b.sizesUpTo 10 + b.sizesUpTo k := by
  induction q with
  | zero => simp
  | succ q ih =>
    rw [show 10 * (q + 1) + k = 10 + (10 * q + k) by omega, sizesUpTo_lap, ih]
    ring

end AesdCircularBuffer

section Passes

variable (A : Arith) (b : AesdCircularBuffer) (charOffset : ℕ)

/-- `offset` after an iteration that ends at the `k`-th slot from the read index. -/
def offsetAt (k : ℕ) : ℤ :=
  let offset := A.store (charOffset - b.sizesUpTo k)
  if offset < 0 then
    A.store (charOffset - b.sizesUpTo k + (b.slot ((b.outOffs + k) % 10)).size)
  else offset

/-- The variables after `k` iterations. -/
def findVars (k : ℕ) : FindVars where
  accumulatedLength := A.store (b.sizesUpTo k)
  entryId := (b.outOffs + k) % 10
  offset := if k = 0 then A.store charOffset else offsetAt A b charOffset k

variable {A b charOffset} {k : ℕ}

theorem findVars_zero (hout : b.outOffs < 10) :
    findVars A b charOffset 0 = ⟨A.store 0, b.outOffs, A.store charOffset⟩ := by
  simp [findVars, Nat.mod_eq_of_lt hout]

theorem findCond_findVars :
    findCond A charOffset (findVars A b charOffset k) =
      decide (A.seen (b.sizesUpTo k) < charOffset) :=
  rfl

/-- **One iteration.** -/
theorem findBody_findVars (hout : b.outOffs < 10) :
    findBody A b charOffset (findVars A b charOffset k) =
      if (k + 1) % 10 = 0 ∧ A.seen (b.sizesUpTo (k + 1) - 1) < charOffset then .error ()
      else .ok (findVars A b charOffset (k + 1)) := by
  have hsum : A.store (A.store (b.sizesUpTo k) + (b.slot ((b.outOffs + k) % 10)).size) =
      A.store (b.sizesUpTo (k + 1)) := by
    rw [A.store_add, AesdCircularBuffer.sizesUpTo_succ]
    push_cast
    rfl
  have hid : ((b.outOffs + k) % 10 + 1) % 10 = (b.outOffs + (k + 1)) % 10 := by omega
  have hround : (b.outOffs + (k + 1)) % 10 = b.outOffs ↔ (k + 1) % 10 = 0 := by omega
  have hmax : A.compare (A.store (A.store (b.sizesUpTo (k + 1)) - 1)) =
      A.seen (b.sizesUpTo (k + 1) - 1) := by
    rw [sub_eq_add_neg, A.store_add, ← sub_eq_add_neg]
    rfl
  simp only [findBody, findVars, hsum, hid, A.store_sub, A.store_add, hround, hmax, offsetAt,
    Nat.add_one_ne_zero, if_false]

end Passes

end Aesd
