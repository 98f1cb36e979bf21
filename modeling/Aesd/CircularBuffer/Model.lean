import Mathlib.Tactic

/-!
# The circular buffer of `aesd-circular-buffer.c`

The data model and the two operations that build a buffer, as the source has
them: ten entries, an index to write at, an index to read from, and a flag.

A pointer is the identity of a block or `NULL`, and `NULL` is `none`; `size_t`
and `uint8_t` values are natural numbers.  `inOffs` is deliberately not a `Fin 10`:
`aesd_circular_buffer_add_entry` checks it, and the branch it takes on a bad
index is part of the function.

The debug prints are not modelled.  They are the only thing left out.
-/

namespace Aesd

/-- `AESDCHAR_MAX_WRITE_OPERATIONS_SUPPORTED`. -/
abbrev maxWriteOperationsSupported : ℕ := 10

/-- `struct aesd_buffer_entry`. -/
structure AesdBufferEntry where
  /-- A location where the buffer contents are stored, or `NULL`. -/
  buffptr : Option ℕ
  /-- Number of bytes stored in `buffptr`. -/
  size : ℕ
  deriving DecidableEq, Repr

/-- The all-zero entry: what `memset` leaves in a slot. -/
def AesdBufferEntry.zero : AesdBufferEntry := ⟨none, 0⟩

/-- `struct aesd_circular_buffer`. -/
structure AesdCircularBuffer where
  /-- The most recent write operations. -/
  entry : Vector AesdBufferEntry maxWriteOperationsSupported
  /-- Where the next write should be stored. -/
  inOffs : ℕ
  /-- The first location to read from. -/
  outOffs : ℕ
  /-- Set to true when the entry structure is full. -/
  full : Bool
  deriving DecidableEq, Repr

namespace AesdCircularBuffer

/-- `buffer->entry[i]`. -/
def slot (b : AesdCircularBuffer) (i : ℕ) : AesdBufferEntry := (b.entry[i]?).getD .zero

/-- The slots in the order in which `AESD_CIRCULAR_BUFFER_FOREACH` visits them. -/
def slots (b : AesdCircularBuffer) : List AesdBufferEntry := b.entry.toList

end AesdCircularBuffer

/-- `aesd_circular_buffer_init`: the buffer after `memset` to zero. -/
def aesdCircularBufferInit : AesdCircularBuffer where
  entry := Vector.replicate maxWriteOperationsSupported .zero
  inOffs := 0
  outOffs := 0
  full := false

/-- `aesd_circular_buffer_add_entry`: the pointer it returns and the buffer it
leaves. -/
def aesdCircularBufferAddEntry (buffer : AesdCircularBuffer) (addEntry : AesdBufferEntry) :
    Option ℕ × AesdCircularBuffer :=
  -- the index is invalid: nothing is stored
  if maxWriteOperationsSupported ≤ buffer.inOffs then (none, buffer)
  else
    -- if the buffer is full, make room for a new element
    let resultP := if buffer.full then (buffer.slot buffer.inOffs).buffptr else none
    let outOffs :=
      if buffer.full then (buffer.outOffs + 1) % maxWriteOperationsSupported
      else buffer.outOffs
    -- the write index is about to catch the read index just computed
    let full := buffer.full ||
      (buffer.inOffs + 1) % maxWriteOperationsSupported == outOffs
    (resultP,
      { entry := buffer.entry.setIfInBounds buffer.inOffs ⟨addEntry.buffptr, addEntry.size⟩
        inOffs := (buffer.inOffs + 1) % maxWriteOperationsSupported
        outOffs := outOffs
        full := full })

/-! ## What `add_entry` does to a buffer with a valid write index -/

section AddEntry

variable {b : AesdCircularBuffer} (e : AesdBufferEntry)

theorem addEntry_result (hin : b.inOffs < 10) :
    (aesdCircularBufferAddEntry b e).1 =
      if b.full then (b.slot b.inOffs).buffptr else none := by
  rw [aesdCircularBufferAddEntry, if_neg (by simpa using hin)]

theorem addEntry_inOffs (hin : b.inOffs < 10) :
    (aesdCircularBufferAddEntry b e).2.inOffs = (b.inOffs + 1) % 10 := by
  rw [aesdCircularBufferAddEntry, if_neg (by simpa using hin)]

theorem addEntry_outOffs (hin : b.inOffs < 10) :
    (aesdCircularBufferAddEntry b e).2.outOffs =
      if b.full then (b.outOffs + 1) % 10 else b.outOffs := by
  rw [aesdCircularBufferAddEntry, if_neg (by simpa using hin)]

theorem addEntry_full (hin : b.inOffs < 10) :
    (aesdCircularBufferAddEntry b e).2.full =
      (b.full || (b.inOffs + 1) % 10 == if b.full then (b.outOffs + 1) % 10 else b.outOffs) := by
  rw [aesdCircularBufferAddEntry, if_neg (by simpa using hin)]

/-- The new entry is at the write index, and no other slot is touched. -/
theorem addEntry_slot (hin : b.inOffs < 10) (j : ℕ) :
    (aesdCircularBufferAddEntry b e).2.slot j = if j = b.inOffs then e else b.slot j := by
  rw [aesdCircularBufferAddEntry, if_neg (by simpa using hin)]
  simp only [AesdCircularBuffer.slot, Vector.getElem?_setIfInBounds]
  by_cases hj : b.inOffs = j
  · subst hj
    rw [if_pos rfl, if_pos hin, if_pos rfl, Option.getD_some]
  · rw [if_neg hj, if_neg (Ne.symm hj)]

theorem init_slot (j : ℕ) : aesdCircularBufferInit.slot j = .zero := by
  simp only [AesdCircularBuffer.slot, aesdCircularBufferInit, Vector.getElem?_replicate]
  split <;> rfl

end AddEntry
end Aesd
