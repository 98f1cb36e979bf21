import Aesd.Driver.Model
import Aesd.Foundations.Lines

/-!
# What `aesd_write` does

`aesd_write` allocates, copies, scans and hands over, in two branches that differ
in when they touch the device.  On a well-formed driver --- every pointer live,
every block as long as the entry says, no two pointers alike --- both branches come
to the same: the pending bytes and the new ones, in a block of their own
(`Driver.filled`), and if these are a line, that block in the ring (`Driver.handed`).

The commit test deserves a word.  It compares an `int`, which is `-1` if there is no
newline, with a `size_t` difference, which wraps to the same value if there are no
bytes.  So the test accepts the lines *and the empty entry* (`Committable`).
-/

namespace Aesd

open FixedWidth

namespace Driver

variable (d : Driver)

/-- The eleven entries that hold pointers: the slots of the ring, and the partial
entry. -/
def entryAt : Option ℕ → AesdBufferEntry
  | some j => d.dev.bufferP.slot j
  | none => d.dev.entry

/-- The pointers they hold. -/
def ptrAt (i : Option ℕ) : Option ℕ := (d.entryAt i).buffptr

@[simp] theorem ptrAt_none : d.ptrAt none = d.dev.entry.buffptr := rfl

@[simp] theorem ptrAt_some (j : ℕ) : d.ptrAt (some j) = (d.dev.bufferP.slot j).buffptr := rfl

/-- The contents of the blocks they point to. -/
def dataAt (i : Option ℕ) : Option (List UInt8) := (d.ptrAt i).bind d.heap.data?

/-- The bytes of the partial entry. -/
def pending : List UInt8 := bytesAt d.heap d.dev.entry.buffptr

/-- The bytes of a slot. -/
def slotBytes (j : ℕ) : List UInt8 := bytesAt d.heap (d.dev.bufferP.slot j).buffptr

theorem slotBytes_eq (j : ℕ) : d.slotBytes j = (d.dataAt (some j)).getD [] := rfl

/-- **Every pointer is live and held once, and every block is as long as its entry
says.** -/
structure Wf : Prop where
  owned : d.heap.Owned d.ptrAt
  sized : ∀ i p, d.ptrAt i = some p →
    ∃ data, d.heap.data? p = some data ∧ data.length = (d.entryAt i).size
  bounded : ∀ i p, d.ptrAt i = some p → (d.entryAt i).size < 2 ^ 31
  null : ∀ j, d.ptrAt (some j) = none → (d.dev.bufferP.slot j).size = 0
  inOffs_lt : d.dev.bufferP.inOffs < 10
  outOffs_lt : d.dev.bufferP.outOffs < 10
  counter_nonneg : 0 ≤ d.dev.readCounter
  counter_le : d.dev.readCounter ≤ 10

/-- The partial entry with `data` appended, in a new block. -/
def filled (data : List UInt8) : Driver where
  heap := (d.heap.alloc (d.pending ++ data)).releasePtr d.dev.entry.buffptr
  dev := { d.dev with entry := ⟨some d.heap.fresh, (d.pending ++ data).length⟩ }

/-- The partial entry handed to the ring. -/
def handed : Driver where
  heap := d.heap.releasePtr (aesdCircularBufferAddEntry d.dev.bufferP d.dev.entry).1
  dev :=
    { d.dev with
      bufferP := (aesdCircularBufferAddEntry d.dev.bufferP d.dev.entry).2
      entry := ⟨none, 0⟩ }

end Driver

/-- What the commit test accepts. -/
def Committable (data : List UInt8) : Prop := data = [] ∨ Line eol data

instance (data : List UInt8) : Decidable (Committable data) :=
  inferInstanceAs (Decidable (_ ∨ _))

/-! ## The scan -/

theorem checkEOLCharLoop_eq (bs : List UInt8) (i : ℤ) :
    checkEOLCharLoop (i + bs.length) bs i =
      .ok (if eol ∈ bs then i + bs.idxOf eol else -1) := by
  induction bs generalizing i with
  | nil => simp [checkEOLCharLoop]
  | cons b bs ih =>
    have hlt : i < i + ((b :: bs).length : ℤ) := by
      rw [List.length_cons]; push_cast; omega
    rw [checkEOLCharLoop, if_pos hlt]
    by_cases hb : b = eol
    · rw [if_pos hb, if_pos (by simp [hb])]
      simp [hb]
    · have hsize : i + ((b :: bs).length : ℤ) = (i + 1) + (bs.length : ℤ) := by
        rw [List.length_cons]; push_cast; omega
      rw [if_neg hb, hsize, ih]
      by_cases hmem : eol ∈ bs
      · rw [if_pos hmem, if_pos (by simp [hmem]), List.idxOf_cons_ne _ hb]
        push_cast
        congr 1
        omega
      · rw [if_neg hmem, if_neg (by simp [hmem, Ne.symm hb])]

/-- The scan of a block of at most `INT_MAX` bytes finds its first newline. -/
theorem checkEOLChar_eq {h : Heap} {i : ℕ} {data : List UInt8}
    (hd : h.data? i = some data) (hlen : data.length < 2 ^ 31) :
    checkEOLChar h (some i) (wrapS 32 data.length) =
      .ok (if eol ∈ data then (data.idxOf eol : ℤ) else -1) := by
  have hwrap : wrapS 32 (data.length : ℤ) = data.length :=
    wrapS_of_bounds (by omega) (by omega)
  rw [checkEOLChar, hwrap]
  split
  · rw [deref_of_data? hd]
    have hloop := checkEOLCharLoop_eq data 0
    rw [zero_add] at hloop
    simpa using hloop
  · next hpos =>
    have hnil : data = [] := List.length_eq_zero_iff.mp (by omega)
    simp [hnil]

/-- **The commit test accepts the lines and the empty entry.** -/
theorem commit_test_iff {data : List UInt8} (hlen : data.length < 2 ^ 31) :
    wrapU 64 (if eol ∈ data then (data.idxOf eol : ℤ) else -1) =
        wrapU 64 ((data.length : ℤ) - 1) ↔ Committable data := by
  rcases List.eq_nil_or_concat data with rfl | ⟨body, b, hdata⟩
  · simp [Committable]
  · have hpos : 0 < data.length := by rw [hdata]; simp
    have hsize : (wrapU 64 ((data.length : ℤ) - 1) : ℤ) = data.length - 1 :=
      wrapU_of_nonneg (by omega) (by omega)
    have hne : data ≠ [] := List.length_pos_iff.mp hpos
    rw [Committable, or_iff_right hne, line_iff_idxOf]
    by_cases hmem : eol ∈ data
    · have hidx : data.idxOf eol < data.length := List.idxOf_lt_length_iff.mpr hmem
      rw [if_pos hmem, wrapU_natCast (by omega)]
      omega
    · have hidx : data.idxOf eol = data.length := List.idxOf_eq_length_iff.mpr hmem
      have hneg : (wrapU 64 (-1) : ℤ) = -1 + 2 ^ 64 := wrapU_of_neg (by omega) (by omega)
      rw [if_neg hmem]
      omega

/-- **`write_entry_into_buffer` hands over what the commit test accepts.** -/
theorem writeEntryIntoBuffer_eq {d : Driver} {i : ℕ} {data : List UInt8}
    (hptr : d.dev.entry.buffptr = some i) (hd : d.heap.data? i = some data)
    (hsize : d.dev.entry.size = data.length) (hlen : data.length < 2 ^ 31)
    (hfree : ∀ p, (aesdCircularBufferAddEntry d.dev.bufferP d.dev.entry).1 = some p →
      d.heap.Live p) :
    writeEntryIntoBuffer d =
      .ok (if Committable data then (some data, d.handed) else (none, d)) := by
  have hscan := checkEOLChar_eq hd hlen
  have hkfree := kfree_releasePtr hfree
  rw [writeEntryIntoBuffer, hptr, hsize, hscan]
  dsimp only
  by_cases hc : Committable data
  · rw [if_pos ((commit_test_iff hlen).mpr hc), if_pos hc, hkfree, bytesAt_of_data? hd]
    rfl
  · rw [if_neg (mt (commit_test_iff hlen).mp hc), if_neg hc]

/-- Without a block and without bytes, the empty entry is handed over. -/
theorem writeEntryIntoBuffer_null {d : Driver} (hptr : d.dev.entry.buffptr = none)
    (hsize : d.dev.entry.size = 0)
    (hfree : ∀ p, (aesdCircularBufferAddEntry d.dev.bufferP d.dev.entry).1 = some p →
      d.heap.Live p) :
    writeEntryIntoBuffer d = .ok (some [], d.handed) := by
  have hzero : wrapS 32 ((0 : ℕ) : ℤ) = 0 := by decide
  have hscan : checkEOLChar d.heap none (wrapS 32 ((0 : ℕ) : ℤ)) = .ok (-1) := by
    rw [hzero]; rfl
  have hkfree := kfree_releasePtr hfree
  rw [writeEntryIntoBuffer, hptr, hsize, hscan]
  dsimp only
  rw [if_pos (by simp), hkfree]
  rfl

/-! ## Well-formedness through the write -/

namespace Driver

variable {d : Driver}

theorem pending_of_null (hptr : d.dev.entry.buffptr = none) : d.pending = [] := by
  rw [pending, hptr, bytesAt_none]

theorem Wf.pending_data (hw : d.Wf) {i : ℕ} (hptr : d.dev.entry.buffptr = some i) :
    d.heap.data? i = some d.pending ∧ d.pending.length = d.dev.entry.size := by
  obtain ⟨data, hd, hlen⟩ := hw.sized none i hptr
  have hp : d.pending = data := by rw [pending, hptr, bytesAt_of_data? hd]
  rw [hp]
  exact ⟨hd, hlen⟩

theorem Wf.slot_data (hw : d.Wf) {j p : ℕ} (hptr : d.ptrAt (some j) = some p) :
    d.heap.data? p = some (d.slotBytes j) ∧
      (d.slotBytes j).length = (d.dev.bufferP.slot j).size := by
  obtain ⟨data, hd, hlen⟩ := hw.sized (some j) p hptr
  have hp : d.slotBytes j = data := by
    rw [slotBytes, ← ptrAt_some, hptr, bytesAt_of_data? hd]
  rw [hp]
  exact ⟨hd, hlen⟩

/-- The bytes of a slot are as many as its entry says. -/
theorem Wf.length_slotBytes (hw : d.Wf) (j : ℕ) :
    (d.slotBytes j).length = (d.dev.bufferP.slot j).size := by
  cases hptr : d.ptrAt (some j) with
  | none =>
    rw [hw.null j hptr, slotBytes, ← ptrAt_some, hptr, bytesAt_none, List.length_nil]
  | some p => exact (hw.slot_data hptr).2

theorem ptrAt_filled (data : List UInt8) :
    (d.filled data).ptrAt = Function.update d.ptrAt none (some d.heap.fresh) := by
  ext i : 1
  cases i with
  | none => simp [filled]
  | some j => simp [filled]

@[simp] theorem bufferP_filled (data : List UInt8) :
    (d.filled data).dev.bufferP = d.dev.bufferP := rfl

@[simp] theorem bufferP_handed : d.handed.dev.bufferP =
    (aesdCircularBufferAddEntry d.dev.bufferP d.dev.entry).2 := rfl

/-- What a block held elsewhere contains is not changed by filling the entry. -/
theorem Wf.data?_filled (hw : d.Wf) (data : List UInt8) {j p : ℕ}
    (hp : d.ptrAt (some j) = some p) : (d.filled data).heap.data? p = d.heap.data? p := by
  have hne : d.dev.entry.buffptr ≠ some p := fun hq =>
    absurd (hw.owned.inj (some j) none p hp hq) (by simp)
  obtain ⟨e, he⟩ := hw.owned.live (some j) p hp
  rw [filled, BlockHeap.data?_releasePtr_of_ne _ hne, BlockHeap.data?_alloc_of_some _ he, he]

theorem Wf.data?_filled_fresh (hw : d.Wf) (data : List UInt8) :
    (d.filled data).heap.data? d.heap.fresh = some (d.pending ++ data) := by
  have hne : d.dev.entry.buffptr ≠ some d.heap.fresh := hw.owned.ne_fresh none
  rw [filled, BlockHeap.data?_releasePtr_of_ne _ hne, BlockHeap.data?_alloc_fresh]

/-- **Filling keeps the driver well formed.** -/
theorem Wf.filled (hw : d.Wf) {data : List UInt8} (hlen : (d.pending ++ data).length < 2 ^ 31) :
    (d.filled data).Wf where
  owned := by
    rw [ptrAt_filled]
    refine (hw.owned.alloc_update none _).releasePtr_of_forall_ne fun i q hi hq => ?_
    cases i with
    | none =>
      rw [Function.update_self] at hi
      exact hw.owned.ne_fresh none (hq.trans hi.symm)
    | some j =>
      rw [Function.update_of_ne (by simp)] at hi
      exact absurd (hw.owned.inj (some j) none q hi hq) (by simp)
  sized i p hp := by
    cases i with
    | none =>
      rw [ptrAt_filled, Function.update_self, Option.some.injEq] at hp
      exact ⟨_, hp ▸ hw.data?_filled_fresh data, rfl⟩
    | some j =>
      rw [ptrAt_filled, Function.update_of_ne (by simp)] at hp
      obtain ⟨e, he, hlen⟩ := hw.sized (some j) p hp
      exact ⟨e, by rw [hw.data?_filled data hp, he], hlen⟩
  bounded i p hp := by
    cases i with
    | none => exact hlen
    | some j =>
      rw [ptrAt_filled, Function.update_of_ne (by simp)] at hp
      exact hw.bounded (some j) p hp
  null j hj := hw.null j hj
  inOffs_lt := hw.inOffs_lt
  outOffs_lt := hw.outOffs_lt
  counter_nonneg := hw.counter_nonneg
  counter_le := hw.counter_le

theorem pending_filled (hw : d.Wf) (data : List UInt8) :
    (d.filled data).pending = d.pending ++ data := by
  rw [pending, filled]
  exact bytesAt_of_data? (hw.data?_filled_fresh data)

theorem dataAt_filled (hw : d.Wf) (data : List UInt8) (j : ℕ) :
    (d.filled data).dataAt (some j) = d.dataAt (some j) := by
  have hptr : (d.filled data).ptrAt (some j) = d.ptrAt (some j) := by
    rw [ptrAt_filled, Function.update_of_ne (by simp)]
  rw [dataAt, dataAt, hptr]
  cases hp : d.ptrAt (some j) with
  | none => rfl
  | some p => rw [Option.bind_some, Option.bind_some, hw.data?_filled data hp]

theorem dataAt_filled_entry (hw : d.Wf) (data : List UInt8) :
    (d.filled data).dataAt none = some (d.pending ++ data) := by
  rw [dataAt, ptrAt_filled, Function.update_self, Option.bind_some, hw.data?_filled_fresh]

/-- The pointers after handing over. -/
theorem ptrAt_handed (hin : d.dev.bufferP.inOffs < 10) :
    d.handed.ptrAt = Function.update
      (Function.update d.ptrAt (some d.dev.bufferP.inOffs) (d.ptrAt none)) none none := by
  ext i : 1
  cases i with
  | none => simp [handed]
  | some j =>
    rw [Function.update_of_ne (by simp)]
    by_cases hj : j = d.dev.bufferP.inOffs
    · subst hj
      rw [Function.update_self, ptrAt_some, handed, addEntry_slot _ hin, if_pos rfl, ptrAt_none]
    · rw [Function.update_of_ne (by simpa using hj), ptrAt_some, handed, addEntry_slot _ hin,
        if_neg hj, ptrAt_some]

/-- The pointer `add_entry` returns is the one it overwrites, or `NULL`. -/
theorem addEntry_result_eq (hin : d.dev.bufferP.inOffs < 10) {p : ℕ}
    (hp : (aesdCircularBufferAddEntry d.dev.bufferP d.dev.entry).1 = some p) :
    d.ptrAt (some d.dev.bufferP.inOffs) = some p := by
  rw [addEntry_result _ hin] at hp
  split at hp
  · exact hp
  · exact absurd hp (by simp)

theorem Wf.live_result (hw : d.Wf) (p : ℕ)
    (hp : (aesdCircularBufferAddEntry d.dev.bufferP d.dev.entry).1 = some p) :
    d.heap.Live p :=
  hw.owned.live _ p (addEntry_result_eq hw.inOffs_lt hp)

/-- What a block other than the displaced one contains is not changed by handing
over. -/
theorem Wf.data?_handed (hw : d.Wf) {i : Option ℕ} {p : ℕ} (hp : d.ptrAt i = some p)
    (hi : i ≠ some d.dev.bufferP.inOffs) : d.handed.heap.data? p = d.heap.data? p := by
  refine BlockHeap.data?_releasePtr_of_ne _ fun hq => hi ?_
  exact hw.owned.inj _ _ p hp (addEntry_result_eq hw.inOffs_lt hq)

/-- **Handing over keeps the driver well formed.** -/
theorem Wf.handed (hw : d.Wf) (hnull : d.dev.entry.buffptr = none → d.dev.entry.size = 0) :
    d.handed.Wf where
  owned := by
    rw [ptrAt_handed hw.inOffs_lt]
    refine (hw.owned.move (by simp)).releasePtr_of_forall_ne fun i q hi hq => ?_
    have hdis := addEntry_result_eq hw.inOffs_lt hq
    cases i with
    | none => simp at hi
    | some j =>
      rw [Function.update_of_ne (by simp)] at hi
      by_cases hj : some j = some d.dev.bufferP.inOffs
      · rw [hj, Function.update_self] at hi
        exact absurd (hw.owned.inj none _ q hi hdis) (by simp)
      · rw [Function.update_of_ne hj] at hi
        exact hj (hw.owned.inj _ _ q hi hdis)
  sized i p hp := by
    cases i with
    | none => simp [Driver.handed] at hp
    | some j =>
      rw [ptrAt_handed hw.inOffs_lt, Function.update_of_ne (by simp)] at hp
      by_cases hj : j = d.dev.bufferP.inOffs
      · subst hj
        rw [Function.update_self] at hp
        obtain ⟨e, he, hlen⟩ := hw.sized none p hp
        refine ⟨e, by rw [hw.data?_handed hp (by simp), he], ?_⟩
        rw [entryAt, Driver.handed, addEntry_slot _ hw.inOffs_lt, if_pos rfl]
        exact hlen
      · rw [Function.update_of_ne (by simpa using hj)] at hp
        obtain ⟨e, he, hlen⟩ := hw.sized (some j) p hp
        refine ⟨e, by rw [hw.data?_handed hp (by simpa using hj), he], ?_⟩
        rw [entryAt, Driver.handed, addEntry_slot _ hw.inOffs_lt, if_neg hj]
        exact hlen
  bounded i p hp := by
    cases i with
    | none => simp [Driver.handed] at hp
    | some j =>
      rw [ptrAt_handed hw.inOffs_lt, Function.update_of_ne (by simp)] at hp
      rw [entryAt, Driver.handed, addEntry_slot _ hw.inOffs_lt]
      by_cases hj : j = d.dev.bufferP.inOffs
      · subst hj
        rw [Function.update_self] at hp
        rw [if_pos rfl]
        exact hw.bounded none p hp
      · rw [Function.update_of_ne (by simpa using hj)] at hp
        rw [if_neg hj]
        exact hw.bounded (some j) p hp
  null j hj := by
    rw [ptrAt_some] at hj
    simp only [Driver.handed, addEntry_slot _ hw.inOffs_lt] at hj ⊢
    split at hj
    · next heq => rw [if_pos heq]; exact hnull hj
    · next hne => rw [if_neg hne]; exact hw.null j hj
  inOffs_lt := by
    rw [Driver.handed, addEntry_inOffs _ hw.inOffs_lt]
    omega
  outOffs_lt := by
    rw [Driver.handed, addEntry_outOffs _ hw.inOffs_lt]
    have := hw.outOffs_lt
    split <;> omega
  counter_nonneg := hw.counter_nonneg
  counter_le := hw.counter_le

theorem pending_handed : d.handed.pending = [] := rfl

/-- **The contents of the slots after handing over.** -/
theorem dataAt_handed (hw : d.Wf) (j : ℕ) :
    d.handed.dataAt (some j) =
      if j = d.dev.bufferP.inOffs then d.dataAt none else d.dataAt (some j) := by
  rw [dataAt, ptrAt_handed hw.inOffs_lt, Function.update_of_ne (by simp)]
  by_cases hj : j = d.dev.bufferP.inOffs
  · subst hj
    rw [Function.update_self, if_pos rfl, dataAt]
    cases hp : d.ptrAt none with
    | none => rfl
    | some p => rw [Option.bind_some, Option.bind_some, hw.data?_handed hp (by simp)]
  · rw [Function.update_of_ne (by simpa using hj), if_neg hj, dataAt]
    cases hp : d.ptrAt (some j) with
    | none => rfl
    | some p => rw [Option.bind_some, Option.bind_some, hw.data?_handed hp (by simpa using hj)]

end Driver

/-! ## The ways `aesd_write` ends -/

/-- The partial entry dropped. -/
def Driver.cleared (d : Driver) : Driver where
  heap := d.heap.releasePtr d.dev.entry.buffptr
  dev := { d.dev with entry := ⟨none, 0⟩ }

theorem Driver.ptrAt_cleared (d : Driver) :
    d.cleared.ptrAt = Function.update d.ptrAt none none := by
  ext i : 1
  cases i with
  | none => simp [cleared]
  | some j => simp [cleared]

theorem Driver.Wf.cleared {d : Driver} (hw : d.Wf) : d.cleared.Wf where
  owned := by
    rw [Driver.ptrAt_cleared]
    exact hw.owned.drop none
  sized i p hp := by
    cases i with
    | none => simp [Driver.cleared] at hp
    | some j =>
      have hp' : d.ptrAt (some j) = some p := hp
      have hne : d.dev.entry.buffptr ≠ some p := fun hq =>
        absurd (hw.owned.inj (some j) none p hp' hq) (by simp)
      obtain ⟨e, he, hlen⟩ := hw.sized (some j) p hp'
      exact ⟨e, by rw [Driver.cleared, BlockHeap.data?_releasePtr_of_ne _ hne, he], hlen⟩
  bounded i p hp := by
    cases i with
    | none => simp [Driver.cleared] at hp
    | some j => exact hw.bounded (some j) p hp
  null j hj := hw.null j hj
  inOffs_lt := hw.inOffs_lt
  outOffs_lt := hw.outOffs_lt
  counter_nonneg := hw.counter_nonneg
  counter_le := hw.counter_le

/-- The size `aesd_write` passes to `kmalloc`. -/
def kmallocRequest (d : Driver) (count : ℕ) : ℕ :=
  match d.dev.entry.buffptr with
  | some _ => wrapU 64 (wrapS 32 (wrapU 64 ((count : ℤ) + d.dev.entry.size)))
  | none => count

/-- The ways `aesd_write` ends, on a well-formed driver. -/
inductive WriteOutcome (d : Driver) (fPos : ℤ) (interrupted : Bool)
    (alloc : Option (ℕ → UInt8)) (buf : List UInt8) (count : ℕ) :
    Except Fault (Reply × ℤ × Driver) → Prop where
  /-- The lock was not obtained. -/
  | interrupted : interrupted = true →
      WriteOutcome d fPos interrupted alloc buf count
        (.ok ({ retval := -eRestartsys }, fPos, d))
  /-- The allocation failed, and its result was written through. -/
  | nullPointer : interrupted = false → (alloc = none ∨ 2 ^ 31 ≤ kmallocRequest d count) →
      WriteOutcome d fPos interrupted alloc buf count (.error .nullPointer)
  /-- The accumulated size does not fit an `int`, and the block is too short. -/
  | outOfBounds : interrupted = false → d.dev.entry.buffptr ≠ none →
      2 ^ 31 ≤ count + d.dev.entry.size →
      WriteOutcome d fPos interrupted alloc buf count (.error .outOfBounds)
  /-- The copy failed with a partial write ongoing: the new block is left behind. -/
  | faultOngoing {heap : Heap} : interrupted = false → d.dev.entry.buffptr ≠ none →
      (buf.length < count ∨ 2 ^ 31 ≤ count) →
      (heap = d.heap ∨ ∃ block, heap = d.heap.alloc block) →
      WriteOutcome d fPos interrupted alloc buf count
        (.ok ({ retval := -eFault }, fPos, { d with heap }))
  /-- The copy failed at the start of an entry: the entry is left as it is. -/
  | faultNew {block : List UInt8} : interrupted = false → d.dev.entry.buffptr = none →
      buf.length < count → block.length = count → count < 2 ^ 31 →
      WriteOutcome d fPos interrupted alloc buf count
        (.ok ({ retval := -eFault }, fPos,
          { heap := d.heap.alloc block
            dev := { d.dev with entry := ⟨some d.heap.fresh, count⟩ } }))
  /-- The size was refused by `kmalloc` and by the copy. -/
  | refused : interrupted = false → d.dev.entry.buffptr = none → 2 ^ 31 ≤ count →
      WriteOutcome d fPos interrupted alloc buf count
        (.ok ({ retval := -eFault }, fPos, { d with dev.entry := ⟨none, count⟩ }))
  /-- Nothing was to be copied, and there was no block to copy it to. -/
  | empty : interrupted = false → alloc = none → count = 0 → d.pending = [] →
      WriteOutcome d fPos interrupted alloc buf count
        (.ok ({ retval := 0, commit := some [] }, wrapS 64 (fPos + count), d.cleared.handed))
  /-- The data was appended to the partial entry. -/
  | kept : interrupted = false → alloc ≠ none → count ≤ buf.length →
      (d.pending ++ buf.take count).length < 2 ^ 31 →
      ¬ Committable (d.pending ++ buf.take count) →
      WriteOutcome d fPos interrupted alloc buf count
        (.ok ({ retval := count }, wrapS 64 (fPos + count), d.filled (buf.take count)))
  /-- The data completed the partial entry, which was handed over. -/
  | committed : interrupted = false → alloc ≠ none → count ≤ buf.length →
      (d.pending ++ buf.take count).length < 2 ^ 31 →
      Committable (d.pending ++ buf.take count) →
      WriteOutcome d fPos interrupted alloc buf count
        (.ok ({ retval := count, commit := some (d.pending ++ buf.take count) },
          wrapS 64 (fPos + count), (d.filled (buf.take count)).handed))

section Outcome

variable {d : Driver} {fPos : ℤ} {alloc : Option (ℕ → UInt8)} {buf : List UInt8} {count : ℕ}

/-- The end of a write that has filled the entry. -/
theorem aesdWriteFinish_filled (hw : d.Wf) (hcount : count ≤ buf.length)
    (hlen : (d.pending ++ buf.take count).length < 2 ^ 31) :
    aesdWriteFinish (d.filled (buf.take count)) fPos count =
      .ok (if Committable (d.pending ++ buf.take count) then
          ({ retval := count, commit := some (d.pending ++ buf.take count) },
            wrapS 64 (fPos + count), (d.filled (buf.take count)).handed)
        else ({ retval := count }, wrapS 64 (fPos + count), d.filled (buf.take count))) := by
  have hwf := hw.filled hlen
  have hwrite := writeEntryIntoBuffer_eq (d := d.filled (buf.take count)) rfl
    (hw.data?_filled_fresh _) rfl hlen hwf.live_result
  have hret : wrapS 64 (count : ℤ) = count := by
    rw [List.length_append, List.length_take, min_eq_left hcount] at hlen
    exact wrapS_of_bounds (by omega) (by omega)
  rw [aesdWriteFinish, hwrite, hret]
  by_cases hc : Committable (d.pending ++ buf.take count)
  · simp only [if_pos hc]
  · simp only [if_neg hc]

/-- The end of a write of nothing that has no block. -/
theorem aesdWriteFinish_cleared (hw : d.Wf) :
    aesdWriteFinish d.cleared fPos 0 =
      .ok ({ retval := 0, commit := some [] }, wrapS 64 (fPos + (0 : ℕ)), d.cleared.handed) := by
  have hwrite := writeEntryIntoBuffer_null (d := d.cleared) rfl rfl hw.cleared.live_result
  have hret : wrapS 64 ((0 : ℕ) : ℤ) = 0 := by decide
  rw [aesdWriteFinish, hwrite, hret]

/-- The end of a write that has filled the entry is one of two outcomes. -/
theorem outcome_of_filled (hw : d.Wf) (hsome : alloc ≠ none) (hcount : count ≤ buf.length)
    (hlen : (d.pending ++ buf.take count).length < 2 ^ 31) :
    WriteOutcome d fPos false alloc buf count
      (aesdWriteFinish (d.filled (buf.take count)) fPos count) := by
  rw [aesdWriteFinish_filled hw hcount hlen]
  by_cases hc : Committable (d.pending ++ buf.take count)
  · rw [if_pos hc]
    exact .committed rfl hsome hcount hlen hc
  · rw [if_neg hc]
    exact .kept rfl hsome hcount hlen hc

theorem outcome_of_cleared (hw : d.Wf) (hnone : alloc = none) (hpend : d.pending = []) :
    WriteOutcome d fPos false alloc buf 0 (aesdWriteFinish d.cleared fPos 0) := by
  rw [aesdWriteFinish_cleared hw]
  exact .empty rfl hnone rfl hpend

theorem aesdWriteNew_outcome (hw : d.Wf) (hptr : d.dev.entry.buffptr = none) :
    WriteOutcome d fPos false alloc buf count (aesdWriteNew d fPos alloc buf count) := by
  have hpend : d.pending = [] := Driver.pending_of_null hptr
  have hreq : kmallocRequest d count = count := by rw [kmallocRequest, hptr]
  unfold aesdWriteNew
  rcases kmalloc_cases d.heap alloc count with ⟨hk, hnull⟩ | ⟨block, hk, hblock, hlt, hsome⟩
  · -- no block: only a copy of nothing returns
    simp only [hk]
    cases hcopy : copyFromUser d.heap none 0 buf count with
    | error f =>
      rw [store_null_error (copyFromUser_error hcopy)]
      exact .nullPointer rfl (by rw [hreq]; exact hnull)
    | ok res =>
      obtain ⟨left, heap⟩ := res
      dsimp only
      rcases copyFromUser_ok hcopy with ⟨hbig, rfl, rfl⟩ | ⟨hsmall, hleft, hstore⟩
      · rw [if_pos (by omega)]
        exact .refused rfl hptr hbig
      · obtain ⟨hnil, rfl⟩ := store_null_ok hstore
        have hzero : count = 0 := by rw [← length_padded buf count, hnil, List.length_nil]
        subst hzero
        have hclear : d.cleared = { d with dev.entry := ⟨none, 0⟩ } := by
          rw [Driver.cleared, hptr, BlockHeap.releasePtr_none]
        rw [if_neg (by omega)]
        rw [← hclear]
        exact outcome_of_cleared hw (hnull.resolve_right (by omega)) hpend
  · simp only [hk]
    cases hcopy : copyFromUser (d.heap.alloc block) (some d.heap.fresh) 0 buf count with
    | error f =>
      have hshort := (copyFromUser_fresh_error hcopy).2
      omega
    | ok res =>
      obtain ⟨left, heap⟩ := res
      dsimp only
      rcases copyFromUser_fresh_ok (Nat.zero_le _) hcopy with
        ⟨hbig, -, -⟩ | ⟨-, hleft, -, rfl⟩
      · omega
      · have hfill : block.take 0 ++ padded buf count ++ block.drop (0 + count) =
            padded buf count := by
          rw [Nat.zero_add, List.drop_of_length_le (by omega)]
          simp
        rw [hfill]
        by_cases hl : left ≠ 0
        · rw [if_pos hl]
          exact .faultNew rfl hptr (by omega) (length_padded buf count) hlt
        · have hcount : count ≤ buf.length := by omega
          have hfilled : d.filled (buf.take count) =
              { heap := d.heap.alloc (padded buf count)
                dev := { d.dev with entry := ⟨some d.heap.fresh, count⟩ } } := by
            rw [Driver.filled, hpend, hptr, padded_of_le hcount, BlockHeap.releasePtr_none,
              List.nil_append, List.length_take, min_eq_left hcount]
          rw [if_neg hl, ← hfilled]
          refine outcome_of_filled hw hsome hcount ?_
          rw [hpend, List.nil_append, List.length_take]
          omega

/-- The `int` that holds the accumulated size, back in a `size_t`. -/
theorem newSize_eq {count size : ℕ} (h : count + size < 2 ^ 31) :
    wrapU 64 (wrapS 32 (wrapU 64 ((count : ℤ) + size))) = count + size := by
  have h1 : (wrapU 64 ((count : ℤ) + size) : ℤ) = count + size :=
    wrapU_of_nonneg (by omega) (by omega)
  have h2 : wrapS 32 ((count : ℤ) + size) = count + size :=
    wrapS_of_bounds (by omega) (by omega)
  rw [h1, h2]
  exact_mod_cast wrapU_natCast (w := 64) (n := count + size) (by omega)

/-- A partial write without a new block: only an empty entry and a copy of nothing
return. -/
theorem ongoing_outcome_of_null (hw : d.Wf) {i : ℕ} (hptr : d.dev.entry.buffptr = some i)
    (hk : kmalloc d.heap alloc (kmallocRequest d count) = (d.heap, none))
    (hnull : alloc = none ∨ 2 ^ 31 ≤ kmallocRequest d count) :
    WriteOutcome d fPos false alloc buf count (aesdWriteOngoing d fPos alloc buf count) := by
  obtain ⟨hdata, hplen⟩ := hw.pending_data hptr
  have hne : d.dev.entry.buffptr ≠ none := by rw [hptr]; simp
  have hreq : wrapU 64 (wrapS 32 (wrapU 64 ((count : ℤ) + d.dev.entry.size))) =
      kmallocRequest d count := by rw [kmallocRequest, hptr]
  have hmem : memcpy d.heap none d.dev.entry.buffptr d.dev.entry.size =
      store d.heap none 0 d.pending := by
    rw [hptr, ← hplen, memcpy_of_data? hdata]
  unfold aesdWriteOngoing
  simp only [hreq, hk, hmem]
  cases hstore : store d.heap none 0 d.pending with
  | error f =>
    rw [store_null_error hstore]
    exact .nullPointer rfl hnull
  | ok heap₁ =>
    obtain ⟨hp0, rfl⟩ := store_null_ok hstore
    have hsize : d.dev.entry.size = 0 := by rw [← hplen, hp0, List.length_nil]
    dsimp only
    cases hcopy : copyFromUser d.heap none d.dev.entry.size buf count with
    | error f =>
      rw [store_null_error (copyFromUser_error hcopy)]
      exact .nullPointer rfl hnull
    | ok res =>
      obtain ⟨left, heap⟩ := res
      dsimp only
      rcases copyFromUser_ok hcopy with ⟨hbig, rfl, rfl⟩ | ⟨hsmall, hleft, hstore'⟩
      · rw [if_pos (by omega)]
        exact .faultOngoing rfl hne (Or.inr hbig) (Or.inl rfl)
      · obtain ⟨hnil', rfl⟩ := store_null_ok hstore'
        have hzero : count = 0 := by rw [← length_padded buf count, hnil', List.length_nil]
        subst hzero
        have hnew : kmallocRequest d 0 = 0 := by
          rw [← hreq, hsize]
          rfl
        have hclear : d.cleared =
            { heap := d.heap.release i, dev := { d.dev with entry := ⟨none, 0⟩ } } := by
          rw [Driver.cleared, hptr, BlockHeap.releasePtr_some]
        rw [if_neg (by omega), hptr, kfree_of_live ⟨d.pending, hdata⟩, hnew]
        dsimp only
        rw [← hclear]
        exact outcome_of_cleared hw (hnull.resolve_right (by omega)) hp0

/-- The entry after a partial write, with what the two copies and `kfree` leave. -/
theorem filled_of_block (hw : d.Wf) {i : ℕ} (hptr : d.dev.entry.buffptr = some i)
    (hcount : count ≤ buf.length) :
    d.filled (buf.take count) =
      { heap := (d.heap.alloc (d.pending ++ padded buf count)).release i
        dev := { d.dev with entry := ⟨some d.heap.fresh, count + d.dev.entry.size⟩ } } := by
  have hplen := (hw.pending_data hptr).2
  have hlen : (d.pending ++ buf.take count).length = count + d.dev.entry.size := by
    rw [List.length_append, List.length_take, hplen]
    omega
  rw [Driver.filled, hptr, padded_of_le hcount, BlockHeap.releasePtr_some, hlen]

/-- A partial write with a new block. -/
theorem ongoing_outcome_of_block (hw : d.Wf) {i : ℕ} (hptr : d.dev.entry.buffptr = some i)
    {block : List UInt8}
    (hk : kmalloc d.heap alloc (kmallocRequest d count) = (d.heap.alloc block, some d.heap.fresh))
    (hblock : block.length = kmallocRequest d count) (hlt : kmallocRequest d count < 2 ^ 31)
    (hsome : alloc ≠ none) :
    WriteOutcome d fPos false alloc buf count (aesdWriteOngoing d fPos alloc buf count) := by
  obtain ⟨hdata, hplen⟩ := hw.pending_data hptr
  have hne : d.dev.entry.buffptr ≠ none := by rw [hptr]; simp
  have hreq : wrapU 64 (wrapS 32 (wrapU 64 ((count : ℤ) + d.dev.entry.size))) =
      kmallocRequest d count := by rw [kmallocRequest, hptr]
  have hfit : count + d.dev.entry.size < 2 ^ 31 →
      kmallocRequest d count = count + d.dev.entry.size := by
    intro h
    rw [← hreq, newSize_eq h]
  have hmem : memcpy (d.heap.alloc block) (some d.heap.fresh) d.dev.entry.buffptr
      d.dev.entry.size = store (d.heap.alloc block) (some d.heap.fresh) 0 d.pending := by
    rw [hptr, ← hplen, memcpy_of_data? (BlockHeap.data?_alloc_of_some block hdata)]
  unfold aesdWriteOngoing
  simp only [hreq, hk, hmem]
  cases hstore : store (d.heap.alloc block) (some d.heap.fresh) 0 d.pending with
  | error f =>
    obtain ⟨rfl, hshort⟩ := store_fresh_error hstore
    exact .outOfBounds rfl hne (by omega)
  | ok heap₁ =>
    obtain ⟨hle, rfl⟩ := store_fresh_ok (Nat.zero_le _) hstore
    rw [List.take_zero, List.nil_append, Nat.zero_add]
    dsimp only
    have hlen₁ : (d.pending ++ block.drop d.pending.length).length = block.length := by
      rw [List.length_append, List.length_drop]; omega
    cases hcopy : copyFromUser (d.heap.alloc (d.pending ++ block.drop d.pending.length))
        (some d.heap.fresh) d.dev.entry.size buf count with
    | error f =>
      obtain ⟨rfl, hshort⟩ := copyFromUser_fresh_error hcopy
      rw [hlen₁] at hshort
      exact .outOfBounds rfl hne (by omega)
    | ok res =>
      obtain ⟨left, heap⟩ := res
      dsimp only
      rcases copyFromUser_fresh_ok (by rw [hlen₁]; omega) hcopy with
        ⟨hbig, rfl, rfl⟩ | ⟨hsmall, hleft, hle', rfl⟩
      · rw [if_pos (by omega)]
        exact .faultOngoing rfl hne (Or.inr hbig) (Or.inr ⟨_, rfl⟩)
      · rw [hlen₁, hblock] at hle'
        have hnew := hfit (by omega)
        have hfill : (d.pending ++ block.drop d.pending.length).take d.dev.entry.size ++
            padded buf count ++ (d.pending ++ block.drop d.pending.length).drop
              (d.dev.entry.size + count) =
            d.pending ++ padded buf count := by
          rw [← hplen, List.take_left, List.drop_of_length_le, List.append_nil]
          omega
        rw [hfill]
        by_cases hl : left ≠ 0
        · rw [if_pos hl]
          exact .faultOngoing rfl hne (Or.inl (by omega)) (Or.inr ⟨_, rfl⟩)
        · have hcount : count ≤ buf.length := by omega
          have hfree := kfree_of_live
            ⟨d.pending, BlockHeap.data?_alloc_of_some (d.pending ++ padded buf count) hdata⟩
          rw [if_neg hl, hptr, hfree, hnew]
          dsimp only
          rw [← filled_of_block hw hptr hcount]
          refine outcome_of_filled hw hsome hcount ?_
          rw [List.length_append, List.length_take, hplen]
          omega

/-- **`aesd_write` ends in one of the outcomes.** -/
theorem aesdWrite_outcome (hw : d.Wf) (fPos : ℤ) (interrupted : Bool)
    (alloc : Option (ℕ → UInt8)) (buf : List UInt8) (count : ℕ) :
    WriteOutcome d fPos interrupted alloc buf count
      (aesdWrite d fPos interrupted alloc buf count) := by
  unfold aesdWrite
  cases interrupted with
  | true => exact .interrupted rfl
  | false =>
    rw [if_neg (by simp)]
    cases hptr : d.dev.entry.buffptr with
    | none => exact aesdWriteNew_outcome hw hptr
    | some i =>
      rcases kmalloc_cases d.heap alloc (kmallocRequest d count) with
        ⟨hk, hnull⟩ | ⟨block, hk, hblock, hlt, hsome⟩
      · exact ongoing_outcome_of_null hw hptr hk hnull
      · exact ongoing_outcome_of_block hw hptr hk hblock hlt hsome

end Outcome
end Aesd
