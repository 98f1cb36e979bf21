import Aesd.Driver.ReadSpec
import Aesd.Driver.System

/-!
# What a call can do to the driver

A call that returns has one of the outcomes of its file operation, or its file is not
open (`step_outcome`).  For the driver itself less is enough: every call either leaves
the memory, the partial entry and the slots alone and at most moves the read cursor and
the read counter (`Quiet`), or it is a write with one of the outcomes of `WriteOutcome`
(`step_cases`).  Every invariant of the driver is then a statement about these two.

Well-formedness is the first of them: it holds of the loaded driver and every call
that returns keeps it, whatever the kernel's part of the call did.
-/

namespace Aesd

/-- The driver has changed in the read cursor and the read counter at most, and
these in the ways that reads and opens change them. -/
structure Quiet (d d' : Driver) : Prop where
  heap : d'.heap = d.heap
  entry : d'.dev.entry = d.dev.entry
  slots : d'.dev.bufferP.entry = d.dev.bufferP.entry
  inOffs : d'.dev.bufferP.inOffs = d.dev.bufferP.inOffs
  full : d'.dev.bufferP.full = d.dev.bufferP.full
  outOffs : d'.dev.bufferP.outOffs = d.dev.bufferP.outOffs ∨
    (d.dev.bufferP.full = false ∧ d'.dev.bufferP.outOffs = 0) ∨
    (d.current.size ≠ 0 ∧ d'.dev.bufferP.outOffs = (d.dev.bufferP.outOffs + 1) % 10)
  counter : d'.dev.readCounter = d.dev.readCounter ∨ d'.dev.readCounter = 0 ∨
    (d.dev.readCounter ≠ 10 ∧ d'.dev.readCounter = d.dev.readCounter + 1)

namespace Quiet

variable {d d' : Driver}

theorem refl (d : Driver) : Quiet d d :=
  ⟨rfl, rfl, rfl, rfl, rfl, Or.inl rfl, Or.inl rfl⟩

theorem slot (h : Quiet d d') (j : ℕ) : d'.dev.bufferP.slot j = d.dev.bufferP.slot j := by
  rw [AesdCircularBuffer.slot, h.slots, ← AesdCircularBuffer.slot]

theorem entryAt (h : Quiet d d') (i : Option ℕ) : d'.entryAt i = d.entryAt i := by
  cases i with
  | none => exact h.entry
  | some j => exact h.slot j

theorem ptrAt (h : Quiet d d') : d'.ptrAt = d.ptrAt := by
  ext i : 1
  rw [Driver.ptrAt, h.entryAt, ← Driver.ptrAt]

theorem pending (h : Quiet d d') : d'.pending = d.pending := by
  rw [Driver.pending, h.heap, h.entry, ← Driver.pending]

theorem dataAt (h : Quiet d d') (i : Option ℕ) : d'.dataAt i = d.dataAt i := by
  rw [Driver.dataAt, h.heap, h.ptrAt, ← Driver.dataAt]

theorem wf (h : Quiet d d') (hw : d.Wf) : d'.Wf where
  owned := by rw [h.heap, h.ptrAt]; exact hw.owned
  sized i p hp := by
    rw [h.heap, h.entryAt]
    exact hw.sized i p (h.ptrAt ▸ hp)
  bounded i p hp := by
    rw [h.entryAt]
    exact hw.bounded i p (h.ptrAt ▸ hp)
  null j hj := by
    rw [h.slot]
    exact hw.null j (h.ptrAt ▸ hj)
  inOffs_lt := by rw [h.inOffs]; exact hw.inOffs_lt
  outOffs_lt := by
    have := hw.outOffs_lt
    rcases h.outOffs with ho | ⟨-, ho⟩ | ⟨-, ho⟩ <;> omega
  counter_nonneg := by
    have := hw.counter_nonneg
    rcases h.counter with hc | hc | ⟨-, hc⟩ <;> omega
  counter_le := by
    have := hw.counter_le
    rcases h.counter with hc | hc | ⟨hne, hc⟩ <;> omega

/-- A bound on the read index is kept if only slots below it are occupied. -/
theorem outOffs_le {b : ℕ} (h : Quiet d d') (hle : d.dev.bufferP.outOffs ≤ b)
    (hocc : d.current.size ≠ 0 → d.dev.bufferP.outOffs < b) : d'.dev.bufferP.outOffs ≤ b := by
  rcases h.outOffs with ho | ⟨-, ho⟩ | ⟨hsize, ho⟩
  · omega
  · omega
  · have := hocc hsize
    omega

/-- Opening moves the cursor of a ring that is not full. -/
theorem aesdOpen (d : Driver) : Quiet d (aesdOpen d) := by
  unfold Aesd.aesdOpen
  cases hf : d.dev.bufferP.full with
  | true => exact refl d
  | false => exact ⟨rfl, rfl, rfl, rfl, hf.symm ▸ rfl, Or.inr (Or.inl ⟨hf, rfl⟩), Or.inl rfl⟩

/-- Reading moves the cursor and the counter. -/
theorem of_readOutcome {fPos p : ℤ} {interrupted : Bool} {avail count : ℕ} {r : Reply}
    (h : ReadOutcome d fPos interrupted avail count (.ok (r, p, d'))) :
    Quiet d d' ∧ r.commit = none := by
  cases h with
  | interrupted => exact ⟨refl d, rfl⟩
  | nothing => exact ⟨refl d, rfl⟩
  | stopped =>
    exact ⟨⟨rfl, rfl, rfl, rfl, rfl, Or.inl rfl, Or.inr (Or.inl rfl)⟩, rfl⟩
  | fault => exact ⟨refl d, rfl⟩
  | served _ hsize hcounter =>
    refine ⟨⟨rfl, rfl, rfl, rfl, rfl, ?_, Or.inr (Or.inr ⟨hcounter, rfl⟩)⟩, rfl⟩
    cases hl : readLast d fPos count with
    | false => exact Or.inl rfl
    | true => exact Or.inr (Or.inr ⟨hsize, rfl⟩)

end Quiet

/-! ## Well-formedness through a write -/

section Write

variable {d d' : Driver} {fPos p : ℤ} {interrupted : Bool} {alloc : Option (ℕ → UInt8)}
  {buf : List UInt8} {count : ℕ} {r : Reply}

theorem Driver.Wf.alloc_heap (hw : d.Wf) (block : List UInt8) :
    Driver.Wf { d with heap := d.heap.alloc block } where
  owned := hw.owned.alloc block
  sized i p hp := by
    obtain ⟨data, hd, hlen⟩ := hw.sized i p hp
    exact ⟨data, BlockHeap.data?_alloc_of_some block hd, hlen⟩
  bounded := hw.bounded
  null := hw.null
  inOffs_lt := hw.inOffs_lt
  outOffs_lt := hw.outOffs_lt
  counter_nonneg := hw.counter_nonneg
  counter_le := hw.counter_le

/-- An entry without a block may have any size. -/
theorem Driver.Wf.entry_null (hw : d.Wf) (hptr : d.dev.entry.buffptr = none) (size : ℕ) :
    Driver.Wf { d with dev.entry := ⟨none, size⟩ } := by
  have hsame : Driver.ptrAt { d with dev.entry := ⟨none, size⟩ } = d.ptrAt := by
    ext i : 1
    cases i with
    | none => exact hptr.symm
    | some j => rfl
  refine ⟨hsame ▸ hw.owned, fun i p hp => ?_, fun i p hp => ?_, hw.null, hw.inOffs_lt,
    hw.outOffs_lt, hw.counter_nonneg, hw.counter_le⟩
  · cases i with
    | none => simp at hp
    | some j => exact hw.sized (some j) p hp
  · cases i with
    | none => simp at hp
    | some j => exact hw.bounded (some j) p hp

/-- A block in an entry that had none. -/
theorem Driver.filled_of_null (hptr : d.dev.entry.buffptr = none) (block : List UInt8) :
    d.filled block =
      { heap := d.heap.alloc block
        dev := { d.dev with entry := ⟨some d.heap.fresh, block.length⟩ } } := by
  rw [Driver.filled, Driver.pending_of_null hptr, hptr, BlockHeap.releasePtr_none,
    List.nil_append]

/-- **A write that returns keeps the driver well formed.** -/
theorem WriteOutcome.wf (hw : d.Wf)
    (h : WriteOutcome d fPos interrupted alloc buf count (.ok (r, p, d'))) : d'.Wf := by
  cases h with
  | interrupted => exact hw
  | faultOngoing _ _ _ hheap =>
    rcases hheap with rfl | ⟨block, rfl⟩
    · exact hw
    · exact hw.alloc_heap block
  | faultNew _ hptr _ hlen hlt =>
    rw [← hlen, ← Driver.filled_of_null hptr]
    refine hw.filled ?_
    rw [Driver.pending_of_null hptr, List.nil_append]
    omega
  | refused _ hptr => exact hw.entry_null hptr _
  | empty => exact hw.cleared.handed fun _ => rfl
  | kept _ _ _ hlen => exact hw.filled hlen
  | committed _ _ _ hlen => exact (hw.filled hlen).handed fun h => by simp [Driver.filled] at h

end Write

/-! ## One call -/

/-- The file that a call needs to be open. -/
def Call.file? : Call → Option ℕ
  | .aesdOpen _ => none
  | .aesdRelease file => some file
  | .aesdRead file .. => some file
  | .aesdWrite file .. => some file
  | .aesdLlseek file .. => some file
  | .aesdIoctl file .. => some file

namespace Sys

variable {s s' : Sys} {r : Reply}

theorem onFile_ok {file : ℕ} {k : ℤ → Except Fault (Reply × Sys)}
    (h : s.onFile file k = .ok (r, s')) :
    (s.fPos file = none ∧ r = { retval := -eBadf } ∧ s' = s) ∨
      ∃ p, s.fPos file = some p ∧ k p = .ok (r, s') := by
  unfold onFile at h
  split at h
  · next hp =>
    rw [Except.ok.injEq, Prod.mk.injEq] at h
    exact Or.inl ⟨hp, h.1.symm, h.2.symm⟩
  · next p hp => exact Or.inr ⟨p, hp, h⟩

theorem map_ok {res : Except Fault (Reply × ℤ × Driver)} {file : ℕ}
    (h : (res.map fun q => (q.1, s.after file q.2.1 q.2.2)) = .ok (r, s')) :
    ∃ p d, res = .ok (r, p, d) ∧ s' = s.after file p d := by
  cases res with
  | error f => exact absurd h (by simp [Except.map])
  | ok q =>
    obtain ⟨r', p, d⟩ := q
    simp only [Except.map, Except.ok.injEq, Prod.mk.injEq] at h
    exact ⟨p, d, by rw [h.1], h.2.symm⟩

theorem onFile_error {file : ℕ} {k : ℤ → Except Fault (Reply × Sys)} {f : Fault}
    (h : s.onFile file k = .error f) : ∃ p, s.fPos file = some p ∧ k p = .error f := by
  unfold onFile at h
  split at h
  · exact absurd h (by simp)
  · next p hp => exact ⟨p, hp, h⟩

theorem map_error {res : Except Fault (Reply × ℤ × Driver)} {file : ℕ} {f : Fault}
    (h : (res.map fun q => (q.1, s.after file q.2.1 q.2.2)) = .error f) : res = .error f := by
  cases res with
  | error f' =>
    simp only [Except.map, Except.error.injEq] at h
    rw [h]
  | ok q => exact absurd h (by simp [Except.map])

/-- **What a call can do**, one case for each file operation. -/
inductive StepOutcome (s : Sys) : Call → Reply → Sys → Prop where
  | notOpen {c : Call} {file : ℕ} : c.file? = some file → s.fPos file = none →
      StepOutcome s c { retval := -eBadf } s
  | aesdOpen (file : ℕ) :
      StepOutcome s (.aesdOpen file) { retval := 0 } (s.after file 0 (Aesd.aesdOpen s.toDriver))
  | aesdRelease {file : ℕ} {p : ℤ} : s.fPos file = some p →
      StepOutcome s (.aesdRelease file) { retval := 0 }
        { s with fPos := Function.update s.fPos file none }
  | aesdRead {file : ℕ} {interrupted : Bool} {avail : ℕ} {count : UInt64} {p p' : ℤ} {r : Reply}
      {d : Driver} : s.fPos file = some p →
      ReadOutcome s.toDriver p interrupted avail count.toNat (.ok (r, p', d)) →
      StepOutcome s (.aesdRead file interrupted avail count) r (s.after file p' d)
  | aesdWrite {file : ℕ} {interrupted : Bool} {alloc : Option (ℕ → UInt8)} {buf : List UInt8}
      {count : UInt64} {p p' : ℤ} {r : Reply} {d : Driver} : s.fPos file = some p →
      WriteOutcome s.toDriver p interrupted alloc buf count.toNat (.ok (r, p', d)) →
      StepOutcome s (.aesdWrite file interrupted alloc buf count) r (s.after file p' d)
  | aesdLlseek {file : ℕ} {interrupted : Bool} {offset : Int64} {whence : Int32} {p : ℤ} :
      s.fPos file = some p →
      StepOutcome s (.aesdLlseek file interrupted offset whence)
        { retval := (Aesd.aesdLlseek s.toDriver p interrupted offset whence).1 }
        (s.after file (Aesd.aesdLlseek s.toDriver p interrupted offset whence).2 s.toDriver)
  | aesdIoctl {file : ℕ} {interrupted : Bool} {cmd : UInt32} {arg : List UInt8}
      {stack : Vector UInt8 8} {p : ℤ} : s.fPos file = some p →
      StepOutcome s (.aesdIoctl file interrupted cmd arg stack)
        { retval := (Aesd.aesdIoctl s.toDriver p interrupted cmd arg stack).1 }
        (s.after file (Aesd.aesdIoctl s.toDriver p interrupted cmd arg stack).2 s.toDriver)

theorem step_outcome {c : Call} (hw : s.Wf) (h : s.step c = .ok (r, s')) :
    StepOutcome s c r s' := by
  cases c with
  | aesdOpen file =>
    simp only [step, Except.ok.injEq, Prod.mk.injEq] at h
    obtain ⟨rfl, rfl⟩ := h
    exact .aesdOpen file
  | aesdRelease file =>
    rcases onFile_ok h with ⟨hp, rfl, rfl⟩ | ⟨p, hp, hk⟩
    · exact .notOpen rfl hp
    · simp only [Except.ok.injEq, Prod.mk.injEq] at hk
      obtain ⟨rfl, rfl⟩ := hk
      exact .aesdRelease hp
  | aesdRead file interrupted avail count =>
    rcases onFile_ok h with ⟨hp, rfl, rfl⟩ | ⟨p, hp, hk⟩
    · exact .notOpen rfl hp
    · obtain ⟨p', d, hres, rfl⟩ := map_ok hk
      exact .aesdRead hp (hres ▸ aesdRead_outcome hw p interrupted avail count.toNat)
  | aesdWrite file interrupted alloc buf count =>
    rcases onFile_ok h with ⟨hp, rfl, rfl⟩ | ⟨p, hp, hk⟩
    · exact .notOpen rfl hp
    · obtain ⟨p', d, hres, rfl⟩ := map_ok hk
      exact .aesdWrite hp (hres ▸ aesdWrite_outcome hw p interrupted alloc buf count.toNat)
  | aesdLlseek file interrupted offset whence =>
    rcases onFile_ok h with ⟨hp, rfl, rfl⟩ | ⟨p, hp, hk⟩
    · exact .notOpen rfl hp
    · simp only [Except.ok.injEq, Prod.mk.injEq] at hk
      obtain ⟨rfl, rfl⟩ := hk
      exact .aesdLlseek hp
  | aesdIoctl file interrupted cmd arg stack =>
    rcases onFile_ok h with ⟨hp, rfl, rfl⟩ | ⟨p, hp, hk⟩
    · exact .notOpen rfl hp
    · simp only [Except.ok.injEq, Prod.mk.injEq] at hk
      obtain ⟨rfl, rfl⟩ := hk
      exact .aesdIoctl hp

/-- It is quiet and commits nothing, or it is a write on an open file with one of the
outcomes. -/
theorem step_cases {c : Call} (hw : s.Wf) (h : s.step c = .ok (r, s')) :
    (Quiet s.toDriver s'.toDriver ∧ r.commit = none) ∨
      ∃ file interrupted alloc buf count p p',
        c = .aesdWrite file interrupted alloc buf count ∧ s.fPos file = some p ∧
        WriteOutcome s.toDriver p interrupted alloc buf count.toNat
          (.ok (r, p', s'.toDriver)) ∧
        s' = s.after file p' s'.toDriver := by
  cases step_outcome hw h with
  | aesdOpen => exact Or.inl ⟨Quiet.aesdOpen _, rfl⟩
  | aesdRead _ hout => exact Or.inl (Quiet.of_readOutcome hout)
  | aesdWrite hp hout => exact Or.inr ⟨_, _, _, _, _, _, _, rfl, hp, hout, rfl⟩
  | _ => exact Or.inl ⟨Quiet.refl _, rfl⟩

theorem step_wf {c : Call} (hw : s.Wf) (h : s.step c = .ok (r, s')) : s'.Wf := by
  rcases step_cases hw h with ⟨hq, -⟩ | ⟨_, _, _, _, _, _, _, -, -, hout, -⟩
  · exact hq.wf hw
  · exact hout.wf hw

theorem init_ptrAt (i : Option ℕ) : init.ptrAt i = none := by
  cases i with
  | none => rfl
  | some j =>
    rw [Driver.ptrAt_some]
    simp only [init, aesdInitModule, init_slot]
    rfl

theorem init_wf : init.Wf where
  owned := by
    refine ⟨fun i p hp => ?_, fun i j p hp => ?_⟩
    · exact absurd (init_ptrAt i) (by rw [hp]; simp)
    · exact absurd (init_ptrAt i) (by rw [hp]; simp)
  sized i p hp := absurd (init_ptrAt i) (by rw [hp]; simp)
  bounded i p hp := absurd (init_ptrAt i) (by rw [hp]; simp)
  null j _ := by
    simp only [init, aesdInitModule, init_slot]
    rfl
  inOffs_lt := by decide
  outOffs_lt := by decide
  counter_nonneg := by decide
  counter_le := by decide

/-- **Every reachable state is well formed**, whatever the calls and however the
kernel's part of them turned out. -/
theorem wf_of_run {ok : Sys → Call → Prop} {hist : List (Call × Reply)}
    (h : Run step ok init hist s) : s.Wf :=
  h.invariant (P := fun _ s => s.Wf) init_wf fun _ _ _ _ _ _ hw _ hs => step_wf hw hs

end Sys
end Aesd
