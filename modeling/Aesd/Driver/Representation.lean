import Aesd.Driver.Contents

/-!
# The representation of the ring

Two indices, a flag and ten slots: which of them occur together is not written down in
the driver, and `add_entry` and `aesd_read` rely on it.  If every allocation succeeds
then all of it is a matter of the number of commits, except where the reader is
(`Represents`).

The reader is what makes the flag sound.  `full` is set when the write index catches up
with the read index, and before the tenth commit it cannot, because the read index is
not ahead of it: `aesd_read` moves on only from a slot that holds something, and the
slots from the write index on hold nothing yet.
-/

namespace Aesd

/-- The write makes an allocation that succeeds.  Its copy need not. -/
def Allocates (d : Driver) (alloc : Option (ℕ → UInt8)) (_ : List UInt8) (n : ℕ) : Prop :=
  KmallocOk d alloc n

instance (d : Driver) (alloc : Option (ℕ → UInt8)) (buf : List UInt8) (n : ℕ) :
    Decidable (Allocates d alloc buf n) :=
  inferInstanceAs (Decidable (KmallocOk d alloc n))

/-- The ring after `c` commits. -/
structure Represents (c : ℕ) (b : AesdCircularBuffer) : Prop where
  inOffs : b.inOffs = c % 10
  occupied : ∀ j < 10, (b.slot j).buffptr ≠ none ↔ j < min c 10
  behind : c < 10 → b.outOffs ≤ b.inOffs
  full : b.full = true → 10 ≤ c

namespace Represents

variable {c : ℕ} {b : AesdCircularBuffer}

theorem init : Represents 0 aesdCircularBufferInit where
  inOffs := rfl
  occupied j _ := by
    rw [init_slot, min_eq_left (Nat.zero_le _)]
    exact ⟨fun h => absurd rfl h, fun h => absurd h (Nat.not_lt_zero j)⟩
  behind _ := le_rfl
  full h := absurd h (by decide)

theorem inOffs_lt (h : Represents c b) : b.inOffs < 10 := by
  have := h.inOffs
  omega

/-- **One commit.** -/
theorem addEntry (h : Represents c b) {e : AesdBufferEntry} (he : e.buffptr ≠ none) :
    Represents (c + 1) (aesdCircularBufferAddEntry b e).2 where
  inOffs := by rw [addEntry_inOffs _ h.inOffs_lt, h.inOffs, Nat.mod_add_mod]
  occupied j hj := by
    have hin := h.inOffs
    have hocc := h.occupied j hj
    rw [addEntry_slot _ h.inOffs_lt]
    by_cases heq : j = b.inOffs
    · rw [if_pos heq]
      exact ⟨fun _ => by omega, fun _ => he⟩
    · rw [if_neg heq, hocc]
      omega
  behind hc := by
    have hin := h.inOffs
    have hbehind := h.behind (by omega)
    have hfull : b.full = false := by
      cases hf : b.full with
      | false => rfl
      | true => have := h.full hf; omega
    rw [addEntry_inOffs _ h.inOffs_lt, addEntry_outOffs _ h.inOffs_lt, hfull, if_neg (by simp)]
    omega
  full hf := by
    by_contra hlt
    have hin := h.inOffs
    have hbehind := h.behind (by omega)
    have hfull : b.full = false := by
      cases hf' : b.full with
      | false => rfl
      | true => have := h.full hf'; omega
    rw [addEntry_full _ h.inOffs_lt, hfull, if_neg (by simp), Bool.false_or, beq_iff_eq] at hf
    omega

/-- **Reads and opens.**  The read index stays behind the write index. -/
theorem quiet {d d' : Driver} (h : Represents c d.dev.bufferP) (hw : d.Wf) (hq : Quiet d d') :
    Represents c d'.dev.bufferP where
  inOffs := by rw [hq.inOffs, h.inOffs]
  occupied j hj := by rw [hq.slot]; exact h.occupied j hj
  behind hc := by
    have hin := h.inOffs
    rw [hq.inOffs]
    refine hq.outOffs_le (h.behind hc) fun hsize => ?_
    -- the reader moves on from a slot that is occupied
    have hptr : (d.dev.bufferP.slot d.dev.bufferP.outOffs).buffptr ≠ none :=
      fun hnull => hsize (hw.null _ hnull)
    have hlt := (h.occupied _ hw.outOffs_lt).mp hptr
    omega
  full hf := h.full (by rw [← hq.full]; exact hf)

end Represents

namespace Sys

variable {s s' : Sys} {c : Call} {r : Reply}

/-- One call that is given memory if it asks for some. -/
theorem step_represents {n : ℕ} (hw : s.Wf) (hrep : Represents n s.dev.bufferP)
    (hok : OnWrites (fun _ alloc _ _ => alloc ≠ none) s c) (h : s.step c = .ok (r, s')) :
    Represents (n + r.commit.toList.length) s'.dev.bufferP := by
  rcases step_cases hw h with
    ⟨hq, hcommit⟩ | ⟨file, interrupted, alloc, buf, count, p, p', rfl, hp, hout, -⟩
  · rw [hcommit]
    exact hrep.quiet hw hq
  · rcases hout.ring with ⟨hcommit, hring⟩ | ⟨e, entry, hcommit, hlock, hptr, hring⟩
    · rw [hcommit, hring]
      exact hrep
    · have halloc := hok (by rw [hp]; simp) hlock
      rw [hcommit, hring]
      exact hrep.addEntry (hptr halloc)

end Sys

/-- **The ring is a function of the number of commits**, up to the position of the
reader: in every run whose allocations succeed, whatever else happens in it.  So the
guard of `add_entry` is never taken and every entry handed over is stored; and a read
at a slot that was never written returns 0 and copies nothing. -/
theorem ring_represents {hist : List (Call × Reply)} {s : Sys}
    (h : Run Sys.step (OnWrites Allocates) Sys.init hist s) :
    s.dev.bufferP.inOffs = (commits hist).length % 10 ∧
      s.dev.bufferP.outOffs < 10 ∧
      0 ≤ s.dev.readCounter ∧ s.dev.readCounter ≤ 10 ∧
      (∀ j < 10, (s.dev.bufferP.slot j).buffptr ≠ none ↔ j < min (commits hist).length 10) ∧
      ((commits hist).length < 10 → s.dev.bufferP.outOffs ≤ s.dev.bufferP.inOffs) ∧
      (s.dev.bufferP.full = true → 10 ≤ (commits hist).length) ∧
      (¬ maxWriteOperationsSupported ≤ s.dev.bufferP.inOffs ∧
        ∀ e, (aesdCircularBufferAddEntry s.dev.bufferP e).2.slot s.dev.bufferP.inOffs = e) ∧
      ((commits hist).length ≤ s.dev.bufferP.outOffs → ∀ fPos avail count,
        aesdRead s.toDriver fPos false avail count = .ok ({ retval := 0 }, fPos, s.toDriver)) := by
  have hw := Sys.wf_of_run h
  have hrep : Represents (commits hist).length s.dev.bufferP := by
    refine h.invariant (P := fun hist s => Represents (commits hist).length s.dev.bufferP) ?_ ?_
    · exact Represents.init
    · intro hist s c r s' hrun hrep hok hs
      rw [commits_concat, List.length_append]
      exact Sys.step_represents (Sys.wf_of_run hrun) hrep (hok.mono fun _ _ _ _ h => h.1) hs
  refine ⟨hrep.inOffs, hw.outOffs_lt, hw.counter_nonneg, hw.counter_le, hrep.occupied,
    hrep.behind, hrep.full, ⟨by simpa using hrep.inOffs_lt, fun e => ?_⟩, fun hout p avail n => ?_⟩
  · rw [addEntry_slot _ hrep.inOffs_lt, if_pos rfl]
  · -- the slot was never written, so it has no block and no size
    have hptr : (s.dev.bufferP.slot s.dev.bufferP.outOffs).buffptr = none := by
      by_contra hne
      have := (hrep.occupied _ hw.outOffs_lt).mp hne
      omega
    have hsize : s.current.size = 0 := hw.null _ hptr
    simp [aesdRead, aesdReadLocked, hsize]

/-- A line that is read, an entry that begins with a copy that failed, and a seek. -/
def faultyCalls : List Call :=
  [.aesdOpen 0, writeLine [97, 10], .aesdRead 0 false 4 4, .aesdRead 0 false 4 4,
    .aesdWrite 0 false (some fun _ => 5) [98] 2, writeLine [10], .aesdLlseek 0 false 1 0]

theorem ring_represents_faulty :
    ∃ hist s, Run Sys.step (OnWrites Allocates) Sys.init hist s ∧
      (commits hist).length = 2 ∧ s.dev.bufferP.outOffs = 1 ∧ s.dev.bufferP.inOffs = 2 ∧
      ((s.dev.bufferP.slot 1).buffptr ≠ none ∧ (s.dev.bufferP.slot 2).buffptr = none) := by
  obtain ⟨hist, s, hrun, hlen, hout⟩ := exists_run_of_replay Sys.step (OnWrites Allocates)
    Sys.init faultyCalls
    (fun hist s => (commits hist).length = 2 ∧ s.dev.bufferP.outOffs = 1) (by decide +kernel)
  obtain ⟨hin, -, -, -, hocc, -⟩ := ring_represents hrun
  rw [hlen] at hin hocc
  refine ⟨hist, s, hrun, hlen, hout, hin, (hocc 1 (by decide)).mpr (by decide), ?_⟩
  by_contra hne
  exact absurd ((hocc 2 (by decide)).mp hne) (by decide)

end Aesd
