import Aesd.Driver.WriteSpec

/-!
# What `aesd_read` does

`aesd_read` looks at one slot, the one at `out_offs`.  It ends the session at an
empty slot, or when ten reads have been counted; otherwise it copies from the start
of the slot's block as many bytes as `readCount` says, counts the read, and moves
on to the next slot if the request went past the end of this one.

`readCount` is where the position enters.  It is compared with the size of the slot
and subtracted from it in `size_t`, so a position past the slot's end asks for an
enormous copy.  That copy is refused, so a read that delivers anything delivers an
initial piece of the slot (`ReadOutcome.served`).
-/

namespace Aesd

open FixedWidth

/-- The request goes past the end of the current entry. -/
def readLast (d : Driver) (fPos : ℤ) (count : ℕ) : Bool :=
  decide (d.current.size < wrapU 64 (fPos + count))

/-- How many bytes `aesd_read` asks `copy_to_user` for. -/
def readCount (d : Driver) (fPos : ℤ) (count : ℕ) : ℕ :=
  if readLast d fPos count then wrapU 64 (d.current.size - fPos) else count

/-- The driver after a read that was counted. -/
def Driver.served (d : Driver) (last : Bool) : Driver :=
  { d with
    dev.readCounter := d.dev.readCounter + 1
    dev.bufferP.outOffs :=
      if last then (d.dev.bufferP.outOffs + 1) % 10 else d.dev.bufferP.outOffs }

/-- The ways `aesd_read` ends, on a well-formed driver. -/
inductive ReadOutcome (d : Driver) (fPos : ℤ) (interrupted : Bool) (avail count : ℕ) :
    Except Fault (Reply × ℤ × Driver) → Prop where
  /-- The lock was not obtained. -/
  | interrupted : interrupted = true →
      ReadOutcome d fPos interrupted avail count (.ok ({ retval := -eRestartsys }, fPos, d))
  /-- The slot is empty. -/
  | nothing : interrupted = false → d.current.size = 0 →
      ReadOutcome d fPos interrupted avail count (.ok ({ retval := 0 }, fPos, d))
  /-- Ten reads have been counted. -/
  | stopped : interrupted = false → d.current.size ≠ 0 → d.dev.readCounter = 10 →
      ReadOutcome d fPos interrupted avail count
        (.ok ({ retval := 0 }, fPos, { d with dev.readCounter := 0 }))
  /-- More bytes were asked for than the block has. -/
  | outOfBounds : interrupted = false → d.current.size ≠ 0 → d.dev.readCounter ≠ 10 →
      d.current.size < readCount d fPos count → readCount d fPos count < 2 ^ 31 →
      ReadOutcome d fPos interrupted avail count (.error .outOfBounds)
  /-- The copy failed. -/
  | fault {bytes : List UInt8} : interrupted = false → d.current.size ≠ 0 →
      d.dev.readCounter ≠ 10 →
      (avail < readCount d fPos count ∨ 2 ^ 31 ≤ readCount d fPos count) →
      ReadOutcome d fPos interrupted avail count
        (.ok ({ retval := -eFault, copied := bytes }, fPos, d))
  /-- An initial piece of the slot was delivered. -/
  | served : interrupted = false → d.current.size ≠ 0 → d.dev.readCounter ≠ 10 →
      readCount d fPos count ≤ d.current.size → readCount d fPos count ≤ avail →
      readCount d fPos count < 2 ^ 31 →
      ReadOutcome d fPos interrupted avail count
        (.ok ({ retval := readCount d fPos count
                copied := (d.slotBytes d.dev.bufferP.outOffs).take (readCount d fPos count) },
          if readLast d fPos count then 0 else wrapS 64 (fPos + readCount d fPos count),
          d.served (readLast d fPos count)))

section Outcome

variable {d : Driver} {fPos : ℤ} {avail count : ℕ}

/-- A slot that is not empty has a block. -/
theorem Driver.Wf.current_data (hw : d.Wf) (hsize : d.current.size ≠ 0) :
    ∃ p, d.current.buffptr = some p ∧
      d.heap.data? p = some (d.slotBytes d.dev.bufferP.outOffs) := by
  cases hptr : d.ptrAt (some d.dev.bufferP.outOffs) with
  | none => exact absurd (hw.null _ hptr) hsize
  | some p => exact ⟨p, hptr, (hw.slot_data hptr).1⟩

theorem copyToUser_of_data? {h : Heap} {p : ℕ} {data : List UInt8} {n : ℕ}
    (hd : h.data? p = some data) (hn : n < 2 ^ 31) :
    copyToUser h (some p) avail n =
      if min n avail ≤ data.length then .ok (n - avail, data.take (min n avail))
      else .error .outOfBounds := by
  have hmax : ¬ intMax < n := by simp only [intMax]; omega
  rw [copyToUser, if_neg hmax]
  by_cases hle : min n avail ≤ data.length
  · rw [load_of_data? hd hle, if_pos hle]
  · have hne : min n avail ≠ 0 := by omega
    rw [load, if_neg hne, deref_of_data? hd, if_neg hle]
    simp only [if_neg hle]

theorem copyToUser_of_ge {h : Heap} {p : Option ℕ} {n : ℕ} (hn : 2 ^ 31 ≤ n) :
    copyToUser h p avail n = .ok (n, []) := by
  have hmax : intMax < n := by simp only [intMax]; omega
  rw [copyToUser, if_pos hmax]

/-- **`aesd_read` ends in one of the outcomes.** -/
theorem aesdRead_outcome (hw : d.Wf) (fPos : ℤ) (interrupted : Bool) (avail count : ℕ) :
    ReadOutcome d fPos interrupted avail count (aesdRead d fPos interrupted avail count) := by
  unfold aesdRead aesdReadLocked
  cases interrupted with
  | true => exact .interrupted rfl
  | false =>
    dsimp only
    rw [if_neg (by simp)]
    by_cases hsize : d.current.size = 0
    · rw [if_pos hsize]
      exact .nothing rfl hsize
    rw [if_neg hsize]
    by_cases hcounter : d.dev.readCounter = 10
    · rw [if_pos hcounter]
      exact .stopped rfl hsize hcounter
    rw [if_neg hcounter]
    have hl : decide (d.current.size < wrapU 64 (fPos + count)) = readLast d fPos count := rfl
    have hc : (if readLast d fPos count = true then wrapU 64 (d.current.size - fPos) else count) =
        readCount d fPos count := rfl
    simp only [hl, hc]
    generalize hn : readCount d fPos count = n
    rcases lt_or_ge n (2 ^ 31) with hlt | hge
    · obtain ⟨p, hptr, hdata⟩ := hw.current_data hsize
      have hlen : (d.slotBytes d.dev.bufferP.outOffs).length = d.current.size :=
        hw.length_slotBytes _
      rw [hptr, copyToUser_of_data? hdata hlt, hlen]
      by_cases hle : min n avail ≤ d.current.size
      · rw [if_pos hle]
        dsimp only
        by_cases hleft : n - avail ≠ 0
        · rw [if_pos hleft]
          exact .fault rfl hsize hcounter (by omega)
        · have hret : wrapS 64 (n : ℤ) = n := wrapS_of_bounds (by omega) (by omega)
          have hout : ReadOutcome d fPos false avail count _ :=
            .served rfl hsize hcounter (by omega) (by omega) (by omega)
          rw [hn] at hout
          rw [if_neg hleft, hret, min_eq_left (by omega)]
          by_cases hlast : readLast d fPos count = true
          · rw [if_pos hlast] at hout ⊢
            rw [Driver.served, if_pos hlast] at hout
            exact hout
          · rw [if_neg hlast] at hout ⊢
            rw [Driver.served, if_neg hlast] at hout
            exact hout
      · rw [if_neg hle]
        exact .outOfBounds rfl hsize hcounter (by omega) (by omega)
    · rw [copyToUser_of_ge hge]
      dsimp only
      rw [if_pos (by omega)]
      exact .fault rfl hsize hcounter (by omega)

end Outcome

/-! ## Reads at a position inside the current entry -/

section Inside

variable {d : Driver} {p avail count : ℕ}

theorem Driver.Wf.current_size_lt (hw : d.Wf) (hsize : d.current.size ≠ 0) :
    d.current.size < 2 ^ 31 := by
  obtain ⟨i, hptr, -⟩ := hw.current_data hsize
  exact hw.bounded (some d.dev.bufferP.outOffs) i hptr

theorem readLast_natCast (h : p + count < 2 ^ 64) :
    readLast d p count = decide (d.current.size < p + count) := by
  have hsum : (p : ℤ) + count = ((p + count : ℕ) : ℤ) := by push_cast; rfl
  rw [readLast, hsum, wrapU_natCast h]

/-- A copy that stays inside the entry and inside the caller's buffer is made. -/
theorem aesdRead_served (hw : d.Wf) (hsize : d.current.size ≠ 0)
    (hcounter : d.dev.readCounter ≠ 10) (hle : readCount d p count ≤ d.current.size)
    (havail : readCount d p count ≤ avail) :
    aesdRead d p false avail count =
      .ok ({ retval := readCount d p count
             copied := (d.slotBytes d.dev.bufferP.outOffs).take (readCount d p count) },
        if readLast d p count then 0 else wrapS 64 (p + readCount d p count),
        d.served (readLast d p count)) := by
  have hlt := hw.current_size_lt hsize
  have hout := aesdRead_outcome hw p false avail count
  generalize aesdRead d p false avail count = res at hout ⊢
  cases hout with
  | interrupted hint => exact absurd hint (by simp)
  | nothing _ h => exact absurd h hsize
  | stopped _ _ h => exact absurd h hcounter
  | outOfBounds _ _ _ h => omega
  | fault _ _ _ h => omega
  | served => rfl

/-- A request past the end of the current entry gets what is left of it --- counted
from the position, but copied from the start --- and moves on. -/
theorem aesdRead_past_end (hw : d.Wf) (hsize : d.current.size ≠ 0)
    (hcounter : d.dev.readCounter ≠ 10) (hp : p ≤ d.current.size)
    (hlast : d.current.size < p + count) (hfit : p + count < 2 ^ 64) (havail : count ≤ avail) :
    aesdRead d p false avail count =
      .ok ({ retval := (d.current.size - p : ℕ)
             copied := (d.slotBytes d.dev.bufferP.outOffs).take (d.current.size - p) },
        0, d.served true) := by
  have hlt := hw.current_size_lt hsize
  have hl : readLast d p count = true := by rw [readLast_natCast hfit, decide_eq_true hlast]
  have hn : readCount d p count = d.current.size - p := by
    have hdiff : (d.current.size : ℤ) - p = ((d.current.size - p : ℕ) : ℤ) := by omega
    rw [readCount, if_pos hl, hdiff, wrapU_natCast (by omega)]
  rw [aesdRead_served hw hsize hcounter (by omega) (by omega), hl, hn, if_pos rfl]

/-- A request that ends inside the current entry gets as many bytes as it asked for,
from the start of the entry, and moves the position. -/
theorem aesdRead_within (hw : d.Wf) (hsize : d.current.size ≠ 0)
    (hcounter : d.dev.readCounter ≠ 10) (hin : p + count ≤ d.current.size)
    (havail : count ≤ avail) :
    aesdRead d p false avail count =
      .ok ({ retval := count
             copied := (d.slotBytes d.dev.bufferP.outOffs).take count },
        (p + count : ℕ), d.served false) := by
  have hlt := hw.current_size_lt hsize
  have hl : readLast d p count = false := by
    rw [readLast_natCast (by omega), decide_eq_false (by omega)]
  have hn : readCount d p count = count := by rw [readCount, hl, if_neg (by simp)]
  have hpos : wrapS 64 ((p : ℤ) + count) = (p + count : ℕ) := by
    rw [wrapS_of_bounds (by omega) (by omega)]
    push_cast
    rfl
  rw [aesdRead_served hw hsize hcounter (by omega) (by omega), hl, hn, if_neg (by simp), hpos]

/-- A request that makes the end of the request overflow is refused. -/
theorem aesdRead_overflow (avail : ℕ) (hw : d.Wf) (hsize : d.current.size ≠ 0)
    (hcounter : d.dev.readCounter ≠ 10) (hp : p ≤ d.current.size)
    (hcount : count < 2 ^ 64) (hover : 2 ^ 64 ≤ p + count) :
    ∃ bytes, aesdRead d p false avail count =
      .ok ({ retval := -eFault, copied := bytes }, (p : ℤ), d) := by
  have hlt := hw.current_size_lt hsize
  have hn : readCount d p count = count := by
    have hwrap : wrapU 64 ((p : ℤ) + count) = p + count - 2 ^ 64 := by
      unfold wrapU
      omega
    rw [readCount, readLast, hwrap, decide_eq_false (by omega), if_neg (by simp)]
  have hout := aesdRead_outcome hw p false avail count
  generalize aesdRead d p false avail count = res at hout ⊢
  cases hout with
  | interrupted hint => exact absurd hint (by simp)
  | nothing _ h => exact absurd h hsize
  | stopped _ _ h => exact absurd h hcounter
  | outOfBounds _ _ _ _ h => omega
  | fault => exact ⟨_, rfl⟩
  | served _ _ _ h => omega

end Inside
end Aesd
