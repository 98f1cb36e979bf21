import Aesd.Driver.Position

/-!
# The subtraction in `aesd_read`

A request that goes past the end of the current entry is cut off to `entrySize - *f_pos`, in
`size_t`.  The entry is the one at `out_offs`, and the position is one of the file's, which
`aesd_write` has moved by what was written and the seeks have set to a place in all that is
stored.  Nothing ties the one to the other.

`Safe` is the bound that the subtraction needs, in the states in which it is made.  What each
call does to it can be told from the state before the call and its arguments (`KeepsSafe`): a
call that does not keep it leaves a state in which a read subtracts more than there is
(`keepsSafe_iff`).  So the reads of a run are sound as long as every call so far has kept it,
and no longer (`clamp_sound_of_keepsSafe`).
-/

namespace Aesd

open FixedWidth

/-! ## The bound -/

/-- If a read of so many bytes cuts its request off, then at a position the entry has, so that
nothing wraps and what is left ends where the entry ends. -/
def ClampSound (d : Driver) (fPos : ℤ) (count : ℕ) : Prop :=
  d.current.size ≠ 0 → d.dev.readCounter ≠ 10 → readLast d fPos count = true →
    fPos ≤ d.current.size ∧
      (wrapU 64 (d.current.size - fPos) : ℤ) = d.current.size - fPos ∧
      fPos + wrapU 64 (d.current.size - fPos) ≤ d.current.size

/-- Nothing will be subtracted from this position, or it is a position the entry has. -/
def Safe (b : AesdCircularBuffer) (readCounter : ℤ) (fPos : ℤ) : Prop :=
  (b.slot b.outOffs).size = 0 ∨ readCounter = 10 ∨ fPos ≤ (b.slot b.outOffs).size

instance (b : AesdCircularBuffer) (readCounter fPos : ℤ) : Decidable (Safe b readCounter fPos) :=
  inferInstanceAs (Decidable (_ ∨ _))

instance (d : Driver) (fPos : ℤ) (count : ℕ) : Decidable (ClampSound d fPos count) :=
  inferInstanceAs (Decidable (_ → _ → _ → _))

/-- What a `loff_t` can hold. -/
def IsLoff (p : ℤ) : Prop := -2 ^ 63 ≤ p ∧ p < 2 ^ 63

theorem isLoff_wrapS (x : ℤ) : IsLoff (wrapS 64 x) := by
  have := wrapS_mem 64 x
  constructor <;> omega

/-- **The reads at a position are sound exactly if it is safe.** -/
theorem clampSound_iff {d : Driver} (hw : d.Wf) {p : ℤ} (hp : IsLoff p) :
    (∀ count : ℕ, count ≤ 2 ^ 31 → ClampSound d p count) ↔
      Safe d.dev.bufferP d.dev.readCounter p := by
  have hsize := hw.size_lt d.dev.bufferP.outOffs
  obtain ⟨hlo, hhi⟩ := hp
  have hcurrent : d.dev.bufferP.slot d.dev.bufferP.outOffs = d.current := rfl
  rw [Safe, hcurrent]
  rw [hcurrent] at hsize
  constructor
  · intro h
    by_contra hunsafe
    push Not at hunsafe
    obtain ⟨hne, hcounter, hlt⟩ := hunsafe
    -- already a read of nothing is taken to go past the end
    have hlast : readLast d p 0 = true := by
      have hp64 : (wrapU 64 (p + (0 : ℕ)) : ℤ) = p + (0 : ℕ) :=
        wrapU_of_nonneg (by omega) (by omega)
      rw [readLast, decide_eq_true_eq]
      omega
    exact absurd (h 0 (by omega) hne hcounter hlast).1 (not_le.mpr hlt)
  · rintro hsafe count - hne hcounter -
    have hle := (hsafe.resolve_left hne).resolve_left hcounter
    have hsub : (wrapU 64 (d.current.size - p) : ℤ) = d.current.size - p :=
      wrapU_of_nonneg (by omega) (by omega)
    exact ⟨hle, hsub, by omega⟩

/-! ## Positions -/

/-- The position of every file is a `loff_t`. -/
def Sys.Loff (s : Sys) : Prop := ∀ file p, s.fPos file = some p → IsLoff p

theorem Sys.Loff.after {s : Sys} (h : s.Loff) {file : ℕ} {p : ℤ} {d : Driver} (hp : IsLoff p) :
    (s.after file p d).Loff := by
  intro f q hq
  by_cases hf : f = file
  · subst hf
    rw [Sys.after_fPos_self, Option.some.injEq] at hq
    exact hq ▸ hp
  · refine h f q ?_
    rw [← hq]
    exact (Function.update_of_ne hf _ _).symm

section Operations

variable {d d' : Driver} {fPos p : ℤ} {interrupted : Bool} {r : Reply}

theorem ReadOutcome.isLoff {avail count : ℕ} (hp : IsLoff fPos)
    (h : ReadOutcome d fPos interrupted avail count (.ok (r, p, d'))) : IsLoff p := by
  cases h with
  | served =>
    split_ifs
    · exact ⟨by omega, by omega⟩
    · exact isLoff_wrapS _
  | _ => exact hp

theorem WriteOutcome.isLoff {alloc : Option (ℕ → UInt8)} {buf : List UInt8} {count : ℕ}
    (hp : IsLoff fPos)
    (h : WriteOutcome d fPos interrupted alloc buf count (.ok (r, p, d'))) : IsLoff p := by
  cases h with
  | empty => exact isLoff_wrapS _
  | kept => exact isLoff_wrapS _
  | committed => exact isLoff_wrapS _
  | _ => exact hp

theorem isLoff_aesdLlseek (hw : d.Wf) (hp : IsLoff fPos) (offset : Int64) (whence : Int32) :
    IsLoff (aesdLlseek d fPos interrupted offset whence).2 := by
  cases interrupted with
  | true => exact hp
  | false =>
    have hlen := hw.length_stored_le
    rw [aesdLlseek, if_neg Bool.false_ne_true, totalSize_eq hw]
    rcases aesdLlseekLocked_cases d d.stored.length fPos offset whence with
      ⟨q, -, hq0, hqT, heq⟩ | ⟨heq, -⟩
    · rw [heq]
      exact ⟨by omega, by omega⟩
    · rw [heq]
      exact hp

theorem isLoff_aesdIoctl (hw : d.Wf) (hp : IsLoff fPos) (cmd : UInt32) (arg : List UInt8)
    (stack : Vector UInt8 8) : IsLoff (aesdIoctl d fPos interrupted cmd arg stack).2 := by
  rcases aesdIoctl_cases hw fPos interrupted cmd arg stack with
    ⟨-, -, b, -, hseek, heq⟩ | ⟨heq, -⟩
  · have hbefore := Driver.bytesBefore_le hw hseek.1.le
    have hoff := (seektoCopied stack b).writeCmdOffset.toNat_lt
    rw [heq, Driver.seekPosition]
    exact ⟨by omega, by omega⟩
  · rw [heq]
    exact hp

end Operations

/-- The position of a file is safe, if the file is open. -/
def Sys.SafeFor (s : Sys) (x : ℕ) : Prop :=
  ∀ p, s.fPos x = some p → Safe s.dev.bufferP s.dev.readCounter p

namespace Sys

variable {s : Sys} {x file : ℕ} {p : ℤ} {d : Driver}

/-- A file that is closed has no position. -/
theorem of_closed {q : ℤ} (h : Function.update s.fPos file none x = some q) :
    s.fPos x = some q := by
  by_cases hx : x = file
  · rw [hx, Function.update_self] at h
    cases h
  · rwa [Function.update_of_ne hx] at h

theorem safeFor_after_self :
    (s.after x p d).SafeFor x ↔ Safe d.dev.bufferP d.dev.readCounter p := by
  constructor
  · intro h
    exact h p (after_fPos_self s x p d)
  · intro h q hq
    rw [after_fPos_self, Option.some.injEq] at hq
    exact hq ▸ h

theorem safeFor_after_of_ne (hx : x ≠ file) :
    (s.after file p d).SafeFor x ↔
      ∀ q, s.fPos x = some q → Safe d.dev.bufferP d.dev.readCounter q := by
  have hsame : (s.after file p d).fPos x = s.fPos x := Function.update_of_ne hx _ _
  rw [SafeFor, hsame]
  rfl

/-- The new position may depend on the old one. -/
theorem safeFor_after_moved (f : ℤ → ℤ) (hp : s.fPos file = some p) :
    (s.after file (f p) d).SafeFor x ↔
      ∀ q, s.fPos x = some q →
        Safe d.dev.bufferP d.dev.readCounter (if file = x then f q else q) := by
  by_cases hx : x = file
  · subst hx
    rw [safeFor_after_self]
    refine ⟨fun h q hq => ?_, fun h => ?_⟩
    · rw [hp, Option.some.injEq] at hq
      rw [if_pos rfl, ← hq]
      exact h
    · have hf := h p hp
      rw [if_pos rfl] at hf
      exact hf
  · rw [safeFor_after_of_ne hx]
    simp only [if_neg (Ne.symm hx)]

theorem safeFor_after_same (hp : s.fPos file = some p) :
    (s.after file p d).SafeFor x ↔
      ∀ q, s.fPos x = some q → Safe d.dev.bufferP d.dev.readCounter q := by
  have hmoved := safeFor_after_moved (x := x) (d := d) id hp
  simp only [id, ite_self] at hmoved
  exact hmoved

end Sys

/-! ## What keeps a position safe -/

/-- The ring after a write that succeeds. -/
def ringAfter (d : Driver) (data : List UInt8) : AesdCircularBuffer :=
  if Committable (d.pending ++ data) then
    (aesdCircularBufferAddEntry d.dev.bufferP ⟨none, (d.pending ++ data).length⟩).2
  else d.dev.bufferP

/-- A read that is served from a position the entry has, and goes to the next one. -/
def MovesOn (d : Driver) (fPos : ℤ) (avail count : ℕ) : Prop :=
  readLast d fPos count = true ∧ 0 ≤ fPos ∧ fPos ≤ d.current.size ∧
    d.current.size - fPos ≤ avail

instance (d : Driver) (fPos : ℤ) (avail count : ℕ) : Decidable (MovesOn d fPos avail count) :=
  inferInstanceAs (Decidable (_ ∧ _))

/-- The call does not leave file `x` at an unsafe position. -/
def KeepsSafe (x : ℕ) (s : Sys) : Call → Prop
  -- opening another file moves the read index of a ring that is not full
  | .aesdOpen file =>
      ∀ p ∈ s.fPos x, file ≠ x → s.dev.bufferP.full = false →
        Safe { s.dev.bufferP with outOffs := 0 } s.dev.readCounter p
  | .aesdRelease _ => True
  -- the eleventh read resets the counter, and a read of another file may go to the next entry
  | .aesdRead file interrupted avail count =>
      ∀ p ∈ s.fPos x, ∀ q ∈ s.fPos file, interrupted = false → s.current.size ≠ 0 →
        if s.dev.readCounter = 10 then p ≤ s.current.size
        else
          file ≠ x → MovesOn s.toDriver q avail count.toNat →
            Safe { s.dev.bufferP with outOffs := (s.dev.bufferP.outOffs + 1) % 10 }
              (s.dev.readCounter + 1) p
  -- a write may replace the entry, and moves the position of its own file
  | .aesdWrite file interrupted _ buf count =>
      ∀ p ∈ s.fPos x, s.fPos file ≠ none → interrupted = false → CopyOk buf count.toNat →
        Safe (ringAfter s.toDriver (buf.take count.toNat)) s.dev.readCounter
          (if file = x then wrapS 64 (p + count.toNat) else p)
  -- the seeks go anywhere in what is stored
  | .aesdLlseek file interrupted offset whence =>
      ∀ p ∈ s.fPos x, file = x → interrupted = false →
        ∀ q ∈ seekTarget s.toDriver p offset whence, 0 ≤ q → q ≤ s.stored.length →
          Safe s.dev.bufferP s.dev.readCounter q
  | .aesdIoctl file interrupted cmd arg stack =>
      ∀ p ∈ s.fPos x, file = x → interrupted = false → cmd = seektoRequest →
        ∀ b ∈ arg.head?, s.Seekable (seektoCopied stack b) →
          Safe s.dev.bufferP s.dev.readCounter (s.seekPosition (seektoCopied stack b))

instance (x : ℕ) (s : Sys) : (c : Call) → Decidable (KeepsSafe x s c)
  | .aesdOpen _ => inferInstanceAs (Decidable (∀ p ∈ s.fPos x, _ → _ → _))
  | .aesdRelease _ => .isTrue trivial
  | .aesdRead file _ _ _ =>
      inferInstanceAs (Decidable (∀ p ∈ s.fPos x, ∀ q ∈ s.fPos file, _ → _ → ite _ _ _))
  | .aesdWrite _ _ _ _ _ => inferInstanceAs (Decidable (∀ p ∈ s.fPos x, _ → _ → _ → _))
  | .aesdLlseek _ _ offset whence =>
      inferInstanceAs (Decidable (∀ p ∈ s.fPos x, _ → _ →
        ∀ q ∈ seekTarget s.toDriver p offset whence, _ → _ → _))
  | .aesdIoctl _ _ _ arg _ =>
      inferInstanceAs (Decidable (∀ p ∈ s.fPos x, _ → _ → _ → ∀ b ∈ arg.head?, _ → _))

section KeepsSafe

variable {s : Sys} {x file : ℕ} {p : ℤ} {interrupted : Bool}

/-- A call on a file that is not open does nothing. -/
theorem keepsSafe_of_notOpen {c : Call} (hc : c.file? = some file) (hnone : s.fPos file = none) :
    KeepsSafe x s c := by
  have hother : ∀ q, s.fPos x = some q → file ≠ x := by
    rintro q hq rfl
    rw [hnone] at hq
    cases hq
  cases c with
  | aesdOpen => cases hc
  | aesdRelease => exact trivial
  | aesdRead =>
    cases hc
    intro _ _ q hq
    rw [hnone] at hq
    cases hq
  | aesdWrite =>
    cases hc
    exact fun _ _ hopen => absurd hnone hopen
  | aesdLlseek =>
    cases hc
    exact fun q hq hfile => absurd hfile (hother q hq)
  | aesdIoctl =>
    cases hc
    exact fun q hq hfile => absurd hfile (hother q hq)

theorem keepsSafe_open_iff (hsafe : s.SafeFor x) :
    KeepsSafe x s (.aesdOpen file) ↔ (s.after file 0 (aesdOpen s.toDriver)).SafeFor x := by
  by_cases hx : x = file
  · subst hx
    rw [Sys.safeFor_after_self]
    exact iff_of_true (fun p _ hne => absurd rfl hne) (Or.inr (Or.inr (Int.natCast_nonneg _)))
  · rw [Sys.safeFor_after_of_ne hx]
    cases hfull : s.dev.bufferP.full with
    | true =>
      have hopen : aesdOpen s.toDriver = s.toDriver := if_pos hfull
      rw [hopen]
      refine iff_of_true (fun p _ _ hnot => ?_) hsafe
      rw [hfull] at hnot
      cases hnot
    | false =>
      have hopen : aesdOpen s.toDriver = { s.toDriver with dev.bufferP.outOffs := 0 } :=
        if_neg (by rw [hfull]; exact Bool.false_ne_true)
      rw [hopen]
      exact ⟨fun h p hp => h p hp (Ne.symm hx) hfull, fun h p hp _ _ => h p hp⟩

theorem keepsSafe_llseek_iff {offset : Int64} {whence : Int32} (hw : s.Wf)
    (hp : s.fPos file = some p) (hsafe : s.SafeFor x) :
    KeepsSafe x s (.aesdLlseek file interrupted offset whence) ↔
      (s.after file (aesdLlseek s.toDriver p interrupted offset whence).2
        s.toDriver).SafeFor x := by
  by_cases hx : x = file
  · subst hx
    rw [Sys.safeFor_after_self]
    cases interrupted with
    | true => exact iff_of_true (fun _ _ _ hnot => by cases hnot) (hsafe p hp)
    | false =>
      rw [aesdLlseek, if_neg Bool.false_ne_true, totalSize_eq hw]
      rcases aesdLlseekLocked_cases s.toDriver s.stored.length p offset whence with
        ⟨q, hq, hq0, hqT, heq⟩ | ⟨heq, hrefused⟩
      · rw [heq]
        constructor
        · intro h
          exact h p hp rfl rfl q hq hq0 hqT
        · rintro h p' hp' - - q' hq' - -
          obtain rfl := Option.some.inj (hp.symm.trans hp')
          obtain rfl := Option.some.inj (hq.symm.trans hq')
          exact h
      · rw [heq]
        refine iff_of_true (fun p' hp' _ _ q hq hq0 hqT => ?_) (hsafe p hp)
        obtain rfl := Option.some.inj (hp.symm.trans hp')
        have := hrefused q hq hq0
        omega
  · rw [Sys.safeFor_after_of_ne hx]
    exact iff_of_true (fun _ _ hfile => absurd hfile.symm hx) hsafe

theorem keepsSafe_ioctl_iff {cmd : UInt32} {arg : List UInt8} {stack : Vector UInt8 8}
    (hw : s.Wf) (hp : s.fPos file = some p) (hsafe : s.SafeFor x) :
    KeepsSafe x s (.aesdIoctl file interrupted cmd arg stack) ↔
      (s.after file (aesdIoctl s.toDriver p interrupted cmd arg stack).2
        s.toDriver).SafeFor x := by
  by_cases hx : x = file
  · subst hx
    rw [Sys.safeFor_after_self]
    rcases aesdIoctl_cases hw p interrupted cmd arg stack with
      ⟨hlock, hcmd, b, hb, hseek, heq⟩ | ⟨heq, hrefused⟩
    · rw [heq]
      constructor
      · intro h
        exact h p hp rfl hlock hcmd b hb hseek
      · rintro h p' - - - - b' hb' -
        obtain rfl := Option.some.inj (hb.symm.trans hb')
        exact h
    · rw [heq]
      refine iff_of_true (fun p' _ _ hlock hcmd b hb hseek => ?_) (hsafe p hp)
      exact absurd hseek (hrefused hlock hcmd b hb)
  · rw [Sys.safeFor_after_of_ne hx]
    exact iff_of_true (fun _ _ hfile => absurd hfile.symm hx) hsafe

/-- A request that is cut off is served from a position the entry has. -/
theorem readCount_cut_iff {d : Driver} (hw : d.Wf) {q : ℤ} {count avail : ℕ} (hq : IsLoff q)
    (hlast : readLast d q count = true) :
    readCount d q count ≤ d.current.size ∧ readCount d q count ≤ avail ↔
      0 ≤ q ∧ q ≤ d.current.size ∧ d.current.size - q ≤ avail := by
  have hsize : d.current.size < 2 ^ 31 := hw.size_lt d.dev.bufferP.outOffs
  obtain ⟨hlo, hhi⟩ := hq
  rw [readCount, if_pos hlast]
  rcases le_or_gt q d.current.size with hle | hgt
  · have hsub : (wrapU 64 (d.current.size - q) : ℤ) = d.current.size - q :=
      wrapU_of_nonneg (by omega) (by omega)
    omega
  · have hsub : (wrapU 64 (d.current.size - q) : ℤ) = d.current.size - q + 2 ^ 64 :=
      wrapU_of_neg (by omega) (by omega)
    omega

/-- After a read that goes to the next entry, its own file is at the beginning. -/
theorem safeFor_next :
    (s.after file 0 (s.served true)).SafeFor x ↔
      ∀ p ∈ s.fPos x, file ≠ x →
        Safe { s.dev.bufferP with outOffs := (s.dev.bufferP.outOffs + 1) % 10 }
          (s.dev.readCounter + 1) p := by
  by_cases hx : x = file
  · subst hx
    rw [Sys.safeFor_after_self]
    exact iff_of_true (Or.inr (Or.inr (Int.natCast_nonneg _))) fun _ _ hne => absurd rfl hne
  · rw [Sys.safeFor_after_of_ne hx]
    exact ⟨fun h p hp _ => h p hp, fun h p hp => h p hp (Ne.symm hx)⟩

/-- After a read that stays in the entry, all files are where the entry has bytes. -/
theorem safeFor_within {q : ℤ} {count : ℕ} (hw : s.Wf) (hsafe : s.SafeFor x)
    (hne : s.current.size ≠ 0) (hten : s.dev.readCounter ≠ 10)
    (hlast : readLast s.toDriver q count = false) :
    (s.after file (wrapS 64 (q + count)) (s.served false)).SafeFor x := by
  have hsize : s.current.size < 2 ^ 31 := hw.size_lt s.dev.bufferP.outOffs
  have hinside : ¬ s.current.size < wrapU 64 (q + count) := of_decide_eq_false hlast
  by_cases hx : x = file
  · subst hx
    rw [Sys.safeFor_after_self]
    exact Or.inr (Or.inr (wrapS_le (n := s.current.size) (not_lt.mp hinside) (by omega)))
  · rw [Sys.safeFor_after_of_ne hx]
    intro p hp
    exact Or.inr (Or.inr (((hsafe p hp).resolve_left hne).resolve_left hten))

theorem keepsSafe_read_iff {avail : ℕ} {count : UInt64} {q q' : ℤ} {r : Reply} {d : Driver}
    (hw : s.Wf) (hl : s.Loff) (hq : s.fPos file = some q)
    (hout : ReadOutcome s.toDriver q interrupted avail count.toNat (.ok (r, q', d)))
    (hsafe : s.SafeFor x) :
    KeepsSafe x s (.aesdRead file interrupted avail count) ↔ (s.after file q' d).SafeFor x := by
  -- the state after a call that changes nothing
  have hsame : (s.after file q s.toDriver).SafeFor x := (Sys.safeFor_after_same hq).mpr hsafe
  -- a read below the limit is harmful only if it goes to the next entry
  have hstays : s.dev.readCounter ≠ 10 → ¬ MovesOn s.toDriver q avail count.toNat →
      KeepsSafe x s (.aesdRead file interrupted avail count) := by
    intro hten hstay p _ q' hq' _ _
    obtain rfl := Option.some.inj (hq.symm.trans hq')
    rw [if_neg hten]
    exact fun _ hmoves => absurd hmoves hstay
  cases hout with
  | interrupted hlock =>
    refine iff_of_true (fun _ _ _ _ hnot => ?_) hsame
    rw [hlock] at hnot
    cases hnot
  | nothing _ hzero => exact iff_of_true (fun _ _ _ _ _ hne => absurd hzero hne) hsame
  | stopped hlock hne hten =>
    rw [Sys.safeFor_after_same hq]
    constructor
    · intro h p hp
      have hle := h p hp q hq hlock hne
      rw [if_pos hten] at hle
      exact Or.inr (Or.inr hle)
    · intro h p hp q' _ _ _
      -- the counter no longer stands in for the bound
      rw [if_pos hten]
      exact ((h p hp).resolve_left hne).resolve_left (show (0 : ℤ) ≠ 10 by decide)
  | fault _ hne hten hfail =>
    refine iff_of_true (hstays hten ?_) hsame
    rintro ⟨hlast, hinside⟩
    have hsize : s.current.size < 2 ^ 31 := hw.size_lt s.dev.bufferP.outOffs
    obtain ⟨hread, hbuf⟩ := (readCount_cut_iff hw (hl file q hq) hlast).mpr hinside
    omega
  | served hlock hne hten hle havail =>
    cases hlast : readLast s.toDriver q count.toNat with
    | true =>
      have hmoves : MovesOn s.toDriver q avail count.toNat :=
        ⟨hlast, (readCount_cut_iff hw (hl file q hq) hlast).mp ⟨hle, havail⟩⟩
      rw [if_pos rfl, safeFor_next]
      constructor
      · intro h p hp hx
        have hnext := h p hp q hq hlock hne
        rw [if_neg hten] at hnext
        exact hnext hx hmoves
      · intro h p hp _ _ _ _
        rw [if_neg hten]
        exact fun hx _ => h p hp hx
    | false =>
      rw [if_neg Bool.false_ne_true, readCount, hlast, if_neg Bool.false_ne_true]
      refine iff_of_true (hstays hten ?_) (safeFor_within hw hsafe hne hten hlast)
      rintro ⟨hlast', -⟩
      rw [hlast] at hlast'
      cases hlast'

/-- Where the bytes of an entry are does not matter. -/
theorem safe_addEntry_congr {b : AesdCircularBuffer} (hin : b.inOffs < 10) {e e' : AesdBufferEntry}
    (hsize : e.size = e'.size) (readCounter p : ℤ) :
    Safe (aesdCircularBufferAddEntry b e).2 readCounter p ↔
      Safe (aesdCircularBufferAddEntry b e').2 readCounter p := by
  simp only [Safe, addEntry_outOffs _ hin, addEntry_slot _ hin]
  split_ifs
  · rw [hsize]
  · rfl
  · rw [hsize]
  · rfl

/-- A write that succeeds moves the position and may commit, and one that fails does neither. -/
theorem WriteOutcome.moves {d d' : Driver} {alloc : Option (ℕ → UInt8)} {buf : List UInt8}
    {count : ℕ} {q q' : ℤ} {r : Reply} (hw : d.Wf)
    (h : WriteOutcome d q interrupted alloc buf count (.ok (r, q', d'))) :
    d'.dev.readCounter = d.dev.readCounter ∧
      ((interrupted = false → ¬ CopyOk buf count) ∧ q' = q ∧ d'.dev.bufferP = d.dev.bufferP ∨
      interrupted = false ∧ CopyOk buf count ∧ q' = wrapS 64 (q + count) ∧
        ∀ p, Safe d'.dev.bufferP d.dev.readCounter p ↔
          Safe (ringAfter d (buf.take count)) d.dev.readCounter p) := by
  cases h with
  | interrupted hlock =>
    refine ⟨rfl, Or.inl ⟨fun hnot => ?_, rfl, rfl⟩⟩
    rw [hlock] at hnot
    cases hnot
  | faultOngoing _ _ hfail =>
    refine ⟨rfl, Or.inl ⟨fun _ hcopy => ?_, rfl, rfl⟩⟩
    obtain ⟨hle, hlt⟩ := hcopy
    omega
  | faultNew _ _ hfail =>
    exact ⟨rfl, Or.inl ⟨fun _ hcopy => absurd hcopy.1 (not_le.mpr hfail), rfl, rfl⟩⟩
  | refused _ _ hge =>
    exact ⟨rfl, Or.inl ⟨fun _ hcopy => absurd hcopy.2 (not_lt.mpr hge), rfl, rfl⟩⟩
  | empty hlock _ hzero hpending =>
    refine ⟨rfl, Or.inr ⟨hlock, ⟨by omega, by omega⟩, rfl, fun p => ?_⟩⟩
    have hnil : Committable [] := Or.inl rfl
    rw [ringAfter, hpending, hzero, List.take_zero, List.append_nil, if_pos hnil]
    exact safe_addEntry_congr (e := d.cleared.dev.entry) hw.inOffs_lt rfl _ p
  | kept hlock _ hle hlen hnot =>
    rw [List.length_append, List.length_take, min_eq_left hle] at hlen
    refine ⟨rfl, Or.inr ⟨hlock, ⟨hle, by omega⟩, rfl, fun p => ?_⟩⟩
    rw [ringAfter, if_neg hnot]
    rfl
  | committed hlock _ hle hlen hcommit =>
    rw [List.length_append, List.length_take, min_eq_left hle] at hlen
    refine ⟨rfl, Or.inr ⟨hlock, ⟨hle, by omega⟩, rfl, fun p => ?_⟩⟩
    have hsize : (d.filled (buf.take count)).dev.entry.size =
        (⟨none, (d.pending ++ buf.take count).length⟩ : AesdBufferEntry).size := rfl
    rw [ringAfter, if_pos hcommit]
    exact safe_addEntry_congr hw.inOffs_lt hsize _ p

theorem keepsSafe_write_iff {alloc : Option (ℕ → UInt8)} {buf : List UInt8} {count : UInt64}
    {q q' : ℤ} {r : Reply} {d : Driver} (hw : s.Wf) (hq : s.fPos file = some q)
    (hout : WriteOutcome s.toDriver q interrupted alloc buf count.toNat (.ok (r, q', d)))
    (hsafe : s.SafeFor x) :
    KeepsSafe x s (.aesdWrite file interrupted alloc buf count) ↔
      (s.after file q' d).SafeFor x := by
  obtain ⟨hcounter, ⟨hfails, rfl, hring⟩ | ⟨hlock, hcopy, rfl, hring⟩⟩ := hout.moves hw
  · rw [Sys.safeFor_after_same hq, hring, hcounter]
    exact iff_of_true (fun _ _ _ hlock hcopy => absurd hcopy (hfails hlock)) hsafe
  · have hopen : s.fPos file ≠ none := by rw [hq]; simp
    rw [Sys.safeFor_after_moved (fun p => wrapS 64 (p + count.toNat)) hq, hcounter]
    simp only [hring]
    exact ⟨fun h p hp => h p hp hopen hlock hcopy, fun h p hp _ _ _ => h p hp⟩

/-- **A call keeps the position safe exactly if it leaves a safe one.** -/
theorem keepsSafe_iff {c : Call} {r : Reply} {s' : Sys} (hw : s.Wf) (hl : s.Loff)
    (hsafe : s.SafeFor x) (h : s.step c = .ok (r, s')) : KeepsSafe x s c ↔ s'.SafeFor x := by
  cases Sys.step_outcome hw h with
  | notOpen hc hnone => exact iff_of_true (keepsSafe_of_notOpen hc hnone) hsafe
  | aesdOpen => exact keepsSafe_open_iff hsafe
  | aesdRelease => exact iff_of_true trivial fun q hq => hsafe q (Sys.of_closed hq)
  | aesdRead hq hout => exact keepsSafe_read_iff hw hl hq hout hsafe
  | aesdWrite hq hout => exact keepsSafe_write_iff hw hq hout hsafe
  | aesdLlseek hp => exact keepsSafe_llseek_iff hw hp hsafe
  | aesdIoctl hp => exact keepsSafe_ioctl_iff hw hp hsafe

end KeepsSafe

/-! ## Runs -/

section Runs

variable {ok : Sys → Call → Prop} {hist : List (Call × Reply)} {s s' : Sys} {r : Reply}

/-- Every call leaves positions that a `loff_t` holds. -/
theorem Sys.step_loff {c : Call} (hw : s.Wf) (hl : s.Loff) (h : s.step c = .ok (r, s')) :
    s'.Loff := by
  cases Sys.step_outcome hw h with
  | notOpen => exact hl
  | aesdOpen => exact hl.after ⟨by omega, by omega⟩
  | aesdRelease => exact fun x q hq => hl x q (Sys.of_closed hq)
  | aesdRead hp hout => exact hl.after (hout.isLoff (hl _ _ hp))
  | aesdWrite hp hout => exact hl.after (hout.isLoff (hl _ _ hp))
  | aesdLlseek hp => exact hl.after (isLoff_aesdLlseek hw (hl _ _ hp) _ _)
  | aesdIoctl hp => exact hl.after (isLoff_aesdIoctl hw (hl _ _ hp) _ _ _)

theorem loff_of_run (h : Run Sys.step ok Sys.init hist s) : s.Loff := by
  refine h.invariant (P := fun _ s => s.Loff) (fun _ _ hp => by cases hp) ?_
  intro hist s c r s' hrun hl _ hs
  exact Sys.step_loff (Sys.wf_of_run hrun) hl hs

/-- **In a run of such calls the position of the file is safe.** -/
theorem safeFor_of_run {x : ℕ} (h : Run Sys.step (KeepsSafe x) Sys.init hist s) :
    s.SafeFor x := by
  refine h.invariant (P := fun _ s => s.SafeFor x) (fun _ hp => by cases hp) ?_
  intro hist s c r s' hrun hsafe hok hs
  exact (keepsSafe_iff (Sys.wf_of_run hrun) (loff_of_run hrun) hsafe hs).mp hok

/-- **As long as all calls keep the position safe, no read of the file subtracts too much, and
the first call that does not lets one do so.** -/
theorem clamp_sound_of_keepsSafe {x : ℕ} (h : Run Sys.step (KeepsSafe x) Sys.init hist s) :
    (∀ p (count : ℕ), s.fPos x = some p → count ≤ 2 ^ 31 → ClampSound s.toDriver p count) ∧
    ∀ c r s', s.step c = .ok (r, s') →
      (KeepsSafe x s c ↔
        ∀ p (count : ℕ), s'.fPos x = some p → count ≤ 2 ^ 31 →
          ClampSound s'.toDriver p count) := by
  have hw := Sys.wf_of_run h
  have hl := loff_of_run h
  have hsafe := safeFor_of_run h
  -- the reads of a file are sound exactly if its position is safe
  have hiff : ∀ t : Sys, t.Wf → t.Loff →
      ((∀ p (count : ℕ), t.fPos x = some p → count ≤ 2 ^ 31 → ClampSound t.toDriver p count) ↔
        t.SafeFor x) := by
    intro t ht htl
    constructor
    · intro hsound p hp
      exact (clampSound_iff ht (htl x p hp)).mp fun count hcount => hsound p count hp hcount
    · intro hsafe p count hp hcount
      exact (clampSound_iff ht (htl x p hp)).mpr (hsafe p hp) count hcount
  refine ⟨(hiff s hw hl).mpr hsafe, fun c r s' hs => ?_⟩
  rw [hiff s' (Sys.step_wf hw hs) (Sys.step_loff hw hl hs)]
  exact keepsSafe_iff hw hl hsafe hs

/-- A line is written through one file and read through another, in two pieces. -/
theorem clamp_sound_reader :
    ∃ hist s, Run Sys.step (KeepsSafe 1) Sys.init hist s ∧ s.fPos 1 = some 1 ∧
      s.current.size = 3 ∧ ClampSound s.toDriver 1 7 := by
  obtain ⟨hist, s, hrun, hpos, hsize⟩ := exists_run_of_replay Sys.step (KeepsSafe 1) Sys.init
    [.aesdOpen 0, .aesdOpen 1, writeLine [97, 98, 10], .aesdRead 1 false 1 1]
    (fun _ s => s.fPos 1 = some 1 ∧ s.current.size = 3) (by decide +kernel)
  exact ⟨hist, s, hrun, hpos, hsize, (clamp_sound_of_keepsSafe hrun).1 1 7 hpos (by omega)⟩

/-- Two lines of four bytes are written, and read through the same file. -/
theorem clamp_wraps :
    ∃ hist s, Run Sys.step (fun _ _ => True) Sys.init hist s ∧ s.fPos 0 = some 8 ∧
      s.current.size = 4 ∧ ¬ ClampSound s.toDriver 8 1 ∧
      wrapU 64 (s.current.size - 8) = 2 ^ 64 - 4 := by
  obtain ⟨hist, s, hrun, hpos, hsize, hsound⟩ := exists_run_of_replay Sys.step
    (fun _ _ => True) Sys.init
    [.aesdOpen 0, writeLine [97, 98, 99, 10], writeLine [97, 98, 99, 10]]
    (fun _ s => s.fPos 0 = some 8 ∧ s.current.size = 4 ∧ ¬ ClampSound s.toDriver 8 1)
    (by decide +kernel)
  refine ⟨hist, s, hrun, hpos, hsize, hsound, ?_⟩
  rw [hsize]
  decide

end Runs

end Aesd
