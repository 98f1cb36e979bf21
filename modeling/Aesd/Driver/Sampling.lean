import Aesd.Driver.Contents
import Aesd.Driver.Session
import Aesd.Driver.Stream

/-!
# Sizes read before the lock

`aesd_read` takes the size of the current entry, and `aesd_llseek` the total of all
sizes, before they wait for the lock.  Here these calls are taken apart: a step that
samples, and a step under the lock that uses the sample, with any number of other
steps, of any number of calls, between them.  The other calls are atomic.

Nothing keeps a sample up to date.  By the time the lock is obtained another entry may
be at `out_offs` --- a reader has moved on, an open has gone back, a commit has replaced
the slot or pushed the reader --- and a commit may have replaced a long entry by a short
one.  The locked step is right exactly if it does not matter (`Split.right_iff_serves`).
-/

namespace Aesd

open FixedWidth

/-- What a call in flight has sampled, and on which file it is. -/
inductive Sampled where
  /-- `entrySize` of `aesd_read`. -/
  | entrySize (file n : ℕ)
  /-- `total_size` of `aesd_llseek`. -/
  | totalSize (file : ℕ) (n : ℤ)
  deriving DecidableEq

/-- The driver, the open files, and the calls in flight. -/
structure Split extends Sys where
  /-- The calls that have sampled, by a name of their own. -/
  inFlight : ℕ → Option Sampled

/-- One step. -/
inductive Split.Act where
  /-- `aesd_read` before the lock. -/
  | sampleEntrySize (call file : ℕ)
  /-- `aesd_read` from the lock on. -/
  | lockedRead (call : ℕ) (interrupted : Bool) (avail : ℕ) (count : UInt64)
  /-- `aesd_llseek` before the lock. -/
  | sampleTotalSize (call file : ℕ)
  /-- `aesd_llseek` from the lock on. -/
  | lockedLlseek (call : ℕ) (interrupted : Bool) (offset : Int64) (whence : Int32)
  /-- Any other call. -/
  | atomic (c : Call)

namespace Split

/-- The loaded driver. -/
def init : Split := { Sys.init with inFlight := fun _ => none }

/-- The state after the locked step of a call. -/
def finish (s : Split) (call : ℕ) (t : Sys) : Split :=
  { t with inFlight := Function.update s.inFlight call none }

/-- One step.  A locked step of a call that has not sampled does nothing. -/
def step (s : Split) : Act → Except Fault (Reply × Split)
  | .sampleEntrySize call file =>
      .ok ({ retval := 0 },
        { s with inFlight :=
            Function.update s.inFlight call (some (.entrySize file s.current.size)) })
  | .lockedRead call interrupted avail count =>
      match s.inFlight call with
      | some (.entrySize file entrySize) =>
          (s.onFile file fun p =>
            if interrupted then .ok ({ retval := -eRestartsys }, s.toSys)
            else
              (aesdReadLocked s.toDriver entrySize p avail count.toNat).map fun r =>
                (r.1, s.after file r.2.1 r.2.2)).map fun q => (q.1, s.finish call q.2)
      | _ => .ok ({ retval := 0 }, s)
  | .sampleTotalSize call file =>
      .ok ({ retval := 0 },
        { s with inFlight :=
            Function.update s.inFlight call (some (.totalSize file (totalSize s.toDriver))) })
  | .lockedLlseek call interrupted offset whence =>
      match s.inFlight call with
      | some (.totalSize file total) =>
          (s.onFile file fun p =>
            if interrupted then .ok ({ retval := -eRestartsys }, s.toSys)
            else
              let r := aesdLlseekLocked s.toDriver total p offset whence
              .ok ({ retval := r.1 }, s.after file r.2 s.toDriver)).map fun q =>
                (q.1, s.finish call q.2)
      | _ => .ok ({ retval := 0 }, s)
  | .atomic c => (s.toSys.step c).map fun q => (q.1, { s with toSys := q.2 })

end Split

/-! ## The locked part of `aesd_read` -/

/-- What the locked part does to the driver, whatever size it was given. -/
theorem aesdReadLocked_cases {d d' : Driver} {entrySize : ℕ} {fPos p : ℤ} {avail count : ℕ}
    {r : Reply} (h : aesdReadLocked d entrySize fPos avail count = .ok (r, p, d')) :
    d' = d ∨ d' = { d with dev.readCounter := 0 } ∨
      (d.dev.readCounter ≠ 10 ∧ ∃ last, d' = d.served last) := by
  unfold aesdReadLocked at h
  split at h
  · simp only [Except.ok.injEq, Prod.mk.injEq] at h
    exact Or.inl h.2.2.symm
  · split at h
    · simp only [Except.ok.injEq, Prod.mk.injEq] at h
      exact Or.inr (Or.inl h.2.2.symm)
    · next hcounter =>
      dsimp only at h
      split at h
      · exact absurd h (by simp)
      · split at h
        · simp only [Except.ok.injEq, Prod.mk.injEq] at h
          exact Or.inl h.2.2.symm
        · split at h
          · simp only [Except.ok.injEq, Prod.mk.injEq] at h
            refine Or.inr (Or.inr ⟨hcounter, true, ?_⟩)
            rw [← h.2.2, Driver.served, if_pos rfl]
          · simp only [Except.ok.injEq, Prod.mk.injEq] at h
            refine Or.inr (Or.inr ⟨hcounter, false, ?_⟩)
            rw [← h.2.2, Driver.served, if_neg (by simp)]

theorem aesdReadLocked_wf {d d' : Driver} {entrySize : ℕ} {fPos p : ℤ} {avail count : ℕ}
    {r : Reply} (hw : d.Wf)
    (h : aesdReadLocked d entrySize fPos avail count = .ok (r, p, d')) : d'.Wf := by
  rcases aesdReadLocked_cases h with rfl | rfl | ⟨hcounter, last, rfl⟩
  · exact hw
  · exact ⟨hw.owned, hw.sized, hw.bounded, hw.null, hw.inOffs_lt, hw.outOffs_lt, le_rfl,
      by show (0 : ℤ) ≤ 10; decide⟩
  · exact hw.served last hcounter

/-- A copy out of the current entry stays inside it exactly if it is not longer. -/
theorem copyToUser_current_iff {d : Driver} {avail n : ℕ} (hw : d.Wf) (hn : n < 2 ^ 31) :
    (∃ left bytes, copyToUser d.heap d.current.buffptr avail n = .ok (left, bytes) ∧
        bytes.length ≤ d.current.size) ↔ min n avail ≤ d.current.size := by
  have hmax : ¬ intMax < n := by simp only [intMax]; omega
  cases hptr : d.ptrAt (some d.dev.bufferP.outOffs) with
  | none =>
    have hsize : d.current.size = 0 := hw.null _ hptr
    have hnull : d.current.buffptr = none := hptr
    rw [hnull, hsize, Nat.le_zero]
    by_cases hk : min n avail = 0
    · rw [copyToUser, if_neg hmax, load, if_pos hk]
      simp [hk]
    · rw [copyToUser, if_neg hmax, load, if_neg hk, deref]
      simp [hk]
  | some i =>
    obtain ⟨hdata, hlen⟩ := hw.slot_data hptr
    have hsome : d.current.buffptr = some i := hptr
    have hsize : (d.slotBytes d.dev.bufferP.outOffs).length = d.current.size := hlen
    rw [hsome, copyToUser_of_data? hdata hn, hsize]
    by_cases hk : min n avail ≤ d.current.size
    · rw [if_pos hk]
      refine ⟨fun _ => hk, fun _ => ⟨_, _, rfl, ?_⟩⟩
      rw [List.length_take]
      omega
    · rw [if_neg hk]
      simp [hk]

/-- What the locked part copies is what `copy_to_user` copied for it. -/
theorem aesdReadLocked_copied {d : Driver} {entrySize avail count : ℕ} {P : List UInt8 → Prop}
    (hzero : entrySize ≠ 0) (hten : d.dev.readCounter ≠ 10) (hsize : entrySize < 2 ^ 31)
    (hcount : count < 2 ^ 64) :
    (∃ r p d', aesdReadLocked d entrySize 0 avail count = .ok (r, p, d') ∧ P r.copied) ↔
      ∃ left bytes, copyToUser d.heap d.current.buffptr avail (min entrySize count) =
        .ok (left, bytes) ∧ P bytes := by
  -- the request is cut off at the sampled size
  have hreq : (if decide (entrySize < wrapU 64 ((0 : ℤ) + count)) = true then
      wrapU 64 ((entrySize : ℤ) - 0) else count) = min entrySize count := by
    rw [zero_add, wrapU_natCast hcount, sub_zero, wrapU_natCast (by omega)]
    by_cases hlt : entrySize < count
    · rw [if_pos (by simpa using hlt), min_eq_left hlt.le]
    · rw [if_neg (by simpa using hlt), min_eq_right (by omega)]
  simp only [aesdReadLocked, if_neg hzero, if_neg hten, hreq]
  cases hc : copyToUser d.heap d.current.buffptr avail (min entrySize count) with
  | error f => simp
  | ok q =>
    obtain ⟨left, bytes⟩ := q
    constructor
    · rintro ⟨r, p, d', h, hP⟩
      have hr : r.copied = bytes := by
        dsimp only at h
        split at h
        · simp only [Except.ok.injEq, Prod.mk.injEq] at h
          rw [← h.1]
        · split at h <;>
          · simp only [Except.ok.injEq, Prod.mk.injEq] at h
            rw [← h.1]
      exact ⟨left, bytes, rfl, hr ▸ hP⟩
    · rintro ⟨left', bytes', h, hP⟩
      obtain ⟨rfl, rfl⟩ := Prod.mk.inj (Except.ok.inj h)
      dsimp only
      split
      · exact ⟨_, _, _, rfl, hP⟩
      · split <;> exact ⟨_, _, _, rfl, hP⟩

/-- **How much the locked part copies.**  At position 0 it copies no more than the
current entry has, and does not run past its block, exactly if it copies nothing, or the
sampled size, the request or the caller's buffer is no larger than the entry. -/
theorem aesdReadLocked_within_iff {d : Driver} {entrySize avail count : ℕ} (hw : d.Wf)
    (hsize : entrySize < 2 ^ 31) (hcount : count < 2 ^ 64) :
    (∃ r p d', aesdReadLocked d entrySize 0 avail count = .ok (r, p, d') ∧
        r.copied.length ≤ d.current.size) ↔
      entrySize = 0 ∨ d.dev.readCounter = 10 ∨ entrySize ≤ d.current.size ∨
        count ≤ d.current.size ∨ avail ≤ d.current.size := by
  by_cases hzero : entrySize = 0
  · simp [aesdReadLocked, hzero]
  by_cases hten : d.dev.readCounter = 10
  · simp [aesdReadLocked, hzero, hten]
  rw [or_iff_right hzero, or_iff_right hten,
    aesdReadLocked_copied (P := fun l => l.length ≤ d.current.size) hzero hten hsize hcount,
    copyToUser_current_iff hw (by omega)]
  omega

/-! ## The locked part of `aesd_llseek` -/

/-- The position an `aesd_llseek` is after, before it is checked. -/
def seekTarget (d : Driver) (fPos : ℤ) (offset : Int64) (whence : Int32) : Option ℤ :=
  if whence = 0 then some offset.toInt
  else if whence = 1 then some (wrapS 64 (fPos + offset.toInt))
  else if whence = 2 then some (wrapS 64 (d.dev.bufferP.outOffs + offset.toInt))
  else none

/-- The locked part sets the target if it is between 0 and the sampled total, and is
refused otherwise. -/
theorem aesdLlseekLocked_cases (d : Driver) (total fPos : ℤ) (offset : Int64)
    (whence : Int32) :
    (∃ q, seekTarget d fPos offset whence = some q ∧ 0 ≤ q ∧ q ≤ total ∧
        aesdLlseekLocked d total fPos offset whence = (q, q)) ∨
      (aesdLlseekLocked d total fPos offset whence = (-eInval, fPos) ∧
        ∀ q, seekTarget d fPos offset whence = some q → 0 ≤ q → total < q) := by
  cases htarget : seekTarget d fPos offset whence with
  | none =>
    have hlocked : aesdLlseekLocked d total fPos offset whence = (-eInval, fPos) := by
      unfold seekTarget at htarget
      unfold aesdLlseekLocked
      simp only [htarget]
    exact Or.inr ⟨hlocked, fun q hq => absurd hq (by simp)⟩
  | some q =>
    have hlocked : aesdLlseekLocked d total fPos offset whence =
        if q < 0 ∨ total < q then (-eInval, fPos) else (q, q) := by
      unfold seekTarget at htarget
      unfold aesdLlseekLocked
      simp only [htarget]
    by_cases hout : q < 0 ∨ total < q
    · rw [if_pos hout] at hlocked
      refine Or.inr ⟨hlocked, fun q' hq' hpos => ?_⟩
      rw [Option.some.injEq] at hq'
      omega
    · rw [if_neg hout] at hlocked
      exact Or.inl ⟨q, rfl, by omega, by omega, hlocked⟩

/-! ## Runs of split calls -/

namespace Split

/-- The driver is well formed, and what was sampled of an entry is the size of one. -/
structure Good (s : Split) : Prop where
  wf : s.Wf
  sampled : ∀ call file n, s.inFlight call = some (.entrySize file n) → n < 2 ^ 31

theorem Good.update {s : Split} {t : Sys} (h : Good s) (ht : t.Wf) (call : ℕ)
    {m : Option Sampled} (hm : ∀ file n, m = some (.entrySize file n) → n < 2 ^ 31) :
    Good { t with inFlight := Function.update s.inFlight call m } where
  wf := ht
  sampled call' file n hn := by
    dsimp only at hn
    by_cases hc : call' = call
    · rw [hc, Function.update_self] at hn
      exact hm file n hn
    · rw [Function.update_of_ne hc] at hn
      exact h.sampled call' file n hn

/-- What `Except.map` makes of a step. -/
theorem map_ok {α β : Type} {res : Except Fault (Reply × α)} {f : Reply × α → Reply × β}
    {q : Reply × β} (h : res.map f = .ok q) : ∃ p, res = .ok p ∧ f p = q := by
  cases res with
  | error e => exact absurd h (by simp [Except.map])
  | ok p => exact ⟨p, rfl, Except.ok.inj h⟩

/-- The locked step of a read that gets the lock. -/
theorem step_lockedRead {s : Split} {call file entrySize avail : ℕ} {p : ℤ} {count : UInt64}
    (hcall : s.inFlight call = some (.entrySize file entrySize)) (hp : s.fPos file = some p) :
    s.step (.lockedRead call false avail count) =
      (aesdReadLocked s.toDriver entrySize p avail count.toNat).map fun r =>
        (r.1, s.finish call (s.after file r.2.1 r.2.2)) := by
  simp only [Split.step, hcall, Sys.onFile, hp, Bool.false_eq_true, if_false]
  cases aesdReadLocked s.toDriver entrySize p avail count.toNat <;> rfl

/-- The locked step of a seek that gets the lock. -/
theorem step_lockedLlseek {s : Split} {call file : ℕ} {p total : ℤ} {offset : Int64}
    {whence : Int32} (hcall : s.inFlight call = some (.totalSize file total))
    (hp : s.fPos file = some p) :
    s.step (.lockedLlseek call false offset whence) =
      .ok ({ retval := (aesdLlseekLocked s.toDriver total p offset whence).1 },
        s.finish call (s.after file (aesdLlseekLocked s.toDriver total p offset whence).2
          s.toDriver)) := by
  simp only [Split.step, hcall, Sys.onFile, hp, Bool.false_eq_true, if_false]
  rfl

/-- What a locked step can do to the driver. -/
theorem Good.finish {s : Split} (h : Good s) {t : Sys} (ht : t.Wf) (call : ℕ) :
    Good (s.finish call t) :=
  h.update ht call fun _ _ hn => absurd hn (by simp)

theorem Good.step {s s' : Split} {a : Act} {r : Reply} (h : Good s)
    (hs : s.step a = .ok (r, s')) : Good s' := by
  cases a with
  | sampleEntrySize call file =>
    simp only [Split.step, Except.ok.injEq, Prod.mk.injEq] at hs
    obtain ⟨-, rfl⟩ := hs
    refine h.update h.wf call fun file' n hn => ?_
    simp only [Option.some.injEq, Sampled.entrySize.injEq] at hn
    exact hn.2 ▸ h.wf.size_lt _
  | sampleTotalSize call file =>
    simp only [Split.step, Except.ok.injEq, Prod.mk.injEq] at hs
    obtain ⟨-, rfl⟩ := hs
    exact h.update h.wf call fun file' n hn => absurd hn (by simp)
  | atomic c =>
    obtain ⟨⟨r', t⟩, ht, hq⟩ := map_ok hs
    obtain ⟨-, rfl⟩ := Prod.mk.inj hq
    exact ⟨Sys.step_wf h.wf ht, h.sampled⟩
  | lockedRead call interrupted avail count =>
    simp only [Split.step] at hs
    split at hs
    · obtain ⟨⟨r', t⟩, ht, hq⟩ := map_ok hs
      obtain ⟨-, rfl⟩ := Prod.mk.inj hq
      refine h.finish ?_ call
      rcases Sys.onFile_ok ht with ⟨-, -, rfl⟩ | ⟨p, -, hk⟩
      · exact h.wf
      · split at hk
        · obtain ⟨-, rfl⟩ := Prod.mk.inj (Except.ok.inj hk)
          exact h.wf
        · obtain ⟨⟨r'', q, d⟩, hread, hq⟩ := map_ok hk
          obtain ⟨-, rfl⟩ := Prod.mk.inj hq
          exact aesdReadLocked_wf h.wf hread
    · obtain ⟨-, rfl⟩ := Prod.mk.inj (Except.ok.inj hs)
      exact h
  | lockedLlseek call interrupted offset whence =>
    simp only [Split.step] at hs
    split at hs
    · obtain ⟨⟨r', t⟩, ht, hq⟩ := map_ok hs
      obtain ⟨-, rfl⟩ := Prod.mk.inj hq
      refine h.finish ?_ call
      rcases Sys.onFile_ok ht with ⟨-, -, rfl⟩ | ⟨p, -, hk⟩
      · exact h.wf
      · split at hk
        · obtain ⟨-, rfl⟩ := Prod.mk.inj (Except.ok.inj hk)
          exact h.wf
        · obtain ⟨-, rfl⟩ := Prod.mk.inj (Except.ok.inj hk)
          exact h.wf
    · obtain ⟨-, rfl⟩ := Prod.mk.inj (Except.ok.inj hs)
      exact h

theorem good_of_run {ok : Split → Act → Prop} {hist : List (Act × Reply)} {s : Split}
    (h : Run step ok init hist s) : Good s := by
  refine h.invariant (P := fun _ s => Good s)
    ⟨Sys.init_wf, fun _ _ _ hn => absurd hn (by simp [init])⟩ ?_
  intro _ s a r s' _ hg _ hs
  exact hg.step hs

/-! ## When the next step is right -/

/-- The next step does as it should.  A locked read at position 0 returns, and copies no
more than the entry at `out_offs` has; a locked seek that sets a position sets one that
is not past what is stored. -/
def Right (s : Split) : Act → Prop
  | .lockedRead call interrupted avail count => ∀ file n,
      s.inFlight call = some (.entrySize file n) → s.fPos file = some 0 → interrupted = false →
      ∃ r s', s.step (.lockedRead call interrupted avail count) = .ok (r, s') ∧
        r.copied.length ≤ s.current.size
  | .lockedLlseek call interrupted offset whence => ∀ file n p,
      s.inFlight call = some (.totalSize file n) → s.fPos file = some p → interrupted = false →
      ∃ r s', s.step (.lockedLlseek call interrupted offset whence) = .ok (r, s') ∧
        (0 ≤ r.retval → ∃ q : ℤ, s'.fPos file = some q ∧ q ≤ s.stored.length)
  | _ => True

/-- What was sampled still serves.  A read at position 0 stops for another reason, or the
size it has sampled, its request or its buffer is no larger than the entry at `out_offs`;
the target of a seek is not between what is stored and what it has sampled. -/
def Serves (s : Split) : Act → Prop
  | .lockedRead call interrupted avail count => ∀ file n,
      s.inFlight call = some (.entrySize file n) → s.fPos file = some 0 → interrupted = false →
      n = 0 ∨ s.dev.readCounter = 10 ∨ n ≤ s.current.size ∨ count.toNat ≤ s.current.size ∨
        avail ≤ s.current.size
  | .lockedLlseek call interrupted offset whence => ∀ file n p,
      s.inFlight call = some (.totalSize file n) → s.fPos file = some p → interrupted = false →
      ∀ q, seekTarget s.toDriver p offset whence = some q → 0 ≤ q → q ≤ n → q ≤ s.stored.length
  | _ => True

/-- **In every interleaving, the next step is right exactly if what it has sampled still
serves.** -/
theorem right_iff_serves {ok : Split → Act → Prop} {hist : List (Act × Reply)} {s : Split}
    (h : Run step ok init hist s) (a : Act) : s.Right a ↔ s.Serves a := by
  have hg := good_of_run h
  cases a with
  | sampleEntrySize | sampleTotalSize | atomic => exact Iff.rfl
  | lockedRead call interrupted avail count =>
    refine forall₅_congr fun file n hcall hp hlock => ?_
    subst hlock
    rw [step_lockedRead hcall hp,
      ← aesdReadLocked_within_iff hg.wf (hg.sampled call file n hcall) count.toNat_lt]
    constructor
    · rintro ⟨r, s', hs, hlen⟩
      obtain ⟨⟨r', q, d⟩, hread, hq⟩ := map_ok hs
      obtain ⟨rfl, -⟩ := Prod.mk.inj hq
      exact ⟨r', q, d, hread, hlen⟩
    · rintro ⟨r, q, d, hread, hlen⟩
      exact ⟨r, _, by rw [hread]; rfl, hlen⟩
  | lockedLlseek call interrupted offset whence =>
    refine forall₅_congr fun file n p hcall hp => forall_congr' fun hlock => ?_
    subst hlock
    rw [step_lockedLlseek hcall hp]
    have hfile : ∀ q : ℤ, (s.finish call (s.after file q s.toDriver)).fPos file = some q :=
      fun q => Sys.after_fPos_self _ _ _ _
    rcases aesdLlseekLocked_cases s.toDriver n p offset whence with
      ⟨q, htarget, hpos, hle, hset⟩ | ⟨hrefused, hout⟩
    · rw [hset, htarget]
      constructor
      · rintro ⟨r, s', hs, hright⟩ q' hq' - -
        obtain ⟨rfl, rfl⟩ := Prod.mk.inj (Except.ok.inj hs)
        obtain ⟨q'', hq'', hle''⟩ := hright hpos
        rw [hfile, Option.some.injEq] at hq''
        rw [Option.some.injEq] at hq'
        omega
      · intro hserves
        exact ⟨_, _, rfl, fun _ => ⟨q, hfile q, hserves q rfl hpos hle⟩⟩
    · rw [hrefused]
      refine ⟨fun _ q hq hpos hle => absurd (hout q hq hpos) (by omega), fun _ => ⟨_, _, rfl, ?_⟩⟩
      intro hneg
      exact absurd hneg (by simp)

/-- A read waits for the lock while a line is committed. -/
theorem right_iff_serves_commit :
    ∃ hist s r t, Run step (fun _ _ => True) init hist s ∧
      s.inFlight 7 = some (.entrySize 1 2) ∧ s.dev.bufferP.inOffs = 2 ∧
      s.step (.lockedRead 7 false 9 9) = .ok (r, t) ∧ r.copied.length ≤ 2 := by
  obtain ⟨hist, s, hrun, hcall, hfile, hsize, hin⟩ := exists_run_of_replay step (fun _ _ => True)
    init [.atomic (.aesdOpen 0), .atomic (writeLine [97, 10]), .atomic (.aesdOpen 1),
      .sampleEntrySize 7 1, .atomic (writeLine [98, 10])]
    (fun _ s => s.inFlight 7 = some (.entrySize 1 2) ∧ s.fPos 1 = some 0 ∧ s.current.size = 2 ∧
      s.dev.bufferP.inOffs = 2) (by decide +kernel)
  have hserves : s.Serves (.lockedRead 7 false 9 9) := by
    intro file n hn _ _
    rw [hcall, Option.some.injEq, Sampled.entrySize.injEq] at hn
    exact Or.inr (Or.inr (Or.inl (by omega)))
  obtain ⟨r, t, hs, hlen⟩ := (right_iff_serves hrun _).mpr hserves 1 2 hcall hfile rfl
  exact ⟨hist, s, r, t, hrun, hcall, hin, hs, hsize ▸ hlen⟩

/-- **The size of one entry, the bytes of another.**  Another reader moves on while the
call waits for the lock, and the copy runs past the end of the next entry's block.  And a
seek past what is stored, after a long entry has been replaced by a short one. -/
theorem sampled_sizes_do_not_serve :
    (∃ hist s, Run step (fun _ _ => True) init hist s ∧
      s.inFlight 7 = some (.entrySize 1 4) ∧ s.fPos 1 = some 0 ∧ s.current.size = 1 ∧
      s.step (.lockedRead 7 false 9 9) = .error .outOfBounds) ∧
    ∃ hist s r t, Run step (fun _ _ => True) init hist s ∧
      s.inFlight 7 = some (.totalSize 0 13) ∧ s.stored.length = 10 ∧
      s.step (.lockedLlseek 7 false 13 0) = .ok (r, t) ∧ r.retval = 13 ∧ t.fPos 0 = some 13 := by
  constructor
  · obtain ⟨hist, s, hrun, hcall, hfile, hsize, hread⟩ := exists_run_of_replay step
      (fun _ _ => True) init
      [.atomic (.aesdOpen 0), .atomic (writeLine [97, 98, 99, 10]), .atomic (writeLine [10]),
        .atomic (.aesdOpen 1), .atomic (.aesdOpen 2), .sampleEntrySize 7 1,
        .atomic (.aesdRead 2 false 9 9)]
      (fun _ s => s.inFlight 7 = some (.entrySize 1 4) ∧ s.fPos 1 = some 0 ∧
        s.current.size = 1 ∧ aesdReadLocked s.toDriver 4 0 9 9 = .error .outOfBounds)
      (by decide +kernel)
    have hnine : (9 : UInt64).toNat = 9 := by decide
    refine ⟨hist, s, hrun, hcall, hfile, hsize, ?_⟩
    rw [step_lockedRead hcall hfile, hnine, hread]
    rfl
  · obtain ⟨hist, s, hrun, hcall, hfile, hstored, hseek⟩ := exists_run_of_replay step
      (fun _ _ => True) init
      ([.atomic (.aesdOpen 0), .atomic (writeLine [97, 98, 99, 10])] ++
        List.replicate 9 (.atomic (writeLine [10])) ++
        [.sampleTotalSize 7 0, .atomic (writeLine [10])])
      (fun _ s => s.inFlight 7 = some (.totalSize 0 13) ∧ s.fPos 0 = some 14 ∧
        s.stored.length = 10 ∧ aesdLlseekLocked s.toDriver 13 14 13 0 = (13, 13))
      (by decide +kernel)
    refine ⟨hist, s, _, _, hrun, hcall, hstored, step_lockedLlseek hcall hfile, ?_, ?_⟩
    · rw [hseek]
    · rw [hseek]
      exact Sys.after_fPos_self _ _ _ _

/-! ## Runs in which nothing shrinks -/

/-- The step makes neither the entry at `out_offs` smaller nor what is stored. -/
def Still (s : Split) (a : Act) : Prop :=
  ∀ r s', s.step a = .ok (r, s') →
    s.current.size ≤ s'.current.size ∧ s.stored.length ≤ s'.stored.length

/-- No sample is larger than what it was taken of is now. -/
structure UpToDate (s : Split) : Prop where
  entrySize : ∀ call file n, s.inFlight call = some (.entrySize file n) → n ≤ s.current.size
  totalSize : ∀ call file n, s.inFlight call = some (.totalSize file n) → n ≤ s.stored.length

/-- Whatever a step does, the calls in flight after it are those before it, except for
the one that has sampled. -/
theorem inFlight_step {s s' : Split} {a : Act} {r : Reply} (hs : s.step a = .ok (r, s'))
    (call : ℕ) :
    s'.inFlight call = none ∨ s'.inFlight call = s.inFlight call ∨
      (s'.toSys = s.toSys ∧ ∃ file, s'.inFlight call = some (.entrySize file s.current.size)) ∨
      (s'.toSys = s.toSys ∧
        ∃ file, s'.inFlight call = some (.totalSize file (Aesd.totalSize s.toDriver))) := by
  have hfinish : ∀ c t, s' = s.finish c t →
      s'.inFlight call = none ∨ s'.inFlight call = s.inFlight call := by
    rintro c t rfl
    by_cases hc : call = c
    · exact Or.inl (by rw [hc]; exact Function.update_self _ _ _)
    · exact Or.inr (Function.update_of_ne hc _ _)
  cases a with
  | sampleEntrySize c file =>
    obtain ⟨-, rfl⟩ := Prod.mk.inj (Except.ok.inj hs)
    by_cases hc : call = c
    · exact Or.inr (Or.inr (Or.inl ⟨rfl, file, by rw [hc]; exact Function.update_self _ _ _⟩))
    · exact Or.inr (Or.inl (Function.update_of_ne hc _ _))
  | sampleTotalSize c file =>
    obtain ⟨-, rfl⟩ := Prod.mk.inj (Except.ok.inj hs)
    by_cases hc : call = c
    · exact Or.inr (Or.inr (Or.inr ⟨rfl, file, by rw [hc]; exact Function.update_self _ _ _⟩))
    · exact Or.inr (Or.inl (Function.update_of_ne hc _ _))
  | atomic c =>
    obtain ⟨⟨r', t⟩, -, hq⟩ := map_ok hs
    obtain ⟨-, rfl⟩ := Prod.mk.inj hq
    exact Or.inr (Or.inl rfl)
  | lockedRead c interrupted avail count =>
    simp only [Split.step] at hs
    split at hs
    · obtain ⟨⟨r', t⟩, -, hq⟩ := map_ok hs
      exact (hfinish c t (Prod.mk.inj hq).2.symm).imp id Or.inl
    · exact Or.inr (Or.inl (congrArg (fun q => Split.inFlight q call)
        (Prod.mk.inj (Except.ok.inj hs)).2.symm))
  | lockedLlseek c interrupted offset whence =>
    simp only [Split.step] at hs
    split at hs
    · obtain ⟨⟨r', t⟩, -, hq⟩ := map_ok hs
      exact (hfinish c t (Prod.mk.inj hq).2.symm).imp id Or.inl
    · exact Or.inr (Or.inl (congrArg (fun q => Split.inFlight q call)
        (Prod.mk.inj (Except.ok.inj hs)).2.symm))

theorem UpToDate.step {s s' : Split} {a : Act} {r : Reply} (hg : Good s) (h : UpToDate s)
    (hstill : Still s a) (hs : s.step a = .ok (r, s')) : UpToDate s' := by
  obtain ⟨hcurrent, hstored⟩ := hstill r s' hs
  refine ⟨fun call file n hn => ?_, fun call file n hn => ?_⟩
  · rcases inFlight_step hs call with hnone | hsame | ⟨-, file', hnew⟩ | ⟨-, file', hnew⟩
    · exact absurd (hn.symm.trans hnone) (by simp)
    · exact (h.entrySize call file n (hsame ▸ hn)).trans hcurrent
    · rw [hnew, Option.some.injEq, Sampled.entrySize.injEq] at hn
      exact hn.2 ▸ hcurrent
    · exact absurd (hn.symm.trans hnew) (by simp)
  · rcases inFlight_step hs call with hnone | hsame | ⟨-, file', hnew⟩ | ⟨-, file', hnew⟩
    · exact absurd (hn.symm.trans hnone) (by simp)
    · have := h.totalSize call file n (hsame ▸ hn)
      omega
    · exact absurd (hn.symm.trans hnew) (by simp)
    · rw [hnew, Option.some.injEq, Sampled.totalSize.injEq, totalSize_eq hg.wf] at hn
      omega

/-- **Where nothing shrinks, every locked step is right**, with any number of calls in
flight. -/
theorem serves_of_still {hist : List (Act × Reply)} {s : Split}
    (h : Run step Still init hist s) (a : Act) : s.Serves a := by
  have hup : UpToDate s := by
    refine h.invariant (P := fun _ s => UpToDate s)
      ⟨fun _ _ _ hn => absurd hn (by simp [init]), fun _ _ _ hn => absurd hn (by simp [init])⟩ ?_
    intro _ s a r s' hrun hu hok hs
    exact hu.step (good_of_run hrun) hok hs
  cases a with
  | sampleEntrySize | sampleTotalSize | atomic => trivial
  | lockedRead call interrupted avail count =>
    intro file n hcall _ _
    exact Or.inr (Or.inr (Or.inl (hup.entrySize call file n hcall)))
  | lockedLlseek call interrupted offset whence =>
    intro file n p hcall _ _ q _ _ hle
    exact hle.trans (hup.totalSize call file n hcall)

end Split
end Aesd
