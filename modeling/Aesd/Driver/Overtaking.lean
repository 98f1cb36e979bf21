import Aesd.Driver.Unlocked

/-!
# A reader ahead of the writer

The ring is what the commits make it, whatever is out of date outside the lock
(`placed_of_run`); but the reader can get ahead of the writer.  A read has sampled the size of the
last entry, at the end of which its file is; another reader moves on to the slot behind, which is
empty.  The read gets the lock, copies nothing, from nowhere, takes this for the end of an entry
and moves on once more.

Before the tenth commit the writer relies on the reader being behind it: when it meets the reader
it takes the ring to be full.  So two commits can be enough for that, and from then on no open
begins at the first entry.  This is the only way in which it can come about, and it always has
this effect (`represents_of_run`), as long as no open stores while the read has the lock; such a
store could set the reader back in between.
-/

namespace Aesd

open FixedWidth

namespace Unlocked

variable {ok : Unlocked → Act → Prop} {hist : List (Act × Reply)} {s s' : Unlocked} {a : Act}
  {r : Reply}

/-! ## What the writers make of the ring -/

/-- The atomic calls of a history. -/
def calls (e : Act × Reply) : List (Call × Reply) := (e.1.call.map fun c => (c, e.2)).toList

/-- **What a step can do to the ring.** -/
theorem ring_cases (hs : s.step a = .ok (r, s')) :
    (∃ c, a.call = some c ∧ s.toSys.step c = .ok (r, s'.toSys)) ∨
      a.call = none ∧
        (s'.dev.bufferP = s.dev.bufferP ∨ s'.dev.bufferP = { s.dev.bufferP with outOffs := 0 } ∨
          ∃ call file n p avail count q, a = .split (.lockedRead call false avail count) ∧
            s.inFlight call = some (.entrySize file n) ∧ s.fPos file = some p ∧
            aesdReadLocked s.toDriver n p avail count.toNat = .ok (r, q, s'.toDriver)) := by
  rcases step_cases hs with ⟨b, t, rfl, hb, rfl⟩ | ⟨b, t, rfl, hb, rfl⟩
  · cases b with
    | sampleEntrySize call f | sampleTotalSize call f =>
      obtain ⟨rfl, rfl⟩ := Prod.mk.inj (Except.ok.inj hb)
      exact .inr ⟨rfl, .inl rfl⟩
    | atomic c =>
      obtain ⟨⟨r', u⟩, hu, hq⟩ := Split.map_ok hb
      obtain ⟨rfl, rfl⟩ := Prod.mk.inj hq
      exact .inl ⟨c, rfl, hu⟩
    | lockedRead call interrupted avail count =>
      refine .inr ⟨rfl, ?_⟩
      simp only [Split.step] at hb
      split at hb
      · next f n hcall =>
        obtain ⟨⟨r', u⟩, hu, hq⟩ := Split.map_ok hb
        obtain ⟨rfl, rfl⟩ := Prod.mk.inj hq
        rcases Sys.onFile_ok hu with ⟨-, -, rfl⟩ | ⟨p, hp, hk⟩
        · exact .inl rfl
        · split at hk
          · obtain ⟨-, rfl⟩ := Prod.mk.inj (Except.ok.inj hk)
            exact .inl rfl
          · next hlock =>
            obtain rfl : interrupted = false := by simpa using hlock
            obtain ⟨⟨r'', q, d⟩, hread, hq⟩ := Split.map_ok hk
            obtain ⟨rfl, rfl⟩ := Prod.mk.inj hq
            exact .inr (.inr ⟨call, f, n, p, avail, count, q, rfl, hcall, hp, hread⟩)
      · obtain ⟨-, rfl⟩ := Prod.mk.inj (Except.ok.inj hb)
        exact .inl rfl
    | lockedLlseek call interrupted offset whence =>
      refine .inr ⟨rfl, .inl ?_⟩
      simp only [Split.step] at hb
      split at hb
      · obtain ⟨⟨r', u⟩, hu, hq⟩ := Split.map_ok hb
        obtain ⟨rfl, rfl⟩ := Prod.mk.inj hq
        rcases Sys.onFile_ok hu with ⟨-, -, rfl⟩ | ⟨p, -, hk⟩
        · rfl
        · split at hk
          · obtain ⟨-, rfl⟩ := Prod.mk.inj (Except.ok.inj hk)
            rfl
          · obtain ⟨-, rfl⟩ := Prod.mk.inj (Except.ok.inj hk)
            rfl
      · obtain ⟨-, rfl⟩ := Prod.mk.inj (Except.ok.inj hb)
        rfl
  · rcases LateSys.step_cases hb with ⟨f, rfl, -, rfl⟩ | ⟨f, notFull, rfl, -, -, rfl⟩ |
      ⟨f, rfl, -, -, rfl⟩ | ⟨c, u, rfl, hu, rfl⟩
    · exact .inr ⟨rfl, .inl rfl⟩
    · cases notFull with
      | true => exact .inr ⟨rfl, .inr (.inl rfl)⟩
      | false => exact .inr ⟨rfl, .inl rfl⟩
    · exact .inr ⟨rfl, .inl rfl⟩
    · exact .inl ⟨c, rfl, hu⟩

theorem good_step (hg : s.samples.Good) (hs : s.step a = .ok (r, s')) : s'.samples.Good := by
  rcases step_cases hs with ⟨b, t, rfl, hb, rfl⟩ | ⟨b, t, rfl, hb, rfl⟩
  · exact hg.step hb
  · exact ⟨LateSys.wf_step hg.wf hb, hg.sampled⟩

theorem good_of_run (h : Run step ok init hist s) : s.samples.Good :=
  h.invariant (P := fun _ s => s.samples.Good)
    ⟨Sys.init_wf, fun _ _ _ hn => absurd hn (by simp [samples, init])⟩
    fun _ _ _ _ _ _ hg _ hs => good_step hg hs

/-- What the writers make of the ring in `c` commits. -/
structure Placed (c : ℕ) (b : AesdCircularBuffer) : Prop where
  inOffs : b.inOffs = c % 10
  occupied : ∀ j < 10, (b.slot j).buffptr ≠ none ↔ j < min c 10

theorem Placed.addEntry {c : ℕ} {b : AesdCircularBuffer} (h : Placed c b) {e : AesdBufferEntry}
    (he : e.buffptr ≠ none) : Placed (c + 1) (aesdCircularBufferAddEntry b e).2 := by
  have hin := h.inOffs
  have hlt : b.inOffs < 10 := by omega
  refine ⟨by rw [addEntry_inOffs _ hlt, hin, Nat.mod_add_mod], fun j hj => ?_⟩
  have hocc := h.occupied j hj
  rw [addEntry_slot _ hlt]
  by_cases heq : j = b.inOffs
  · rw [if_pos heq]
    exact ⟨fun _ => by omega, fun _ => he⟩
  · rw [if_neg heq, hocc]
    omega

/-- One atomic call. -/
theorem Placed.call {c : ℕ} {t t' : Sys} {call : Call} (hw : t.Wf)
    (h : Placed c t.dev.bufferP) (hok : OnWrites Allocates t call)
    (hs : t.step call = .ok (r, t')) : Placed (c + r.commit.toList.length) t'.dev.bufferP := by
  rcases Sys.step_cases hw hs with
    ⟨hq, hcommit⟩ | ⟨file, interrupted, alloc, buf, count, p, p', rfl, hp, hout, -⟩
  · rw [hcommit]
    exact ⟨hq.inOffs.trans h.inOffs, fun j hj => by rw [hq.slot]; exact h.occupied j hj⟩
  · rcases hout.ring with ⟨hcommit, hring⟩ | ⟨e, entry, hcommit, hlock, hptr, hring⟩
    · rw [hcommit, hring]
      exact h
    · rw [hcommit, hring]
      exact h.addEntry (hptr (hok (by rw [hp]; simp) hlock).1)

theorem commits_calls_concat (hist : List (Act × Reply)) (a : Act) (r : Reply) :
    commits ((hist ++ [(a, r)]).flatMap calls) =
      commits (hist.flatMap calls) ++ if a.call = none then [] else r.commit.toList := by
  rw [List.flatMap_append, List.flatMap_singleton, calls]
  cases hc : a.call with
  | none => simp
  | some c => simp [commits_concat]

/-- **What the writers make of the ring is not disturbed**, whatever is out of date: the driver's
blocks are live and each is held in one place, each commit goes to the next slot, and the slots
that hold something are those that were written. -/
theorem placed_of_run (h : Run step (OnCalls (OnWrites Allocates)) init hist s) :
    s.Wf ∧ Placed (commits (hist.flatMap calls)).length s.dev.bufferP := by
  refine ⟨(good_of_run h).wf, ?_⟩
  refine h.invariant
    (P := fun hist s => Placed (commits (hist.flatMap calls)).length s.dev.bufferP)
    ⟨Represents.init.inOffs, Represents.init.occupied⟩ ?_
  intro hist s a r s' hrun hp hok hs
  rw [commits_calls_concat, List.length_append]
  rcases ring_cases hs with ⟨c, hc, hstep⟩ | ⟨hc, hring⟩
  · rw [if_neg (by rw [hc]; simp)]
    exact hp.call (good_of_run hrun).wf (hok c hc) hstep
  · rw [if_pos hc, List.length_nil, Nat.add_zero]
    rcases hring with heq | heq | ⟨call, file, n, p, avail, count, q, -, -, -, hread⟩
    · rw [heq]
      exact hp
    · rw [heq]
      exact ⟨hp.inOffs, hp.occupied⟩
    · rcases aesdReadLocked_cases hread with heq | heq | ⟨-, last, heq⟩
      · rw [heq]
        exact hp
      · rw [heq]
        exact ⟨hp.inOffs, hp.occupied⟩
      · rw [heq]
        exact ⟨hp.inOffs, hp.occupied⟩

/-- One line, a file at its end, and another reader that has read it. -/
def overtaken : List Act :=
  [.split (.atomic (.aesdOpen 0)), .split (.atomic (writeLine [97, 10])),
    .split (.atomic (.aesdOpen 1)), .split (.atomic (.aesdLlseek 1 false 2 0)),
    .split (.atomic (.aesdOpen 2)), .split (.sampleEntrySize 7 1),
    .split (.atomic (.aesdRead 2 false 9 9))]

/-- The read that was on its way and one more line: the ring is full after two commits. -/
theorem placed_of_run_overtaken :
    ∃ hist s, Run step (OnCalls (OnWrites Allocates)) init hist s ∧
      s.dev.bufferP.full = true ∧ s.Wf ∧ Placed 2 s.dev.bufferP := by
  obtain ⟨hist, s, hrun, htwo, hfull⟩ := exists_run_of_replay step
    (OnCalls (OnWrites Allocates)) init
    (overtaken ++ [.split (.lockedRead 7 false 9 9), .split (.atomic (writeLine [98, 10]))])
    (fun hist s => (commits (hist.flatMap calls)).length = 2 ∧ s.dev.bufferP.full = true)
    (by decide +kernel)
  obtain ⟨hw, hp⟩ := placed_of_run hrun
  exact ⟨hist, s, hrun, hfull, hw, htwo ▸ hp⟩

/-! ## Where the reader is -/

/-- A locked read at a slot that is empty moves on, if the sampled size was not. -/
def MovesOn (d : Driver) (n : ℕ) (p : ℤ) (count : ℕ) : Prop :=
  n ≠ 0 ∧ d.dev.readCounter ≠ 10 ∧ wrapU 64 (n - p) = 0 ∧ n < wrapU 64 (p + count)

instance (d : Driver) (n : ℕ) (p : ℤ) (count : ℕ) : Decidable (MovesOn d n p count) :=
  inferInstanceAs (Decidable (_ ∧ _))

/-- From nowhere nothing is copied. -/
theorem copyToUser_null {h : Heap} {avail n : ℕ} {bytes : List UInt8}
    (hc : copyToUser h none avail n = .ok (0, bytes)) : n = 0 := by
  rw [copyToUser] at hc
  split at hc
  · exact (Prod.mk.inj (Except.ok.inj hc)).1
  · rw [load] at hc
    by_cases hmin : min n avail = 0
    · rw [if_pos hmin] at hc
      have hleft : n - avail = 0 := (Prod.mk.inj (Except.ok.inj hc)).1
      omega
    · rw [if_neg hmin, deref] at hc
      exact absurd hc (by simp)

/-- **A locked read at an empty slot** leaves the ring as it is or moves on. -/
theorem locked_of_empty {d d' : Driver} {n avail count : ℕ} {p q : ℤ}
    (hnull : d.current.buffptr = none)
    (h : aesdReadLocked d n p avail count = .ok (r, q, d')) :
    d'.dev.bufferP = d.dev.bufferP ∨ MovesOn d n p count := by
  unfold aesdReadLocked at h
  split at h
  · obtain ⟨-, -, rfl⟩ := by simpa using h
    exact .inl rfl
  split at h
  · obtain ⟨-, -, rfl⟩ := by simpa using h
    exact .inl rfl
  next hn hten =>
  dsimp only at h
  rw [hnull] at h
  split at h
  · exact absurd h (by simp)
  next left bytes hcopy =>
  split at h
  · obtain ⟨-, -, rfl⟩ := by simpa using h
    exact .inl rfl
  next hleft =>
  have hzero : left = 0 := not_not.mp hleft
  subst hzero
  split at h
  · next hcut =>
    -- the copy was cut down to nothing
    rw [if_pos hcut] at hcopy
    exact .inr ⟨hn, hten, copyToUser_null hcopy, of_decide_eq_true hcut⟩
  · obtain ⟨-, -, rfl⟩ := by simpa using h
    exact .inl rfl

theorem locked_of_movesOn {d : Driver} {n count : ℕ} {p : ℤ} (hnull : d.current.buffptr = none)
    (hm : MovesOn d n p count) (avail : ℕ) :
    aesdReadLocked d n p avail count = .ok ({ retval := 0 }, 0, d.served true) := by
  obtain ⟨hn, hten, hzero, hcut⟩ := hm
  have hcopy : copyToUser d.heap none avail 0 = .ok (0, []) := by
    rw [copyToUser, if_neg (Nat.not_lt_zero _), load, if_pos (Nat.zero_min _), Nat.zero_sub]
  simp only [aesdReadLocked, if_neg hn, if_neg hten, decide_eq_true hcut, if_true, hzero, hnull,
    hcopy]
  rfl

/-- The read is on a file at the end of the entry that it has sampled, and the slot at
`out_offs`, which is not the last, is empty. -/
def OvertakingRead (s : Sys) (interrupted : Bool) (count : ℕ) : Option Sampled → Prop
  | some (.entrySize file n) => interrupted = false ∧ s.current.buffptr = none ∧
      s.dev.bufferP.outOffs ≠ 9 ∧ ∃ p ∈ s.fPos file, MovesOn s.toDriver n p count
  | _ => False

instance (s : Sys) (interrupted : Bool) (count : ℕ) (m : Option Sampled) :
    Decidable (OvertakingRead s interrupted count m) :=
  match m with
  | some (.entrySize _ _) => inferInstanceAs (Decidable (_ ∧ _))
  | some (.totalSize _ _) | none => isFalse id

theorem OvertakingRead.sampled {s : Sys} {interrupted : Bool} {count : ℕ} {m : Option Sampled}
    (h : OvertakingRead s interrupted count m) : ∃ file n, m = some (.entrySize file n) := by
  cases m with
  | none => exact absurd h id
  | some m =>
    cases m with
    | entrySize file n => exact ⟨file, n, rfl⟩
    | totalSize file n => exact absurd h id

/-- The step is such a read. -/
def Overtakes (s : Unlocked) : Act → Prop
  | .split (.lockedRead call interrupted _ count) =>
      OvertakingRead s.toSys interrupted count.toNat (s.inFlight call)
  | _ => False

instance (s : Unlocked) (a : Act) : Decidable (Overtakes s a) :=
  match a with
  | .split (.lockedRead ..) => inferInstanceAs (Decidable (OvertakingRead ..))
  | .split (.sampleEntrySize ..) | .split (.sampleTotalSize ..) | .split (.lockedLlseek ..)
  | .split (.atomic _) | .late _ => isFalse id

/-- The reader stays behind if it moves on from a slot that holds something. -/
theorem behind_of_served {d : Driver} {c : ℕ} (hw : d.Wf) (h : Represents c d.dev.bufferP)
    (hptr : d.current.buffptr ≠ none) (last : Bool) :
    Represents c (d.served last).dev.bufferP := by
  refine ⟨h.inOffs, h.occupied, fun hc => ?_, h.full⟩
  have hlt := (h.occupied _ hw.outOffs_lt).mp hptr
  have hin := h.inOffs
  cases last with
  | true =>
    show (d.dev.bufferP.outOffs + 1) % 10 ≤ d.dev.bufferP.inOffs
    omega
  | false =>
    show d.dev.bufferP.outOffs ≤ d.dev.bufferP.inOffs
    omega

theorem represents_read {d d' : Driver} {c n avail count : ℕ} {p q : ℤ} (hw : d.Wf)
    (h : Represents c d.dev.bufferP)
    (hnot : ¬ (d.current.buffptr = none ∧ d.dev.bufferP.outOffs ≠ 9 ∧ MovesOn d n p count))
    (hread : aesdReadLocked d n p avail count = .ok (r, q, d')) :
    Represents c d'.dev.bufferP := by
  by_cases hnull : d.current.buffptr = none
  · rcases locked_of_empty hnull hread with heq | hmoves
    · rw [heq]
      exact h
    · have hlast : d.dev.bufferP.outOffs = 9 :=
        not_not.mp fun hne => hnot ⟨hnull, hne, hmoves⟩
      rw [locked_of_movesOn hnull hmoves] at hread
      obtain ⟨-, -, rfl⟩ : _ ∧ _ ∧ d.served true = d' := by simpa using hread
      refine ⟨h.inOffs, h.occupied, fun _ => ?_, h.full⟩
      show (d.dev.bufferP.outOffs + 1) % 10 ≤ d.dev.bufferP.inOffs
      omega
  · rcases aesdReadLocked_cases hread with rfl | rfl | ⟨-, last, rfl⟩
    · exact h
    · exact ⟨h.inOffs, h.occupied, h.behind, h.full⟩
    · exact behind_of_served hw h hnull last

theorem represents_step {c : ℕ} (hw : s.Wf) (h : Represents c s.dev.bufferP)
    (hok : OnCalls (OnWrites Allocates) s a) (hnot : ¬ Overtakes s a)
    (hs : s.step a = .ok (r, s')) :
    Represents (c + (if a.call = none then [] else r.commit.toList).length) s'.dev.bufferP := by
  rcases ring_cases hs with ⟨call, hc, hstep⟩ | ⟨hc, hring⟩
  · rw [if_neg (by rw [hc]; simp)]
    exact Sys.step_represents hw h ((hok call hc).mono fun _ _ _ _ hp => hp.1) hstep
  · rw [if_pos hc, List.length_nil, Nat.add_zero]
    rcases hring with heq | heq | ⟨call, file, n, p, avail, count, q, rfl, hcall, hp, hread⟩
    · rw [heq]
      exact h
    · rw [heq]
      exact ⟨h.inOffs, h.occupied, fun _ => Nat.zero_le _, h.full⟩
    · refine represents_read hw h (fun hmoves => hnot ?_) hread
      rw [Overtakes, hcall]
      exact ⟨rfl, hmoves.1, hmoves.2.1, p, hp, hmoves.2.2⟩

/-- **Overtaking** succeeds, and leaves the reader ahead: the section under the lock is one
step, and no open stores in it. -/
theorem ahead_of_overtakes {c : ℕ} (hw : s.Wf) (h : Represents c s.dev.bufferP)
    (hover : Overtakes s a) :
    c < 10 ∧ ∃ s', s.step a = .ok ({ retval := 0 }, s') ∧
      s'.dev.bufferP.inOffs < s'.dev.bufferP.outOffs := by
  cases a with
  | late b => exact absurd hover id
  | split b =>
    cases b with
    | lockedRead call interrupted avail count =>
      have hread : OvertakingRead s.toSys interrupted count.toNat (s.inFlight call) := hover
      obtain ⟨file, n, hcall⟩ := hread.sampled
      rw [hcall] at hread
      obtain ⟨rfl, hnull, hlast, p, hp, hmoves⟩ := hread
      have hstep : s.samples.step (.lockedRead call false avail count) = _ :=
        Split.step_lockedRead hcall hp
      have hlocked : aesdReadLocked s.samples.toDriver n p avail count.toNat = _ :=
        locked_of_movesOn hnull hmoves avail
      rw [hlocked] at hstep
      -- before the tenth commit the reader was where the writer is
      have hempty := mt (h.occupied _ hw.outOffs_lt).mpr (not_not.mpr hnull)
      have hlt := hw.outOffs_lt
      have hbehind := h.behind (by omega)
      have hin := h.inOffs
      refine ⟨by omega, { s with
        toSys := s.toSys.after file 0 (s.toDriver.served true)
        inFlight := Function.update s.inFlight call none }, ?_, ?_⟩
      · rw [step, hstep]
        rfl
      · show s.dev.bufferP.inOffs < (s.dev.bufferP.outOffs + 1) % 10
        omega
    | _ => exact absurd hover id

/-- **The reader stays behind the writer as long as no read overtakes it**, and `full` is as
late as it should be; and a read that does overtake it puts the reader ahead. -/
theorem represents_of_run
    (h : Run step (fun s a => OnCalls (OnWrites Allocates) s a ∧ ¬ Overtakes s a) init hist s) :
    Represents (commits (hist.flatMap calls)).length s.dev.bufferP ∧
      ∀ a, Overtakes s a → (commits (hist.flatMap calls)).length < 10 ∧
        ∃ s', s.step a = .ok ({ retval := 0 }, s') ∧
          s'.dev.bufferP.inOffs < s'.dev.bufferP.outOffs := by
  have hrep : Represents (commits (hist.flatMap calls)).length s.dev.bufferP := by
    refine h.invariant
      (P := fun hist s => Represents (commits (hist.flatMap calls)).length s.dev.bufferP) ?_ ?_
    · exact Represents.init
    · intro hist s a r s' hrun hrep hok hs
      rw [commits_calls_concat, List.length_append]
      exact represents_step (good_of_run hrun).wf hrep hok.1 hok.2 hs
  exact ⟨hrep, fun a hover => ahead_of_overtakes (good_of_run h).wf hrep hover⟩

theorem represents_of_run_overtaken :
    ∃ hist s, Run step (fun s a => OnCalls (OnWrites Allocates) s a ∧ ¬ Overtakes s a) init hist s ∧
      Represents 1 s.dev.bufferP ∧
      ∃ s', s.step (.split (.lockedRead 7 false 9 9)) = .ok ({ retval := 0 }, s') ∧
        s'.dev.bufferP.inOffs < s'.dev.bufferP.outOffs := by
  obtain ⟨hist, s, hrun, hone, hover⟩ := exists_run_of_replay step
    (fun s a => OnCalls (OnWrites Allocates) s a ∧ ¬ Overtakes s a) init overtaken
    (fun hist s => (commits (hist.flatMap calls)).length = 1 ∧
      Overtakes s (.split (.lockedRead 7 false 9 9))) (by decide +kernel)
  obtain ⟨hrep, hahead⟩ := represents_of_run hrun
  rw [hone] at hrep
  exact ⟨hist, s, hrun, hrep, (hahead _ hover).2⟩

end Unlocked
end Aesd
