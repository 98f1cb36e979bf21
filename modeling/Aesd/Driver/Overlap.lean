import Aesd.Driver.EndOfFile
import Aesd.Driver.Session

/-!
# Reading while others write

In `Session` no write comes between the reads of a session.  Here nothing keeps the writers
out, nor other readers: after ten commits, any calls come in any order, and all that is
asked is that a read is one of a session with large requests --- of a file that stands at
0, and for more than any entry has.

Once the ring is full, a commit moves `out_offs` on by one whether or not the slot it
leaves has been read.  So the distance from `in_offs` to `out_offs` is what the reads have
made it, and the reads come in rounds of eleven: the `k`-th of a round finds, of the ten
entries that are stored when it comes, the one that is `k` after the oldest
(`reads_in_rounds`).  No entry comes twice, and none comes out of order; but every
commit makes the readers pass over one entry, which they have not seen and which is still
there.  What a round delivers is ten of the entries that were stored at its beginning or
came during it (`round_sublist`).
-/

namespace Aesd

/-- A read gets an answer: it delivers something, or it returns 0. -/
def answered (e : Call × Reply) : Bool := delivers e || endsFile e

/-- How many reads of the current round have been answered. -/
def inRound (hist : List (Call × Reply)) : ℕ := hist.countP answered % 11

theorem inRound_concat (hist : List (Call × Reply)) (e : Call × Reply) :
    inRound (hist ++ [e]) = if answered e then (inRound hist + 1) % 11 else inRound hist := by
  rw [inRound, inRound, List.countP_append, List.countP_singleton]
  split
  · rw [Nat.mod_add_mod]
  · rw [Nat.add_zero]

/-- The reads are those of sessions with large requests. -/
def ReadsWhole (s : Sys) : Call → Prop
  | .aesdRead file _ _ count =>
      (s.fPos file).getD 0 = 0 ∧ ∀ j < 10, (s.dev.bufferP.slot j).size < count.toNat
  | _ => True

instance (s : Sys) (c : Call) : Decidable (ReadsWhole s c) :=
  match c with
  | .aesdRead .. => inferInstanceAs (Decidable (_ ∧ ∀ j < 10, _))
  | .aesdOpen .. | .aesdRelease .. | .aesdWrite .. | .aesdLlseek .. | .aesdIoctl .. =>
      isTrue trivial

/-- Such reads, and writes that append something. -/
def Overlapping (s : Sys) (c : Call) : Prop := ReadsWhole s c ∧ OnWrites Appends s c

instance (s : Sys) (c : Call) : Decidable (Overlapping s c) :=
  inferInstanceAs (Decidable (_ ∧ _))

/-- The answer that is a whole entry. -/
def Reply.whole (e : List UInt8) : Reply := { retval := e.length, copied := e }

/-- The answer to the `k`-th read of a round, when these were committed. -/
def roundReply (log : List (List UInt8)) (k : ℕ) : Reply :=
  if k = 10 then { retval := 0 } else .whole (log.getD (log.length - 10 + k) [])

/-! ## One read -/

theorem answered_of_neg {c : Call} {r : Reply} (h : r.retval < 0) : answered (c, r) = false := by
  cases c with
  | aesdRead =>
    simp only [answered, delivers, endsFile, Bool.or_eq_false_iff, decide_eq_false_iff_not]
    omega
  | _ => rfl

theorem answered_of_not_isRead {c : Call} {r : Reply} (h : c.isRead = false) :
    answered (c, r) = false := by
  cases c with
  | aesdRead => exact absurd h (by simp [Call.isRead])
  | _ => rfl

theorem answered_of_nonneg {c : Call} {r : Reply} (hc : c.isRead = true) (h : 0 ≤ r.retval) :
    answered (c, r) = true := by
  cases c with
  | aesdRead =>
    simp only [answered, delivers, endsFile, Bool.or_eq_true, decide_eq_true_eq]
    omega
  | _ => exact absurd hc (by simp [Call.isRead])

/-- A large read at position 0 asks for the entry. -/
theorem readCount_whole {d : Driver} (hw : d.Wf) (hsize : d.current.size ≠ 0) {n : UInt64}
    (hn : d.current.size < n.toNat) :
    readLast d 0 n.toNat = true ∧ readCount d 0 n.toNat = d.current.size := by
  have hlt := hw.current_size_lt hsize
  have hl : readLast d ((0 : ℕ) : ℤ) n.toNat = true := by
    rw [readLast_natCast (by rw [Nat.zero_add]; exact n.toNat_lt), Nat.zero_add,
      decide_eq_true hn]
  refine ⟨hl, ?_⟩
  rw [readCount, show readLast d 0 n.toNat = true from hl, if_pos rfl, sub_zero]
  exact FixedWidth.wrapU_natCast (by omega)

/-- **One large read** fails, ends a round, or delivers the entry at `out_offs`. -/
theorem Sys.step_whole {s s' : Sys} {c : Call} {r : Reply} (hw : s.Wf)
    (hsize : s.current.size ≠ 0) (hc : c.isRead = true) (hok : ReadsWhole s c)
    (h : s.step c = .ok (r, s')) :
    (r.retval < 0 ∧ r.commit = none ∧ s'.toDriver = s.toDriver) ∨
      (s.dev.readCounter = 10 ∧ r = { retval := 0 } ∧
        s'.toDriver = { s.toDriver with dev.readCounter := 0 }) ∨
      (s.dev.readCounter ≠ 10 ∧
        r = { retval := s.current.size, copied := s.slotBytes s.dev.bufferP.outOffs } ∧
        s'.toDriver = s.served true) := by
  cases Sys.step_outcome hw h with
  | notOpen => exact Or.inl ⟨by simp [eBadf], rfl, rfl⟩
  | @aesdRead file interrupted avail count p p' r d hp hout =>
    obtain ⟨hzero, hbig⟩ := hok
    rw [hp, Option.getD_some] at hzero
    subst hzero
    obtain ⟨hlast, hcount⟩ := readCount_whole hw hsize (hbig _ hw.outOffs_lt)
    have hlen : (s.slotBytes s.dev.bufferP.outOffs).length = s.current.size :=
      hw.length_slotBytes _
    cases hout with
    | interrupted => exact Or.inl ⟨by simp [eRestartsys], rfl, rfl⟩
    | nothing _ hempty => exact absurd hempty hsize
    | stopped _ _ hten => exact Or.inr (Or.inl ⟨hten, rfl, rfl⟩)
    | fault => exact Or.inl ⟨by simp [eFault], rfl, rfl⟩
    | served _ _ hne =>
      rw [hlast, hcount, List.take_of_length_le hlen.le]
      exact Or.inr (Or.inr ⟨hne, rfl, rfl⟩)
  | _ => exact absurd hc (by simp [Call.isRead])

/-! ## The rounds -/

/-- The state after `k` reads of a round: the ring is full, and `out_offs` is `k` ahead of
`in_offs`. -/
structure Round (hist : List (Call × Reply)) (k : ℕ) (d : Driver) : Prop where
  wf : d.Wf
  streamed : Streamed hist d
  ten : 10 ≤ (commits hist).length
  full : d.dev.bufferP.full = true
  counter : d.dev.readCounter = k
  outOffs : d.dev.bufferP.outOffs = ((commits hist).length + k) % 10

namespace Round

variable {hist : List (Call × Reply)} {d : Driver} {k : ℕ}

theorem of_steady (h : Steady hist d) : Round hist 0 d where
  wf := h.wf
  streamed := h.streamed
  ten := h.ten
  full := by rw [h.unread.full, decide_eq_true h.ten]
  counter := h.unread.counter
  outOffs := h.outOffs

theorem aesdOpen_eq (h : Round hist k d) : aesdOpen d = d := by rw [aesdOpen, if_pos h.full]

theorem current_ne_zero (h : Round hist k d) : d.current.size ≠ 0 := by
  have hlt := h.wf.outOffs_lt
  have hten := h.ten
  exact h.streamed.size_ne_zero h.wf hlt (by omega)

/-- What is at `out_offs` before the round is over. -/
theorem slotBytes_outOffs (h : Round hist k d) (hk : k < 10) :
    (commits hist)[(commits hist).length - 10 + k]? =
      some (d.slotBytes d.dev.bufferP.outOffs) := by
  have hahead := h.streamed.ring.getElem?_ahead (by rw [List.length_map]; exact h.ten) hk
  rw [List.length_map, ← h.outOffs, List.getElem?_map] at hahead
  obtain ⟨e, he, hdata⟩ := Option.map_eq_some_iff.mp hahead
  rw [he, Driver.slotBytes_eq, ← hdata, Option.getD_some]

theorem roundReply_of_lt (h : Round hist k d) (hk : k < 10) :
    roundReply (commits hist) k = .whole (d.slotBytes d.dev.bufferP.outOffs) := by
  rw [roundReply, if_neg (by omega), List.getD_eq_getElem?_getD, h.slotBytes_outOffs hk,
    Option.getD_some]

theorem length_slotBytes_pos (h : Round hist k d) :
    0 < (d.slotBytes d.dev.bufferP.outOffs).length := by
  rw [h.wf.length_slotBytes]
  exact Nat.pos_of_ne_zero h.current_ne_zero

/-- **The answer to a read.** -/
theorem reply_eq {s s' : Sys} {c : Call} {r : Reply} (h : Round hist k s.toDriver)
    (hok : ReadsWhole s c) (hs : s.step c = .ok (r, s')) (hr : answered (c, r) = true) :
    r = roundReply (commits hist) k := by
  have hread : c.isRead = true := by
    by_contra hnot
    rw [answered_of_not_isRead (Bool.eq_false_iff.mpr hnot)] at hr
    exact absurd hr (by simp)
  have hcounter := h.counter
  have hle := h.wf.counter_le
  have hlen : (s.slotBytes s.dev.bufferP.outOffs).length = s.current.size :=
    h.wf.length_slotBytes _
  rcases Sys.step_whole h.wf h.current_ne_zero hread hok hs with
    ⟨hneg, -⟩ | ⟨hten, rfl, -⟩ | ⟨hne, rfl, -⟩
  · rw [answered_of_neg hneg] at hr
    exact absurd hr (by simp)
  · rw [roundReply, if_pos (by omega)]
  · rw [h.roundReply_of_lt (by omega), Reply.whole, hlen]

/-- The state after a call, by its counter and its index. -/
theorem next {e : Call × Reply} {d' : Driver} {k' : ℕ} (h : Round hist k d) (hwf : d'.Wf)
    (hst : Streamed (hist ++ [e]) d') (hfull : d'.dev.bufferP.full = true)
    (hcounter : d'.dev.readCounter = k')
    (hout : d'.dev.bufferP.outOffs =
      ((commits hist).length + e.2.commit.toList.length + k') % 10) :
    Round (hist ++ [e]) k' d' := by
  have hlen : (commits (hist ++ [e])).length =
      (commits hist).length + e.2.commit.toList.length := by
    rw [commits_concat, List.length_append]
  have hten := h.ten
  exact ⟨hwf, hst, by omega, hfull, hcounter, by rw [hlen, hout]⟩

/-- A write moves `out_offs` with `in_offs`. -/
theorem wrote {e : Call × Reply} {data : List UInt8} (h : Round hist k d)
    (hwf : (d.wrote data).Wf) (hst : Streamed (hist ++ [e]) (d.wrote data))
    (hcommit : e.2.commit =
      if Committable (d.pending ++ data) then some (d.pending ++ data) else none) :
    Round (hist ++ [e]) k (d.wrote data) := by
  have hout := h.outOffs
  by_cases hc : Committable (d.pending ++ data)
  · have hwrote : d.wrote data = (d.filled data).handed := by rw [Driver.wrote, if_pos hc]
    rw [if_pos hc] at hcommit
    rw [hwrote] at hwf hst ⊢
    refine h.next hwf hst ?_ h.counter ?_
    · rw [Driver.bufferP_handed, Driver.bufferP_filled, addEntry_full _ h.wf.inOffs_lt, h.full,
        Bool.true_or]
    · rw [Driver.bufferP_handed, Driver.bufferP_filled, addEntry_outOffs _ h.wf.inOffs_lt,
        if_pos h.full, hout, hcommit, Option.toList_some, List.length_singleton]
      omega
  · have hwrote : d.wrote data = d.filled data := by rw [Driver.wrote, if_neg hc]
    rw [if_neg hc] at hcommit
    rw [hwrote] at hwf hst ⊢
    refine h.next hwf hst h.full h.counter ?_
    rw [Driver.bufferP_filled, hout, hcommit, Option.toList_none, List.length_nil, Nat.add_zero]

/-- A call that is not a read leaves the round where it is. -/
theorem step_unread {s s' : Sys} {c : Call} {r : Reply} (h : Round hist k s.toDriver)
    (hok : WriteOnly s c) (hs : s.step c = .ok (r, s')) :
    Round (hist ++ [(c, r)]) k s'.toDriver := by
  have hwf := Sys.step_wf h.wf hs
  have hst := h.streamed.step h.wf hok.2.grows hs
  rcases Sys.step_unread h.wf hok hs with ⟨hd, hnone⟩ | ⟨data, -, hcommit, hd⟩
  · have hsame : s'.toDriver = s.toDriver := by
      rcases hd with hd | hd
      · exact hd
      · rw [hd, h.aesdOpen_eq]
    refine h.next hwf hst ?_ ?_ ?_
    · rw [hsame, h.full]
    · rw [hsame, h.counter]
    · rw [hsame, h.outOffs, hnone, Option.toList_none, List.length_nil, Nat.add_zero]
  · have hwf' : (s.wrote data).Wf := by rw [← hd]; exact hwf
    have hst' : Streamed (hist ++ [(c, r)]) (s.wrote data) := by rw [← hd]; exact hst
    rw [hd]
    exact h.wrote hwf' hst' hcommit

/-- A read that is answered is one more of the round, and the eleventh ends it. -/
theorem step_read {s s' : Sys} {c : Call} {r : Reply} (h : Round hist k s.toDriver)
    (hread : c.isRead = true) (hok : Overlapping s c) (hs : s.step c = .ok (r, s')) :
    Round (hist ++ [(c, r)]) (if answered (c, r) then (k + 1) % 11 else k) s'.toDriver := by
  have hwf := Sys.step_wf h.wf hs
  have hst := h.streamed.step h.wf hok.2.grows hs
  have hcounter := h.counter
  have hle := h.wf.counter_le
  have hout := h.outOffs
  rcases Sys.step_whole h.wf h.current_ne_zero hread hok.1 hs with
    ⟨hneg, hnone, hd⟩ | ⟨hten, rfl, hd⟩ | ⟨hne, rfl, hd⟩
  · rw [answered_of_neg hneg, if_neg (by simp)]
    refine h.next hwf hst ?_ ?_ ?_
    · rw [hd, h.full]
    · rw [hd, hcounter]
    · rw [hd, hout, hnone, Option.toList_none, List.length_nil, Nat.add_zero]
  · rw [answered_of_nonneg hread le_rfl, if_pos rfl]
    have hk : k = 10 := by omega
    subst hk
    refine h.next hwf hst ?_ ?_ ?_
    · rw [hd, h.full]
    · rw [hd]
      rfl
    · -- ten reads and ten slots: `out_offs` has come back to `in_offs`
      rw [hd, hout, Option.toList_none, List.length_nil]
      omega
  · rw [answered_of_nonneg hread (Int.natCast_nonneg _), if_pos rfl]
    refine h.next hwf hst ?_ ?_ ?_
    · rw [hd, Driver.served, h.full]
    · rw [hd, Driver.served]
      dsimp only
      omega
    · rw [hd, Driver.served]
      dsimp only
      rw [if_pos rfl, hout, Option.toList_none, List.length_nil]
      omega

/-- **One call.** -/
theorem step {s s' : Sys} {c : Call} {r : Reply} (h : Round hist k s.toDriver)
    (hok : Overlapping s c) (hs : s.step c = .ok (r, s')) :
    Round (hist ++ [(c, r)]) (if answered (c, r) then (k + 1) % 11 else k) s'.toDriver := by
  by_cases hread : c.isRead = true
  · exact h.step_read hread hok hs
  · have hnot := Bool.eq_false_iff.mpr hread
    rw [answered_of_not_isRead hnot, if_neg (by simp)]
    exact h.step_unread ⟨hnot, hok.2⟩ hs

/-- **Along a run, the rounds are counted by the answers.** -/
theorem run {during : List (Call × Reply)} {s s' : Sys} (h : Round hist 0 s.toDriver)
    (hrun : Run Sys.step Overlapping s during s') :
    Round (hist ++ during) (inRound during) s'.toDriver := by
  refine hrun.invariant (P := fun during t => Round (hist ++ during) (inRound during) t.toDriver)
    ?_ ?_
  · rw [List.append_nil]
    exact h
  · intro during t c r t' _ ih hok hs
    rw [← List.append_assoc, inRound_concat]
    exact ih.step hok hs

theorem of_run {hist₀ hist : List (Call × Reply)} {s₀ s : Sys}
    (h₀ : Run Sys.step WriteOnly Sys.init hist₀ s₀) (hten : 10 ≤ (commits hist₀).length)
    (h : Run Sys.step Overlapping s₀ hist s) :
    Round (hist₀ ++ hist) (inRound hist) s.toDriver :=
  (of_steady (Steady.of_steadyRun (.fill h₀ hten))).run h

end Round

/-- **Reads come in rounds.**  Once ten entries are committed, and before the first read, any
calls may come in any order and on any files, as long as the writes append something and
every read is of a file at position 0 and for more than any entry.  Then the answer to a
read is, for the `k`-th of its round of eleven, the whole of that entry among the ten stored
when it comes which is `k` after the oldest, or 0 for the eleventh; and `out_offs` is ahead
of `in_offs` by the answered reads of the round. -/
theorem reads_in_rounds {hist₀ hist : List (Call × Reply)} {s₀ s : Sys}
    (h₀ : Run Sys.step WriteOnly Sys.init hist₀ s₀) (hten : 10 ≤ (commits hist₀).length)
    (h : Run Sys.step Overlapping s₀ hist s) :
    (∀ before e after, hist = before ++ e :: after → answered e = true →
      e.2 = roundReply (commits (hist₀ ++ before)) (inRound before)) ∧
    s.dev.bufferP.outOffs = (s.dev.bufferP.inOffs + inRound hist) % 10 ∧
    s.dev.readCounter = inRound hist := by
  have hround := Round.of_run h₀ hten h
  refine ⟨?_, ?_, hround.counter⟩
  · rintro before ⟨c, r⟩ after rfl hr
    rw [← List.concat_append, List.concat_eq_append] at h
    obtain ⟨s₂, hbefore, -⟩ := Run.append_iff.mp h
    obtain ⟨s₁, hrun, hok, hs⟩ := Run.concat_iff.mp hbefore
    exact (Round.of_run h₀ hten hrun).reply_eq hok.1 hs hr
  · rw [hround.outOffs, hround.streamed.inOffs, Nat.mod_add_mod]

/-- Ten lines. -/
def tenLines : List Call :=
  .aesdOpen 0 :: [97, 98, 99, 100, 101, 102, 103, 104, 105, 106].map fun b => writeLine [b, 10]

/-- Two readers, and a write after the first read. -/
def overlapCalls : List Call :=
  [.aesdOpen 1, .aesdRead 1 false 9 9, writeLine [107, 10], .aesdRead 1 false 9 9, .aesdOpen 2,
    .aesdRead 2 false 9 9]

theorem reads_in_rounds_two :
    ∃ hist₀ s₀ hist s, Run Sys.step WriteOnly Sys.init hist₀ s₀ ∧
      Run Sys.step Overlapping s₀ hist s ∧
      (hist.filter answered).map (·.2.copied) = [[97, 10], [99, 10], [100, 10]] ∧
      (∀ before e after, hist = before ++ e :: after → answered e = true →
        e.2 = roundReply (commits (hist₀ ++ before)) (inRound before)) ∧
      s.dev.bufferP.outOffs = (s.dev.bufferP.inOffs + inRound hist) % 10 := by
  obtain ⟨hist₀, s₀, h₀, hten, hmore⟩ := exists_run_of_replay Sys.step WriteOnly Sys.init tenLines
    (fun hist₀ s₀ => 10 ≤ (commits hist₀).length ∧
      (replay Sys.step Overlapping s₀ overlapCalls).any (fun q =>
        decide ((q.1.filter answered).map (·.2.copied) =
          [[97, 10], [99, 10], [100, 10]])) = true) (by decide +kernel)
  obtain ⟨hist, s, h, hcopied⟩ := exists_run_of_replay Sys.step Overlapping s₀ overlapCalls
    (fun hist _ => (hist.filter answered).map (·.2.copied) =
      [[97, 10], [99, 10], [100, 10]]) hmore
  obtain ⟨hreply, hout, -⟩ := reads_in_rounds h₀ hten h
  exact ⟨hist₀, s₀, hist, s, h₀, h, hcopied, hreply, hout⟩

/-! ## What a round delivers -/

/-- What the reads deliver. -/
def obtained (during : List (Call × Reply)) : List (List UInt8) :=
  (during.filter delivers).map (·.2.copied)

/-- What a round can deliver: the ten entries stored when it begins, and those that are
committed during it. -/
def onOffer (before during : List (Call × Reply)) : List (List UInt8) :=
  (commits before).drop ((commits before).length - 10) ++ commits during

theorem obtained_concat (during : List (Call × Reply)) (e : Call × Reply) :
    obtained (during ++ [e]) = obtained during ++ if delivers e then [e.2.copied] else [] := by
  rw [obtained, obtained, List.filter_append, List.map_append, List.filter_singleton]
  cases delivers e <;> rfl

theorem onOffer_concat (before during : List (Call × Reply)) (e : Call × Reply) :
    onOffer before (during ++ [e]) = onOffer before during ++ e.2.commit.toList := by
  rw [onOffer, onOffer, commits_concat, List.append_assoc]

theorem getElem?_onOffer (before during : List (Call × Reply)) (i : ℕ) :
    (onOffer before during)[i]? =
      (commits (before ++ during))[(commits before).length - 10 + i]? := by
  rw [onOffer, commits_append, ← List.drop_append_of_le_length (Nat.sub_le _ _),
    List.getElem?_drop]

theorem delivers_of_answered {c : Call} {r : Reply} (h : answered (c, r) = true) :
    delivers (c, r) = decide (0 < r.retval) := by
  cases c with
  | aesdRead => rfl
  | _ => exact absurd h (by simp [answered, delivers, endsFile])

theorem not_delivers {e : Call × Reply} (h : answered e = false) : delivers e = false :=
  (Bool.or_eq_false_iff.mp h).1

/-- A part of a round, up to its end: one entry for each of the first ten reads, in the
order in which they were committed. -/
structure InOrder (before during : List (Call × Reply)) : Prop where
  length : (obtained during).length = min (during.countP answered) 10
  sublist : (obtained during).Sublist ((onOffer before during).take
    (min (during.countP answered) 10 + (commits during).length))

namespace InOrder

variable {before during : List (Call × Reply)} {s s' : Sys} {c : Call} {r : Reply}

/-- A call that answers no read. -/
theorem unanswered (h : InOrder before during) (hr : answered (c, r) = false) :
    InOrder before (during ++ [(c, r)]) := by
  have hcount : (during ++ [(c, r)]).countP answered = during.countP answered := by
    rw [List.countP_append, List.countP_singleton, hr, if_neg (by simp), Nat.add_zero]
  have hsame : obtained (during ++ [(c, r)]) = obtained during := by
    rw [obtained_concat, not_delivers hr, if_neg (by simp), List.append_nil]
  refine ⟨by rw [hsame, hcount, h.length], ?_⟩
  rw [hsame, hcount, onOffer_concat, commits_concat, List.length_append]
  -- with the entry that was committed, one more may have been passed over
  have hpre : (onOffer before during).take
      (min (during.countP answered) 10 + (commits during).length) <+:
      onOffer before during ++ r.commit.toList :=
    (List.take_prefix _ _).trans (List.prefix_append _ _)
  refine h.sublist.trans (List.IsPrefix.sublist (List.prefix_take_iff.mpr ⟨hpre, ?_⟩))
  rw [List.length_take]
  omega

/-- One of the first ten reads of a round: its entry is the next one on offer. -/
theorem answer_entry {e : List UInt8} (h : InOrder before during)
    (hge : 10 ≤ (commits before).length) (hlt : during.countP answered < 10)
    (hr : answered (c, .whole e) = true) (hpos : 0 < e.length)
    (hget : (commits (before ++ during))[(commits (before ++ during)).length - 10 +
      during.countP answered]? = some e) :
    InOrder before (during ++ [(c, .whole e)]) := by
  have hcount : (during ++ [(c, Reply.whole e)]).countP answered =
      during.countP answered + 1 := by
    rw [List.countP_append, List.countP_singleton, if_pos hr]
  have hdelivers : delivers (c, .whole e) = true := by
    rw [delivers_of_answered hr]
    exact decide_eq_true (Int.natCast_pos.mpr hpos)
  have hmore : obtained (during ++ [(c, .whole e)]) = obtained during ++ [e] := by
    rw [obtained_concat, hdelivers, if_pos rfl, Reply.whole]
  have hnext : (onOffer before during)[during.countP answered + (commits during).length]? =
      some e := by
    rw [getElem?_onOffer, ← hget, commits_append, List.length_append]
    congr 1
    omega
  have hsub := h.sublist
  have hlen := h.length
  rw [min_eq_left (by omega)] at hsub hlen
  refine ⟨?_, ?_⟩
  · rw [hmore, hcount, List.length_append, List.length_singleton, hlen, min_eq_left (by omega)]
  · rw [hmore, hcount, onOffer_concat, commits_concat, Reply.whole, Option.toList_none,
      List.append_nil, List.append_nil, min_eq_left (by omega), Nat.add_right_comm,
      List.take_add_one, hnext, Option.toList_some]
    exact hsub.append (List.Sublist.refl _)

/-- The eleventh read delivers nothing. -/
theorem answer_zero (h : InOrder before during) (hten : during.countP answered = 10)
    (hr : answered (c, { retval := 0 }) = true) :
    InOrder before (during ++ [(c, { retval := 0 })]) := by
  have hcount : (during ++ [(c, ({ retval := 0 } : Reply))]).countP answered = 11 := by
    rw [List.countP_append, List.countP_singleton, if_pos hr, hten]
  have hdelivers := delivers_of_answered hr
  rw [decide_eq_false (by simp)] at hdelivers
  have hsame : obtained (during ++ [(c, { retval := 0 })]) = obtained during := by
    rw [obtained_concat, hdelivers, if_neg (by simp), List.append_nil]
  have hsub := h.sublist
  have hlen := h.length
  rw [hten] at hsub hlen
  refine ⟨by rw [hsame, hcount, hlen]; rfl, ?_⟩
  rw [hsame, hcount, onOffer_concat, commits_concat, Option.toList_none, List.append_nil,
    List.append_nil]
  exact hsub

/-- A read of a round that is not over. -/
theorem answer (h : InOrder before during) (hge : 10 ≤ (commits before).length)
    (hround : Round (before ++ during) (inRound during) s.toDriver)
    (hle : during.countP answered ≤ 10) (hok : ReadsWhole s c) (hs : s.step c = .ok (r, s'))
    (hr : answered (c, r) = true) : InOrder before (during ++ [(c, r)]) := by
  have hreply := hround.reply_eq hok hs hr
  have hk : inRound during = during.countP answered := Nat.mod_eq_of_lt (by omega)
  rw [hk] at hreply hround
  rcases Nat.lt_or_eq_of_le hle with hlt | hten
  · rw [hround.roundReply_of_lt hlt] at hreply
    subst hreply
    exact h.answer_entry hge hlt hr hround.length_slotBytes_pos (hround.slotBytes_outOffs hlt)
  · rw [roundReply, if_pos hten] at hreply
    subst hreply
    exact h.answer_zero hten hr

/-- **A round from its beginning**, as far as it goes. -/
theorem of_run (hge : 10 ≤ (commits before).length) (h : Round before 0 s.toDriver)
    (hrun : Run Sys.step Overlapping s during s') (hle : during.countP answered ≤ 11) :
    InOrder before during := by
  induction hrun with
  | start => exact ⟨rfl, List.nil_sublist _⟩
  | @call during t t' c r hrun hok hs ih =>
    have hsum : during.countP answered + [(c, r)].countP answered ≤ 11 := by
      rw [← List.countP_append]
      exact hle
    have hpart := ih (by omega)
    by_cases hr : answered (c, r) = true
    · rw [List.countP_singleton, if_pos hr] at hsum
      exact hpart.answer hge (h.run hrun) (by omega) hok.1 hs hr
    · exact hpart.unanswered (Bool.eq_false_iff.mpr hr)

end InOrder

/-- **What a round delivers.**  In such a run, let a round begin, and any calls come until
its end or before it.  Each answered read has delivered an entry, the first ten of them; and
the entries are, in the order in which they were committed and none twice, out of the ten
that were stored when the round began and those committed since.  These are ten and as many
as the commits, so a whole round leaves out as many as were committed during it. -/
theorem round_sublist {hist₀ before round : List (Call × Reply)} {s₀ s : Sys}
    (h₀ : Run Sys.step WriteOnly Sys.init hist₀ s₀) (hten : 10 ≤ (commits hist₀).length)
    (h : Run Sys.step Overlapping s₀ (before ++ round) s) (hstart : inRound before = 0)
    (hle : round.countP answered ≤ 11) :
    (obtained round).length = min (round.countP answered) 10 ∧
      (obtained round).Sublist (onOffer (hist₀ ++ before) round) ∧
      (onOffer (hist₀ ++ before) round).length = 10 + (commits round).length := by
  obtain ⟨s₁, hbefore, hround⟩ := Run.append_iff.mp h
  have hbegin := Round.of_run h₀ hten hbefore
  rw [hstart] at hbegin
  have horder := InOrder.of_run hbegin.ten hbegin hround hle
  refine ⟨horder.length, horder.sublist.trans (List.take_sublist _ _), ?_⟩
  have hge := hbegin.ten
  rw [onOffer, List.length_append, List.length_drop]
  omega

/-- A reader that opens and reads until it is given 0, and a write after its first read. -/
def interruptedSession : List Call :=
  [.aesdOpen 1, .aesdRead 1 false 9 9, writeLine [107, 10]] ++
    List.replicate 10 (.aesdRead 1 false 9 9)

theorem round_sublist_eleven :
    ∃ hist₀ s₀ round s, Run Sys.step WriteOnly Sys.init hist₀ s₀ ∧
      Run Sys.step Overlapping s₀ round s ∧ round.countP answered = 11 ∧
      obtained round = [97, 99, 100, 101, 102, 103, 104, 105, 106, 107].map ([·, 10]) ∧
      (obtained round).Sublist (onOffer (hist₀ ++ []) round) ∧
      (onOffer (hist₀ ++ []) round).length = 11 := by
  obtain ⟨hist₀, s₀, h₀, hten, hmore⟩ := exists_run_of_replay Sys.step WriteOnly Sys.init tenLines
    (fun hist₀ s₀ => 10 ≤ (commits hist₀).length ∧
      (replay Sys.step Overlapping s₀ interruptedSession).any (fun q =>
        decide ((commits q.1).length = 1 ∧ q.1.countP answered = 11 ∧
          obtained q.1 =
            [97, 99, 100, 101, 102, 103, 104, 105, 106, 107].map ([·, 10]))) = true)
    (by decide +kernel)
  obtain ⟨round, s, h, hone, hcount, hobtained⟩ := exists_run_of_replay Sys.step Overlapping s₀
    interruptedSession (fun round _ => (commits round).length = 1 ∧
      round.countP answered = 11 ∧
      obtained round = [97, 99, 100, 101, 102, 103, 104, 105, 106, 107].map ([·, 10])) hmore
  have hrun : Run Sys.step Overlapping s₀ ([] ++ round) s := h
  obtain ⟨-, hsub, hlen⟩ := round_sublist h₀ hten hrun rfl hcount.le
  exact ⟨hist₀, s₀, round, s, h₀, h, hcount, hobtained, hsub, by rw [hlen, hone]⟩

end Aesd
