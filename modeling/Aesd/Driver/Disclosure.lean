import Aesd.Driver.Refinement

/-!
# What gets out of the kernel

`kmalloc` does not clear the blocks it returns, and `aesd_write` relies on `copy_from_user`
to fill them.  When that fails part of the way, the driver keeps the block.  So it has to
be seen that no caller can ever read what some other part of the kernel had left there.

There are two ways to say this, and both follow from the refinement.  Two runs that make
the same requests cannot be told apart by what they answer, whatever the blocks contained
(`replies_eq_of_requests_eq`).  And what is copied to a caller has a place in the stream
that the writes handed over, in which nothing stands but their bytes, in order, and after
the bytes of a write that failed a zero for each one that is missing
(`copied_was_written`).

This is about what is copied.  The debug messages of the driver print the entries as
strings, which they are not; the kernel's log is not part of the model.
-/

namespace Aesd

/-! ## Two runs -/

/-- **The allocator cannot be seen.**  Two runs with the same requests get the same replies,
store the same bytes and leave every file at the same position, whatever blocks `kmalloc`
gave out and whatever was in them. -/
theorem replies_eq_of_requests_eq {ok ok' : Sys → Call → Prop}
    {hist hist' : List (Call × Reply)} {s s' : Sys} (h : Run Sys.step ok Sys.init hist s)
    (h' : Run Sys.step ok' Sys.init hist' s')
    (hreq : requests Call.request hist = requests Call.request hist') :
    replies hist = replies hist' ∧ s.stored = s'.stored ∧ s.pending = s'.pending ∧
      s.fPos = s'.fPos := by
  obtain ⟨hreplies, t, ⟨hrep, hpos⟩, hrep', hpos'⟩ :=
    Sys.refines.agree Sys.refines Sys.refines_init Sys.refines_init h h' hreq
  refine ⟨hreplies, ?_, ?_, ?_⟩
  · rw [hrep.stored, hrep'.stored]
  · rw [hrep.pending, hrep'.pending]
  · rw [hpos, hpos']

/-- A write that finds less than it was told, in two blocks that held different bytes, and
what can be read after it. -/
theorem replies_eq_of_blocks :
    ∃ hist s hist' s', Run Sys.step (fun _ _ => True) Sys.init hist s ∧
      Run Sys.step (fun _ _ => True) Sys.init hist' s' ∧ hist.length = 4 ∧
      replies hist = replies hist' := by
  let calls (junk : UInt8) : List Call :=
    [.aesdOpen 0, .aesdWrite 0 false (some fun _ => junk) [97] 2, writeLine [10],
      .aesdRead 0 false 9 9]
  have hrun (junk : UInt8) (hjunk : junk = 7 ∨ junk = 8) :
      ∃ hist s, Run Sys.step (fun _ _ => True) Sys.init hist s ∧
        requests Call.request hist = (calls 7).map Call.request := by
    rcases hjunk with rfl | rfl
    · exact exists_run_of_replay Sys.step (fun _ _ => True) Sys.init (calls 7)
        (fun hist _ => requests Call.request hist = (calls 7).map Call.request)
        (by decide +kernel)
    · exact exists_run_of_replay Sys.step (fun _ _ => True) Sys.init (calls 8)
        (fun hist _ => requests Call.request hist = (calls 7).map Call.request)
        (by decide +kernel)
  obtain ⟨hist, s, h, hreq⟩ := hrun 7 (Or.inl rfl)
  obtain ⟨hist', s', h', hreq'⟩ := hrun 8 (Or.inr rfl)
  have hlen : hist.length = 4 := by
    have := congrArg List.length hreq
    simpa [requests, calls] using this
  exact ⟨hist, s, hist', s', h, h', hlen,
    (replies_eq_of_requests_eq h h' (hreq.trans hreq'.symm)).1⟩

/-! ## Where a byte comes from -/

/-- What a write has for the device: the bytes it was given and, if it failed at the copy,
a zero for each that it could not read. -/
def handedOver (e : Call × Reply) : Option (List UInt8) :=
  match e.1 with
  | .aesdWrite _ _ _ buf count =>
      if 0 ≤ e.2.retval then some (buf.take count.toNat)
      else if e.2.retval = -eFault then some (padded buf count.toNat)
      else none
  | _ => none

namespace LogDevice

/-- What a read copies is the beginning of the command to be read next. -/
theorem copied_prefix (a : LogDevice) (p : ℤ) (interrupted : Bool) (avail count : ℕ) :
    (a.read p interrupted avail count).1.copied <+: a.current := by
  unfold LogDevice.read
  dsimp only
  split_ifs <;> first | exact List.nil_prefix | exact List.take_prefix _ _

/-- Writes copy nothing. -/
theorem copied_write (a : LogDevice) (p : ℤ) (interrupted : Bool) (buf : List UInt8)
    (count : ℕ) : (a.write p interrupted buf count).1.copied = [] := by
  unfold LogDevice.write
  dsimp only
  split_ifs <;> rfl

/-- **A write appends all of its data, or fails.**  If it fails, it commits nothing, and it
leaves the pending bytes as they are or puts there what it could copy, with zeros for the
rest. -/
theorem write_stream {a a' : LogDevice} {p p' : ℤ} {interrupted : Bool} {buf : List UInt8}
    {count : ℕ} {r : Reply} (h : a.write p interrupted buf count = (r, p', a')) :
    (0 ≤ r.retval ∧ r.commit.toList.flatten ++ a'.pending = a.pending ++ buf.take count) ∨
      (r.retval < 0 ∧ r.commit = none ∧
        (a'.pending = a.pending ∨
          r.retval = -eFault ∧ a'.pending = a.pending ++ padded buf count)) := by
  have hfault : -eFault < 0 := by decide
  unfold LogDevice.write at h
  dsimp only at h
  split_ifs at h with hint hdone hc hnew
  · obtain ⟨rfl, rfl, rfl⟩ := h
    exact Or.inr ⟨by decide, rfl, Or.inl rfl⟩
  · -- the command is complete
    obtain ⟨rfl, rfl, rfl⟩ := h
    exact Or.inl ⟨Int.natCast_nonneg _, by simp [LogDevice.append]⟩
  · obtain ⟨rfl, rfl, rfl⟩ := h
    exact Or.inl ⟨Int.natCast_nonneg _, rfl⟩
  · -- the beginning of a command stays
    obtain ⟨rfl, rfl, rfl⟩ := h
    refine Or.inr ⟨hfault, rfl, Or.inr ⟨rfl, ?_⟩⟩
    rw [hnew.1, List.nil_append]
  · obtain ⟨rfl, rfl, rfl⟩ := h
    exact Or.inr ⟨hfault, rfl, Or.inl rfl⟩

end LogDevice

namespace LogSys

theorem step_file {t : LogSys} {Q : Reply × LogSys → Prop} {file : ℕ} {k : ℤ → Reply × LogSys}
    (hnone : Q ({ retval := -eBadf }, t)) (hk : ∀ p, Q (k p)) : Q (t.onFile file k) := by
  unfold onFile
  split
  · exact hnone
  · exact hk _

/-- What a request copies to the caller is the beginning of the command to be read next. -/
theorem copied_step (t : LogSys) (q : Request) : (t.step q).1.copied <+: t.current := by
  cases q with
  | openFile file => exact List.nil_prefix
  | release file =>
    exact step_file (Q := fun r => r.1.copied <+: t.current) List.nil_prefix
      fun _ => List.nil_prefix
  | read file interrupted avail count =>
    exact step_file (Q := fun r => r.1.copied <+: t.current) List.nil_prefix
      fun p => t.copied_prefix p interrupted avail _
  | write file interrupted buf count =>
    refine step_file (Q := fun r => r.1.copied <+: t.current) List.nil_prefix fun p => ?_
    dsimp only
    rw [LogDevice.copied_write]
    exact List.nil_prefix
  | seek file interrupted offset whence =>
    exact step_file (Q := fun r => r.1.copied <+: t.current) List.nil_prefix
      fun _ => List.nil_prefix
  | control file interrupted cmd arg stack =>
    exact step_file (Q := fun r => r.1.copied <+: t.current) List.nil_prefix
      fun _ => List.nil_prefix

/-- A call with this answer appends what it hands over to what was committed and is pending,
or it changes neither of them and is no write that succeeded. -/
def Streams (t : LogSys) (c : Call) (res : Reply × LogSys) : Prop :=
  (∃ data, handedOver (c, res.1) = some data ∧
      res.1.commit.toList.flatten ++ res.2.pending = t.pending ++ data) ∨
    (chunkOf (c, res.1) = none ∧ res.1.commit = none ∧ res.2.pending = t.pending)

/-- A call that wrote nothing and left the commands and the pending bytes alone. -/
theorem Streams.unchanged {t : LogSys} {c : Call} {res : Reply × LogSys}
    (hchunk : chunkOf (c, res.1) = none) (hcommit : res.1.commit = none)
    (hpending : res.2.pending = t.pending) : t.Streams c res :=
  Or.inr ⟨hchunk, hcommit, hpending⟩

/-- **One request adds what its write hands over, or nothing.** -/
theorem streams_step (t : LogSys) (c : Call) : t.Streams c (t.step c.request) := by
  cases c with
  | aesdOpen file =>
    refine Streams.unchanged rfl rfl ?_
    simp only [Call.request, step, after, LogDevice.openFile]
    split <;> rfl
  | aesdRelease file =>
    exact step_file (Q := Streams t (.aesdRelease file)) (Streams.unchanged rfl rfl rfl)
      fun _ => Streams.unchanged rfl rfl rfl
  | aesdRead file interrupted avail count =>
    refine step_file (Q := Streams t (.aesdRead file interrupted avail count))
      (Streams.unchanged rfl rfl rfl) fun p => ?_
    unfold LogDevice.read
    dsimp only
    split_ifs <;> exact Streams.unchanged rfl rfl rfl
  | aesdWrite file interrupted alloc buf count =>
    refine step_file (Q := Streams t (.aesdWrite file interrupted alloc buf count))
      (Streams.unchanged (by simp [chunkOf]) rfl rfl) fun p => ?_
    obtain ⟨r, p', a', hwrite⟩ : ∃ r p' a',
      t.toLogDevice.write p interrupted buf count.toNat = (r, p', a') := ⟨_, _, _, rfl⟩
    dsimp only
    rw [hwrite]
    rcases LogDevice.write_stream hwrite with ⟨hret, hadd⟩ | ⟨hret, hcommit, hkeep | ⟨hfault, hput⟩⟩
    · exact Or.inl ⟨_, if_pos hret, hadd⟩
    · exact Streams.unchanged (if_neg (by simpa using hret)) hcommit hkeep
    · refine Or.inl ⟨padded buf count.toNat, ?_, ?_⟩
      · exact (if_neg (by simpa using hret)).trans (if_pos hfault)
      · rw [hcommit]
        exact hput
  | aesdLlseek file interrupted offset whence =>
    exact step_file (Q := Streams t (.aesdLlseek file interrupted offset whence))
      (Streams.unchanged rfl rfl rfl) fun _ => Streams.unchanged rfl rfl rfl
  | aesdIoctl file interrupted cmd arg stack =>
    exact step_file (Q := Streams t (.aesdIoctl file interrupted cmd arg stack))
      (Streams.unchanged rfl rfl rfl) fun _ => Streams.unchanged rfl rfl rfl

end LogSys

/-- What a call copies is the beginning of one of the last ten commands. -/
theorem Sys.copied_recent {ok : Sys → Call → Prop} {hist : List (Call × Reply)} {s s' : Sys}
    {c : Call} {r : Reply} (h : Run step ok init hist s) (hs : s.step c = .ok (r, s')) :
    r.copied = [] ∨ ∃ e ∈ (commits hist).drop ((commits hist).length - 10), r.copied <+: e := by
  obtain ⟨-, hrep⟩ := refines.run refines_init h
  have hpre := LogSys.copied_step (endState LogSys.step LogSys.init (requests Call.request hist))
    c.request
  rw [(refines.step hrep hs).1, ← hrep.1.current] at hpre
  rcases (ring_of_run h).1.eq_or_mem_drop (by decide) hrep.1.wf.outOffs_lt with hnil | hmem
  · rw [hnil, List.prefix_nil] at hpre
    exact Or.inl hpre
  · exact Or.inr ⟨_, hmem, hpre⟩

/-- The writes of a history that succeeded. -/
def servedWrites (hist : List (Call × Reply)) : List (Call × Reply) :=
  hist.filter fun e => (chunkOf e).isSome

/-- What was committed and is pending is what some writes of the history handed over, in
their order, among them all that succeeded. -/
def Handed (hist : List (Call × Reply)) (stream : List UInt8) : Prop :=
  ∃ writes : List (Call × Reply), (servedWrites hist).Sublist writes ∧ writes.Sublist hist ∧
    stream = (writes.filterMap handedOver).flatten

/-- The run lemma: every write that succeeded is among those whose bytes are there, and
some that failed may be. -/
theorem Sys.handed_of_run {ok : Sys → Call → Prop} {hist : List (Call × Reply)} {s : Sys}
    (h : Run step ok init hist s) : Handed hist ((commits hist).flatten ++ s.pending) := by
  induction h with
  | start => exact ⟨[], List.nil_sublist _, List.nil_sublist _, rfl⟩
  | @call hist s s' c r hrun _ hs ih =>
    obtain ⟨writes, hserved, hsub, hstream⟩ := ih
    obtain ⟨-, hrep⟩ := refines.run refines_init hrun
    obtain ⟨hreply, hrep'⟩ := refines.step hrep hs
    have hone := LogSys.streams_step
      (endState LogSys.step LogSys.init (requests Call.request hist)) c
    unfold LogSys.Streams at hone
    rw [hreply, ← hrep.1.pending, ← hrep'.1.pending] at hone
    have hconcat : servedWrites (hist ++ [(c, r)]) = servedWrites hist ++ servedWrites [(c, r)] :=
      List.filter_append _ _
    rcases hone with ⟨data, hdata, hadd⟩ | ⟨hchunk, hcommit, hkeep⟩
    · refine ⟨writes ++ [(c, r)], ?_, hsub.append_right _, ?_⟩
      · rw [hconcat]
        exact hserved.append List.filter_sublist
      · have hlast : [(c, r)].filterMap handedOver = [data] := by simp [hdata]
        calc (commits (hist ++ [(c, r)])).flatten ++ s'.pending
            = (commits hist).flatten ++ (r.commit.toList.flatten ++ s'.pending) := by
              rw [commits_concat, List.flatten_append, List.append_assoc]
          _ = ((commits hist).flatten ++ s.pending) ++ data := by rw [hadd, List.append_assoc]
          _ = ((writes ++ [(c, r)]).filterMap handedOver).flatten := by
              rw [hstream, List.filterMap_append, hlast, List.flatten_append]
              simp
    · refine ⟨writes, ?_, hsub.trans (List.sublist_append_left _ _), ?_⟩
      · rw [hconcat]
        simpa [servedWrites, hchunk] using hserved
      · rw [commits_concat, hcommit, hkeep, ← hstream]
        simp

/-- **Nothing is read that was not written.**  In every run, what a call copies to the caller
is the beginning of one of the last ten commands.  The commands, one after the other, and
the pending bytes after them are what the writes that succeeded were given, in order, and
between these what writes that failed at the copy left: the bytes they could copy, and then
a zero for each that they could not. -/
theorem copied_was_written {ok : Sys → Call → Prop} {hist : List (Call × Reply)} {s s' : Sys}
    {c : Call} {r : Reply} (h : Run Sys.step ok Sys.init hist s)
    (hs : s.step c = .ok (r, s')) :
    (r.copied = [] ∨ ∃ e ∈ (commits hist).drop ((commits hist).length - 10), r.copied <+: e) ∧
      ∃ writes : List (Call × Reply), (servedWrites hist).Sublist writes ∧ writes.Sublist hist ∧
        (commits hist).flatten ++ s.pending = (writes.filterMap handedOver).flatten :=
  ⟨Sys.copied_recent h hs, Sys.handed_of_run h⟩

/-- A write that could copy one byte of two leaves a zero in the command. -/
theorem copied_was_written_zero :
    ∃ hist s r s', Run Sys.step (fun _ _ => True) Sys.init hist s ∧
      s.step (.aesdRead 0 false 9 9) = .ok (r, s') ∧ r.copied = [97, 0, 10] ∧
      ∃ writes : List (Call × Reply), writes.Sublist hist ∧
        (commits hist).flatten ++ s.pending = (writes.filterMap handedOver).flatten := by
  obtain ⟨hist, s, hrun, hcopied⟩ := exists_run_of_replay Sys.step (fun _ _ => True) Sys.init
    [.aesdOpen 0, .aesdWrite 0 false (some fun _ => 7) [97] 2, writeLine [10], .aesdOpen 0]
    (fun _ s => (s.step (.aesdRead 0 false 9 9)).toOption.map (·.1.copied) = some [97, 0, 10])
    (by decide +kernel)
  cases hs : s.step (.aesdRead 0 false 9 9) with
  | error f => exact absurd hcopied (by rw [hs]; simp [Except.toOption])
  | ok res =>
    obtain ⟨r, s'⟩ := res
    rw [hs, Except.toOption, Option.map_some, Option.some.injEq] at hcopied
    obtain ⟨-, writes, -, hsub, hstream⟩ := copied_was_written hrun hs
    exact ⟨hist, s, r, s', hrun, hs, hcopied, writes, hsub, hstream⟩

end Aesd
