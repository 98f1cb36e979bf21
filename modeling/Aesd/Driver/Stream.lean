import Aesd.Driver.History
import Aesd.Foundations.RingLog

/-!
# The stream of written data

All files write into one partial entry, and what they write is one stream.  The
driver is a line assembler for it: `Streamed` says that the committed entries and
the partial entry are what `assemble` makes of the chunks, and that the committed
entries are in the ring in the order in which they were committed, whatever reads
and opens do to the read index meanwhile.

This needs one thing of the writes: none may write nothing into an entry that has
not begun.  The commit test takes such an entry for complete (`Committable`), and
hands the ring an entry with no bytes in it.
-/

namespace Aesd

/-- Everything a write asks of the kernel succeeds, and it begins no entry with
nothing. -/
def Grows (d : Driver) (alloc : Option (ℕ → UInt8)) (buf : List UInt8) (n : ℕ) : Prop :=
  AllOk d alloc buf n ∧ (d.dev.entry.buffptr = none → 0 < n)

instance (d : Driver) (alloc : Option (ℕ → UInt8)) (buf : List UInt8) (n : ℕ) :
    Decidable (Grows d alloc buf n) :=
  inferInstanceAs (Decidable (_ ∧ (_ → _)))

/-- Everything a write asks of the kernel succeeds, and it writes something. -/
def Appends (d : Driver) (alloc : Option (ℕ → UInt8)) (buf : List UInt8) (n : ℕ) : Prop :=
  AllOk d alloc buf n ∧ 0 < n

instance (d : Driver) (alloc : Option (ℕ → UInt8)) (buf : List UInt8) (n : ℕ) :
    Decidable (Appends d alloc buf n) :=
  inferInstanceAs (Decidable (_ ∧ _))

theorem Appends.grows {d : Driver} {alloc : Option (ℕ → UInt8)} {buf : List UInt8} {n : ℕ}
    (h : Appends d alloc buf n) : Grows d alloc buf n :=
  ⟨h.1, fun _ => h.2⟩

theorem OnWrites.grows {s : Sys} {c : Call} (h : OnWrites Appends s c) : OnWrites Grows s c :=
  h.mono fun _ _ _ _ hn => hn.grows

/-- The slot holds a block with these bytes. -/
def Driver.Holds (d : Driver) (j : ℕ) (e : List UInt8) : Prop :=
  ∃ p, (d.dev.bufferP.slot j).buffptr = some p ∧ d.heap.data? p = some e ∧
    (d.dev.bufferP.slot j).size = e.length

/-- The driver after the writes of `hist`: the partial entry and the ring are what
the line assembler makes of them. -/
structure Streamed (hist : List (Call × Reply)) (d : Driver) : Prop where
  lines : (Assembly.assemble eol (chunks hist)).lines = commits hist
  pending : (Assembly.assemble eol (chunks hist)).pending = d.pending
  ring : RingLog 10 none ((commits hist).map some) fun j => d.dataAt (some j)
  inOffs : d.dev.bufferP.inOffs = (commits hist).length % 10
  begun : d.dev.entry.buffptr ≠ none → d.pending ≠ []

namespace Streamed

variable {hist : List (Call × Reply)} {d d' : Driver} {e : Call × Reply}

theorem init : Streamed [] Sys.init.toDriver where
  lines := rfl
  pending := rfl
  ring := by
    refine RingLog.nil 10 fun j _ => ?_
    show (Sys.init.ptrAt (some j)).bind _ = none
    rw [Sys.init_ptrAt, Option.bind_none]
  inOffs := rfl
  begun h := absurd (Sys.init_ptrAt none) h

/-- A call that writes nothing and commits nothing. -/
theorem quiet (h : Streamed hist d) (hq : Quiet d d') (hchunk : chunkOf e = none)
    (hcommit : e.2.commit = none) : Streamed (hist ++ [e]) d' := by
  have hchunks : chunks (hist ++ [e]) = chunks hist := by
    rw [chunks_concat, hchunk, Option.toList_none, List.append_nil]
  have hcommits : commits (hist ++ [e]) = commits hist := by
    rw [commits_concat, hcommit, Option.toList_none, List.append_nil]
  refine ⟨?_, ?_, ?_, ?_, ?_⟩
  · rw [hchunks, hcommits, h.lines]
  · rw [hchunks, hq.pending, h.pending]
  · rw [hcommits]
    exact h.ring.congr (by decide) fun j _ => hq.dataAt (some j)
  · rw [hcommits, hq.inOffs, h.inOffs]
  · rw [hq.entry, hq.pending]
    exact h.begun

/-- **One chunk into the assembler is one write to the driver.** -/
theorem wrote {data : List UInt8} (h : Streamed hist d) (hw : d.Wf)
    (hlen : (d.pending ++ data).length < 2 ^ 31) (hne : d.pending ++ data ≠ [])
    (hchunk : chunkOf e = some data)
    (hcommit : e.2.commit =
      if Committable (d.pending ++ data) then some (d.pending ++ data) else none) :
    Streamed (hist ++ [e]) (d.wrote data) := by
  have hchunks : chunks (hist ++ [e]) = chunks hist ++ [data] := by
    rw [chunks_concat, hchunk, Option.toList_some]
  by_cases hl : Line eol (d.pending ++ data)
  · -- the chunk completes a line, and the line goes to the write index
    have hc : Committable (d.pending ++ data) := Or.inr hl
    have hfeed := Assembly.feed_of_line (a := Assembly.assemble eol (chunks hist)) (c := data)
      (by rw [h.pending]; exact hl)
    rw [h.lines, h.pending, ← Assembly.assemble_concat, ← hchunks] at hfeed
    have hcommits : commits (hist ++ [e]) = commits hist ++ [d.pending ++ data] := by
      rw [commits_concat, hcommit, if_pos hc, Option.toList_some]
    have hwf := hw.filled hlen
    rw [Driver.wrote, if_pos hc]
    refine ⟨?_, ?_, ?_, ?_, ?_⟩
    · rw [hfeed.1, hcommits]
    · rw [hfeed.2, Driver.pending_handed]
    · rw [hcommits, List.map_append, List.map_singleton]
      refine h.ring.push (by decide) fun j _ => ?_
      rw [Driver.dataAt_handed hwf, Driver.dataAt_filled_entry hw, Driver.dataAt_filled hw,
        Driver.bufferP_filled, h.inOffs, List.length_map]
    · rw [Driver.handed, addEntry_inOffs _ hwf.inOffs_lt, Driver.bufferP_filled, h.inOffs,
        hcommits, List.length_append, List.length_singleton, Nat.mod_add_mod]
    · intro hptr
      exact absurd rfl hptr
  · have hc : ¬ Committable (d.pending ++ data) := by
      rintro (hnil | hline)
      · exact hne hnil
      · exact hl hline
    have hfeed := Assembly.feed_of_not_line (a := Assembly.assemble eol (chunks hist))
      (c := data) (by rw [h.pending]; exact hl)
    rw [h.lines, h.pending, ← Assembly.assemble_concat, ← hchunks] at hfeed
    have hcommits : commits (hist ++ [e]) = commits hist := by
      rw [commits_concat, hcommit, if_neg hc, Option.toList_none, List.append_nil]
    rw [Driver.wrote, if_neg hc]
    refine ⟨?_, ?_, ?_, ?_, ?_⟩
    · rw [hfeed.1, hcommits]
    · rw [hfeed.2, Driver.pending_filled hw]
    · rw [hcommits]
      exact h.ring.congr (by decide) fun j _ => Driver.dataAt_filled hw data j
    · rw [hcommits, Driver.bufferP_filled, h.inOffs]
    · rw [Driver.pending_filled hw]
      exact fun _ => hne

/-- Data that goes into an entry makes it non-empty. -/
theorem append_ne_nil (h : Streamed hist d) {alloc : Option (ℕ → UInt8)} {buf : List UInt8}
    {n : ℕ} (hg : Grows d alloc buf n) : d.pending ++ buf.take n ≠ [] := by
  obtain ⟨⟨-, hle, -⟩, hpos⟩ := hg
  intro hnil
  obtain ⟨hp, ht⟩ := List.append_eq_nil_iff.mp hnil
  by_cases hptr : d.dev.entry.buffptr = none
  · have hlen := congrArg List.length ht
    rw [List.length_take, List.length_nil] at hlen
    have := hpos hptr
    omega
  · exact h.begun hptr hp

/-- One call. -/
theorem step {s s' : Sys} {c : Call} {r : Reply} (h : Streamed hist s.toDriver) (hw : s.Wf)
    (hok : OnWrites Grows s c) (hs : s.step c = .ok (r, s')) :
    Streamed (hist ++ [(c, r)]) s'.toDriver := by
  rcases Sys.step_done hw (fun _ _ _ _ hg => hg.1.done) hok hs with
    ⟨hq, hchunk, hcommit⟩ | ⟨_, _, buf, count, -, hg, hlen, hchunk, hcommit, hd⟩
  · exact h.quiet hq hchunk hcommit
  · rw [hd]
    exact h.wrote hw hlen (h.append_ne_nil hg) hchunk hcommit

/-- **Along a run, the driver assembles what was written.** -/
theorem of_run {s : Sys} (h : Run Sys.step (OnWrites Grows) Sys.init hist s) :
    Streamed hist s.toDriver := by
  refine h.invariant (P := fun hist s => Streamed hist s.toDriver) init ?_
  intro hist s c r s' hrun hst hok hs
  exact hst.step (Sys.wf_of_run hrun) hok hs

/-- Every commit is a line. -/
theorem isLine (h : Streamed hist d) {e : List UInt8} (he : e ∈ commits hist) : Line eol e := by
  rw [← h.lines] at he
  exact (Assembly.assemble eol (chunks hist)).isLine e he

/-- What the contents of a slot say about its entry. -/
theorem holds_of_dataAt (hw : d.Wf) {j : ℕ} {e : List UInt8}
    (he : d.dataAt (some j) = some e) : d.Holds j e := by
  obtain ⟨p, hp, hdata⟩ := Option.bind_eq_some_iff.mp he
  obtain ⟨e', he', hlen⟩ := hw.sized (some j) p hp
  rw [hdata, Option.some.injEq] at he'
  subst he'
  exact ⟨p, hp, hdata, hlen.symm⟩

theorem slot_of_dataAt_none (hw : d.Wf) {j : ℕ} (he : d.dataAt (some j) = none) :
    d.dev.bufferP.slot j = .zero := by
  have hptr : d.ptrAt (some j) = none := by
    by_contra hne
    obtain ⟨p, hp⟩ := Option.ne_none_iff_exists'.mp hne
    obtain ⟨e, hdata, -⟩ := hw.sized (some j) p hp
    rw [Driver.dataAt, hp, Option.bind_some, hdata] at he
    exact absurd he (by simp)
  have hsize := hw.null j hptr
  rw [Driver.ptrAt_some] at hptr
  rw [AesdBufferEntry.zero, ← hptr, ← hsize]

/-- The latest commit that was sent to a slot is in it. -/
theorem holds_latest (h : Streamed hist d) (hw : d.Wf) {k : ℕ} {e : List UInt8}
    (hk : (commits hist)[k]? = some e)
    (hmax : ∀ k' < (commits hist).length, k' % 10 = k % 10 → k' ≤ k) : d.Holds (k % 10) e := by
  refine holds_of_dataAt hw (h.ring.latest (by decide) (a := some e) ?_ ?_)
  · rw [List.getElem?_map, hk, Option.map_some]
  · rw [List.length_map]
    exact hmax

theorem slot_unwritten (h : Streamed hist d) (hw : d.Wf) {j : ℕ} (hj : j < 10)
    (hnone : ∀ k < (commits hist).length, k % 10 ≠ j) : d.dev.bufferP.slot j = .zero := by
  refine slot_of_dataAt_none hw (h.ring.none_sent hj ?_)
  rw [List.length_map]
  exact hnone

/-- A slot that has a block holds one of the commits. -/
theorem holds_commit (h : Streamed hist d) (hw : d.Wf) {j : ℕ} (hj : j < 10)
    (hptr : (d.dev.bufferP.slot j).buffptr ≠ none) : ∃ e ∈ commits hist, d.Holds j e := by
  rcases h.ring.eq_or_mem (by decide) hj with hnone | hmem
  · rw [slot_of_dataAt_none hw hnone] at hptr
    exact absurd rfl hptr
  · obtain ⟨e, he, hdata⟩ := List.mem_map.mp hmem
    exact ⟨e, he, holds_of_dataAt hw hdata.symm⟩

end Streamed

/-! ## Conservation -/

/-- **The stream is conserved.**  In every run whose writes are non-empty and succeed,
the committed entries and the partial entry are what was written, in order; every
commit has one newline, at its end; and a slot holds the latest commit that was sent
to it, or is empty if there is none.  If moreover no write has a newline before its
end, the partial entry has none, and the commits are the complete lines of the
stream. -/
theorem written_stream_conserved {hist : List (Call × Reply)} {s : Sys}
    (h : Run Sys.step (OnWrites Appends) Sys.init hist s) :
    (commits hist).flatten ++ s.pending = (chunks hist).flatten ∧
      (∀ e ∈ commits hist, e.count eol = 1 ∧ e.getLast? = some eol) ∧
      (∀ k e, (commits hist)[k]? = some e →
        (∀ k' < (commits hist).length, k' % 10 = k % 10 → k' ≤ k) → s.Holds (k % 10) e) ∧
      (∀ j < 10, (∀ k < (commits hist).length, k % 10 ≠ j) → s.dev.bufferP.slot j = .zero) ∧
      ((∀ c ∈ chunks hist, eol ∉ c.dropLast) → eol ∉ s.pending ∧
        ∀ ls p, (∀ l ∈ ls, Line eol l) → eol ∉ p → ls.flatten ++ p = (chunks hist).flatten →
          ls = commits hist ∧ p = s.pending) := by
  have hw := Sys.wf_of_run h
  have hst : Streamed hist s.toDriver :=
    .of_run (h.mono fun _ _ hok => hok.grows)
  have hall : (commits hist).flatten ++ s.pending = (chunks hist).flatten := by
    rw [← hst.lines, ← hst.pending, ← Assembly.received, Assembly.assemble_received]
  refine ⟨hall, ?_, ?_, ?_, ?_⟩
  · intro e he
    exact ⟨(hst.isLine he).count, (hst.isLine he).getLast?⟩
  · intro k e hk hmax
    exact hst.holds_latest hw hk hmax
  · intro j hj hnone
    exact hst.slot_unwritten hw hj hnone
  · intro hclean
    have hpend : eol ∉ s.pending := by
      rw [← hst.pending]
      exact Assembly.assemble_pending_clean _ hclean
    refine ⟨hpend, fun ls p hls hp hflat => ?_⟩
    exact lines_unique_of_clean hls (fun m hm => hst.isLine hm) hp hpend (hflat.trans hall.symm)

/-- Eleven lines on two files, some of them in two pieces, with reads, seeks and a
second open in between, and the beginning of a twelfth. -/
def streamCalls : List Call :=
  [.aesdOpen 0, .aesdOpen 1, .aesdWrite 1 false (some fun _ => 5) [97, 98] 2, .aesdRead 0 false 4 4,
    writeLine [99, 10], .aesdRead 0 false 4 4, .aesdLlseek 0 false 1 0, .aesdOpen 2] ++
    List.replicate 10 (writeLine [100, 10]) ++
    [.aesdWrite 1 false (some fun _ => 5) [101, 102, 103] 2]

theorem written_stream_conserved_two_files :
    ∃ hist s, Run Sys.step (OnWrites Appends) Sys.init hist s ∧
      commits hist = [97, 98, 99, 10] :: List.replicate 10 [100, 10] ∧
      s.Holds 0 [100, 10] ∧ s.pending = [101, 102] ∧ eol ∉ s.pending := by
  obtain ⟨hist, s, hrun, hcommits, hpend, hclean⟩ := exists_run_of_replay Sys.step
    (OnWrites Appends) Sys.init streamCalls
    (fun hist s => commits hist = [97, 98, 99, 10] :: List.replicate 10 [100, 10] ∧
      s.pending = [101, 102] ∧ ∀ c ∈ chunks hist, eol ∉ c.dropLast) (by decide +kernel)
  obtain ⟨-, -, hslots, -, hlines⟩ := written_stream_conserved hrun
  refine ⟨hist, s, hrun, hcommits, ?_, hpend, (hlines hclean).1⟩
  refine hslots 10 [100, 10] (by rw [hcommits]; rfl) ?_
  intro k' hk' _
  rw [hcommits] at hk'
  exact Nat.le_of_lt_succ hk'

/-! ## What enters the ring -/

/-- **Only complete commands enter the ring**, if no write begins an entry with
nothing.  In every run of such writes every occupied slot holds at least one byte, the
last of them a newline, and a write commits only if the accumulated bytes end in a
newline. -/
theorem only_complete_commands {hist : List (Call × Reply)} {s : Sys}
    (h : Run Sys.step (OnWrites fun d a b n => AllOk d a b n ∧ (n = 0 → d.dev.entry.buffptr ≠ none))
      Sys.init hist s) :
    (∀ j < 10, (s.dev.bufferP.slot j).buffptr ≠ none →
      ∃ e, s.Holds j e ∧ 0 < (s.dev.bufferP.slot j).size ∧ e.getLast? = some eol) ∧
      ∀ e ∈ commits hist, e.getLast? = some eol := by
  have hw := Sys.wf_of_run h
  have hst : Streamed hist s.toDriver := by
    refine .of_run (h.mono fun _ _ hok => hok.mono fun _ _ _ n hn => ⟨hn.1, fun hptr => ?_⟩)
    rcases Nat.eq_zero_or_pos n with hzero | hpos
    · exact absurd hptr (hn.2 hzero)
    · exact hpos
  refine ⟨?_, fun e he => (hst.isLine he).getLast?⟩
  intro j hj hptr
  obtain ⟨e, he, hholds⟩ := hst.holds_commit hw hj hptr
  have hl := hst.isLine he
  obtain ⟨-, -, -, hsize⟩ := id hholds
  exact ⟨e, hholds, by rw [hsize]; exact hl.length_pos, hl.getLast?⟩

/-- A line in two pieces with a write of nothing between them, and a line at once. -/
def pausingCalls : List Call :=
  [.aesdOpen 0, writeLine [97], writeLine [], writeLine [10], writeLine [98, 10]]

theorem only_complete_commands_pausing :
    ∃ hist s, Run Sys.step
        (OnWrites fun d a b n => AllOk d a b n ∧ (n = 0 → d.dev.entry.buffptr ≠ none))
        Sys.init hist s ∧
      commits hist = [[97, 10], [98, 10]] ∧
      (∀ j < 10, (s.dev.bufferP.slot j).buffptr ≠ none →
        ∃ e, s.Holds j e ∧ 0 < (s.dev.bufferP.slot j).size ∧ e.getLast? = some eol) ∧
      (s.dev.bufferP.slot 1).buffptr ≠ none := by
  obtain ⟨hist, s, hrun, hcommits, hptr⟩ := exists_run_of_replay Sys.step
    (OnWrites fun d a b n => AllOk d a b n ∧ (n = 0 → d.dev.entry.buffptr ≠ none))
    Sys.init pausingCalls
    (fun hist s => commits hist = [[97, 10], [98, 10]] ∧
      (s.dev.bufferP.slot 1).buffptr ≠ none) (by decide +kernel)
  exact ⟨hist, s, hrun, hcommits, (only_complete_commands hrun).1, hptr⟩

/-- **An entry with no bytes enters the ring.** -/
theorem empty_command_committed :
    ∃ hist s, Run Sys.step (OnWrites AllOk) Sys.init hist s ∧
      (s.dev.bufferP.slot 0).buffptr = some 0 ∧ (s.dev.bufferP.slot 0).size = 0 ∧
      commits hist = [[]] :=
  exists_run_of_replay Sys.step (OnWrites AllOk) Sys.init [.aesdOpen 0, writeLine []]
    (fun hist s => (s.dev.bufferP.slot 0).buffptr = some 0 ∧
      (s.dev.bufferP.slot 0).size = 0 ∧ commits hist = [[]]) (by decide +kernel)

/-- The converse: a write of nothing that begins an entry commits it. -/
theorem commit_of_empty_write {ok : Sys → Call → Prop} {hist : List (Call × Reply)}
    {s s' : Sys} {file : ℕ} {alloc : Option (ℕ → UInt8)} {buf : List UInt8} {r : Reply}
    (h : Run Sys.step ok Sys.init hist s) (hopen : s.fPos file ≠ none)
    (hptr : s.dev.entry.buffptr = none) (halloc : alloc ≠ none)
    (hs : s.step (.aesdWrite file false alloc buf 0) = .ok (r, s')) : r.commit = some [] := by
  have hw := Sys.wf_of_run h
  cases Sys.step_outcome hw hs with
  | notOpen hfile hnone =>
    cases hfile
    exact absurd hnone hopen
  | aesdWrite _ hout =>
    obtain ⟨-, -, hcommit, -⟩ := hout.done halloc ⟨Nat.zero_le _, by decide⟩
    have hnil : s.pending ++ buf.take (0 : UInt64).toNat = [] := by
      rw [Driver.pending_of_null hptr, UInt64.toNat_zero, List.take_zero, List.append_nil]
    have hc : Committable [] := Or.inl rfl
    rw [hcommit, hnil, if_pos hc]

end Aesd
