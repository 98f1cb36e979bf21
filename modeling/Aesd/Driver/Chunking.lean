import Aesd.Driver.Unread

/-!
# How the stream is cut into writes

A caller would expect that only the stream matters, not how it is cut into writes.
That is not so.  The commit test looks for the first newline of the *whole* partial
entry, so a write with a newline before its end leaves an entry that the test never
accepts again: from then on everything that is written piles up in it (`Stuck`).

What the final state remembers of the cuts is one number, the lines that were
completed before this happened (`cutLines`), and two ways of cutting a stream are
alike exactly if this number is the same.
-/

namespace Aesd

/-- The rings and the partial entries have the same contents.  The blocks are
different ones in general. -/
structure SameContents (d d' : Driver) : Prop where
  data : ∀ j < 10, d.dataAt (some j) = d'.dataAt (some j)
  size : ∀ j < 10, (d.dev.bufferP.slot j).size = (d'.dev.bufferP.slot j).size
  inOffs : d.dev.bufferP.inOffs = d'.dev.bufferP.inOffs
  outOffs : d.dev.bufferP.outOffs = d'.dev.bufferP.outOffs
  full : d.dev.bufferP.full = d'.dev.bufferP.full
  pending : d.dataAt none = d'.dataAt none

/-- No later write commits any more. -/
def Stuck (s : Sys) : Prop :=
  ∀ hist t, Run Sys.step (OnWrites Appends) s hist t → commits hist = []

/-! ## Being stuck -/

section Stuck

variable {d : Driver} {alloc : Option (ℕ → UInt8)} {buf : List UInt8} {n : ℕ}

/-- The allocation that is asked for is no larger than the data. -/
theorem kmallocRequest_lt (hw : d.Wf) (hn : n ≤ buf.length)
    (hlen : (d.pending ++ buf.take n).length < 2 ^ 31) : kmallocRequest d n < 2 ^ 31 := by
  rw [List.length_append, List.length_take, min_eq_left hn] at hlen
  unfold kmallocRequest
  cases hptr : d.dev.entry.buffptr with
  | none =>
    dsimp only
    omega
  | some i =>
    have hsize := (hw.pending_data hptr).2
    dsimp only
    rw [newSize_eq (by omega)]
    omega

/-- A write whose allocation and copy succeed, and whose data fits, returns. -/
theorem aesdWrite_returns (hw : d.Wf) (fPos : ℤ) (halloc : alloc ≠ none) (hcopy : CopyOk buf n)
    (hlen : (d.pending ++ buf.take n).length < 2 ^ 31) :
    ∃ r p d', aesdWrite d fPos false alloc buf n = .ok (r, p, d') := by
  have hout := aesdWrite_outcome hw fPos false alloc buf n
  cases hres : aesdWrite d fPos false alloc buf n with
  | ok q => exact ⟨q.1, q.2.1, q.2.2, rfl⟩
  | error f =>
    rw [hres] at hout
    exfalso
    cases hout with
    | nullPointer _ hnull =>
      rcases hnull with hnone | hge
      · exact halloc hnone
      · have := kmallocRequest_lt hw hcopy.1 hlen
        omega
    | outOfBounds _ hptr hbig =>
      obtain ⟨i, hi⟩ := Option.ne_none_iff_exists'.mp hptr
      have hsize := (hw.pending_data hi).2
      rw [List.length_append, List.length_take, min_eq_left hcopy.1] at hlen
      omega

end Stuck

/-- A line in what is left open for one can be completed. -/
theorem not_stuck {s : Sys} (hw : s.Wf) (hclean : eol ∉ s.pending)
    (hroom : s.pending.length + 1 < 2 ^ 31) : ¬ Stuck s := by
  intro hstuck
  have hq := Quiet.aesdOpen s.toDriver
  have hpend : (aesdOpen s.toDriver).pending = s.pending := hq.pending
  have hw' := hq.wf hw
  have hlen : ((aesdOpen s.toDriver).pending ++ [eol].take 1).length < 2 ^ 31 := by
    rw [hpend, List.length_append]
    exact hroom
  have hcopy : CopyOk [eol] 1 := ⟨le_rfl, by decide⟩
  have halloc : (some fun _ => 0 : Option (ℕ → UInt8)) ≠ none := by simp
  obtain ⟨r, p, d, hres⟩ := aesdWrite_returns hw' 0 halloc hcopy hlen
  have hout := aesdWrite_outcome hw' 0 false (some fun _ => 0) [eol] 1
  rw [hres] at hout
  obtain ⟨-, -, hcommit, -⟩ := hout.done halloc hcopy
  have hopen : Run Sys.step (OnWrites Appends) s [(.aesdOpen 0, { retval := 0 })]
      (s.after 0 0 (aesdOpen s.toDriver)) := Run.start.call trivial rfl
  have hfile := Sys.after_fPos_self s 0 0 (aesdOpen s.toDriver)
  have hstep : (s.after 0 0 (aesdOpen s.toDriver)).step (writeLine [eol]) =
      .ok (r, (s.after 0 0 (aesdOpen s.toDriver)).after 0 p d) := by
    simp only [writeLine, Sys.step, Sys.onFile, hfile]
    show (aesdWrite (aesdOpen s.toDriver) 0 false (some fun _ => 0) [eol] 1).map _ = _
    rw [hres]
    rfl
  have hok : OnWrites Appends (s.after 0 0 (aesdOpen s.toDriver)) (writeLine [eol]) :=
    fun _ _ => ⟨⟨⟨halloc, kmallocRequest_lt hw' hcopy.1 hlen⟩, hcopy⟩, by decide⟩
  have hnil := hstuck _ _ (hopen.call hok hstep)
  have hc : Committable (s.pending ++ [eol]) := Or.inr ⟨s.pending, hclean, rfl⟩
  rw [commits_concat, hcommit, hpend, List.take_succ_cons, List.take_zero, if_pos hc] at hnil
  exact absurd hnil (by simp)

/-- Data that a write appends. -/
theorem Appends.take_ne_nil {d : Driver} {alloc : Option (ℕ → UInt8)} {buf : List UInt8} {n : ℕ}
    (h : Appends d alloc buf n) : buf.take n ≠ [] := by
  obtain ⟨⟨-, hle, -⟩, hpos⟩ := h
  rw [← List.length_pos_iff, List.length_take]
  omega

/-- **What is stuck**: a partial entry that has a newline already, or no room for
one. -/
theorem stuck_iff {s : Sys} (hw : s.Wf) :
    Stuck s ↔ eol ∈ s.pending ∨ 2 ^ 31 ≤ s.pending.length + 1 := by
  constructor
  · intro hstuck
    by_contra hnot
    rw [not_or, not_le] at hnot
    exact not_stuck hw hnot.1 hnot.2 hstuck
  · intro hs hist t hrun
    have hinv : t.Wf ∧ (eol ∈ t.pending ∨ 2 ^ 31 ≤ t.pending.length + 1) ∧ commits hist = [] := by
      refine hrun.invariant (P := fun hist t => t.Wf ∧
        (eol ∈ t.pending ∨ 2 ^ 31 ≤ t.pending.length + 1) ∧ commits hist = []) ⟨hw, hs, rfl⟩ ?_
      rintro hist t c r t' - ⟨hw, hs, hnone⟩ hok ht
      refine ⟨Sys.step_wf hw ht, ?_⟩
      rw [commits_concat, hnone, List.nil_append]
      rcases Sys.step_done hw (fun _ _ _ _ hP => hP.1.done) hok ht with
        ⟨hq, -, hcommit⟩ | ⟨_, _, buf, count, -, hP, hlen, -, hcommit, hd⟩
      · rw [hq.pending, hcommit]
        exact ⟨hs, rfl⟩
      · have hne := hP.take_ne_nil
        rcases hs with hmem | hbig
        · have hc : ¬ Committable (t.pending ++ buf.take count.toNat) := by
            rintro (hnil | hline)
            · exact hne (List.append_eq_nil_iff.mp hnil).2
            · exact not_line_append hmem hne hline
          rw [if_neg hc] at hcommit
          rw [hcommit, hd, Driver.wrote, if_neg hc, Driver.pending_filled hw]
          exact ⟨Or.inl (List.mem_append_left _ hmem), rfl⟩
        · have hpos := List.length_pos_iff.mpr hne
          rw [List.length_append] at hlen
          omega
    exact hinv.2.2

/-! ## Two ways to cut a stream -/

/-- The chunks of a run whose writes append something are not empty. -/
theorem chunks_ne_nil {hist : List (Call × Reply)} {s : Sys}
    (h : Run Sys.step (OnWrites Appends) Sys.init hist s) : ∀ c ∈ chunks hist, c ≠ [] := by
  refine h.invariant (P := fun hist _ => ∀ c ∈ chunks hist, c ≠ []) (by simp) ?_
  intro hist s c r s' hrun ih hok hs e he
  rw [chunks_concat, List.mem_append] at he
  rcases he with he | he
  · exact ih e he
  · rcases Sys.step_done (Sys.wf_of_run hrun) (fun _ _ _ _ hP => hP.1.done) hok hs with
      ⟨-, hchunk, -⟩ | ⟨_, _, buf, count, -, hP, -, hchunk, -, -⟩
    · rw [hchunk] at he
      exact absurd he (by simp)
    · rw [hchunk, Option.toList_some, List.mem_singleton] at he
      rw [he]
      exact hP.take_ne_nil

theorem Streamed.dataAt_none {hist : List (Call × Reply)} {d : Driver} (h : Streamed hist d)
    (hw : d.Wf) : d.dataAt none = if d.pending = [] then none else some d.pending := by
  cases hptr : d.dev.entry.buffptr with
  | none => rw [if_pos (Driver.pending_of_null hptr), Driver.dataAt, Driver.ptrAt_none, hptr,
      Option.bind_none]
  | some i =>
    rw [if_neg (h.begun (by rw [hptr]; simp)), Driver.dataAt, Driver.ptrAt_none, hptr,
      Option.bind_some, (hw.pending_data hptr).1]

theorem Driver.slotBytes_length_eq {d d' : Driver} (hw : d.Wf) (hw' : d'.Wf) {j : ℕ}
    (h : d.dataAt (some j) = d'.dataAt (some j)) :
    (d.dev.bufferP.slot j).size = (d'.dev.bufferP.slot j).size := by
  rw [← hw.length_slotBytes, ← hw'.length_slotBytes, slotBytes_eq, slotBytes_eq, h]

section Two

variable {hist₁ hist₂ : List (Call × Reply)} {d₁ d₂ : Driver}

/-- The same commits and the same bytes in the partial entry are the same contents. -/
theorem sameContents_of_commits (hw₁ : d₁.Wf) (hw₂ : d₂.Wf) (hst₁ : Streamed hist₁ d₁)
    (hst₂ : Streamed hist₂ d₂) (hu₁ : Unread hist₁ d₁) (hu₂ : Unread hist₂ d₂)
    (hpend : d₁.pending = d₂.pending) (hlines : commits hist₁ = commits hist₂) :
    SameContents d₁ d₂ := by
  have hdata : ∀ j < 10, d₁.dataAt (some j) = d₂.dataAt (some j) := by
    intro j hj
    have hring := hst₁.ring
    rw [hlines] at hring
    exact hring.unique (by decide) hst₂.ring hj
  refine ⟨hdata, ?_, ?_, ?_, ?_, ?_⟩
  · intro j hj
    exact Driver.slotBytes_length_eq hw₁ hw₂ (hdata j hj)
  · rw [hu₁.inOffs, hu₂.inOffs, hlines]
  · rw [hu₁.outOffs, hu₂.outOffs, hlines]
  · rw [hu₁.full, hu₂.full, hlines]
  · rw [hst₁.dataAt_none hw₁, hst₂.dataAt_none hw₂, hpend]

/-- Of the same stream, the same bytes in the partial entry leave the same commits. -/
theorem commits_eq_of_pending (hst₁ : Streamed hist₁ d₁) (hst₂ : Streamed hist₂ d₂)
    (hflat : (chunks hist₁).flatten = (chunks hist₂).flatten)
    (hpend : d₁.pending = d₂.pending) : commits hist₁ = commits hist₂ := by
  have hall₁ := Assembly.assemble_received (d := eol) (chunks hist₁)
  have hall₂ := Assembly.assemble_received (d := eol) (chunks hist₂)
  rw [Assembly.received, hst₁.lines, hst₁.pending, hpend] at hall₁
  rw [Assembly.received, hst₂.lines, hst₂.pending] at hall₂
  have hflat' : (commits hist₁).flatten = (commits hist₂).flatten :=
    List.append_cancel_right (hall₁.trans (hflat.trans hall₂.symm))
  have hcount := congrArg (List.count eol) hflat'
  rw [count_flatten_lines fun l hl => hst₁.isLine hl,
    count_flatten_lines fun l hl => hst₂.isLine hl] at hcount
  exact (lines_unique (fun l hl => hst₁.isLine hl) (fun l hl => hst₂.isLine hl) hcount
    (congrArg (· ++ []) hflat')).1

end Two

/-- **Two ways to cut a stream are alike exactly if they complete the same number of
lines before a newline is left inside the partial entry.**  Alike means that the rings
and the partial entries have the same contents, and that neither device is stuck
unless the other is. -/
theorem chunking_irrelevant_iff {hist₁ hist₂ : List (Call × Reply)} {s₁ s₂ : Sys}
    (h₁ : Run Sys.step WriteOnly Sys.init hist₁ s₁)
    (h₂ : Run Sys.step WriteOnly Sys.init hist₂ s₂)
    (hflat : (chunks hist₁).flatten = (chunks hist₂).flatten) :
    SameContents s₁.toDriver s₂.toDriver ∧ (Stuck s₁ ↔ Stuck s₂) ↔
      Assembly.cutLines eol (chunks hist₁) = Assembly.cutLines eol (chunks hist₂) := by
  have hw₁ := Sys.wf_of_run h₁
  have hw₂ := Sys.wf_of_run h₂
  have hst₁ := Streamed.of_run_writeOnly h₁
  have hst₂ := Streamed.of_run_writeOnly h₂
  have hu₁ := Unread.of_run h₁
  have hu₂ := Unread.of_run h₂
  have hiff := Assembly.assemble_eq_iff (d := eol)
    (chunks_ne_nil (h₁.mono fun _ _ hok => hok.2)) (chunks_ne_nil (h₂.mono fun _ _ hok => hok.2))
    hflat
  rw [hst₁.pending, hst₂.pending, hst₁.lines, hst₂.lines] at hiff
  rw [← hiff]
  constructor
  · rintro ⟨hsame, -⟩
    have hpend : s₁.pending = s₂.pending := congrArg (·.getD []) hsame.pending
    exact ⟨hpend, commits_eq_of_pending hst₁ hst₂ hflat hpend⟩
  · rintro ⟨hpend, hlines⟩
    refine ⟨sameContents_of_commits hw₁ hw₂ hst₁ hst₂ hu₁ hu₂ hpend hlines, ?_⟩
    rw [stuck_iff hw₁, stuck_iff hw₂, hpend]

/-- A line at once and a line in two pieces, and the beginning of a third. -/
def coarseCalls : List Call :=
  [.aesdOpen 0, writeLine [97, 98, 10], writeLine [99], writeLine [10], writeLine [100, 101]]

/-- The same stream, cut otherwise. -/
def fineCalls : List Call :=
  [.aesdOpen 3, .aesdOpen 0, writeLine [97], writeLine [98, 10], writeLine [99, 10],
    writeLine [100], writeLine [101]]

theorem chunking_irrelevant_coarse_fine :
    ∃ hist₁ s₁ hist₂ s₂, Run Sys.step WriteOnly Sys.init hist₁ s₁ ∧
      Run Sys.step WriteOnly Sys.init hist₂ s₂ ∧ chunks hist₁ ≠ chunks hist₂ ∧
      SameContents s₁.toDriver s₂.toDriver ∧ (Stuck s₁ ↔ Stuck s₂) := by
  obtain ⟨hist₁, s₁, h₁, hc₁⟩ := exists_run_of_replay Sys.step WriteOnly Sys.init coarseCalls
    (fun hist _ => chunks hist = [[97, 98, 10], [99], [10], [100, 101]]) (by decide +kernel)
  obtain ⟨hist₂, s₂, h₂, hc₂⟩ := exists_run_of_replay Sys.step WriteOnly Sys.init fineCalls
    (fun hist _ => chunks hist = [[97], [98, 10], [99, 10], [100], [101]]) (by decide +kernel)
  have hsame := (chunking_irrelevant_iff h₁ h₂ (by rw [hc₁, hc₂]; rfl)).mpr
    (by rw [hc₁, hc₂]; decide)
  exact ⟨hist₁, s₁, hist₂, s₂, h₁, h₂, by rw [hc₁, hc₂]; decide, hsame⟩

/-- **Two lines written at once never reach the ring, and nothing does after them**;
written one by one they do. -/
theorem chunking_matters :
    ∃ hist₁ s₁ hist₂ s₂, Run Sys.step WriteOnly Sys.init hist₁ s₁ ∧
      Run Sys.step WriteOnly Sys.init hist₂ s₂ ∧
      chunks hist₁ = [[97, 10, 98, 10]] ∧ chunks hist₂ = [[97, 10], [98, 10]] ∧
      ¬ SameContents s₁.toDriver s₂.toDriver ∧ Stuck s₁ ∧ ¬ Stuck s₂ := by
  obtain ⟨hist₁, s₁, h₁, hc₁, hp₁, hin₁⟩ := exists_run_of_replay Sys.step WriteOnly Sys.init
    [.aesdOpen 0, writeLine [97, 10, 98, 10]]
    (fun hist s => chunks hist = [[97, 10, 98, 10]] ∧ s.pending = [97, 10, 98, 10] ∧
      s.dev.bufferP.inOffs = 0) (by decide +kernel)
  obtain ⟨hist₂, s₂, h₂, hc₂, hp₂, hin₂⟩ := exists_run_of_replay Sys.step WriteOnly Sys.init
    [.aesdOpen 0, writeLine [97, 10], writeLine [98, 10]]
    (fun hist s => chunks hist = [[97, 10], [98, 10]] ∧ s.pending = [] ∧
      s.dev.bufferP.inOffs = 2) (by decide +kernel)
  refine ⟨hist₁, s₁, hist₂, s₂, h₁, h₂, hc₁, hc₂, ?_, ?_, ?_⟩
  · intro hsame
    have := hsame.inOffs
    omega
  · rw [stuck_iff (Sys.wf_of_run h₁), hp₁]
    exact Or.inl (by decide)
  · rw [stuck_iff (Sys.wf_of_run h₂), hp₂]
    decide

end Aesd
