import Aesd.Driver.History

/-!
# Every reader comes to an end

`aesd_read` counts the reads that it serves, and the tenth is the last: the next one returns 0
and starts the count again.  Nothing else changes the counter.  An empty slot ends a session
without touching it, so the count may begin anywhere between 0 and 10, and it is one count for
all files.

So between two reads that return 0, whoever makes them, at most ten return data
(`served_between_ends`), whatever is written, opened or moved in between.
-/

namespace Aesd

/-- A read that returns data. -/
def delivers (e : Call × Reply) : Bool :=
  match e.1 with
  | .aesdRead .. => decide (0 < e.2.retval)
  | _ => false

/-- A read that returns 0. -/
def endsFile (e : Call × Reply) : Bool :=
  match e.1 with
  | .aesdRead .. => decide (e.2.retval = 0)
  | _ => false

section Counter

variable {s s' : Sys}

/-- **One call and the counter**: a call that is not a read returning 0 counts if it is a read
returning data, and only then. -/
theorem step_readCounter {c : Call} {r : Reply} (hw : s.Wf) (h : s.step c = .ok (r, s'))
    (hend : endsFile (c, r) = false) :
    s'.dev.readCounter = s.dev.readCounter + if delivers (c, r) then 1 else 0 := by
  have hsame : s.dev.readCounter = s.dev.readCounter + if false then 1 else 0 :=
    (Int.add_zero _).symm
  cases Sys.step_outcome hw h with
  | notOpen => cases c <;> exact hsame
  | aesdOpen file =>
    refine Eq.trans ?_ hsame
    show (aesdOpen s.toDriver).dev.readCounter = _
    unfold aesdOpen
    split <;> rfl
  | @aesdRead file interrupted avail count p p' r d hp hout =>
    cases hout with
    | interrupted => exact hsame
    | nothing => cases hend
    | stopped => cases hend
    | fault => exact hsame
    | served =>
      have hne : readCount s.toDriver p count.toNat ≠ 0 := by
        intro hzero
        simp [endsFile, hzero] at hend
      have hpos : delivers (.aesdRead file interrupted avail count,
          { retval := readCount s.toDriver p count.toNat
            copied := (s.slotBytes s.dev.bufferP.outOffs).take
              (readCount s.toDriver p count.toNat) }) = true :=
        decide_eq_true (by simp only; omega)
      rw [hpos, if_pos rfl]
      rfl
  | aesdWrite _ hout => cases hout <;> exact hsame
  | aesdRelease => exact hsame
  | aesdLlseek => exact hsame
  | aesdIoctl => exact hsame

variable {ok : Sys → Call → Prop}

/-- A run from a well-formed state ends in one. -/
theorem Sys.wf_of_run_from {hist : List (Call × Reply)} (hw : s.Wf)
    (h : Run Sys.step ok s hist s') : s'.Wf :=
  h.invariant (P := fun _ t => t.Wf) hw fun _ _ _ _ _ _ hw _ hs => Sys.step_wf hw hs

/-- **A run and the counter**, up to the next read that returns 0. -/
theorem run_readCounter {hist : List (Call × Reply)} (hw : s.Wf)
    (h : Run Sys.step ok s hist s') (hend : ∀ e ∈ hist, endsFile e = false) :
    s'.dev.readCounter = s.dev.readCounter + hist.countP delivers := by
  induction h with
  | start => simp
  | @call hist t t' c r hrun _ hs ih =>
    have hstep := step_readCounter (Sys.wf_of_run_from hw hrun) hs (hend (c, r) (by simp))
    rw [hstep, ih fun e he => hend e (List.mem_append_left _ he), List.countP_append,
      List.countP_singleton]
    split_ifs <;> push_cast <;> omega

/-- **Between two reads that return 0 at most ten return data.** -/
theorem served_between_ends {before during after : List (Call × Reply)}
    (h : Run Sys.step ok Sys.init (before ++ during ++ after) s)
    (hend : ∀ e ∈ during, endsFile e = false) : during.countP delivers ≤ 10 := by
  obtain ⟨t, hrun, -⟩ := Run.append_iff.mp h
  obtain ⟨u, hbefore, hduring⟩ := Run.append_iff.mp hrun
  have hcount := run_readCounter (Sys.wf_of_run hbefore) hduring hend
  have hlo := (Sys.wf_of_run hbefore).counter_nonneg
  have hhi := (Sys.wf_of_run hrun).counter_le
  omega

/-- A line is read in three pieces, and then there is nothing left. -/
theorem served_between_ends_three :
    ∃ hist s, Run Sys.step (fun _ _ => True) Sys.init hist s ∧
      (hist.map fun e => e.2.retval) = [0, 0, 4, 1, 1, 2, 0] ∧
      (hist.take 6).countP delivers = 3 ∧ (hist.take 6).countP delivers ≤ 10 := by
  obtain ⟨hist, s, hrun, hretvals, hend, hcount⟩ := exists_run_of_replay Sys.step
    (fun _ _ => True) Sys.init
    [.aesdOpen 0, .aesdOpen 1, writeLine [97, 98, 99, 10], .aesdRead 1 false 1 1,
      .aesdRead 1 false 1 1, .aesdRead 1 false 9 9, .aesdRead 1 false 9 9]
    (fun hist _ => (hist.map fun e => e.2.retval) = [0, 0, 4, 1, 1, 2, 0] ∧
      (∀ e ∈ hist.take 6, endsFile e = false) ∧ (hist.take 6).countP delivers = 3)
    (by decide +kernel)
  have hsplit : [] ++ hist.take 6 ++ hist.drop 6 = hist := List.take_append_drop 6 hist
  rw [← hsplit] at hrun
  exact ⟨_, s, hrun, by rw [hsplit]; exact hretvals, by rw [hsplit]; exact hcount,
    by rw [hsplit]; exact served_between_ends hrun hend⟩

end Counter

end Aesd
