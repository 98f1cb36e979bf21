import Aesd.CircularBuffer.Fifo
import Aesd.Driver.Stream

/-!
# The device before it is read

Until the first read only commits touch the ring, and the ring is the queue that
`Fifo` describes: its two indices and its flag are functions of the number of
commits.  Opening a file sets the read index of a ring that is not full to slot 0,
and there it is already.

`Unread` is also what a ring that has been read is like whenever the reads leave it
as they found it.
-/

namespace Aesd

/-- The call is an `aesd_read`. -/
def Call.isRead : Call → Bool
  | .aesdRead .. => true
  | _ => false

/-- No read, and writes that append something. -/
def WriteOnly (s : Sys) (c : Call) : Prop := c.isRead = false ∧ OnWrites Appends s c

instance (s : Sys) (c : Call) : Decidable (WriteOnly s c) :=
  inferInstanceAs (Decidable (_ ∧ _))

/-- **A call that is not a read**: it writes, or it does nothing or opens. -/
theorem Sys.step_unread {s s' : Sys} {c : Call} {r : Reply} (hw : s.Wf) (hok : WriteOnly s c)
    (h : s.step c = .ok (r, s')) :
    ((s'.toDriver = s.toDriver ∨ s'.toDriver = aesdOpen s.toDriver) ∧ r.commit = none) ∨
      ∃ data, (s.pending ++ data).length < 2 ^ 31 ∧
        r.commit = (if Committable (s.pending ++ data) then some (s.pending ++ data) else none) ∧
        s'.toDriver = s.wrote data := by
  obtain ⟨hread, hok⟩ := hok
  cases step_outcome hw h with
  | aesdRead => exact absurd hread (by simp [Call.isRead])
  | aesdWrite =>
    rcases step_write hw (fun _ _ _ _ hP => hP.1.done) hok h with
      ⟨hd, -, hcommit⟩ | ⟨-, -, hlen, -, hcommit, hd⟩
    · exact Or.inl ⟨Or.inl hd, hcommit⟩
    · exact Or.inr ⟨_, hlen, hcommit, hd⟩
  | aesdOpen => exact Or.inl ⟨Or.inr rfl, rfl⟩
  | _ => exact Or.inl ⟨Or.inl rfl, rfl⟩

/-- The ring is as the commits alone leave it, and no read is counted. -/
structure Unread (hist : List (Call × Reply)) (d : Driver) : Prop where
  fifo : ∃ log, log.length = (commits hist).length ∧ Fifo d.dev.bufferP log
  counter : d.dev.readCounter = 0

namespace Unread

variable {hist : List (Call × Reply)} {d : Driver}

theorem init : Unread [] Sys.init.toDriver := ⟨⟨[], rfl, Fifo.init⟩, rfl⟩

theorem inOffs (h : Unread hist d) : d.dev.bufferP.inOffs = (commits hist).length % 10 := by
  obtain ⟨log, hlen, hf⟩ := h.fifo
  rw [hf.inOffs, hlen]

theorem outOffs (h : Unread hist d) :
    d.dev.bufferP.outOffs =
      if (commits hist).length < 10 then 0 else (commits hist).length % 10 := by
  obtain ⟨log, hlen, hf⟩ := h.fifo
  rw [hf.outOffs, hlen]

theorem full (h : Unread hist d) : d.dev.bufferP.full = decide (10 ≤ (commits hist).length) := by
  obtain ⟨log, hlen, hf⟩ := h.fifo
  rw [hf.full, hlen]

/-- Opening a file changes nothing. -/
theorem aesdOpen_eq (h : Unread hist d) : aesdOpen d = d := by
  rw [aesdOpen, h.full]
  split
  · rfl
  · next hlt =>
    rw [decide_eq_true_eq, not_le] at hlt
    have hout := h.outOffs
    rw [if_pos hlt] at hout
    rw [← hout]

/-- A write keeps the ring in step with the commits. -/
theorem wrote {data : List UInt8} {e : Call × Reply} (h : Unread hist d)
    (hcommit : e.2.commit =
      if Committable (d.pending ++ data) then some (d.pending ++ data) else none) :
    Unread (hist ++ [e]) (d.wrote data) := by
  obtain ⟨log, hlen, hf⟩ := h.fifo
  rw [Driver.wrote]
  by_cases hc : Committable (d.pending ++ data)
  · rw [if_pos hc] at hcommit ⊢
    refine ⟨⟨_, ?_, hf.addEntry (d.filled data).dev.entry⟩, h.counter⟩
    rw [commits_concat, hcommit, Option.toList_some, List.length_append, List.length_append, hlen]
    rfl
  · rw [if_neg hc] at hcommit ⊢
    refine ⟨⟨log, ?_, hf⟩, h.counter⟩
    rw [commits_concat, hcommit, Option.toList_none, List.append_nil, hlen]

/-- One call. -/
theorem step {s s' : Sys} {c : Call} {r : Reply} (h : Unread hist s.toDriver) (hw : s.Wf)
    (hok : WriteOnly s c) (hs : s.step c = .ok (r, s')) :
    Unread (hist ++ [(c, r)]) s'.toDriver := by
  rcases Sys.step_unread hw hok hs with ⟨hd, hcommit⟩ | ⟨data, -, hcommit, hd⟩
  · have hsame : s'.toDriver = s.toDriver := by
      rcases hd with hd | hd
      · exact hd
      · rw [hd, h.aesdOpen_eq]
    have hcommits : commits (hist ++ [(c, r)]) = commits hist := by
      rw [commits_concat, hcommit, Option.toList_none, List.append_nil]
    rw [hsame]
    exact ⟨by rw [hcommits]; exact h.fifo, h.counter⟩
  · rw [hd]
    exact h.wrote hcommit

/-- **Along a run without reads, the ring is a queue.** -/
theorem of_run {s : Sys} (h : Run Sys.step WriteOnly Sys.init hist s) :
    Unread hist s.toDriver := by
  refine h.invariant (P := fun hist s => Unread hist s.toDriver) init ?_
  intro hist s c r s' hrun hu hok hs
  exact hu.step (Sys.wf_of_run hrun) hok hs

end Unread

theorem Streamed.of_run_writeOnly {hist : List (Call × Reply)} {s : Sys}
    (h : Run Sys.step WriteOnly Sys.init hist s) : Streamed hist s.toDriver :=
  .of_run (h.mono fun _ _ hok => hok.2.grows)

end Aesd
