import Aesd.Foundations.Interleave
import Aesd.Server.Framing

/-!
# The critical sections of one thread

A connection thread takes `file_mutex` twice, in `write_to_file` to append the line and
again to read the file back, and gives it back on each of the ways on from there.  Whether
it holds the mutex is a matter of where it stands (`Conn.holds`); the only places where
that is not plain are the exits, which are taken with and without the mutex, and where the
answer is whether an unlock is still to come.

Here is what one thread does on its own: it takes the mutex only when it does not hold it
and releases it only when it does, and the line it took the mutex for is the line it
appends.
-/

namespace Aesd

variable {ok : Conn → Answer → Prop} {hist : List (Answer × Action)} {c c' : Conn}
  {a : Answer} {act : Action}

/-! ## On the way out -/

/-- The ways out of `handle_connection`.  The clean-up at the end of the function is the
tail of the last one, and is entered there when there is nothing to unlock. -/
def exits : List (List Exit) :=
  [noBufferExit, noFileExit, noFileBufferExit, replyFailedExit, .unlock :: cleanUp]

/-- A thread on its way out is in one of the exits. -/
def Conn.Exiting (c : Conn) : Prop := ∀ rest, c.pc = .leave rest → ∃ e ∈ exits, rest <:+ e

theorem suffix_of_cons {x : Exit} {rest e : List Exit} (h : x :: rest <:+ e) : rest <:+ e :=
  (List.suffix_cons x rest).trans h

theorem exiting_step (hc : c.Exiting) (hs : c.step a = .ok (act, c')) : c'.Exiting := by
  intro rest hrest
  cases Conn.moves_of_step hs with
  | noBuffer => exact ⟨noBufferExit, by decide, by cases hrest; exact List.suffix_refl _⟩
  | noFile => exact ⟨noFileExit, by decide, by cases hrest; exact List.suffix_refl _⟩
  | ended => exact ⟨.unlock :: cleanUp, by decide, by cases hrest; exact List.suffix_cons _ _⟩
  | noFileBuffer => exact ⟨noFileBufferExit, by decide, by cases hrest; exact List.suffix_refl _⟩
  | readFailed | sendFailed =>
    exact ⟨replyFailedExit, by decide, by cases hrest; exact List.suffix_refl _⟩
  | send => exact ⟨.unlock :: cleanUp, by decide, by cases hrest; exact List.suffix_refl _⟩
  | release r rest' h | unlock rest' h | setComplete rest' h =>
    obtain ⟨e, he, hsuf⟩ := hc _ h
    cases hrest
    exact ⟨e, he, suffix_of_cons hsuf⟩
  | dropped h => exact absurd (h.symm.trans hrest) (by simp)
  | _ => cases hrest

/-- **A thread on its way out follows one of the exits.** -/
theorem exiting_of_run (h : Run Conn.step ok Conn.start hist c) : c.Exiting := by
  induction h with
  | start => exact fun rest hrest => absurd hrest (by simp [Conn.start])
  | call _ _ hs ih => exact exiting_step ih hs

/-- An exit unlocks at most once. -/
theorem unlock_notMem_of_suffix {rest e : List Exit} (he : e ∈ exits)
    (hsuf : .unlock :: rest <:+ e) : .unlock ∉ rest := by
  have hall : ∀ e ∈ exits, ∀ l ∈ e.tails, l.head? = some .unlock → .unlock ∉ l.tail := by decide
  exact hall e he _ ((List.mem_tails _ _).mpr hsuf) rfl

/-! ## Holding the mutex -/

/-- What an action does to `file_mutex`. -/
def Action.lockOp : Action → LockOp
  | .lockAppend _ | .lockReadBack => .acquire
  | .unlock => .release
  | _ => .keep

/-- The thread holds `file_mutex`. -/
def Conn.holds (c : Conn) : Bool :=
  match c.pc with
  | .callocBuffer | .openFile | .receive | .ioctl _ | .lockAppend _ | .lockReadBack => false
  | .fopen _ | .fputs _ | .fclose _ | .unlockAppend | .lseekEnd | .lseekSet | .callocFileBuffer
  | .readFile | .send _ _ => true
  | .leave rest => .unlock ∈ rest

/-- **One step of the lock discipline**: the mutex is taken by a thread that does not have
it, and released by one that has. -/
theorem holds_step (hc : c.Exiting) (hs : c.step a = .ok (act, c')) :
    c'.holds = act.lockOp.holdsAfter c.holds ∧ (act.lockOp = .acquire → c.holds = false) ∧
      (act.lockOp = .release → c.holds = true) := by
  cases Conn.moves_of_step hs with
  | unlock rest h =>
    obtain ⟨e, he, hsuf⟩ := hc _ h
    have hnot := unlock_notMem_of_suffix he hsuf
    simp [Conn.holds, h, Action.lockOp, LockOp.holdsAfter, hnot]
  | noBuffer | noFile | ended | noFileBuffer | readFailed | send | sendFailed =>
    simp [Conn.holds, *, Action.lockOp, LockOp.holdsAfter, noBufferExit, noFileExit,
      noFileBufferExit, replyFailedExit, cleanUp]
  | _ => simp [Conn.holds, *, Action.lockOp, LockOp.holdsAfter]

/-- Whether the thread holds the mutex, judged by what it has done. -/
def holding (hist : List (Answer × Action)) : Bool :=
  hist.foldl (fun b e => e.2.lockOp.holdsAfter b) false

theorem holding_eq (h : Run Conn.step ok Conn.start hist c) : holding hist = c.holds := by
  induction h with
  | start => rfl
  | call hrun _ hs ih =>
    rw [holding, List.foldl_append, ← holding, ih]
    exact (holds_step (exiting_of_run hrun) hs).1.symm

/-- A thread that has returned has given the mutex back. -/
theorem holds_of_returned (h : c.returned = true) : c.holds = false := by
  have hpc : c.pc = .leave [] := by simpa [Conn.returned] using h
  simp [Conn.holds, hpc]

/-! ## The line in hand -/

/-- The line the thread has taken the mutex for and not yet appended. -/
def Conn.inHand (c : Conn) : List (List UInt8) :=
  match c.pc with
  | .fopen line | .fputs line | .fclose line => [line]
  | _ => []

/-- What an action appends to the file. -/
def Action.appended : Action → List (List UInt8)
  | .fclose line => [line]
  | _ => []

/-- The calls that put a line into a stream. -/
def Action.fillsStream : Action → Bool
  | .fopen | .fputs _ => true
  | _ => false

theorem inHand_of_not_holds (h : c.holds = false) : c.inHand = [] := by
  cases hpc : c.pc <;> simp_all [Conn.holds, Conn.inHand]

/-- **The line that is appended is the line the mutex was taken for.** -/
theorem inHand_step (hok : act.fillsStream = true → a ≠ .failed) (hs : c.step a = .ok (act, c')) :
    c.inHand ++ act.line = act.appended ++ c'.inHand := by
  cases Conn.moves_of_step hs with
  | fopenFailed line h ha => exact absurd ha (hok rfl)
  | fputsFailed line h ha => exact absurd ha (hok rfl)
  | _ => simp [Conn.inHand, *, Action.line, Action.appended]

/-- Only a thread that holds the mutex appends. -/
theorem holds_of_appended (hs : c.step a = .ok (act, c')) (h : act.appended ≠ []) :
    c.holds = true := by
  cases Conn.moves_of_step hs with
  | fclose pending hpc => simp [Conn.holds, hpc]
  | _ => exact absurd rfl h

/-- A line is taken in hand by taking the mutex. -/
theorem line_eq_nil (h : act.lockOp ≠ .acquire) : act.line = [] := by
  cases act <;> simp_all [Action.lockOp, Action.line]

end Aesd
