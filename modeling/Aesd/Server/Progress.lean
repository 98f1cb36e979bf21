import Aesd.Foundations.Progress
import Aesd.Server.Locking

/-!
# How long a connection takes

A thread goes round in its receive loop as long as its client sends what is not a line.
Apart from that it only goes forward: there are at most so many steps from where it stands
to the end of the function, and each step is one of them (`Conn.stepsLeft`).  So what a
thread does is bounded by what its client sends, however the calls it makes turn out.

Inside a critical section it does not even depend on that, because the socket is not read
there.  A thread that has taken the mutex gives it back within ten steps, by an unlock that
can be seen in what it does.  A call counts as a step once it returns; a client that does
not take its reply can make the thread wait in `send`.
-/

namespace Aesd

variable {ok : Conn → Answer → Prop} {hist : List (Answer × Action)} {c c' c₀ : Conn}
  {a : Answer} {act : Action}

/-- The steps to the end of the function, if the client sends nothing but a line. -/
def Conn.stepsLeft (c : Conn) : ℕ :=
  match c.pc with
  | .callocBuffer => 20
  | .openFile => 19
  | .ioctl _ => 19
  | .receive => 18
  | .lockAppend _ => 17
  | .fopen _ => 16
  | .fputs _ => 15
  | .fclose _ => 14
  | .unlockAppend => 13
  | .lockReadBack => 12
  | .lseekEnd => 11
  | .lseekSet => 10
  | .callocFileBuffer => 9
  | .readFile => 8
  | .send _ _ => 7
  | .leave rest => rest.length

theorem Conn.stepsLeft_of_returned (h : c.returned = true) : c.stepsLeft = 0 := by
  have hpc : c.pc = .leave [] := by simpa [Conn.returned] using h
  simp [Conn.stepsLeft, hpc]

theorem Conn.stepsLeft_le (hexit : c.Exiting) : c.stepsLeft ≤ 20 := by
  cases hpc : c.pc with
  | leave rest =>
    obtain ⟨e, he, hsuf⟩ := hexit rest hpc
    have hlen : ∀ e ∈ exits, e.length ≤ 6 := by decide
    have := hlen e he
    have := hsuf.length_le
    simp only [Conn.stepsLeft, hpc]
    omega
  | _ => simp [Conn.stepsLeft, hpc]

/-- **A step is one of the steps left**, and a chunk that is received adds two. -/
theorem stepsLeft_step (hs : c.step a = .ok (act, c')) :
    1 + c'.stepsLeft ≤ c.stepsLeft + 2 * (delivered (a, act)).length := by
  have hforward : 1 + c'.stepsLeft ≤ c.stepsLeft →
      1 + c'.stepsLeft ≤ c.stepsLeft + 2 * (delivered (a, act)).length := fun h => by omega
  cases Conn.moves_of_step hs with
  | seek h seekto hseek =>
    have hne : a.bytes ≠ [] := by
      intro h0
      rw [h0, List.prefix_nil] at hseek
      exact absurd hseek (by decide)
    simp [Conn.stepsLeft, h, delivered, hne]
  | dropped h hne => simp [Conn.stepsLeft, h, delivered, hne]
  | _ =>
    apply hforward
    simp [Conn.stepsLeft, *, noBufferExit, noFileExit, noFileBufferExit, replyFailedExit, cleanUp,
      Nat.add_comm]

/-- **A connection makes at most twenty steps, and two for every chunk that its client
sends**, whatever its calls return. -/
theorem steps_le (h : Run Conn.step ok Conn.start hist c) :
    hist.length + c.stepsLeft ≤ 20 + 2 * (received hist).length := by
  have hpaid := h.amortised (fun _ c => c.stepsLeft) (fun _ => 1)
    (fun e => 2 * (delivered e).length) fun _ _ _ _ _ _ _ hs => stepsLeft_step hs
  have hgain : (hist.map fun e => 2 * (delivered e).length).sum = 2 * (received hist).length := by
    rw [received, List.length_flatMap, List.sum_map_mul_left]
  rw [hgain] at hpaid
  simpa [Conn.start, Conn.stepsLeft] using hpaid

/-- A client sends two pieces, neither of which ends in a newline, and goes. -/
theorem steps_le_two : ∃ hist c, Run Conn.step (fun _ _ => True) Conn.start hist c ∧
    c.returned = true ∧ received hist = [[65], [66, 67]] ∧
    hist.length + c.stepsLeft ≤ 20 + 2 * (received hist).length := by
  obtain ⟨hist, c, hrun, hret, hrec⟩ := exists_run_of_replay Conn.step (fun _ _ => True) Conn.start
    [.done, .done, .data [65], .data [66, 67], .failed, .done, .done, .done, .done, .done]
    (fun hist c => c.returned = true ∧ received hist = [[65], [66, 67]]) (by decide +kernel)
  exact ⟨hist, c, hrun, hret, hrec, steps_le hrun⟩

/-! ## Holding the mutex -/

/-- The steps until the mutex is given back. -/
def Conn.holdsFor (c : Conn) : ℕ :=
  match c.pc with
  | .fopen _ => 4
  | .fputs _ => 3
  | .fclose _ => 2
  | .unlockAppend => 1
  | .lseekEnd => 10
  | .lseekSet => 9
  | .callocFileBuffer => 8
  | .readFile => 7
  | .send _ _ => 6
  | .leave rest => rest.idxOf .unlock + 1
  | _ => 0

theorem holdsFor_pos (hc : c.holds = true) : 1 ≤ c.holdsFor := by
  cases hpc : c.pc <;> simp_all [Conn.holds, Conn.holdsFor]

theorem holdsFor_le (hexit : c.Exiting) : c.holdsFor ≤ 10 := by
  cases hpc : c.pc with
  | leave rest =>
    obtain ⟨e, he, hsuf⟩ := hexit rest hpc
    have hlen : ∀ e ∈ exits, e.length ≤ 6 := by decide
    have hidx : rest.idxOf .unlock ≤ rest.length := List.idxOf_le_length
    have := hlen e he
    have := hsuf.length_le
    simp only [Conn.holdsFor, hpc]
    omega
  | _ => simp [Conn.holdsFor, hpc]

/-- A thread that has the mutex and keeps it is a step nearer to giving it back. -/
theorem holdsFor_step (hexit : c.Exiting) (hc : c.holds = true) (hs : c.step a = .ok (act, c'))
    (hc' : c'.holds = true) : 1 + c'.holdsFor ≤ c.holdsFor := by
  have hheld := (holds_step hexit hs).1
  cases Conn.moves_of_step hs with
  | noFileBuffer h | readFailed h | send _ _ h | sendFailed _ _ h =>
    simp [Conn.holdsFor, h, noFileBufferExit, replyFailedExit, cleanUp]
  | release r rest h | setComplete rest h => simp [Conn.holdsFor, h, Nat.add_comm]
  | unlock rest h =>
    exact absurd (hc'.symm.trans hheld) (by simp [Action.lockOp, LockOp.holdsAfter])
  | _ => simp_all [Conn.holdsFor, Conn.holds]

/-- The socket is not read by a thread that has the mutex. -/
theorem not_receive_of_holds (hc : c.holds = true) (hs : c.step a = .ok (act, c')) :
    act ≠ .receive := by
  rintro rfl
  cases Conn.moves_of_step hs with
  | _ => simp_all [Conn.holds]

/-- A thread that has the mutex can go on, and neither waits for a mutex nor reads from its
socket. -/
theorem step_of_holds (hexit : c.Exiting) (hc : c.holds = true) (a : Answer) :
    ∃ act c', c.step a = .ok (act, c') ∧ act.lockOp ≠ .acquire ∧ act ≠ .receive := by
  have hnot : c.action ≠ none := by
    intro hnone
    have hfree := holds_of_returned (Conn.action_eq_none_iff.mp hnone)
    exact absurd (hc.symm.trans hfree) (by simp)
  obtain ⟨act, hact⟩ := Option.ne_none_iff_exists'.mp hnot
  have hs : c.step a = .ok (act, c.resume a) := Conn.step_iff.mpr ⟨hact, rfl⟩
  refine ⟨act, _, hs, fun hacq => ?_, not_receive_of_holds hc hs⟩
  have hfree := (holds_step hexit hs).2.1 hacq
  exact absurd (hc.symm.trans hfree) (by simp)

/-- The mutex is kept, and the socket not read. -/
def Keeps (rest : List (Answer × Action)) : Prop :=
  ∀ e ∈ rest, e.2.lockOp = .keep ∧ e.2 ≠ .receive

theorem Keeps.concat {rest : List (Answer × Action)} {e : Answer × Action} (h : Keeps rest)
    (hkeep : e.2.lockOp = .keep) (hne : e.2 ≠ .receive) : Keeps (rest ++ [e]) := by
  intro e' he'
  rcases List.mem_append.mp he' with he' | he'
  · exact h e' he'
  · obtain rfl := List.mem_singleton.mp he'
    exact ⟨hkeep, hne⟩

/-- The mutex is given back in one of the first ten actions, and kept until then. -/
def GivesBack (rest : List (Answer × Action)) : Prop :=
  ∃ before e after, rest = before ++ e :: after ∧ e.2 = .unlock ∧ before.length < 10 ∧
    Keeps before

theorem GivesBack.append {rest : List (Answer × Action)} (h : GivesBack rest)
    (more : List (Answer × Action)) : GivesBack (rest ++ more) := by
  obtain ⟨before, e, after, rfl, hunlock, hlen, hkeeps⟩ := h
  exact ⟨before, e, after ++ more, by simp, hunlock, hlen, hkeeps⟩

/-- An unlock is the only action that gives the mutex back. -/
theorem eq_unlock_of_release (h : act.lockOp = .release) : act = .unlock := by
  cases act <;> simp_all [Action.lockOp]

/-- From a state in which it has the mutex, a thread has given it back, or it still has it
and has used up some of its ten steps. -/
theorem givesBack_or_holds (hexit : c₀.Exiting) (hholds : c₀.holds = true)
    {rest : List (Answer × Action)} (hrest : Run Conn.step ok c₀ rest c) :
    GivesBack rest ∨ (Keeps rest ∧ c.Exiting ∧ c.holds = true ∧
      rest.length + c.holdsFor ≤ 10) := by
  induction hrest with
  | start =>
    refine Or.inr ⟨fun e he => absurd he (by simp), hexit, hholds, ?_⟩
    simpa using holdsFor_le hexit
  | @call rest c c' a act _ _ hs ih =>
    rcases ih with hgiven | ⟨hkeeps, hexit, hholds, hle⟩
    · exact Or.inl (hgiven.append _)
    obtain ⟨hheld, hacq, -⟩ := holds_step hexit hs
    cases hop : act.lockOp with
    | acquire => exact absurd (hholds.symm.trans (hacq hop)) (by simp)
    | release =>
      have hpos := holdsFor_pos hholds
      exact Or.inl ⟨rest, _, [], rfl, eq_unlock_of_release hop, by omega, hkeeps⟩
    | keep =>
      have hheld' : c'.holds = true := by rw [hheld, hop, hholds]; rfl
      have hnear := holdsFor_step hexit hholds hs hheld'
      refine Or.inr ⟨hkeeps.concat hop (not_receive_of_holds hholds hs), exiting_step hexit hs,
        hheld', ?_⟩
      rw [List.length_append, List.length_singleton]
      omega

/-- **The critical sections are short.**  Whatever a thread that has taken the mutex does
afterwards, it gives the mutex back in one of its next ten steps, and before that it neither
reads from its socket nor locks anything.  As long as it has not, it can go on, with
whatever its next call returns. -/
theorem critical_section_le (h : Run Conn.step ok Conn.start hist c₀)
    (hholding : holding hist = true) {ok' : Conn → Answer → Prop}
    {rest : List (Answer × Action)} (hrest : Run Conn.step ok' c₀ rest c) :
    GivesBack rest ∨ (rest.length < 10 ∧ Keeps rest ∧
      ∀ a, ∃ act c', c.step a = .ok (act, c') ∧ act.lockOp ≠ .acquire ∧ act ≠ .receive) := by
  rw [holding_eq h] at hholding
  rcases givesBack_or_holds (exiting_of_run h) hholding hrest with
    hgiven | ⟨hkeeps, hexit, hholds, hle⟩
  · exact Or.inl hgiven
  · have hpos := holdsFor_pos hholds
    exact Or.inr ⟨by omega, hkeeps, step_of_holds hexit hholds⟩

/-- A line is received and the mutex is taken to append it; the file cannot be opened, and
the mutex is given back in the second step. -/
theorem critical_section_le_append : ∃ hist c₀ rest c,
    Run Conn.step (fun _ _ => True) Conn.start hist c₀ ∧ holding hist = true ∧
    Run Conn.step (fun _ _ => True) c₀ rest c ∧ rest.map (·.2) = [.fopen, .unlock] ∧
    (GivesBack rest ∨ (rest.length < 10 ∧ Keeps rest ∧
      ∀ a, ∃ act c', c.step a = .ok (act, c') ∧ act.lockOp ≠ .acquire ∧ act ≠ .receive)) := by
  obtain ⟨hist, c₀, hrun, hholding, hrest⟩ := exists_run_of_replay Conn.step (fun _ _ => True)
    Conn.start [.done, .done, .data [65, 10], .done]
    (fun hist c => holding hist = true ∧
      (replay Conn.step (fun _ _ => True) c [.failed, .done]).any
        (fun q => decide (q.1.map (·.2) = [.fopen, .unlock])) = true) (by decide +kernel)
  obtain ⟨rest, c, hrun', hacts⟩ := exists_run_of_replay Conn.step (fun _ _ => True) c₀
    [.failed, .done] (fun rest _ => rest.map (·.2) = [.fopen, .unlock]) hrest
  exact ⟨hist, c₀, rest, c, hrun, hholding, hrun', hacts, critical_section_le hrun hholding hrun'⟩

end Aesd
