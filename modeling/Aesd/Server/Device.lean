import Aesd.Server.EndToEnd

/-!
# The threads over the device

In the default build the file of the server is the character device, and any number of
connections are open at once.  `file_mutex` keeps their appends and read-backs apart, but
not all of their calls: `open`, `ioctl` and `close` are made without it.  So a thread in its
critical section can find that others have called the driver in between.

The stream that `write_to_file` opens decides for itself in which pieces it writes what it
was given.  Here it may hand over a piece at any time before it is closed, and what is left
is written when it is closed.  If a piece cannot be written, the stream gives up the rest.

A call of the driver is one step here.  For `aesd_open` and for the size that `aesd_read` looks
up before it locks this is an assumption: `file_mutex` does not keep the opens of other
connections out of a read-back, and `aesd_open` does not take the lock of the device.  The lines
and what becomes of them do not depend on it, because an open only moves the reader.

What the driver returned is part of the label, so that a history of the server contains a
history of the driver (`callsOf`), and a run of the server is one of the driver
(`DeviceThreads.run_driver`).
-/

namespace Aesd

open FixedWidth

/-! ## Turns -/

/-- What the kernel does in a call of the driver: whether waiting for the lock was
interrupted, what `kmalloc` gave, and what was on the stack of `aesd_ioctl`. -/
structure KernelPart where
  interrupted : Bool
  alloc : Option (ℕ → UInt8)
  stack : Vector UInt8 8

/-- What a thread is told in a turn. -/
structure Stroke where
  /-- The stream writes this many bytes; otherwise the thread makes its next step. -/
  flush : Option ℕ
  answer : Answer
  kernel : KernelPart
  /-- What the driver returned, if it was called. -/
  reply : Reply

/-- What a thread does in a turn. -/
inductive Deed where
  | did (act : Action)
  | flushed (piece : List UInt8)
  deriving DecidableEq

/-- A piece is written like what is left when the stream is closed. -/
def Deed.action : Deed → Action
  | .did act => act
  | .flushed piece => .fclose piece

/-- One turn of a thread. -/
def Conn.stroke (c : Conn) (x : Stroke) : Except Unit (Deed × Conn) :=
  match x.flush with
  | none => (c.step x.answer).map fun r => (.did r.1, r.2)
  | some n =>
      match c.pc with
      | .fclose pending =>
          if 0 < n ∧ n < pending.length then
            .ok (.flushed (pending.take n),
              { c with pc := .fclose (if x.answer = .failed then [] else pending.drop n) })
          else .error ()
      | _ => .error ()

/-- The call of the driver that an action of thread `t` makes: its `file_fd` is file `2 * t`,
its stream file `2 * t + 1`.  An `open` that fails did not get to the driver, and
`aesd_release` of a stream is left out because nothing looks at a closed stream. -/
def deviceCall (t : ℕ) (k : KernelPart) (a : Answer) : Action → Option Call
  | .openFile => if a = .failed then none else some (.aesdOpen (2 * t))
  | .ioctl seekto =>
      some (.aesdIoctl (2 * t) k.interrupted (.ofNat aesdcharIocseekto)
        (word32Bytes seekto.writeCmd ++ word32Bytes seekto.writeCmdOffset) k.stack)
  | .fopen => if a = .failed then none else some (.aesdOpen (2 * t + 1))
  | .fclose pending =>
      if pending = [] then none
      else some (.aesdWrite (2 * t + 1) k.interrupted k.alloc pending (.ofNat pending.length))
  | .lseekEnd => some (.aesdLlseek (2 * t) k.interrupted 0 2)
  | .lseekSet => some (.aesdLlseek (2 * t) k.interrupted 0 0)
  | .readFile count => some (.aesdRead (2 * t) k.interrupted count (.ofNat count))
  | .release .fileFd .acquired => some (.aesdRelease (2 * t))
  | _ => none

/-- What the calls that do not get to the driver can return: `read` does not deliver more
than it was asked for, and `calloc` has no block that is larger than half of the memory. -/
def Action.possible : Action → Answer → Bool
  | .receive, a => a.bytes.length < buffsize
  | .callocFileBuffer size, a => size < 2 ^ 63 || a = .failed
  | _, _ => true

/-- What the threads share: the driver and the mutex. -/
structure Device where
  sys : Sys
  fileMutex : Option ℕ

/-- What a deed of thread `t` does to them; `none` if it waits for the mutex, or if this is
not what comes of it.  A call of the driver is done at once: no open of another thread falls
between the size that a read has looked up and its copy. -/
def Device.grant (w : Device) (t : ℕ) (d : Deed) (x : Stroke) : Option Device :=
  match d.action.lockOp with
  | .acquire => if w.fileMutex = none then some { w with fileMutex := some t } else none
  | .release => some { w with fileMutex := none }
  | .keep =>
      match deviceCall t x.kernel x.answer d.action with
      | none => if d.action.possible x.answer then some w else none
      | some call =>
          match w.sys.step call with
          | .error _ => none
          | .ok (r, sys) =>
              if x.reply = r ∧ x.answer = answerOf d.action r then some { w with sys } else none

/-- The connection threads and the device. -/
abbrev DeviceThreads := Pool Device Conn

namespace DeviceThreads

/-- The driver is loaded, and no thread has done anything yet. -/
def init : DeviceThreads := ⟨⟨Sys.init, none⟩, fun _ => .start⟩

/-- One turn of one thread. -/
def step (s : DeviceThreads) (e : ℕ × Stroke) : Except Unit (Deed × DeviceThreads) :=
  Pool.step Conn.stroke Device.grant s e

end DeviceThreads

/-- The calls of the driver in a history of the server, with what it returned. -/
def callsOf (hist : List ((ℕ × Stroke) × Deed)) : List (Call × Reply) :=
  hist.flatMap fun e =>
    ((deviceCall e.1.1 e.1.2.kernel e.1.2.answer e.2.action).map fun c => (c, e.1.2.reply)).toList

theorem callsOf_append (h₁ h₂ : List ((ℕ × Stroke) × Deed)) :
    callsOf (h₁ ++ h₂) = callsOf h₁ ++ callsOf h₂ := List.flatMap_append

/-! ## One thread -/

section Thread

variable {c c' : Conn} {x : Stroke} {d : Deed}

/-- **A turn** is a step of the thread, or a piece that its stream writes. -/
theorem Conn.stroke_cases (hs : c.stroke x = .ok (d, c')) :
    (x.flush = none ∧ ∃ act, d = .did act ∧ c.step x.answer = .ok (act, c')) ∨
      ∃ n pending, x.flush = some n ∧ c.pc = .fclose pending ∧ 0 < n ∧ n < pending.length ∧
        d = .flushed (pending.take n) ∧
        c' = { c with pc := .fclose (if x.answer = .failed then [] else pending.drop n) } := by
  rw [stroke] at hs
  cases hflush : x.flush with
  | none =>
    rw [hflush] at hs
    dsimp only at hs
    cases hstep : c.step x.answer with
    | error f => rw [hstep] at hs; cases hs
    | ok r =>
      rw [hstep] at hs
      cases hs
      exact Or.inl ⟨rfl, r.1, rfl, rfl⟩
  | some n =>
    rw [hflush] at hs
    dsimp only at hs
    split at hs
    · next pending hpc =>
      by_cases hn : 0 < n ∧ n < pending.length
      · rw [if_pos hn] at hs
        cases hs
        exact Or.inr ⟨n, pending, rfl, hpc, hn.1, hn.2, rfl, rfl⟩
      · rw [if_neg hn] at hs
        cases hs
    · cases hs

theorem exiting_stroke (hc : c.Exiting) (hs : c.stroke x = .ok (d, c')) : c'.Exiting := by
  rcases Conn.stroke_cases hs with ⟨-, act, -, hstep⟩ | ⟨n, pending, -, -, -, -, -, rfl⟩
  · exact exiting_step hc hstep
  · exact fun rest hrest => by cases hrest

/-- **One turn of the lock discipline.** -/
theorem holds_stroke (hc : c.Exiting) (hs : c.stroke x = .ok (d, c')) :
    c'.holds = d.action.lockOp.holdsAfter c.holds ∧
      (d.action.lockOp = .acquire → c.holds = false) ∧
      (d.action.lockOp = .release → c.holds = true) := by
  rcases Conn.stroke_cases hs with ⟨-, act, rfl, hstep⟩ | ⟨n, pending, -, hpc, -, -, rfl, rfl⟩
  · exact holds_step hc hstep
  · simp [Conn.holds, hpc, Deed.action, Action.lockOp, LockOp.holdsAfter]

end Thread

/-! ## What is shared -/

/-- What a deed does, case by case. -/
inductive Device.Granted (w : Device) (t : ℕ) (d : Deed) (x : Stroke) : Device → Prop where
  | acquire (hop : d.action.lockOp = .acquire) (hfree : w.fileMutex = none) :
      Granted w t d x { w with fileMutex := some t }
  | release (hop : d.action.lockOp = .release) : Granted w t d x { w with fileMutex := none }
  | noCall (hop : d.action.lockOp = .keep)
      (hcall : deviceCall t x.kernel x.answer d.action = none)
      (hposs : d.action.possible x.answer = true) : Granted w t d x w
  | call (hop : d.action.lockOp = .keep) (call : Call) (r : Reply) (sys : Sys)
      (hcall : deviceCall t x.kernel x.answer d.action = some call)
      (hs : w.sys.step call = .ok (r, sys)) (hreply : x.reply = r)
      (hanswer : x.answer = answerOf d.action r) : Granted w t d x { w with sys }

/-- Taking and releasing the mutex calls nothing. -/
theorem deviceCall_eq_none {t : ℕ} {k : KernelPart} {a : Answer} {act : Action}
    (h : act.lockOp ≠ .keep) : deviceCall t k a act = none := by
  cases act <;> simp_all [Action.lockOp, deviceCall]

section Grant

variable {w w' : Device} {t : ℕ} {d : Deed} {x : Stroke}

theorem Device.granted_iff : w.grant t d x = some w' ↔ Granted w t d x w' := by
  rw [grant]
  constructor
  · intro h
    cases hop : d.action.lockOp with
    | acquire =>
      rw [hop] at h
      dsimp only at h
      split_ifs at h with hfree
      cases h
      exact .acquire hop hfree
    | release =>
      rw [hop] at h
      cases h
      exact .release hop
    | keep =>
      rw [hop] at h
      cases hcall : deviceCall t x.kernel x.answer d.action with
      | none =>
        rw [hcall] at h
        dsimp only at h
        split_ifs at h with hposs
        cases h
        exact .noCall hop hcall hposs
      | some call =>
        rw [hcall] at h
        dsimp only at h
        cases hs : w.sys.step call with
        | error f => rw [hs] at h; cases h
        | ok q =>
          obtain ⟨r, sys⟩ := q
          rw [hs] at h
          dsimp only at h
          split_ifs at h with heq
          cases h
          exact .call hop call r sys hcall hs heq.1 heq.2
  · intro h
    cases h with
    | acquire hop hfree =>
      rw [hop]
      exact if_pos hfree
    | release hop => rw [hop]
    | noCall hop hcall hposs =>
      rw [hop, hcall]
      exact if_pos hposs
    | call hop call r sys hcall hs hreply hanswer =>
      rw [hop, hcall]
      dsimp only
      rw [hs]
      exact if_pos ⟨hreply, hanswer⟩

theorem Device.Granted.fileMutex (h : w.Granted t d x w') :
    w'.fileMutex = d.action.lockOp.ownerAfter t w.fileMutex ∧
      (d.action.lockOp = .acquire → w.fileMutex = none) := by
  cases h with
  | acquire hop hfree => exact ⟨by rw [hop]; rfl, fun _ => hfree⟩
  | release hop => exact ⟨by rw [hop]; rfl, fun h => absurd (h.symm.trans hop) (by simp)⟩
  | noCall hop => exact ⟨by rw [hop]; rfl, fun h => absurd (h.symm.trans hop) (by simp)⟩
  | call hop => exact ⟨by rw [hop]; rfl, fun h => absurd (h.symm.trans hop) (by simp)⟩

/-- What a deed does to the driver: it makes its call, or nothing. -/
theorem Device.Granted.driver (h : w.Granted t d x w') :
    (deviceCall t x.kernel x.answer d.action = none ∧ w'.sys = w.sys) ∨
      ∃ call, deviceCall t x.kernel x.answer d.action = some call ∧
        w.sys.step call = .ok (x.reply, w'.sys) ∧ x.answer = answerOf d.action x.reply := by
  cases h with
  | acquire hop => exact Or.inl ⟨deviceCall_eq_none (by simp [hop]), rfl⟩
  | release hop => exact Or.inl ⟨deviceCall_eq_none (by simp [hop]), rfl⟩
  | noCall _ hcall => exact Or.inl ⟨hcall, rfl⟩
  | call _ call r sys hcall hs hreply hanswer =>
    subst hreply
    exact Or.inr ⟨call, hcall, hs, hanswer⟩

end Grant

/-! ## The threads together -/

namespace DeviceThreads

variable {ok : DeviceThreads → ℕ × Stroke → Prop} {hist : List ((ℕ × Stroke) × Deed)}
  {s s' : DeviceThreads} {e : ℕ × Stroke} {d : Deed}

/-- **What a turn is**: a turn of the thread that the device grants. -/
theorem step_iff :
    s.step e = .ok (d, s') ↔ ∃ c w, (s.thread e.1).stroke e.2 = .ok (d, c) ∧
      s.shared.Granted e.1 d e.2 w ∧ s' = ⟨w, Function.update s.thread e.1 c⟩ := by
  rw [step, Pool.step_iff]
  simp only [Device.granted_iff]

/-- **A run of the server is a run of the driver.** -/
theorem run_driver (h : Run step ok init hist s) :
    Run Sys.step (fun _ _ => True) Sys.init (callsOf hist) s.shared.sys := by
  induction h with
  | start => exact .start
  | @call hist s s' e d _ _ hs ih =>
    obtain ⟨c, w, -, hgrant, rfl⟩ := step_iff.mp hs
    rw [callsOf_append]
    rcases hgrant.driver with ⟨hcall, hsys⟩ | ⟨call, hcall, hstep, -⟩
    · have hnone : callsOf [(e, d)] = [] := by simp [callsOf, hcall]
      rw [hnone, List.append_nil]
      show Run _ _ _ _ w.sys
      rw [hsys]
      exact ih
    · have hone : callsOf [(e, d)] = [(call, e.2.reply)] := by simp [callsOf, hcall]
      rw [hone]
      exact ih.call trivial hstep

/-- Every thread follows `handle_connection`. -/
theorem exiting_of_run (h : Run step ok init hist s) (t : ℕ) : (s.thread t).Exiting := by
  have hrun := Pool.run_thread h t
  refine hrun.invariant (P := fun _ c => c.Exiting) ?_ ?_
  · exact fun rest hrest => absurd hrest (by simp [init, Conn.start])
  · exact fun _ _ _ _ _ _ hexit _ hs => exiting_stroke hexit hs

/-- **The mutex is held by the thread that its owner is.** -/
theorem owner_of_run (h : Run step ok init hist s) (t : ℕ) :
    (s.thread t).holds = true ↔ s.shared.fileMutex = some t := by
  induction h generalizing t with
  | start => simp [init, Conn.start, Conn.holds]
  | @call hist s s' e d hrun _ hs ih =>
    obtain ⟨c, w, hstroke, hgrant, rfl⟩ := step_iff.mp hs
    obtain ⟨hheld, -, hrel⟩ := holds_stroke (exiting_of_run hrun e.1) hstroke
    obtain ⟨hmutex, hfree⟩ := hgrant.fileMutex
    show _ ↔ w.fileMutex = some t
    rw [hmutex]
    exact owner_iff_holds_update ih hheld hfree hrel t

end DeviceThreads
end Aesd
