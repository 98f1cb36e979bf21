import Aesd.Foundations.Descriptors
import Aesd.Foundations.FixedWidth
import Aesd.Foundations.Run

/-!
# Processes that run commands

`do_exec` and `do_exec_redirect` of `examples/systemcalls`.  Both fork; the child becomes the
command and the parent waits for it.  A run is one of any number of processes, which begin with
one that makes such calls and exits when it likes; what is not decided by the program, the calls
that fail and the status a command ends with, is part of the label.

What the parent returns is what it learns from a status.  A child whose `dup2` fails does not
exit: it returns too, into a second copy of the caller, and the status that the parent gets is
the one that this copy exits with.  So that a call returns true does not say that the command has
run (`ran_of_true`).  What becomes of the output files is in `Redirection`.

The commands' arguments are only passed on and are not here, nor is the standard output buffer,
which is flushed before the fork.
-/

namespace Aesd

open FixedWidth

namespace Systemcalls

variable {φ : Type*}

/-! ## Statuses -/

/-- The status of a process that exits. -/
def exitStatus (code : ℤ) : ℕ := wrapU 8 code * 256

/-- `WIFEXITED`. -/
def wifexited (status : ℕ) : Bool := status % 128 = 0

/-- `WEXITSTATUS`. -/
def wexitstatus (status : ℕ) : ℕ := status / 256 % 256

/-- What `do_exec` and `do_exec_redirect` return for a status. -/
def success (status : ℕ) : Bool := wifexited status && wexitstatus status = 0

theorem wrapU_lt (code : ℤ) : wrapU 8 code < 256 := by
  have := wrapU_emod 8 code
  omega

theorem success_exitStatus (code : ℤ) : success (exitStatus code) = true ↔ wrapU 8 code = 0 := by
  have hlt := wrapU_lt code
  have hmod : exitStatus code % 128 = 0 := by
    rw [exitStatus]
    omega
  have hdiv : exitStatus code / 256 % 256 = wrapU 8 code := by
    rw [exitStatus]
    omega
  rw [success, wifexited, wexitstatus, hdiv, hmod]
  simp

/-! ## Processes -/

/-- Where a process stands. -/
inductive Pc where
  /-- In the code that makes the calls. -/
  | caller
  /-- Before the fork, in `do_exec_redirect` with the descriptor of the output file. -/
  | fork (fd : Option ℕ)
  | dup2 (fd : ℕ)
  | close (fd : ℕ)
  | execv
  /-- It has become the command. -/
  | command
  | waitpid (child : ℕ)
  | ended (status : ℕ)
  /-- It has been waited for. -/
  | reaped
  deriving DecidableEq, Repr

/-- What is remembered of the past. -/
structure Past (φ : Type*) where
  /-- The open files when the last call was made. -/
  atCall : Descriptors φ
  /-- The output file of the last call, if it had one. -/
  outputfile : Option φ
  /-- How many output files were opened, here and before the fork that made the process. -/
  opened : ℕ
  /-- `execv` succeeded. -/
  execd : Bool
  /-- The output file of the call that made it, if that call had one. -/
  madeFor : Option φ
  /-- It was made by a call and has returned from it. -/
  escaped : Bool

/-- A process, with its open files. -/
structure Proc (φ : Type*) where
  pc : Pc
  table : Descriptors φ
  past : Past φ

/-- The processes that have been made, numbered. -/
structure Procs (φ : Type*) where
  proc : ℕ → Option (Proc φ)
  next : ℕ

/-- What a process does. -/
inductive Act (φ : Type*) where
  /-- Call `do_exec`. -/
  | doExec
  /-- Call `do_exec_redirect`, and `creat(outputfile, 0644)`. -/
  | doExecRedirect (outputfile : φ) (failed : Bool)
  | fork (failed : Bool)
  /-- `dup2(fd, 1)`. -/
  | dup2 (failed : Bool)
  /-- `close(fd)`. -/
  | close
  /-- `execv(command[0], command)`, which closes what is marked for it, and `exit` if it
  returns. -/
  | execv (failed : Bool)
  /-- The command ends. -/
  | endCommand (status : ℕ)
  /-- `waitpid(pid, &status, 0)`. -/
  | waitpid (failed : Bool)
  /-- The caller exits. -/
  | exit (code : ℤ)
  deriving DecidableEq, Repr

/-- What comes of a step: a call may return to its caller. -/
inductive Reply where
  | nothing
  | returned (r : Bool)
  deriving DecidableEq, Repr

namespace Procs

/-- The processes after one of them has changed. -/
def set (s : Procs φ) (p : ℕ) (q : Proc φ) : Procs φ :=
  { s with proc := Function.update s.proc p (some q) }

/-- The child in a fork. -/
def child (q : Proc φ) (fd : Option ℕ) : Proc φ :=
  { q with
    pc := match fd with
      | none => .execv
      | some fd => .dup2 fd
    past :=
      { q.past with execd := false, madeFor := q.past.outputfile, escaped := false } }

/-- The processes after a fork. -/
def forked (s : Procs φ) (p : ℕ) (q : Proc φ) (fd : Option ℕ) : Procs φ where
  proc := Function.update (Function.update s.proc p (some { q with pc := .waitpid s.next }))
    s.next (some (child q fd))
  next := s.next + 1

/-- One step of process `e.1`. -/
def step (limit : ℕ) (s : Procs φ) (e : ℕ × Act φ) : Except Unit (Reply × Procs φ) :=
  match s.proc e.1 with
  | none => .error ()
  | some q =>
      match q.pc, e.2 with
      | .caller, .doExec =>
          .ok (.nothing, s.set e.1
            { q with
              pc := .fork none
              past := { q.past with atCall := q.table, outputfile := none } })
      | .caller, .doExecRedirect f failed =>
          match if failed then none else Descriptors.lowest limit q.table with
          | none => .ok (.returned false, s)
          | some fd =>
              .ok (.nothing, s.set e.1
                { q with
                  pc := .fork (some fd)
                  table := q.table.openAt fd f
                  past :=
                    { q.past with
                      atCall := q.table
                      outputfile := some f
                      opened := q.past.opened + 1 } })
      | .fork none, .fork true =>
          -- `exit(false)`, which is `exit(0)`
          .ok (.nothing, s.set e.1 { q with pc := .ended (exitStatus 0) })
      | .fork (some _), .fork true => .ok (.returned false, s.set e.1 { q with pc := .caller })
      | .fork fd, .fork false => .ok (.nothing, s.forked e.1 q fd)
      | .dup2 _, .dup2 true =>
          -- the child returns
          .ok (.returned false,
            s.set e.1 { q with pc := .caller, past := { q.past with escaped := true } })
      | .dup2 fd, .dup2 false =>
          .ok (.nothing, s.set e.1 { q with pc := .close fd, table := q.table.dup2 fd 1 })
      | .close fd, .close =>
          .ok (.nothing, s.set e.1 { q with pc := .execv, table := q.table.close fd })
      | .execv, .execv true => .ok (.nothing, s.set e.1 { q with pc := .ended (exitStatus 1) })
      | .execv, .execv false =>
          .ok (.nothing, s.set e.1
            { q with
              pc := .command
              table := q.table.exec
              past := { q.past with execd := true } })
      | .command, .endCommand status => .ok (.nothing, s.set e.1 { q with pc := .ended status })
      | .waitpid _, .waitpid true => .ok (.returned false, s.set e.1 { q with pc := .caller })
      | .waitpid c, .waitpid false =>
          match s.proc c with
          | none => .error ()
          | some r =>
              match r.pc with
              | .ended status =>
                  .ok (.returned (success status),
                    (s.set e.1 { q with pc := .caller }).set c { r with pc := .reaped })
              | _ => .error ()
      | .caller, .exit code => .ok (.nothing, s.set e.1 { q with pc := .ended (exitStatus code) })
      | _, _ => .error ()

/-- One process, with the files it has open. -/
def init (table : Descriptors φ) : Procs φ where
  proc := fun p =>
    if p = 0 then
      some
        { pc := .caller
          table := table
          past :=
            { atCall := table
              outputfile := none
              opened := 0
              execd := false
              madeFor := none
              escaped := false } }
    else none
  next := 1

end Procs

/-! ## What a step can be -/

/-- A step that changes nothing but the process that makes it. -/
inductive Moves (limit : ℕ) (q : Proc φ) : Act φ → Reply → Proc φ → Prop where
  | doExec (h : q.pc = .caller) :
      Moves limit q .doExec .nothing
        { q with pc := .fork none, past := { q.past with atCall := q.table, outputfile := none } }
  | notOpened (f : φ) (failed : Bool) (h : q.pc = .caller) :
      Moves limit q (.doExecRedirect f failed) (.returned false) q
  | opened (f : φ) (failed : Bool) (fd : ℕ) (h : q.pc = .caller)
      (hfd : Descriptors.lowest limit q.table = some fd) :
      Moves limit q (.doExecRedirect f failed) .nothing
        { q with
          pc := .fork (some fd)
          table := q.table.openAt fd f
          past :=
            { q.past with atCall := q.table, outputfile := some f, opened := q.past.opened + 1 } }
  | exited (h : q.pc = .fork none) :
      Moves limit q (.fork true) .nothing { q with pc := .ended (exitStatus 0) }
  | notForked (fd : ℕ) (h : q.pc = .fork (some fd)) :
      Moves limit q (.fork true) (.returned false) { q with pc := .caller }
  | escaped (fd : ℕ) (h : q.pc = .dup2 fd) :
      Moves limit q (.dup2 true) (.returned false)
        { q with pc := .caller, past := { q.past with escaped := true } }
  | dup2 (fd : ℕ) (h : q.pc = .dup2 fd) :
      Moves limit q (.dup2 false) .nothing { q with pc := .close fd, table := q.table.dup2 fd 1 }
  | close (fd : ℕ) (h : q.pc = .close fd) :
      Moves limit q .close .nothing { q with pc := .execv, table := q.table.close fd }
  | execvFailed (h : q.pc = .execv) :
      Moves limit q (.execv true) .nothing { q with pc := .ended (exitStatus 1) }
  | execv (h : q.pc = .execv) :
      Moves limit q (.execv false) .nothing
        { q with pc := .command, table := q.table.exec, past := { q.past with execd := true } }
  | endCommand (status : ℕ) (h : q.pc = .command) :
      Moves limit q (.endCommand status) .nothing { q with pc := .ended status }
  | waitFailed (c : ℕ) (h : q.pc = .waitpid c) :
      Moves limit q (.waitpid true) (.returned false) { q with pc := .caller }
  | exit (code : ℤ) (h : q.pc = .caller) :
      Moves limit q (.exit code) .nothing { q with pc := .ended (exitStatus code) }

variable {limit : ℕ} {s s' : Procs φ} {p : ℕ} {act : Act φ} {r : Reply} {table : Descriptors φ}
  {ok : Procs φ → ℕ × Act φ → Prop} {hist : List ((ℕ × Act φ) × Reply)}

namespace Procs

variable {q : Proc φ} {p' : ℕ} {fd : Option ℕ}

theorem set_eq_self (h : s.proc p = some q) : s.set p q = s := by
  rw [Procs.set, ← h, Function.update_eq_self]

@[simp] theorem set_proc_self (s : Procs φ) (p : ℕ) (q : Proc φ) : (s.set p q).proc p = some q :=
  Function.update_self _ _ _

theorem set_proc_of_ne (h : p' ≠ p) : (s.set p q).proc p' = s.proc p' :=
  Function.update_of_ne h _ _

@[simp] theorem set_next (s : Procs φ) (p : ℕ) (q : Proc φ) : (s.set p q).next = s.next := rfl

@[simp] theorem forked_proc_next (s : Procs φ) (p : ℕ) (q : Proc φ) (fd : Option ℕ) :
    (s.forked p q fd).proc s.next = some (child q fd) :=
  Function.update_self _ _ _

theorem forked_proc_self (h : p ≠ s.next) :
    (s.forked p q fd).proc p = some { q with pc := .waitpid s.next } :=
  (Function.update_of_ne h _ _).trans (Function.update_self _ _ _)

theorem forked_proc_of_ne (hnext : p' ≠ s.next) (h : p' ≠ p) :
    (s.forked p q fd).proc p' = s.proc p' :=
  (Function.update_of_ne hnext _ _).trans (Function.update_of_ne h _ _)

end Procs

/-- **A step** is one of a process by itself, or a fork, or a wait that ends. -/
theorem step_cases (hs : s.step limit (p, act) = .ok (r, s')) :
    ∃ q, s.proc p = some q ∧
      ((∃ q', Moves limit q act r q' ∧ s' = s.set p q') ∨
        (∃ fd, q.pc = .fork fd ∧ act = .fork false ∧ r = .nothing ∧
          s' = s.forked p q fd) ∨
        ∃ c w status, q.pc = .waitpid c ∧ act = .waitpid false ∧ s.proc c = some w ∧
          w.pc = .ended status ∧ r = .returned (success status) ∧
          s' = (s.set p { q with pc := .caller }).set c { w with pc := .reaped }) := by
  rw [Procs.step] at hs
  split at hs
  · exact absurd hs (by simp)
  · next q hq =>
    refine ⟨q, hq, ?_⟩
    dsimp only at hs
    split at hs
    · next hpc =>
      obtain ⟨rfl, rfl⟩ := Prod.mk.inj (Except.ok.inj hs)
      exact .inl ⟨_, .doExec hpc, rfl⟩
    · next f failed hpc =>
      split at hs
      · obtain ⟨rfl, rfl⟩ := Prod.mk.inj (Except.ok.inj hs)
        exact .inl ⟨q, .notOpened f failed hpc, (Procs.set_eq_self hq).symm⟩
      · next fd hfd =>
        obtain ⟨rfl, rfl⟩ := Prod.mk.inj (Except.ok.inj hs)
        refine .inl ⟨_, .opened f failed fd hpc ?_, rfl⟩
        split at hfd
        · exact absurd hfd (by simp)
        · exact hfd
    · next hpc =>
      obtain ⟨rfl, rfl⟩ := Prod.mk.inj (Except.ok.inj hs)
      exact .inl ⟨_, .exited hpc, rfl⟩
    · next fd hpc =>
      obtain ⟨rfl, rfl⟩ := Prod.mk.inj (Except.ok.inj hs)
      exact .inl ⟨_, .notForked fd hpc, rfl⟩
    · next fd hpc =>
      obtain ⟨rfl, rfl⟩ := Prod.mk.inj (Except.ok.inj hs)
      exact .inr (.inl ⟨fd, hpc, rfl, rfl, rfl⟩)
    · next fd hpc =>
      obtain ⟨rfl, rfl⟩ := Prod.mk.inj (Except.ok.inj hs)
      exact .inl ⟨_, .escaped fd hpc, rfl⟩
    · next fd hpc =>
      obtain ⟨rfl, rfl⟩ := Prod.mk.inj (Except.ok.inj hs)
      exact .inl ⟨_, .dup2 fd hpc, rfl⟩
    · next fd hpc =>
      obtain ⟨rfl, rfl⟩ := Prod.mk.inj (Except.ok.inj hs)
      exact .inl ⟨_, .close fd hpc, rfl⟩
    · next hpc =>
      obtain ⟨rfl, rfl⟩ := Prod.mk.inj (Except.ok.inj hs)
      exact .inl ⟨_, .execvFailed hpc, rfl⟩
    · next hpc =>
      obtain ⟨rfl, rfl⟩ := Prod.mk.inj (Except.ok.inj hs)
      exact .inl ⟨_, .execv hpc, rfl⟩
    · next status hpc =>
      obtain ⟨rfl, rfl⟩ := Prod.mk.inj (Except.ok.inj hs)
      exact .inl ⟨_, .endCommand status hpc, rfl⟩
    · next c hpc =>
      obtain ⟨rfl, rfl⟩ := Prod.mk.inj (Except.ok.inj hs)
      exact .inl ⟨_, .waitFailed c hpc, rfl⟩
    · next c hpc =>
      split at hs
      · exact absurd hs (by simp)
      · next w hw =>
        split at hs
        · next status hstatus =>
          obtain ⟨rfl, rfl⟩ := Prod.mk.inj (Except.ok.inj hs)
          exact .inr (.inr ⟨c, w, status, hpc, rfl, hw, hstatus, rfl, rfl⟩)
        · exact absurd hs (by simp)
    · next code hpc =>
      obtain ⟨rfl, rfl⟩ := Prod.mk.inj (Except.ok.inj hs)
      exact .inl ⟨_, .exit code hpc, rfl⟩
    · exact absurd hs (by simp)

/-! ## Invariants of every process -/

/-- What every process keeps: it is kept by the steps of a process, by both sides of a fork and
by both sides of a wait. -/
structure Kept (limit : ℕ) (P : ℕ → Proc φ → Prop) : Prop where
  moves : ∀ {p q act r q'}, P p q → Moves limit q act r q' → P p q'
  parent : ∀ {p q fd c}, c ≠ 0 → P p q → q.pc = .fork fd → P p { q with pc := .waitpid c }
  child : ∀ {p q fd c}, c ≠ 0 → P p q → q.pc = .fork fd → P c (Procs.child q fd)
  waited : ∀ {p q c}, P p q → q.pc = .waitpid c → P p { q with pc := .caller }
  reaped : ∀ {p q status}, P p q → q.pc = .ended status → P p { q with pc := .reaped }

/-- The number of the next process is not 0, and no process has it yet. -/
def Fresh (s : Procs φ) : Prop := s.next ≠ 0 ∧ ∀ p, s.next ≤ p → s.proc p = none

theorem Fresh.lt {s : Procs φ} (h : Fresh s) {p : ℕ} {q : Proc φ} (hq : s.proc p = some q) :
    p < s.next := by
  by_contra hle
  rw [h.2 p (not_lt.mp hle)] at hq
  exact absurd hq (by simp)

theorem Fresh.set {s : Procs φ} (h : Fresh s) {p : ℕ} {q : Proc φ} (hq : s.proc p = some q)
    (q' : Proc φ) : Fresh (s.set p q') := by
  refine ⟨h.1, fun p' hp' => ?_⟩
  have hlt := h.lt hq
  rw [Procs.set_next] at hp'
  rw [Procs.set_proc_of_ne (by omega)]
  exact h.2 p' hp'

theorem fresh_step (h : Fresh s) (hs : s.step limit (p, act) = .ok (r, s')) : Fresh s' := by
  obtain ⟨q, hq, ⟨q', -, rfl⟩ | ⟨fd, -, -, -, rfl⟩ | ⟨c, w, status, -, -, hw, -, -, rfl⟩⟩ :=
    step_cases hs
  · exact h.set hq q'
  · refine ⟨Nat.succ_ne_zero _, fun p' hp' => ?_⟩
    have hlt := h.lt hq
    have hle : s.next + 1 ≤ p' := hp'
    rw [Procs.forked_proc_of_ne (by omega) (by omega)]
    exact h.2 p' (by omega)
  · by_cases hc : c = p
    · subst hc
      exact (h.set hq _).set (Procs.set_proc_self _ _ _) _
    · exact (h.set hq _).set ((Procs.set_proc_of_ne hc).trans hw) _

theorem fresh_of_run (h : Run (Procs.step limit) ok (Procs.init table) hist s) : Fresh s := by
  refine h.invariant (P := fun _ s => Fresh s) ⟨one_ne_zero, fun p hp => if_neg ?_⟩
    fun _ _ _ _ _ _ hf _ hs => fresh_step hf hs
  have : 1 ≤ p := hp
  omega

/-- **The rule.**  What the first process has and all steps keep, every process has. -/
theorem Kept.of_run {P : ℕ → Proc φ → Prop} (hk : Kept limit P)
    (h₀ : ∀ q, (Procs.init table).proc 0 = some q → P 0 q)
    (h : Run (Procs.step limit) ok (Procs.init table) hist s) {p : ℕ} {q : Proc φ}
    (hq : s.proc p = some q) : P p q := by
  have hinv : ∀ p q, s.proc p = some q → P p q := by
    refine h.invariant (P := fun _ s => ∀ p q, s.proc p = some q → P p q) ?_ ?_
    · intro p q hq
      by_cases hp : p = 0
      · subst hp
        exact h₀ q hq
      · exact absurd ((if_neg hp).symm.trans hq) (by simp)
    · intro hist s e r s' hrun hinv _ hs p' q' hq'
      obtain ⟨q, hq, ⟨q₁, hmoves, rfl⟩ | ⟨fd, hpc, -, -, rfl⟩ |
        ⟨c, w, status, hpc, -, hw, hstatus, -, rfl⟩⟩ := step_cases hs
      · by_cases hp : p' = e.1
        · subst hp
          rw [Procs.set_proc_self, Option.some.injEq] at hq'
          rw [← hq']
          exact hk.moves (hinv _ _ hq) hmoves
        · rw [Procs.set_proc_of_ne hp] at hq'
          exact hinv _ _ hq'
      · have hfresh := fresh_of_run hrun
        by_cases hnext : p' = s.next
        · subst hnext
          rw [Procs.forked_proc_next, Option.some.injEq] at hq'
          rw [← hq']
          exact hk.child hfresh.1 (hinv _ _ hq) hpc
        by_cases hp : p' = e.1
        · subst hp
          rw [Procs.forked_proc_self hnext, Option.some.injEq] at hq'
          rw [← hq']
          exact hk.parent hfresh.1 (hinv _ _ hq) hpc
        · rw [Procs.forked_proc_of_ne hnext hp] at hq'
          exact hinv _ _ hq'
      · by_cases hc : p' = c
        · subst hc
          rw [Procs.set_proc_self, Option.some.injEq] at hq'
          rw [← hq']
          exact hk.reaped (hinv _ _ hw) hstatus
        rw [Procs.set_proc_of_ne hc] at hq'
        by_cases hp : p' = e.1
        · subst hp
          rw [Procs.set_proc_self, Option.some.injEq] at hq'
          rw [← hq']
          exact hk.waited (hinv _ _ hq) hpc
        · rw [Procs.set_proc_of_ne hp] at hq'
          exact hinv _ _ hq'
  exact hinv p q hq

/-! ## What a status says -/

/-- In the caller's code, or in one of the two functions as its parent. -/
def Pc.calling : Pc → Bool
  | .caller | .fork _ | .waitpid _ => true
  | _ => false

/-- On the way from the fork to the end of the command. -/
def Pc.becoming : Pc → Bool
  | .dup2 _ | .close _ | .execv | .command => true
  | _ => false

/-- How a process has come to where it is. -/
structure Born (p : ℕ) (q : Proc φ) : Prop where
  calling : p ≠ 0 → q.pc.calling = true → q.past.escaped = true
  becoming : q.pc.becoming = true → q.past.escaped = false
  command : q.pc = .command → q.past.execd = true
  ended : p ≠ 0 → ∀ status, q.pc = .ended status →
    q.past.execd = true ∨ q.past.escaped = true ∨ status = exitStatus 1
  outputfile : ∀ fd, q.pc = .fork fd → (fd ≠ none ↔ q.past.outputfile ≠ none)
  dup2 : ∀ fd, q.pc = .dup2 fd → q.past.madeFor ≠ none
  escaped : q.past.escaped = true → q.past.madeFor ≠ none

/-- A process that goes on in the caller's code, or waits there. -/
theorem Born.call {p : ℕ} {q q' : Proc φ} (hb : Born p q) (hq : q.pc.calling = true)
    (hpc : q'.pc = .caller ∨ (∃ c, q'.pc = .waitpid c) ∨
      ∃ fd, q'.pc = .fork fd ∧ (fd ≠ none ↔ q'.past.outputfile ≠ none))
    (hesc : q'.past.escaped = q.past.escaped) (hmade : q'.past.madeFor = q.past.madeFor) :
    Born p q' := by
  have hcalling : p ≠ 0 → q'.past.escaped = true := fun hp => hesc.trans (hb.calling hp hq)
  have hescaped : q'.past.escaped = true → q'.past.madeFor ≠ none := fun h => by
    rw [hmade]
    exact hb.escaped (hesc.symm.trans h)
  rcases hpc with hpc | ⟨c, hpc⟩ | ⟨fd, hpc, hfile⟩
  · exact ⟨fun hp _ => hcalling hp, by simp [hpc, Pc.becoming], by simp [hpc], by simp [hpc],
      by simp [hpc], by simp [hpc], hescaped⟩
  · exact ⟨fun hp _ => hcalling hp, by simp [hpc, Pc.becoming], by simp [hpc], by simp [hpc],
      by simp [hpc], by simp [hpc], hescaped⟩
  · refine ⟨fun hp _ => hcalling hp, by simp [hpc, Pc.becoming], by simp [hpc], by simp [hpc],
      fun fd' hfd => ?_, by simp [hpc], hescaped⟩
    rw [hpc, Pc.fork.injEq] at hfd
    rw [← hfd]
    exact hfile

/-- A process that has ended. -/
theorem Born.end {p : ℕ} {q : Proc φ} (hb : Born p q) (status : ℕ)
    (h : p ≠ 0 → q.past.execd = true ∨ q.past.escaped = true ∨ status = exitStatus 1) :
    Born p { q with pc := .ended status } where
  calling _ := by simp [Pc.calling]
  becoming := by simp [Pc.becoming]
  command := by simp
  ended hp status' hstatus := by
    rw [← Pc.ended.inj hstatus]
    exact h hp
  outputfile := by simp
  dup2 := by simp
  escaped := hb.escaped

theorem kept_born (limit : ℕ) : Kept limit (Born (φ := φ)) where
  moves {p q act r q'} hb hm := by
    cases hm with
    | doExec h => exact hb.call (by simp [h, Pc.calling]) (.inr (.inr ⟨none, rfl, by simp⟩)) rfl rfl
    | notOpened => exact hb
    | opened f failed fd h =>
      exact hb.call (by simp [h, Pc.calling]) (.inr (.inr ⟨some fd, rfl, by simp⟩)) rfl rfl
    | exited h | exit code h =>
      exact hb.end _ fun hp => .inr (.inl (hb.calling hp (by simp [h, Pc.calling])))
    | notForked fd h | waitFailed c h =>
      exact hb.call (by simp [h, Pc.calling]) (.inl rfl) rfl rfl
    | escaped fd h =>
      exact ⟨fun _ _ => rfl, by simp [Pc.becoming], by simp, by simp, by simp, by simp,
        fun _ => hb.dup2 fd h⟩
    | dup2 fd h | close fd h =>
      have hnot := hb.becoming (by simp [h, Pc.becoming])
      exact ⟨by simp [Pc.calling], fun _ => hnot, by simp, by simp, by simp, by simp, hb.escaped⟩
    | execv h =>
      have hnot := hb.becoming (by simp [h, Pc.becoming])
      exact ⟨by simp [Pc.calling], fun _ => hnot, by simp, by simp, by simp, by simp, hb.escaped⟩
    | execvFailed h => exact hb.end _ fun _ => .inr (.inr rfl)
    | endCommand status h => exact hb.end _ fun _ => .inl (hb.command h)
  parent {p q fd c} _ hb h := hb.call (by simp [h, Pc.calling]) (.inr (.inl ⟨c, rfl⟩)) rfl rfl
  child {p q fd c} _ hb h := by
    have hfile := hb.outputfile fd h
    cases fd with
    | none => exact ⟨by simp [Procs.child, Pc.calling], fun _ => rfl, by simp [Procs.child],
        by simp [Procs.child], by simp [Procs.child], by simp [Procs.child],
        by simp [Procs.child]⟩
    | some fd => exact ⟨by simp [Procs.child, Pc.calling], fun _ => rfl, by simp [Procs.child],
        by simp [Procs.child], by simp [Procs.child], fun _ _ => hfile.mp (by simp),
        by simp [Procs.child]⟩
  waited {p q c} hb h := hb.call (by simp [h, Pc.calling]) (.inl rfl) rfl rfl
  reaped {p q status} hb _ := ⟨by simp [Pc.calling], by simp [Pc.becoming], by simp, by simp,
    by simp, by simp, hb.escaped⟩

theorem born_of_run (h : Run (Procs.step limit) ok (Procs.init table) hist s) {q : Proc φ}
    (hq : s.proc p = some q) : Born p q := by
  refine (kept_born limit).of_run (fun q₀ hq₀ => ?_) h hq
  obtain rfl := Option.some.inj hq₀
  exact ⟨by simp, by simp [Pc.becoming], by simp, by simp, by simp, by simp, by simp⟩

/-- The output file of the call that made a process. -/
def Procs.made (s : Procs φ) (c : ℕ) : Option (Option φ) := (s.proc c).map fun w => w.past.madeFor

theorem Procs.made_set {q q' : Proc φ} (hq : s.proc p = some q)
    (h : q'.past.madeFor = q.past.madeFor) : (s.set p q').made = s.made := by
  ext1 c
  by_cases hc : c = p
  · subst hc
    rw [made, made, set_proc_self, hq, Option.map_some, Option.map_some, h]
  · rw [made, made, set_proc_of_ne hc]

theorem Procs.child_pc_ne (q : Proc φ) (fd : Option ℕ) (c : ℕ) :
    (child q fd).pc ≠ .waitpid c := by
  cases fd with
  | none => simp [child]
  | some fd => simp [child]

/-- A fork makes one process more. -/
theorem Procs.made_forked {q : Proc φ} (hq : s.proc p = some q) (fd : Option ℕ) {c : ℕ}
    (hc : c ≠ s.next) : (s.forked p q fd).made c = s.made c := by
  by_cases hp : c = p
  · subst hp
    rw [made, made, forked_proc_self hc, hq]
    rfl
  · rw [made, made, forked_proc_of_ne hc hp]

/-- A process waits for one that was made for its output file. -/
def Linked (s : Procs φ) : Prop :=
  ∀ p q c, s.proc p = some q → q.pc = .waitpid c → c ≠ 0 ∧ s.made c = some q.past.outputfile

theorem linked_step (hf : Fresh s) (hl : Linked s) (hs : s.step limit (p, act) = .ok (r, s')) :
    Linked s' := by
  obtain ⟨q, hq, ⟨q₁, hmoves, rfl⟩ | ⟨fd, hpc, -, -, rfl⟩ |
    ⟨c', w, status, hpc, -, hw, hstatus, -, rfl⟩⟩ := step_cases hs
  · intro p' q' c hq' hwait
    have hmade : q₁.past.madeFor = q.past.madeFor := by cases hmoves <;> rfl
    rw [Procs.made_set hq hmade]
    by_cases hp : p' = p
    · -- a process does not begin to wait by itself
      subst hp
      rw [Procs.set_proc_self, Option.some.injEq] at hq'
      rw [← hq'] at hwait ⊢
      cases hmoves with
      | notOpened => exact hl _ _ _ hq hwait
      | _ => exact absurd hwait (by simp)
    · rw [Procs.set_proc_of_ne hp] at hq'
      exact hl _ _ _ hq' hwait
  · intro p' q' c hq' hwait
    by_cases hnext : p' = s.next
    · subst hnext
      rw [Procs.forked_proc_next, Option.some.injEq] at hq'
      rw [← hq'] at hwait
      exact absurd hwait (Procs.child_pc_ne q fd c)
    by_cases hp : p' = p
    · subst hp
      rw [Procs.forked_proc_self hnext, Option.some.injEq] at hq'
      rw [← hq'] at hwait ⊢
      rw [← Pc.waitpid.inj hwait, Procs.made, Procs.forked_proc_next]
      exact ⟨hf.1, rfl⟩
    · rw [Procs.forked_proc_of_ne hnext hp] at hq'
      obtain ⟨hzero, hmade⟩ := hl _ _ _ hq' hwait
      have hc : c ≠ s.next := by
        rintro rfl
        rw [Procs.made, hf.2 _ le_rfl] at hmade
        exact absurd hmade (by simp)
      rw [Procs.made_forked hq fd hc]
      exact ⟨hzero, hmade⟩
  · intro p' q' c hq' hwait
    have hne : c' ≠ p := by
      rintro rfl
      obtain rfl := Option.some.inj (hq.symm.trans hw)
      exact absurd (hpc.symm.trans hstatus) (by simp)
    have hparent : (s.set p { q with pc := .caller }).made = s.made := Procs.made_set hq rfl
    have hchild : ((s.set p { q with pc := .caller }).set c' { w with pc := .reaped }).made =
        (s.set p { q with pc := .caller }).made :=
      Procs.made_set ((Procs.set_proc_of_ne hne).trans hw) rfl
    rw [hchild, hparent]
    by_cases hc : p' = c'
    · subst hc
      rw [Procs.set_proc_self, Option.some.injEq] at hq'
      rw [← hq'] at hwait
      exact absurd hwait (by simp)
    rw [Procs.set_proc_of_ne hc] at hq'
    by_cases hp : p' = p
    · subst hp
      rw [Procs.set_proc_self, Option.some.injEq] at hq'
      rw [← hq'] at hwait
      exact absurd hwait (by simp)
    · rw [Procs.set_proc_of_ne hp] at hq'
      exact hl _ _ _ hq' hwait

theorem linked_of_run (h : Run (Procs.step limit) ok (Procs.init table) hist s) : Linked s := by
  refine h.invariant (P := fun _ s => Linked s) ?_
    fun _ _ _ _ _ hrun hl _ hs => linked_step (fresh_of_run hrun) hl hs
  intro p q c hq hwait
  by_cases hp : p = 0
  · obtain rfl := Option.some.inj ((if_pos hp).symm.trans hq)
    exact absurd hwait (by simp)
  · exact absurd ((if_neg hp).symm.trans hq) (by simp)

/-- **What it means that a call returns true.**  It has waited for a process that ended with
code 0, and this is the command; or the call had an output file, and it is a second copy of the
caller. -/
theorem ran_of_true {failed : Bool} (h : Run (Procs.step limit) ok (Procs.init table) hist s)
    (hs : s.step limit (p, .waitpid failed) = .ok (.returned true, s')) :
    ∃ q c w status, s.proc p = some q ∧ q.pc = .waitpid c ∧ s.proc c = some w ∧
      w.pc = .ended status ∧ success status = true ∧
      (w.past.execd = true ∨ w.past.escaped = true ∧ q.past.outputfile ≠ none) := by
  obtain ⟨q, hq, ⟨q', hmoves, -⟩ | ⟨fd, -, hact, -⟩ |
    ⟨c, w, status, hpc, -, hw, hstatus, hr, -⟩⟩ := step_cases hs
  · generalize htrue : Reply.returned true = r' at hmoves
    cases hmoves
    exact absurd htrue (by simp)
  · exact absurd hact (by simp)
  · have hsuccess : success status = true := (Reply.returned.inj hr).symm
    refine ⟨q, c, w, status, hq, hpc, hw, hstatus, hsuccess, ?_⟩
    have hborn := born_of_run h hw
    obtain ⟨hc, hmade⟩ := linked_of_run h p q c hq hpc
    rw [Procs.made, hw, Option.map_some, Option.some.injEq] at hmade
    rcases hborn.ended hc status hstatus with hexecd | hescaped | hone
    · exact .inl hexecd
    · refine .inr ⟨hescaped, ?_⟩
      rw [← hmade]
      exact hborn.escaped hescaped
    · rw [hone, success_exitStatus] at hsuccess
      exact absurd hsuccess (by decide)

/-- The three standard files. -/
def standardFiles : Descriptors ℕ := fun n => if n < 3 then some ⟨n, false⟩ else none

/-- Two processes are enough: `dup2` fails in the child, which returns to the caller's code and
exits there with code 0.  No command has run, and the parent's call returns true. -/
theorem ran_of_true_copy :
    ∃ (hist : _) (s : Procs ℕ) (s' : _),
      Run (Procs.step 8) (fun _ _ => True) (Procs.init standardFiles) hist s ∧
      s.step 8 (0, .waitpid false) = .ok (.returned true, s') ∧
      (∀ p q, s.proc p = some q → q.past.execd = false) ∧
      ∃ q c w status, s.proc 0 = some q ∧ q.pc = .waitpid c ∧ s.proc c = some w ∧
        w.pc = .ended status ∧ success status = true ∧
        (w.past.execd = true ∨ w.past.escaped = true ∧ q.past.outputfile ≠ none) := by
  obtain ⟨hist, s, hrun, hnext, hexecd₀, hexecd₁, hret⟩ := exists_run_of_replay (Procs.step 8)
    (fun _ _ => True) (Procs.init standardFiles)
    [(0, .doExecRedirect 7 false), (0, .fork false), (1, .dup2 true), (1, .exit 0)]
    (fun _ s => s.next = 2 ∧
      (s.proc 0).any (fun q => q.past.execd) = false ∧
      (s.proc 1).any (fun q => q.past.execd) = false ∧
      (s.step 8 (0, .waitpid false)).toOption.any (fun r => r.1 = .returned true) = true)
    (by decide)
  cases hs : s.step 8 (0, .waitpid false) with
  | error e => rw [hs] at hret; exact absurd hret (by simp [Except.toOption])
  | ok r =>
    obtain ⟨r, s'⟩ := r
    obtain rfl : r = .returned true := by simpa [hs, Except.toOption] using hret
    refine ⟨hist, s, s', hrun, hs, fun p q hq => ?_, ran_of_true hrun hs⟩
    have hlt : p < 2 := hnext ▸ (fresh_of_run hrun).lt hq
    obtain rfl | rfl : p = 0 ∨ p = 1 := by omega
    · rwa [hq, Option.any_some] at hexecd₀
    · rwa [hq, Option.any_some] at hexecd₁

end Systemcalls
end Aesd
