import Aesd.Driver.Model
import Aesd.Foundations.Run

/-!
# The thread of one connection

`handle_connection` of `aesdsocket.c`, with `write_to_file` which it calls, as a machine
that acts and waits for an answer.  Where the thread stands decides what it does next
(`action`): a call with its arguments, or a store to the list node.  What comes of the
call decides how it goes on (`resume`).  Everything a call may return is an `Answer`, and
every sequence of answers is a run of the thread: what the socket, the file and the
allocator do is not this file's business.

The error exits differ in what they release and in whether they set `thread_complete`.
Each is the list of its statements, and an exiting thread works such a list off, so that
every statement is a step like any other and can be interleaved with other threads.

Two simplifications.  `fputs` fills the buffer of the stream and `fclose` writes it out,
so the data reaches the file when the stream is closed; the stream's data travels with
the call.  And the test `bytes_received == -1` inside the receive loop is not there,
because the loop is only entered when `bytes_received > 0`.
-/

namespace Aesd

open FixedWidth

/-- `BUFFSIZE`. -/
def buffsize : ℕ := 10 * 1024

/-- The text of a string literal. -/
def literal (s : String) : List UInt8 := s.toList.map fun c => UInt8.ofNat c.toNat

/-- The bytes before the first NUL, which is what a function that takes a string sees. -/
def cString (bytes : List UInt8) : List UInt8 := bytes.takeWhile (· ≠ 0)

/-! ## The seek command -/

/-- What `strncmp` compares the received data with. -/
def seekPrefix : List UInt8 := literal "AESDCHAR_IOCSEEKTO:"

/-- `isspace`. -/
def isSpace (b : UInt8) : Bool := b = 32 || (9 ≤ b && b ≤ 13)

/-- `isdigit`. -/
def isDigit (b : UInt8) : Bool := 48 ≤ b && b ≤ 57

/-- The value of a string of digits. -/
def decimal (digits : List UInt8) : ℕ := digits.foldl (fun n b => 10 * n + (b.toNat - 48)) 0

/-- The conversion `%u` of `sscanf`: the number is read as an `unsigned long`, which
saturates, and stored in an `unsigned int`. -/
def scanUnsigned (s : List UInt8) : Option (UInt32 × List UInt8) :=
  let s := s.dropWhile isSpace
  let negative := s.head? = some 45
  let s := if s.head? = some 43 ∨ negative then s.tail else s
  let digits := s.takeWhile isDigit
  let n := decimal digits
  if digits = [] then none
  else if 2 ^ 64 ≤ n then some (.ofNat (2 ^ 32 - 1), s.dropWhile isDigit)
  else some (.ofNat (wrapU 32 (if negative then -n else n)), s.dropWhile isDigit)

/-- `sscanf(buffer + 19, "%u,%u", ...) == 2`, with what it stored. -/
def scanSeekto (s : List UInt8) : Option AesdSeekto :=
  match scanUnsigned s with
  | some (writeCmd, 44 :: s) => (scanUnsigned s).map fun p => ⟨writeCmd, p.1⟩
  | _ => none

/-! ## The machine -/

/-- What came of a call. -/
inductive Answer where
  /-- `NULL`, `-1` or `EOF`. -/
  | failed
  /-- It was done, and there is nothing more to say. -/
  | done
  /-- A position in a file. -/
  | position (n : ℕ)
  /-- The bytes that were read. -/
  | data (bytes : List UInt8)
  deriving DecidableEq, Repr

namespace Answer

/-- The bytes that were read. -/
def bytes : Answer → List UInt8
  | .data l => l
  | _ => []

/-- The position returned by `lseek`, a `long`. -/
def fileSize : Answer → ℤ
  | .failed => -1
  | .position n => n
  | _ => 0

/-- What `read` returned, in the variable `bytes_read`, a `size_t`. -/
def bytesRead (a : Answer) : ℕ := if a = .failed then wrapU 64 (-1) else a.bytes.length

end Answer

/-- What the thread has to give back. -/
inductive Resource where
  | buffer
  | fileBuffer
  | acceptedsocket
  | fileFd
  deriving DecidableEq, Repr

/-- What a variable for a pointer or a descriptor holds. -/
inductive Var where
  /-- Nothing was assigned to it. -/
  | unassigned
  /-- `NULL` or `-1`. -/
  | failed
  /-- Something that was acquired. -/
  | acquired
  deriving DecidableEq, Repr

/-- What a call that acquires something leaves in its variable. -/
def Answer.var (a : Answer) : Var := if a = .failed then .failed else .acquired

/-- What the thread does.  The two places that lock `file_mutex` are told apart; taking
it to append is the first thing a call of `write_to_file` does. -/
inductive Action where
  /-- `calloc(BUFFSIZE, sizeof(char))`. -/
  | callocBuffer
  /-- `open(FILEPATH, O_RDWR)`. -/
  | openFile
  /-- `read(datap->acceptedsocket, buffer, BUFFSIZE - 1)`. -/
  | receive
  /-- `ioctl(file_fd, AESDCHAR_IOCSEEKTO, &seekto)`. -/
  | ioctl (seekto : AesdSeekto)
  /-- `write_to_file(line)`, and in it `pthread_mutex_lock(&file_mutex)`. -/
  | lockAppend (line : List UInt8)
  /-- `fopen(FILEPATH, "a")`. -/
  | fopen
  /-- `fputs(buffer, file)`. -/
  | fputs (line : List UInt8)
  /-- `fclose(file)`, with what the stream has to write. -/
  | fclose (pending : List UInt8)
  /-- `pthread_mutex_lock(&file_mutex)` before the read-back. -/
  | lockReadBack
  /-- `lseek(file_fd, 0, SEEK_END)`. -/
  | lseekEnd
  /-- `lseek(file_fd, 0, SEEK_SET)`. -/
  | lseekSet
  /-- `calloc((size_t)file_size, sizeof(char))`. -/
  | callocFileBuffer (size : ℕ)
  /-- `read(file_fd, file_buffer, file_size)`. -/
  | readFile (count : ℕ)
  /-- `write(datap->acceptedsocket, file_buffer, bytes_read)`. -/
  | send (fileBuffer : List UInt8) (bytesRead : ℕ)
  /-- `free` or `close` of what a variable holds. -/
  | release (r : Resource) (v : Var)
  /-- `pthread_mutex_unlock(&file_mutex)`. -/
  | unlock
  /-- `datap->thread_complete = true`. -/
  | setComplete
  deriving DecidableEq, Repr

/-- The statements of an exit. -/
inductive Exit where
  | release (r : Resource)
  | unlock
  | setComplete
  deriving DecidableEq, Repr

/-- Where the thread stands. -/
inductive Pc where
  | callocBuffer
  | openFile
  | receive
  | ioctl (seekto : AesdSeekto)
  | lockAppend (line : List UInt8)
  | fopen (line : List UInt8)
  | fputs (line : List UInt8)
  | fclose (pending : List UInt8)
  | unlockAppend
  | lockReadBack
  | lseekEnd
  | lseekSet
  | callocFileBuffer
  | readFile
  | send (fileBuffer : List UInt8) (bytesRead : ℕ)
  /-- On the way out, with these statements left. -/
  | leave (rest : List Exit)
  deriving DecidableEq, Repr

/-- The exit when `buffer` could not be allocated. -/
def noBufferExit : List Exit := [.release .acceptedsocket, .setComplete]

/-- The exit when the file could not be opened. -/
def noFileExit : List Exit := [.release .buffer, .release .acceptedsocket, .setComplete]

/-- The exit when `file_buffer` could not be allocated. -/
def noFileBufferExit : List Exit :=
  [.release .buffer, .release .acceptedsocket, .release .fileFd, .unlock]

/-- The exit when the read-back or the send failed. -/
def replyFailedExit : List Exit :=
  [.release .buffer, .release .fileBuffer, .release .acceptedsocket, .release .fileFd, .unlock]

/-- The clean-up after the receive loop. -/
def cleanUp : List Exit :=
  [.release .buffer, .release .fileBuffer, .release .acceptedsocket, .release .fileFd,
    .setComplete]

/-- The thread: where it stands, its local variables, and the flag in its list node. -/
structure Conn where
  pc : Pc
  buffer : Var
  fileBuffer : Var
  fileFd : Var
  fileSize : ℤ
  threadComplete : Bool
  deriving DecidableEq, Repr

namespace Conn

/-- The thread when it is created: `main` has cleared the flag. -/
def start : Conn where
  pc := .callocBuffer
  buffer := .unassigned
  fileBuffer := .unassigned
  fileFd := .unassigned
  fileSize := 0
  threadComplete := false

/-- What the variable for a resource holds. -/
def var (c : Conn) : Resource → Var
  | .buffer => c.buffer
  | .fileBuffer => c.fileBuffer
  -- the thread is only created if `accept` succeeded
  | .acceptedsocket => .acquired
  | .fileFd => c.fileFd

/-- What a statement of an exit does. -/
def exitAction (c : Conn) : Exit → Action
  | .release r => .release r (c.var r)
  | .unlock => .unlock
  | .setComplete => .setComplete

/-- What the thread does next; nothing if it has returned. -/
def action (c : Conn) : Option Action :=
  match c.pc with
  | .callocBuffer => some .callocBuffer
  | .openFile => some .openFile
  | .receive => some .receive
  | .ioctl seekto => some (.ioctl seekto)
  | .lockAppend line => some (.lockAppend line)
  | .fopen _ => some .fopen
  | .fputs line => some (.fputs line)
  | .fclose pending => some (.fclose pending)
  | .unlockAppend => some .unlock
  | .lockReadBack => some .lockReadBack
  | .lseekEnd => some .lseekEnd
  | .lseekSet => some .lseekSet
  | .callocFileBuffer => some (.callocFileBuffer (wrapU 64 c.fileSize))
  | .readFile => some (.readFile (wrapU 64 c.fileSize))
  | .send fileBuffer bytesRead => some (.send fileBuffer bytesRead)
  | .leave [] => none
  | .leave (e :: _) => some (c.exitAction e)

/-- Where a received chunk leads: a seek command is carried out, a chunk that ends in a
newline is handed to `write_to_file`, and anything else is forgotten. -/
def dispatch (chunk : List UInt8) : Pc :=
  if seekPrefix <+: chunk then
    match scanSeekto (cString (chunk.drop 19)) with
    | some seekto => .ioctl seekto
    | none => .receive
  else if chunk.getLast? = some eol then .lockAppend (cString chunk)
  else .receive

/-- How the thread goes on. -/
def resume (c : Conn) (a : Answer) : Conn :=
  match c.pc with
  | .callocBuffer =>
      { c with buffer := a.var, pc := if a = .failed then .leave noBufferExit else .openFile }
  | .openFile =>
      { c with fileFd := a.var, pc := if a = .failed then .leave noFileExit else .receive }
  | .receive => { c with pc := if a.bytes = [] then .leave cleanUp else dispatch a.bytes }
  | .ioctl _ => { c with pc := .receive }
  | .lockAppend line => { c with pc := .fopen line }
  | .fopen line => { c with pc := if a = .failed then .unlockAppend else .fputs line }
  | .fputs line => { c with pc := .fclose (if a = .failed then [] else line) }
  | .fclose _ => { c with pc := .unlockAppend }
  | .unlockAppend => { c with pc := .lockReadBack }
  | .lockReadBack => { c with pc := .lseekEnd }
  | .lseekEnd => { c with fileSize := a.fileSize, pc := .lseekSet }
  | .lseekSet => { c with pc := .callocFileBuffer }
  | .callocFileBuffer =>
      { c with
        fileBuffer := a.var
        pc := if a = .failed then .leave noFileBufferExit else .readFile }
  | .readFile =>
      { c with
        pc :=
          if a.bytesRead ≠ wrapU 64 c.fileSize then .leave replyFailedExit
          else .send a.bytes a.bytesRead }
  | .send _ _ =>
      { c with pc := .leave (if a = .failed then replyFailedExit else .unlock :: cleanUp) }
  | .leave [] => c
  | .leave (e :: rest) =>
      { c with threadComplete := c.threadComplete || e = .setComplete, pc := .leave rest }

/-- The thread function has returned. -/
def returned (c : Conn) : Bool := c.pc = .leave []

/-- One step; a thread that has returned makes none. -/
def step (c : Conn) (a : Answer) : Except Unit (Action × Conn) :=
  match c.action with
  | some act => .ok (act, c.resume a)
  | none => .error ()

/-- **What a step is.** -/
theorem step_iff {c c' : Conn} {a : Answer} {act : Action} :
    c.step a = .ok (act, c') ↔ c.action = some act ∧ c' = c.resume a := by
  rw [step]
  split
  · next act' h =>
    rw [h, Except.ok.injEq, Prod.mk.injEq, Option.some.injEq]
    exact and_congr_right fun _ => eq_comm
  · next h =>
    rw [h]
    simp

/-- A thread that has not returned can go on. -/
theorem action_eq_none_iff {c : Conn} : c.action = none ↔ c.returned = true := by
  rw [action, returned, decide_eq_true_eq]
  split <;> simp_all

/-- A thread about to send stands there. -/
theorem action_send_iff {c : Conn} {bytes : List UInt8} {n : ℕ} :
    c.action = some (.send bytes n) ↔ c.pc = .send bytes n := by
  cases hpc : c.pc with
  | leave rest =>
    cases rest with
    | nil => simp [action, hpc]
    | cons e rest => cases e <;> simp [action, hpc, exitAction]
  | _ => simp [action, hpc]

/-! ## The steps, branch by branch -/

/-- The steps a thread can make, one case for each branch of the source. -/
inductive Moves (c : Conn) (a : Answer) : Action → Conn → Prop where
  | callocBuffer (h : c.pc = .callocBuffer) (ha : a ≠ .failed) :
      Moves c a .callocBuffer { c with buffer := .acquired, pc := .openFile }
  | noBuffer (h : c.pc = .callocBuffer) (ha : a = .failed) :
      Moves c a .callocBuffer { c with buffer := .failed, pc := .leave noBufferExit }
  | openFile (h : c.pc = .openFile) (ha : a ≠ .failed) :
      Moves c a .openFile { c with fileFd := .acquired, pc := .receive }
  | noFile (h : c.pc = .openFile) (ha : a = .failed) :
      Moves c a .openFile { c with fileFd := .failed, pc := .leave noFileExit }
  | ended (h : c.pc = .receive) (ha : a.bytes = []) :
      Moves c a .receive { c with pc := .leave cleanUp }
  | seek (h : c.pc = .receive) (seekto : AesdSeekto) (hseek : seekPrefix <+: a.bytes) :
      Moves c a .receive { c with pc := .ioctl seekto }
  | line (h : c.pc = .receive) (hseek : ¬ seekPrefix <+: a.bytes)
      (hlast : a.bytes.getLast? = some eol) :
      Moves c a .receive { c with pc := .lockAppend (cString a.bytes) }
  | dropped (h : c.pc = .receive) (hne : a.bytes ≠ [])
      (hnot : seekPrefix <+: a.bytes ∨ a.bytes.getLast? ≠ some eol) :
      Moves c a .receive c
  | ioctl (seekto : AesdSeekto) (h : c.pc = .ioctl seekto) :
      Moves c a (.ioctl seekto) { c with pc := .receive }
  | lockAppend (line : List UInt8) (h : c.pc = .lockAppend line) :
      Moves c a (.lockAppend line) { c with pc := .fopen line }
  | fopen (line : List UInt8) (h : c.pc = .fopen line) (ha : a ≠ .failed) :
      Moves c a .fopen { c with pc := .fputs line }
  | fopenFailed (line : List UInt8) (h : c.pc = .fopen line) (ha : a = .failed) :
      Moves c a .fopen { c with pc := .unlockAppend }
  | fputs (line : List UInt8) (h : c.pc = .fputs line) (ha : a ≠ .failed) :
      Moves c a (.fputs line) { c with pc := .fclose line }
  | fputsFailed (line : List UInt8) (h : c.pc = .fputs line) (ha : a = .failed) :
      Moves c a (.fputs line) { c with pc := .fclose [] }
  | fclose (pending : List UInt8) (h : c.pc = .fclose pending) :
      Moves c a (.fclose pending) { c with pc := .unlockAppend }
  | unlockAppend (h : c.pc = .unlockAppend) :
      Moves c a .unlock { c with pc := .lockReadBack }
  | lockReadBack (h : c.pc = .lockReadBack) :
      Moves c a .lockReadBack { c with pc := .lseekEnd }
  | lseekEnd (h : c.pc = .lseekEnd) :
      Moves c a .lseekEnd { c with fileSize := a.fileSize, pc := .lseekSet }
  | lseekSet (h : c.pc = .lseekSet) :
      Moves c a .lseekSet { c with pc := .callocFileBuffer }
  | callocFileBuffer (h : c.pc = .callocFileBuffer) (ha : a ≠ .failed) :
      Moves c a (.callocFileBuffer (wrapU 64 c.fileSize))
        { c with fileBuffer := .acquired, pc := .readFile }
  | noFileBuffer (h : c.pc = .callocFileBuffer) (ha : a = .failed) :
      Moves c a (.callocFileBuffer (wrapU 64 c.fileSize))
        { c with fileBuffer := .failed, pc := .leave noFileBufferExit }
  | readFile (h : c.pc = .readFile) (hread : a.bytesRead = wrapU 64 c.fileSize) :
      Moves c a (.readFile (wrapU 64 c.fileSize)) { c with pc := .send a.bytes a.bytesRead }
  | readFailed (h : c.pc = .readFile) (hread : a.bytesRead ≠ wrapU 64 c.fileSize) :
      Moves c a (.readFile (wrapU 64 c.fileSize)) { c with pc := .leave replyFailedExit }
  | send (bytes : List UInt8) (n : ℕ) (h : c.pc = .send bytes n) (ha : a ≠ .failed) :
      Moves c a (.send bytes n) { c with pc := .leave (.unlock :: cleanUp) }
  | sendFailed (bytes : List UInt8) (n : ℕ) (h : c.pc = .send bytes n) (ha : a = .failed) :
      Moves c a (.send bytes n) { c with pc := .leave replyFailedExit }
  | release (r : Resource) (rest : List Exit) (h : c.pc = .leave (.release r :: rest)) :
      Moves c a (.release r (c.var r)) { c with pc := .leave rest }
  | unlock (rest : List Exit) (h : c.pc = .leave (.unlock :: rest)) :
      Moves c a .unlock { c with pc := .leave rest }
  | setComplete (rest : List Exit) (h : c.pc = .leave (.setComplete :: rest)) :
      Moves c a .setComplete { c with threadComplete := true, pc := .leave rest }

/-- Where a chunk leads is one of the branches. -/
theorem moves_dispatch {c : Conn} {a : Answer} (h : c.pc = .receive) (hne : a.bytes ≠ []) :
    Moves c a .receive { c with pc := dispatch a.bytes } := by
  rw [dispatch]
  by_cases hseek : seekPrefix <+: a.bytes
  · rw [if_pos hseek]
    cases scanSeekto (cString (a.bytes.drop 19)) with
    | some seekto => exact .seek h seekto hseek
    | none =>
      show Moves c a .receive { c with pc := .receive }
      rw [← h]
      exact .dropped h hne (Or.inl hseek)
  · rw [if_neg hseek]
    by_cases hlast : a.bytes.getLast? = some eol
    · rw [if_pos hlast]
      exact .line h hseek hlast
    · rw [if_neg hlast, ← h]
      exact .dropped h hne (Or.inr hlast)

/-- **The branches are all there is.** -/
theorem moves_of_step {c c' : Conn} {a : Answer} {act : Action} (hs : c.step a = .ok (act, c')) :
    Moves c a act c' := by
  obtain ⟨hact, rfl⟩ := step_iff.mp hs
  revert hact
  rw [action, resume]
  have hvar : a.var = if a = .failed then .failed else .acquired := rfl
  cases h : c.pc with
  | callocBuffer =>
    rintro ⟨⟩
    by_cases ha : a = .failed
    · simpa only [hvar, if_pos ha] using Moves.noBuffer h ha
    · simpa only [hvar, if_neg ha] using Moves.callocBuffer h ha
  | openFile =>
    rintro ⟨⟩
    by_cases ha : a = .failed
    · simpa only [hvar, if_pos ha] using Moves.noFile h ha
    · simpa only [hvar, if_neg ha] using Moves.openFile h ha
  | receive =>
    rintro ⟨⟩
    by_cases ha : a.bytes = []
    · simpa only [if_pos ha] using Moves.ended h ha
    · simpa only [if_neg ha] using moves_dispatch h ha
  | ioctl seekto =>
    rintro ⟨⟩
    exact .ioctl seekto h
  | lockAppend line =>
    rintro ⟨⟩
    exact .lockAppend line h
  | fopen line =>
    rintro ⟨⟩
    by_cases ha : a = .failed
    · simpa only [if_pos ha] using Moves.fopenFailed line h ha
    · simpa only [if_neg ha] using Moves.fopen line h ha
  | fputs line =>
    rintro ⟨⟩
    by_cases ha : a = .failed
    · simpa only [if_pos ha] using Moves.fputsFailed line h ha
    · simpa only [if_neg ha] using Moves.fputs line h ha
  | fclose pending =>
    rintro ⟨⟩
    exact .fclose pending h
  | unlockAppend =>
    rintro ⟨⟩
    exact .unlockAppend h
  | lockReadBack =>
    rintro ⟨⟩
    exact .lockReadBack h
  | lseekEnd =>
    rintro ⟨⟩
    exact .lseekEnd h
  | lseekSet =>
    rintro ⟨⟩
    exact .lseekSet h
  | callocFileBuffer =>
    rintro ⟨⟩
    by_cases ha : a = .failed
    · simpa only [hvar, if_pos ha] using Moves.noFileBuffer h ha
    · simpa only [hvar, if_neg ha] using Moves.callocFileBuffer h ha
  | readFile =>
    rintro ⟨⟩
    by_cases hread : a.bytesRead = wrapU 64 c.fileSize
    · simpa only [if_neg (not_not.mpr hread)] using Moves.readFile h hread
    · simpa only [if_pos hread] using Moves.readFailed h hread
  | send bytes n =>
    rintro ⟨⟩
    by_cases ha : a = .failed
    · simpa only [if_pos ha] using Moves.sendFailed bytes n h ha
    · simpa only [if_neg ha] using Moves.send bytes n h ha
  | leave rest =>
    cases rest with
    | nil => rintro ⟨⟩
    | cons e rest =>
      rintro ⟨⟩
      cases e with
      | release r => simpa [exitAction] using Moves.release (a := a) r rest h
      | unlock => simpa [exitAction] using Moves.unlock (a := a) rest h
      | setComplete => simpa [exitAction] using Moves.setComplete (a := a) rest h

end Conn
end Aesd
