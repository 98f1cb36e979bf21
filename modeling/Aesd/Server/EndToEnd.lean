import Aesd.Driver.Representation
import Aesd.Server.Locking

/-!
# The server over the driver

In the default build the file of the server is the character device.  Here clients connect
one after another, each sends one line and is served, and every call on the file is a call
of the driver: `file_fd` is one open file, the stream of `write_to_file` another.

The server learns the size of its reply from `lseek` to the end, and the driver computes the
end from `out_offs`, which is not a number of bytes but the index of a slot.  Before ten lines
are stored, opening the device sets it to 0, so the reply is empty; afterwards it is at most
9, and ten lines are at least ten bytes.  So the size is never right (`Short`).
-/

namespace Aesd

open FixedWidth

/-! ## The composition -/

/-- The bytes of a word in memory. -/
def word32Bytes (w : UInt32) : List UInt8 :=
  [.ofNat w.toNat, .ofNat (w.toNat / 2 ^ 8), .ofNat (w.toNat / 2 ^ 16), .ofNat (w.toNat / 2 ^ 24)]

/-- The call of the driver that an action of the thread makes: `file_fd` is file 0, the stream
file 1.  Nothing is interrupted and every allocation succeeds; `garbage` is what new memory
contains, `stack` what the stack of `aesd_ioctl` does.  An empty stream has nothing to write,
and `aesd_release` does nothing, so closing makes no other call. -/
def driverCall (garbage : ℕ → UInt8) (stack : Vector UInt8 8) : Action → Option Call
  | .openFile => some (.aesdOpen 0)
  | .ioctl seekto =>
      some (.aesdIoctl 0 false (.ofNat aesdcharIocseekto)
        (word32Bytes seekto.writeCmd ++ word32Bytes seekto.writeCmdOffset) stack)
  | .fopen => some (.aesdOpen 1)
  | .fclose pending =>
      if pending = [] then none
      else some (.aesdWrite 1 false (some garbage) pending (.ofNat pending.length))
  | .lseekEnd => some (.aesdLlseek 0 false 0 2)
  | .lseekSet => some (.aesdLlseek 0 false 0 0)
  | .readFile count => some (.aesdRead 0 false count (.ofNat count))
  | _ => none

/-- What the thread is told. -/
def answerOf (act : Action) (r : Reply) : Answer :=
  if r.retval < 0 then .failed
  else
    match act with
    | .lseekEnd | .lseekSet => .position r.retval.toNat
    | .readFile _ => .data r.copied
    | _ => .done

/-- The driver, the thread of the current connection, and what its client has sent and the
thread has not received. -/
structure Station where
  sys : Sys
  conn : Conn
  inbox : List (List UInt8)

/-- What happens next. -/
inductive Input where
  /-- The next client connects and sends a line. -/
  | connect (line : List UInt8)
  /-- The thread goes on. -/
  | go (garbage : ℕ → UInt8) (stack : Vector UInt8 8)

/-- What happened. -/
inductive Output where
  | connected (line : List UInt8)
  | did (act : Action)
  deriving DecidableEq

namespace Station

/-- The driver is loaded, and no client has connected. -/
def init : Station := ⟨Sys.init, { Conn.start with pc := .leave [] }, []⟩

/-- The answer to an action, and what it does to the driver and to the inbox.  A client that
has sent its line sends nothing more. -/
def answer (s : Station) (garbage : ℕ → UInt8) (stack : Vector UInt8 8) (act : Action) :
    Except Fault (Answer × Sys × List (List UInt8)) :=
  if act = .receive then .ok (.data (s.inbox.headD []), s.sys, s.inbox.tail)
  else
    match driverCall garbage stack act with
    | none => .ok (.done, s.sys, s.inbox)
    | some call => (s.sys.step call).map fun r => (answerOf act r.1, r.2, s.inbox)

/-- One step.  Connections are handled one after another. -/
def step (s : Station) : Input → Except Unit (Output × Station)
  | .connect line =>
      if s.conn.returned then .ok (.connected line, ⟨s.sys, .start, [line]⟩) else .error ()
  | .go garbage stack =>
      match s.conn.action with
      | none => .error ()
      | some act =>
          match s.answer garbage stack act with
          | .error _ => .error ()
          | .ok (a, sys, inbox) => .ok (.did act, ⟨sys, s.conn.resume a, inbox⟩)

/-- What a client sends: a line without NUL, in one chunk of less than 4096 bytes. -/
def IsRequest (line : List UInt8) : Prop :=
  line.getLast? = some eol ∧ eol ∉ line.dropLast ∧ 0 ∉ line ∧ line.length < 4096

instance (line : List UInt8) : Decidable (IsRequest line) :=
  inferInstanceAs (Decidable (_ ∧ _))

/-- Clients send lines. -/
def Requests (_ : Station) : Input → Prop
  | .connect line => IsRequest line
  | .go _ _ => True

instance (s : Station) (i : Input) : Decidable (Requests s i) :=
  match i with
  | .connect line => inferInstanceAs (Decidable (IsRequest line))
  | .go _ _ => isTrue trivial

end Station

/-- The line of a new client. -/
@[simp] def Output.lines : Output → List (List UInt8)
  | .connected line => [line]
  | .did _ => []

/-- The lines received so far, of all clients. -/
def linesOf (hist : List (Input × Output)) : List (List UInt8) := hist.flatMap fun e => e.2.lines

/-- What the current client has been sent, after an event. -/
@[simp] def Output.reply : Output → List UInt8 → List UInt8
  | .connected _, _ => []
  | .did (.send bytes n), sent => sent ++ bytes.take n
  | .did _, sent => sent

/-- What the current client has been sent. -/
def replyOf (hist : List (Input × Output)) : List UInt8 :=
  hist.foldl (fun sent e => e.2.reply sent) []

/-- The last ten lines, oldest first. -/
def lastTen (lines : List (List UInt8)) : List UInt8 := (lines.drop (lines.length - 10)).flatten

@[simp] theorem linesOf_concat (hist : List (Input × Output)) (e : Input × Output) :
    linesOf (hist ++ [e]) = linesOf hist ++ e.2.lines := by
  simp [linesOf]

@[simp] theorem replyOf_concat (hist : List (Input × Output)) (e : Input × Output) :
    replyOf (hist ++ [e]) = e.2.reply (replyOf hist) := by
  simp [replyOf]

/-! ## What the actions do to the driver -/

section Drive

variable {garbage : ℕ → UInt8} {stack : Vector UInt8 8} {act : Action} {call : Call}
  {s s' : Sys} {r : Reply} {n : ℕ}

/-- Only closing the stream commits anything, and one line at most. -/
theorem drive_represents (hw : s.Wf) (hrep : Represents n s.dev.bufferP)
    (hcall : driverCall garbage stack act = some call) (hs : s.step call = .ok (r, s')) :
    ∃ m ≤ act.appended.length, Represents (n + m) s'.dev.bufferP := by
  have halloc : OnWrites (fun _ alloc _ _ => alloc ≠ none) s call := by
    cases act with
    | fclose pending =>
      simp only [driverCall] at hcall
      split_ifs at hcall
      cases hcall
      exact fun _ _ => by simp
    | openFile | ioctl | fopen | lseekEnd | lseekSet | readFile => cases hcall; trivial
    | _ => cases hcall
  refine ⟨r.commit.toList.length, ?_, Sys.step_represents hw hrep halloc hs⟩
  rcases Sys.step_cases hw hs with ⟨-, hnone⟩ | ⟨_, _, _, _, _, _, _, rfl, -⟩
  · rw [hnone]
    exact Nat.zero_le _
  · cases act with
    | fclose pending => cases r.commit <;> simp [Action.appended]
    | _ => simp [driverCall] at hcall

/-- Opening the stream takes the reader of a ring that is not full back to slot 0. -/
theorem outOffs_of_fopen (hfull : s.dev.bufferP.full = false)
    (hs : s.step (.aesdOpen 1) = .ok (r, s')) : s'.dev.bufferP.outOffs = 0 := by
  cases hs
  show (aesdOpen s.toDriver).dev.bufferP.outOffs = 0
  rw [aesdOpen, hfull]
  rfl

/-- Closing the stream leaves the reader of a ring that is not full where it is. -/
theorem outOffs_of_fclose (hw : s.Wf) (hfull : s.dev.bufferP.full = false) {pending : List UInt8}
    (hcall : driverCall garbage stack (.fclose pending) = some call)
    (hs : s.step call = .ok (r, s')) :
    s'.dev.bufferP.outOffs = s.dev.bufferP.outOffs := by
  simp only [driverCall] at hcall
  split_ifs at hcall
  cases hcall
  cases Sys.step_outcome hw hs with
  | notOpen => rfl
  | @aesdWrite _ _ _ _ _ _ _ _ d _ hout =>
    rcases hout.ring with ⟨-, hring⟩ | ⟨e, entry, -, -, -, hring⟩
    · exact congrArg (·.outOffs) hring
    · show d.dev.bufferP.outOffs = _
      rw [hring, addEntry_outOffs _ hw.inOffs_lt, hfull, if_neg (by simp)]

/-- A seek to the end returns `out_offs`, or fails. -/
theorem aesdLlseek_seekEnd (hw : s.Wf) (p : ℤ) :
    (aesdLlseek s.toDriver p false 0 2).1 = -eInval ∨
      (aesdLlseek s.toDriver p false 0 2).1 = s.dev.bufferP.outOffs := by
  have hlt := hw.outOffs_lt
  have hzero : (0 : Int64).toInt = 0 := rfl
  have hend : wrapS 64 ((s.dev.bufferP.outOffs : ℤ) + (0 : Int64).toInt) =
      s.dev.bufferP.outOffs := by
    rw [hzero, add_zero, wrapS_of_bounds (by omega) (by omega)]
  have h20 : (2 : Int32) ≠ 0 := by decide
  have h21 : (2 : Int32) ≠ 1 := by decide
  simp only [aesdLlseek, aesdLlseekLocked, hend, if_neg h20, if_neg h21, Bool.false_eq_true,
    if_false, if_true]
  split
  · exact Or.inl rfl
  · exact Or.inr rfl

/-- **The size the server is told**: `out_offs`, unless the seek fails. -/
theorem fileSize_of_lseekEnd (hw : s.Wf) (hs : s.step (.aesdLlseek 0 false 0 2) = .ok (r, s')) :
    (answerOf .lseekEnd r).fileSize = -1 ∨
      (answerOf .lseekEnd r).fileSize = s.dev.bufferP.outOffs := by
  cases Sys.step_outcome hw hs with
  | notOpen => exact Or.inl rfl
  | @aesdLlseek _ _ _ _ p =>
    rcases aesdLlseek_seekEnd hw p with h | h
    · exact Or.inl (by rw [h]; rfl)
    · rw [h, answerOf, if_neg (by simp)]
      exact Or.inr (by simp [Answer.fileSize])

end Drive

/-! ## The size of a reply -/

/-- A size that the last ten of `n` lines do not have. -/
def Short (n size : ℕ) : Prop := size = 0 ∨ size = 2 ^ 64 - 1 ∨ 10 ≤ n ∧ size ≤ 9

theorem length_le_length_flatten {ls : List (List UInt8)} (h : ∀ l ∈ ls, l ≠ []) :
    ls.length ≤ ls.flatten.length := by
  induction ls with
  | nil => exact le_rfl
  | cons l ls ih =>
    have hl := List.length_pos_iff.mpr (h l (by simp))
    have hls := ih fun k hk => h k (by simp [hk])
    rw [List.length_cons, List.flatten_cons, List.length_append]
    omega

theorem length_flatten_le {ls : List (List UInt8)} (h : ∀ l ∈ ls, l.length < 4096) :
    ls.flatten.length ≤ 4096 * ls.length := by
  induction ls with
  | nil => exact le_rfl
  | cons l ls ih =>
    have hl := h l (by simp)
    have hls := ih fun k hk => h k (by simp [hk])
    rw [List.length_cons, List.flatten_cons, List.length_append]
    omega

/-- **A reply of such a size is wrong.** -/
theorem Short.length_ne {lines : List (List UInt8)} {size : ℕ} (hne : lines ≠ [])
    (hreq : ∀ l ∈ lines, Station.IsRequest l) (h : Short lines.length size) :
    size ≠ (lastTen lines).length := by
  have hmem : ∀ l ∈ lines.drop (lines.length - 10), Station.IsRequest l := fun l hl =>
    hreq l (List.mem_of_mem_drop hl)
  have hnonempty : ∀ l ∈ lines.drop (lines.length - 10), l ≠ [] := by
    rintro l hl rfl
    exact absurd (hmem [] hl).1 (by simp)
  have hlow := length_le_length_flatten hnonempty
  have hhigh := length_flatten_le fun l hl => (hmem l hl).2.2.2
  have hpos := List.length_pos_iff.mpr hne
  rw [List.length_drop] at hlow hhigh
  rw [lastTen]
  rcases h with h | h | ⟨hn, h⟩ <;> omega

/-- What the thread knows of the size of its reply, with `n` lines received and the reader
of the device at slot `outOffs`. -/
def Conn.Sized (c : Conn) (n outOffs : ℕ) : Prop :=
  match c.pc with
  | .fputs _ | .fclose _ | .unlockAppend | .lockReadBack | .lseekEnd => n < 10 → outOffs = 0
  | .lseekSet | .callocFileBuffer | .readFile => Short n (wrapU 64 c.fileSize)
  | .send bytes count => Short n (bytes.take count).length
  | _ => True

theorem short_fileSize {n outOffs : ℕ} {x : ℤ} (hout : outOffs < 10)
    (hzero : n < 10 → outOffs = 0) (hx : x = -1 ∨ x = outOffs) : Short n (wrapU 64 x) := by
  rcases hx with rfl | rfl
  · exact Or.inr (Or.inl (by decide))
  · rw [wrapU_natCast (by omega)]
    by_cases hn : n < 10
    · exact Or.inl (hzero hn)
    · exact Or.inr (Or.inr ⟨by omega, by omega⟩)

theorem short_read {n size : ℕ} {a : Answer} (h : Short n size) (hread : a.bytesRead = size) :
    Short n (a.bytes.take a.bytesRead).length := by
  by_cases ha : a = .failed
  · subst ha
    exact Or.inl (by simp [Answer.bytes])
  · have hlen : a.bytesRead = a.bytes.length := if_neg ha
    rw [hlen, List.take_length, ← hlen, hread]
    exact h

/-! ## Runs -/

namespace Station

variable {s s' : Station} {i : Input} {out : Output} {hist : List (Input × Output)}

/-- What an action of the thread does. -/
inductive Served (s : Station) (garbage : ℕ → UInt8) (stack : Vector UInt8 8) :
    Action → Answer → Sys → List (List UInt8) → Prop where
  | receive : Served s garbage stack .receive (.data (s.inbox.headD [])) s.sys s.inbox.tail
  | noCall {act : Action} (hact : act ≠ .receive) (hcall : driverCall garbage stack act = none) :
      Served s garbage stack act .done s.sys s.inbox
  | call {act : Action} {call : Call} {r : Reply} {sys : Sys} (hact : act ≠ .receive)
      (hcall : driverCall garbage stack act = some call) (hs : s.sys.step call = .ok (r, sys)) :
      Served s garbage stack act (answerOf act r) sys s.inbox

theorem served_of_answer {garbage : ℕ → UInt8} {stack : Vector UInt8 8} {act : Action}
    {a : Answer} {sys : Sys} {inbox : List (List UInt8)}
    (h : s.answer garbage stack act = .ok (a, sys, inbox)) :
    Served s garbage stack act a sys inbox := by
  rw [answer] at h
  split at h
  · next hact =>
    subst hact
    cases h
    exact .receive
  · next hact =>
    cases hcall : driverCall garbage stack act with
    | none =>
      rw [hcall] at h
      cases h
      exact .noCall hact hcall
    | some call =>
      rw [hcall] at h
      dsimp only at h
      cases hs : s.sys.step call with
      | error f => rw [hs] at h; cases h
      | ok r =>
        rw [hs] at h
        cases h
        exact .call hact hcall hs

theorem step_go {garbage : ℕ → UInt8} {stack : Vector UInt8 8}
    (h : s.step (.go garbage stack) = .ok (out, s')) :
    ∃ act a, out = .did act ∧ s.conn.step a = .ok (act, s'.conn) ∧
      Served s garbage stack act a s'.sys s'.inbox := by
  simp only [step] at h
  cases hact : s.conn.action with
  | none => rw [hact] at h; cases h
  | some act =>
    rw [hact] at h
    dsimp only at h
    cases hans : s.answer garbage stack act with
    | error f => rw [hans] at h; cases h
    | ok r =>
      rw [hans] at h
      cases h
      exact ⟨act, r.1, rfl, Conn.step_iff.mpr ⟨hact, rfl⟩, served_of_answer hans⟩

/-- The invariant of server and driver. -/
structure Inv (hist : List (Input × Output)) (s : Station) : Prop where
  wf : s.sys.Wf
  /-- Not more lines are stored than were received, counting those on their way. -/
  stored : ∃ c, Represents c s.sys.dev.bufferP ∧
    c + s.inbox.length + s.conn.pending.length + s.conn.inHand.length ≤ (linesOf hist).length
  sized : s.conn.Sized (linesOf hist).length s.sys.dev.bufferP.outOffs
  unsent : (∀ rest, s.conn.pc ≠ .leave rest) → replyOf hist = []
  short : Short (linesOf hist).length (replyOf hist).length
  requests : ∀ l ∈ linesOf hist, IsRequest l

theorem inv_init : Inv [] init where
  wf := Sys.init_wf
  stored := ⟨0, Represents.init, le_rfl⟩
  sized := trivial
  unsent _ := rfl
  short := Or.inl rfl
  requests l hl := by cases hl

theorem inv_connect {line : List UInt8} (hinv : Inv hist s) (hline : IsRequest line) :
    Inv (hist ++ [(.connect line, .connected line)]) ⟨s.sys, .start, [line]⟩ where
  wf := hinv.wf
  stored := by
    obtain ⟨c, hrep, hle⟩ := hinv.stored
    refine ⟨c, hrep, ?_⟩
    simp only [linesOf_concat, Output.lines, List.length_append, List.length_singleton]
    show c + 1 + 0 + 0 ≤ _
    omega
  sized := trivial
  unsent _ := by simp
  short := by
    rw [replyOf_concat]
    exact Or.inl rfl
  requests l hl := by
    rw [linesOf_concat] at hl
    rcases List.mem_append.mp hl with h | h
    · exact hinv.requests l h
    · obtain rfl := List.mem_singleton.mp h
      exact hline

/-- A ring with fewer than ten lines is not full. -/
theorem Inv.full_eq_false (hinv : Inv hist s) (hn : (linesOf hist).length < 10) :
    s.sys.dev.bufferP.full = false := by
  obtain ⟨c, hrep, hle⟩ := hinv.stored
  rw [← Bool.not_eq_true]
  intro hf
  have := hrep.full hf
  omega

section Go

variable {garbage : ℕ → UInt8} {stack : Vector UInt8 8} {act : Action} {a : Answer} {c : Conn}
  {sys : Sys} {inbox : List (List UInt8)}

theorem Served.wf (h : Served s garbage stack act a sys inbox) (hw : s.sys.Wf) : sys.Wf := by
  cases h with
  | receive | noCall => exact hw
  | call _ _ hs => exact Sys.step_wf hw hs

/-- An action that makes no call leaves the driver alone. -/
theorem Served.sys_eq (h : Served s garbage stack act a sys inbox)
    (hnone : driverCall garbage stack act = none) : sys = s.sys := by
  cases h with
  | receive | noCall => rfl
  | call _ hcall => cases hcall.symm.trans hnone

/-- Opening and filling a stream succeed. -/
theorem Served.fillsStream (h : Served s garbage stack act a sys inbox)
    (hact : act.fillsStream = true) : a ≠ .failed := by
  cases h with
  | receive => cases hact
  | noCall => simp
  | call _ hcall hs =>
    cases act with
    | fopen =>
      cases hcall
      cases hs
      simp [answerOf]
    | fputs => cases hcall
    | _ => cases hact

/-- What is received is taken out of the inbox. -/
theorem Served.inbox_length (h : Served s garbage stack act a sys inbox) :
    inbox.length + (delivered (a, act)).length ≤ s.inbox.length := by
  cases h with
  | receive =>
    cases hin : s.inbox with
    | nil => simp [delivered, Answer.bytes]
    | cons k ks =>
      rw [List.tail_cons, List.length_cons, delivered]
      split <;> simp
  | noCall hact | call hact => simp [delivered, hact]

/-- The lines that are stored and on their way. -/
theorem stored_go (hinv : Inv hist s) (hs : s.conn.step a = .ok (act, c))
    (hserved : Served s garbage stack act a sys inbox) :
    ∃ m, Represents m sys.dev.bufferP ∧
      m + inbox.length + c.pending.length + c.inHand.length ≤ (linesOf hist).length := by
  obtain ⟨n, hrep, hle⟩ := hinv.stored
  have hpending := congrArg List.length (line_append_pending hs)
  have hhand := congrArg List.length (inHand_step hserved.fillsStream hs)
  have hbox := hserved.inbox_length
  have hfilter := List.length_filter_le (fun k => decide (IsLine k)) (delivered (a, act))
  simp only [List.length_append, List.length_map] at hpending hhand
  have hring : ∃ m ≤ act.appended.length, Represents (n + m) sys.dev.bufferP := by
    cases hserved with
    | receive | noCall => exact ⟨0, Nat.zero_le _, hrep⟩
    | call _ hcall hstep => exact drive_represents hinv.wf hrep hcall hstep
  obtain ⟨m, hm, hrep'⟩ := hring
  exact ⟨n + m, hrep', by omega⟩

/-- The size of the reply. -/
theorem sized_go (hinv : Inv hist s) (hs : s.conn.step a = .ok (act, c))
    (hserved : Served s garbage stack act a sys inbox) :
    c.Sized (linesOf hist).length sys.dev.bufferP.outOffs := by
  have hsized := hinv.sized
  cases Conn.moves_of_step hs with
  | fopen line h ha =>
    intro hn
    cases hserved with
    | noCall _ hcall => cases hcall
    | call _ hcall hstep =>
      cases hcall
      exact outOffs_of_fopen (hinv.full_eq_false hn) hstep
  | fputs line h ha | unlockAppend h | lockReadBack h =>
    simp only [Conn.Sized, h] at hsized
    rw [hserved.sys_eq rfl]
    exact hsized
  | fputsFailed line h ha | fopenFailed line h ha => exact absurd ha (hserved.fillsStream rfl)
  | fclose pending h =>
    simp only [Conn.Sized, h] at hsized
    intro hn
    cases hserved with
    | noCall => exact hsized hn
    | call _ hcall hstep =>
      rw [outOffs_of_fclose hinv.wf (hinv.full_eq_false hn) hcall hstep]
      exact hsized hn
  | lseekEnd h =>
    simp only [Conn.Sized, h] at hsized
    cases hserved with
    | noCall _ hcall => cases hcall
    | call _ hcall hstep =>
      cases hcall
      exact short_fileSize hinv.wf.outOffs_lt hsized (fileSize_of_lseekEnd hinv.wf hstep)
  | lseekSet h | callocFileBuffer h ha =>
    simp only [Conn.Sized, h] at hsized
    exact hsized
  | readFile h hread =>
    simp only [Conn.Sized, h] at hsized
    exact short_read hsized hread
  | dropped h => simp [Conn.Sized, h]
  | _ => trivial

/-- What has been sent. -/
theorem reply_go (hinv : Inv hist s) (hs : s.conn.step a = .ok (act, c)) :
    ((∀ rest, c.pc ≠ .leave rest) → (Output.did act).reply (replyOf hist) = []) ∧
      Short (linesOf hist).length ((Output.did act).reply (replyOf hist)).length := by
  have hsized := hinv.sized
  cases Conn.moves_of_step hs with
  | send bytes n h ha | sendFailed bytes n h ha =>
    simp only [Conn.Sized, h] at hsized
    refine ⟨fun hrest => absurd rfl (hrest _), ?_⟩
    rw [Output.reply, hinv.unsent (by simp [h]), List.nil_append]
    exact hsized
  | release r rest h | unlock rest h | setComplete rest h =>
    exact ⟨fun hrest => absurd rfl (hrest rest), hinv.short⟩
  | _ => exact ⟨fun _ => hinv.unsent (by simp [*]), hinv.short⟩

end Go

/-- **One step.** -/
theorem inv_step (hinv : Inv hist s) (hok : Requests s i) (hs : s.step i = .ok (out, s')) :
    Inv (hist ++ [(i, out)]) s' := by
  cases i with
  | connect line =>
    simp only [step] at hs
    split_ifs at hs
    cases hs
    exact inv_connect hinv hok
  | go garbage stack =>
    obtain ⟨act, a, rfl, hstep, hserved⟩ := step_go hs
    have hlines : linesOf (hist ++ [(.go garbage stack, .did act)]) = linesOf hist := by simp
    have hreply := reply_go hinv hstep
    refine ⟨hserved.wf hinv.wf, ?_, ?_, ?_, ?_, ?_⟩
    · rw [hlines]
      exact stored_go hinv hstep hserved
    · rw [hlines]
      exact sized_go hinv hstep hserved
    · rw [replyOf_concat]
      exact hreply.1
    · rw [hlines, replyOf_concat]
      exact hreply.2
    · rw [hlines]
      exact hinv.requests

theorem inv_of_run (h : Run step Requests init hist s) : Inv hist s :=
  h.invariant (P := Inv) inv_init fun _ _ _ _ _ _ hinv hok hs => inv_step hinv hok hs

end Station

/-- **No reply is right.**  Whenever clients have connected to the server over a freshly
loaded driver, what the current client has been sent is not the last ten lines, neither when
its connection is over nor before. -/
theorem reply_ne_lastTen {hist : List (Input × Output)} {s : Station}
    (h : Run Station.step Station.Requests Station.init hist s) (hne : linesOf hist ≠ []) :
    replyOf hist ≠ lastTen (linesOf hist) := by
  have hinv := Station.inv_of_run h
  intro heq
  exact hinv.short.length_ne hne hinv.requests (congrArg List.length heq)

/-- A client that is served to the end. -/
def serveTurns (line : List UInt8) : List Input :=
  .connect line :: List.replicate 20 (.go (fun _ => 0) (Vector.replicate 8 0))

theorem reply_ne_lastTen_two :
    ∃ hist s, Run Station.step Station.Requests Station.init hist s ∧
      s.conn.returned = true ∧ linesOf hist = [[97, 10], [98, 99, 10]] ∧
      replyOf hist ≠ [97, 10, 98, 99, 10] := by
  obtain ⟨hist, s, hrun, hret, hlines⟩ := exists_run_of_replay Station.step Station.Requests
    Station.init (serveTurns [97, 10] ++ serveTurns [98, 99, 10])
    (fun hist s => s.conn.returned = true ∧ linesOf hist = [[97, 10], [98, 99, 10]])
    (by decide +kernel)
  have hne := reply_ne_lastTen hrun (by rw [hlines]; simp)
  rw [hlines] at hne
  exact ⟨hist, s, hrun, hret, hlines, hne⟩

/-- The first client sends `a` and is served; it is sent nothing. -/
theorem first_reply_empty :
    ∃ hist s, Run Station.step Station.Requests Station.init hist s ∧
      s.conn.returned = true ∧ linesOf hist = [[97, 10]] ∧ replyOf hist = [] ∧
      replyOf hist ≠ lastTen (linesOf hist) := by
  obtain ⟨hist, s, hrun, hret, hlines, hreply⟩ := exists_run_of_replay Station.step
    Station.Requests Station.init (serveTurns [97, 10])
    (fun hist s => s.conn.returned = true ∧ linesOf hist = [[97, 10]] ∧ replyOf hist = [])
    (by decide +kernel)
  refine ⟨hist, s, hrun, hret, hlines, hreply, ?_⟩
  rw [hlines, hreply]
  decide

end Aesd
