import Aesd.Server.Locking

/-!
# The threads over one file

In the build without the character device the server keeps the received lines in a regular
file.  Every connection thread has a descriptor of its own, with its own offset, and appends
through a stream it opens each time; `file_mutex` is what keeps them apart.

The append and the read-back are two critical sections, and other threads may append in
between.  So a reply need not end in the line of the client that asked; what can be said is
that it is the file as it was at one moment: nobody appends between `lseek`, which says how
much there is, and `write`, which sends it.  That is what `Conn.Knows` carries through the
critical section.
-/

namespace Aesd

open FixedWidth

/-- What the threads share: the file, the mutex, and the offset of each `file_fd`. -/
structure Shared where
  file : List UInt8
  fileMutex : Option ℕ
  offset : ℕ → ℕ

/-- What an action of thread `t` does to the file and to the mutex; `none` if the action
waits for the mutex, or if this is no answer that the file gives.  A size that is no `off_t`
is not returned by `lseek`, and a `read` may return less than it was asked for. -/
def Shared.grant (w : Shared) (t : ℕ) (act : Action) (a : Answer) : Option Shared :=
  match act with
  | .lockAppend _ | .lockReadBack =>
      if w.fileMutex = none then some { w with fileMutex := some t } else none
  | .unlock => some { w with fileMutex := none }
  | .openFile => some { w with offset := Function.update w.offset t 0 }
  | .fclose pending => some { w with file := w.file ++ if a = .failed then [] else pending }
  | .lseekEnd =>
      if a = .failed then some w
      else if a = .position w.file.length ∧ w.file.length < 2 ^ 63 then
        some { w with offset := Function.update w.offset t w.file.length }
      else none
  | .lseekSet =>
      if a = .failed then some w else some { w with offset := Function.update w.offset t 0 }
  | .readFile count =>
      if a.bytes <+: (w.file.drop (w.offset t)).take count then
        some { w with offset := Function.update w.offset t (w.offset t + a.bytes.length) }
      else none
  | _ => some w

/-- The connection threads and the file. -/
abbrev Threads := Pool Shared Conn

/-- The calls on the file of which the code does not look at the result, or reports it only. -/
def Action.onFile : Action → Bool
  | .fopen | .fputs _ | .fclose _ | .lseekEnd | .lseekSet => true
  | _ => false

theorem Action.onFile_of_fillsStream {act : Action} (h : act.fillsStream = true) :
    act.onFile = true := by
  cases act <;> first | rfl | cases h

namespace Threads

/-- No thread has done anything yet. -/
def init (contents : List UInt8) : Threads :=
  ⟨⟨contents, none, fun _ => 0⟩, fun _ => .start⟩

/-- One step of one thread. -/
def step (s : Threads) (e : ℕ × Answer) : Except Unit (Action × Threads) :=
  Pool.step Conn.step Shared.grant s e

/-- `fopen`, `fputs`, `fclose` and `lseek` succeed. -/
def FilesWork (s : Threads) (e : ℕ × Answer) : Prop :=
  (s.thread e.1).action.any Action.onFile = true → e.2 ≠ .failed

instance (s : Threads) (e : ℕ × Answer) : Decidable (FilesWork s e) :=
  inferInstanceAs (Decidable (_ → _))

end Threads

/-! ## What an action does to the file -/

section Grant

variable {w w' : Shared} {t : ℕ} {act : Action} {a : Answer}

theorem grant_fileMutex (h : w.grant t act a = some w') :
    w'.fileMutex = act.lockOp.ownerAfter t w.fileMutex ∧
      (act.lockOp = .acquire → w.fileMutex = none) := by
  cases act with
  | lockAppend | lockReadBack | lseekEnd | lseekSet | readFile =>
    simp only [Shared.grant] at h
    split_ifs at h <;> cases h <;> simp_all [Action.lockOp, LockOp.ownerAfter]
  | _ =>
    cases h
    simp [Action.lockOp, LockOp.ownerAfter]

theorem grant_file (hok : act.onFile = true → a ≠ .failed) (h : w.grant t act a = some w') :
    w'.file = w.file ++ act.appended.flatten := by
  cases act with
  | lockAppend | lockReadBack | lseekEnd | lseekSet | readFile =>
    simp only [Shared.grant] at h
    split_ifs at h <;> cases h <;> simp [Action.appended]
  | fclose pending =>
    cases h
    simp [Action.appended, hok rfl]
  | _ =>
    cases h
    simp [Action.appended]

theorem grant_offset (h : w.grant t act a = some w') {u : ℕ} (hu : u ≠ t) :
    w'.offset u = w.offset u := by
  cases act with
  | lockAppend | lockReadBack | lseekEnd | lseekSet | readFile =>
    simp only [Shared.grant] at h
    split_ifs at h <;> cases h <;> simp [hu]
  | _ =>
    cases h
    simp [hu]

end Grant

/-! ## What a thread knows of the file -/

/-- What a thread inside its second critical section knows: the size of the file, that it
reads from the beginning, and what it has read. -/
def Conn.Knows (c : Conn) (file : List UInt8) (offset : ℕ) : Prop :=
  match c.pc with
  | .lseekSet => c.fileSize = file.length ∧ file.length < 2 ^ 63
  | .callocFileBuffer | .readFile =>
      (c.fileSize = file.length ∧ file.length < 2 ^ 63) ∧ offset = 0
  | .send bytes n => bytes = file ∧ n = file.length
  | _ => True

theorem knows_of_not_holds {c : Conn} (h : c.holds = false) (file : List UInt8) (offset : ℕ) :
    c.Knows file offset := by
  cases hpc : c.pc <;> simp_all [Conn.holds, Conn.Knows]

/-- A read that returns as many bytes as the file has returns the file. -/
theorem bytes_eq_of_read {a : Answer} {file : List UInt8} (hlt : file.length < 2 ^ 63)
    (hpre : a.bytes <+: file.take (wrapU 64 file.length))
    (hread : a.bytesRead = wrapU 64 file.length) : a.bytes = file ∧ a.bytesRead = file.length := by
  have hwrap : wrapU 64 (file.length : ℤ) = file.length := wrapU_natCast (by omega)
  rw [hwrap, List.take_length] at hpre
  rw [hwrap] at hread
  refine ⟨hpre.eq_of_length ?_, hread⟩
  rw [Answer.bytesRead] at hread
  split_ifs at hread with hfailed
  · have hmax : wrapU 64 (-1) = 2 ^ 64 - 1 := by decide
    omega
  · exact hread

theorem knows_step {w w' : Shared} {t : ℕ} {c c' : Conn} {act : Action} {a : Answer}
    (hok : act.onFile = true → a ≠ .failed) (hs : c.step a = .ok (act, c'))
    (hgrant : w.grant t act a = some w') (hk : c.Knows w.file (w.offset t)) :
    c'.Knows w'.file (w'.offset t) := by
  cases Conn.moves_of_step hs with
  | lseekEnd h =>
    simp only [Shared.grant, if_neg (hok rfl)] at hgrant
    split_ifs at hgrant with hpos
    cases hgrant
    exact ⟨by rw [hpos.1]; rfl, hpos.2⟩
  | lseekSet h =>
    simp only [Shared.grant, if_neg (hok rfl)] at hgrant
    cases hgrant
    simp only [Conn.Knows, h] at hk
    exact ⟨hk, Function.update_self ..⟩
  | callocFileBuffer h ha =>
    cases hgrant
    simpa only [Conn.Knows, h] using hk
  | readFile h hread =>
    simp only [Conn.Knows, h] at hk
    obtain ⟨⟨hsize, hlt⟩, hoff⟩ := hk
    simp only [Shared.grant] at hgrant
    split_ifs at hgrant with hpre
    cases hgrant
    rw [hoff, List.drop_zero, hsize] at hpre
    rw [hsize] at hread
    exact bytes_eq_of_read hlt hpre hread
  | dropped h => simp [Conn.Knows, h]
  | _ => trivial

/-! ## The threads together -/

/-- The lines the mutex was taken for, in that order, with the threads that took it. -/
def locked (hist : List ((ℕ × Answer) × Action)) : List (ℕ × List UInt8) :=
  hist.flatMap fun e => e.2.line.map fun line => (e.1.1, line)

/-- The lines that were appended, in that order. -/
def appended (hist : List ((ℕ × Answer) × Action)) : List (ℕ × List UInt8) :=
  hist.flatMap fun e => e.2.appended.map fun line => (e.1.1, line)

/-- The line that is being appended. -/
def Threads.inProgress (s : Threads) : List (ℕ × List UInt8) :=
  match s.shared.fileMutex with
  | none => []
  | some t => (s.thread t).inHand.map fun line => (t, line)

/-- The invariant of the running server. -/
structure Threads.Inv (contents : List UInt8) (hist : List ((ℕ × Answer) × Action))
    (s : Threads) : Prop where
  owner : ∀ t, (s.thread t).holds = true ↔ s.shared.fileMutex = some t
  order : locked hist = appended hist ++ s.inProgress
  file : s.shared.file = contents ++ ((appended hist).map Prod.snd).flatten
  knows : ∀ t, (s.thread t).Knows s.shared.file (s.shared.offset t)
  sent : ∀ t a bytes n, ((t, a), .send bytes n) ∈ hist → bytes <+: s.shared.file

namespace Threads

variable {contents : List UInt8} {hist : List ((ℕ × Answer) × Action)} {s s' : Threads}
  {w : Shared} {t : ℕ} {a : Answer} {act : Action} {c : Conn}

/-- The line in progress, after a step: what was in hand and is not appended yet. -/
theorem inProgress_step (hexit : (s.thread t).Exiting)
    (howner : ∀ u, (s.thread u).holds = true ↔ s.shared.fileMutex = some u)
    (hok : act.onFile = true → a ≠ .failed) (hs : (s.thread t).step a = .ok (act, c))
    (hgrant : s.shared.grant t act a = some w) :
    s.inProgress ++ act.line.map (fun line => (t, line)) =
      act.appended.map (fun line => (t, line)) ++
        Threads.inProgress ⟨w, Function.update s.thread t c⟩ := by
  obtain ⟨hheld, hacq, hrel⟩ := holds_step hexit hs
  obtain ⟨hmutex, hfree⟩ := grant_fileMutex hgrant
  have hone := congrArg (List.map fun line => (t, line))
    (inHand_step (fun h => hok (Action.onFile_of_fillsStream h)) hs)
  rw [List.map_append, List.map_append] at hone
  have hnew : w.fileMutex = some t → Threads.inProgress ⟨w, Function.update s.thread t c⟩ =
      c.inHand.map fun line => (t, line) := by
    intro h
    simp [inProgress, h]
  cases hop : act.lockOp with
  | acquire =>
    have hnone : s.inProgress = [] := by rw [inProgress, hfree hop]
    rw [hop] at hmutex
    rw [hnew hmutex, hnone, ← hone, inHand_of_not_holds (hacq hop), List.map_nil]
  | release =>
    have hmine := (howner t).mp (hrel hop)
    have hnone : Threads.inProgress ⟨w, Function.update s.thread t c⟩ = [] := by
      rw [hop] at hmutex
      simp only [inProgress, hmutex, LockOp.ownerAfter]
    rw [hop] at hheld
    rw [inHand_of_not_holds (c := c) hheld, List.map_nil] at hone
    rw [hnone, ← hone, inProgress, hmine]
  | keep =>
    rw [hop] at hmutex hheld
    by_cases hmine : s.shared.fileMutex = some t
    · rw [hnew (hmutex.trans hmine), ← hone, inProgress, hmine]
    · -- a thread without the mutex has no line in hand, and touches nobody else's
      have hnot : (s.thread t).holds = false := by
        rw [← Bool.not_eq_true]
        exact fun h => hmine ((howner t).mp h)
      have hline : act.line = [] := line_eq_nil (by simp [hop])
      rw [hline, inHand_of_not_holds hnot, inHand_of_not_holds (c := c) (hheld.trans hnot)] at hone
      have happ : act.appended.map (fun line => (t, line)) = [] := by simpa using hone.symm
      have hsame : Threads.inProgress ⟨w, Function.update s.thread t c⟩ = s.inProgress := by
        simp only [inProgress, hmutex, LockOp.ownerAfter]
        cases hm : s.shared.fileMutex with
        | none => rfl
        | some u =>
          have hu : u ≠ t := by
            rintro rfl
            exact hmine hm
          simp [Function.update_of_ne hu]
      rw [hline, happ, hsame, List.map_nil, List.append_nil, List.nil_append]

/-- Nobody else changes the file under a thread that knows something of it. -/
theorem knows_other (howner : ∀ u, (s.thread u).holds = true ↔ s.shared.fileMutex = some u)
    (hok : act.onFile = true → a ≠ .failed) (hs : (s.thread t).step a = .ok (act, c))
    (hgrant : s.shared.grant t act a = some w) {u : ℕ} (hu : u ≠ t)
    (hk : (s.thread u).Knows s.shared.file (s.shared.offset u)) :
    (s.thread u).Knows w.file (w.offset u) := by
  rw [grant_offset hgrant hu, grant_file hok hgrant]
  by_cases hmine : (s.thread t).holds = true
  · refine knows_of_not_holds ?_ _ _
    rw [← Bool.not_eq_true, howner u, (howner t).mp hmine]
    exact fun h => hu (Option.some.inj h).symm
  · have hnone : act.appended = [] := by
      by_contra h
      exact hmine (holds_of_appended hs h)
    rw [hnone, List.flatten_nil, List.append_nil]
    exact hk

theorem inv_init : Inv contents [] (init contents) where
  owner t := by simp [init, Conn.start, Conn.holds]
  order := rfl
  file := by simp [init, appended]
  knows t := trivial
  sent t a bytes n h := absurd h (by simp)

/-- **One step of any thread.** -/
theorem inv_step (hinv : Inv contents hist s) (hexit : (s.thread t).Exiting)
    (hok : FilesWork s (t, a)) (hs : step s (t, a) = .ok (act, s')) :
    Inv contents (hist ++ [((t, a), act)]) s' := by
  obtain ⟨c, w, hstep, hgrant, rfl⟩ := Pool.step_iff.mp hs
  have hact : act.onFile = true → a ≠ .failed := by
    intro h
    refine hok ?_
    rw [(Conn.step_iff.mp hstep).1]
    exact h
  obtain ⟨hheld, hacq, hrel⟩ := holds_step hexit hstep
  obtain ⟨hmutex, hfree⟩ := grant_fileMutex hgrant
  have hfile := grant_file hact hgrant
  have happ : appended (hist ++ [((t, a), act)]) =
      appended hist ++ act.appended.map fun line => (t, line) := by simp [appended]
  have hlock : locked (hist ++ [((t, a), act)]) =
      locked hist ++ act.line.map fun line => (t, line) := by simp [locked]
  refine ⟨fun u => ?_, ?_, ?_, fun u => ?_, fun u b bytes n hmem => ?_⟩
  · show _ ↔ w.fileMutex = some u
    rw [hmutex]
    exact owner_iff_holds_update hinv.owner hheld hfree hrel u
  · rw [hlock, hinv.order, List.append_assoc,
      inProgress_step hexit hinv.owner hact hstep hgrant, ← List.append_assoc, happ]
  · show w.file = _
    rw [hfile, hinv.file, happ, List.map_append, List.flatten_append, List.append_assoc]
    simp [Function.comp_def]
  · by_cases hu : u = t
    · subst hu
      show (Function.update s.thread u c u).Knows _ _
      rw [Function.update_self]
      exact knows_step hact hstep hgrant (hinv.knows u)
    · show (Function.update s.thread t c u).Knows _ _
      rw [Function.update_of_ne hu]
      exact knows_other hinv.owner hact hstep hgrant hu (hinv.knows u)
  · show bytes <+: w.file
    rw [hfile]
    rcases List.mem_append.mp hmem with hold | hnew
    · exact (hinv.sent u b bytes n hold).trans (List.prefix_append _ _)
    · obtain ⟨⟨rfl, rfl⟩, rfl⟩ := by simpa using hnew
      have hk := hinv.knows u
      simp only [Conn.Knows, Conn.action_send_iff.mp (Conn.step_iff.mp hstep).1] at hk
      rw [hk.1]
      exact List.prefix_append _ _

theorem inv_of_run (h : Run step FilesWork (init contents) hist s) : Inv contents hist s := by
  induction h with
  | start => exact inv_init
  | @call hist s s' e act hrun hok hs ih =>
    exact inv_step ih (exiting_of_run (Pool.run_thread hrun e.1)) hok hs

end Threads

/-! ## Serialisation -/

/-- What the server guarantees at every moment, whatever the threads did so far. -/
structure Serialised (contents : List UInt8) (hist : List ((ℕ × Answer) × Action))
    (s : Threads) : Prop where
  /-- At most one thread holds the mutex. -/
  exclusive : ∀ t u, holding (Pool.ofThread t hist) = true → holding (Pool.ofThread u hist) = true →
    t = u
  /-- A thread that has returned does not hold it. -/
  released : ∀ t, (s.thread t).returned = true → holding (Pool.ofThread t hist) = false
  /-- The file is what it was at first and the lines appended since. -/
  file : s.shared.file = contents ++ ((appended hist).map Prod.snd).flatten
  /-- The lines are appended one by one, in the order in which the mutex was taken for them. -/
  order : locked hist = appended hist ++ s.inProgress ∧ s.inProgress.length ≤ 1
  /-- The lines of a thread are the chunks it received that end in a newline and are no seek
  command, up to the first NUL. -/
  payload : ∀ t, ((locked hist).filter fun p => p.1 = t).map Prod.snd ++ (s.thread t).pending =
    ((received (Pool.ofThread t hist)).filter fun k => IsLine k).map cString
  /-- What a thread is about to send, from the read-back on, is the whole file. -/
  readBack : ∀ t bytes n, (s.thread t).action = some (.send bytes n) →
    bytes = s.shared.file ∧ n = bytes.length
  /-- What was sent at any time is a beginning of the file ever after. -/
  sent : ∀ t a bytes n, ((t, a), .send bytes n) ∈ hist → bytes <+: s.shared.file

/-- The lines of one thread. -/
theorem flatMap_line_ofThread (t : ℕ) (hist : List ((ℕ × Answer) × Action)) :
    (Pool.ofThread t hist).flatMap (fun e => e.2.line) =
      ((locked hist).filter fun p => p.1 = t).map Prod.snd := by
  induction hist with
  | nil => rfl
  | cons e hist ih =>
    have hsplit : Pool.ofThread t (e :: hist) = Pool.ofThread t [e] ++ Pool.ofThread t hist :=
      Pool.ofThread_append t [e] hist
    have hlocked : locked (e :: hist) = (e.2.line.map fun line => (e.1.1, line)) ++ locked hist :=
      List.flatMap_cons
    rw [hsplit, List.flatMap_append, ih, hlocked, List.filter_append, List.map_append]
    congr 1
    by_cases ht : e.1.1 = t
    · simp [Pool.ofThread, ht, List.filter_map, Function.comp_def]
    · simp [Pool.ofThread, ht, List.filter_map, Function.comp_def]

/-- **The server serialises its connections**, for any number of them and in any order of
their steps. -/
theorem server_serialised {contents : List UInt8} {hist : List ((ℕ × Answer) × Action)}
    {s : Threads} (h : Run Threads.step Threads.FilesWork (Threads.init contents) hist s) :
    Serialised contents hist s := by
  have hinv := Threads.inv_of_run h
  have hrun := fun t => Pool.run_thread h t
  have hholds : ∀ t, holding (Pool.ofThread t hist) = (s.thread t).holds :=
    fun t => holding_eq (hrun t)
  refine ⟨fun t u ht hu => ?_, fun t hret => ?_, hinv.file, ⟨hinv.order, ?_⟩, fun t => ?_,
    fun t bytes n hact => ?_, hinv.sent⟩
  · rw [hholds, hinv.owner] at ht hu
    exact Option.some.inj (ht.symm.trans hu)
  · rw [hholds, holds_of_returned hret]
  · rw [Threads.inProgress]
    cases s.shared.fileMutex with
    | none => exact Nat.zero_le _
    | some t =>
      show ((s.thread t).inHand.map _).length ≤ 1
      cases hpc : (s.thread t).pc <;> simp [Conn.inHand, hpc]
  · rw [← flatMap_line_ofThread]
    exact handed_eq (hrun t)
  · have hk := hinv.knows t
    simp only [Conn.Knows, Conn.action_send_iff.mp hact] at hk
    exact ⟨hk.1, by rw [hk.1, hk.2]⟩

/-- Two connections at once: the first appends its line, the second appends its own before
the first reads back, and both lines are in the reply to the first. -/
theorem server_serialised_two :
    ∃ hist s, Run Threads.step Threads.FilesWork (Threads.init [120, 10]) hist s ∧
      (s.thread 0).action = some (.send [120, 10, 97, 10, 98, 10] 6) ∧
      (s.thread 1).action = some .lockReadBack ∧ Serialised [120, 10] hist s := by
  obtain ⟨hist, s, hrun, h0, h1⟩ := exists_run_of_replay Threads.step Threads.FilesWork
    (Threads.init [120, 10])
    [(0, .done), (1, .done), (0, .done), (1, .done), (0, .data [97, 10]), (1, .data [98, 10]),
      (0, .done), (0, .done), (0, .done), (0, .done), (0, .done), (1, .done), (1, .done),
      (1, .done), (1, .done), (1, .done), (0, .done), (0, .position 6), (0, .position 0),
      (0, .done), (0, .data [120, 10, 97, 10, 98, 10])]
    (fun _ s => (s.thread 0).action = some (.send [120, 10, 97, 10, 98, 10] 6) ∧
      (s.thread 1).action = some .lockReadBack) (by decide)
  exact ⟨hist, s, hrun, h0, h1, server_serialised hrun⟩

end Aesd
