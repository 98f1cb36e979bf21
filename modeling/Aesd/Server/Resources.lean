import Aesd.Server.Reaping

/-!
# What becomes of the resources of a connection

A connection has a list node and a socket, which `main` acquires, and a receive buffer, a
descriptor and a file buffer, which its thread does.  The thread releases its own and the
socket on the way out; nobody releases the node.  A sweep joins the thread and unlinks the
node, and the only `free` of a node is on the path where `accept` failed.

In the thread, six ways out meet different sets of acquisitions (`Way`).  Five of them
release what there is.  The sixth is the end of the receive loop when no line was received:
the clean-up frees `file_buffer`, to which nothing was assigned.
-/

namespace Aesd

/-! ## Books of one thread -/

section Books

variable {ok : Conn → Answer → Prop} {hist : List (Answer × Action)} {c c' : Conn}
  {a : Answer} {act : Action}

/-- What a call acquires. -/
def acquires : Answer × Action → List Resource
  | (a, .callocBuffer) => if a = .failed then [] else [.buffer]
  | (a, .openFile) => if a = .failed then [] else [.fileFd]
  | (a, .callocFileBuffer _) => if a = .failed then [] else [.fileBuffer]
  | _ => []

/-- The resource `free` or `close` is applied to, with what the variable holds. -/
def Action.releases : Action → List (Resource × Var)
  | .release r v => [(r, v)]
  | _ => []

/-- What was acquired for a connection: its socket, and what its thread acquired. -/
def acquisitions (hist : List (Answer × Action)) : List Resource :=
  .acceptedsocket :: hist.flatMap acquires

def releases (hist : List (Answer × Action)) : List (Resource × Var) :=
  hist.flatMap fun e => e.2.releases

/-- The thread releases what was acquired, each thing once, and nothing else. -/
def ThreadReleases (hist : List (Answer × Action)) : Prop :=
  (∀ p ∈ releases hist, p.2 = .acquired) ∧
    ((releases hist).map Prod.fst).Perm (acquisitions hist)

instance (hist : List (Answer × Action)) : Decidable (ThreadReleases hist) :=
  inferInstanceAs (Decidable (_ ∧ _))

/-- A call after which the thread will not run into the clean-up without a file buffer: the
buffer cannot be allocated, the file cannot be opened, or a line is received. -/
def sparesCleanUp : Answer × Action → Bool
  | (a, .callocBuffer) => a = .failed
  | (a, .openFile) => a = .failed
  | (a, .receive) => IsLine a.bytes
  | _ => false

/-- The ways out of `handle_connection`. -/
inductive Way where
  | noBuffer
  | noFile
  /-- The receive loop ended without a line. -/
  | ended
  | noFileBuffer
  | replyFailed
  | sent
  deriving DecidableEq, Repr

/-- What the variables `buffer`, `file_fd` and `file_buffer` hold. -/
structure Holding where
  buffer : Var
  fileFd : Var
  fileBuffer : Var
  deriving DecidableEq, Repr

namespace Holding

/-- What the variable for a resource holds. -/
def var (h : Holding) : Resource → Var
  | .buffer => h.buffer
  | .fileBuffer => h.fileBuffer
  | .acceptedsocket => .acquired
  | .fileFd => h.fileFd

/-- What was acquired, in order. -/
def acquired (h : Holding) : List Resource :=
  [.acceptedsocket, .buffer, .fileFd, .fileBuffer].filter fun r => h.var r = .acquired

end Holding

def Conn.holding (c : Conn) : Holding := ⟨c.buffer, c.fileFd, c.fileBuffer⟩

theorem Conn.var_eq (c : Conn) (r : Resource) : c.var r = c.holding.var r := by
  cases r <;> rfl

namespace Way

/-- The statements on this way. -/
def exit : Way → List Exit
  | .noBuffer => noBufferExit
  | .noFile => noFileExit
  | .ended => cleanUp
  | .noFileBuffer => noFileBufferExit
  | .replyFailed => replyFailedExit
  | .sent => .unlock :: cleanUp

/-- What the variables hold on this way. -/
def holding : Way → Holding
  | .noBuffer => ⟨.failed, .unassigned, .unassigned⟩
  | .noFile => ⟨.acquired, .failed, .unassigned⟩
  | .ended => ⟨.acquired, .acquired, .unassigned⟩
  | .noFileBuffer => ⟨.acquired, .acquired, .failed⟩
  | .replyFailed | .sent => ⟨.acquired, .acquired, .acquired⟩

end Way

/-- What the variables hold before the thread is on its way out. -/
def Pc.holding : Pc → Holding
  | .callocBuffer => ⟨.unassigned, .unassigned, .unassigned⟩
  | .openFile => ⟨.acquired, .unassigned, .unassigned⟩
  | .readFile | .send _ _ => ⟨.acquired, .acquired, .acquired⟩
  | _ => ⟨.acquired, .acquired, .unassigned⟩

/-- A line was received. -/
def Pc.hasLine : Pc → Bool
  | .callocBuffer | .openFile | .receive | .ioctl _ => false
  | _ => true

/-- The resource a statement of an exit releases. -/
def Exit.resources : Exit → List Resource
  | .release r => [r]
  | _ => []

/-- The books of a thread at work: nothing is released. -/
structure Conn.Working (hist : List (Answer × Action)) (c : Conn) : Prop where
  holding : c.holding = c.pc.holding
  acquired : acquisitions hist = c.pc.holding.acquired
  released : releases hist = []
  spared : (∃ e ∈ hist, sparesCleanUp e = true) ↔ c.pc.hasLine = true

/-- The books of a thread on its way out, with `rest` still to do. -/
structure Conn.Leaving (hist : List (Answer × Action)) (c : Conn) (rest : List Exit) : Prop where
  way : ∃ (way : Way) (finished : List Exit), way.exit = finished ++ rest ∧
    c.holding = way.holding ∧ acquisitions hist = way.holding.acquired ∧
    releases hist = (finished.flatMap Exit.resources).map (fun r => (r, way.holding.var r)) ∧
    ((∃ e ∈ hist, sparesCleanUp e = true) ↔ way ≠ .ended)

/-- The books of a thread. -/
def Conn.Books (hist : List (Answer × Action)) (c : Conn) : Prop :=
  match c.pc with
  | .leave rest => c.Leaving hist rest
  | _ => c.Working hist

@[simp] theorem acquisitions_concat (e : Answer × Action) :
    acquisitions (hist ++ [e]) = acquisitions hist ++ acquires e := by
  simp [acquisitions]

@[simp] theorem releases_concat (e : Answer × Action) :
    releases (hist ++ [e]) = releases hist ++ e.2.releases := by
  simp [releases]

theorem spares_concat (e : Answer × Action) :
    (∃ x ∈ hist ++ [e], sparesCleanUp x = true) ↔
      (∃ x ∈ hist, sparesCleanUp x = true) ∨ sparesCleanUp e = true := by
  simp [or_and_right, exists_or]

/-- A step of a thread that stays at work. -/
theorem Conn.Working.next (hw : c.Working hist) (hhold : c'.holding = c'.pc.holding)
    (hacq : c.pc.holding.acquired ++ acquires (a, act) = c'.pc.holding.acquired)
    (hrel : act.releases = [])
    (hline : (c.pc.hasLine = true ∨ sparesCleanUp (a, act) = true) ↔ c'.pc.hasLine = true) :
    c'.Working (hist ++ [(a, act)]) where
  holding := hhold
  acquired := by rw [acquisitions_concat, hw.acquired, hacq]
  released := by rw [releases_concat, hw.released, hrel, List.nil_append]
  spared := by rw [spares_concat, hw.spared, hline]

/-- A step on which a thread turns to one of the ways out. -/
theorem Conn.Working.leave (hw : c.Working hist) (way : Way) (hhold : c'.holding = way.holding)
    (hacq : c.pc.holding.acquired ++ acquires (a, act) = way.holding.acquired)
    (hrel : act.releases = [])
    (hline : (c.pc.hasLine = true ∨ sparesCleanUp (a, act) = true) ↔ way ≠ .ended) :
    c'.Leaving (hist ++ [(a, act)]) way.exit where
  way := by
    refine ⟨way, [], rfl, hhold, ?_, ?_, ?_⟩
    · rw [acquisitions_concat, hw.acquired, hacq]
    · rw [releases_concat, hw.released, hrel]
      rfl
    · rw [spares_concat, hw.spared, hline]

/-- A step on the way out. -/
theorem Conn.Leaving.next {e : Exit} {rest : List Exit} (hl : c.Leaving hist (e :: rest))
    (hact : act = c.exitAction e) (hhold : c'.holding = c.holding) :
    c'.Leaving (hist ++ [(a, act)]) rest where
  way := by
    obtain ⟨way, finished, hexit, hvars, hacq, hrel, hspared⟩ := hl.way
    have hnone : acquires (a, act) = [] ∧ sparesCleanUp (a, act) = false := by
      rw [hact]
      cases e <;> exact ⟨rfl, rfl⟩
    have hthis : act.releases = e.resources.map fun r => (r, way.holding.var r) := by
      rw [hact, ← hvars]
      cases e with
      | release r => exact congrArg (fun v => [(r, v)]) (c.var_eq r)
      | unlock | setComplete => rfl
    refine ⟨way, finished ++ [e], ?_, hhold.trans hvars, ?_, ?_, ?_⟩
    · rw [hexit, List.append_assoc]
      rfl
    · rw [acquisitions_concat, hacq, hnone.1, List.append_nil]
    · rw [releases_concat, hrel, hthis, List.flatMap_append, List.map_append]
      simp
    · rw [spares_concat, hnone.2, ← hspared]
      simp

theorem not_isLine_nil : ¬ IsLine [] := by decide

/-- The books of a thread that stands before the exits. -/
theorem Conn.Books.working (hb : c.Books hist) {pc : Pc} (h : c.pc = pc)
    (hpc : ∀ rest, pc ≠ .leave rest) : c.Working hist ∧ c.holding = pc.holding := by
  have hw : c.Working hist := by
    cases pc with
    | leave rest => exact absurd rfl (hpc rest)
    | _ => simpa only [Conn.Books, h] using hb
  refine ⟨hw, ?_⟩
  rw [hw.holding, h]

/-- The books of a thread on its way out. -/
theorem Conn.Books.leaving (hb : c.Books hist) {rest : List Exit} (h : c.pc = .leave rest) :
    c.Leaving hist rest := by
  simpa only [Conn.Books, h] using hb

/-- **The books are kept.** -/
theorem books_step (hb : c.Books hist) (hs : c.step a = .ok (act, c')) :
    c'.Books (hist ++ [(a, act)]) := by
  cases Conn.moves_of_step hs with
  | release r rest h => exact (hb.leaving h).next (e := .release r) rfl rfl
  | unlock rest h => exact (hb.leaving h).next (e := .unlock) rfl rfl
  | setComplete rest h => exact (hb.leaving h).next (e := .setComplete) rfl rfl
  | noBuffer h ha =>
    obtain ⟨hw, hhold⟩ := hb.working h (by simp)
    refine hw.leave .noBuffer ?_ (by simp [h, acquires, ha]; rfl) rfl
      (by simp [h, Pc.hasLine, sparesCleanUp, ha])
    simp_all [Conn.holding, Pc.holding, Way.holding]
  | noFile h ha =>
    obtain ⟨hw, hhold⟩ := hb.working h (by simp)
    refine hw.leave .noFile ?_ (by simp [h, acquires, ha]; rfl) rfl
      (by simp [h, Pc.hasLine, sparesCleanUp, ha])
    simp_all [Conn.holding, Pc.holding, Way.holding]
  | ended h ha =>
    obtain ⟨hw, hhold⟩ := hb.working h (by simp)
    refine hw.leave .ended ?_ (by simp [h, acquires]; rfl) rfl
      (by simp [h, Pc.hasLine, sparesCleanUp, ha, not_isLine_nil])
    simp_all [Conn.holding, Pc.holding, Way.holding]
  | noFileBuffer h ha =>
    obtain ⟨hw, hhold⟩ := hb.working h (by simp)
    refine hw.leave .noFileBuffer ?_ (by simp [h, acquires, ha]; rfl) rfl
      (by simp [h, Pc.hasLine])
    simp_all [Conn.holding, Pc.holding, Way.holding]
  | readFailed h | sendFailed bytes n h =>
    obtain ⟨hw, hhold⟩ := hb.working h (by simp)
    refine hw.leave .replyFailed ?_ (by simp [h, acquires]; rfl) rfl (by simp [h, Pc.hasLine])
    simp_all [Conn.holding, Pc.holding, Way.holding]
  | send bytes n h =>
    obtain ⟨hw, hhold⟩ := hb.working h (by simp)
    refine hw.leave .sent ?_ (by simp [h, acquires]; rfl) rfl (by simp [h, Pc.hasLine])
    simp_all [Conn.holding, Pc.holding, Way.holding]
  | callocBuffer h ha | openFile h ha | callocFileBuffer h ha =>
    obtain ⟨hw, hhold⟩ := hb.working h (by simp)
    refine hw.next ?_ (by simp [h, acquires, ha]; rfl) rfl
      (by simp [h, Pc.hasLine, sparesCleanUp, ha])
    simp_all [Conn.holding, Pc.holding]
  | seek h seekto hseek =>
    obtain ⟨hw, hhold⟩ := hb.working h (by simp)
    have hnot : ¬ IsLine a.bytes := fun hl => hl.1 hseek
    refine hw.next ?_ (by simp [h, acquires]; rfl) rfl
      (by simp [h, Pc.hasLine, sparesCleanUp, hnot])
    simp_all [Conn.holding, Pc.holding]
  | line h hseek hlast =>
    obtain ⟨hw, hhold⟩ := hb.working h (by simp)
    have hline : IsLine a.bytes := ⟨hseek, hlast⟩
    refine hw.next ?_ (by simp [h, acquires]; rfl) rfl
      (by simp [h, Pc.hasLine, sparesCleanUp, hline])
    simp_all [Conn.holding, Pc.holding]
  | dropped h hne hnot =>
    obtain ⟨hw, -⟩ := hb.working h (by simp)
    have hline : ¬ IsLine a.bytes := fun hl => hnot.elim hl.1 (· hl.2)
    have hw' : c.Working (hist ++ [(a, .receive)]) :=
      hw.next hw.holding (by simp [acquires]) rfl (by simp [sparesCleanUp, hline])
    simpa only [Conn.Books, h] using hw'
  | ioctl _ h | lockAppend _ h | fopen _ h | fopenFailed _ h | fputs _ h | fputsFailed _ h
  | fclose _ h | unlockAppend h | lockReadBack h | lseekEnd h | lseekSet h | readFile h =>
    obtain ⟨hw, hhold⟩ := hb.working h (by simp)
    refine hw.next ?_ (by simp [h, acquires]; rfl) rfl (by simp [h, Pc.hasLine, sparesCleanUp])
    simp_all [Conn.holding, Pc.holding]

theorem books_of_run (h : Run Conn.step ok Conn.start hist c) : c.Books hist := by
  induction h with
  | start => exact ⟨rfl, rfl, rfl, by simp [Conn.start, Pc.hasLine]⟩
  | call _ _ hs ih => exact books_step ih hs

/-- **When a thread releases what was acquired**: unless the receive loop ends without a
line. -/
theorem threadReleases_iff (h : Run Conn.step ok Conn.start hist c) (hret : c.returned = true) :
    ThreadReleases hist ↔ ∃ e ∈ hist, sparesCleanUp e = true := by
  have hpc : c.pc = .leave [] := by simpa [Conn.returned] using hret
  obtain ⟨way, finished, hexit, -, hacq, hrel, hspared⟩ := ((books_of_run h).leaving hpc).way
  rw [List.append_nil] at hexit
  rw [hspared, ThreadReleases, hacq, hrel, ← hexit]
  cases way <;> decide

end Books

/-! ## The list nodes -/

section Nodes

variable {τ α κ : Type}

/-- The node that was allocated. -/
@[simp] def Event.mallocs : Event κ → List ℕ
  | .malloc (some p) => [p]
  | _ => []

/-- The node that was freed. -/
@[simp] def Event.frees : Event κ → List ℕ
  | .free (some p) => [p]
  | _ => []

def mallocs (hist : List (Turn α × Event κ)) : List ℕ := hist.flatMap fun e => e.2.mallocs

def frees (hist : List (Turn α × Event κ)) : List ℕ := hist.flatMap fun e => e.2.frees

namespace Main

variable {F : ThreadFn τ α κ} {ok : Main τ → Turn α → Prop} {s s' : Main τ} {turn : Turn α}
  {e : Event κ} {hist : List (Turn α × Event κ)}

/-- What is allocated after a step. -/
theorem count_live_step (halloc : s.Allocated (accepted hist)) (hs : Moves F s turn e s') (d : ℕ) :
    s.live.count d + e.mallocs.count d = s'.live.count d + e.frees.count d := by
  cases hs with
  | malloc p h hp => simp [List.count_cons, add_comm]
  | refused datap h hsig =>
    obtain ⟨hin, -⟩ := halloc.fresh datap h
    have hperm := (List.perm_cons_erase hin).count_eq d
    rw [List.count_cons] at hperm
    simp only [Event.mallocs, Event.frees, List.count_nil, List.count_singleton]
    omega
  | begin result cleanup h hp => cases result <;> simp [List.count_cons, add_comm]
  | _ => simp

/-- **A node is allocated once more than it was freed, or as often.** -/
theorem count_mallocs (h : Run (step F) ok init hist s) (d : ℕ) :
    (mallocs hist).count d = (frees hist).count d + s.live.count d := by
  induction h with
  | start => rfl
  | call hrun _ hs ih =>
    obtain ⟨v, hgood⟩ := good_of_run hrun
    have hone := count_live_step hgood.allocated (moves_of_step hs) d
    simp only [mallocs, frees, List.flatMap_append, List.count_append, List.flatMap_singleton]
      at ih ⊢
    omega

/-- A thread that was joined has returned, and stays that way. -/
theorem returned_of_joined (hfinal : ∀ c a r, F.returned c = true → F.step c a ≠ .ok r)
    (h : Run (step F) ok init hist s) {d : ℕ} (hd : d ∈ joined hist) :
    ∃ c, s.thread d = some c ∧ F.returned c = true := by
  induction h with
  | start => cases hd
  | @call hist s s' turn e hrun _ hs ih =>
    rw [joined_concat] at hd
    rcases List.mem_append.mp hd with hd | hd
    · obtain ⟨c, hc, hret⟩ := ih hd
      have hcreate : s.pc ≠ .create d := by
        intro hpc
        rw [((threaded_of_run hrun).uncreated d hpc).2] at hc
        cases hc
      exact ⟨c, thread_of_final (fun a r => hfinal c a r hret) hc hcreate (moves_of_step hs), hret⟩
    · cases moves_of_step hs with
      | join result cleanup elem tdatap hpc hret =>
        obtain rfl := List.mem_singleton.mp hd
        exact (Option.any_eq_true _ _).mp hret
      | _ => exact absurd hd (by simp)

end Main
end Nodes

/-! ## A connection from accept to join -/

/-- What was acquired for the connection of node `d` is released once: the node, and what
its thread has to release. -/
structure ReleasedOnce (d : ℕ) (hist : List (Turn Answer × Event Action)) : Prop where
  node : (frees hist).count d = (mallocs hist).count d
  thread : ThreadReleases (threadHist d hist)

/-- **No connection releases all it acquired.**  The node of a connection that was accepted
and joined is still allocated.  Of the rest, all is released once and nothing else is
released, if and only if the receive loop did not end without a line. -/
theorem not_releasedOnce {hist : List (Turn Answer × Event Action)} {s : Main Conn}
    (h : Run (Main.step handleConnection) (fun _ _ => True) Main.init hist s) {d : ℕ}
    (hd : d ∈ joined hist) :
    ¬ ReleasedOnce d hist ∧
      (ThreadReleases (threadHist d hist) ↔
        ∃ e ∈ threadHist d hist, sparesCleanUp e = true) := by
  obtain ⟨v, hgood⟩ := Main.good_of_run h
  constructor
  · intro hreleased
    have hcount := Main.count_mallocs h d
    have hlive : 0 < s.live.count d :=
      List.count_pos_iff.mpr (hgood.allocated.live d (hgood.inv.subset hd))
    have hnode := hreleased.node
    omega
  · obtain ⟨c, hc, hret⟩ :=
      Main.returned_of_joined (fun c a r hret => step_of_returned hret a r) h hd
    exact threadReleases_iff (Main.run_threadHist h hc) hret

/-- A connection that is served, joined by the sweep after the next accept, and whose thread
released all it had. -/
theorem not_releasedOnce_served :
    ∃ hist s, Run (Main.step handleConnection) (fun _ _ => True) Main.init hist s ∧
      joined hist = [7] ∧ ThreadReleases (threadHist 7 hist) ∧ ¬ ReleasedOnce 7 hist := by
  obtain ⟨hist, s, hrun, hjoined, hspared⟩ :=
    exists_run_of_replay (Main.step handleConnection) (fun _ _ => True) Main.init
      (acceptTurns 7 4 ++ mainTurns 3 ++
        threadTurns 7 [.done, .done, .data [97, 10], .done, .done, .done, .done, .done, .done,
          .position 2, .position 0, .done, .data [97, 10], .done, .done, .done, .done, .done,
          .done, .done] ++
        acceptTurns 8 5 ++ mainTurns 7)
      (fun hist _ => joined hist = [7] ∧ ∃ e ∈ threadHist 7 hist, sparesCleanUp e = true)
      (by decide)
  obtain ⟨hnot, hiff⟩ := not_releasedOnce hrun (d := 7) (by rw [hjoined]; decide)
  exact ⟨hist, s, hrun, hjoined, hiff.mpr hspared, hnot⟩

/-- A client that connects and sends nothing: its node is not freed, and `free` is applied
to a `file_buffer` that nothing was assigned to. -/
theorem unassigned_fileBuffer_freed :
    ∃ hist s, Run (Main.step handleConnection) (fun _ _ => True) Main.init hist s ∧
      joined hist = [7] ∧ (mallocs hist).count 7 = 1 ∧ (frees hist).count 7 = 0 ∧
      (.done, .release .fileBuffer .unassigned) ∈ threadHist 7 hist ∧ ¬ ReleasedOnce 7 hist := by
  obtain ⟨hist, s, hrun, hjoined, hmalloc, hfree, hmem⟩ :=
    exists_run_of_replay (Main.step handleConnection) (fun _ _ => True) Main.init
      (acceptTurns 7 4 ++ mainTurns 3 ++
        threadTurns 7 [.done, .done, .data [], .done, .done, .done, .done, .done] ++
        acceptTurns 8 5 ++ mainTurns 7)
      (fun hist _ => joined hist = [7] ∧ (mallocs hist).count 7 = 1 ∧ (frees hist).count 7 = 0 ∧
        (.done, .release .fileBuffer .unassigned) ∈ threadHist 7 hist) (by decide)
  refine ⟨hist, s, hrun, hjoined, hmalloc, hfree, hmem, fun hreleased => ?_⟩
  have hnode := hreleased.node
  omega

end Aesd
