import Aesd.Server.Locking
import Aesd.Server.Sweep

/-!
# Which finished connections are reaped

A sweep takes out the connections whose `thread_complete` it sees set.  The flag is set by
the thread itself, as a statement of the exit it takes, and three of the exits do not have
that statement: those after a failed allocation of `file_buffer`, a read-back that is not as
long as the file, and a failed send.  A thread that leaves by one of them returns without
having set the flag, and no sweep will ever join it.

So whether a finished connection is reaped is decided by its calls (`silent`), and this file
carries that through the server: a thread in the server runs `handle_connection`
(`Main.run_threadHist`), a thread that has returned does nothing more, and so the sweep sees
the flag it left.
-/

namespace Aesd

/-! ## The flag of a thread that has returned -/

section Flag

variable {ok : Conn → Answer → Prop} {hist : List (Answer × Action)} {c c' : Conn}
  {a : Answer} {act : Action}

/-- The call fails after which the thread leaves without setting `thread_complete`: the
allocation of `file_buffer`, the read-back, or the send. -/
def silent : Answer × Action → Bool
  | (a, .callocFileBuffer _) => a = .failed
  | (a, .readFile count) => a.bytesRead ≠ count
  | (a, .send _ _) => a = .failed
  | _ => false

/-- `thread_complete` is set, or will be before the thread returns. -/
def Conn.willComplete (c : Conn) : Bool :=
  match c.pc with
  | .leave rest => c.threadComplete || .setComplete ∈ rest
  | _ => true

/-- The flag is set by exits only. -/
def Conn.FlagLate (c : Conn) : Prop := c.threadComplete = true → ∃ rest, c.pc = .leave rest

theorem flagLate_of_run (h : Run Conn.step ok Conn.start hist c) : c.FlagLate := by
  induction h with
  | start => exact fun h => absurd h (by decide)
  | call _ _ hs ih =>
    intro hflag
    cases Conn.moves_of_step hs with
    | noBuffer | noFile | ended | noFileBuffer | readFailed | send | sendFailed | release | unlock
    | setComplete => exact ⟨_, rfl⟩
    | dropped => exact ih hflag
    | _ =>
      obtain ⟨rest, hrest⟩ := ih hflag
      simp_all

/-- **One step decides at most once.** -/
theorem willComplete_step (hlate : c.FlagLate) (hs : c.step a = .ok (act, c')) :
    c'.willComplete = (c.willComplete && !silent (a, act)) := by
  have hearly : (∀ rest, c.pc ≠ .leave rest) → c.threadComplete = false := by
    intro h
    rw [← Bool.not_eq_true]
    intro hflag
    obtain ⟨rest, hrest⟩ := hlate hflag
    exact h rest hrest
  cases Conn.moves_of_step hs with
  | noFileBuffer h ha | sendFailed bytes n h ha =>
    simp [Conn.willComplete, h, silent, ha, hearly, noFileBufferExit, replyFailedExit]
  | readFailed h hread =>
    simp [Conn.willComplete, h, silent, hread, hearly, replyFailedExit]
  | noBuffer | noFile | ended | send =>
    simp [Conn.willComplete, silent, *, noBufferExit, noFileExit, cleanUp]
  | _ => simp [Conn.willComplete, silent, *]

theorem willComplete_of_run (h : Run Conn.step ok Conn.start hist c) :
    c.willComplete = true ↔ ∀ e ∈ hist, silent e = false := by
  induction h with
  | start => simp [Conn.willComplete, Conn.start]
  | call hrun _ hs ih =>
    rw [willComplete_step (flagLate_of_run hrun) hs, Bool.and_eq_true, ih]
    simp [or_imp, forall_and]

/-- **Whether a thread that has returned has set its flag.** -/
theorem threadComplete_iff (h : Run Conn.step ok Conn.start hist c) (hret : c.returned = true) :
    c.threadComplete = true ↔ ∀ e ∈ hist, silent e = false := by
  have hpc : c.pc = .leave [] := by simpa [Conn.returned] using hret
  rw [← willComplete_of_run h, Conn.willComplete, hpc]
  simp

end Flag

/-! ## The threads of the server -/

section Threads

variable {τ α κ : Type}

/-- The step of the thread of node `d`. -/
def threadStep (d : ℕ) : Turn α × Event κ → List (α × κ)
  | (.thread d' a, .thread _ act) => if d' = d then [(a, act)] else []
  | _ => []

/-- What the thread of node `d` did. -/
def threadHist (d : ℕ) (hist : List (Turn α × Event κ)) : List (α × κ) :=
  hist.flatMap (threadStep d)

theorem threadHist_concat (d : ℕ) (hist : List (Turn α × Event κ)) (e : Turn α × Event κ) :
    threadHist d (hist ++ [e]) = threadHist d hist ++ threadStep d e := by
  simp [threadHist]

namespace Main

variable {F : ThreadFn τ α κ} {ok : Main τ → Turn α → Prop} {s s' : Main τ} {turn : Turn α}
  {e : Event κ} {hist : List (Turn α × Event κ)}

/-- The threads and the history. -/
structure Threaded (F : ThreadFn τ α κ) (hist : List (Turn α × Event κ)) (s : Main τ) :
    Prop where
  created : ∀ d, s.thread d ≠ none → d ∈ accepted hist
  uncreated : ∀ d, s.pc = .create d → d ∈ accepted hist ∧ s.thread d = none
  none : ∀ d, s.thread d = none → threadHist d hist = []
  run : ∀ d c, s.thread d = some c → Run F.step (fun _ _ => True) F.start (threadHist d hist) c

theorem threaded_init : Threaded F ([] : List (Turn α × Event κ)) init where
  created d h := absurd rfl h
  uncreated d h := by cases h
  none d _ := rfl
  run d c h := by cases h

/-- A step of `main` that creates no thread. -/
theorem Threaded.of_thread_eq (h : Threaded F hist s) (hthread : s'.thread = s.thread)
    (hpc : ∀ d, s'.pc = .create d → d ∈ accepted hist ++ e.accepts ∧ s.thread d = Option.none)
    (hnone : ∀ d, threadStep d (turn, e) = []) : Threaded F (hist ++ [(turn, e)]) s' where
  created d hd := by
    rw [hthread] at hd
    rw [accepted_concat]
    exact List.mem_append_left _ (h.created d hd)
  uncreated d hd := by
    rw [hthread, accepted_concat]
    exact hpc d hd
  none d hd := by
    rw [hthread] at hd
    rw [threadHist_concat, hnone, List.append_nil]
    exact h.none d hd
  run d c hc := by
    rw [hthread] at hc
    rw [threadHist_concat, hnone, List.append_nil]
    exact h.run d c hc

/-- A step that changes one thread. -/
theorem Threaded.of_thread_update (h : Threaded F hist s) {datap : ℕ} {x : τ}
    (hacc : datap ∈ accepted hist)
    (hthread : s'.thread = Function.update s.thread datap (some x))
    (hpc : ∀ d, s'.pc = .create d → s.pc = .create d ∧ d ≠ datap)
    (hother : ∀ d, d ≠ datap → threadStep d (turn, e) = [])
    (hrun : Run F.step (fun _ _ => True) F.start
      (threadHist datap hist ++ threadStep datap (turn, e)) x) :
    Threaded F (hist ++ [(turn, e)]) s' where
  created d hd := by
    rw [accepted_concat]
    refine List.mem_append_left _ ?_
    by_cases hd' : d = datap
    · rw [hd']
      exact hacc
    · rw [hthread, Function.update_of_ne hd'] at hd
      exact h.created d hd
  uncreated d hd := by
    obtain ⟨hcreate, hd'⟩ := hpc d hd
    obtain ⟨hin, hnone⟩ := h.uncreated d hcreate
    rw [hthread, Function.update_of_ne hd', accepted_concat]
    exact ⟨List.mem_append_left _ hin, hnone⟩
  none d hd := by
    by_cases hd' : d = datap
    · rw [hthread, hd', Function.update_self] at hd
      cases hd
    · rw [hthread, Function.update_of_ne hd'] at hd
      rw [threadHist_concat, hother d hd', List.append_nil]
      exact h.none d hd
  run d c hc := by
    by_cases hd' : d = datap
    · subst hd'
      rw [hthread, Function.update_self] at hc
      obtain rfl := Option.some.inj hc
      rw [threadHist_concat]
      exact hrun
    · rw [hthread, Function.update_of_ne hd'] at hc
      rw [threadHist_concat, hother d hd', List.append_nil]
      exact h.run d c hc

theorem Threaded.step (h : Threaded F hist s) (halloc : s.Allocated (accepted hist))
    (hs : Moves F s turn e s') : Threaded F (hist ++ [(turn, e)]) s' := by
  cases hs with
  | create result datap hpc =>
    obtain ⟨hacc, hnone⟩ := h.uncreated datap hpc
    refine h.of_thread_update hacc rfl (fun d hd => by cases hd) (fun d _ => rfl) ?_
    rw [h.none datap hnone]
    exact .start
  | thread datap a act c c' hc hstep =>
    refine h.of_thread_update (h.created datap (by simp [hc])) rfl (fun d hd => ⟨hd, ?_⟩)
      (fun d hd => if_neg (Ne.symm hd)) ?_
    · rintro rfl
      rw [(h.uncreated d hd).2] at hc
      cases hc
    · rw [threadStep, if_pos rfl]
      exact (h.run datap c hc).call trivial hstep
  | accept datap fd hpc =>
    refine h.of_thread_eq rfl ?_ fun d => rfl
    rintro d ⟨⟩
    refine ⟨by simp, ?_⟩
    by_contra hne
    exact (halloc.fresh datap hpc).2 (h.created datap hne)
  | mallocFailed hpc =>
    exact h.of_thread_eq rfl (fun d hd => by simpa using h.uncreated d hd) fun d => rfl
  | signal => exact h.of_thread_eq rfl (fun d hd => by simpa using h.uncreated d hd) fun d => rfl
  | finish result cleanup hpc =>
    refine h.of_thread_eq rfl (fun d hd => ?_) fun d => rfl
    cases cleanup <;> cases hd
  | _ => exact h.of_thread_eq rfl (fun d hd => by cases hd) fun d => rfl

theorem threaded_of_run (h : Run (step F) ok init hist s) : Threaded F hist s := by
  induction h with
  | start => exact threaded_init
  | call hrun _ hs ih =>
    obtain ⟨v, hgood⟩ := good_of_run hrun
    exact ih.step hgood.allocated (moves_of_step hs)

/-- **A thread of the server runs its function**, and what it did is in the history. -/
theorem run_threadHist (h : Run (step F) ok init hist s) {d : ℕ} {c : τ}
    (hc : s.thread d = some c) :
    Run F.step (fun _ _ => True) F.start (threadHist d hist) c := (threaded_of_run h).run d c hc

/-- A thread that does nothing more stays as it is. -/
theorem thread_of_final {d : ℕ} {c : τ} (hfinal : ∀ a r, F.step c a ≠ .ok r)
    (hc : s.thread d = some c) (hcreate : s.pc ≠ .create d) (hs : Moves F s turn e s') :
    s'.thread d = some c := by
  cases hs with
  | create result datap hpc =>
    have hd : d ≠ datap := by
      rintro rfl
      exact hcreate hpc
    show Function.update s.thread datap (some F.start) d = some c
    rw [Function.update_of_ne hd, hc]
  | thread datap a act x x' hx hstep =>
    have hd : d ≠ datap := by
      rintro rfl
      obtain rfl := Option.some.inj (hc.symm.trans hx)
      exact hfinal a _ hstep
    show Function.update s.thread datap (some x') d = some c
    rw [Function.update_of_ne hd, hc]
  | _ => exact hc

/-- During a sweep, such a thread is seen as it is. -/
theorem saws_of_final {sweep : List (Turn α × Event κ)} {d : ℕ} {c : τ}
    (hfinal : ∀ a r, F.step c a ≠ .ok r) (hc : s.thread d = some c)
    (hrun : Run (step F) (fun s _ => s.pc.inSweep = true) s sweep s') :
    s'.thread d = some c ∧ ∀ b, (d, b) ∈ saws sweep → b = F.threadComplete c := by
  induction hrun with
  | start => exact ⟨hc, by simp [saws]⟩
  | @call sweep s₁ s₂ turn e _ hin hs ih =>
    obtain ⟨hthread, hsaw⟩ := ih
    have hcreate : s₁.pc ≠ .create d := by
      intro hpc
      rw [hpc] at hin
      cases hin
    refine ⟨thread_of_final hfinal hthread hcreate (moves_of_step hs), fun b hb => ?_⟩
    rw [saws_concat] at hb
    rcases List.mem_append.mp hb with hb | hb
    · exact hsaw b hb
    · cases moves_of_step hs with
      | keep result elem tdatap hpc hflag | reap result elem tdatap hpc hflag =>
        obtain ⟨rfl, rfl⟩ : d = elem ∧ b = _ := by simpa using hb
        rw [hthread] at hflag
        exact hflag.symm
      | _ => exact absurd hb (by simp)

end Main
end Threads

/-! ## What a sweep leaves behind -/

theorem mem_keptOf {l : List (ℕ × Bool)} {d : ℕ} : d ∈ keptOf l ↔ (d, false) ∈ l := by
  simp [keptOf]

/-- A thread that has returned does nothing more. -/
theorem step_of_returned {c : Conn} (h : c.returned = true) (a : Answer) (r : Action × Conn) :
    handleConnection.step c a ≠ .ok r := by
  intro hs
  have hact := (Conn.step_iff.mp hs).1
  rw [Conn.action_eq_none_iff.mpr h] at hact
  cases hact

/-- **When the finished connections are reaped.**  A thread that returns has set its flag if
and only if none of its calls failed silently; and a sweep leaves no connection behind whose
thread had returned before it began if and only if that holds of all of them. -/
theorem reaped_iff {hist : List (Turn Answer × Event Action)} {s : Main Conn}
    (hrun : Run (Main.step handleConnection) (fun _ _ => True) Main.init hist s) :
    (∀ calls c, Run Conn.step (fun _ _ => True) Conn.start calls c → c.returned = true →
      (c.threadComplete = true ↔ ∀ e ∈ calls, silent e = false)) ∧
    ∀ sweep s' l l', s.pc = .visit false s.first →
      Run (Main.step handleConnection) (fun s _ => s.pc.inSweep = true) s sweep s' →
      s'.pc = .malloc → Links s.next s.first l → Links s'.next s'.first l' →
        ((∀ d c, s.thread d = some c → c.returned = true → d ∉ l') ↔
          ∀ d ∈ l, ∀ c, s.thread d = some c → c.returned = true →
            ∀ e ∈ threadHist d hist, silent e = false) := by
  refine ⟨fun calls c h hret => threadComplete_iff h hret, ?_⟩
  intro sweep s' l l' hstart hsweep hend hl hl'
  obtain ⟨v, hgood⟩ := Main.good_of_run hrun
  obtain ⟨v', hgood', hswept⟩ := Main.swept_of_run hgood hstart hsweep
  have hat' := hgood'.sees.at_pc
  rw [hend] at hat'
  obtain ⟨m, rfl⟩ := hat'
  obtain ⟨hall, rfl, -⟩ := hswept
  rw [hgood.sees.links.unique hl] at hall
  obtain rfl := hgood'.sees.links.unique hl'
  have hseen : ∀ d c, s.thread d = some c → c.returned = true →
      ∀ b, (d, b) ∈ saws sweep → b = c.threadComplete := fun d c hc hret =>
    (Main.saws_of_final (step_of_returned hret) hc hsweep).2
  have hflag : ∀ d c, s.thread d = some c → c.returned = true →
      (c.threadComplete = true ↔ ∀ e ∈ threadHist d hist, silent e = false) := fun d c hc hret =>
    threadComplete_iff (Main.run_threadHist hrun hc) hret
  constructor
  · intro hreaped d hd c hc hret
    rw [← hflag d c hc hret]
    rw [← hall] at hd
    obtain ⟨⟨x, b⟩, hmem, rfl⟩ := List.mem_map.mp hd
    have hb := hseen x c hc hret b hmem
    cases b with
    | true => exact hb.symm
    | false => exact absurd (mem_keptOf.mpr hmem) (hreaped x c hc hret)
  · intro hfine d c hc hret hkept
    have hmem := mem_keptOf.mp hkept
    have hd : d ∈ l := by
      rw [← hall]
      exact List.mem_map.mpr ⟨_, hmem, rfl⟩
    have htrue := (hflag d c hc hret).mpr (hfine d hd c hc hret)
    rw [← hseen d c hc hret false hmem] at htrue
    cases htrue

/-- The turns of `main` from the head of the loop to the sweep, for a new node and socket. -/
def acceptTurns (datap fd : ℕ) : List (Turn Answer) :=
  [.main (some datap), .main (some fd), .main none, .main none, .main none]

/-- Turns of `main` at which nothing is asked of the outside. -/
def mainTurns (n : ℕ) : List (Turn Answer) := List.replicate n (.main none)

/-- The turns of the thread of node `datap`, with what its calls return. -/
def threadTurns (datap : ℕ) (answers : List Answer) : List (Turn Answer) :=
  answers.map (.thread datap)

/-- A connection whose buffer could not be allocated has set its flag, and the next sweep
takes it out. -/
theorem reaped_iff_no_buffer :
    ∃ hist s sweep s', Run (Main.step handleConnection) (fun _ _ => True) Main.init hist s ∧
      s.pc = .visit false s.first ∧ Links s.next s.first [8, 7] ∧
      (s.thread 7).any Conn.returned = true ∧
      Run (Main.step handleConnection) (fun s _ => s.pc.inSweep = true) s sweep s' ∧
      s'.pc = .malloc ∧ Links s'.next s'.first [8] ∧
      ∀ d ∈ [8, 7], ∀ c, s.thread d = some c → c.returned = true →
        ∀ e ∈ threadHist d hist, silent e = false := by
  obtain ⟨hist, s, hrun, hpc, hl, hret, h8, hsweep⟩ :=
    exists_run_of_replay (Main.step handleConnection) (fun _ _ => True) Main.init
      (acceptTurns 7 4 ++ mainTurns 3 ++ threadTurns 7 [.failed, .done, .done] ++
        acceptTurns 8 5)
      (fun _ s => s.pc = .visit false s.first ∧ Links s.next s.first [8, 7] ∧
        (s.thread 7).any Conn.returned = true ∧ (s.thread 8).any Conn.returned = false ∧
        (replay (Main.step handleConnection) (fun s _ => s.pc.inSweep = true) s
          (mainTurns 7)).any
          (fun q => decide (q.2.pc = .malloc ∧ Links q.2.next q.2.first [8])) = true)
      (by decide)
  obtain ⟨sweep, s', hrun', hend, hl'⟩ := exists_run_of_replay (Main.step handleConnection)
    (fun s _ => s.pc.inSweep = true) s _ (fun _ s => s.pc = .malloc ∧ Links s.next s.first [8])
    hsweep
  refine ⟨hist, s, sweep, s', hrun, hpc, hl, hret, hrun', hend, hl', ?_⟩
  refine ((reaped_iff hrun).2 sweep s' _ _ hpc hrun' hend hl hl').mp fun d c hc hc' hd => ?_
  obtain rfl := List.mem_singleton.mp hd
  rw [hc, Option.any_some, hc'] at h8
  cases h8

/-- **A connection that is never reaped**: its client is gone when the reply is sent.  The
thread returns, and the sweep after the next accept leaves it in the list. -/
theorem send_failed_not_reaped :
    ∃ hist s sweep s', Run (Main.step handleConnection) (fun _ _ => True) Main.init hist s ∧
      s.pc = .visit false s.first ∧ (s.thread 7).any Conn.returned = true ∧
      (s.thread 7).any Conn.threadComplete = false ∧
      Run (Main.step handleConnection) (fun s _ => s.pc.inSweep = true) s sweep s' ∧
      s'.pc = .malloc ∧ Links s'.next s'.first [8, 7] := by
  obtain ⟨hist, s, hrun, hpc, hret, hflag, hsweep⟩ :=
    exists_run_of_replay (Main.step handleConnection) (fun _ _ => True) Main.init
      (acceptTurns 7 4 ++ mainTurns 3 ++
        threadTurns 7 [.done, .done, .data [97, 10], .done, .done, .done, .done, .done, .done,
          .position 2, .position 0, .done, .data [97, 10], .failed, .done, .done, .done, .done,
          .done] ++
        acceptTurns 8 5)
      (fun _ s => s.pc = .visit false s.first ∧ (s.thread 7).any Conn.returned = true ∧
        (s.thread 7).any Conn.threadComplete = false ∧
        (replay (Main.step handleConnection) (fun s _ => s.pc.inSweep = true) s
          (mainTurns 5)).any
          (fun q => decide (q.2.pc = .malloc ∧ Links q.2.next q.2.first [8, 7])) = true)
      (by decide)
  obtain ⟨sweep, s', hrun', hend, hl'⟩ := exists_run_of_replay (Main.step handleConnection)
    (fun s _ => s.pc.inSweep = true) s _
    (fun _ s => s.pc = .malloc ∧ Links s.next s.first [8, 7]) hsweep
  exact ⟨hist, s, sweep, s', hrun, hpc, hret, hflag, hrun', hend, hl'⟩

end Aesd
