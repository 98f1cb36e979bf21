import Aesd.Server.Progress
import Aesd.Server.Reaping
import Aesd.Server.Resources
import Aesd.Server.Serial

/-!
# The whole process

`main` with its list, the connection threads, and the file and the mutex that they share.
A step of the process is a step of `main` or of a thread, and a step of a thread has to be
one that the file and the mutex accept.  So a run of the process is a run of `main`
(`Process.run_main`), and what is known of the list holds here.

What is new is what depends on all of it.  When `accept` has failed after a signal, `main`
joins one thread after the other, and each may be waiting for the mutex that another one
has.  That this ends is `shutdown_ends`: the process does not stop before it has exited,
and does not go on for longer than its clients make it.
-/

namespace Aesd

/-- The process. -/
structure Process where
  /-- `main`, and the threads. -/
  main : Main Conn
  /-- What the threads share. -/
  shared : Shared

namespace Process

/-- The process before the accept loop. -/
def init (contents : List UInt8) : Process := ⟨Main.init, ⟨contents, none, fun _ => 0⟩⟩

/-- What the file and the mutex make of a step. -/
def grant (w : Shared) : Turn Answer → Event Action → Option Shared
  | .thread datap a, .thread _ act => w.grant datap act a
  | _, _ => some w

/-- One step of the process. -/
def step (s : Process) (turn : Turn Answer) : Except MainFault (Event Action × Process) :=
  match s.main.step handleConnection turn with
  | .error f => .error f
  | .ok (e, main) =>
      match grant s.shared turn e with
      | none => .error .notPossible
      | some shared => .ok (e, ⟨main, shared⟩)

variable {ok : Process → Turn Answer → Prop} {contents : List UInt8} {s s' : Process}
  {turn : Turn Answer} {e : Event Action} {hist : List (Turn Answer × Event Action)}

theorem step_iff :
    s.step turn = .ok (e, s') ↔
      s.main.step handleConnection turn = .ok (e, s'.main) ∧
        grant s.shared turn e = some s'.shared := by
  rw [step]
  cases hmain : s.main.step handleConnection turn with
  | error f => simp
  | ok r =>
    obtain ⟨e', main⟩ := r
    dsimp only
    cases hgrant : grant s.shared turn e' with
    | none =>
      simp only [Except.ok.injEq, Prod.mk.injEq, reduceCtorEq, false_iff]
      rintro ⟨⟨rfl, -⟩, h⟩
      exact absurd (hgrant.symm.trans h) (by simp)
    | some shared =>
      simp only [Except.ok.injEq, Prod.mk.injEq]
      constructor
      · rintro ⟨rfl, rfl⟩
        exact ⟨⟨rfl, rfl⟩, hgrant⟩
      · rintro ⟨⟨rfl, rfl⟩, h⟩
        obtain rfl := Option.some.inj (hgrant.symm.trans h)
        exact ⟨rfl, rfl⟩

/-- **A run of the process is a run of `main`.** -/
theorem run_main {s₀ : Process} (h : Run step ok s₀ hist s) :
    Run (Main.step handleConnection) (fun _ _ => True) s₀.main hist s.main := by
  induction h with
  | start => exact .start
  | call _ _ hs ih => exact ih.call trivial (step_iff.mp hs).1

/-- A thread of the process follows `handle_connection`. -/
theorem run_thread (h : Run step ok (init contents) hist s) {d : ℕ} {c : Conn}
    (hc : s.main.thread d = some c) :
    Run Conn.step (fun _ _ => True) Conn.start (threadHist d hist) c :=
  Main.run_threadHist (run_main h) hc

/-! ## The mutex -/

/-- The thread of the node exists and holds the mutex. -/
def Holds (s : Process) (d : ℕ) : Prop := (s.main.thread d).any Conn.holds = true

/-- **The mutex is held by the thread that its owner is.** -/
theorem owner_iff_holds (h : Run step ok (init contents) hist s) (d : ℕ) :
    s.Holds d ↔ s.shared.fileMutex = some d := by
  induction h generalizing d with
  | start => simp [Holds, init, Main.init]
  | @call hist s s' turn e hrun _ hs ih =>
    obtain ⟨hmain, hgrant⟩ := step_iff.mp hs
    have hmain' := Main.moves_of_step hmain
    obtain ⟨main, shared⟩ := s'
    dsimp only at hmain hgrant hmain'
    cases hmain' with
    | thread datap a act c c' hc hstep =>
      obtain ⟨hheld, hacq, hrel⟩ := holds_step (exiting_of_run (run_thread hrun hc)) hstep
      obtain ⟨hmutex, hfree⟩ := grant_fileMutex hgrant
      let holds : Option Conn → Bool := fun o => o.any Conn.holds
      have hinv : ∀ u, holds (s.main.thread u) = true ↔ s.shared.fileMutex = some u := ih
      have hupdate : holds (some c') = act.lockOp.holdsAfter (holds (s.main.thread datap)) := by
        rw [hc]
        exact hheld
      show holds (Function.update s.main.thread datap (some c') d) = true ↔ _
      rw [hmutex]
      exact owner_iff_holds_update hinv hupdate hfree (by rw [hc]; exact hrel) d
    | create result datap hpc =>
      obtain rfl := Option.some.inj hgrant
      rw [← ih d]
      have hnone := ((Main.threaded_of_run (run_main hrun)).uncreated datap hpc).2
      by_cases hd : d = datap
      · subst hd
        simp [Holds, hnone, handleConnection, Conn.start, Conn.holds]
      · simp [Holds, hd]
    | _ =>
      obtain rfl := Option.some.inj hgrant
      exact ih d

/-! ## What is possible -/

/-- A thread that does not want the mutex can always go on: calls may fail. -/
theorem grant_failed {w : Shared} {t : ℕ} {act : Action} (h : act.lockOp ≠ .acquire) :
    ∃ w', w.grant t act .failed = some w' := by
  cases act <;> simp_all [Shared.grant, Action.lockOp, Answer.bytes]

/-- A thread that wants it can if it is free. -/
theorem grant_free {w : Shared} {t : ℕ} {act : Action} (h : w.fileMutex = none) :
    ∃ w', w.grant t act .failed = some w' := by
  cases act <;> simp_all [Shared.grant, Answer.bytes]

/-- Something can be done other than send a signal. -/
def CanStep (s : Process) (turn : Turn Answer) : Prop :=
  turn ≠ .signal ∧ ∃ e s', s.step turn = .ok (e, s')

theorem canStep_thread {d : ℕ} {c : Conn} {act : Action} {w : Shared}
    (hc : s.main.thread d = some c) (hact : c.action = some act)
    (hw : s.shared.grant d act .failed = some w) : s.CanStep (.thread d .failed) := by
  have hstep : c.step .failed = .ok (act, c.resume .failed) := Conn.step_iff.mpr ⟨hact, rfl⟩
  refine ⟨by simp, .thread d act,
    ⟨{ s.main with thread := Function.update s.main.thread d (some (c.resume .failed)) }, w⟩,
    step_iff.mpr ⟨?_, hw⟩⟩
  simp only [Main.step, hc, handleConnection, hstep]

/-- **If no thread can move, all of them have returned.** -/
theorem returned_of_stuck (h : Run step ok (init contents) hist s)
    (hstuck : ∀ turn, ¬ s.CanStep turn) {d : ℕ} {c : Conn} (hc : s.main.thread d = some c) :
    c.returned = true := by
  have hdone := finished_of_stuck s.Holds
    (fun d => ∀ c, s.main.thread d = some c → c.returned = true)
    (fun d => s.CanStep (.thread d .failed)) (fun u hu => (owner_iff_holds h u).mpr hu) ?_ ?_
    (fun u => hstuck _) d
  · exact hdone c hc
  · intro u hfin hholds
    obtain ⟨c', hc', hc'holds⟩ := (Option.any_eq_true _ _).mp hholds
    exact absurd hc'holds (by simp [holds_of_returned (hfin c' hc')])
  · intro u hnot hcan
    push Not at hnot
    obtain ⟨c', hc', hret⟩ := hnot
    obtain ⟨act, hact⟩ := Option.ne_none_iff_exists'.mp fun hnone =>
      hret (Conn.action_eq_none_iff.mp hnone)
    have hstep : c'.step .failed = .ok (act, c'.resume .failed) :=
      Conn.step_iff.mpr ⟨hact, rfl⟩
    have hacq : act.lockOp = .acquire := by
      by_contra hne
      obtain ⟨w, hw⟩ := grant_failed hne
      exact hcan (canStep_thread hc' hact hw)
    have hnotholds := (holds_step (exiting_of_run (run_thread h hc')) hstep).2.1 hacq
    refine ⟨?_, fun hfree => ?_⟩
    · rw [Holds, hc']
      simpa using hnotholds
    · obtain ⟨w, hw⟩ := grant_free hfree
      exact hcan (canStep_thread hc' hact hw)

end Process

/-! ## Shutting down -/

/-- `main` is in `list_cleanup`, or has exited. -/
def MainPc.leaving : MainPc → Bool
  | .mallocElem cleanup | .visit cleanup _ | .join cleanup _ _ | .remove cleanup _ _ => cleanup
  | .exited => true
  | _ => false

/-- The steps of `list_cleanup` that are left, with `n` threads to be joined. -/
def MainPc.stepsLeft (n : ℕ) : MainPc → ℕ
  | .mallocElem _ => 3 * n + 2
  | .visit _ _ => 3 * n + 1
  | .join _ _ _ => 3 * n
  | .remove _ _ _ => 3 * n + 2
  | _ => 0

/-- How many connections were not joined. -/
def unjoined {α κ : Type} (hist : List (Turn α × Event κ)) : ℕ :=
  (accepted hist).length - (joined hist).length

theorem unjoined_concat {α κ : Type} {hist : List (Turn α × Event κ)} {turn : Turn α}
    {e : Event κ} (ha : e.accepts = []) (hj : e.joins = []) :
    unjoined (hist ++ [(turn, e)]) = unjoined hist := by
  rw [unjoined, accepted_concat, joined_concat, ha, hj, List.append_nil, List.append_nil, unjoined]

namespace Main

variable {τ α κ : Type} {F : ThreadFn τ α κ} {ok : Main τ → Turn α → Prop} {s s' : Main τ}
  {turn : Turn α} {e : Event κ} {hist : List (Turn α × Event κ)}

theorem leaving_step (hleave : s.pc.leaving = true) (hs : Moves F s turn e s') :
    s'.pc.leaving = true ∧ e.accepts = [] := by
  cases hs with
  | finish result cleanup h =>
    rw [h] at hleave
    obtain rfl : cleanup = true := hleave
    exact ⟨rfl, rfl⟩
  | thread | signal => exact ⟨hleave, rfl⟩
  | _ => simp_all [MainPc.leaving]

/-- **A step of `list_cleanup` is one of the steps left**, and leaves the threads alone. -/
theorem stepsLeft_step {result : Option ℕ} (hleave : s.pc.leaving = true)
    (hs : Moves F s (.main result) e s')
    (hle : (joined hist ++ e.joins).length ≤ (accepted hist).length) :
    1 + s'.pc.stepsLeft (unjoined (hist ++ [(.main result, e)])) ≤
        s.pc.stepsLeft (unjoined hist) ∧ s'.thread = s.thread := by
  cases hs with
  | begin result cleanup h hp =>
    rw [unjoined_concat rfl rfl, h]
    exact ⟨by simp only [MainPc.stepsLeft]; omega, rfl⟩
  | finish result cleanup h =>
    rw [h] at hleave
    obtain rfl : cleanup = true := hleave
    rw [unjoined_concat rfl rfl, h]
    exact ⟨by simp [MainPc.stepsLeft], rfl⟩
  | visitCleanup result elem h =>
    rw [unjoined_concat rfl rfl, h]
    exact ⟨by simp [MainPc.stepsLeft, Nat.add_comm], rfl⟩
  | join result cleanup elem tdatap h hret =>
    rw [h]
    simp only [Event.joins, List.length_append, List.length_singleton] at hle
    refine ⟨?_, rfl⟩
    simp only [MainPc.stepsLeft, unjoined, accepted_concat, joined_concat, Event.accepts,
      Event.joins, List.append_nil, List.length_append, List.length_singleton]
    omega
  | remove result cleanup elem tdatap first next h hrem =>
    rw [unjoined_concat rfl rfl, h]
    exact ⟨by simp only [MainPc.stepsLeft]; omega, rfl⟩
  | _ => simp_all [MainPc.leaving]

end Main

/-- The steps that the thread of a node has left. -/
def threadLeft (thread : ℕ → Option Conn) (d : ℕ) : ℕ := (thread d).elim 0 Conn.stepsLeft

/-- The chunks that the clients sent. -/
def chunksOf (e : Turn Answer × Event Action) : List (List UInt8) :=
  match e with
  | (.thread _ a, .thread _ act) => delivered (a, act)
  | _ => []

/-- A step that is not the delivery of a signal. -/
def isWork (e : Turn Answer × Event Action) : ℕ :=
  match e.1 with
  | .signal => 0
  | _ => 1

namespace Process

variable {ok : Process → Turn Answer → Prop} {contents : List UInt8} {s s' : Process}
  {turn : Turn Answer} {e : Event Action} {hist : List (Turn Answer × Event Action)}

/-- A thread that makes a step has one less left. -/
theorem sum_threadLeft_update {thread : ℕ → Option Conn} {acc : Finset ℕ} {d : ℕ} {c c' : Conn}
    {a : Answer} {act : Action} (hd : d ∈ acc) (hc : thread d = some c)
    (hs : c.step a = .ok (act, c')) :
    1 + ∑ x ∈ acc, threadLeft (Function.update thread d (some c')) x ≤
      ∑ x ∈ acc, threadLeft thread x + 2 * (delivered (a, act)).length := by
  have hone := stepsLeft_step hs
  have hself : threadLeft (Function.update thread d (some c')) d = c'.stepsLeft := by
    simp [threadLeft]
  have hold : threadLeft thread d = c.stepsLeft := by simp [threadLeft, hc]
  have hrest : ∑ x ∈ acc \ {d}, threadLeft (Function.update thread d (some c')) x =
      ∑ x ∈ acc \ {d}, threadLeft thread x := by
    refine Finset.sum_congr rfl fun x hx => ?_
    have hne : x ≠ d := by simpa using (Finset.mem_sdiff.mp hx).2
    rw [threadLeft, Function.update_of_ne hne, threadLeft]
  rw [Finset.sum_eq_add_sum_sdiff_singleton_of_mem hd, hself, hrest,
    Finset.sum_eq_add_sum_sdiff_singleton_of_mem hd (threadLeft thread), hold]
  omega

/-- **One step of the shutdown** is paid for. -/
theorem paid_step (h : Run step ok (init contents) hist s) (hleave : s.main.pc.leaving = true)
    (hs : s.step turn = .ok (e, s')) (acc : Finset ℕ) (hacc : ∀ d ∈ accepted hist, d ∈ acc) :
    isWork (turn, e) + (s'.main.pc.stepsLeft (unjoined (hist ++ [(turn, e)])) +
        ∑ d ∈ acc, threadLeft s'.main.thread d) ≤
      s.main.pc.stepsLeft (unjoined hist) + ∑ d ∈ acc, threadLeft s.main.thread d +
        2 * (chunksOf (turn, e)).length := by
  obtain ⟨hmain, hgrant⟩ := step_iff.mp hs
  have hmoves := Main.moves_of_step hmain
  cases turn with
  | main result =>
    obtain ⟨v, hgood⟩ := Main.good_of_run ((run_main h).call trivial hmain)
    have hle := (List.subperm_of_subset hgood.inv.nodup hgood.inv.subset).length_le
    rw [joined_concat, accepted_concat, (Main.leaving_step hleave hmoves).2, List.append_nil] at hle
    obtain ⟨hsteps, hthread⟩ := Main.stepsLeft_step hleave hmoves hle
    rw [hthread]
    simp only [isWork, chunksOf, List.length_nil]
    omega
  | signal =>
    simp only [Main.step, Except.ok.injEq, Prod.mk.injEq] at hmain
    obtain ⟨rfl, hs'⟩ := hmain
    rw [← hs', unjoined_concat rfl rfl]
    simp [isWork]
  | thread d a =>
    obtain ⟨main, shared⟩ := s'
    cases hmoves with
    | thread _ _ act c c' hc hstep =>
      have hd := hacc d ((Main.threaded_of_run (run_main h)).created d (by simp [hc]))
      have hsum := sum_threadLeft_update hd hc hstep
      rw [unjoined_concat rfl rfl]
      simp only [isWork, chunksOf]
      omega

/-- The way out is not left. -/
theorem leaving_of_run {s₀ : Process} (hleave : s₀.main.pc.leaving = true)
    {rest : List (Turn Answer × Event Action)} (h : Run step ok s₀ rest s) :
    s.main.pc.leaving = true ∧ accepted rest = [] := by
  induction h with
  | start => exact ⟨hleave, rfl⟩
  | call _ _ hs ih =>
    obtain ⟨hnext, haccepts⟩ := Main.leaving_step ih.1 (Main.moves_of_step (step_iff.mp hs).1)
    exact ⟨hnext, by rw [accepted_concat, ih.2, haccepts, List.append_nil]⟩

theorem accepted_append {α κ : Type} (hist rest : List (Turn α × Event κ)) :
    accepted (hist ++ rest) = accepted hist ++ accepted rest := List.flatMap_append

/-- What the threads have left is twenty steps for each that was not joined. -/
theorem sum_threadLeft_le (h : Run step ok (init contents) hist s) :
    ∑ d ∈ (accepted hist).toFinset, threadLeft s.main.thread d ≤ 20 * unjoined hist := by
  obtain ⟨v, hgood⟩ := Main.good_of_run (run_main h)
  have hjoined : ∀ d ∈ joined hist, threadLeft s.main.thread d = 0 := by
    intro d hd
    obtain ⟨c, hc, hret⟩ := Main.returned_of_joined
      (fun c a r (hret : c.returned = true) => step_of_returned hret a r) (run_main h) hd
    rw [threadLeft, hc]
    exact Conn.stepsLeft_of_returned hret
  have hle : ∀ d, threadLeft s.main.thread d ≤ 20 := by
    intro d
    cases hc : s.main.thread d with
    | none => simp [threadLeft, hc]
    | some c =>
      rw [threadLeft, hc]
      exact Conn.stepsLeft_le (exiting_of_run (run_thread h hc))
  -- the joined ones have nothing left
  have hsub : (joined hist).toFinset ⊆ (accepted hist).toFinset := by
    intro d hd
    rw [List.mem_toFinset] at hd ⊢
    exact hgood.inv.subset hd
  have hcard : ((accepted hist).toFinset \ (joined hist).toFinset).card = unjoined hist := by
    rw [Finset.card_sdiff_of_subset hsub, List.toFinset_card_of_nodup hgood.allocated.nodup,
      List.toFinset_card_of_nodup hgood.inv.nodup, unjoined]
  have hzero : ∑ d ∈ (joined hist).toFinset, threadLeft s.main.thread d = 0 :=
    Finset.sum_eq_zero fun d hd => hjoined d (List.mem_toFinset.mp hd)
  rw [← Finset.sum_sdiff hsub, hzero, Nat.add_zero, ← hcard, mul_comm]
  exact Finset.sum_le_card_nsmul _ _ 20 fun d _ => hle d

/-- The thread of an accepted connection exists, or is about to be created. -/
theorem thread_of_accepted (h : Run step ok (init contents) hist s) {d : ℕ}
    (hd : d ∈ accepted hist) : s.main.thread d ≠ none ∨ s.main.pc = .create d := by
  induction h with
  | start => cases hd
  | @call hist s s' turn e hrun _ hs ih =>
    have hmoves := Main.moves_of_step (step_iff.mp hs).1
    obtain ⟨main, shared⟩ := s'
    rw [accepted_concat] at hd
    cases hmoves with
    | accept datap fd hpc =>
      rcases List.mem_append.mp hd with hd | hd
      · rcases ih hd with hthread | hcreate
        · exact Or.inl hthread
        · exact absurd (hcreate.symm.trans hpc) (by simp)
      · obtain rfl := List.mem_singleton.mp hd
        exact Or.inr rfl
    | create result datap hpc =>
      rcases ih (by simpa using hd) with hthread | hcreate
      · refine Or.inl ?_
        by_cases hdd : d = datap <;> simp [hdd, hthread]
      · obtain rfl : datap = d := by simpa [hpc] using hcreate
        exact Or.inl (by simp)
    | thread datap a act c c' hc hstep =>
      rcases ih (by simpa using hd) with hthread | hcreate
      · refine Or.inl ?_
        by_cases hdd : d = datap <;> simp [hdd, hthread]
      · exact Or.inr hcreate
    | _ =>
      rcases ih (by simpa using hd) with hthread | hcreate
      · exact Or.inl hthread
      · simp_all

/-- **If nothing can move while `main` is on its way out, it has exited.** -/
theorem exited_of_stuck (h : Run step ok (init contents) hist s)
    (hleave : s.main.pc.leaving = true) (hstuck : ∀ turn, ¬ s.CanStep turn) :
    s.main.pc = .exited := by
  obtain ⟨v, hgood⟩ := Main.good_of_run (run_main h)
  have hat := hgood.sees.at_pc
  have hmain : ∀ r, s.main.mainStep handleConnection none ≠ .ok r := by
    rintro ⟨e, m⟩ hs
    refine hstuck (.main none) ⟨by simp, e, ⟨m, s.shared⟩, step_iff.mpr ⟨hs, ?_⟩⟩
    cases e <;> rfl
  cases hpc : s.main.pc with
  | exited => rfl
  | mallocElem cleanup => exact (hmain _ (by simp only [Main.mainStep, hpc]; rfl)).elim
  | visit cleanup elem =>
    cases elem <;> exact (hmain _ (by simp only [Main.mainStep, hpc]; rfl)).elim
  | join cleanup elem tdatap =>
    rw [hpc] at hat
    obtain ⟨kept, rest, rfl, -⟩ := hat
    have hin : elem ∈ accepted hist := hgood.inv.linked_subset (by simp [View.linked])
    have hthread := (thread_of_accepted h hin).resolve_right (by simp [hpc])
    obtain ⟨c, hc⟩ := Option.ne_none_iff_exists'.mp hthread
    have hret : (s.main.thread elem).any handleConnection.returned = true := by
      rw [hc]
      exact returned_of_stuck h hstuck hc
    exact (hmain _ (by simp only [Main.mainStep, hpc, if_pos hret]; rfl)).elim
  | remove cleanup elem tdatap =>
    rw [hpc] at hat
    obtain ⟨kept, rest, rfl, -⟩ := hat
    obtain ⟨first, next, hrem, -⟩ :=
      slistRemove_spec hgood.sees.links hgood.linked_nodup hgood.linked_length
    exact (hmain _ (by simp only [Main.mainStep, hpc, hrem]; rfl)).elim
  | malloc | accept | create | insert | test => simp [hpc, MainPc.leaving] at hleave

/-- **The shutdown ends.**  `accept` has failed after a signal, and `main` is about to join
the threads.  From then on the process makes at most `23` steps for every thread that was
not joined and two for every chunk that a client still sends, in any order and whatever the
calls return.  And if it cannot go on, it has exited: the list is empty, every connection
that was ever accepted has returned, and nobody has the mutex. -/
theorem shutdown_ends (h : Run step ok (init contents) hist s)
    (hpc : s.main.pc = .mallocElem true) {rest : List (Turn Answer × Event Action)}
    (hrest : Run step ok s rest s') :
    (rest.map isWork).sum ≤ 23 * unjoined hist + 2 + 2 * (rest.flatMap chunksOf).length ∧
      ((∀ turn, ¬ s'.CanStep turn) →
        s'.main.pc = .exited ∧ s'.main.first = none ∧ s'.shared.fileMutex = none ∧
          ∀ d ∈ accepted hist, ∃ c, s'.main.thread d = some c ∧ c.returned = true) := by
  have hleave : s.main.pc.leaving = true := by rw [hpc]; rfl
  obtain ⟨hleave', haccepts⟩ := leaving_of_run hleave hrest
  have hall := h.trans hrest
  constructor
  · have hpaid := hrest.amortised
      (fun rest s => s.main.pc.stepsLeft (unjoined (hist ++ rest)) +
        ∑ d ∈ (accepted hist).toFinset, threadLeft s.main.thread d)
      isWork (fun e => 2 * (chunksOf e).length) ?_
    · have hthreads := sum_threadLeft_le h
      have hgain : (rest.map fun e => 2 * (chunksOf e).length).sum =
          2 * (rest.flatMap chunksOf).length := by
        rw [List.length_flatMap, List.sum_map_mul_left]
      rw [hgain, List.append_nil, hpc] at hpaid
      simp only [MainPc.stepsLeft] at hpaid
      omega
    · intro rest s turn e s' hrun _ hs
      obtain ⟨hleave, haccepts⟩ := leaving_of_run hleave hrun
      rw [← List.append_assoc]
      refine paid_step (h.trans hrun) hleave hs _ fun d hd => ?_
      rw [accepted_append, haccepts, List.append_nil] at hd
      exact List.mem_toFinset.mpr hd
  · intro hstuck
    have hexited := exited_of_stuck hall hleave' hstuck
    obtain ⟨v, hgood⟩ := Main.good_of_run (run_main hall)
    have hat := hgood.sees.at_pc
    rw [hexited] at hat
    subst hat
    have hreturned : ∀ d ∈ accepted (hist ++ rest), ∃ c, s'.main.thread d = some c ∧
        c.returned = true := by
      intro d hd
      refine Main.returned_of_joined
        (fun c a r (hret : c.returned = true) => step_of_returned hret a r) (run_main hall) ?_
      by_contra hnot
      exact absurd (hgood.inv.mem_connections.mpr ⟨hd, hnot⟩)
        (by simp [View.connections, View.linked])
    refine ⟨hexited, hgood.sees.links, ?_, fun d hd => hreturned d ?_⟩
    · by_contra hne
      obtain ⟨u, hu⟩ := Option.ne_none_iff_exists'.mp hne
      obtain ⟨c, hc, hholds⟩ := (Option.any_eq_true _ _).mp ((owner_iff_holds hall u).mpr hu)
      have hin := (Main.threaded_of_run (run_main hall)).created u (by simp [hc])
      obtain ⟨c', hc', hret⟩ := hreturned u hin
      obtain rfl := Option.some.inj (hc.symm.trans hc')
      exact absurd hholds (by simp [holds_of_returned hret])
    · rw [accepted_append]
      exact List.mem_append_left _ hd

/-- The connection of node 7 is open when the signal comes; its thread fails to get a buffer
and returns, and `main` joins it and exits. -/
theorem shutdown_ends_one :
    ∃ hist s rest s', Run step (fun _ _ => True) (init []) hist s ∧ s.main.pc = .mallocElem true ∧
      Run step (fun _ _ => True) s rest s' ∧ s'.main.pc = .exited ∧
      (rest.map isWork).sum ≤ 23 * unjoined hist + 2 + 2 * (rest.flatMap chunksOf).length := by
  let turns : List (Turn Answer) :=
    [.thread 7 .failed, .main none, .thread 7 .done, .main none, .thread 7 .done, .main none,
      .main none, .main none]
  obtain ⟨hist, s, hrun, hpc, hrest⟩ := exists_run_of_replay step (fun _ _ => True) (init [])
    [.main (some 7), .main (some 4), .main none, .main none, .main none, .main none, .main none,
      .main none, .main (some 8), .signal, .main none]
    (fun _ s => s.main.pc = .mallocElem true ∧
      (replay step (fun _ _ => True) s turns).any
        (fun q => decide (q.2.main.pc = .exited)) = true) (by decide +kernel)
  obtain ⟨rest, s', hrun', hexited⟩ := exists_run_of_replay step (fun _ _ => True) s turns
    (fun _ s => s.main.pc = .exited) hrest
  exact ⟨hist, s, rest, s', hrun, hpc, hrun', hexited, (shutdown_ends hrun hpc hrun').1⟩

end Process
end Aesd
