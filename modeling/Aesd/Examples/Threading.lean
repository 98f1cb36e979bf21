import Aesd.Foundations.FixedWidth
import Aesd.Foundations.Progress

/-!
# Threads that obtain a mutex

`start_thread_obtaining_mutex` and `threadfunc` of `examples/threading`.  A call allocates a
`struct thread_data`, fills it, creates a thread with it, and returns; the thread sleeps, takes
the mutex, sleeps, gives it back, and says that it is done.  Any number of calls may be made,
with any mutexes, and every interleaving of the calls and their threads is a run.

`threadfunc` sets `thread_complete_success` as its last statement, and whoever joins the thread
is to read it.  But `start_thread_obtaining_mutex` sets it too, as soon as the thread is created,
because the flag is what it returns.  So when the caller has the thread, the flag is set, wherever
the thread is (`flag_of_returned`).

`malloc` is not checked, and the stores that follow go through `NULL` if it fails: that is a
fault, and there is no next state.  The sleeps have no effect here, only an argument.
-/

namespace Aesd

open FixedWidth

namespace Threading

/-- The arguments of `start_thread_obtaining_mutex`, except where the thread is stored. -/
structure Args where
  mutex : ℕ
  waitToObtainMs : Int32
  waitToReleaseMs : Int32
  deriving DecidableEq, Repr

/-- `struct thread_data`. -/
structure ThreadData extends Args where
  threadCompleteSuccess : Bool
  deriving DecidableEq, Repr

/-- Where `threadfunc` stands. -/
inductive Pc where
  | waitToObtain
  | lock
  | waitToRelease
  | unlock
  | complete
  | returned
  deriving DecidableEq, Repr

/-- Where `start_thread_obtaining_mutex` stands. -/
inductive StartPc where
  | malloc
  | create
  | succeed
  | ret
  | returned (r : Bool)
  deriving DecidableEq, Repr

/-- A call of `start_thread_obtaining_mutex`, with what it allocates and creates. -/
structure Call where
  args : Args
  start : StartPc
  /-- `*th_data`. -/
  thData : Option ThreadData
  thread : Option Pc
  deriving DecidableEq, Repr

/-- Who makes the step, and whether what it calls fails. -/
inductive Turn where
  | starter (failed : Bool)
  | thread
  deriving DecidableEq, Repr

/-- What is done. -/
inductive Action where
  /-- `malloc(sizeof(struct thread_data))`, and the stores that follow. -/
  | malloc
  /-- `pthread_create(thread, NULL, threadfunc, th_data)`. -/
  | create
  /-- `th_data->thread_complete_success = true`. -/
  | succeed
  /-- `return th_data->thread_complete_success`. -/
  | ret (r : Bool)
  /-- `usleep(us)`. -/
  | usleep (us : ℕ)
  /-- `pthread_mutex_lock(tdata->mutex)`. -/
  | lock (mutex : ℕ)
  /-- `pthread_mutex_unlock(tdata->mutex)`. -/
  | unlock (mutex : ℕ)
  /-- `tdata->thread_complete_success = true`. -/
  | complete
  deriving DecidableEq, Repr

/-- Why there is no step. -/
inductive Halt where
  | done
  | nullPointer
  deriving DecidableEq, Repr

namespace Call

/-- The call before it is made. -/
def init (args : Args) : Call := ⟨args, .malloc, none, none⟩

/-- `start_thread_obtaining_mutex`. -/
def startStep (c : Call) (failed : Bool) : Except Halt (Action × Call) :=
  match c.start with
  | .malloc =>
      if failed then .error .nullPointer
      else .ok (.malloc, { c with start := .create, thData := some ⟨c.args, false⟩ })
  | .create =>
      if failed then .ok (.create, { c with start := .ret })
      else .ok (.create, { c with start := .succeed, thread := some .waitToObtain })
  | .succeed =>
      match c.thData with
      | none => .error .nullPointer
      | some d =>
          .ok (.succeed, { c with start := .ret, thData := some ⟨d.toArgs, true⟩ })
  | .ret =>
      match c.thData with
      | none => .error .nullPointer
      | some d => .ok (.ret d.threadCompleteSuccess,
          { c with start := .returned d.threadCompleteSuccess })
  | .returned _ => .error .done

/-- `threadfunc`.  The milliseconds are passed to `usleep` as they are. -/
def threadfunc (c : Call) : Except Halt (Action × Call) :=
  match c.thread, c.thData with
  | none, _ => .error .done
  | some _, none => .error .nullPointer
  | some .waitToObtain, some d =>
      .ok (.usleep (wrapU 32 d.waitToObtainMs.toInt), { c with thread := some .lock })
  | some .lock, some d => .ok (.lock d.mutex, { c with thread := some .waitToRelease })
  | some .waitToRelease, some d =>
      .ok (.usleep (wrapU 32 d.waitToReleaseMs.toInt), { c with thread := some .unlock })
  | some .unlock, some d => .ok (.unlock d.mutex, { c with thread := some .complete })
  | some .complete, some d =>
      .ok (.complete, { c with thread := some .returned, thData := some ⟨d.toArgs, true⟩ })
  | some .returned, _ => .error .done

/-- One step. -/
def step (c : Call) : Turn → Except Halt (Action × Call)
  | .starter failed => c.startStep failed
  | .thread => c.threadfunc

end Call

/-- What the mutexes say to an action of call `t`. -/
def grant (owner : ℕ → Option ℕ) (t : ℕ) (act : Action) (_ : Turn) : Option (ℕ → Option ℕ) :=
  match act with
  | .lock m => if owner m = none then some (Function.update owner m (some t)) else none
  | .unlock m => some (Function.update owner m none)
  | _ => some owner

/-- The calls and the mutexes. -/
abbrev Calls := Pool (ℕ → Option ℕ) Call

/-- One step. -/
abbrev step : Calls → ℕ × Turn → Except Unit (Action × Calls) := Pool.step Call.step grant

/-- No call has been made, and no mutex is taken. -/
def init (args : ℕ → Args) : Calls := ⟨fun _ => none, fun n => Call.init (args n)⟩

/-! ## One call -/

variable {c c' : Call} {turn : Turn} {act : Action} {args : Args}

/-- What a step can be. -/
inductive Moves (c : Call) : Turn → Action → Call → Prop where
  | malloc (h : c.start = .malloc) :
      Moves c (.starter false) .malloc { c with start := .create, thData := some ⟨c.args, false⟩ }
  | create (h : c.start = .create) :
      Moves c (.starter false) .create
        { c with start := .succeed, thread := some .waitToObtain }
  | notCreated (h : c.start = .create) :
      Moves c (.starter true) .create { c with start := .ret }
  | succeed (b : Bool) (d : ThreadData) (h : c.start = .succeed) (hd : c.thData = some d) :
      Moves c (.starter b) .succeed { c with start := .ret, thData := some ⟨d.toArgs, true⟩ }
  | ret (b : Bool) (d : ThreadData) (h : c.start = .ret) (hd : c.thData = some d) :
      Moves c (.starter b) (.ret d.threadCompleteSuccess)
        { c with start := .returned d.threadCompleteSuccess }
  | waitToObtain (d : ThreadData) (h : c.thread = some .waitToObtain) (hd : c.thData = some d) :
      Moves c .thread (.usleep (wrapU 32 d.waitToObtainMs.toInt)) { c with thread := some .lock }
  | lock (d : ThreadData) (h : c.thread = some .lock) (hd : c.thData = some d) :
      Moves c .thread (.lock d.mutex) { c with thread := some .waitToRelease }
  | waitToRelease (d : ThreadData) (h : c.thread = some .waitToRelease) (hd : c.thData = some d) :
      Moves c .thread (.usleep (wrapU 32 d.waitToReleaseMs.toInt))
        { c with thread := some .unlock }
  | unlock (d : ThreadData) (h : c.thread = some .unlock) (hd : c.thData = some d) :
      Moves c .thread (.unlock d.mutex) { c with thread := some .complete }
  | complete (d : ThreadData) (h : c.thread = some .complete) (hd : c.thData = some d) :
      Moves c .thread .complete
        { c with thread := some .returned, thData := some ⟨d.toArgs, true⟩ }

theorem step_iff : c.step turn = .ok (act, c') ↔ Moves c turn act c' := by
  constructor
  · intro h
    cases turn with
    | starter failed =>
      rw [Call.step, Call.startStep] at h
      split at h
      · next hpc =>
        cases failed with
        | true => exact absurd h (by simp)
        | false =>
          obtain ⟨rfl, rfl⟩ := Prod.mk.inj (Except.ok.inj h)
          exact .malloc hpc
      · next hpc =>
        cases failed with
        | true =>
          obtain ⟨rfl, rfl⟩ := Prod.mk.inj (Except.ok.inj h)
          exact .notCreated hpc
        | false =>
          obtain ⟨rfl, rfl⟩ := Prod.mk.inj (Except.ok.inj h)
          exact .create hpc
      · next hpc =>
        split at h
        · exact absurd h (by simp)
        · next d hd =>
          obtain ⟨rfl, rfl⟩ := Prod.mk.inj (Except.ok.inj h)
          exact .succeed failed d hpc hd
      · next hpc =>
        split at h
        · exact absurd h (by simp)
        · next d hd =>
          obtain ⟨rfl, rfl⟩ := Prod.mk.inj (Except.ok.inj h)
          exact .ret failed d hpc hd
      · exact absurd h (by simp)
    | thread =>
      rw [Call.step, Call.threadfunc] at h
      split at h
      · exact absurd h (by simp)
      · exact absurd h (by simp)
      · next d hpc hd =>
        obtain ⟨rfl, rfl⟩ := Prod.mk.inj (Except.ok.inj h)
        exact .waitToObtain d hpc hd
      · next d hpc hd =>
        obtain ⟨rfl, rfl⟩ := Prod.mk.inj (Except.ok.inj h)
        exact .lock d hpc hd
      · next d hpc hd =>
        obtain ⟨rfl, rfl⟩ := Prod.mk.inj (Except.ok.inj h)
        exact .waitToRelease d hpc hd
      · next d hpc hd =>
        obtain ⟨rfl, rfl⟩ := Prod.mk.inj (Except.ok.inj h)
        exact .unlock d hpc hd
      · next d hpc hd =>
        obtain ⟨rfl, rfl⟩ := Prod.mk.inj (Except.ok.inj h)
        exact .complete d hpc hd
      · exact absurd h (by simp)
  · rintro (h | h | h | ⟨b, d, h, hd⟩ | ⟨b, d, h, hd⟩ | ⟨d, h, hd⟩ | ⟨d, h, hd⟩ | ⟨d, h, hd⟩ |
      ⟨d, h, hd⟩ | ⟨d, h, hd⟩)
    all_goals simp [Call.step, Call.startStep, Call.threadfunc, *]

/-- How the parts of a call go together. -/
structure Call.Sound (args : Args) (c : Call) : Prop where
  args_eq : c.args = args
  unmade : c.start = .malloc → c.thread = none
  made : c.start ≠ .malloc → ∃ flag, c.thData = some ⟨args, flag⟩
  uncreated : c.start = .create → c.thread = none
  created : c.start = .succeed → c.thread ≠ none
  /-- The flag is set when the caller gets the thread, or else when the thread is done. -/
  flag : ∀ d, c.thData = some d → (d.threadCompleteSuccess = true ↔
    c.thread = some .returned ∨
      c.thread ≠ none ∧ (c.start = .ret ∨ ∃ r, c.start = .returned r))
  returned : ∀ r, c.start = .returned r → (r = true ↔ c.thread ≠ none)

theorem sound_init (args : Args) : (Call.init args).Sound args where
  args_eq := rfl
  unmade _ := rfl
  made h := absurd rfl h
  uncreated _ := rfl
  created h := absurd h (by simp [Call.init])
  flag d hd := absurd hd (by simp [Call.init])
  returned r h := absurd h (by simp [Call.init])

/-- A call with a thread has been made. -/
theorem Call.Sound.ne_malloc (h : c.Sound args) (ht : c.thread ≠ none) : c.start ≠ .malloc :=
  fun hstart => ht (h.unmade hstart)

theorem Call.Sound.ne_create (h : c.Sound args) (ht : c.thread ≠ none) : c.start ≠ .create :=
  fun hstart => ht (h.uncreated hstart)

/-- The thread has the arguments of the call. -/
theorem Call.Sound.toArgs_eq (h : c.Sound args) (hstart : c.start ≠ .malloc) {d : ThreadData}
    (hd : c.thData = some d) : d.toArgs = args := by
  obtain ⟨flag, hflag⟩ := h.made hstart
  rw [Option.some.inj (hd.symm.trans hflag)]

/-- The thread moves on, but has not returned. -/
theorem Call.Sound.move (h : c.Sound args) (ht : c.thread ≠ none) (hret : c.thread ≠ some .returned)
    {pc : Pc} (hpc : pc ≠ .returned) : Call.Sound args { c with thread := some pc } where
  args_eq := h.args_eq
  unmade hstart := absurd hstart (h.ne_malloc ht)
  made := h.made
  uncreated hstart := absurd hstart (h.ne_create ht)
  created _ := by simp
  flag d hd := by simpa [hret, ht, hpc] using h.flag d hd
  returned r hr := by simpa [ht] using h.returned r hr

theorem sound_step (h : c.Sound args) (hs : c.step turn = .ok (act, c')) : c'.Sound args := by
  cases step_iff.mp hs with
  | malloc hpc =>
    have hnone := h.unmade hpc
    exact ⟨h.args_eq, by simp, fun _ => ⟨false, by rw [h.args_eq]⟩, fun _ => hnone, by simp,
      by simp [hnone], by simp⟩
  | create hpc =>
    exact ⟨h.args_eq, by simp, fun _ => h.made (by simp [hpc]), by simp, by simp,
      fun d hd => by simpa [hpc, h.uncreated hpc] using h.flag d hd, by simp⟩
  | notCreated hpc =>
    have hnone := h.uncreated hpc
    exact ⟨h.args_eq, by simp, fun _ => h.made (by simp [hpc]), by simp, by simp,
      fun d hd => by simpa [hpc, hnone] using h.flag d hd, by simp⟩
  | succeed b d hpc hd =>
    have hthread := h.created hpc
    have hargs := h.toArgs_eq (by simp [hpc]) hd
    exact ⟨h.args_eq, by simp, fun _ => ⟨true, by rw [hargs]⟩, by simp, by simp,
      by simp [hthread], by simp⟩
  | ret b d hpc hd =>
    have hflag := h.flag d hd
    have hiff : d.threadCompleteSuccess = true ↔ c.thread ≠ none := by
      rw [hflag, hpc]
      constructor
      · rintro (hret | ⟨hne, -⟩)
        · simp [hret]
        · exact hne
      · exact fun hne => .inr ⟨hne, .inl rfl⟩
    refine ⟨h.args_eq, by simp, fun _ => h.made (by simp [hpc]), by simp, by simp,
      fun d' hd' => ?_, ?_⟩
    · obtain rfl := Option.some.inj (hd.symm.trans hd')
      simpa [hpc] using hflag
    · rintro r ⟨⟩
      exact hiff
  | waitToObtain d hpc | lock d hpc | waitToRelease d hpc | unlock d hpc =>
    exact h.move (by simp [hpc]) (by simp [hpc]) (by simp)
  | complete d hpc hd =>
    have hthread : c.thread ≠ none := by simp [hpc]
    have hargs := h.toArgs_eq (h.ne_malloc hthread) hd
    exact ⟨h.args_eq, fun hstart => absurd hstart (h.ne_malloc hthread),
      fun _ => ⟨true, by rw [hargs]⟩, fun hstart => absurd hstart (h.ne_create hthread),
      by simp, by simp, fun r hr => by simpa [hthread] using h.returned r hr⟩

/-! ## All calls -/

variable {ok : Calls → ℕ × Turn → Prop} {hist : List ((ℕ × Turn) × Action)} {s : Calls}
  {all : ℕ → Args}

theorem sound_of_run (h : Run step ok (init all) hist s) (u : ℕ) :
    (s.thread u).Sound (all u) :=
  (Pool.run_thread h u).invariant (P := fun _ c => c.Sound (all u)) (sound_init (all u))
    fun _ _ _ _ _ _ hc _ hs => sound_step hc hs

/-- **The flag says what the call returned**, and nothing about the thread. -/
theorem flag_of_returned (h : Run step ok (init all) hist s) {u : ℕ} {r : Bool}
    (hr : (s.thread u).start = .returned r) :
    (∃ d, (s.thread u).thData = some d ∧ d.threadCompleteSuccess = r) ∧
      (r = true ↔ (s.thread u).thread ≠ none) := by
  have hsound := sound_of_run h u
  obtain ⟨flag, hflag⟩ := hsound.made (by simp [hr])
  have hreturned := hsound.returned r hr
  refine ⟨⟨_, hflag, ?_⟩, hreturned⟩
  have hiff := hsound.flag _ hflag
  rw [Bool.eq_iff_iff, hreturned, hiff, hr]
  constructor
  · rintro (hret | ⟨hne, -⟩)
    · simp [hret]
    · exact hne
  · exact fun hne => .inr ⟨hne, .inr ⟨r, rfl⟩⟩

/-- The caller reads `true` before the thread has done anything. -/
theorem flag_of_returned_early :
    ∃ hist s, Run step (fun _ _ => True) (init fun _ => ⟨0, 10, 10⟩) hist s ∧
      (s.thread 4).thread = some .waitToObtain ∧ (s.thread 4).start = .returned true ∧
      (∃ d, (s.thread 4).thData = some d ∧ d.threadCompleteSuccess = true) ∧
      (true = true ↔ (s.thread 4).thread ≠ none) := by
  obtain ⟨hist, s, hrun, hthread, hstart⟩ := exists_run_of_replay step (fun _ _ => True)
    (init fun _ => ⟨0, 10, 10⟩)
    [(4, .starter false), (4, .starter false), (4, .starter false), (4, .starter false)]
    (fun _ s => (s.thread 4).thread = some .waitToObtain ∧ (s.thread 4).start = .returned true)
    (by decide)
  exact ⟨hist, s, hrun, hthread, hstart, flag_of_returned hrun hstart⟩

/-! ## The mutexes -/

/-- The thread has its mutex. -/
def Call.holds (c : Call) : Bool :=
  match c.thread with
  | some .waitToRelease | some .unlock => true
  | _ => false

/-- What an action does to mutex `m`. -/
def Action.lockOp (m : ℕ) : Action → LockOp
  | .lock m' => if m' = m then .acquire else .keep
  | .unlock m' => if m' = m then .release else .keep
  | _ => .keep

/-- The thread has mutex `m`. -/
def Call.holdsMutex (m : ℕ) (c : Call) : Bool := c.holds && decide (c.args.mutex = m)

/-- What the mutexes do with an action. -/
theorem grant_cases {owner w : ℕ → Option ℕ} {t : ℕ} (h : grant owner t act turn = some w) (m : ℕ) :
    w m = (act.lockOp m).ownerAfter t (owner m) ∧ (act.lockOp m = .acquire → owner m = none) := by
  cases act with
  | lock m' =>
    rw [grant] at h
    split at h
    · next hfree =>
      obtain rfl := Option.some.inj h
      by_cases hm : m' = m
      · subst hm
        simp [Action.lockOp, LockOp.ownerAfter, hfree]
      · simp [Action.lockOp, LockOp.ownerAfter, hm, Function.update_of_ne (Ne.symm hm)]
    · exact absurd h (by simp)
  | unlock m' =>
    obtain rfl := Option.some.inj h
    by_cases hm : m' = m
    · subst hm
      simp [Action.lockOp, LockOp.ownerAfter]
    · simp [Action.lockOp, LockOp.ownerAfter, hm, Function.update_of_ne (Ne.symm hm)]
  | _ =>
    obtain rfl := Option.some.inj h
    simp [Action.lockOp, LockOp.ownerAfter]

/-- A thread takes its mutex when it does not have it and gives it back when it does. -/
theorem holdsMutex_step (hsound : c.Sound args) (hs : c.step turn = .ok (act, c')) (m : ℕ) :
    c'.holdsMutex m = (act.lockOp m).holdsAfter (c.holdsMutex m) ∧
      (act.lockOp m = .release → c.holdsMutex m = true) := by
  have hargs : ∀ d, c.thread ≠ none → c.thData = some d → d.mutex = c.args.mutex :=
    fun d hthread hd => by rw [hsound.toArgs_eq (hsound.ne_malloc hthread) hd, hsound.args_eq]
  cases step_iff.mp hs with
  | lock d hpc hd =>
    have hm := hargs d (by simp [hpc]) hd
    by_cases heq : c.args.mutex = m
    · simp [Call.holdsMutex, Call.holds, hpc, Action.lockOp, LockOp.holdsAfter, hm, heq]
    · simp [Call.holdsMutex, Action.lockOp, LockOp.holdsAfter, hm, heq]
  | unlock d hpc hd =>
    have hm := hargs d (by simp [hpc]) hd
    by_cases heq : c.args.mutex = m
    · simp [Call.holdsMutex, Call.holds, hpc, Action.lockOp, LockOp.holdsAfter, hm, heq]
    · simp [Call.holdsMutex, Action.lockOp, LockOp.holdsAfter, hm, heq]
  | create hpc =>
    simp [Call.holdsMutex, Call.holds, hsound.uncreated hpc, Action.lockOp, LockOp.holdsAfter]
  | waitToObtain d hpc | waitToRelease d hpc | complete d hpc =>
    simp [Call.holdsMutex, Call.holds, hpc, Action.lockOp, LockOp.holdsAfter]
  | _ => simp [Call.holdsMutex, Call.holds, Action.lockOp, LockOp.holdsAfter]

/-- **A mutex is held by the thread that has it.** -/
theorem owner_iff_holdsMutex (h : Run step ok (init all) hist s) (m u : ℕ) :
    (s.thread u).holdsMutex m = true ↔ s.shared m = some u := by
  refine h.invariant (P := fun _ s => ∀ u, (s.thread u).holdsMutex m = true ↔ s.shared m = some u)
    ?_ ?_ u
  · intro u
    simp [init, Call.init, Call.holdsMutex, Call.holds]
  · intro hist s e act s' hrun hinv _ hs u
    obtain ⟨c, w, htstep, hgrant, rfl⟩ := Pool.step_iff.mp hs
    obtain ⟨howner, hfree⟩ := grant_cases hgrant m
    obtain ⟨hholds, hheld⟩ := holdsMutex_step (sound_of_run hrun e.1) htstep m
    show (Function.update s.thread e.1 c u).holdsMutex m = true ↔ w m = some u
    rw [howner]
    exact owner_iff_holds_update hinv hholds hfree hheld u

/-- **Mutual exclusion**, for each mutex. -/
theorem eq_of_holds (h : Run step ok (init all) hist s) {u v : ℕ}
    (hmutex : (all u).mutex = (all v).mutex) (hu : (s.thread u).holds = true)
    (hv : (s.thread v).holds = true) : u = v := by
  have hholds : ∀ w, (all w).mutex = (all v).mutex → (s.thread w).holds = true →
      s.shared (all v).mutex = some w := fun w hm hw => by
    refine (owner_iff_holdsMutex h _ w).mp ?_
    rw [Call.holdsMutex, hw, (sound_of_run h w).args_eq, hm, decide_eq_true rfl, Bool.and_self]
  exact Option.some.inj ((hholds u hmutex hu).symm.trans (hholds v rfl hv))

/-- One thread has the mutex, so the other, which is at its lock, has not. -/
theorem eq_of_holds_two :
    ∃ hist s, Run step (fun _ _ => True) (init fun _ => ⟨7, 10, 10⟩) hist s ∧
      (s.thread 0).holds = true ∧ (s.thread 1).thread = some .lock ∧
      (s.thread 1).holds = false := by
  obtain ⟨hist, s, hrun, hholds, hlock⟩ := exists_run_of_replay step (fun _ _ => True)
    (init fun _ => ⟨7, 10, 10⟩)
    [(0, .starter false), (1, .starter false), (0, .starter false), (1, .starter false),
      (1, .thread), (0, .thread), (0, .thread)]
    (fun _ s => (s.thread 0).holds = true ∧ (s.thread 1).thread = some .lock) (by decide)
  refine ⟨hist, s, hrun, hholds, hlock, ?_⟩
  rw [← Bool.not_eq_true]
  exact fun hone => absurd (eq_of_holds hrun rfl hholds hone) (by decide)

/-! ## That it ends -/

/-- The steps of a call and its thread that are left. -/
def Call.stepsLeft (c : Call) : ℕ :=
  (match c.start with
    | .malloc => 4
    | .create => 3
    | .succeed => 2
    | .ret => 1
    | .returned _ => 0) +
  match c.thread, c.start with
  | none, .malloc | none, .create => 5
  | none, _ => 0
  | some .waitToObtain, _ => 5
  | some .lock, _ => 4
  | some .waitToRelease, _ => 3
  | some .unlock, _ => 2
  | some .complete, _ => 1
  | some .returned, _ => 0

theorem stepsLeft_step (hsound : c.Sound args) (hs : c.step turn = .ok (act, c')) :
    1 + c'.stepsLeft ≤ c.stepsLeft := by
  cases step_iff.mp hs with
  | malloc hpc => simp [Call.stepsLeft, hpc, hsound.unmade hpc]
  | create hpc | notCreated hpc => simp [Call.stepsLeft, hpc, hsound.uncreated hpc]
  | succeed b d hpc =>
    have hthread := hsound.created hpc
    cases hc : c.thread with
    | none => exact absurd hc hthread
    | some pc => cases pc <;> simp [Call.stepsLeft, hpc, hc]
  | ret b d hpc =>
    cases hc : c.thread with
    | none => simp [Call.stepsLeft, hpc, hc]
    | some pc => cases pc <;> simp [Call.stepsLeft, hpc, hc]
  | waitToObtain d hpc | lock d hpc | waitToRelease d hpc | unlock d hpc | complete d hpc =>
    simp only [Call.stepsLeft, hpc]
    omega

/-- **A call and its thread make nine steps at most.** -/
theorem steps_of_call_le (h : Run step ok (init all) hist s) (u : ℕ) :
    (Pool.ofThread u hist).length + (s.thread u).stepsLeft ≤ 9 := by
  have hrun := Pool.run_thread h u
  have hpaid := hrun.amortised (fun _ c => c.stepsLeft) (fun _ => 1) (fun _ => 0)
    fun _ c turn act c' hc _ hs => stepsLeft_step (hc.invariant (P := fun _ c => c.Sound (all u))
      (sound_init (all u)) fun _ _ _ _ _ _ hc _ hs => sound_step hc hs) hs
  simpa [init, Call.init, Call.stepsLeft] using hpaid

/-- A step is possible. -/
def CanStep (s : Calls) (e : ℕ × Turn) : Prop := ∃ act s', step s e = .ok (act, s')

theorem canStep_of {u : ℕ} (hs : (s.thread u).step turn = .ok (act, c'))
    (hfree : ∀ m, act = .lock m → s.shared m = none) : CanStep s (u, turn) := by
  obtain ⟨w, hw⟩ : ∃ w, grant s.shared u act turn = some w := by
    cases act with
    | lock m => exact ⟨_, if_pos (hfree m rfl)⟩
    | _ => exact ⟨_, rfl⟩
  exact ⟨act, _, Pool.step_iff.mpr ⟨c', w, hs, hw, rfl⟩⟩

/-- The call has returned, and its thread, if it has one. -/
def Call.Finished (c : Call) : Prop :=
  (∃ r, c.start = .returned r) ∧ (c.thread = none ∨ c.thread = some .returned)

/-- **A call does not wait for anything.** -/
theorem canStep_starter (h : Run step ok (init all) hist s) {u : ℕ}
    (hstart : ∀ r, (s.thread u).start ≠ .returned r) : CanStep s (u, .starter false) := by
  have hsound := sound_of_run h u
  cases hpc : (s.thread u).start with
  | malloc => exact canStep_of (step_iff.mpr (.malloc hpc)) (by simp)
  | create => exact canStep_of (step_iff.mpr (.create hpc)) (by simp)
  | succeed =>
    obtain ⟨flag, hd⟩ := hsound.made (by simp [hpc])
    exact canStep_of (step_iff.mpr (.succeed false _ hpc hd)) (by simp)
  | ret =>
    obtain ⟨flag, hd⟩ := hsound.made (by simp [hpc])
    exact canStep_of (step_iff.mpr (.ret false _ hpc hd)) (by simp)
  | returned r => exact absurd hpc (hstart r)

/-- A thread waits for its mutex only. -/
theorem canStep_thread (h : Run step ok (init all) hist s) {u : ℕ} {pc : Pc}
    (hpc : (s.thread u).thread = some pc) (hret : pc ≠ .returned)
    (hfree : pc = .lock → s.shared (all u).mutex = none) : CanStep s (u, .thread) := by
  have hsound := sound_of_run h u
  obtain ⟨flag, hd⟩ := hsound.made (hsound.ne_malloc (by simp [hpc]))
  cases pc with
  | waitToObtain => exact canStep_of (step_iff.mpr (.waitToObtain _ hpc hd)) (by simp)
  | lock =>
    refine canStep_of (step_iff.mpr (.lock _ hpc hd)) fun m hm => ?_
    rw [← Action.lock.inj hm]
    exact hfree rfl
  | waitToRelease => exact canStep_of (step_iff.mpr (.waitToRelease _ hpc hd)) (by simp)
  | unlock => exact canStep_of (step_iff.mpr (.unlock _ hpc hd)) (by simp)
  | complete => exact canStep_of (step_iff.mpr (.complete _ hpc hd)) (by simp)
  | returned => exact absurd rfl hret

/-- **Where nothing goes on, everything is done**: if no call that has been made can go on, nor
its thread, then all these calls have returned and all their threads too, and every mutex is
free. -/
theorem finished_of_stuck_calls (h : Run step ok (init all) hist s)
    (hstuck : ∀ u turn, (s.thread u).start ≠ .malloc → ¬ CanStep s (u, turn)) :
    (∀ u, (s.thread u).start ≠ .malloc → (s.thread u).Finished) ∧ ∀ m, s.shared m = none := by
  have hreturned : ∀ u, (s.thread u).start ≠ .malloc → ∃ r, (s.thread u).start = .returned r := by
    intro u hmade
    by_contra hnot
    exact hstuck u _ hmade (canStep_starter h fun r hr => hnot ⟨r, hr⟩)
  -- for each mutex, with the threads that use it
  have hthreads : ∀ m u, (all u).mutex = m →
      (s.thread u).thread = none ∨ (s.thread u).thread = some .returned := by
    intro m u
    refine finished_of_stuck (fun u => (s.thread u).holdsMutex m = true)
      (fun u => (all u).mutex = m →
        (s.thread u).thread = none ∨ (s.thread u).thread = some .returned)
      (fun u => (s.thread u).start ≠ .malloc ∧ CanStep s (u, .thread))
      (fun u hu => (owner_iff_holdsMutex h m u).mpr hu) ?_ ?_
      (fun u hu => hstuck u _ hu.1 hu.2) u
    · intro u hfin hholds
      rw [Call.holdsMutex, Bool.and_eq_true, decide_eq_true_eq,
        (sound_of_run h u).args_eq] at hholds
      rcases hfin hholds.2 with hnone | hret
      · exact absurd hholds.1 (by simp [Call.holds, hnone])
      · exact absurd hholds.1 (by simp [Call.holds, hret])
    · intro u hnot hcan
      push Not at hnot
      obtain ⟨hm, hnone, hret⟩ := hnot
      obtain ⟨pc, hpc⟩ := Option.ne_none_iff_exists'.mp hnone
      have hmade := (sound_of_run h u).ne_malloc hnone
      have hne : pc ≠ .returned := by
        rintro rfl
        exact hret hpc
      have hlock : pc = .lock := by
        by_contra hlock
        exact hcan ⟨hmade, canStep_thread h hpc hne fun hp => absurd hp hlock⟩
      refine ⟨by simp [Call.holdsMutex, Call.holds, hpc, hlock], fun hfree => ?_⟩
      exact hcan ⟨hmade, canStep_thread h hpc hne fun _ => by rw [hm, hfree]⟩
  refine ⟨fun u hmade => ⟨hreturned u hmade, hthreads _ u rfl⟩, fun m => ?_⟩
  by_contra howned
  obtain ⟨u, hu⟩ := Option.ne_none_iff_exists'.mp howned
  have hholds := (owner_iff_holdsMutex h m u).mpr hu
  rw [Call.holdsMutex, Bool.and_eq_true] at hholds
  rcases hthreads _ u rfl with hnone | hret
  · exact absurd hholds.1 (by simp [Call.holds, hnone])
  · exact absurd hholds.1 (by simp [Call.holds, hret])

/-- **Every call comes to an end, and its thread too**: together they make nine steps at most,
and if none that has been made can go on, all have returned and the mutexes are free. -/
theorem calls_end (h : Run step ok (init all) hist s) :
    (∀ u, (Pool.ofThread u hist).length ≤ 9) ∧
      ((∀ u turn, (s.thread u).start ≠ .malloc → ¬ CanStep s (u, turn)) →
        (∀ u, (s.thread u).start ≠ .malloc → (s.thread u).Finished) ∧
          ∀ m, s.shared m = none) :=
  ⟨fun u => (Nat.le_add_right _ _).trans (steps_of_call_le h u), finished_of_stuck_calls h⟩

/-- What has returned makes no step. -/
theorem not_canStep_of_finished {u : ℕ} (hfin : (s.thread u).Finished) (turn : Turn) :
    ¬ CanStep s (u, turn) := by
  rintro ⟨act, s', hs⟩
  obtain ⟨c, w, htstep, -, -⟩ := Pool.step_iff.mp hs
  obtain ⟨⟨r, hr⟩, hthread⟩ := hfin
  cases step_iff.mp htstep with
  | malloc hpc | create hpc | notCreated hpc | succeed b d hpc | ret b d hpc =>
    exact absurd (hpc.symm.trans hr) (by simp)
  | waitToObtain d hpc | lock d hpc | waitToRelease d hpc | unlock d hpc | complete d hpc =>
    rcases hthread with hnone | hret
    · exact absurd (hpc.symm.trans hnone) (by simp)
    · exact absurd (hpc.symm.trans hret) (by simp)

/-- One call and its thread. -/
theorem calls_end_one :
    ∃ hist s, Run step (fun _ _ => True) (init fun _ => ⟨7, 10, 10⟩) hist s ∧
      hist.length = 9 ∧ (s.thread 0).Finished ∧ ∀ m, s.shared m = none := by
  obtain ⟨hist, s, hrun, hlen, hall, hret, hthread⟩ := exists_run_of_replay step
    (fun _ _ => True) (init fun _ => ⟨7, 10, 10⟩)
    [(0, .starter false), (0, .starter false), (0, .thread), (0, .thread), (0, .starter false),
      (0, .thread), (0, .starter false), (0, .thread), (0, .thread)]
    (fun hist s => hist.length = 9 ∧ (∀ e ∈ hist, e.1.1 = 0) ∧
      (s.thread 0).start = .returned true ∧ (s.thread 0).thread = some .returned) (by decide)
  have hfin : (s.thread 0).Finished := ⟨⟨true, hret⟩, .inr hthread⟩
  -- the others have not been made
  have hothers : ∀ u ≠ 0, s.thread u = Call.init ⟨7, 10, 10⟩ := by
    intro u hu
    have hnone : Pool.ofThread u hist = [] := List.flatMap_eq_nil_iff.mpr fun e he =>
      if_neg fun heq => hu (heq.symm.trans (hall e he))
    have hrunThread := Pool.run_thread hrun u
    rw [hnone] at hrunThread
    have hnothing : Run Call.step (fun _ _ => True) (Call.init ⟨7, 10, 10⟩) []
        (Call.init ⟨7, 10, 10⟩) := .start
    exact hrunThread.unique hnothing
  obtain ⟨-, hend⟩ := calls_end hrun
  refine ⟨hist, s, hrun, hlen, hfin, (hend fun u turn hmade => ?_).2⟩
  by_cases hu : u = 0
  · rw [hu]
    exact not_canStep_of_finished hfin turn
  · exact absurd (by rw [hothers u hu]; rfl) hmade

end Threading
end Aesd
