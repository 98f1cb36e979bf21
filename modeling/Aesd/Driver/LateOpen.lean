import Aesd.Driver.Representation
import Aesd.Foundations.Simulation

/-!
# Opening without the lock

`aesd_open` takes no lock.  It tests `full`, and if the ring is not full it stores 0 in
`out_offs`.  Here these are two steps with any number of calls of others between them, and
any number of opens may be on their way at once.  The calls of others are single steps: it is
assumed that no open stores in the middle of one, which `dev->lock` does not prevent, because
an open does not take it.  `opens_linearize` needs this.  What is known of the ring does not,
because a store sets `out_offs` to 0 and nothing else wherever it comes.

If the ring is not full when the store comes, the open might as well have happened then, all
of it (`opens_linearize`).  If the ring has become full in the meantime, the store is one that
no open of a full ring makes: the reader is set back to slot 0, wherever the oldest entry is.
But nothing relies on where the reader is, apart from its not being ahead of the writer before
the tenth commit, and 0 never is: what is known of the ring holds all the same
(`represents_of_late_run`).  And once the ring is full no further open begins that could come
too late: those that do were on their way before, and each of them comes once (`stale_since`).
-/

namespace Aesd

/-- The driver, the open files, and the opens on their way. -/
structure LateSys extends Sys where
  /-- For each file that is being opened, whether the ring was found not to be full. -/
  opening : ℕ → Option Bool

namespace LateSys

/-- One step. -/
inductive Act where
  /-- `aesd_open` as far as the test. -/
  | testFull (file : ℕ)
  /-- `aesd_open` from the test on. -/
  | finishOpen (file : ℕ)
  /-- A call that is atomic. -/
  | atomic (c : Call)

/-- The loaded driver. -/
def init : LateSys := { Sys.init with opening := fun _ => none }

/-- What `aesd_open` does after the test. -/
def store (d : Driver) (notFull : Bool) : Driver :=
  if notFull then { d with dev.bufferP.outOffs := 0 } else d

/-- One step.  A call is one step, so no open stores in the middle of it; the lock, which an
open does not take, does not prevent that.  An open that has not tested does nothing. -/
def step (s : LateSys) : Act → Except Fault (Reply × LateSys)
  | .testFull file =>
      .ok ({ retval := 0 },
        { s with opening := Function.update s.opening file (some (!s.dev.bufferP.full)) })
  | .finishOpen file =>
      match s.opening file with
      | some notFull =>
          .ok ({ retval := 0 },
            { s.after file 0 (store s.toDriver notFull) with
              opening := Function.update s.opening file none })
      | none => .ok ({ retval := 0 }, s)
  | .atomic c => (s.toSys.step c).map fun q => (q.1, { s with toSys := q.2 })

variable {ok : LateSys → Act → Prop} {hist : List (Act × Reply)} {s s' s₀ : LateSys} {a : Act}
  {r : Reply}

/-- **What a step can be.** -/
theorem step_cases (h : s.step a = .ok (r, s')) :
    (∃ file, a = .testFull file ∧ r = { retval := 0 } ∧ s' =
      { s with opening := Function.update s.opening file (some (!s.dev.bufferP.full)) }) ∨
    (∃ file notFull, a = .finishOpen file ∧ s.opening file = some notFull ∧
      r = { retval := 0 } ∧ s' = { s.after file 0 (store s.toDriver notFull) with
        opening := Function.update s.opening file none }) ∨
    (∃ file, a = .finishOpen file ∧ s.opening file = none ∧ r = { retval := 0 } ∧ s' = s) ∨
    ∃ c t, a = .atomic c ∧ s.toSys.step c = .ok (r, t) ∧ s' = { s with toSys := t } := by
  cases a with
  | testFull file =>
    obtain ⟨rfl, rfl⟩ := Prod.mk.inj (Except.ok.inj h)
    exact .inl ⟨file, rfl, rfl, rfl⟩
  | finishOpen file =>
    rw [step] at h
    split at h
    · next notFull hopening =>
      obtain ⟨rfl, rfl⟩ := Prod.mk.inj (Except.ok.inj h)
      exact .inr (.inl ⟨file, notFull, rfl, hopening, rfl, rfl⟩)
    · next hopening =>
      obtain ⟨rfl, rfl⟩ := Prod.mk.inj (Except.ok.inj h)
      exact .inr (.inr (.inl ⟨file, rfl, hopening, rfl, rfl⟩))
  | atomic c =>
    rw [step] at h
    cases hc : s.toSys.step c with
    | error f => rw [hc] at h; exact absurd h (by simp [Except.map])
    | ok q =>
      rw [hc] at h
      obtain ⟨rfl, rfl⟩ := Prod.mk.inj (Except.ok.inj h)
      exact .inr (.inr (.inr ⟨c, q.2, rfl, hc, rfl⟩))

/-! ## What is known of the ring -/

theorem wf_store {d : Driver} (hw : d.Wf) (notFull : Bool) : (store d notFull).Wf := by
  rw [store]
  split
  · exact ⟨hw.owned, hw.sized, hw.bounded, hw.null, hw.inOffs_lt, by
      show 0 < 10
      decide, hw.counter_nonneg, hw.counter_le⟩
  · exact hw

theorem represents_store {d : Driver} {c : ℕ} (h : Represents c d.dev.bufferP) (notFull : Bool) :
    Represents c (store d notFull).dev.bufferP := by
  rw [store]
  split
  · exact ⟨h.inOffs, h.occupied, fun _ => Nat.zero_le _, h.full⟩
  · exact h

theorem wf_step (hw : s.Wf) (hs : s.step a = .ok (r, s')) : s'.Wf := by
  rcases step_cases hs with ⟨file, -, -, rfl⟩ | ⟨file, notFull, -, -, -, rfl⟩ |
    ⟨file, -, -, -, rfl⟩ | ⟨c, t, -, ht, rfl⟩
  · exact hw
  · exact wf_store hw notFull
  · exact hw
  · exact Sys.step_wf hw ht

/-- **Memory is safe however late an open is.** -/
theorem wf_of_late_run (h : Run step ok init hist s) : s.Wf :=
  h.invariant (P := fun _ s => s.Wf) Sys.init_wf fun _ _ _ _ _ _ hw _ hs => wf_step hw hs

/-- The atomic calls of a history. -/
def calls (e : Act × Reply) : List (Call × Reply) :=
  match e.1 with
  | .atomic c => [(c, e.2)]
  | _ => []

/-- A restriction on the atomic calls. -/
def OnCalls (ok : Sys → Call → Prop) (s : LateSys) : Act → Prop
  | .atomic c => ok s.toSys c
  | _ => True

instance (ok : Sys → Call → Prop) [∀ s c, Decidable (ok s c)] (s : LateSys) (a : Act) :
    Decidable (OnCalls ok s a) :=
  match a with
  | .atomic _ => inferInstanceAs (Decidable (ok _ _))
  | .testFull _ | .finishOpen _ => isTrue trivial

/-- **The ring is what the commits have made it**, however late the opens are. -/
theorem represents_of_late_run (h : Run step (OnCalls (OnWrites Allocates)) init hist s) :
    s.Wf ∧ Represents (commits (hist.flatMap calls)).length s.dev.bufferP := by
  refine ⟨wf_of_late_run h, ?_⟩
  refine h.invariant
    (P := fun hist s => Represents (commits (hist.flatMap calls)).length s.dev.bufferP) ?_ ?_
  · exact Represents.init
  intro hist s a r s' hrun hrep hok hs
  have hw := wf_of_late_run hrun
  rw [List.flatMap_append, List.flatMap_singleton]
  rcases step_cases hs with ⟨file, rfl, -, rfl⟩ | ⟨file, notFull, rfl, -, -, rfl⟩ |
    ⟨file, rfl, -, -, rfl⟩ | ⟨c, t, rfl, ht, rfl⟩
  · simpa [calls] using hrep
  · simpa [calls] using represents_store hrep notFull
  · simpa [calls] using hrep
  · have hcall : OnWrites Allocates s.toSys c := hok
    have hone : calls (.atomic c, r) = [(c, r)] := rfl
    rw [hone, commits_concat, List.length_append]
    exact Sys.step_represents hw hrep (hcall.mono fun _ _ _ _ hp => hp.1) ht

/-- A ring of ten lines, an open that began when there were nine, and a reader at slot 3. -/
def lateCalls : List Act :=
  (.atomic (.aesdOpen 0) :: List.replicate 9 (.atomic (writeLine [97, 10]))) ++
    [.testFull 1, .atomic (writeLine [98, 10]), .atomic (.aesdRead 0 false 9 9),
      .atomic (.aesdRead 0 false 9 9), .atomic (.aesdRead 0 false 9 9), .finishOpen 1]

theorem represents_of_late_run_ten :
    ∃ hist s, Run step (OnCalls (OnWrites Allocates)) init hist s ∧
      (commits (hist.flatMap calls)).length = 10 ∧ s.dev.bufferP.full = true ∧
      s.dev.bufferP.outOffs = 0 ∧ s.Wf ∧ Represents 10 s.dev.bufferP := by
  obtain ⟨hist, s, hrun, hlen, hfull, hout⟩ := exists_run_of_replay step
    (OnCalls (OnWrites Allocates)) init lateCalls
    (fun hist s => (commits (hist.flatMap calls)).length = 10 ∧ s.dev.bufferP.full = true ∧
      s.dev.bufferP.outOffs = 0) (by decide +kernel)
  obtain ⟨hw, hrep⟩ := represents_of_late_run hrun
  exact ⟨hist, s, hrun, hlen, hfull, hout, hw, hlen ▸ hrep⟩

/-! ## Opens that are in time -/

/-- A call does not empty a full ring. -/
theorem full_of_call {s s' : Sys} {c : Call} {r : Reply} (hw : s.Wf)
    (hs : s.step c = .ok (r, s')) (hfull : s.dev.bufferP.full = true) :
    s'.dev.bufferP.full = true := by
  rcases Sys.step_cases hw hs with ⟨hq, -⟩ | ⟨_, _, _, _, _, _, _, -, -, hout, -⟩
  · exact hq.full.trans hfull
  · rcases hout.ring with ⟨-, hring⟩ | ⟨e, entry, -, -, -, hring⟩
    · rw [hring]
      exact hfull
    · rw [hring, addEntry_full _ hw.inOffs_lt, hfull, Bool.true_or]

/-- A ring that is full stays full. -/
theorem full_step (hw : s.Wf) (hs : s.step a = .ok (r, s')) (hfull : s.dev.bufferP.full = true) :
    s'.dev.bufferP.full = true := by
  rcases step_cases hs with ⟨file, -, -, rfl⟩ | ⟨file, notFull, -, -, -, rfl⟩ |
    ⟨file, -, -, -, rfl⟩ | ⟨c, t, -, ht, rfl⟩
  · exact hfull
  · cases notFull with
    | true => exact hfull
    | false => exact hfull
  · exact hfull
  · exact full_of_call hw ht hfull

/-- An open that found the ring full is right. -/
def Tested (s : LateSys) : Prop :=
  ∀ file, s.opening file = some false → s.dev.bufferP.full = true

theorem tested_step (hw : s.Wf) (ht : Tested s) (hs : s.step a = .ok (r, s')) : Tested s' := by
  intro file hfile
  -- it was found full before the step, or by it
  suffices hbefore : s.dev.bufferP.full = true from full_step hw hs hbefore
  rcases step_cases hs with ⟨file', -, -, rfl⟩ | ⟨file', notFull, -, -, -, rfl⟩ |
    ⟨file', -, -, -, rfl⟩ | ⟨c, t, -, -, rfl⟩
  · by_cases hne : file = file'
    · subst hne
      simpa using hfile
    · exact ht file (by simpa [Function.update_of_ne hne] using hfile)
  · by_cases hne : file = file'
    · subst hne
      simp at hfile
    · exact ht file (by simpa [Function.update_of_ne hne] using hfile)
  · exact ht file hfile
  · exact ht file hfile

/-- The step does not finish an open whose test is out of date. -/
def Timely (s : LateSys) : Act → Prop
  | .finishOpen file => s.opening file = some false ∨
      s.opening file = some true ∧ s.dev.bufferP.full = false
  | _ => True

instance (s : LateSys) (a : Act) : Decidable (Timely s a) :=
  match a with
  | .finishOpen _ => inferInstanceAs (Decidable (_ ∨ _))
  | .testFull _ | .atomic _ => isTrue trivial

/-- What a caller sees of a step: an open is there when it returns. -/
def seen (e : Act × Reply) : List (Call × Reply) :=
  match e.1 with
  | .testFull _ => []
  | .finishOpen file => [(.aesdOpen file, e.2)]
  | .atomic c => [(c, e.2)]

/-- A store that is in time is what an open does. -/
theorem store_eq {file : ℕ} {notFull : Bool} (ht : Tested s)
    (hopening : s.opening file = some notFull) (hok : Timely s (.finishOpen file)) :
    aesdOpen s.toDriver = store s.toDriver notFull := by
  rcases hok with hfalse | ⟨htrue, hfull⟩
  · obtain rfl : notFull = false := Option.some.inj (hopening.symm.trans hfalse)
    rw [aesdOpen, if_pos (ht file hfalse)]
    rfl
  · obtain rfl : notFull = true := Option.some.inj (hopening.symm.trans htrue)
    rw [aesdOpen, if_neg (by rw [hfull]; simp)]
    rfl

/-- **An open that is in time happens when it finishes**, all of it, as long as none stores in
the middle of another call. -/
theorem opens_linearize (h : Run step Timely init hist s) :
    Run Sys.step (fun _ _ => True) Sys.init (hist.flatMap seen) s.toSys := by
  have hsim : ∃ hist' t, Run Sys.step (fun _ _ => True) Sys.init hist' t ∧
      (t = s.toSys ∧ s.Wf ∧ Tested s) ∧ hist'.flatMap (fun e => [e]) = hist.flatMap seen := by
    refine h.simulate (fun s t => t = s.toSys ∧ s.Wf ∧ Tested s) seen (fun e => [e]) ?_ ?_
    · rintro s t a r u ⟨rfl, hw, ht⟩ hok hs
      have ht' := tested_step hw ht hs
      rcases step_cases hs with ⟨file, rfl, -, rfl⟩ | ⟨file, notFull, rfl, hopening, rfl, rfl⟩ |
        ⟨file, rfl, hopening, -, -⟩ | ⟨c, t, rfl, hstep, rfl⟩
      · exact .inl ⟨⟨rfl, hw, ht'⟩, rfl⟩
      · refine .inr ⟨.aesdOpen file, { retval := 0 }, _, trivial, rfl,
          ⟨?_, wf_store hw notFull, ht'⟩, rfl⟩
        rw [store_eq ht hopening hok]
      · rcases hok with hfalse | ⟨htrue, -⟩
        · exact absurd (hopening.symm.trans hfalse) (by simp)
        · exact absurd (hopening.symm.trans htrue) (by simp)
      · exact .inr ⟨c, r, t, trivial, hstep, ⟨rfl, Sys.step_wf hw hstep, ht'⟩, rfl⟩
    · exact ⟨rfl, Sys.init_wf, fun _ h => absurd h (by simp [init])⟩
  obtain ⟨hist', t, hrun, ⟨rfl, -⟩, hshown⟩ := hsim
  rw [← hshown, List.flatMap_singleton']
  exact hrun

/-- Two opens on their way at once, and a line that is committed before either has stored. -/
theorem opens_linearize_two :
    ∃ hist s, Run step Timely init hist s ∧ s.fPos 2 = some 0 ∧
      Run Sys.step (fun _ _ => True) Sys.init (hist.flatMap seen) s.toSys := by
  obtain ⟨hist, s, hrun, hpos⟩ := exists_run_of_replay step Timely init
    [.atomic (.aesdOpen 0), .testFull 1, .testFull 2, .atomic (writeLine [97, 10]),
      .finishOpen 2, .finishOpen 1]
    (fun _ s => s.fPos 2 = some 0) (by decide +kernel)
  exact ⟨hist, s, hrun, hpos, opens_linearize hrun⟩

/-- An open that will store after this step, in a full ring, would have done so before. -/
theorem opening_step (hfull : s.dev.bufferP.full = true) (hs : s.step a = .ok (r, s'))
    {file : ℕ} (h : s'.opening file = some true) :
    s.opening file = some true ∧ a ≠ .testFull file ∧ a ≠ .finishOpen file := by
  rcases step_cases hs with ⟨file', rfl, -, rfl⟩ | ⟨file', notFull, rfl, -, -, rfl⟩ |
    ⟨file', rfl, hnone, -, rfl⟩ | ⟨c, t, rfl, -, rfl⟩
  · by_cases hne : file = file'
    · subst hne
      simp [hfull] at h
    · have hbefore : Function.update s.opening file' _ file = some true := h
      rw [Function.update_of_ne hne] at hbefore
      exact ⟨hbefore, by simpa using Ne.symm hne, by simp⟩
  · by_cases hne : file = file'
    · subst hne
      simp at h
    · have hbefore : Function.update s.opening file' _ file = some true := h
      rw [Function.update_of_ne hne] at hbefore
      exact ⟨hbefore, by simp, by simpa using Ne.symm hne⟩
  · refine ⟨h, by simp, ?_⟩
    rintro ⟨⟩
    exact absurd (h.symm.trans hnone) (by simp)
  · exact ⟨h, by simp, by simp⟩

/-- **No open begins too late.**  Once the ring is full, an open that is still going to set the
reader back has been on its way since before. -/
theorem stale_since (h : Run step ok s₀ hist s) (hw₀ : s₀.Wf)
    (hfull₀ : s₀.dev.bufferP.full = true) {file : ℕ} (hstale : s.opening file = some true) :
    s₀.opening file = some true ∧ ∀ e ∈ hist, e.1 ≠ .testFull file ∧ e.1 ≠ .finishOpen file := by
  have hinv : s.Wf ∧ s.dev.bufferP.full = true ∧ ∀ file, s.opening file = some true →
      s₀.opening file = some true ∧
        ∀ e ∈ hist, e.1 ≠ .testFull file ∧ e.1 ≠ .finishOpen file := by
    refine h.invariant (P := fun hist s => s.Wf ∧ s.dev.bufferP.full = true ∧
      ∀ file, s.opening file = some true → s₀.opening file = some true ∧
        ∀ e ∈ hist, e.1 ≠ .testFull file ∧ e.1 ≠ .finishOpen file) ?_ ?_
    · exact ⟨hw₀, hfull₀, fun file hfile => ⟨hfile, fun e he => absurd he (by simp)⟩⟩
    · intro hist s a r s' _ hinv _ hs
      obtain ⟨hw, hfull, hstale⟩ := hinv
      refine ⟨wf_step hw hs, full_step hw hs hfull, fun file hfile => ?_⟩
      obtain ⟨hbefore, hact⟩ := opening_step hfull hs hfile
      obtain ⟨hstart, hhist⟩ := hstale file hbefore
      refine ⟨hstart, fun e he => ?_⟩
      rcases List.mem_append.mp he with he | he
      · exact hhist e he
      · rw [List.mem_singleton.mp he]
        exact hact
  exact hinv.2.2 file hstale

/-- An open that begins when the ring is full, and one that began before. -/
theorem stale_since_one :
    ∃ hist₀ s₀ hist s, Run step (fun _ _ => True) init hist₀ s₀ ∧
      s₀.dev.bufferP.full = true ∧ Run step (fun _ _ => True) s₀ hist s ∧ hist.length = 1 ∧
      s₀.opening 1 = some true ∧ ∀ e ∈ hist, e.1 ≠ .testFull 1 ∧ e.1 ≠ .finishOpen 1 := by
  obtain ⟨hist₀, s₀, hrun₀, hfull₀, hone₀⟩ := exists_run_of_replay step (fun _ _ => True) init
    ((.atomic (.aesdOpen 0) :: List.replicate 9 (.atomic (writeLine [97, 10]))) ++
      [.testFull 1, .atomic (writeLine [98, 10])])
    (fun _ s => s.dev.bufferP.full = true ∧ s.opening 1 = some true) (by decide +kernel)
  have hrun : Run step (fun _ _ => True) s₀ [(.testFull 2, { retval := 0 })]
      { s₀ with opening := Function.update s₀.opening 2 (some (!s₀.dev.bufferP.full)) } :=
    Run.start.call trivial rfl
  have hstale : Function.update s₀.opening 2 (some (!s₀.dev.bufferP.full)) 1 = some true := by
    rw [Function.update_of_ne (by decide)]
    exact hone₀
  exact ⟨hist₀, s₀, _, _, hrun₀, hfull₀, hrun, rfl,
    stale_since hrun (wf_of_late_run hrun₀) hfull₀ hstale⟩

end LateSys
end Aesd
