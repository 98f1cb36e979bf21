import Aesd.Examples.Systemcalls

/-!
# The output files of `do_exec_redirect`

`creat` takes the lowest descriptor that is free, the child duplicates it under 1 and closes it,
and the parent keeps it.  Both halves of this have a price.

* In the parent, and in whatever is forked from it, one descriptor fewer is free after every call
  that gets as far as `creat`.  The calls that a process can make are counted from the descriptors
  that were free when the first process began; when they are used up every further call returns
  false (`redirects_le`).
* In the child, the file may have been opened under 1 itself, since the call can be made with 1
  closed.  Then `dup2` does nothing, `close` closes what was wanted, and the command has no
  standard output at all (`table_of_command`).

Nothing else is closed for the command but what the caller has marked to be.
-/

namespace Aesd
namespace Systemcalls

variable {φ : Type*} {limit : ℕ} {s s' : Procs φ} {p : ℕ} {q : Proc φ} {act : Act φ} {r : Reply}
  {table : Descriptors φ} {ok : Procs φ → ℕ × Act φ → Prop} {hist : List ((ℕ × Act φ) × Reply)}

/-! ## Descriptors that are not closed -/

/-- The open files of a process are those the first one began with and one for every call. -/
structure Counted (limit : ℕ) (table : Descriptors φ) (q : Proc φ) : Prop where
  le : q.past.opened + Descriptors.openCount limit table ≤ limit
  eq : q.pc.calling = true ∨ (∃ fd, q.pc = .dup2 fd) →
    Descriptors.openCount limit q.table = q.past.opened + Descriptors.openCount limit table

/-- A process that does not come back to the caller's code. -/
theorem Counted.gone {q' : Proc φ} (hc : Counted limit table q)
    (hopened : q'.past.opened = q.past.opened) (hcalling : q'.pc.calling = false)
    (hdup2 : ∀ fd, q'.pc ≠ .dup2 fd) : Counted limit table q' where
  le := by
    rw [hopened]
    exact hc.le
  eq h := by
    rcases h with h | ⟨fd, h⟩
    · exact absurd (hcalling.symm.trans h) (by simp)
    · exact absurd h (hdup2 fd)

/-- A process that goes on with the same files. -/
theorem Counted.same {q' : Proc φ} (hc : Counted limit table q)
    (hpc : q.pc.calling = true ∨ ∃ fd, q.pc = .dup2 fd)
    (hopened : q'.past.opened = q.past.opened) (htable : q'.table = q.table) :
    Counted limit table q' where
  le := by
    rw [hopened]
    exact hc.le
  eq _ := by
    rw [hopened, htable]
    exact hc.eq hpc

theorem Counted.opened (hc : Counted limit table q) (hpc : q.pc = .caller) {fd : ℕ}
    (hfd : Descriptors.lowest limit q.table = some fd) (f : φ) {q' : Proc φ}
    (hopened : q'.past.opened = q.past.opened + 1)
    (htable : q'.table = q.table.openAt fd f) : Counted limit table q' := by
  have hcount := hc.eq (.inl (by simp [hpc, Pc.calling]))
  obtain ⟨hlt, hfree, -⟩ := Descriptors.lowest_eq_some_iff.mp hfd
  have hmore : Descriptors.openCount limit q'.table =
      q'.past.opened + Descriptors.openCount limit table := by
    rw [htable, Descriptors.openCount_openAt hlt hfree, hcount, hopened]
    omega
  refine ⟨?_, fun _ => hmore⟩
  rw [← hmore]
  exact Descriptors.openCount_le limit q'.table

theorem kept_counted (limit : ℕ) (table : Descriptors φ) :
    Kept limit (fun _ q => Counted limit table q) where
  moves {p q act r q'} hc hm := by
    cases hm with
    | doExec h => exact hc.same (.inl (by simp [h, Pc.calling])) rfl rfl
    | notOpened => exact hc
    | opened f failed fd h hfd => exact hc.opened h hfd f rfl rfl
    | notForked fd h | waitFailed c h => exact hc.same (.inl (by simp [h, Pc.calling])) rfl rfl
    | escaped fd h => exact hc.same (.inr ⟨fd, h⟩) rfl rfl
    | exited | dup2 | close | execvFailed | execv | endCommand | exit =>
      exact hc.gone rfl rfl (by simp)
  parent hne hc h := hc.same (.inl (by simp [h, Pc.calling])) rfl rfl
  child {p q fd c} hne hc h := hc.same (.inl (by simp [h, Pc.calling])) rfl rfl
  waited hc h := hc.same (.inl (by simp [h, Pc.calling])) rfl rfl
  reaped hc h := hc.gone rfl rfl (by simp)

theorem counted_of_run (h : Run (Procs.step limit) ok (Procs.init table) hist s)
    (hq : s.proc p = some q) : Counted limit table q := by
  refine (kept_counted limit table).of_run (fun q₀ hq₀ => ?_) h hq
  obtain rfl := Option.some.inj hq₀
  refine ⟨?_, fun _ => (Nat.zero_add _).symm⟩
  rw [Nat.zero_add]
  exact Descriptors.openCount_le limit table

/-- A call of `do_exec_redirect` has opened its output file. -/
def Redirects (p : ℕ) (e : (ℕ × Act φ) × Reply) : Bool :=
  match e with
  | ((p', .doExecRedirect _ _), .nothing) => p' = p
  | _ => false

/-- How many calls of process `p` have opened their output file. -/
def redirects (p : ℕ) (hist : List ((ℕ × Act φ) × Reply)) : ℕ := hist.countP (Redirects p)

/-- How many output files process `p` has opened, or those before it. -/
def Procs.opened (s : Procs φ) (p : ℕ) : ℕ := (s.proc p).elim 0 fun q => q.past.opened

theorem Procs.opened_eq (hq : s.proc p = some q) : s.opened p = q.past.opened := by
  rw [opened, hq]
  rfl

theorem Procs.opened_set (s : Procs φ) (p : ℕ) (q : Proc φ) (p' : ℕ) :
    (s.set p q).opened p' = if p' = p then q.past.opened else s.opened p' := by
  split
  · next heq =>
    subst heq
    exact opened_eq (set_proc_self s p' q)
  · next hne => rw [opened, opened, set_proc_of_ne hne]

theorem Procs.opened_forked (hf : Fresh s) (hq : s.proc p = some q) (fd : Option ℕ) (p' : ℕ) :
    s.opened p' ≤ (s.forked p q fd).opened p' := by
  by_cases hnext : p' = s.next
  · rw [opened, hnext, hf.2 _ le_rfl]
    exact Nat.zero_le _
  by_cases hp : p' = p
  · subst hp
    rw [opened_eq hq, opened_eq (forked_proc_self hnext)]
  · rw [opened, opened, forked_proc_of_ne hnext hp]

theorem Redirects.eq {p' : ℕ} (h : Redirects p' ((p, act), r) = true) : p' = p := by
  cases act with
  | doExecRedirect f failed =>
    cases r with
    | nothing => exact (of_decide_eq_true h).symm
    | returned b => exact absurd h (by simp [Redirects])
  | _ => exact absurd h (by simp [Redirects])

theorem Moves.counted {q' : Proc φ} (hm : Moves limit q act r q') :
    q.past.opened + (if Redirects p ((p, act), r) = true then 1 else 0) ≤ q'.past.opened := by
  cases hm with
  | opened f failed fd h hfd => exact Nat.add_le_add_left (ite_le_one le_rfl zero_le_one) _
  | _ => exact le_rfl

/-- A step opens what it is counted for. -/
theorem opened_step (hf : Fresh s) (hs : s.step limit (p, act) = .ok (r, s')) (p' : ℕ) :
    s.opened p' + (if Redirects p' ((p, act), r) = true then 1 else 0) ≤ s'.opened p' := by
  obtain ⟨q, hq, ⟨q', hmoves, rfl⟩ | ⟨fd, hpc, rfl, rfl, rfl⟩ |
    ⟨c, w, status, hpc, rfl, hw, hstatus, rfl, rfl⟩⟩ := step_cases hs
  · rw [Procs.opened_set]
    by_cases hp : p' = p
    · rw [if_pos hp, hp, Procs.opened_eq hq]
      exact hmoves.counted
    · rw [if_neg hp, if_neg fun h => hp (Redirects.eq h), Nat.add_zero]
  · exact Procs.opened_forked hf hq fd p'
  · -- nothing is opened when a wait ends
    have hparent : (s.set p { q with pc := .caller }).opened p' = s.opened p' := by
      rw [Procs.opened_set]
      split
      · next heq => rw [heq, Procs.opened_eq hq]
      · rfl
    have hchild : ((s.set p { q with pc := .caller }).set c { w with pc := .reaped }).opened p' =
        s.opened p' := by
      rw [Procs.opened_set, hparent]
      split
      · next heq => rw [heq, Procs.opened_eq hw]
      · rfl
    rw [hchild]
    exact le_rfl

theorem redirects_le_opened (h : Run (Procs.step limit) ok (Procs.init table) hist s) (p : ℕ) :
    redirects p hist ≤ s.opened p := by
  refine h.invariant (P := fun hist s => redirects p hist ≤ s.opened p) (Nat.zero_le _) ?_
  intro hist s e r s' hrun hle _ hs
  have hstep := opened_step (fresh_of_run hrun) hs p
  rw [redirects, List.countP_append, List.countP_singleton]
  exact (Nat.add_le_add_right hle _).trans hstep

/-- **The calls are limited.**  A process makes at most as many that open their output file as
there were descriptors free when the first process began; after that every one returns false. -/
theorem redirects_le (h : Run (Procs.step limit) ok (Procs.init table) hist s) (p : ℕ) :
    redirects p hist + Descriptors.openCount limit table ≤ limit ∧
      (redirects p hist + Descriptors.openCount limit table = limit →
        ∀ f failed r s', s.step limit (p, .doExecRedirect f failed) = .ok (r, s') →
          r = .returned false ∧ s' = s) := by
  have hle := redirects_le_opened h p
  have hopened : s.opened p + Descriptors.openCount limit table ≤ limit := by
    rw [Procs.opened]
    cases hq : s.proc p with
    | none =>
      rw [Option.elim_none, Nat.zero_add]
      exact Descriptors.openCount_le limit table
    | some q => exact (counted_of_run h hq).le
  refine ⟨by omega, fun hfull f failed r s' hs => ?_⟩
  obtain ⟨q, hq, ⟨q', hmoves, rfl⟩ | ⟨-, -, hact, -⟩ | ⟨-, -, -, -, hact, -⟩⟩ := step_cases hs
  · generalize hact : Act.doExecRedirect f failed = act' at hmoves
    -- other steps are not such calls
    cases hmoves with
    | notOpened => exact ⟨rfl, Procs.set_eq_self hq⟩
    | opened f' failed' fd hpc hfd =>
      -- one more would be one too many
      have hmore : q.past.opened + 1 + Descriptors.openCount limit table ≤ limit :=
        ((kept_counted limit table).moves (p := p) (counted_of_run h hq)
          (.opened f' failed' fd hpc hfd)).le
      have hsame := Procs.opened_eq hq
      omega
    | _ => exact absurd hact (by simp)
  · exact absurd hact (by simp)
  · exact absurd hact (by simp)

/-- One call, with one descriptor free: the next returns false. -/
theorem redirects_le_one :
    ∃ (hist : _) (s : Procs ℕ) (r : _) (s' : _),
      Run (Procs.step 4) (fun _ _ => True) (Procs.init standardFiles) hist s ∧
      redirects 0 hist = 1 ∧ s.step 4 (0, .doExecRedirect 8 false) = .ok (r, s') ∧
      r = .returned false ∧ s' = s := by
  obtain ⟨hist, s, hrun, hone, hfull, hsome⟩ := exists_run_of_replay (Procs.step 4)
    (fun _ _ => True) (Procs.init standardFiles)
    [(0, .doExecRedirect 7 false), (0, .fork false), (1, .dup2 false), (1, .close),
      (1, .execv false), (1, .endCommand 0), (0, .waitpid false)]
    (fun hist s => redirects 0 hist = 1 ∧
      redirects 0 hist + Descriptors.openCount 4 standardFiles = 4 ∧
      (s.step 4 (0, .doExecRedirect 8 false)).toOption.isSome = true) (by decide)
  cases hs : s.step 4 (0, .doExecRedirect 8 false) with
  | error e => rw [hs] at hsome; exact absurd hsome (by simp [Except.toOption])
  | ok r =>
    obtain ⟨r, s'⟩ := r
    exact ⟨hist, s, r, s', hrun, hone, hs, (redirects_le hrun 0).2 hfull 8 false r s' hs⟩

/-! ## What the command writes to -/

/-- The open files between the call and the fork, with the descriptor of the output file. -/
def Opened (limit : ℕ) (q : Proc φ) : Option ℕ → Prop
  | none => q.past.outputfile = none ∧ q.table = q.past.atCall
  | some fd =>
      ∃ f, q.past.outputfile = some f ∧ Descriptors.lowest limit q.past.atCall = some fd ∧
        q.table = q.past.atCall.openAt fd f

/-- The open files of the child at its `execv`. -/
def Redirected (limit : ℕ) (past : Past φ) (t : Descriptors φ) : Prop :=
  match past.outputfile with
  | none => t = past.atCall
  | some f =>
      ∃ fd, Descriptors.lowest limit past.atCall = some fd ∧
        t = Descriptors.redirect past.atCall fd f 1

/-- The open files of a process inside a call. -/
structure Tabled (limit : ℕ) (q : Proc φ) : Prop where
  fork : ∀ fd, q.pc = .fork fd → Opened limit q fd
  dup2 : ∀ fd, q.pc = .dup2 fd → Opened limit q (some fd)
  close : ∀ fd, q.pc = .close fd →
    ∃ f, q.past.outputfile = some f ∧ Descriptors.lowest limit q.past.atCall = some fd ∧
      q.table = Descriptors.dup2 (q.past.atCall.openAt fd f) fd 1
  execv : q.pc = .execv → Redirected limit q.past q.table
  command : q.pc = .command → ∃ t, Redirected limit q.past t ∧ q.table = t.exec

/-- Outside these places nothing is said. -/
theorem Tabled.of_pc {q : Proc φ}
    (h : q.pc = .caller ∨ (∃ c, q.pc = .waitpid c) ∨ (∃ status, q.pc = .ended status) ∨
      q.pc = .reaped) : Tabled limit q := by
  rcases h with h | ⟨c, h⟩ | ⟨status, h⟩ | h <;>
    exact ⟨by simp [h], by simp [h], by simp [h], by simp [h], by simp [h]⟩

theorem kept_tabled (limit : ℕ) : Kept limit (fun _ (q : Proc φ) => Tabled limit q) where
  moves {p q act r q'} ht hm := by
    cases hm with
    | doExec h =>
      refine ⟨fun fd hfd => ?_, by simp, by simp, by simp, by simp⟩
      obtain rfl := Pc.fork.inj hfd
      exact ⟨rfl, rfl⟩
    | notOpened => exact ht
    | opened f failed fd h hlowest =>
      refine ⟨fun fd' hfd => ?_, by simp, by simp, by simp, by simp⟩
      obtain rfl := Pc.fork.inj hfd
      exact ⟨f, rfl, hlowest, rfl⟩
    | exited | execvFailed | endCommand | exit => exact .of_pc (.inr (.inr (.inl ⟨_, rfl⟩)))
    | notForked | escaped | waitFailed => exact .of_pc (.inl rfl)
    | dup2 fd h =>
      obtain ⟨f, hfile, hlowest, htable⟩ := ht.dup2 fd h
      refine ⟨by simp, by simp, fun fd' hfd => ?_, by simp, by simp⟩
      obtain rfl := Pc.close.inj hfd
      exact ⟨f, hfile, hlowest, by rw [← htable]⟩
    | close fd h =>
      obtain ⟨f, hfile, hlowest, htable⟩ := ht.close fd h
      refine ⟨by simp, by simp, by simp, fun _ => ?_, by simp⟩
      rw [Redirected, hfile]
      refine ⟨fd, hlowest, ?_⟩
      rw [Descriptors.redirect, ← htable]
    | execv h =>
      refine ⟨by simp, by simp, by simp, by simp, fun _ => ?_⟩
      exact ⟨q.table, ht.execv h, rfl⟩
  parent _ _ _ := .of_pc (.inr (.inl ⟨_, rfl⟩))
  child {p q fd c} _ ht h := by
    have hopened := ht.fork fd h
    cases fd with
    | none =>
      refine ⟨by simp [Procs.child], by simp [Procs.child], by simp [Procs.child], fun _ => ?_,
        by simp [Procs.child]⟩
      obtain ⟨hfile, htable⟩ := hopened
      rw [Redirected, Procs.child, hfile]
      exact htable
    | some fd =>
      refine ⟨by simp [Procs.child], fun fd' hfd => ?_, by simp [Procs.child],
        by simp [Procs.child], by simp [Procs.child]⟩
      obtain rfl := Pc.dup2.inj hfd
      exact hopened
  waited _ _ := .of_pc (.inl rfl)
  reaped _ _ := .of_pc (.inr (.inr (.inr rfl)))

/-- What the child has at its `execv`: the files of the caller, and under 1 the output file, unless
1 was the lowest descriptor that was free. -/
theorem Redirected.eq {past : Past φ} {t : Descriptors φ} (h : Redirected limit past t) :
    t = match past.outputfile with
      | none => past.atCall
      | some f =>
          if past.atCall 0 ≠ none ∧ past.atCall 1 = none then past.atCall
          else past.atCall.openAt 1 f := by
  rw [Redirected] at h
  cases hfile : past.outputfile with
  | none =>
    rw [hfile] at h
    exact h
  | some f =>
    rw [hfile] at h
    obtain ⟨fd, hlowest, rfl⟩ := h
    obtain ⟨-, hfree, hused⟩ := Descriptors.lowest_eq_some_iff.mp hlowest
    rw [Descriptors.redirect_eq hfree]
    by_cases hfd : fd = 1
    · subst hfd
      exact (if_pos rfl).trans (if_pos ⟨hused 0 one_pos, hfree⟩).symm
    · have hnot : ¬ (past.atCall 0 ≠ none ∧ past.atCall 1 = none) := by
        rintro ⟨hzero, hone⟩
        rcases Nat.lt_or_gt_of_ne hfd with hlt | hgt
        · obtain rfl : fd = 0 := by omega
          exact hzero hfree
        · exact hused 1 hgt hone
      exact (if_neg hfd).trans (if_neg hnot).symm

/-- What a command has under 1, by what was open when it was called for and by the output file. -/
def standardOutput (atCall : Descriptors φ) : Option φ → Option (OpenFile φ)
  | none => atCall.exec 1
  | some f => if atCall 0 ≠ none ∧ atCall 1 = none then none else some ⟨f, false⟩

/-- **The command's standard output.**  The command has the files that were open when the call
was made, but for those that were marked to be closed by `execv`.  For a call with an output file
this is under 1; but if 1 was the lowest descriptor that was free, nothing is. -/
theorem table_of_command (h : Run (Procs.step limit) ok (Procs.init table) hist s)
    (hq : s.proc p = some q) (hpc : q.pc = .command) :
    (∀ n ≠ 1, q.table n = q.past.atCall.exec n) ∧
      q.table 1 = standardOutput q.past.atCall q.past.outputfile := by
  have htabled : Tabled limit q := by
    refine (kept_tabled limit).of_run (fun q₀ hq₀ => ?_) h hq
    obtain rfl := Option.some.inj hq₀
    exact .of_pc (.inl rfl)
  obtain ⟨t, hred, htable⟩ := htabled.command hpc
  rw [htable, hred.eq]
  cases hfile : q.past.outputfile with
  | none => exact ⟨fun n _ => rfl, rfl⟩
  | some f =>
    dsimp only
    split
    · next hfree =>
      refine ⟨fun n _ => rfl, ?_⟩
      rw [standardOutput, if_pos hfree, Descriptors.exec, hfree.2, Option.filter_none]
    · next hnot =>
      refine ⟨fun n hn => ?_, ?_⟩
      · rw [Descriptors.exec, Descriptors.openAt, Function.update_of_ne hn, Descriptors.exec]
      · rw [standardOutput, if_neg hnot, Descriptors.exec, Descriptors.openAt,
          Function.update_self]
        rfl

/-- A call made with 0, 2 and 3 open, of which 3 is marked: the output file is under 1, and is
closed, and so is 3. -/
theorem table_of_command_closed :
    ∃ (hist : _) (s : Procs ℕ) (q : _),
      Run (Procs.step 8) (fun _ _ => True)
        (Procs.init fun n => if n = 0 ∨ n = 2 ∨ n = 3 then some ⟨n, n = 3⟩ else none) hist s ∧
      s.proc 1 = some q ∧ q.pc = .command ∧ q.past.outputfile = some 7 ∧ q.table 1 = none ∧
      q.past.atCall 3 = some ⟨3, true⟩ ∧ q.table 3 = none := by
  obtain ⟨hist, s, hrun, hproc⟩ := exists_run_of_replay (Procs.step 8) (fun _ _ => True)
    (Procs.init fun n => if n = 0 ∨ n = 2 ∨ n = 3 then some ⟨n, n = 3⟩ else none)
    [(0, .doExecRedirect 7 false), (0, .fork false), (1, .dup2 false), (1, .close),
      (1, .execv false)]
    (fun _ s => (s.proc 1).any (fun q => q.pc = .command ∧ q.past.outputfile = some 7 ∧
      q.past.atCall 0 ≠ none ∧ q.past.atCall 1 = none ∧ q.past.atCall 3 = some ⟨3, true⟩) = true)
    (by decide)
  obtain ⟨q, hq, hfacts⟩ := (Option.any_eq_true _ _).mp hproc
  obtain ⟨hpc, hfile, hzero, hone, hthree⟩ := of_decide_eq_true hfacts
  obtain ⟨hothers, hstdout⟩ := table_of_command hrun hq hpc
  refine ⟨hist, s, q, hrun, hq, hpc, hfile, ?_, hthree, ?_⟩
  · rw [hstdout, hfile, standardOutput, if_pos ⟨hzero, hone⟩]
  · rw [hothers 3 (by decide), Descriptors.exec, hthree]
    rfl

end Systemcalls
end Aesd
