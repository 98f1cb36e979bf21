import Aesd.Foundations.Run

/-!
# Threads over shared state

Any number of threads run one program, each in its own state, and act on a state they
share.  A step of the system is a step of one thread whose action the shared state
accepts; which thread is up is part of the label, so every interleaving is a run.

Two things are general.  A run of the system is, for each thread, a run of its program
(`Pool.run_thread`), whatever the others do in between.  And a lock is held by the thread
that its own state says holds it, provided that threads take it when they do not have it,
give it back when they do, and that nobody gets it while it is taken
(`owner_iff_holds_update`).
-/

namespace Aesd

variable {σ τ α κ ε : Type*}

/-- The threads and what they share. -/
structure Pool (σ τ : Type*) where
  shared : σ
  thread : ℕ → τ

namespace Pool

/-- Thread `e.1` makes a step with answer `e.2`, if the shared state accepts its action. -/
def step (tstep : τ → α → Except ε (κ × τ)) (grant : σ → ℕ → κ → α → Option σ)
    (s : Pool σ τ) (e : ℕ × α) : Except Unit (κ × Pool σ τ) :=
  match tstep (s.thread e.1) e.2 with
  | .error _ => .error ()
  | .ok (act, c) =>
      match grant s.shared e.1 act e.2 with
      | none => .error ()
      | some w => .ok (act, ⟨w, Function.update s.thread e.1 c⟩)

variable {tstep : τ → α → Except ε (κ × τ)} {grant : σ → ℕ → κ → α → Option σ}
  {s s' s₀ : Pool σ τ}

theorem step_iff {e : ℕ × α} {act : κ} :
    Pool.step tstep grant s e = .ok (act, s') ↔
      ∃ c w, tstep (s.thread e.1) e.2 = .ok (act, c) ∧ grant s.shared e.1 act e.2 = some w ∧
        s' = ⟨w, Function.update s.thread e.1 c⟩ := by
  rw [step]
  cases htstep : tstep (s.thread e.1) e.2 with
  | error x => simp
  | ok r =>
    obtain ⟨act', c⟩ := r
    cases hgrant : grant s.shared e.1 act' e.2 with
    | none =>
      simp only [hgrant, Except.ok.injEq, Prod.mk.injEq, reduceCtorEq, false_iff]
      rintro ⟨c, w, ⟨rfl, rfl⟩, hw, -⟩
      exact absurd (hgrant.symm.trans hw) (by simp)
    | some w =>
      simp only [hgrant, Except.ok.injEq, Prod.mk.injEq]
      constructor
      · rintro ⟨rfl, rfl⟩
        exact ⟨c, w, ⟨rfl, rfl⟩, hgrant, rfl⟩
      · rintro ⟨c, w', ⟨rfl, rfl⟩, hw, rfl⟩
        obtain rfl := Option.some.inj (hgrant.symm.trans hw)
        exact ⟨rfl, rfl⟩

/-- The part of a history that one thread made. -/
def ofThread (t : ℕ) (hist : List ((ℕ × α) × κ)) : List (α × κ) :=
  hist.flatMap fun e => if e.1.1 = t then [(e.1.2, e.2)] else []

@[simp] theorem ofThread_append (t : ℕ) (h₁ h₂ : List ((ℕ × α) × κ)) :
    ofThread t (h₁ ++ h₂) = ofThread t h₁ ++ ofThread t h₂ := List.flatMap_append

/-- **Every thread runs its program.** -/
theorem run_thread {ok : Pool σ τ → ℕ × α → Prop} {hist : List ((ℕ × α) × κ)}
    (h : Run (Pool.step tstep grant) ok s₀ hist s) (t : ℕ) :
    Run tstep (fun _ _ => True) (s₀.thread t) (ofThread t hist) (s.thread t) := by
  induction h with
  | start => exact .start
  | @call hist s s' e act _ _ hs ih =>
    obtain ⟨c, w, htstep, -, rfl⟩ := step_iff.mp hs
    rw [ofThread_append]
    by_cases ht : e.1 = t
    · subst ht
      have hone : ofThread e.1 [(e, act)] = [(e.2, act)] := by simp [ofThread]
      rw [hone]
      show Run tstep _ _ _ (Function.update s.thread e.1 c e.1)
      rw [Function.update_self]
      exact ih.call trivial htstep
    · have hnone : ofThread t [(e, act)] = [] := by simp [ofThread, ht]
      rw [hnone, List.append_nil]
      show Run tstep _ _ _ (Function.update s.thread e.1 c t)
      rw [Function.update_of_ne (Ne.symm ht)]
      exact ih

end Pool

/-! ## A lock -/

/-- What an action does to a lock. -/
inductive LockOp where
  | acquire
  | release
  | keep
  deriving DecidableEq, Repr

namespace LockOp

/-- Whether a thread that did or did not hold the lock holds it after an action. -/
def holdsAfter : LockOp → Bool → Bool
  | .acquire, _ => true
  | .release, _ => false
  | .keep, b => b

/-- Who holds the lock after an action of thread `t`. -/
def ownerAfter (t : ℕ) : LockOp → Option ℕ → Option ℕ
  | .acquire, _ => some t
  | .release, _ => none
  | .keep, o => o

end LockOp

/-- **The lock is held by the thread that thinks so**, after a step of thread `t`. -/
theorem owner_iff_holds_update {holds : τ → Bool} {thread : ℕ → τ} {owner : Option ℕ} {t : ℕ}
    {op : LockOp} {c : τ} (hinv : ∀ u, holds (thread u) = true ↔ owner = some u)
    (hc : holds c = op.holdsAfter (holds (thread t)))
    (hfree : op = .acquire → owner = none)
    (hheld : op = .release → holds (thread t) = true) (u : ℕ) :
    holds (Function.update thread t c u) = true ↔ op.ownerAfter t owner = some u := by
  by_cases hu : u = t
  · subst hu
    rw [Function.update_self, hc]
    cases op with
    | acquire => simp [LockOp.holdsAfter, LockOp.ownerAfter]
    | release => simp [LockOp.holdsAfter, LockOp.ownerAfter]
    | keep => exact hinv u
  · rw [Function.update_of_ne hu, hinv u]
    cases op with
    | acquire => simp [LockOp.ownerAfter, hfree rfl, Ne.symm hu]
    | release => simp [LockOp.ownerAfter, (hinv t).mp (hheld rfl), Ne.symm hu]
    | keep => exact Iff.rfl

end Aesd
