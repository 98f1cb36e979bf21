import Mathlib.Tactic

/-!
# Runs of a labelled step function

A system takes a call, answers it and moves on; or it faults, and then there is
no next state.  `Run step ok s₀ hist s` says that `s` is reached from `s₀` by
calls each of which was allowed where it was made, with `hist` the calls and
their answers in order.  The history is part of the judgement rather than of the
state, so a property may speak of everything that was ever answered without the
system carrying a log.

`Run` is built from the tail, because invariants are proved by looking at the
last call.  `replay` is the executable counterpart, for runs that are given as a
list of calls.
-/

namespace Aesd

variable {σ α ρ ε : Type*}

/-- The states reachable from `s₀` by allowed, non-faulting calls, each with the
history that leads to it. -/
inductive Run (step : σ → α → Except ε (ρ × σ)) (ok : σ → α → Prop) (s₀ : σ) :
    List (α × ρ) → σ → Prop where
  | start : Run step ok s₀ [] s₀
  | call {hist : List (α × ρ)} {s s' : σ} {a : α} {r : ρ} :
      Run step ok s₀ hist s → ok s a → step s a = .ok (r, s') →
        Run step ok s₀ (hist ++ [(a, r)]) s'

namespace Run

variable {step : σ → α → Except ε (ρ × σ)} {ok : σ → α → Prop} {s₀ : σ}

/-- **The invariant rule.**  What holds at the start with nothing answered, and
is kept by every allowed call, holds along every run. -/
theorem invariant {P : List (α × ρ) → σ → Prop} (hinit : P [] s₀)
    (hstep : ∀ hist s a r s', Run step ok s₀ hist s → P hist s → ok s a →
      step s a = .ok (r, s') → P (hist ++ [(a, r)]) s')
    {hist : List (α × ρ)} {s : σ} (h : Run step ok s₀ hist s) : P hist s := by
  induction h with
  | start => exact hinit
  | call hrun hok hs ih => exact hstep _ _ _ _ _ hrun ih hok hs

/-- A run is a run of the same system with fewer restrictions. -/
theorem mono {ok' : σ → α → Prop} (hsub : ∀ s a, ok s a → ok' s a)
    {hist : List (α × ρ)} {s : σ} (h : Run step ok s₀ hist s) :
    Run step ok' s₀ hist s := by
  induction h with
  | start => exact .start
  | call _ hok hs ih => exact ih.call (hsub _ _ hok) hs

theorem trans {hist hist' : List (α × ρ)} {s t : σ} (h : Run step ok s₀ hist s)
    (h' : Run step ok s hist' t) : Run step ok s₀ (hist ++ hist') t := by
  induction h' with
  | start => simpa using h
  | call _ hok hs ih =>
    rw [← List.append_assoc]
    exact ih.call hok hs

/-- The last call of a run. -/
theorem concat_iff {hist : List (α × ρ)} {s' : σ} {a : α} {r : ρ} :
    Run step ok s₀ (hist ++ [(a, r)]) s' ↔
      ∃ s, Run step ok s₀ hist s ∧ ok s a ∧ step s a = .ok (r, s') := by
  constructor
  · intro h
    generalize hl : hist ++ [(a, r)] = l at h
    cases h with
    | start => exact absurd hl (by simp)
    | call hrun hok hs =>
      obtain ⟨rfl, he⟩ := List.append_inj' hl rfl
      obtain ⟨rfl, rfl⟩ := Prod.mk.inj (List.singleton_inj.mp he)
      exact ⟨_, hrun, hok, hs⟩
  · rintro ⟨s, hrun, hok, hs⟩
    exact hrun.call hok hs

/-- A run stops at every state it goes through. -/
theorem append_iff {hist hist' : List (α × ρ)} {t : σ} :
    Run step ok s₀ (hist ++ hist') t ↔ ∃ s, Run step ok s₀ hist s ∧ Run step ok s hist' t := by
  constructor
  · intro h
    induction hist' using List.reverseRecOn generalizing t with
    | nil =>
      rw [List.append_nil] at h
      exact ⟨t, h, .start⟩
    | append_singleton hist' e ih =>
      rw [← List.append_assoc] at h
      obtain ⟨t', hrun, hok, hs⟩ := concat_iff.mp h
      obtain ⟨s, hfirst, hsecond⟩ := ih hrun
      exact ⟨s, hfirst, hsecond.call hok hs⟩
  · rintro ⟨s, hfirst, hsecond⟩
    exact hfirst.trans hsecond

/-- **The calls determine the state**, whatever is allowed. -/
theorem unique {ok' : σ → α → Prop} {hist : List (α × ρ)} {s s' : σ}
    (h : Run step ok s₀ hist s) (h' : Run step ok' s₀ hist s') : s = s' := by
  induction h generalizing s' with
  | start =>
    generalize hl : ([] : List (α × ρ)) = l at h'
    cases h' with
    | start => rfl
    | call => exact absurd hl (by simp)
  | call _ _ hs ih =>
    obtain ⟨t, hrun, -, ht⟩ := concat_iff.mp h'
    rw [ih hrun, ht, Except.ok.injEq, Prod.mk.injEq] at hs
    exact hs.2.symm

end Run

/-- Make the calls one after another, checking that each is allowed. -/
def replay (step : σ → α → Except ε (ρ × σ)) (ok : σ → α → Prop)
    [∀ s a, Decidable (ok s a)] (s : σ) : List α → Option (List (α × ρ) × σ)
  | [] => some ([], s)
  | a :: as =>
      if ok s a then
        match step s a with
        | .ok (r, s') => (replay step ok s' as).map fun p => ((a, r) :: p.1, p.2)
        | .error _ => none
      else none

/-- **What `replay` returns is a run.** -/
theorem run_of_replay {step : σ → α → Except ε (ρ × σ)} {ok : σ → α → Prop}
    [∀ s a, Decidable (ok s a)] {as : List α} {s t : σ} {hist : List (α × ρ)}
    (h : replay step ok s as = some (hist, t)) : Run step ok s hist t := by
  induction as generalizing s hist with
  | nil =>
    simp only [replay, Option.some.injEq, Prod.mk.injEq] at h
    obtain ⟨rfl, rfl⟩ := h
    exact .start
  | cons a as ih =>
    rw [replay] at h
    split at h
    · next hok =>
      split at h
      · next r s' hs =>
        obtain ⟨p, hp, hpe⟩ := Option.map_eq_some_iff.mp h
        obtain ⟨rfl, rfl⟩ := Prod.mk.inj hpe
        have hone : Run step ok s [(a, r)] s' := Run.start.call hok hs
        exact hone.trans (ih hp)
      · exact absurd h (by simp)
    · exact absurd h (by simp)

/-- A run that ends as it should, found by executing it. -/
theorem exists_run_of_replay (step : σ → α → Except ε (ρ × σ)) (ok : σ → α → Prop)
    [∀ s a, Decidable (ok s a)] (s : σ) (as : List α) (p : List (α × ρ) → σ → Prop)
    [∀ hist t, Decidable (p hist t)]
    (h : (replay step ok s as).any (fun q => decide (p q.1 q.2)) = true) :
    ∃ hist t, Run step ok s hist t ∧ p hist t := by
  cases hr : replay step ok s as with
  | none => rw [hr] at h; exact absurd h (by simp)
  | some q =>
    rw [hr, Option.any_some, decide_eq_true_eq] at h
    exact ⟨q.1, q.2, run_of_replay hr, h⟩

end Aesd
