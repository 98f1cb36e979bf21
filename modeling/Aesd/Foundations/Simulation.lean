import Aesd.Foundations.Run

/-!
# Refinement of a machine that always answers

The specification of a system that can fault is often a machine that cannot: given a
state and a request it answers and moves on, and there is nothing else it could have
done.  `Refines` says that a step function keeps up with such a machine as long as it
does not fault.  The requests need not be the calls themselves; what `f` forgets of a
call has no influence on the answer.

That is where the use of it lies.  The machine is a function, so two runs that make the
same requests get the same answers (`Refines.agree`), whatever was forgotten, and even if
the two runs are those of different systems.

Where both systems can stop, what carries over is the existence of a run, and steps that
cannot be seen may be left out of it (`Run.simulate`).
-/

namespace Aesd

variable {σ σ' τ α α' β ρ ε ε' : Type*}

/-- What a machine answers to a sequence of requests. -/
def answers (machine : τ → β → ρ × τ) : τ → List β → List ρ
  | _, [] => []
  | t, b :: bs => (machine t b).1 :: answers machine (machine t b).2 bs

/-- The state a sequence of requests leaves it in. -/
def endState (machine : τ → β → ρ × τ) (t : τ) (bs : List β) : τ :=
  bs.foldl (fun t b => (machine t b).2) t

@[simp] theorem endState_nil (machine : τ → β → ρ × τ) (t : τ) : endState machine t [] = t := rfl

@[simp] theorem answers_nil (machine : τ → β → ρ × τ) (t : τ) : answers machine t [] = [] := rfl

theorem endState_concat (machine : τ → β → ρ × τ) (t : τ) (bs : List β) (b : β) :
    endState machine t (bs ++ [b]) = (machine (endState machine t bs) b).2 := by
  rw [endState, List.foldl_append, ← endState]
  rfl

theorem answers_concat (machine : τ → β → ρ × τ) (t : τ) (bs : List β) (b : β) :
    answers machine t (bs ++ [b]) =
      answers machine t bs ++ [(machine (endState machine t bs) b).1] := by
  induction bs generalizing t with
  | nil => rfl
  | cons b' bs ih => rw [List.cons_append, answers, ih, answers, List.cons_append]; rfl

/-- The requests that a history makes. -/
def requests (f : α → β) (hist : List (α × ρ)) : List β := hist.map fun e => f e.1

/-- The answers that it got. -/
def replies (hist : List (α × ρ)) : List ρ := hist.map (·.2)

theorem requests_concat (f : α → β) (hist : List (α × ρ)) (e : α × ρ) :
    requests f (hist ++ [e]) = requests f hist ++ [f e.1] := by
  simp [requests]

theorem replies_concat (hist : List (α × ρ)) (e : α × ρ) :
    replies (hist ++ [e]) = replies hist ++ [e.2] := by
  simp [replies]

/-- **Forward simulation.**  In related states the machine gives the answer that the step
gave, and the states reached are related again. -/
structure Refines (step : σ → α → Except ε (ρ × σ)) (machine : τ → β → ρ × τ) (f : α → β)
    (R : σ → τ → Prop) : Prop where
  step : ∀ {s s' : σ} {t : τ} {a : α} {r : ρ}, R s t → step s a = .ok (r, s') →
    (machine t (f a)).1 = r ∧ R s' (machine t (f a)).2

namespace Refines

variable {step : σ → α → Except ε (ρ × σ)} {step' : σ' → α' → Except ε' (ρ × σ')}
  {machine : τ → β → ρ × τ} {f : α → β} {f' : α' → β} {R : σ → τ → Prop} {R' : σ' → τ → Prop}
  {ok : σ → α → Prop} {ok' : σ' → α' → Prop} {s₀ s : σ} {s₀' s' : σ'} {t₀ : τ}

/-- **A run gets the answers of the machine**, and ends in a state related to that of the
machine. -/
theorem run (h : Refines step machine f R) (h₀ : R s₀ t₀) {hist : List (α × ρ)}
    (hrun : Run step ok s₀ hist s) :
    replies hist = answers machine t₀ (requests f hist) ∧
      R s (endState machine t₀ (requests f hist)) := by
  induction hrun with
  | start => exact ⟨rfl, h₀⟩
  | call _ _ hs ih =>
    obtain ⟨hreplies, hrel⟩ := ih
    obtain ⟨hreply, hrel'⟩ := h.step hrel hs
    rw [replies_concat, requests_concat, answers_concat, endState_concat, hreplies, hreply]
    exact ⟨rfl, hrel'⟩

/-- **Same requests, same answers.** -/
theorem agree (h : Refines step machine f R) (h' : Refines step' machine f' R') (h₀ : R s₀ t₀)
    (h₀' : R' s₀' t₀) {hist : List (α × ρ)} {hist' : List (α' × ρ)}
    (hrun : Run step ok s₀ hist s) (hrun' : Run step' ok' s₀' hist' s')
    (hreq : requests f hist = requests f' hist') :
    replies hist = replies hist' ∧ ∃ t, R s t ∧ R' s' t := by
  obtain ⟨hreplies, hrel⟩ := h.run h₀ hrun
  obtain ⟨hreplies', hrel'⟩ := h'.run h₀' hrun'
  rw [hreq] at hreplies hrel
  exact ⟨hreplies.trans hreplies'.symm, _, hrel, hrel'⟩

end Refines

/-! ## Steps that are left out -/

/-- **Simulation of runs.**  A step is matched by a step of the other system that shows the
same, or, if it shows nothing, by none.  Then a run is matched by a run that shows the
same. -/
theorem Run.simulate {ρ' γ : Type*} {step : σ → α → Except ε (ρ × σ)}
    {step' : σ' → α' → Except ε' (ρ' × σ')} {ok : σ → α → Prop} {ok' : σ' → α' → Prop}
    {s₀ s : σ} {s₀' : σ'} (R : σ → σ' → Prop) (shown : α × ρ → List γ) (shown' : α' × ρ' → List γ)
    (hstep : ∀ s t a r u, R s t → ok s a → step s a = .ok (r, u) →
      (R u t ∧ shown (a, r) = []) ∨
        ∃ a' r' v, ok' t a' ∧ step' t a' = .ok (r', v) ∧ R u v ∧ shown' (a', r') = shown (a, r))
    (h₀ : R s₀ s₀') {hist : List (α × ρ)} (h : Run step ok s₀ hist s) :
    ∃ hist' t, Run step' ok' s₀' hist' t ∧ R s t ∧ hist'.flatMap shown' = hist.flatMap shown := by
  induction h with
  | start => exact ⟨[], s₀', .start, h₀, rfl⟩
  | call _ hok hs ih =>
    obtain ⟨hist', t, hrun, hrel, hshown⟩ := ih
    rcases hstep _ _ _ _ _ hrel hok hs with ⟨hrel', hnone⟩ | ⟨a', r', v, hok', hs', hrel', hsame⟩
    · refine ⟨hist', t, hrun, hrel', ?_⟩
      rw [List.flatMap_append, List.flatMap_singleton, hnone, List.append_nil, hshown]
    · refine ⟨hist' ++ [(a', r')], v, hrun.call hok' hs', hrel', ?_⟩
      rw [List.flatMap_append, List.flatMap_append, List.flatMap_singleton,
        List.flatMap_singleton, hsame, hshown]

end Aesd
