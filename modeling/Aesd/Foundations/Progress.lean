import Aesd.Foundations.Interleave

/-!
# Runs that come to an end

That a system finishes has two halves.  It does not go on for ever: every step pays for
itself out of a potential, which only certain answers of the world can raise
(`Run.amortised`).  And it does not stop before it is done: with one lock, if nobody can
move, nobody waits for it (`finished_of_stuck`).  A run that cannot be continued has then
done all there was to do, and it is as long as the bound says at most.
-/

namespace Aesd

variable {σ τ α ρ ε : Type*}

/-- **The potential method.**  If the work of every step is paid by the potential or by what
the step gains, then all the work of a run is paid by the potential at the start and what
was gained on the way. -/
theorem Run.amortised {step : σ → α → Except ε (ρ × σ)} {ok : σ → α → Prop} {s₀ s : σ}
    (Φ : List (α × ρ) → σ → ℕ) (work gain : α × ρ → ℕ)
    (hstep : ∀ hist s a r s', Run step ok s₀ hist s → ok s a → step s a = .ok (r, s') →
      work (a, r) + Φ (hist ++ [(a, r)]) s' ≤ Φ hist s + gain (a, r))
    {hist : List (α × ρ)} (h : Run step ok s₀ hist s) :
    (hist.map work).sum + Φ hist s ≤ Φ [] s₀ + (hist.map gain).sum := by
  induction h with
  | start => simp
  | @call hist s s' a r hrun hok hs ih =>
    have hone := hstep hist s a r s' hrun hok hs
    simp only [List.map_append, List.sum_append, List.map_cons, List.map_nil, List.sum_cons,
      List.sum_nil]
    omega

/-- **No deadlock over one lock.**  The owner of the lock has it, nobody who is finished
has it, and whoever cannot move and is not finished waits for it, without having it.  Then
if nobody can move, everybody is finished. -/
theorem finished_of_stuck (holds finished can : ℕ → Prop) {owner : Option ℕ}
    (howner : ∀ u, owner = some u → holds u) (hfin : ∀ u, finished u → ¬ holds u)
    (hwait : ∀ u, ¬ finished u → ¬ can u → ¬ holds u ∧ owner ≠ none)
    (hstuck : ∀ u, ¬ can u) (u : ℕ) : finished u := by
  by_contra hu
  obtain ⟨v, hv⟩ := Option.ne_none_iff_exists'.mp (hwait u hu (hstuck u)).2
  have hholds := howner v hv
  by_cases hdone : finished v
  · exact hfin v hdone hholds
  · exact (hwait v hdone (hstuck v)).1 hholds

end Aesd
