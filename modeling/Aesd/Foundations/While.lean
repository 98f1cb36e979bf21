import Mathlib.Tactic

/-!
# While loops with an early return

`while (cond) body`, where the body leaves a new state or returns from the function.
Nothing says that such a loop ends, so `whileLoop` takes the number of iterations it may
use: `none` is a loop that wants more of them, and says nothing else.

An argument about a loop is an argument about the states it goes through.  If these are
known in closed form (`Passes`), then the loop can be entered at any of them
(`whileLoop_of_passes`), and a loop that goes through infinitely many of them never ends
(`whileLoop_eq_none`).
-/

namespace Aesd

variable {σ ρ : Type*}

/-- Run a loop for at most so many iterations: `some (.ok s)` if the condition fails in
state `s`, `some (.error r)` if the body returns `r`. -/
def whileLoop (cond : σ → Bool) (body : σ → Except ρ σ) : ℕ → σ → Option (Except ρ σ)
  | 0, s => if cond s then none else some (.ok s)
  | n + 1, s =>
      if cond s then
        match body s with
        | .error r => some (.error r)
        | .ok s' => whileLoop cond body n s'
      else some (.ok s)

section While

variable {cond : σ → Bool} {body : σ → Except ρ σ} {s s' : σ} {r : ρ} {n : ℕ}

theorem whileLoop_exit (h : cond s = false) (n : ℕ) :
    whileLoop cond body n s = some (.ok s) := by
  cases n <;> simp [whileLoop, h]

theorem whileLoop_zero (h : cond s = true) : whileLoop cond body 0 s = none := by
  simp [whileLoop, h]

theorem whileLoop_return (h : cond s = true) (hb : body s = .error r) (n : ℕ) :
    whileLoop cond body (n + 1) s = some (.error r) := by
  simp [whileLoop, h, hb]

theorem whileLoop_again (h : cond s = true) (hb : body s = .ok s') (n : ℕ) :
    whileLoop cond body (n + 1) s = whileLoop cond body n s' := by
  simp [whileLoop, h, hb]

/-- **More iterations do not change the result.** -/
theorem whileLoop_add {q : Except ρ σ} (h : whileLoop cond body n s = some q) (m : ℕ) :
    whileLoop cond body (n + m) s = some q := by
  induction n generalizing s with
  | zero =>
    cases hc : cond s with
    | true =>
      rw [whileLoop_zero hc] at h
      cases h
    | false =>
      rw [whileLoop_exit hc] at h ⊢
      exact h
  | succ n ih =>
    rw [Nat.succ_add]
    cases hc : cond s with
    | false =>
      rw [whileLoop_exit hc] at h ⊢
      exact h
    | true =>
      cases hb : body s with
      | error r =>
        rw [whileLoop_return hc hb] at h ⊢
        exact h
      | ok s' =>
        rw [whileLoop_again hc hb] at h ⊢
        exact ih h

/-- A loop has one result. -/
theorem whileLoop_unique {q q' : Except ρ σ} {m : ℕ} (h : whileLoop cond body n s = some q)
    (h' : whileLoop cond body m s = some q') : q = q' := by
  have hn := whileLoop_add h m
  have hm := whileLoop_add h' n
  rw [Nat.add_comm] at hm
  exact Option.some.inj (hn.symm.trans hm)

/-- The loop goes through the first `k + 1` of these states. -/
def Passes (cond : σ → Bool) (body : σ → Except ρ σ) (state : ℕ → σ) (k : ℕ) : Prop :=
  ∀ i < k, cond (state i) = true ∧ body (state i) = .ok (state (i + 1))

variable {state : ℕ → σ} {k : ℕ}

/-- **A loop can be entered at any state it goes through.** -/
theorem whileLoop_of_passes (h : Passes cond body state k) (n : ℕ) :
    whileLoop cond body (k + n) (state 0) = whileLoop cond body n (state k) := by
  induction k generalizing n with
  | zero => rw [Nat.zero_add]
  | succ k ih =>
    obtain ⟨hc, hb⟩ := h k (Nat.lt_succ_self k)
    have hfirst : Passes cond body state k := fun i hi => h i (Nat.lt_succ_of_lt hi)
    rw [Nat.add_assoc, Nat.add_comm 1 n, ih hfirst, whileLoop_again hc hb]

/-- A loop that wants another iteration after `n` of them is not done after `n`. -/
theorem whileLoop_eq_none (h : Passes cond body state n) (hc : cond (state n) = true) :
    whileLoop cond body n (state 0) = none := by
  have hn := whileLoop_of_passes h 0
  rw [Nat.add_zero, whileLoop_zero hc] at hn
  exact hn

end While
end Aesd
