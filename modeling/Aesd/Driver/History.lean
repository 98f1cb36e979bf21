import Aesd.Driver.Invariant

/-!
# Histories of calls

What the runs of the driver are about is in their histories: the chunks that were
written, the entries that were committed.  Most statements restrict what the writes
of a run may be --- that their allocations succeed, that they copy what they were
asked to --- and none restricts anything else, so the restrictions are predicates on
writes (`OnWrites`) that the other calls satisfy by default.

`step_done` is the form in which the later files use all that is known about one
call: either it is quiet, or it is a write that appended its data to the partial
entry and handed the entry over if the commit test accepted it.
-/

namespace Aesd

/-! ## Restricting the writes of a run -/

/-- The allocation a write makes succeeds. -/
def KmallocOk (d : Driver) (alloc : Option (ℕ → UInt8)) (n : ℕ) : Prop :=
  alloc ≠ none ∧ kmallocRequest d n < 2 ^ 31

/-- The copy a write makes succeeds: the data is readable, and the size is one that
`copy_from_user` accepts. -/
def CopyOk (buf : List UInt8) (n : ℕ) : Prop := n ≤ buf.length ∧ n < 2 ^ 31

instance (d : Driver) (alloc : Option (ℕ → UInt8)) (n : ℕ) : Decidable (KmallocOk d alloc n) :=
  inferInstanceAs (Decidable (_ ∧ _))

instance (buf : List UInt8) (n : ℕ) : Decidable (CopyOk buf n) :=
  inferInstanceAs (Decidable (_ ∧ _))

/-- Everything a write asks of the kernel succeeds. -/
def AllOk (d : Driver) (alloc : Option (ℕ → UInt8)) (buf : List UInt8) (n : ℕ) : Prop :=
  KmallocOk d alloc n ∧ CopyOk buf n

instance (d : Driver) (alloc : Option (ℕ → UInt8)) (buf : List UInt8) (n : ℕ) :
    Decidable (AllOk d alloc buf n) :=
  inferInstanceAs (Decidable (_ ∧ _))

theorem AllOk.done {d : Driver} {alloc : Option (ℕ → UInt8)} {buf : List UInt8} {n : ℕ}
    (h : AllOk d alloc buf n) : alloc ≠ none ∧ CopyOk buf n :=
  ⟨h.1.1, h.2⟩

/-- A restriction on the writes that get as far as the driver's own work. -/
def OnWrites (P : Driver → Option (ℕ → UInt8) → List UInt8 → ℕ → Prop) (s : Sys) :
    Call → Prop
  | .aesdWrite file interrupted alloc buf count =>
      s.fPos file ≠ none → interrupted = false → P s.toDriver alloc buf count.toNat
  | _ => True

instance (P : Driver → Option (ℕ → UInt8) → List UInt8 → ℕ → Prop)
    [∀ d a b n, Decidable (P d a b n)] (s : Sys) (c : Call) : Decidable (OnWrites P s c) :=
  match c with
  | .aesdWrite .. => inferInstanceAs (Decidable (_ → _ → _))
  | .aesdOpen .. | .aesdRelease .. | .aesdRead .. | .aesdLlseek .. | .aesdIoctl .. =>
      isTrue trivial

theorem OnWrites.mono {P Q : Driver → Option (ℕ → UInt8) → List UInt8 → ℕ → Prop}
    (hPQ : ∀ d a b n, P d a b n → Q d a b n) {s : Sys} {c : Call} (h : OnWrites P s c) :
    OnWrites Q s c := by
  cases c with
  | aesdWrite file interrupted alloc buf count => exact fun h1 h2 => hPQ _ _ _ _ (h h1 h2)
  | _ => trivial

/-! ## What a history says -/

/-- The data of a call that wrote some. -/
def chunkOf (e : Call × Reply) : Option (List UInt8) :=
  match e.1 with
  | .aesdWrite _ _ _ buf count => if 0 ≤ e.2.retval then some (buf.take count.toNat) else none
  | _ => none

/-- What was written, one chunk for each write. -/
def chunks (hist : List (Call × Reply)) : List (List UInt8) := hist.filterMap chunkOf

/-- The entries that were committed, in order. -/
def commits (hist : List (Call × Reply)) : List (List UInt8) := hist.filterMap (·.2.commit)

@[simp] theorem chunks_nil : chunks [] = [] := rfl

@[simp] theorem commits_nil : commits [] = [] := rfl

theorem commits_append (hist hist' : List (Call × Reply)) :
    commits (hist ++ hist') = commits hist ++ commits hist' :=
  List.filterMap_append

theorem chunks_concat (hist : List (Call × Reply)) (e : Call × Reply) :
    chunks (hist ++ [e]) = chunks hist ++ (chunkOf e).toList := by
  rw [chunks, List.filterMap_append, ← chunks]
  cases h : chunkOf e <;> simp [h]

theorem commits_concat (hist : List (Call × Reply)) (e : Call × Reply) :
    commits (hist ++ [e]) = commits hist ++ e.2.commit.toList := by
  rw [commits_append, commits, commits]
  cases h : e.2.commit <;> simp [h]

/-- A write of `line` on file 0 for which everything succeeds. -/
def writeLine (line : List UInt8) : Call :=
  .aesdWrite 0 false (some fun _ => 0) line (.ofNat line.length)

/-! ## One successful call -/

/-- The driver after a write that succeeded. -/
def Driver.wrote (d : Driver) (data : List UInt8) : Driver :=
  if Committable (d.pending ++ data) then (d.filled data).handed else d.filled data

/-- A write whose allocation and copy succeed appends its data. -/
theorem WriteOutcome.done {d d' : Driver} {fPos p : ℤ} {alloc : Option (ℕ → UInt8)}
    {buf : List UInt8} {n : ℕ} {r : Reply}
    (h : WriteOutcome d fPos false alloc buf n (.ok (r, p, d')))
    (halloc : alloc ≠ none) (hcopy : CopyOk buf n) :
    (d.pending ++ buf.take n).length < 2 ^ 31 ∧ r.retval = n ∧
      r.commit = (if Committable (d.pending ++ buf.take n) then some (d.pending ++ buf.take n)
        else none) ∧
      d' = d.wrote (buf.take n) := by
  obtain ⟨hle, hlt⟩ := hcopy
  cases h with
  | interrupted h => exact absurd h (by simp)
  | faultOngoing _ _ hbad => omega
  | faultNew _ _ hbad => omega
  | refused _ _ hbad => omega
  | empty _ hnone => exact absurd hnone halloc
  | kept _ _ _ hlen hc =>
    refine ⟨hlen, rfl, ?_, ?_⟩
    · rw [if_neg hc]
    · rw [Driver.wrote, if_neg hc]
  | committed _ _ _ hlen hc =>
    refine ⟨hlen, rfl, ?_, ?_⟩
    · rw [if_pos hc]
    · rw [Driver.wrote, if_pos hc]

namespace Sys

variable {s s' : Sys} {c : Call} {r : Reply}
  {P : Driver → Option (ℕ → UInt8) → List UInt8 → ℕ → Prop}

/-- A write that satisfies the restriction: it does not get as far as the driver, or
its data is appended to the partial entry. -/
theorem step_write {file : ℕ} {interrupted : Bool} {alloc : Option (ℕ → UInt8)}
    {buf : List UInt8} {count : UInt64} (hw : s.Wf)
    (hP : ∀ d a b n, P d a b n → a ≠ none ∧ CopyOk b n)
    (hok : OnWrites P s (.aesdWrite file interrupted alloc buf count))
    (h : s.step (.aesdWrite file interrupted alloc buf count) = .ok (r, s')) :
    (s'.toDriver = s.toDriver ∧
        chunkOf (.aesdWrite file interrupted alloc buf count, r) = none ∧ r.commit = none) ∨
      (interrupted = false ∧ P s.toDriver alloc buf count.toNat ∧
        (s.pending ++ buf.take count.toNat).length < 2 ^ 31 ∧
        chunkOf (.aesdWrite file interrupted alloc buf count, r) = some (buf.take count.toNat) ∧
        r.commit = (if Committable (s.pending ++ buf.take count.toNat) then
          some (s.pending ++ buf.take count.toNat) else none) ∧
        s'.toDriver = s.wrote (buf.take count.toNat)) := by
  cases step_outcome hw h with
  | notOpen => exact Or.inl ⟨rfl, by simp [chunkOf], rfl⟩
  | aesdWrite hp hout =>
    cases interrupted with
    | true =>
      cases hout with
      | interrupted => exact Or.inl ⟨rfl, by simp [chunkOf], rfl⟩
      | _ => contradiction
    | false =>
      have hPd := hok (by rw [hp]; simp) rfl
      obtain ⟨halloc, hcopy⟩ := hP _ _ _ _ hPd
      obtain ⟨hlen, hret, hcommit, rfl⟩ := hout.done halloc hcopy
      refine Or.inr ⟨rfl, hPd, hlen, ?_, hcommit, rfl⟩
      simp only [chunkOf]
      rw [if_pos (by rw [hret]; omega)]

/-- **One call of a run whose writes succeed.**  It is quiet, writes nothing and
commits nothing; or it is a write that satisfies the restriction, whose data is
appended to the partial entry. -/
theorem step_done (hw : s.Wf) (hP : ∀ d a b n, P d a b n → a ≠ none ∧ CopyOk b n)
    (hok : OnWrites P s c) (h : s.step c = .ok (r, s')) :
    (Quiet s.toDriver s'.toDriver ∧ chunkOf (c, r) = none ∧ r.commit = none) ∨
      ∃ file alloc buf count, c = .aesdWrite file false alloc buf count ∧
        P s.toDriver alloc buf count.toNat ∧
        (s.pending ++ buf.take count.toNat).length < 2 ^ 31 ∧
        chunkOf (c, r) = some (buf.take count.toNat) ∧
        r.commit = (if Committable (s.pending ++ buf.take count.toNat) then
          some (s.pending ++ buf.take count.toNat) else none) ∧
        s'.toDriver = s.wrote (buf.take count.toNat) := by
  cases c with
  | aesdWrite file interrupted alloc buf count =>
    rcases step_write hw hP hok h with ⟨hd, hchunk, hcommit⟩ | ⟨rfl, hdone⟩
    · refine Or.inl ⟨?_, hchunk, hcommit⟩
      rw [hd]
      exact Quiet.refl _
    · exact Or.inr ⟨file, alloc, buf, count, rfl, hdone⟩
  | _ =>
    rcases step_cases hw h with ⟨hq, hcommit⟩ | ⟨_, _, _, _, _, _, _, hc, -⟩
    · exact Or.inl ⟨hq, rfl, hcommit⟩
    · exact absurd hc (by simp)

end Sys
end Aesd
