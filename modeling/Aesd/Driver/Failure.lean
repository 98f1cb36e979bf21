import Aesd.Driver.History

/-!
# Calls that fail

Reads, seeks and controls change nothing when they fail: each of them decides that it
fails before it touches anything.  `aesd_write` does so only with a partial write
ongoing, where the new contents are built in a block of their own.  The start of an
entry is written in place --- the pointer and the size are in the device before the
copy is attempted --- and a copy that fails leaves them there.  And in neither branch
is the result of `kmalloc` looked at.

`Harmless` is what one would expect of every call, and `Harmed` names the calls that
violate it.
-/

namespace Aesd

/-- The device, the bytes it points to and the positions of the files are as they
were. -/
structure Untouched (s s' : Sys) : Prop where
  dev : s'.dev = s.dev
  pending : s'.pending = s.pending
  data : ∀ j, s'.dataAt (some j) = s.dataAt (some j)
  fPos : s'.fPos = s.fPos

theorem Untouched.refl (s : Sys) : Untouched s s := ⟨rfl, rfl, fun _ => rfl, rfl⟩

/-- The call is a write that gets as far as `kmalloc`, and `kmalloc` returns
`NULL`. -/
def KmallocNull (s : Sys) : Call → Prop
  | .aesdWrite file interrupted alloc _ count =>
      s.fPos file ≠ none ∧ interrupted = false ∧
        (alloc = none ∨ 2 ^ 31 ≤ kmallocRequest s.toDriver count.toNat)
  | _ => False

/-- If the call fails it changes nothing; and if `kmalloc` returns `NULL`, it fails
with `-ENOMEM`. -/
def Harmless (s : Sys) (c : Call) : Prop :=
  (∀ r s', s.step c = .ok (r, s') → r.retval < 0 → Untouched s s') ∧
    (KmallocNull s c → ∃ r s', s.step c = .ok (r, s') ∧ r.retval = -eNomem)

/-- The call is a write for which `kmalloc` returns `NULL`, or one that begins an
entry and cannot read all of its data. -/
def Harmed (s : Sys) : Call → Prop
  | .aesdWrite file interrupted alloc buf count =>
      s.fPos file ≠ none ∧ interrupted = false ∧
        ((alloc = none ∨ 2 ^ 31 ≤ kmallocRequest s.toDriver count.toNat) ∨
          (s.dev.entry.buffptr = none ∧ buf.length < count.toNat))
  | _ => False

/-! ## Seeks and controls -/

theorem aesdLlseek_failed {d : Driver} {fPos : ℤ} {interrupted : Bool} {offset : Int64}
    {whence : Int32} (h : (aesdLlseek d fPos interrupted offset whence).1 < 0) :
    (aesdLlseek d fPos interrupted offset whence).2 = fPos := by
  unfold aesdLlseek aesdLlseekLocked at h ⊢
  cases interrupted with
  | true => rfl
  | false =>
    simp only [Bool.false_eq_true, if_false] at h ⊢
    split at h
    · rfl
    · next newpos _ =>
      split at h
      · next hbad => rw [if_pos hbad]
      · next hgood => exact absurd (Or.inl h) hgood

theorem adjustLoop_failed {writeCmd writeCmdOffset : ℕ} {fPos : ℤ} (es : List AesdBufferEntry)
    (i total : ℕ) (h : (adjustLoop writeCmd writeCmdOffset fPos es i total).1 < 0) :
    (adjustLoop writeCmd writeCmdOffset fPos es i total).2 = fPos := by
  induction es generalizing i total with
  | nil => rfl
  | cons e es ih =>
    rw [adjustLoop] at h ⊢
    split at h
    · next hi =>
      rw [if_pos hi]
      split at h
      · next hsize => rw [if_pos hsize]
      · exact absurd h (by simp)
    · next hi =>
      rw [if_neg hi]
      exact ih _ _ h

theorem aesdAdjustFileOffset_failed {d : Driver} {fPos : ℤ} {interrupted : Bool}
    {writeCmd writeCmdOffset : UInt32}
    (h : (aesdAdjustFileOffset d fPos interrupted writeCmd writeCmdOffset).1 < 0) :
    (aesdAdjustFileOffset d fPos interrupted writeCmd writeCmdOffset).2 = fPos := by
  unfold aesdAdjustFileOffset at h ⊢
  split at h
  · next hint => rw [if_pos hint]
  · next hint =>
    rw [if_neg hint]
    split at h
    · next hcmd => rw [if_pos hcmd]
    · next hcmd =>
      rw [if_neg hcmd]
      exact adjustLoop_failed _ _ _ h

theorem aesdIoctl_failed {d : Driver} {fPos : ℤ} {interrupted : Bool} {cmd : UInt32}
    {arg : List UInt8} {stack : Vector UInt8 8}
    (h : (aesdIoctl d fPos interrupted cmd arg stack).1 < 0) :
    (aesdIoctl d fPos interrupted cmd arg stack).2 = fPos := by
  unfold aesdIoctl at h ⊢
  split
  · rfl
  · next htype =>
    rw [if_neg htype] at h
    split
    · rfl
    · next hnr =>
      rw [if_neg hnr] at h
      split
      · next hcmd =>
        rw [if_pos hcmd] at h
        cases arg with
        | nil => rfl
        | cons b bs => exact aesdAdjustFileOffset_failed h
      · rfl

/-! ## Reads and writes -/

section ReadWrite

variable {d d' : Driver} {fPos p : ℤ} {interrupted : Bool} {r : Reply}

/-- A read that fails changes nothing. -/
theorem ReadOutcome.failed {avail count : ℕ}
    (h : ReadOutcome d fPos interrupted avail count (.ok (r, p, d'))) (hneg : r.retval < 0) :
    p = fPos ∧ d' = d := by
  cases h with
  | interrupted => exact ⟨rfl, rfl⟩
  | nothing => exact absurd hneg (by simp)
  | stopped => exact absurd hneg (by simp)
  | fault => exact ⟨rfl, rfl⟩
  | served => exact absurd hneg (by simp)

variable {alloc : Option (ℕ → UInt8)} {buf : List UInt8} {count : ℕ}

/-- A write that fails changes nothing if its allocation succeeds and it does not
begin an entry with data it cannot read: at most, a block nobody points to is left. -/
theorem WriteOutcome.failed
    (h : WriteOutcome d fPos interrupted alloc buf count (.ok (r, p, d')))
    (hok : interrupted = false → KmallocOk d alloc count ∧
      (d.dev.entry.buffptr = none → count ≤ buf.length))
    (hneg : r.retval < 0) :
    p = fPos ∧ d'.dev = d.dev ∧ (d'.heap = d.heap ∨ ∃ block, d'.heap = d.heap.alloc block) := by
  cases h with
  | interrupted => exact ⟨rfl, rfl, Or.inl rfl⟩
  | faultOngoing _ _ _ hheap => exact ⟨rfl, rfl, hheap⟩
  | faultNew hint hptr hshort =>
    have := (hok hint).2 hptr
    omega
  | refused hint hptr hbig =>
    obtain ⟨⟨-, hreq⟩, -⟩ := hok hint
    rw [kmallocRequest, hptr] at hreq
    dsimp only at hreq
    omega
  | empty => exact absurd hneg (by simp)
  | kept => exact absurd hneg (by simp)
  | committed => exact absurd hneg (by simp)

/-- No write returns `-ENOMEM`. -/
theorem WriteOutcome.retval_ne_eNomem
    (h : WriteOutcome d fPos interrupted alloc buf count (.ok (r, p, d'))) :
    r.retval ≠ -eNomem := by
  cases h <;> simp [eNomem, eRestartsys, eFault]

/-- A write that begins an entry and cannot read its data fails, with the new block in
the partial entry. -/
theorem WriteOutcome.begun {res : Except Fault (Reply × ℤ × Driver)}
    (h : WriteOutcome d fPos false alloc buf count res) (hk : KmallocOk d alloc count)
    (hptr : d.dev.entry.buffptr = none) (hshort : buf.length < count) :
    ∃ r d', res = .ok (r, fPos, d') ∧ r.retval < 0 ∧ d'.dev.entry.buffptr ≠ none := by
  obtain ⟨halloc, hreq⟩ := hk
  cases h with
  | interrupted hint => exact absurd hint (by simp)
  | nullPointer _ hnull =>
    rcases hnull with hnone | hge
    · exact absurd hnone halloc
    · omega
  | outOfBounds _ hne => exact absurd hptr hne
  | faultOngoing _ hne => exact absurd hptr hne
  | faultNew => exact ⟨_, _, rfl, by simp [eFault], by simp⟩
  | refused _ _ hbig =>
    rw [kmallocRequest, hptr] at hreq
    dsimp only at hreq
    omega
  | empty _ hnone => exact absurd hnone halloc
  | kept _ _ hle => omega
  | committed _ _ hle => omega

end ReadWrite

/-! ## One call -/

/-- A block that nobody points to is not seen. -/
theorem untouched_of_heap {s : Sys} {d : Driver} (hw : s.Wf) (hdev : d.dev = s.dev)
    (hheap : d.heap = s.heap ∨ ∃ block, d.heap = s.heap.alloc block) :
    Untouched s { d with fPos := s.fPos } := by
  have hdata : ∀ i, d.dataAt i = s.dataAt i := by
    intro i
    have hptr : d.ptrAt i = s.ptrAt i := by
      rw [Driver.ptrAt, Driver.ptrAt]
      cases i with
      | none => rw [Driver.entryAt, hdev]; rfl
      | some j => rw [Driver.entryAt, hdev]; rfl
    rw [Driver.dataAt, Driver.dataAt, hptr]
    cases hp : s.ptrAt i with
    | none => rfl
    | some p =>
      obtain ⟨data, hd⟩ := hw.owned.live i p hp
      rw [Option.bind_some, Option.bind_some, hd]
      rcases hheap with hsame | ⟨block, halloc⟩
      · rw [hsame, hd]
      · rw [halloc, BlockHeap.data?_alloc_of_some block hd]
  refine ⟨hdev, ?_, fun j => hdata (some j), rfl⟩
  exact congrArg (·.getD []) (hdata none)

theorem Sys.after_same {s : Sys} {file : ℕ} {p : ℤ} (hp : s.fPos file = some p) (d : Driver) :
    s.after file p d = { d with fPos := s.fPos } := by
  rw [after, ← hp, Function.update_eq_self]

theorem untouched_of_not_harmed {s s' : Sys} {c : Call} {r : Reply} (hw : s.Wf)
    (hc : ¬ Harmed s c) (h : s.step c = .ok (r, s')) (hneg : r.retval < 0) : Untouched s s' := by
  cases Sys.step_outcome hw h with
  | notOpen => exact Untouched.refl _
  | aesdOpen file => exact absurd hneg (by simp)
  | aesdRelease => exact absurd hneg (by simp)
  | aesdRead hp hout =>
    obtain ⟨rfl, rfl⟩ := hout.failed hneg
    rw [Sys.after_same hp]
    exact Untouched.refl _
  | @aesdWrite file interrupted alloc buf count p p' r d hp hout =>
    have hok : interrupted = false → KmallocOk s.toDriver alloc count.toNat ∧
        (s.dev.entry.buffptr = none → count.toNat ≤ buf.length) := by
      intro hint
      have hopen : s.fPos file ≠ none := by rw [hp]; simp
      simp only [Harmed, not_and, not_or, not_le, not_lt] at hc
      exact hc hopen hint
    obtain ⟨rfl, hdev, hheap⟩ := hout.failed hok hneg
    rw [Sys.after_same hp]
    exact untouched_of_heap hw hdev hheap
  | aesdLlseek hp =>
    rw [aesdLlseek_failed hneg, Sys.after_same hp]
    exact Untouched.refl _
  | aesdIoctl hp =>
    rw [aesdIoctl_failed hneg, Sys.after_same hp]
    exact Untouched.refl _

/-- A write whose `kmalloc` returns `NULL` would have to return `-ENOMEM`, and one that
begins an entry leaves it changed. -/
theorem not_harmless_of_harmed {s : Sys} {c : Call} (hw : s.Wf) (hc : Harmed s c) :
    ¬ Harmless s c := by
  rintro ⟨hfail, hnomem⟩
  cases c with
  | aesdWrite file interrupted alloc buf count =>
    obtain ⟨hopen, rfl, hcase⟩ := hc
    by_cases hnull : alloc = none ∨ 2 ^ 31 ≤ kmallocRequest s.toDriver count.toNat
    · obtain ⟨r, s', hs, hret⟩ := hnomem ⟨hopen, rfl, hnull⟩
      rcases Sys.onFile_ok hs with ⟨hnone, -, -⟩ | ⟨p, -, hk⟩
      · exact hopen hnone
      · obtain ⟨p', d, hres, -⟩ := Sys.map_ok hk
        have hout := aesdWrite_outcome hw p false alloc buf count.toNat
        rw [hres] at hout
        exact hout.retval_ne_eNomem hret
    · obtain ⟨hptr, hshort⟩ := hcase.resolve_left hnull
      rw [not_or, not_le] at hnull
      obtain ⟨p, hp⟩ := Option.ne_none_iff_exists'.mp hopen
      obtain ⟨r, d, hres, hneg, hne⟩ :=
        (aesdWrite_outcome hw p false alloc buf count.toNat).begun hnull hptr hshort
      have hs : s.step (.aesdWrite file false alloc buf count) = .ok (r, s.after file p d) := by
        simp only [Sys.step, Sys.onFile, hp, hres, Except.map]
      have hdev : d.dev = s.dev := (hfail r _ hs hneg).dev
      rw [hdev] at hne
      exact hne hptr
  | _ => exact hc

/-- The other calls are harmless. -/
theorem harmless_of_not_harmed {s : Sys} {c : Call} (hw : s.Wf) (hc : ¬ Harmed s c) :
    Harmless s c := by
  refine ⟨fun r s' hs hneg => untouched_of_not_harmed hw hc hs hneg, fun hnull => ?_⟩
  cases c with
  | aesdWrite file interrupted alloc buf count =>
    obtain ⟨hopen, hint, hk⟩ := hnull
    exact absurd ⟨hopen, hint, Or.inl hk⟩ hc
  | _ => exact hnull.elim

/-- **Exactly the writes of `Harmed` do harm.**  In every reachable state and for every
call, whatever the outcome of `kmalloc` and of the copies: a call that returns a
negative value leaves the ring, the partial entry, the read counter and the position
as they were, and a write whose `kmalloc` returns `NULL` returns `-ENOMEM`, if and
only if the call is not a write whose `kmalloc` returns `NULL` and not one that begins
an entry and fails to copy its data. -/
theorem harmless_iff_not_harmed {hist : List (Call × Reply)} {s : Sys}
    (h : Run Sys.step (fun _ _ => True) Sys.init hist s) (c : Call) :
    Harmless s c ↔ ¬ Harmed s c := by
  have hw := Sys.wf_of_run h
  constructor
  · intro hless hc
    exact not_harmless_of_harmed hw hc hless
  · exact harmless_of_not_harmed hw

/-- A copy that fails with a partial write ongoing. -/
theorem harmless_of_ongoing_fault :
    ∃ hist s, Run Sys.step (fun _ _ => True) Sys.init hist s ∧ s.pending = [97] ∧
      Harmless s (.aesdWrite 0 false (some fun _ => 0) [98] 2) := by
  obtain ⟨hist, s, hrun, hpend, hptr, hreq⟩ := exists_run_of_replay Sys.step (fun _ _ => True)
    Sys.init [.aesdOpen 0, writeLine [97]]
    (fun _ s => s.pending = [97] ∧ s.dev.entry.buffptr ≠ none ∧
      kmallocRequest s.toDriver 2 = 3) (by decide +kernel)
  refine ⟨hist, s, hrun, hpend, (harmless_iff_not_harmed hrun _).mpr ?_⟩
  rintro ⟨-, -, (hnone | hge) | ⟨hnull, -⟩⟩
  · exact absurd hnone (by simp)
  · have htwo : (2 : UInt64).toNat = 2 := rfl
    rw [htwo, hreq] at hge
    omega
  · exact hptr hnull

/-- The state in which file 0 is open and nothing was written. -/
def opened : Sys := Sys.init.after 0 0 (aesdOpen Sys.init.toDriver)

/-- **A write that fails and leaves its size and its block in the partial entry**, and
one that writes through the `NULL` that `kmalloc` returned. -/
theorem failed_write_does_harm :
    (∃ hist, Run Sys.step (fun _ _ => True) Sys.init hist opened) ∧
      (∃ r s', opened.step (.aesdWrite 0 false (some fun _ => 0) [97] 2) = .ok (r, s') ∧
        r.retval = -eFault ∧ opened.dev.entry = ⟨none, 0⟩ ∧ s'.dev.entry = ⟨some 0, 2⟩) ∧
      opened.step (.aesdWrite 0 false none [97] 1) = .error .nullPointer := by
  refine ⟨⟨_, Run.start.call (a := .aesdOpen 0) trivial rfl⟩, ?_, ?_⟩
  · exact ⟨_, _, rfl, rfl, rfl, rfl⟩
  · rfl

end Aesd
