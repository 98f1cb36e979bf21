import Aesd.Driver.History

/-!
# The size of a partial write

The size of the accumulated entry is a `size_t` sum, stored in an `int`, converted back to a
`size_t` for `kmalloc` and for the entry, and to an `int` again for the scan.  It is right as
long as the kernel refuses to allocate more than some `M` below `2 ^ 31`: an entry that there is
a block for has at most `M` bytes, and a count is smaller than `2 ^ 31 - 4095`, so a sum that
does not fit the `int` becomes a negative number, and no `size_t` that comes from one of these
is allocated (`newSize_exact`).

So in a run in which every allocation is granted, the two copies of a partial write fill the new
block to its last byte (`PartialWrite`), whatever was written before.
-/

namespace Aesd

open FixedWidth

/-- The allocation of a write is granted, `M` being the most that is allocated, and the count
is one the kernel passes on. -/
def Granted (M : ℕ) (d : Driver) (alloc : Option (ℕ → UInt8)) (_ : List UInt8) (n : ℕ) : Prop :=
  alloc ≠ none ∧ kmallocRequest d n ≤ M ∧ n ≤ 2 ^ 31 - 4096

instance (M : ℕ) (d : Driver) (alloc : Option (ℕ → UInt8)) (buf : List UInt8) (n : ℕ) :
    Decidable (Granted M d alloc buf n) :=
  inferInstanceAs (Decidable (_ ∧ _))

/-- **A sum that does not fit is not allocated.** -/
theorem newSize_exact {M count size : ℕ} (hM : M < 2 ^ 31) (hcount : count ≤ 2 ^ 31 - 4096)
    (hsize : size ≤ M)
    (hreq : wrapU 64 (wrapS 32 (wrapU 64 ((count : ℤ) + size))) ≤ M) :
    wrapS 32 (wrapU 64 ((count : ℤ) + size)) = count + size ∧ count + size ≤ M := by
  have hsum : (wrapU 64 ((count : ℤ) + size) : ℤ) = count + size :=
    wrapU_of_nonneg (by omega) (by omega)
  rw [hsum] at hreq ⊢
  rcases lt_or_ge (count + size) (2 ^ 31) with hlt | hge
  · have hfit : wrapS 32 ((count : ℤ) + size) = count + size :=
      wrapS_of_bounds (by omega) (by omega)
    have hback : (wrapU 64 ((count : ℤ) + size) : ℤ) = count + size :=
      wrapU_of_nonneg (by omega) (by omega)
    rw [hfit] at hreq
    exact ⟨hfit, by omega⟩
  · -- the `int` is negative, and the `size_t` enormous
    have hu := wrapU_emod 32 ((count : ℤ) + size)
    have hneg : wrapS 32 ((count : ℤ) + size) = count + size - 2 ^ 32 := by
      unfold wrapS
      split_ifs <;> omega
    have hback : (wrapU 64 ((count : ℤ) + size - 2 ^ 32) : ℤ) = count + size - 2 ^ 32 + 2 ^ 64 :=
      wrapU_of_neg (by omega) (by omega)
    rw [hneg] at hreq
    omega

/-! ## The size of the partial entry -/

section Bounded

variable {M : ℕ} {hist : List (Call × Reply)} {s : Sys}

/-- A partial entry with a block has at most so many bytes. -/
def Driver.EntryLe (d : Driver) (M : ℕ) : Prop := d.dev.entry.buffptr ≠ none → d.dev.entry.size ≤ M

/-- What is asked for is the size of the entry and the count. -/
theorem Driver.EntryLe.request {d : Driver} (h : d.EntryLe M) (hw : d.Wf) (hM : M < 2 ^ 31)
    {alloc : Option (ℕ → UInt8)} {buf : List UInt8} {count : ℕ}
    (hgrant : Granted M d alloc buf count) :
    kmallocRequest d count = d.pending.length + count := by
  obtain ⟨-, hreq, hcount⟩ := hgrant
  cases hptr : d.dev.entry.buffptr with
  | none =>
    rw [kmallocRequest, hptr, Driver.pending_of_null hptr, List.length_nil, Nat.zero_add]
  | some i =>
    have hlen := (hw.pending_data hptr).2
    have hsize := h (by rw [hptr]; simp)
    rw [kmallocRequest, hptr] at hreq ⊢
    obtain ⟨hexact, hle⟩ := newSize_exact hM hcount hsize hreq
    dsimp only
    rw [hexact, hlen, Nat.add_comm]
    exact_mod_cast wrapU_natCast (w := 64) (n := count + d.dev.entry.size) (by omega)

/-- **A write whose allocation is granted keeps the bound.** -/
theorem WriteOutcome.entryLe {d d' : Driver} {fPos p : ℤ} {interrupted : Bool}
    {alloc : Option (ℕ → UInt8)} {buf : List UInt8} {count : ℕ} {r : Reply} (hw : d.Wf)
    (hM : M < 2 ^ 31) (hle : d.EntryLe M)
    (hgrant : interrupted = false → Granted M d alloc buf count)
    (h : WriteOutcome d fPos interrupted alloc buf count (.ok (r, p, d'))) : d'.EntryLe M := by
  cases h with
  | interrupted => exact hle
  | faultOngoing => exact hle
  | faultNew hlock hptr =>
    intro _
    have hreq := (hgrant hlock).2.1
    rw [kmallocRequest, hptr] at hreq
    exact hreq
  | refused => exact fun hne => absurd rfl hne
  | empty => exact fun hne => absurd rfl hne
  | kept hlock _ hcount =>
    intro _
    have hreq := (hgrant hlock).2.1
    rw [hle.request hw hM (hgrant hlock)] at hreq
    show (d.pending ++ buf.take count).length ≤ M
    rw [List.length_append, List.length_take]
    omega
  | committed => exact fun hne => absurd rfl hne

/-- **In every run whose allocations are granted, the partial entry is within the bound.** -/
theorem entryLe_of_run (hM : M < 2 ^ 31)
    (h : Run Sys.step (OnWrites (Granted M)) Sys.init hist s) : s.EntryLe M := by
  refine h.invariant (P := fun _ s => s.EntryLe M) (fun hne => absurd rfl hne) ?_
  intro hist s c r s' hrun hle hok hs
  rcases Sys.step_cases (Sys.wf_of_run hrun) hs with
    ⟨hq, -⟩ | ⟨file, interrupted, alloc, buf, count, p, p', rfl, hp, hout, -⟩
  · intro hne
    rw [hq.entry] at hne ⊢
    exact hle hne
  · refine hout.entryLe (Sys.wf_of_run hrun) hM hle fun hlock => hok ?_ hlock
    rw [hp]
    simp

end Bounded

/-! ## The copies -/

/-- A copy into a block that was just allocated, and is long enough. -/
theorem copyFromUser_fresh {h : Heap} {block buf : List UInt8} {off n : ℕ} (hn : n < 2 ^ 31)
    (hle : off + n ≤ block.length) :
    copyFromUser (h.alloc block) (some h.fresh) off buf n =
      .ok (n - buf.length,
        h.alloc (block.take off ++ padded buf n ++ block.drop (off + n))) := by
  have hmax : ¬ intMax < n := by
    simp only [intMax]
    omega
  have hstore : store (h.alloc block) (some h.fresh) off (padded buf n) =
      .ok (h.alloc (block.take off ++ padded buf n ++ block.drop (off + (padded buf n).length))) :=
    store_fresh (by rwa [length_padded])
  rw [length_padded] at hstore
  have hpad : buf.take n ++ List.replicate (n - buf.length) 0 = padded buf n := rfl
  rw [copyFromUser, if_neg hmax, hpad, hstore]

/-- The sizes of a write that adds to a partial entry. -/
structure PartialWrite (d : Driver) (alloc : Option (ℕ → UInt8)) (buf : List UInt8)
    (count : ℕ) : Prop where
  /-- `newSize` is the sum. -/
  newSize : wrapS 32 (wrapU 64 ((count : ℤ) + d.dev.entry.size)) = count + d.dev.entry.size
  /-- The new block has room for the entry and the data, and for nothing else. -/
  fills : ∃ block : List UInt8,
    kmalloc d.heap alloc (wrapU 64 (wrapS 32 (wrapU 64 ((count : ℤ) + d.dev.entry.size)))) =
        (d.heap.alloc block, some d.heap.fresh) ∧
      block.length = d.dev.entry.size + count ∧
      memcpy (d.heap.alloc block) (some d.heap.fresh) d.dev.entry.buffptr d.dev.entry.size =
        .ok (d.heap.alloc (d.pending ++ block.drop d.dev.entry.size)) ∧
      copyFromUser (d.heap.alloc (d.pending ++ block.drop d.dev.entry.size))
          (some d.heap.fresh) d.dev.entry.size buf count =
        .ok (count - buf.length, d.heap.alloc (d.pending ++ padded buf count)) ∧
      (d.pending ++ padded buf count).length = block.length

section Copies

variable {M : ℕ} {d : Driver} {alloc : Option (ℕ → UInt8)} {buf : List UInt8} {count : ℕ}

theorem Granted.block (hM : M < 2 ^ 31) (hgrant : Granted M d alloc buf count) :
    ∃ block, kmalloc d.heap alloc (kmallocRequest d count) =
      (d.heap.alloc block, some d.heap.fresh) ∧ block.length = kmallocRequest d count := by
  obtain ⟨halloc, hreq, -⟩ := hgrant
  rcases kmalloc_cases d.heap alloc (kmallocRequest d count) with
    ⟨-, hnull⟩ | ⟨block, hk, hlen, -, -⟩
  · exact absurd (hnull.resolve_left halloc) (by omega)
  · exact ⟨block, hk, hlen⟩

/-- **The two copies of a partial write fill its block.** -/
theorem partialWrite_of_granted (hw : d.Wf) (hM : M < 2 ^ 31) (hle : d.EntryLe M)
    (hptr : d.dev.entry.buffptr ≠ none) (hgrant : Granted M d alloc buf count) :
    PartialWrite d alloc buf count := by
  obtain ⟨i, hi⟩ := Option.ne_none_iff_exists'.mp hptr
  obtain ⟨hdata, hplen⟩ := hw.pending_data hi
  obtain ⟨block, hk, hblock⟩ := hgrant.block hM
  have hrequest := hle.request hw hM hgrant
  have hreq : wrapU 64 (wrapS 32 (wrapU 64 ((count : ℤ) + d.dev.entry.size))) =
      kmallocRequest d count := by rw [kmallocRequest, hi]
  rw [hrequest, hplen] at hblock
  have hsmall := hgrant.2.1
  obtain ⟨hexact, -⟩ := newSize_exact hM hgrant.2.2 (hle hptr) (by rw [hreq]; exact hsmall)
  refine ⟨hexact, block, by rw [hreq, hk], hblock, ?_, ?_, ?_⟩
  · rw [hi, ← hplen, memcpy_of_data? (BlockHeap.data?_alloc_of_some block hdata),
      store_fresh (by omega), List.take_zero, List.nil_append, Nat.zero_add]
  · have hlen : (d.pending ++ block.drop d.dev.entry.size).length =
        d.dev.entry.size + count := by
      rw [List.length_append, List.length_drop]
      omega
    have hcount := hgrant.2.2
    rw [copyFromUser_fresh (by omega) hlen.ge, ← hplen, List.take_left,
      List.drop_of_length_le, List.append_nil]
    rw [hplen]
    exact hlen.le
  · rw [List.length_append, length_padded]
    omega

/-- A write that starts an entry, and whose data is readable, arrives at the scan with the
data. -/
theorem aesdWriteNew_eq_finish (hM : M < 2 ^ 31) (hgrant : Granted M d alloc buf count)
    (hcount : count ≤ buf.length) (hptr : d.dev.entry.buffptr = none) (fPos : ℤ) :
    aesdWriteNew d fPos alloc buf count =
      aesdWriteFinish (d.filled (buf.take count)) fPos count := by
  have hsmall := hgrant.2.2
  obtain ⟨block, hk, hblock⟩ := hgrant.block hM
  rw [kmallocRequest, hptr] at hk hblock
  dsimp only at hk hblock
  have hcopy : copyFromUser (d.heap.alloc block) (some d.heap.fresh) 0 buf count =
      .ok (count - buf.length, d.heap.alloc (padded buf count)) := by
    rw [copyFromUser_fresh (by omega) (by omega), List.take_zero, List.nil_append,
      List.drop_of_length_le (by omega), List.append_nil]
  have hfilled : d.filled (buf.take count) =
      { heap := d.heap.alloc (padded buf count)
        dev := { d.dev with entry := ⟨some d.heap.fresh, count⟩ } } := by
    rw [Driver.filled_of_null hptr, padded_of_le hcount, List.length_take, min_eq_left hcount]
  unfold aesdWriteNew
  simp only [hk, hcopy]
  rw [if_neg (by omega), hfilled]

/-- A write that adds to an entry arrives there with both. -/
theorem aesdWriteOngoing_eq_finish (hw : d.Wf) (hM : M < 2 ^ 31) (hle : d.EntryLe M)
    (hgrant : Granted M d alloc buf count) (hcount : count ≤ buf.length) {i : ℕ}
    (hptr : d.dev.entry.buffptr = some i) (fPos : ℤ) :
    aesdWriteOngoing d fPos alloc buf count =
      aesdWriteFinish (d.filled (buf.take count)) fPos count := by
  have hsize := hle (by rw [hptr]; simp)
  have hsmall := hgrant.2.2
  obtain ⟨hdata, hplen⟩ := hw.pending_data hptr
  obtain ⟨hexact, block, hk, hblock, hmem, hcopy, -⟩ :=
    partialWrite_of_granted hw hM hle (by rw [hptr]; simp) hgrant
  have hback : wrapU 64 ((count : ℤ) + d.dev.entry.size) = count + d.dev.entry.size := by
    exact_mod_cast wrapU_natCast (w := 64) (n := count + d.dev.entry.size) (by omega)
  have hfree := kfree_of_live
    ⟨d.pending, BlockHeap.data?_alloc_of_some (d.pending ++ padded buf count) hdata⟩
  unfold aesdWriteOngoing
  simp only [hk, hmem, hcopy]
  rw [if_neg (by omega), hptr, hfree, hexact, hback, filled_of_block hw hptr hcount]

/-- **What is scanned is the whole entry**, and its size is an `int`. -/
theorem aesdWrite_eq_finish (hw : d.Wf) (hM : M < 2 ^ 31) (hle : d.EntryLe M)
    (hgrant : Granted M d alloc buf count) (hcount : count ≤ buf.length) (fPos : ℤ) :
    aesdWrite d fPos false alloc buf count =
        aesdWriteFinish (d.filled (buf.take count)) fPos count ∧
      (d.filled (buf.take count)).dev.entry.size = d.pending.length + count ∧
      wrapS 32 (d.filled (buf.take count)).dev.entry.size =
        (d.filled (buf.take count)).dev.entry.size := by
  have hrequest := hle.request hw hM hgrant
  have hsmall := hgrant.2.1
  have hsize : (d.filled (buf.take count)).dev.entry.size = d.pending.length + count := by
    show (d.pending ++ buf.take count).length = _
    rw [List.length_append, List.length_take, min_eq_left hcount]
  refine ⟨?_, hsize, ?_⟩
  · rw [aesdWrite, if_neg Bool.false_ne_true]
    cases hptr : d.dev.entry.buffptr with
    | none => exact aesdWriteNew_eq_finish hM hgrant hcount hptr fPos
    | some i => exact aesdWriteOngoing_eq_finish hw hM hle hgrant hcount hptr fPos
  · rw [hsize]
    exact wrapS_of_bounds (by omega) (by omega)

/-- **Sizes of partial writes.**  In every run whose allocations are granted, the block of the
partial entry is as long as the entry, at most `M` bytes; and for every further write that is
granted its allocation, `newSize` is the sum, the copies fill the block, and the scan is given
the size of the entry. -/
theorem partial_write_sizes {hist : List (Call × Reply)} {s : Sys} (hM : M < 2 ^ 31)
    (h : Run Sys.step (OnWrites (Granted M)) Sys.init hist s) :
    (∀ i, s.dev.entry.buffptr = some i → ∃ data, s.heap.data? i = some data ∧
      data.length = s.dev.entry.size ∧ s.dev.entry.size ≤ M) ∧
    ∀ alloc buf count, Granted M s.toDriver alloc buf count →
      (s.dev.entry.buffptr ≠ none → PartialWrite s.toDriver alloc buf count) ∧
      (count ≤ buf.length → ∀ fPos,
        aesdWrite s.toDriver fPos false alloc buf count =
            aesdWriteFinish (s.filled (buf.take count)) fPos count ∧
          (s.filled (buf.take count)).dev.entry.size = s.pending.length + count ∧
          wrapS 32 (s.filled (buf.take count)).dev.entry.size =
            (s.filled (buf.take count)).dev.entry.size) := by
  have hw := Sys.wf_of_run h
  have hle := entryLe_of_run hM h
  refine ⟨fun i hi => ?_, fun alloc buf count hgrant => ⟨fun hptr => ?_, fun hcount fPos => ?_⟩⟩
  · obtain ⟨hdata, hlen⟩ := hw.pending_data hi
    exact ⟨s.pending, hdata, hlen, hle (by rw [hi]; simp)⟩
  · exact partialWrite_of_granted hw hM hle hptr hgrant
  · exact aesdWrite_eq_finish hw hM hle hgrant hcount fPos

/-- Three bytes have been written, and four are to follow, with at most a hundred allocated. -/
theorem partial_write_sizes_three :
    ∃ hist s, Run Sys.step (OnWrites (Granted 100)) Sys.init hist s ∧
      s.dev.entry.size = 3 ∧ s.dev.entry.buffptr ≠ none ∧
      PartialWrite s.toDriver (some fun _ => 0) [100, 101, 102, 10] 4 := by
  obtain ⟨hist, s, hrun, hsize, hptr, hgrant⟩ := exists_run_of_replay Sys.step
    (OnWrites (Granted 100)) Sys.init [.aesdOpen 0, writeLine [97, 98, 99]]
    (fun _ s => s.dev.entry.size = 3 ∧ s.dev.entry.buffptr ≠ none ∧
      Granted 100 s.toDriver (some fun _ => 0) [100, 101, 102, 10] 4) (by decide +kernel)
  exact ⟨hist, s, hrun, hsize, hptr,
    ((partial_write_sizes (by decide) hrun).2 _ _ _ hgrant).1 hptr⟩

end Copies

end Aesd
