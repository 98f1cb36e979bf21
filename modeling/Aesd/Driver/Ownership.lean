import Aesd.Driver.History

/-!
# Who owns the buffers

A buffer is born in the partial entry, moves to a slot of the ring when the entry is
complete, and dies when the slot is written again or the partial entry outgrows it.
Two things can go wrong with such a life.  A buffer can be used after its death; this
never happens, and `wf_of_run` has the reason already: the eleven pointers are live
and distinct in every reachable state.  Or it can lose its place without dying.

The second does happen.  `add_entry` reports the pointer it overwrites only if `full`
is set, and it sets `full` when the write index catches up with the *read* index ---
which reads move.  If the read index is not back at slot 0 when the tenth entry is
committed, the ring is full and does not know it, and the next commit overwrites a
pointer nobody frees.  If it is at slot 0 then, nothing is ever lost.
-/

namespace Aesd

/-! ## Unloading -/

/-- `clean_aesd` frees pointers that are live and pairwise distinct. -/
theorem cleanAesdLoop_ok (h : Heap) (es : List AesdBufferEntry)
    (hlive : ∀ e ∈ es, ∀ p, e.buffptr = some p → h.Live p)
    (hdis : es.Pairwise fun a b => ∀ p, a.buffptr = some p → b.buffptr ≠ some p) :
    ∃ h', cleanAesdLoop h es = .ok h' := by
  induction es generalizing h with
  | nil => exact ⟨h, rfl⟩
  | cons e es ih =>
    obtain ⟨hhead, htail⟩ := List.pairwise_cons.mp hdis
    have hfree : kfree h e.buffptr = .ok (h.releasePtr e.buffptr) :=
      kfree_releasePtr fun p hp => hlive e (by simp) p hp
    rw [cleanAesdLoop, hfree]
    refine ih _ (fun e' he' p hp => ?_) htail
    obtain ⟨data, hd⟩ := hlive e' (by simp [he']) p hp
    have hne : e.buffptr ≠ some p := fun hq => hhead e' he' p hq hp
    exact ⟨data, by rw [BlockHeap.data?_releasePtr_of_ne _ hne, hd]⟩

theorem AesdCircularBuffer.slots_getElem (b : AesdCircularBuffer) {i : ℕ}
    (hi : i < b.slots.length) : b.slots[i] = b.slot i := by
  have hi' : i < 10 := by simpa [slots] using hi
  simp [slots, slot, hi']

/-- **`clean_aesd` runs to its end from every well-formed state.** -/
theorem cleanAesd_ok {d : Driver} (hw : d.Wf) : ∃ heap, cleanAesd d = .ok heap := by
  refine cleanAesdLoop_ok _ _ (fun e he p hp => ?_) ?_
  · obtain ⟨i, hi, rfl⟩ := List.mem_iff_getElem.mp he
    rw [AesdCircularBuffer.slots_getElem] at hp
    exact hw.owned.live (some i) p hp
  · rw [List.pairwise_iff_getElem]
    intro i j hi hj hij p hp hq
    rw [AesdCircularBuffer.slots_getElem] at hp hq
    have := hw.owned.inj (some i) (some j) p hp hq
    rw [Option.some.injEq] at this
    omega

/-! ## No freed buffer is referenced -/

/-- A read faults at most by running past the end of a block. -/
theorem aesdRead_error {d : Driver} (hw : d.Wf) {fPos : ℤ} {interrupted : Bool}
    {avail count : ℕ} {f : Fault} (h : aesdRead d fPos interrupted avail count = .error f) :
    f = .outOfBounds := by
  have hout := aesdRead_outcome hw fPos interrupted avail count
  rw [h] at hout
  cases hout
  rfl

/-- A write whose allocation succeeds faults at most by running past the end of a
block. -/
theorem aesdWrite_error {d : Driver} (hw : d.Wf) {fPos : ℤ} {interrupted : Bool}
    {alloc : Option (ℕ → UInt8)} {buf : List UInt8} {n : ℕ} {f : Fault}
    (hk : interrupted = false → KmallocOk d alloc n)
    (h : aesdWrite d fPos interrupted alloc buf n = .error f) : f = .outOfBounds := by
  have hout := aesdWrite_outcome hw fPos interrupted alloc buf n
  rw [h] at hout
  cases hout with
  | nullPointer hint hnull =>
    obtain ⟨halloc, hreq⟩ := hk hint
    rcases hnull with hnone | hge
    · exact absurd hnone halloc
    · omega
  | outOfBounds => rfl

theorem Sys.step_error {s : Sys} {c : Call} {f : Fault} (hw : s.Wf)
    (hok : OnWrites (fun d a _ n => KmallocOk d a n) s c) (h : s.step c = .error f) :
    f = .outOfBounds := by
  cases c with
  | aesdOpen file => exact absurd h (by simp [step])
  | aesdRead file interrupted avail count =>
    obtain ⟨p, -, hk⟩ := onFile_error h
    exact aesdRead_error hw (map_error hk)
  | aesdWrite file interrupted alloc buf count =>
    obtain ⟨p, hp, hk⟩ := onFile_error h
    exact aesdWrite_error hw (hok (by rw [hp]; simp)) (map_error hk)
  | _ =>
    obtain ⟨p, -, hk⟩ := onFile_error h
    exact absurd hk (by simp)

/-- **No freed buffer is ever referenced.**  In every state reached by calls whose
allocations succeed, the pointers in the ten slots and in the partial entry are
pairwise distinct and none has been freed; no further call touches a freed buffer or
frees one again, and neither does unloading the driver. -/
theorem no_freed_buffer_referenced {hist : List (Call × Reply)} {s : Sys}
    (h : Run Sys.step (OnWrites fun d a _ n => KmallocOk d a n) Sys.init hist s) :
    (∀ i j p, s.ptrAt i = some p → s.ptrAt j = some p → i = j) ∧
      (∀ i p, s.ptrAt i = some p → ¬ s.heap.Freed p) ∧
      (∀ c f, OnWrites (fun d a _ n => KmallocOk d a n) s c → s.step c = .error f →
        f ≠ .useAfterFree ∧ f ≠ .doubleFree) ∧
      ∃ heap, cleanAesd s.toDriver = .ok heap := by
  have hw := Sys.wf_of_run h
  refine ⟨hw.owned.inj, fun i p hp => (hw.owned.live i p hp).not_freed, ?_, cleanAesd_ok hw⟩
  intro c f hok hf
  rw [Sys.step_error hw hok hf]
  exact ⟨by simp, by simp⟩

/-- Twelve commits around the ring, two of them in two pieces, and two failed
writes. -/
def evictingCalls : List Call :=
  .aesdOpen 0 :: List.replicate 5 (writeLine [97, 10]) ++
    [writeLine [98], .aesdWrite 0 false (some fun _ => 7) [] 3, writeLine [10],
      .aesdWrite 0 false (some fun _ => 7) [99] 2, writeLine [10]] ++
    List.replicate 5 (writeLine [])

theorem no_freed_buffer_referenced_evicting :
    ∃ hist s, Run Sys.step (OnWrites fun d a _ n => KmallocOk d a n) Sys.init hist s ∧
      s.heap.Freed 0 ∧ s.ptrAt (some 0) = some 13 ∧
      (∀ i j p, s.ptrAt i = some p → s.ptrAt j = some p → i = j) ∧
      ∃ heap, cleanAesd s.toDriver = .ok heap := by
  obtain ⟨hist, s, hrun, hfreed, hptr⟩ := exists_run_of_replay Sys.step
    (OnWrites fun d a _ n => KmallocOk d a n) Sys.init evictingCalls
    (fun _ s => s.heap.Freed 0 ∧ s.ptrAt (some 0) = some 13) (by decide +kernel)
  obtain ⟨hinj, -, -, hclean⟩ := no_freed_buffer_referenced hrun
  exact ⟨hist, s, hrun, hfreed, hptr, hinj, hclean⟩

/-! ## No displaced buffer is lost, if the ring fills from its start -/

/-- The commit that fills the last slot finds the read index at the first. -/
def FillsFromStart (d : Driver) (data : List UInt8) : Prop :=
  Committable (d.pending ++ data) → d.dev.bufferP.full = false →
    d.dev.bufferP.inOffs = 9 → d.dev.bufferP.outOffs = 0

instance (d : Driver) (data : List UInt8) : Decidable (FillsFromStart d data) :=
  inferInstanceAs (Decidable (_ → _ → _ → _))

/-- Every live buffer is held, and a ring that is not marked full is not full: from
the write index on its slots have no buffer, and the read index is not past it. -/
structure Kept (d : Driver) : Prop where
  covered : d.heap.Covered d.ptrAt
  null : d.dev.bufferP.full = false → ∀ j, d.dev.bufferP.inOffs ≤ j → d.ptrAt (some j) = none
  outOffs_le : d.dev.bufferP.full = false → d.dev.bufferP.outOffs ≤ d.dev.bufferP.inOffs

namespace Kept

variable {d d' : Driver}

/-- What `add_entry` returns is what it overwrites. -/
theorem addEntry_result (hw : d.Wf) (hk : Kept d) (e : AesdBufferEntry) :
    (aesdCircularBufferAddEntry d.dev.bufferP e).1 =
      d.ptrAt (some d.dev.bufferP.inOffs) := by
  rw [Aesd.addEntry_result e hw.inOffs_lt]
  cases hf : d.dev.bufferP.full with
  | true => rw [if_pos rfl, Driver.ptrAt_some]
  | false => rw [if_neg (by simp), hk.null hf _ le_rfl]

theorem quiet (hw : d.Wf) (hk : Kept d) (hq : Quiet d d') : Kept d' where
  covered := by rw [hq.heap, hq.ptrAt]; exact hk.covered
  null := by rw [hq.full, hq.inOffs, hq.ptrAt]; exact hk.null
  outOffs_le := by
    intro hf
    rw [hq.full] at hf
    rw [hq.inOffs]
    refine hq.outOffs_le (hk.outOffs_le hf) fun hsize => ?_
    -- a slot that was read has a buffer, so it is before the write index
    by_contra hge
    exact hsize (hw.null _ (hk.null hf _ (by omega)))

theorem filled (hk : Kept d) (data : List UInt8) : Kept (d.filled data) where
  covered := by
    rw [Driver.ptrAt_filled]
    exact hk.covered.replace none _
  null := hk.null
  outOffs_le := hk.outOffs_le

theorem handed (hw : d.Wf) (hk : Kept d)
    (hfill : d.dev.bufferP.full = false → d.dev.bufferP.inOffs = 9 → d.dev.bufferP.outOffs = 0) :
    Kept d.handed where
  covered := by
    rw [Driver.ptrAt_handed hw.inOffs_lt, Driver.handed, hk.addEntry_result hw]
    exact hk.covered.move (by simp)
  null := by
    intro hf j hj
    rw [Driver.handed, addEntry_full _ hw.inOffs_lt, Bool.or_eq_false_iff] at hf
    obtain ⟨hf, hne⟩ := hf
    rw [hf, if_neg (by simp), beq_eq_false_iff_ne] at hne
    have hle := hk.outOffs_le hf
    have hin := hw.inOffs_lt
    rw [Driver.handed, addEntry_inOffs _ hin] at hj
    rw [Driver.ptrAt_handed hin, Function.update_of_ne (by simp)]
    have hlt : d.dev.bufferP.inOffs < 9 := by
      by_contra hge
      have h9 : d.dev.bufferP.inOffs = 9 := by omega
      have := hfill hf h9
      omega
    have hjne : some j ≠ some d.dev.bufferP.inOffs := by
      rw [ne_eq, Option.some.injEq]
      omega
    rw [Function.update_of_ne hjne]
    exact hk.null hf j (by omega)
  outOffs_le := by
    intro hf
    rw [Driver.handed, addEntry_full _ hw.inOffs_lt, Bool.or_eq_false_iff] at hf
    obtain ⟨hf, hne⟩ := hf
    rw [hf, if_neg (by simp), beq_eq_false_iff_ne] at hne
    have hle := hk.outOffs_le hf
    have hin := hw.inOffs_lt
    rw [Driver.handed, addEntry_inOffs _ hin, addEntry_outOffs _ hin, hf, if_neg (by simp)]
    by_cases h9 : d.dev.bufferP.inOffs = 9
    · have := hfill hf h9
      omega
    · omega

end Kept

theorem init_kept : Kept Sys.init.toDriver where
  covered p hp := by
    obtain ⟨data, hd⟩ := hp
    exact absurd hd (by simp [BlockHeap.data?, Sys.init, aesdInitModule])
  null _ j _ := Sys.init_ptrAt (some j)
  outOffs_le _ := Nat.le_refl _

/-- **Nothing is lost while the ring fills from its start.**  In every run whose
allocations and copies succeed, and in which the commit that fills the last slot finds
`out_offs` at slot 0, every live buffer is held in a slot or in the partial entry; and
a commit that overwrites an occupied slot is told its pointer. -/
theorem no_displaced_buffer_lost {hist : List (Call × Reply)} {s : Sys}
    (h : Run Sys.step
      (OnWrites fun d a b n => AllOk d a b n ∧ FillsFromStart d (b.take n)) Sys.init hist s) :
    (∀ p, s.heap.Live p → ∃ i, s.ptrAt i = some p) ∧
      ∀ e p, s.ptrAt (some s.dev.bufferP.inOffs) = some p →
        (aesdCircularBufferAddEntry s.dev.bufferP e).1 = some p := by
  have hk : Kept s.toDriver := by
    refine h.invariant (P := fun _ s => Kept s.toDriver) init_kept ?_
    intro hist s c r s' hrun hk hok hs
    have hw := Sys.wf_of_run hrun
    rcases Sys.step_done hw (fun _ _ _ _ hP => hP.1.done) hok hs with
      ⟨hq, -⟩ | ⟨_, _, buf, count, -, ⟨-, hfill⟩, hlen, -, -, hd⟩
    · exact hk.quiet hw hq
    · rw [hd, Driver.wrote]
      split
      · next hc => exact (hk.filled _).handed (hw.filled hlen) (hfill hc)
      · exact hk.filled _
  refine ⟨hk.covered, fun e p hp => ?_⟩
  rw [hk.addEntry_result (Sys.wf_of_run h), hp]

/-- The ring is filled, read round once and written on. -/
def roundCalls : List Call :=
  .aesdOpen 0 :: List.replicate 10 (writeLine [97, 10]) ++
    .aesdOpen 1 :: List.replicate 11 (.aesdRead 1 false 8 8) ++ [writeLine [98], writeLine [10]]

theorem no_displaced_buffer_lost_round :
    ∃ hist s, Run Sys.step
        (OnWrites fun d a b n => AllOk d a b n ∧ FillsFromStart d (b.take n)) Sys.init hist s ∧
      s.dev.bufferP.inOffs = 1 ∧ s.heap.Freed 0 ∧
      ∀ p, s.heap.Live p → ∃ i, s.ptrAt i = some p := by
  obtain ⟨hist, s, hrun, hin, hfreed⟩ := exists_run_of_replay Sys.step
    (OnWrites fun d a b n => AllOk d a b n ∧ FillsFromStart d (b.take n)) Sys.init roundCalls
    (fun _ s => s.dev.bufferP.inOffs = 1 ∧ s.heap.Freed 0) (by decide +kernel)
  exact ⟨hist, s, hrun, hin, hfreed, (no_displaced_buffer_lost hrun).1⟩

/-- One line is written and read, and ten more are written. -/
def losingCalls : List Call :=
  [.aesdOpen 0, writeLine [97, 10], .aesdOpen 1, .aesdRead 1 false 8 8] ++
    List.replicate 10 (writeLine [98, 10])

theorem AesdCircularBuffer.slot_of_ge (b : AesdCircularBuffer) {j : ℕ} (hj : 10 ≤ j) :
    b.slot j = .zero := by
  have hnone : b.entry[j]? = none := Vector.getElem?_eq_none hj
  rw [slot, hnone, Option.getD_none]

/-- **A displaced buffer that is lost**, although every allocation and every copy of
the run succeeded. -/
theorem displaced_buffer_lost :
    ∃ hist s, Run Sys.step (OnWrites AllOk) Sys.init hist s ∧
      s.heap.Live 0 ∧ ∀ i, s.ptrAt i ≠ some 0 := by
  obtain ⟨hist, s, hrun, hlive, hentry, hslots⟩ := exists_run_of_replay Sys.step
    (OnWrites AllOk) Sys.init losingCalls
    (fun _ s => s.heap.data? 0 = some [97, 10] ∧ s.dev.entry.buffptr = none ∧
      ∀ j : ℕ, j < 10 → (s.dev.bufferP.slot j).buffptr ≠ some 0) (by decide +kernel)
  refine ⟨hist, s, hrun, ⟨_, hlive⟩, fun i => ?_⟩
  cases i with
  | none =>
    rw [Driver.ptrAt_none, hentry]
    simp
  | some j =>
    rcases lt_or_ge j 10 with hlt | hge
    · exact hslots j hlt
    · rw [Driver.ptrAt_some, AesdCircularBuffer.slot_of_ge _ hge]
      simp [AesdBufferEntry.zero]

/-- The converse: a commit into an occupied slot of a ring that is not marked full
loses the buffer of the slot. -/
theorem lost_of_commit_not_full {hist : List (Call × Reply)} {s s' : Sys} {c : Call} {r : Reply}
    {p : ℕ} (h : Run Sys.step (OnWrites AllOk) Sys.init hist s)
    (hfull : s.dev.bufferP.full = false) (hp : s.ptrAt (some s.dev.bufferP.inOffs) = some p)
    (hok : OnWrites AllOk s c) (hs : s.step c = .ok (r, s')) (hcommit : r.commit ≠ none) :
    s'.heap.Live p ∧ ∀ i, s'.ptrAt i ≠ some p := by
  have hw := Sys.wf_of_run h
  rcases Sys.step_done hw (fun _ _ _ _ hP => hP.done) hok hs with
    ⟨-, -, hnone⟩ | ⟨_, _, buf, count, -, -, hlen, -, hc, hd⟩
  · exact absurd hnone hcommit
  have hcom : Committable (s.pending ++ buf.take count.toNat) := by
    by_contra hnot
    rw [if_neg hnot] at hc
    exact hcommit hc
  have hwf := hw.filled hlen
  have hin : (s.filled (buf.take count.toNat)).dev.bufferP.inOffs < 10 := hw.inOffs_lt
  rw [hd, Driver.wrote, if_pos hcom]
  constructor
  · have hres : (aesdCircularBufferAddEntry (s.filled (buf.take count.toNat)).dev.bufferP
        (s.filled (buf.take count.toNat)).dev.entry).1 = none := by
      rw [addEntry_result _ hin, Driver.bufferP_filled, hfull, if_neg (by simp)]
    obtain ⟨data, hdata⟩ := hw.owned.live _ p hp
    refine ⟨data, ?_⟩
    rw [Driver.handed, hres, BlockHeap.releasePtr_none, hw.data?_filled _ hp, hdata]
  · intro i
    rw [Driver.ptrAt_handed hin, Driver.ptrAt_filled]
    have hfresh : p ≠ s.heap.fresh := (hw.owned.live _ p hp).lt_fresh.ne
    cases i with
    | none => simp
    | some j =>
      rw [Function.update_of_ne (by simp)]
      by_cases hj : j = s.dev.bufferP.inOffs
      · subst hj
        rw [Driver.bufferP_filled, Function.update_self, Function.update_self]
        simpa using hfresh.symm
      · rw [Driver.bufferP_filled, Function.update_of_ne (by simpa using hj),
          Function.update_of_ne (by simp)]
        intro hq
        exact hj (Option.some.inj (hw.owned.inj _ _ p hq hp))

end Aesd
