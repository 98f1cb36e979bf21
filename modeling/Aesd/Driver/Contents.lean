import Aesd.Driver.History
import Aesd.Foundations.RingLog

/-!
# What is stored, in every run

The other files restrict what the writes of a run may be.  Here nothing is
restricted: allocations and copies may fail, writes may be empty, and the reader may
have gone anywhere.  The ring still holds the end of the commit log
(`ring_of_run`), because the only thing a call ever does to the contents of a slot is
to put what it commits at the write index (`step_ring`).

So what the device stores, oldest first, can be read off a state alone: the slots from
the write index on, once round.  The slots the log has not reached contribute nothing.
-/

namespace Aesd

open FixedWidth

/-! ## What a call does to the ring -/

/-- A write leaves the ring alone and commits nothing, or it has the lock and commits an
entry that it has added.  If it was given a block, that entry has one. -/
theorem WriteOutcome.ring {d d' : Driver} {fPos p : ℤ} {interrupted : Bool}
    {alloc : Option (ℕ → UInt8)} {buf : List UInt8} {count : ℕ} {r : Reply}
    (h : WriteOutcome d fPos interrupted alloc buf count (.ok (r, p, d'))) :
    (r.commit = none ∧ d'.dev.bufferP = d.dev.bufferP) ∨
      ∃ e entry, r.commit = some e ∧ interrupted = false ∧ (alloc ≠ none → entry.buffptr ≠ none) ∧
        d'.dev.bufferP = (aesdCircularBufferAddEntry d.dev.bufferP entry).2 := by
  cases h with
  | interrupted => exact Or.inl ⟨rfl, rfl⟩
  | faultOngoing => exact Or.inl ⟨rfl, rfl⟩
  | faultNew => exact Or.inl ⟨rfl, rfl⟩
  | refused => exact Or.inl ⟨rfl, rfl⟩
  | empty hlock hnone => exact Or.inr ⟨_, _, rfl, hlock, fun h => absurd hnone h, rfl⟩
  | kept => exact Or.inl ⟨rfl, rfl⟩
  | committed hlock =>
    exact Or.inr
      ⟨_, (d.filled (buf.take count)).dev.entry, rfl, hlock, by simp [Driver.filled], rfl⟩

theorem Driver.dataAt_alloc {d : Driver} (hw : d.Wf) (block : List UInt8) (i : Option ℕ) :
    Driver.dataAt { d with heap := d.heap.alloc block } i = d.dataAt i := by
  cases hp : d.ptrAt i with
  | none =>
    have hp' : Driver.ptrAt { d with heap := d.heap.alloc block } i = none := hp
    rw [dataAt, dataAt, hp, hp', Option.bind_none, Option.bind_none]
  | some p =>
    have hp' : Driver.ptrAt { d with heap := d.heap.alloc block } i = some p := hp
    obtain ⟨e, he⟩ := hw.owned.live i p hp
    rw [dataAt, dataAt, hp, hp', Option.bind_some, Option.bind_some, he]
    exact BlockHeap.data?_alloc_of_some block he

theorem Driver.dataAt_cleared {d : Driver} (hw : d.Wf) (j : ℕ) :
    d.cleared.dataAt (some j) = d.dataAt (some j) := by
  have hptr : d.cleared.ptrAt (some j) = d.ptrAt (some j) := by
    rw [ptrAt_cleared, Function.update_of_ne (by simp)]
  rw [dataAt, dataAt, hptr]
  cases hp : d.ptrAt (some j) with
  | none => rfl
  | some p =>
    have hne : d.dev.entry.buffptr ≠ some p := fun hq =>
      absurd (hw.owned.inj (some j) none p hp hq) (by simp)
    rw [Option.bind_some, Option.bind_some, cleared, BlockHeap.data?_releasePtr_of_ne _ hne]

/-- A write that commits puts the committed bytes at the write index; every other slot
keeps its bytes. -/
theorem WriteOutcome.slotBytes {d d' : Driver} {fPos p : ℤ} {interrupted : Bool}
    {alloc : Option (ℕ → UInt8)} {buf : List UInt8} {count : ℕ} {r : Reply} (hw : d.Wf)
    (h : WriteOutcome d fPos interrupted alloc buf count (.ok (r, p, d'))) (j : ℕ) :
    d'.slotBytes j =
      if j = d.dev.bufferP.inOffs then r.commit.getD (d.slotBytes j) else d.slotBytes j := by
  have hsame : (if j = d.dev.bufferP.inOffs then d.slotBytes j else d.slotBytes j) =
      d.slotBytes j := ite_self _
  cases h with
  | interrupted => exact hsame.symm
  | faultOngoing _ _ _ hheap =>
    refine Eq.trans ?_ hsame.symm
    rcases hheap with rfl | ⟨block, rfl⟩
    · rfl
    · exact congrArg (·.getD []) (Driver.dataAt_alloc hw block (some j))
  | faultNew _ _ _ hlen hlt =>
    refine Eq.trans ?_ hsame.symm
    exact congrArg (·.getD []) (Driver.dataAt_alloc hw _ (some j))
  | refused => exact hsame.symm
  | empty =>
    have hin : d.cleared.dev.bufferP.inOffs = d.dev.bufferP.inOffs := rfl
    rw [Driver.slotBytes_eq, Driver.dataAt_handed hw.cleared, hin]
    by_cases hj : j = d.dev.bufferP.inOffs
    · rw [if_pos hj, if_pos hj]
      rfl
    · rw [if_neg hj, if_neg hj, Driver.dataAt_cleared hw]
      rfl
  | kept =>
    refine Eq.trans ?_ hsame.symm
    exact congrArg (·.getD []) (Driver.dataAt_filled hw _ j)
  | committed _ _ _ hlen =>
    rw [Driver.slotBytes_eq, Driver.dataAt_handed (hw.filled hlen), Driver.bufferP_filled]
    by_cases hj : j = d.dev.bufferP.inOffs
    · rw [if_pos hj, if_pos hj, Driver.dataAt_filled_entry hw]
      rfl
    · rw [if_neg hj, if_neg hj, Driver.dataAt_filled hw]
      rfl

namespace Sys

variable {s s' : Sys} {c : Call} {r : Reply}

/-- **One call and the ring.**  Nothing is committed and every slot keeps its bytes, or
the committed bytes are put at the write index and the index moves on. -/
theorem step_ring (hw : s.Wf) (h : s.step c = .ok (r, s')) :
    (∀ j, s'.slotBytes j =
        if j = s.dev.bufferP.inOffs then r.commit.getD (s.slotBytes j) else s.slotBytes j) ∧
      s'.dev.bufferP.inOffs =
        if r.commit = none then s.dev.bufferP.inOffs else (s.dev.bufferP.inOffs + 1) % 10 := by
  rcases step_cases hw h with ⟨hq, hcommit⟩ | ⟨_, _, _, _, _, _, _, -, -, hout, -⟩
  · rw [hcommit, if_pos rfl]
    refine ⟨fun j => ?_, hq.inOffs⟩
    rw [Option.getD_none, ite_self]
    exact congrArg (·.getD []) (hq.dataAt (some j))
  · refine ⟨hout.slotBytes hw, ?_⟩
    rcases hout.ring with ⟨hcommit, hring⟩ | ⟨e, entry, hcommit, -, -, hring⟩
    · rw [hcommit, if_pos rfl, hring]
    · rw [hcommit, if_neg (by simp), hring, addEntry_inOffs _ hw.inOffs_lt]

/-- **In every run, the ring holds the end of the commit log.** -/
theorem ring_of_run {ok : Sys → Call → Prop} {hist : List (Call × Reply)}
    (h : Run step ok init hist s) :
    RingLog 10 [] (commits hist) s.slotBytes ∧
      s.dev.bufferP.inOffs = (commits hist).length % 10 := by
  refine h.invariant (P := fun hist s => RingLog 10 [] (commits hist) s.slotBytes ∧
    s.dev.bufferP.inOffs = (commits hist).length % 10) ⟨?_, rfl⟩ ?_
  · refine RingLog.nil 10 fun j _ => ?_
    show bytesAt _ (init.ptrAt (some j)) = []
    rw [init_ptrAt, bytesAt_none]
  · rintro hist s c r s' hrun ⟨hring, hin⟩ - hs
    obtain ⟨hslots, hin'⟩ := step_ring (wf_of_run hrun) hs
    rw [commits_concat]
    cases hcommit : r.commit with
    | none =>
      rw [hcommit, if_pos rfl] at hin'
      rw [Option.toList_none, List.append_nil, hin', hin]
      refine ⟨hring.congr (by decide) fun j _ => ?_, rfl⟩
      rw [hslots, hcommit, Option.getD_none, ite_self]
    | some e =>
      rw [hcommit, if_neg (by simp)] at hin'
      rw [Option.toList_some, List.length_append, List.length_singleton, hin', hin]
      refine ⟨hring.push (by decide) fun j _ => ?_, by rw [Nat.mod_add_mod]⟩
      rw [hslots, hcommit, Option.getD_some, hin]

end Sys

/-! ## What an entry is -/

theorem WriteOutcome.committable {d d' : Driver} {fPos p : ℤ} {interrupted : Bool}
    {alloc : Option (ℕ → UInt8)} {buf : List UInt8} {count : ℕ} {r : Reply} {e : List UInt8}
    (h : WriteOutcome d fPos interrupted alloc buf count (.ok (r, p, d')))
    (he : r.commit = some e) : Committable e := by
  cases h with
  | empty => exact Or.inl (Option.some.inj he).symm
  | committed _ _ _ _ hc => exact Option.some.inj he ▸ hc
  | _ => exact absurd he (by simp)

/-- In every run, what is committed is a line or nothing. -/
theorem committable_of_run {ok : Sys → Call → Prop} {hist : List (Call × Reply)} {s : Sys}
    (h : Run Sys.step ok Sys.init hist s) : ∀ e ∈ commits hist, Committable e := by
  refine h.invariant (P := fun hist _ => ∀ e ∈ commits hist, Committable e) (by simp) ?_
  intro hist s c r s' hrun ih _ hs e he
  rw [commits_concat, List.mem_append, Option.mem_toList] at he
  rcases he with he | he
  · exact ih e he
  · rcases Sys.step_cases (Sys.wf_of_run hrun) hs with
      ⟨-, hnone⟩ | ⟨_, _, _, _, _, _, _, -, -, hout, -⟩
    · exact absurd he (by simp [hnone])
    · exact hout.committable he

/-- A slot that holds something holds a line. -/
theorem line_of_slotBytes {ok : Sys → Call → Prop} {hist : List (Call × Reply)} {s : Sys}
    (h : Run Sys.step ok Sys.init hist s) {j : ℕ} (hj : j < 10) (hne : s.slotBytes j ≠ []) :
    Line eol (s.slotBytes j) := by
  have hmem := ((Sys.ring_of_run h).1.eq_or_mem (by decide) hj).resolve_left hne
  exact (committable_of_run h _ hmem).resolve_left hne

/-- The slots that commits have reached hold something, unless what was committed was
nothing. -/
theorem slotBytes_ne_nil {ok : Sys → Call → Prop} {hist : List (Call × Reply)} {s : Sys}
    (h : Run Sys.step ok Sys.init hist s)
    (hne : ∀ e ∈ (commits hist).drop ((commits hist).length - 10), e ≠ []) {j : ℕ}
    (hj : j < 10) (hlt : j < (commits hist).length) : s.slotBytes j ≠ [] := by
  obtain ⟨k, e, hk, hle, rfl⟩ := RingLog.exists_recent (by decide) (commits hist) hj hlt
  rw [(Sys.ring_of_run h).1.recent k e hk hle]
  refine hne e (List.mem_of_getElem? (i := k - ((commits hist).length - 10)) ?_)
  rw [List.getElem?_drop, ← hk]
  congr 1
  omega

/-- The others hold nothing. -/
theorem slotBytes_eq_nil {ok : Sys → Call → Prop} {hist : List (Call × Reply)} {s : Sys}
    (h : Run Sys.step ok Sys.init hist s) {j : ℕ} (hj : j < 10)
    (hle : (commits hist).length ≤ j) : s.slotBytes j = [] :=
  (Sys.ring_of_run h).1.unwritten j hle hj

/-! ## The stored bytes -/

/-- What is stored, oldest first. -/
def Driver.stored (d : Driver) : List UInt8 :=
  (walk 10 d.slotBytes d.dev.bufferP.inOffs 10).flatten

/-- **The stored bytes are the last ten commits.** -/
theorem stored_eq {ok : Sys → Call → Prop} {hist : List (Call × Reply)} {s : Sys}
    (h : Run Sys.step ok Sys.init hist s) :
    s.stored = ((commits hist).drop ((commits hist).length - 10)).flatten := by
  obtain ⟨hring, hin⟩ := Sys.ring_of_run h
  have hnil : (List.replicate (10 - (commits hist).length) ([] : List UInt8)).flatten = [] :=
    List.flatten_replicate_nil
  rw [Driver.stored, hin, hring.walk_round, List.flatten_append, hnil,
    List.nil_append]

/-! ## The total size -/

theorem foldl_sizes_eq (l : List AesdBufferEntry) (total : ℕ) (h : ∀ e ∈ l, e.size < 2 ^ 31)
    (hfit : total + l.length * 2 ^ 31 < 2 ^ 63) :
    l.foldl (fun (total : ℤ) e => wrapS 64 (total + e.size)) total =
      (total + (l.map (·.size)).sum : ℕ) := by
  induction l generalizing total with
  | nil => simp
  | cons e l ih =>
    have he := h e (by simp)
    rw [List.length_cons] at hfit
    have hstep : wrapS 64 ((total : ℤ) + e.size) = (total + e.size : ℕ) := by
      rw [wrapS_of_bounds (by omega) (by omega)]
      push_cast
      rfl
    rw [List.foldl_cons, hstep, ih (total + e.size) (fun e' he' => h e' (by simp [he'])) (by omega),
      List.map_cons, List.sum_cons, Nat.add_assoc]

theorem AesdCircularBuffer.slots_eq (b : AesdCircularBuffer) :
    b.slots = (List.range 10).map b.slot := by
  apply List.ext_getElem? fun j => ?_
  rw [List.getElem?_map, slots, Vector.getElem?_toList]
  rcases lt_or_ge j 10 with hj | hj
  · rw [List.getElem?_range hj, Option.map_some, slot,
      Vector.getElem?_eq_getElem (show j < maxWriteOperationsSupported from hj), Option.getD_some]
  · rw [List.getElem?_eq_none (by simpa using hj), Vector.getElem?_eq_none hj, Option.map_none]

/-- The size of a slot is an `int`. -/
theorem Driver.Wf.size_lt {d : Driver} (hw : d.Wf) (j : ℕ) :
    (d.dev.bufferP.slot j).size < 2 ^ 31 := by
  cases hptr : d.ptrAt (some j) with
  | none =>
    rw [hw.null j hptr]
    decide
  | some p => exact hw.bounded (some j) p hptr

/-- **`aesd_llseek` sums up the number of stored bytes.** -/
theorem totalSize_eq {d : Driver} (hw : d.Wf) : totalSize d = d.stored.length := by
  have hsizes : ∀ e ∈ d.dev.bufferP.slots, e.size < 2 ^ 31 := by
    intro e he
    rw [AesdCircularBuffer.slots_eq] at he
    obtain ⟨j, -, rfl⟩ := List.mem_map.mp he
    exact hw.size_lt j
  have hlen : d.dev.bufferP.slots.length = 10 := by
    rw [AesdCircularBuffer.slots_eq, List.length_map, List.length_range]
  have hsum := foldl_sizes_eq d.dev.bufferP.slots 0 hsizes (by rw [hlen]; decide)
  have hstored : d.stored.length = (d.dev.bufferP.slots.map (·.size)).sum := by
    rw [Driver.stored, length_flatten_walk_round 10 d.slotBytes _ 0, walk, List.length_flatten,
      AesdCircularBuffer.slots_eq, List.map_map, List.map_map]
    congr 1
    apply List.map_congr_left
    intro j hj
    rw [List.mem_range] at hj
    rw [Function.comp_apply, Function.comp_apply, Nat.zero_add, Nat.mod_eq_of_lt hj,
      hw.length_slotBytes]
  rw [totalSize, hstored]
  simpa using hsum

end Aesd
