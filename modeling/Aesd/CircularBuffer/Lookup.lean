import Aesd.CircularBuffer.Narrowing

/-!
# What a lookup says about the stored bytes

The sums of the search are sums over the entries that are still stored, oldest first
(`Fifo.sizesUpTo_eq`).  As long as these are non-empty and hold less than `2 ^ 15` bytes, the
search is the same as with integers of any size, and it stops at the first entry that does
not begin before the position.

That is the entry at the position only if it begins there.  A position inside an entry is
answered with the entry after it, and the position after the last byte of a ring that is not
full with a slot that was never written (`lookup_sound_iff`).  A full ring at least answers
`NULL` exactly for the positions it does not have (`lookup_full`).
-/

namespace Aesd

open FixedWidth

/-! ## The stored entries -/

/-- The entries that a ring of ten still holds, oldest first. -/
def recentEntries (es : List AesdBufferEntry) : List AesdBufferEntry := es.drop (es.length - 10)

/-- How many bytes these entries hold. -/
def byteCount (es : List AesdBufferEntry) : ℕ := (es.map (·.size)).sum

@[simp] theorem length_recentEntries (es : List AesdBufferEntry) :
    (recentEntries es).length = min es.length 10 := by
  rw [recentEntries, List.length_drop]
  omega

theorem byteCount_append (es es' : List AesdBufferEntry) :
    byteCount (es ++ es') = byteCount es + byteCount es' := by
  rw [byteCount, List.map_append, List.sum_append, ← byteCount, ← byteCount]

namespace Fifo

variable {b : AesdCircularBuffer} {log : List AesdBufferEntry} {k : ℕ}

/-- The `k`-th stored entry is in the `k`-th slot from the read index on. -/
theorem getElem?_recent (h : Fifo b log) (hk : k < (recentEntries log).length) :
    (recentEntries log)[k]? = some (b.slot ((b.outOffs + k) % 10)) := by
  rw [length_recentEntries] at hk
  rw [recentEntries, ← h.walk_outOffs, walk, List.getElem?_map, List.getElem?_range hk,
    Option.map_some]

/-- A slot behind them is as it was. -/
theorem slot_zero (h : Fifo b log) (hle : log.length ≤ k) (hk : k < 10) :
    b.slot ((b.outOffs + k) % 10) = .zero := by
  rw [h.outOffs, if_pos (by omega), Nat.zero_add, Nat.mod_eq_of_lt hk]
  exact h.ring.unwritten k hle hk

/-- **The sums of the search are those of the stored entries.** -/
theorem sizesUpTo_eq (h : Fifo b log) (hk : k ≤ 10) :
    b.sizesUpTo k = byteCount ((recentEntries log).take k) := by
  induction k with
  | zero => rfl
  | succ k ih =>
    rw [AesdCircularBuffer.sizesUpTo_succ, ih (by omega)]
    rcases lt_or_ge k (recentEntries log).length with hlt | hge
    · rw [List.take_add_one, h.getElem?_recent hlt, byteCount_append]
      simp [byteCount]
    · have hlen := length_recentEntries log
      rw [List.take_of_length_le hge, List.take_of_length_le (by omega),
        h.slot_zero (by omega) (by omega)]
      rfl

theorem sizesUpTo_ten (h : Fifo b log) : b.sizesUpTo 10 = byteCount (recentEntries log) := by
  rw [h.sizesUpTo_eq (le_refl _), List.take_of_length_le]
  rw [length_recentEntries]
  omega

/-- The end of what is stored. -/
theorem sizesUpTo_length (h : Fifo b log) :
    b.sizesUpTo (recentEntries log).length = byteCount (recentEntries log) := by
  rw [h.sizesUpTo_eq (by rw [length_recentEntries]; omega), List.take_length]

theorem sizesUpTo_le (h : Fifo b log) (hk : k ≤ 10) :
    b.sizesUpTo k ≤ byteCount (recentEntries log) := by
  rw [← h.sizesUpTo_ten]
  exact b.sizesUpTo_mono hk

/-- Every stored entry adds something. -/
theorem sizesUpTo_lt (h : Fifo b log) (hne : ∀ e ∈ recentEntries log, 0 < e.size)
    {j : ℕ} (hj : j < k) (hlt : j < (recentEntries log).length) :
    b.sizesUpTo j < b.sizesUpTo k := by
  have hpos := hne _ (List.mem_of_getElem? (h.getElem?_recent hlt))
  have hmono := b.sizesUpTo_mono (show j + 1 ≤ k from hj)
  rw [AesdCircularBuffer.sizesUpTo_succ] at hmono
  omega

end Fifo

/-! ## The search among the stored entries -/

section Small

variable {b : AesdCircularBuffer} {log : List AesdBufferEntry} {p k : ℕ}

/-- Less than `2 ^ 15` bytes look like what they are. -/
theorem Fifo.seen_sizesUpTo (h : Fifo b log) (hT : byteCount (recentEntries log) < 2 ^ 15)
    (hk : k ≤ 10) : Arith.int16.seen (b.sizesUpTo k) = b.sizesUpTo k := by
  rw [seen_int16]
  exact narrowed_of_lt ((h.sizesUpTo_le hk).trans_lt hT)

theorem narrowed_pred {n : ℕ} (hn : n < 2 ^ 15) (hpos : 0 < n) :
    narrowed ((n : ℤ) - 1) = n - 1 := by
  have hcast : ((n : ℤ) - 1) = ((n - 1 : ℕ) : ℤ) := by omega
  rw [hcast]
  exact narrowed_of_lt (by omega)

/-- **A search that stops.** -/
theorem Fifo.stopsAt (h : Fifo b log) (hT : byteCount (recentEntries log) < 2 ^ 15)
    (hs : StopsAt .int16 b p k) :
    k ≤ 10 ∧ (∀ j < k, b.sizesUpTo j < p) ∧ p ≤ b.sizesUpTo k := by
  have hle := hs.le
  refine ⟨hle, fun j hj => ?_, ?_⟩
  · have hbefore := hs.before j hj
    rw [h.seen_sizesUpTo hT (by omega)] at hbefore
    exact Nat.cast_lt.mp hbefore
  · have hhere := hs.here
    rw [h.seen_sizesUpTo hT hle] at hhere
    exact Nat.cast_le.mp hhere

/-- In a full ring it has found a position that there is. -/
theorem Fifo.stopsAt_full (h : Fifo b log) (hne : ∀ e ∈ recentEntries log, 0 < e.size)
    (hT : byteCount (recentEntries log) < 2 ^ 15) (hfull : 10 ≤ log.length)
    (hs : StopsAt .int16 b p k) : p < byteCount (recentEntries log) := by
  have hlen := length_recentEntries log
  obtain ⟨hle, -, hhere⟩ := h.stopsAt hT hs
  rw [← h.sizesUpTo_ten]
  rcases hle.lt_or_eq with hlt | rfl
  · exact hhere.trans_lt (h.sizesUpTo_lt hne hlt (by omega))
  · have hten := h.sizesUpTo_lt hne (show 9 < 10 by omega) (by omega)
    have hround := hs.round rfl
    rw [seen_int16, narrowed_pred (by rw [h.sizesUpTo_ten]; exact hT) (by omega)] at hround
    omega

/-- **A search that gives up** has not missed a position. -/
theorem Fifo.givesUp_le (h : Fifo b log) (hT : byteCount (recentEntries log) < 2 ^ 15)
    (hs : GivesUp .int16 b p) : byteCount (recentEntries log) ≤ p := by
  have hround := hs.round
  rw [seen_int16, h.sizesUpTo_ten] at hround
  rcases Nat.eq_zero_or_pos (byteCount (recentEntries log)) with hzero | hpos
  · omega
  · rw [narrowed_pred hT hpos] at hround
    omega

/-- A search that starts again has nothing to find. -/
theorem Fifo.goesOn_lt (h : Fifo b log) (hT : byteCount (recentEntries log) < 2 ^ 15)
    (hs : GoesOn .int16 b p) : byteCount (recentEntries log) < p := by
  have hbefore := hs.before 10 (by omega)
  rw [h.seen_sizesUpTo hT (le_refl _), h.sizesUpTo_ten] at hbefore
  exact Nat.cast_lt.mp hbefore

/-- **A position where an entry begins.** -/
theorem Fifo.stopsAt_start (h : Fifo b log) (hne : ∀ e ∈ recentEntries log, 0 < e.size)
    (hT : byteCount (recentEntries log) < 2 ^ 15) (hk : k < (recentEntries log).length) :
    StopsAt .int16 b (b.sizesUpTo k) k := by
  have hlen := length_recentEntries log
  refine ⟨by omega, fun j hj => ?_, ?_, fun h10 => by omega⟩
  · rw [h.seen_sizesUpTo hT (by omega)]
    exact Nat.cast_lt.mpr (h.sizesUpTo_lt hne hj (by omega))
  · rw [h.seen_sizesUpTo hT (by omega)]

theorem offset_start {A : Arith} : (findVars A b (b.sizesUpTo k) k).offset = 0 := by
  rcases Nat.eq_zero_or_pos k with rfl | hpos
  · simp [findVars, A.store_zero]
  · simp [findVars, hpos.ne', offsetAt, A.store_zero]

/-- **It is answered with that entry.** -/
theorem Fifo.find_start (h : Fifo b log) (hne : ∀ e ∈ recentEntries log, 0 < e.size)
    (hT : byteCount (recentEntries log) < 2 ^ 15) (hk : k < (recentEntries log).length)
    {n : ℕ} (hn : k ≤ n) :
    aesdCircularBufferFindEntryOffsetForFpos (some b) (b.sizesUpTo k) n =
      some (some ((b.outOffs + k) % 10, 0)) := by
  rw [aesdCircularBufferFindEntryOffsetForFpos,
    (h.stopsAt_start hne hT hk).findEntry_eq h.outOffs_lt hn, offset_start]
  rfl

end Small

/-! ## Soundness -/

/-- A byte of one part of a concatenation. -/
theorem getElem?_flatMap_take {α β : Type*} (f : α → List β) {l : List α} {k o : ℕ} {a : α}
    (ha : l[k]? = some a) (ho : o < (f a).length) :
    (l.flatMap f)[((l.take k).flatMap f).length + o]? = (f a)[o]? := by
  have hsplit : l.take k ++ a :: l.drop (k + 1) = l := by
    rw [← (List.getElem?_eq_some_iff.mp ha).2, List.getElem_cons_drop, List.take_append_drop]
  have hflat : l.flatMap f = (l.take k).flatMap f ++ (f a ++ (l.drop (k + 1)).flatMap f) := by
    rw [← List.flatMap_cons, ← List.flatMap_append, hsplit]
  rw [hflat, List.getElem?_append_right (Nat.le_add_right _ _), Nat.add_sub_cancel_left,
    List.getElem?_append_left ho]

/-- An answer that is the byte at a position of the stored entries. -/
structure LookupSound (es : List AesdBufferEntry) (p id o : ℕ) : Prop where
  available : p < byteCount (recentEntries es)
  within : o < ((addEntries es).1.slot id).size
  /-- The entry is the one that holds the position, and the offset what is left of it. -/
  place : ∃ k, (recentEntries es)[k]? = some ((addEntries es).1.slot id) ∧
    id = ((addEntries es).1.outOffs + k) % 10 ∧
    p = byteCount ((recentEntries es).take k) + o
  /-- Whatever the entries hold, it is the byte there. -/
  byte : ∀ contents : AesdBufferEntry → List UInt8,
    (∀ e ∈ recentEntries es, (contents e).length = e.size) →
    (contents ((addEntries es).1.slot id))[o]? = ((recentEntries es).flatMap contents)[p]?

theorem length_flatMap_contents {es : List AesdBufferEntry}
    {contents : AesdBufferEntry → List UInt8}
    (h : ∀ e ∈ es, (contents e).length = e.size) :
    (es.flatMap contents).length = byteCount es := by
  rw [List.length_flatMap, byteCount]
  congr 1
  exact List.map_congr_left h

section Sound

variable {es : List AesdBufferEntry} {p k : ℕ}

/-- The start of a stored entry is a sound answer for its position. -/
theorem lookupSound_start (hne : ∀ e ∈ recentEntries es, 0 < e.size)
    (hk : k < (recentEntries es).length) :
    LookupSound es ((addEntries es).1.sizesUpTo k) (((addEntries es).1.outOffs + k) % 10) 0 := by
  have h := fifo_addEntries es
  have hlen := length_recentEntries es
  have hget := h.getElem?_recent hk
  have hpos := hne _ (List.mem_of_getElem? hget)
  have hsum := h.sizesUpTo_eq (show k ≤ 10 by omega)
  refine ⟨?_, hpos, ⟨k, hget, rfl, hsum⟩, fun contents hcontents => ?_⟩
  · rw [← h.sizesUpTo_length]
    exact h.sizesUpTo_lt hne hk hk
  · have hlength : (contents ((addEntries es).1.slot
        (((addEntries es).1.outOffs + k) % 10))).length = _ :=
      hcontents _ (List.mem_of_getElem? hget)
    rw [← getElem?_flatMap_take contents hget (by omega), hsum, Nat.add_zero,
      length_flatMap_contents fun e he => hcontents e (List.mem_of_mem_take he)]

/-- A search that stops after a position that is not the start of an entry has gone past the
entry that holds it. -/
theorem not_lookupSound
    (hstart : ∀ j < (recentEntries es).length, p ≠ (addEntries es).1.sizesUpTo j)
    (hbefore : ∀ j < k, (addEntries es).1.sizesUpTo j < p)
    (hhere : p ≤ (addEntries es).1.sizesUpTo k) (o : ℕ) :
    ¬ LookupSound es p (((addEntries es).1.outOffs + k) % 10) o := by
  intro hs
  have h := fifo_addEntries es
  obtain ⟨j, hget, hid, hp⟩ := hs.place
  have hlen := length_recentEntries es
  have hj : j < (recentEntries es).length := (List.getElem?_eq_some_iff.mp hget).1
  have hwithin := hs.within
  have hne := hstart j hj
  rw [hid] at hwithin
  rw [← h.sizesUpTo_eq (by omega)] at hp
  -- the entry begins before the position and ends after it
  have hend := (addEntries es).1.sizesUpTo_succ j
  have hlt : j < k := by
    by_contra hge
    have := (addEntries es).1.sizesUpTo_mono (Nat.le_of_not_lt hge)
    omega
  have hnext : k ≤ j + 1 := by
    by_contra hgt
    have := hbefore (j + 1) (by omega)
    omega
  omega

/-- A position inside an entry, or at the end of a ring that is not full, has an answer, and
not a sound one. -/
theorem unsound_of_not_start (hT : byteCount (recentEntries es) < 2 ^ 15) (hp : p < 2 ^ 64)
    (hstart : ∀ j < (recentEntries es).length, p ≠ (addEntries es).1.sizesUpTo j)
    (hle : p ≤ byteCount (recentEntries es))
    (hlast : p = byteCount (recentEntries es) → es.length < 10) :
    ∃ n id o, aesdCircularBufferFindEntryOffsetForFpos (some (addEntries es).1) p n =
      some (some (id, o)) ∧ ¬ LookupSound es p id o := by
  have h := fifo_addEntries es
  have hlen := length_recentEntries es
  rcases outcome .int16 (addEntries es).1 p with ⟨k, hs⟩ | hs | hs
  · obtain ⟨-, hbefore, hhere⟩ := h.stopsAt hT hs
    exact ⟨k, _, _, hs.findEntry_eq h.outOffs_lt (le_refl _),
      not_lookupSound hstart hbefore hhere _⟩
  · have hge := h.givesUp_le hT hs
    obtain rfl : p = byteCount (recentEntries es) := by omega
    -- the sum of the stored sizes is reached before the end of the lap
    have hbefore := hs.before (recentEntries es).length (by have := hlast rfl; omega)
    rw [h.seen_sizesUpTo hT (by omega), h.sizesUpTo_length] at hbefore
    exact absurd hbefore (lt_irrefl _)
  · have hlt := h.goesOn_lt hT hs
    omega

/-- A position beyond the end of the stored entries has no answer, and in a full ring neither
has the end. -/
theorem no_answer_past_end (hne : ∀ e ∈ recentEntries es, 0 < e.size)
    (hT : byteCount (recentEntries es) < 2 ^ 15) (hp : p < 2 ^ 64)
    (hpast : byteCount (recentEntries es) < p ∨
      p = byteCount (recentEntries es) ∧ 10 ≤ es.length) (n : ℕ) (r : ℕ × ℕ) :
    aesdCircularBufferFindEntryOffsetForFpos (some (addEntries es).1) p n ≠ some (some r) := by
  have h := fifo_addEntries es
  intro hfind
  rcases outcome .int16 (addEntries es).1 p with ⟨k, hs⟩ | hs | hs
  · obtain ⟨hk, -, hhere⟩ := h.stopsAt hT hs
    have hle := h.sizesUpTo_le hk
    have hfull := (hpast.resolve_left (by omega)).2
    have hlt := h.stopsAt_full hne hT hfull hs
    omega
  · exact absurd (findEntry_unique hfind (hs.findEntry_eq h.outOffs_lt (le_refl _))) (by simp)
  · rw [hs.never_ends hp h.outOffs_lt] at hfind
    cases hfind

variable (es)

/-- **A lookup is sound exactly for the positions where a stored entry begins, and for those
it has no answer to.** -/
theorem lookup_sound_iff (charOffset : UInt64) (hne : ∀ e ∈ recentEntries es, 0 < e.size)
    (hT : byteCount (recentEntries es) ≤ 32767) :
    (∀ n id o, aesdCircularBufferFindEntryOffsetForFpos (some (addEntries es).1)
        charOffset.toNat n = some (some (id, o)) → LookupSound es charOffset.toNat id o) ↔
      (∃ k < (recentEntries es).length,
          charOffset.toNat = byteCount ((recentEntries es).take k)) ∨
        byteCount (recentEntries es) < charOffset.toNat ∨
        charOffset.toNat = byteCount (recentEntries es) ∧ 10 ≤ es.length := by
  have hp : charOffset.toNat < 2 ^ 64 := charOffset.toNat_lt
  generalize charOffset.toNat = p at hp ⊢
  have h := fifo_addEntries es
  have hlen := length_recentEntries es
  have hsmall : byteCount (recentEntries es) < 2 ^ 15 := by omega
  constructor
  · intro hsound
    by_contra hcond
    push Not at hcond
    obtain ⟨hstart, hle, hlast⟩ := hcond
    obtain ⟨n, id, o, hfind, hnot⟩ := unsound_of_not_start hsmall hp
      (fun j hj => by rw [h.sizesUpTo_eq (by omega)]; exact hstart j hj) hle hlast
    exact hnot (hsound n id o hfind)
  · intro hcond n id o hfind
    rcases hcond with ⟨j, hj, rfl⟩ | hpast
    · rw [← h.sizesUpTo_eq (by omega)] at hfind ⊢
      have heq := findEntry_unique hfind (h.find_start hne hsmall hj (le_refl j))
      rw [Option.some.injEq, Prod.mk.injEq] at heq
      obtain ⟨rfl, rfl⟩ := heq
      exact lookupSound_start hne hj
    · exact absurd hfind (no_answer_past_end hne hsmall hp hpast n (id, o))

/-- Three commands, and the second byte of the second. -/
theorem lookup_sound_iff_three :
    (∀ e ∈ recentEntries [⟨some 0, 3⟩, ⟨some 1, 2⟩, ⟨some 2, 4⟩], 0 < e.size) ∧
    byteCount (recentEntries [⟨some 0, 3⟩, ⟨some 1, 2⟩, ⟨some 2, 4⟩]) ≤ 32767 ∧
    ¬ ∀ n id o, aesdCircularBufferFindEntryOffsetForFpos
        (some (addEntries [⟨some 0, 3⟩, ⟨some 1, 2⟩, ⟨some 2, 4⟩]).1) (4 : UInt64).toNat n =
          some (some (id, o)) →
      LookupSound [⟨some 0, 3⟩, ⟨some 1, 2⟩, ⟨some 2, 4⟩] (4 : UInt64).toNat id o := by
  refine ⟨by decide, by decide, ?_⟩
  rw [lookup_sound_iff _ 4 (by decide) (by decide)]
  decide

/-- One command of three bytes, and its second byte: the answer is the slot after it. -/
theorem lookup_inside_entry :
    ∃ id o, aesdCircularBufferFindEntryOffsetForFpos (some (addEntries [⟨some 0, 3⟩]).1) 1 10 =
        some (some (id, o)) ∧ ¬ LookupSound [⟨some 0, 3⟩] 1 id o := by
  refine ⟨1, 18446744073709551614, by decide +kernel, fun h => ?_⟩
  exact absurd h.within (by decide +kernel)

/-! ## A full ring -/

/-- **A full ring knows which positions it has**, and where its entries begin. -/
theorem lookup_full (hfull : 10 ≤ es.length) (hne : ∀ e ∈ recentEntries es, 0 < e.size)
    (hT : byteCount (recentEntries es) ≤ 32767) :
    (∀ charOffset : UInt64, ∃ r,
      aesdCircularBufferFindEntryOffsetForFpos (some (addEntries es).1) charOffset.toNat 10 =
          some r ∧
        (r = none ↔ byteCount (recentEntries es) ≤ charOffset.toNat)) ∧
    ∀ k < 10,
      aesdCircularBufferFindEntryOffsetForFpos (some (addEntries es).1)
          (byteCount ((recentEntries es).take k)) 10 =
        some (some (((addEntries es).1.outOffs + k) % 10, 0)) ∧
      (recentEntries es)[k]? =
        some ((addEntries es).1.slot (((addEntries es).1.outOffs + k) % 10)) := by
  have h := fifo_addEntries es
  have hlen := length_recentEntries es
  have hsmall : byteCount (recentEntries es) < 2 ^ 15 := by omega
  constructor
  · intro charOffset
    generalize charOffset.toNat = p
    rcases outcome .int16 (addEntries es).1 p with ⟨k, hs⟩ | hs | hs
    · have hlt := h.stopsAt_full hne hsmall hfull hs
      refine ⟨_, hs.findEntry_eq h.outOffs_lt hs.le, ?_⟩
      simp [hlt]
    · have hge := h.givesUp_le hsmall hs
      exact ⟨none, hs.findEntry_eq h.outOffs_lt (le_refl _), by simp [hge]⟩
    · -- `max_position` is what it should be, so there is no second lap
      have hlt := h.goesOn_lt hsmall hs
      have hpos := h.sizesUpTo_lt hne (show 0 < 10 by omega) (by omega)
      have hround := hs.round
      rw [h.sizesUpTo_ten] at hpos hround
      rw [seen_int16, narrowed_pred hsmall (by omega)] at hround
      omega
  · intro k hk
    rw [← h.sizesUpTo_eq (by omega)]
    exact ⟨h.find_start hne hsmall (by omega) (by omega), h.getElem?_recent (by omega)⟩

/-- Commands of one byte, two bytes, and so on. -/
def growingEntries (n : ℕ) : List AesdBufferEntry :=
  (List.range n).map fun i => ⟨some i, i + 1⟩

/-- Thirteen commands, of which four to thirteen bytes long ones are left; the fourth of
these begins after fifteen bytes, and there are eighty-five. -/
theorem lookup_full_thirteen :
    (∃ r, aesdCircularBufferFindEntryOffsetForFpos (some (addEntries (growingEntries 13)).1)
        (85 : UInt64).toNat 10 = some r ∧ (r = none ↔ 85 ≤ (85 : UInt64).toNat)) ∧
    aesdCircularBufferFindEntryOffsetForFpos (some (addEntries (growingEntries 13)).1) 15 10 =
      some (some (6, 0)) := by
  obtain ⟨hnull, hstart⟩ := lookup_full (growingEntries 13) (by decide) (by decide) (by decide)
  exact ⟨hnull 85, (hstart 3 (by decide)).1⟩

end Sound

end Aesd
