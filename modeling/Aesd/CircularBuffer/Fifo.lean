import Aesd.CircularBuffer.Model
import Aesd.Foundations.RingLog

/-!
# The ring is a bounded queue

`aesd_circular_buffer_add_entry` keeps four things in step --- the slot it
overwrites, two wrapping indices and a flag that it derives from indices it may
just have moved.  Used by itself, on a buffer nobody reads from, these four are
all functions of how many entries have been added: that is `Fifo`.

What a caller sees follows from it: the ring holds the last ten entries, walking
from the read index gives them oldest first, and the pointer returned is the one
whose entry has just been displaced.
-/

namespace Aesd

/-- The buffer after adding `log` to an initialised one, with nothing else
touching it. -/
structure Fifo (b : AesdCircularBuffer) (log : List AesdBufferEntry) : Prop where
  ring : RingLog 10 .zero log b.slot
  inOffs : b.inOffs = log.length % 10
  outOffs : b.outOffs = if log.length < 10 then 0 else log.length % 10
  full : b.full = decide (10 ≤ log.length)

namespace Fifo

variable {b : AesdCircularBuffer} {log : List AesdBufferEntry}

theorem init : Fifo aesdCircularBufferInit [] where
  ring := RingLog.nil 10 fun j _ => init_slot j
  inOffs := rfl
  outOffs := rfl
  full := rfl

theorem inOffs_lt (h : Fifo b log) : b.inOffs < 10 := by
  rw [h.inOffs]
  exact Nat.mod_lt _ (by decide)

theorem outOffs_lt (h : Fifo b log) : b.outOffs < 10 := by
  rw [h.outOffs]
  split_ifs <;> omega

/-- **Adding an entry keeps the ring, both indices and the flag in step.** -/
theorem addEntry (h : Fifo b log) (e : AesdBufferEntry) :
    Fifo (aesdCircularBufferAddEntry b e).2 (log ++ [e]) where
  ring := by
    apply h.ring.push (by decide)
    intro j _
    rw [addEntry_slot e h.inOffs_lt, h.inOffs]
  inOffs := by
    rw [addEntry_inOffs e h.inOffs_lt, h.inOffs, List.length_append, List.length_singleton]
    omega
  outOffs := by
    rw [addEntry_outOffs e h.inOffs_lt, h.full, h.outOffs, List.length_append,
      List.length_singleton]
    simp only [decide_eq_true_eq]
    split_ifs <;> omega
  full := by
    rw [addEntry_full e h.inOffs_lt, h.full, h.outOffs, h.inOffs, List.length_append,
      List.length_singleton, Bool.eq_iff_iff]
    simp only [Bool.or_eq_true, decide_eq_true_eq, beq_iff_eq]
    split_ifs <;> omega

/-- The pointer returned is that of the entry ten places back, once there is one. -/
theorem addEntry_returns (h : Fifo b log) (e : AesdBufferEntry) :
    (aesdCircularBufferAddEntry b e).1 =
      if log.length < 10 then none else (log[log.length - 10]?).bind (·.buffptr) := by
  rw [addEntry_result e h.inOffs_lt, h.full]
  simp only [decide_eq_true_eq]
  rcases lt_or_ge log.length 10 with hlt | hge
  · rw [if_neg (by omega), if_pos hlt]
  · rw [if_pos hge, if_neg (by omega)]
    have hget : log[log.length - 10]? = some log[log.length - 10] :=
      List.getElem?_eq_getElem (by omega)
    have hmod : log.length % 10 = (log.length - 10) % 10 := by omega
    rw [hget, Option.bind_some, h.inOffs, hmod, h.ring.recent _ _ hget (by omega)]

/-- **Walking from the read index gives the last ten entries, oldest first.** -/
theorem walk_outOffs (h : Fifo b log) :
    walk 10 b.slot b.outOffs (min log.length 10) = log.drop (log.length - 10) := by
  rw [h.outOffs]
  rcases lt_or_ge log.length 10 with hlt | hge
  · rw [if_pos hlt, min_eq_left hlt.le, h.ring.walk_of_le hlt.le,
      Nat.sub_eq_zero_of_le hlt.le, List.drop_zero]
  · rw [if_neg (by omega), min_eq_right hge, h.ring.walk_of_ge hge]

end Fifo

/-! ## Sequences of calls -/

/-- Add the entries one after another to an initialised buffer: the buffer, and
what the calls returned. -/
def addEntries (es : List AesdBufferEntry) : AesdCircularBuffer × List (Option ℕ) :=
  es.foldl
    (fun s e =>
      let r := aesdCircularBufferAddEntry s.1 e
      (r.2, s.2 ++ [r.1]))
    (aesdCircularBufferInit, [])

theorem addEntries_concat (es : List AesdBufferEntry) (e : AesdBufferEntry) :
    addEntries (es ++ [e]) =
      ((aesdCircularBufferAddEntry (addEntries es).1 e).2,
        (addEntries es).2 ++ [(aesdCircularBufferAddEntry (addEntries es).1 e).1]) := by
  simp [addEntries]

theorem fifo_addEntries (es : List AesdBufferEntry) : Fifo (addEntries es).1 es := by
  induction es using List.reverseRecOn with
  | nil => exact Fifo.init
  | append_singleton es e ih =>
    rw [addEntries_concat]
    exact ih.addEntry e

theorem length_addEntries_returns (es : List AesdBufferEntry) :
    (addEntries es).2.length = es.length := by
  induction es using List.reverseRecOn with
  | nil => rfl
  | append_singleton es e ih => simp [addEntries_concat, ih]

/-- The `k`-th call of a sequence returns `NULL` or the pointer added ten calls
earlier. -/
theorem addEntries_returns (es : List AesdBufferEntry) {k : ℕ} (hk : k < es.length) :
    (addEntries es).2[k]? = some (if k < 10 then none else (es[k - 10]?).bind (·.buffptr)) := by
  induction es using List.reverseRecOn with
  | nil => exact absurd hk (by simp)
  | append_singleton es e ih =>
    rw [List.length_append, List.length_singleton] at hk
    rw [addEntries_concat]
    rcases Nat.lt_succ_iff_lt_or_eq.mp hk with hlt | rfl
    · rw [List.getElem?_append_left (by rw [length_addEntries_returns]; exact hlt), ih hlt,
        List.getElem?_append_left (by omega)]
    · rw [← length_addEntries_returns es, List.getElem?_concat_length,
        (fifo_addEntries es).addEntry_returns, length_addEntries_returns]
      rcases lt_or_ge es.length 10 with hlt | hge
      · rw [if_pos hlt, if_pos hlt]
      · rw [if_neg (by omega), if_neg (by omega), List.getElem?_append_left (by omega)]

/-- **The ring refines a queue of ten.**  After any sequence of `add_entry` calls
on an initialised buffer, walking from `out_offs` yields the last ten entries,
oldest first; the first ten calls return `NULL` and every later one the pointer of
the entry it displaced; `full` says that ten entries were added, and then the two
indices coincide. -/
theorem addEntries_refines_fifo (es : List AesdBufferEntry) :
    walk 10 (addEntries es).1.slot (addEntries es).1.outOffs (min es.length 10) =
        es.drop (es.length - min es.length 10) ∧
      (addEntries es).2.length = es.length ∧
      (∀ k, k < es.length → k < 10 → (addEntries es).2[k]? = some none) ∧
      (∀ k e, 10 ≤ k → k < es.length → es[k - 10]? = some e →
        (addEntries es).2[k]? = some e.buffptr) ∧
      ((addEntries es).1.full = true ↔ 10 ≤ es.length) ∧
      ((addEntries es).1.full = true →
        (addEntries es).1.inOffs = (addEntries es).1.outOffs) := by
  have h := fifo_addEntries es
  refine ⟨?_, length_addEntries_returns es, ?_, ?_, ?_, ?_⟩
  · rw [h.walk_outOffs]
    congr 1
    omega
  · intro k hk hlt
    rw [addEntries_returns es hk, if_pos hlt]
  · intro k e hge hk he
    rw [addEntries_returns es hk, if_neg (by omega), he, Option.bind_some]
  · rw [h.full, decide_eq_true_eq]
  · rw [h.full, decide_eq_true_eq, h.inOffs, h.outOffs]
    intro hge
    rw [if_neg (by omega)]

end Aesd
