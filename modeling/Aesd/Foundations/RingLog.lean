import Mathlib.Tactic

/-!
# A log in a ring of slots

A ring of `N` slots written round and round holds the end of an append-only log:
entry `k` goes to slot `k % N`, and stays there until entry `k + N` replaces it.
`RingLog N e log slot` is that correspondence, with `e` the value of a slot that
was never written.  It says nothing about cursors or fullness; it is the part of
a circular buffer that survives whatever a reader does to its indices.

Reading is `walk`: so many slots in cyclic order from a given one.  A walk from
the right place gives back the whole log while it still fits, and its last `N`
entries afterwards.
-/

namespace Aesd

variable {α : Type*}

/-- The ring of slots holds the end of the log. -/
structure RingLog (N : ℕ) (e : α) (log : List α) (slot : ℕ → α) : Prop where
  /-- Each of the last `N` entries is in its slot. -/
  recent : ∀ k a, log[k]? = some a → log.length ≤ k + N → slot (k % N) = a
  /-- A slot the log has not reached yet is as it was. -/
  unwritten : ∀ j, log.length ≤ j → j < N → slot j = e

/-- `n` slots in cyclic order from slot `start`. -/
def walk (N : ℕ) (slot : ℕ → α) (start n : ℕ) : List α :=
  (List.range n).map fun i => slot ((start + i) % N)

@[simp] theorem walk_zero (N : ℕ) (slot : ℕ → α) (start : ℕ) :
    walk N slot start 0 = [] := rfl

@[simp] theorem length_walk (N : ℕ) (slot : ℕ → α) (start n : ℕ) :
    (walk N slot start n).length = n := by
  simp [walk]

/-- The first slot of a walk, and the walk from the next one. -/
theorem walk_succ (N : ℕ) (slot : ℕ → α) (start n : ℕ) :
    walk N slot start (n + 1) = slot (start % N) :: walk N slot (start + 1) n := by
  simp only [walk, List.range_succ_eq_map, List.map_cons, List.map_map, Nat.add_zero,
    List.cons.injEq, true_and]
  apply List.map_congr_left
  intro i _
  simp only [Function.comp_apply]
  congr 2
  omega

/-- A walk in two parts. -/
theorem walk_add (N : ℕ) (slot : ℕ → α) (start m n : ℕ) :
    walk N slot start (m + n) = walk N slot start m ++ walk N slot (start + m) n := by
  rw [walk, List.range_add, List.map_append, List.map_map, ← walk]
  congr 1
  apply List.map_congr_left
  intro i _
  rw [Function.comp_apply, Nat.add_assoc]

/-- Once round the ring from anywhere is every slot once. -/
theorem walk_perm (N : ℕ) (slot : ℕ → α) (start : ℕ) :
    (walk N slot start N).Perm (walk N slot 0 N) := by
  induction start with
  | zero => exact List.Perm.refl _
  | succ start ih =>
    -- the slot that is left at the front is entered at the back
    have hfront := walk_add N slot start 1 N
    have hback := walk_add N slot start N 1
    have hsame : walk N slot (start + N) 1 = walk N slot start 1 := by
      rw [walk_succ, walk_succ, Nat.add_mod_right, walk_zero, walk_zero]
    rw [Nat.add_comm 1 N, hback, hsame] at hfront
    have hperm : (walk N slot start 1 ++ walk N slot (start + 1) N).Perm
        (walk N slot start 1 ++ walk N slot start N) := by
      rw [← hfront]
      exact List.perm_append_comm
    exact ((List.perm_append_left_iff _).mp hperm).trans ih

theorem walk_mod (N : ℕ) (slot : ℕ → α) (start n : ℕ) :
    walk N slot (start % N) n = walk N slot start n := by
  apply List.map_congr_left
  intro i _
  rw [Nat.mod_add_mod]

theorem map_walk {γ : Type*} (f : α → γ) (N : ℕ) (slot : ℕ → α) (start n : ℕ) :
    (walk N slot start n).map f = walk N (fun j => f (slot j)) start n := by
  simp [walk]

/-- A longer walk over slots that are not empty delivers more. -/
theorem length_flatten_walk_lt {β : Type*} {N : ℕ} {slot : ℕ → List β} {start m n : ℕ}
    (hmn : m < n) (hne : slot ((start + m) % N) ≠ []) :
    (walk N slot start m).flatten.length < (walk N slot start n).flatten.length := by
  obtain ⟨k, rfl⟩ : ∃ k, n = m + (k + 1) := ⟨n - m - 1, by omega⟩
  have hpos := List.length_pos_iff.mpr hne
  rw [walk_add, walk_succ, List.flatten_append, List.flatten_cons, List.length_append,
    List.length_append]
  omega

/-- Once round the ring delivers the same number of elements from anywhere. -/
theorem length_flatten_walk_round {β : Type*} (N : ℕ) (slot : ℕ → List β) (start start' : ℕ) :
    (walk N slot start N).flatten.length = (walk N slot start' N).flatten.length :=
  ((walk_perm N slot start).trans (walk_perm N slot start').symm).flatten.length_eq

namespace RingLog

variable {N : ℕ} {e : α} {log : List α} {slot : ℕ → α}

theorem nil (N : ℕ) {e : α} {slot : ℕ → α} (h : ∀ j < N, slot j = e) :
    RingLog N e [] slot where
  recent k a hk := by simp at hk
  unwritten j _ hj := h j hj

/-- Slots that agree below `N` hold the same log. -/
theorem congr {slot' : ℕ → α} (hN : 0 < N) (h : RingLog N e log slot)
    (hs : ∀ j < N, slot' j = slot j) : RingLog N e log slot' where
  recent k a hk hle := by
    rw [hs _ (Nat.mod_lt _ hN)]
    exact h.recent k a hk hle
  unwritten j hle hj := by
    rw [hs j hj]
    exact h.unwritten j hle hj

/-- **Appending to the log is writing one slot.** -/
theorem push {slot' : ℕ → α} {a : α} (hN : 0 < N) (h : RingLog N e log slot)
    (hs : ∀ j < N, slot' j = if j = log.length % N then a else slot j) :
    RingLog N e (log ++ [a]) slot' where
  recent k b hk hle := by
    rw [List.length_append, List.length_singleton] at hle
    rcases lt_trichotomy k log.length with hlt | heq | hgt
    · rw [List.getElem?_append_left hlt] at hk
      -- two entries of the last `N` do not share a slot
      have hne : k % N ≠ log.length % N := by
        intro hmod
        have hdvd : N ∣ log.length - k := (Nat.modEq_iff_dvd' hlt.le).mp hmod
        have := Nat.le_of_dvd (by omega) hdvd
        omega
      rw [hs _ (Nat.mod_lt _ hN), if_neg hne]
      exact h.recent k b hk (by omega)
    · subst heq
      rw [List.getElem?_concat_length, Option.some.injEq] at hk
      rw [hs _ (Nat.mod_lt _ hN), if_pos rfl, hk]
    · rw [List.getElem?_eq_none (by simp; omega)] at hk
      exact absurd hk (by simp)
  unwritten j hle hj := by
    rw [List.length_append, List.length_singleton] at hle
    rw [hs j hj, if_neg, h.unwritten j (by omega) hj]
    rw [Nat.mod_eq_of_lt (by omega)]
    omega

/-- **A slot holds the latest entry that was sent to it.** -/
theorem latest (hN : 0 < N) (h : RingLog N e log slot) {k : ℕ} {a : α}
    (hk : log[k]? = some a) (hmax : ∀ k' < log.length, k' % N = k % N → k' ≤ k) :
    slot (k % N) = a := by
  apply h.recent k a hk
  by_contra hlt
  have := hmax (k + N) (by omega) (by simp)
  omega

/-- A slot no entry was sent to is as it was. -/
theorem none_sent (h : RingLog N e log slot) {j : ℕ} (hj : j < N)
    (hnone : ∀ k < log.length, k % N ≠ j) : slot j = e := by
  apply h.unwritten j _ hj
  by_contra hlt
  exact hnone j (by omega) (Nat.mod_eq_of_lt hj)

/-- A slot that was written holds an entry of the log. -/
theorem exists_recent (hN : 0 < N) (log : List α) {j : ℕ} (hj : j < N) (hlt : j < log.length) :
    ∃ k a, log[k]? = some a ∧ log.length ≤ k + N ∧ k % N = j := by
  -- the last index of the log that is congruent to `j`
  have hdiv := Nat.div_add_mod (log.length - 1 - j) N
  have hmod := Nat.mod_lt (log.length - 1 - j) hN
  have hk : j + N * ((log.length - 1 - j) / N) < log.length := by omega
  refine ⟨_, _, List.getElem?_eq_getElem hk, by omega, ?_⟩
  rw [Nat.add_mul_mod_self_left, Nat.mod_eq_of_lt hj]

/-- Every slot is unwritten or holds an entry of the log. -/
theorem eq_or_mem (hN : 0 < N) (h : RingLog N e log slot) {j : ℕ} (hj : j < N) :
    slot j = e ∨ slot j ∈ log := by
  rcases le_or_gt log.length j with hle | hgt
  · exact Or.inl (h.unwritten j hle hj)
  · obtain ⟨k, a, hk, hle, rfl⟩ := exists_recent hN log hj hgt
    rw [h.recent k a hk hle]
    exact Or.inr (List.mem_of_getElem? hk)

/-- If it holds one, it is one of the last `N`. -/
theorem eq_or_mem_drop (hN : 0 < N) (h : RingLog N e log slot) {j : ℕ} (hj : j < N) :
    slot j = e ∨ slot j ∈ log.drop (log.length - N) := by
  rcases le_or_gt log.length j with hle | hgt
  · exact Or.inl (h.unwritten j hle hj)
  · obtain ⟨k, a, hk, hle, rfl⟩ := exists_recent hN log hj hgt
    rw [h.recent k a hk hle]
    refine Or.inr (List.mem_of_getElem? (i := k - (log.length - N)) ?_)
    rw [List.getElem?_drop, ← hk]
    congr 1
    omega

/-- **The log determines the slots.** -/
theorem unique {slot' : ℕ → α} (hN : 0 < N) (h : RingLog N e log slot)
    (h' : RingLog N e log slot') {j : ℕ} (hj : j < N) : slot j = slot' j := by
  rcases le_or_gt log.length j with hle | hgt
  · rw [h.unwritten j hle hj, h'.unwritten j hle hj]
  · obtain ⟨k, a, hk, hle, rfl⟩ := exists_recent hN log hj hgt
    rw [h.recent k a hk hle, h'.recent k a hk hle]

/-- What a ring of `N` slots holds in slot `j` once `log` has been written to it: the last
entry whose index is congruent to `j`. -/
def lastSent (N : ℕ) (e : α) (log : List α) (j : ℕ) : α :=
  if log.length ≤ j then e else log.getD (j + N * ((log.length - 1 - j) / N)) e

/-- **The slots are a function of the log.** -/
theorem slot_eq (hN : 0 < N) (h : RingLog N e log slot) {j : ℕ} (hj : j < N) :
    slot j = lastSent N e log j := by
  unfold lastSent
  rcases le_or_gt log.length j with hle | hgt
  · rw [if_pos hle, h.unwritten j hle hj]
  · have hdiv := Nat.div_add_mod (log.length - 1 - j) N
    have hmod := Nat.mod_lt (log.length - 1 - j) hN
    have hk : j + N * ((log.length - 1 - j) / N) < log.length := by omega
    have hrecent := h.recent _ _ (List.getElem?_eq_getElem hk) (by omega)
    rw [Nat.add_mul_mod_self_left, Nat.mod_eq_of_lt hj] at hrecent
    rw [if_neg (by omega), hrecent, List.getD_eq_getElem?_getD, List.getElem?_eq_getElem hk,
      Option.getD_some]

/-- While the log fits, the walk from slot `0` is the log. -/
theorem walk_of_le (h : RingLog N e log slot) (hle : log.length ≤ N) :
    walk N slot 0 log.length = log := by
  apply List.ext_getElem? fun k => ?_
  rcases lt_or_ge k log.length with hk | hk
  · have hget : log[k]? = some log[k] := List.getElem?_eq_getElem hk
    rw [walk, List.getElem?_map, List.getElem?_range hk, hget, Option.map_some,
      Nat.zero_add, h.recent k _ hget (by omega)]
  · rw [List.getElem?_eq_none hk, List.getElem?_eq_none (by simpa using hk)]

/-- **Once the log has filled the ring, the walk from the next slot to be
written is its last `N` entries.** -/
theorem walk_of_ge (h : RingLog N e log slot) (hge : N ≤ log.length) :
    walk N slot (log.length % N) N = log.drop (log.length - N) := by
  apply List.ext_getElem? fun k => ?_
  rcases lt_or_ge k N with hk | hk
  · have hlt : log.length - N + k < log.length := by omega
    have hget : log[log.length - N + k]? = some log[log.length - N + k] :=
      List.getElem?_eq_getElem hlt
    have hmod : (log.length % N + k) % N = (log.length - N + k) % N := by
      rw [Nat.mod_add_mod]
      conv_lhs => rw [show log.length + k = (log.length - N + k) + N by omega]
      rw [Nat.add_mod_right]
    rw [walk, List.getElem?_map, List.getElem?_range hk, List.getElem?_drop, hget,
      Option.map_some, hmod, h.recent _ _ hget (by omega)]
  · rw [List.getElem?_eq_none (by simpa using hk),
      List.getElem?_eq_none (by rw [List.length_drop]; omega)]

/-- The slot that is `k` ahead of the next slot to be written holds the entry that is `k`
after the oldest. -/
theorem getElem?_ahead (h : RingLog N e log slot) (hge : N ≤ log.length) {k : ℕ} (hk : k < N) :
    log[log.length - N + k]? = some (slot ((log.length + k) % N)) := by
  have hlt : log.length - N + k < log.length := by omega
  have hget := List.getElem?_eq_getElem hlt
  have hmod : (log.length + k) % N = (log.length - N + k) % N := by
    rw [show log.length + k = log.length - N + k + N by omega, Nat.add_mod_right]
  rw [hmod, h.recent _ _ hget (by omega), hget]

/-- **Once round from the next slot to be written**: the slots the log has not reached,
and then its last `N` entries. -/
theorem walk_round (h : RingLog N e log slot) :
    walk N slot (log.length % N) N =
      List.replicate (N - log.length) e ++ log.drop (log.length - N) := by
  rcases lt_or_ge log.length N with hlt | hge
  · have hfirst : walk N slot log.length (N - log.length) =
        List.replicate (N - log.length) e := by
      rw [List.eq_replicate_iff, length_walk]
      refine ⟨rfl, fun a ha => ?_⟩
      obtain ⟨i, hi, rfl⟩ := List.mem_map.mp ha
      rw [List.mem_range] at hi
      rw [Nat.mod_eq_of_lt (by omega)]
      exact h.unwritten _ (by omega) (by omega)
    have hsecond : walk N slot (log.length + (N - log.length)) log.length = log := by
      rw [show log.length + (N - log.length) = N by omega, ← walk_mod, Nat.mod_self]
      exact h.walk_of_le hlt.le
    have hround := walk_add N slot log.length (N - log.length) log.length
    rw [show N - log.length + log.length = N by omega] at hround
    rw [Nat.mod_eq_of_lt hlt, hround, hfirst, hsecond, Nat.sub_eq_zero_of_le hlt.le,
      List.drop_zero]
  · rw [h.walk_of_ge hge, Nat.sub_eq_zero_of_le hge, List.replicate_zero, List.nil_append]

end RingLog
end Aesd
