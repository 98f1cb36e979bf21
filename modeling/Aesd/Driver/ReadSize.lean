import Aesd.Driver.Session

/-!
# Sessions with requests of any size

`aesd_read` keeps a position inside the current entry.  It uses it to decide how much
to copy and when to move on, but not where to copy from: every read copies from the
start of the entry.  So a reader whose requests are smaller than the entries is given
the beginnings of the entries over again, and --- since only the end of an entry is a
newline --- never what it was due (`flatten_ne_of_inside`).  A request of exactly the
size of an entry delivers it, but the next one finds nothing left of the entry and
returns 0, which ends the session there.

What is delivered is what is stored exactly if each request is larger than the entry
it meets, and the one for the last entry at least as large (`Covers`).
-/

namespace Aesd

/-- Each request is larger than its entry; the last one may be exactly as large. -/
def Covers : List (List UInt8) → List UInt64 → Prop
  | [], _ => True
  | _ :: _, [] => False
  | e :: es, n :: ns => (e.length < n.toNat ∧ Covers es ns) ∨ (e.length = n.toNat ∧ es = [])

section Reads

variable {s t : Sys} {file p : ℕ} {n : UInt64} {ns counts : List UInt64}
  {out : List (List UInt8)}

/-- A session that has begun to read an entry, one read on: the count has run out, the
read was refused, it went past the end of the entry, or it stayed inside. -/
theorem readUntilZero_inside (hw : s.Wf) (hfile : s.fPos file = some (p : ℤ))
    (hsize : s.current.size ≠ 0) (hp : p ≤ s.current.size) (hn : 0 < n.toNat)
    (h : readUntilZero file s (n :: ns) = some (out, t)) :
    (s.dev.readCounter = 10 ∧ out = []) ∨
      (s.dev.readCounter ≠ 10 ∧ p = s.current.size ∧ out = []) ∨
      (s.dev.readCounter ≠ 10 ∧ p < s.current.size ∧ s.current.size < p + n.toNat ∧
        ∃ out', readUntilZero file (s.after file 0 (s.served true)) ns = some (out', t) ∧
          out = (s.slotBytes s.dev.bufferP.outOffs).take (s.current.size - p) :: out') ∨
      (s.dev.readCounter ≠ 10 ∧ p + n.toNat ≤ s.current.size ∧
        ∃ out', readUntilZero file (s.after file (p + n.toNat : ℕ) (s.served false)) ns =
            some (out', t) ∧
          out = (s.slotBytes s.dev.bufferP.outOffs).take n.toNat :: out') := by
  by_cases hcounter : s.dev.readCounter = 10
  · rw [readUntilZero_end hw hfile (Or.inr hcounter), Option.some.injEq, Prod.mk.injEq] at h
    exact Or.inl ⟨hcounter, h.1.symm⟩
  refine Or.inr ?_
  rcases le_or_gt (p + n.toNat) s.current.size with hin | hpast
  · have hread := aesdRead_within hw hsize hcounter hin le_rfl
    rw [readUntilZero_cons hfile hread, if_neg (by simpa using hn.ne'), if_neg (by simp)] at h
    obtain ⟨⟨out', t'⟩, hrest, he⟩ := Option.map_eq_some_iff.mp h
    obtain ⟨hout, rfl⟩ := Prod.mk.inj he
    exact Or.inr (Or.inr ⟨hcounter, hin, out', hrest, hout.symm⟩)
  rcases lt_or_ge (p + n.toNat) (2 ^ 64) with hfit | hover
  · have hread := aesdRead_past_end hw hsize hcounter hp hpast hfit le_rfl
    rw [readUntilZero_cons hfile hread] at h
    rcases Nat.lt_or_eq_of_le hp with hlt | heq
    · rw [if_neg (by simp; omega), if_neg (by simp)] at h
      obtain ⟨⟨out', t'⟩, hrest, he⟩ := Option.map_eq_some_iff.mp h
      obtain ⟨hout, rfl⟩ := Prod.mk.inj he
      exact Or.inr (Or.inl ⟨hcounter, hlt, hpast, out', hrest, hout.symm⟩)
    · rw [if_pos (by simp; omega), Option.some.injEq, Prod.mk.injEq] at h
      exact Or.inl ⟨hcounter, heq, h.1.symm⟩
  · obtain ⟨bytes, hread⟩ := aesdRead_overflow n.toNat hw hsize hcounter hp
      n.toNat_lt hover
    rw [readUntilZero_cons hfile hread, if_neg (by simp), if_pos (by simp)] at h
    exact absurd h (by simp)

/-- **From inside an entry, the rest of it is never delivered.** -/
theorem flatten_ne_of_inside {e : List UInt8} (rest : List UInt8) (hw : s.Wf)
    (hfile : s.fPos file = some (p : ℤ)) (he : s.slotBytes s.dev.bufferP.outOffs = e)
    (hl : Line eol e) (hp : 0 < p) (hlt : p < e.length) (hpos : ∀ n ∈ counts, 0 < n.toNat)
    (h : readUntilZero file s counts = some (out, t)) :
    out.flatten ≠ e.drop p ++ rest := by
  induction counts generalizing s p out with
  | nil => exact absurd h (by simp [readUntilZero])
  | cons n ns ih =>
    have hlen : s.current.size = e.length := by
      rw [← he]
      exact (hw.length_slotBytes _).symm
    have hdrop : (e.drop p).length = e.length - p := List.length_drop
    intro heq
    rcases readUntilZero_inside hw hfile (by omega) (by omega) (hpos n (by simp)) h with
      ⟨-, rfl⟩ | ⟨-, hend, -⟩ | ⟨-, -, -, out', -, rfl⟩ | ⟨hcounter, hin, out', hrest, rfl⟩
    · have := congrArg List.length heq
      rw [List.length_append, hdrop] at this
      simp only [List.flatten_nil, List.length_nil] at this
      omega
    · omega
    · rw [he, hlen, List.flatten_cons] at heq
      refine hl.take_ne_drop hp hlt (List.append_inj heq ?_).1
      rw [List.length_take, hdrop]
      omega
    · rw [he, List.flatten_cons] at heq
      rcases Nat.lt_or_eq_of_le hin with hinside | hexact
      · -- the read was right so far; what follows is not
        have hsplit : e.drop p = (e.drop p).take n.toNat ++ e.drop (p + n.toNat) := by
          rw [← List.drop_drop, List.take_append_drop]
        rw [hsplit, List.append_assoc] at heq
        have hsame : (e.take n.toNat).length = ((e.drop p).take n.toNat).length := by
          rw [List.length_take, List.length_take, hdrop]
          omega
        exact ih (s := s.after file (p + n.toNat : ℕ) (s.served false)) (p := p + n.toNat)
          (hw.served false hcounter) (Sys.after_fPos_self _ _ _ _) he (by omega) (by omega)
          (fun n' hn' => hpos n' (by simp [hn'])) hrest (List.append_inj heq hsame).2
      · have hn : n.toNat = e.length - p := by omega
        rw [hn] at heq
        refine hl.take_ne_drop hp hlt (List.append_inj heq ?_).1
        rw [List.length_take, hdrop]
        omega

/-- A session that has delivered an entry exactly ends with the next read. -/
theorem eq_nil_of_exact (hw : s.Wf) (hfile : s.fPos file = some (s.current.size : ℤ))
    (hsize : s.current.size ≠ 0) (hpos : ∀ n ∈ counts, 0 < n.toNat)
    (h : readUntilZero file s counts = some (out, t)) : out = [] := by
  cases counts with
  | nil => exact absurd h (by simp [readUntilZero])
  | cons n ns =>
    have hn := hpos n (by simp)
    rcases readUntilZero_inside hw hfile hsize le_rfl hn h with
      ⟨-, hout⟩ | ⟨-, -, hout⟩ | ⟨-, hlt, -⟩ | ⟨-, hin, -⟩
    · exact hout
    · exact hout
    · omega
    · omega

/-- After a first request that is not larger than the entry, the session delivers this
entry and `es` only if the request was exactly as large and `es` is nothing. -/
theorem flatten_eq_iff_of_within {es : List (List UInt8)} (hw : s.Wf)
    (hsize : s.current.size ≠ 0) (hcounter : s.dev.readCounter ≠ 10)
    (hl : Line eol (s.slotBytes s.dev.bufferP.outOffs)) (hes : ∀ e ∈ es, Line eol e)
    (hn : 0 < n.toNat) (hin : n.toNat ≤ s.current.size) (hns : ∀ n' ∈ ns, 0 < n'.toNat)
    (h : readUntilZero file (s.after file (n.toNat : ℕ) (s.served false)) ns = some (out, t)) :
    (s.slotBytes s.dev.bufferP.outOffs).take n.toNat ++ out.flatten =
        s.slotBytes s.dev.bufferP.outOffs ++ es.flatten ↔
      s.current.size = n.toNat ∧ es = [] := by
  have hlen : (s.slotBytes s.dev.bufferP.outOffs).length = s.current.size :=
    hw.length_slotBytes _
  have hw' : (s.after file (n.toNat : ℕ) (s.served false)).Wf := hw.served false hcounter
  rcases Nat.lt_or_eq_of_le hin with hpart | hexact
  · -- a piece of the entry, and never the rest of it
    have hne := flatten_ne_of_inside (e := s.slotBytes s.dev.bufferP.outOffs) es.flatten hw'
      (Sys.after_fPos_self _ _ _ _) rfl hl hn (by omega) hns h
    constructor
    · intro heq
      rw [← List.take_append_drop n.toNat (s.slotBytes s.dev.bufferP.outOffs),
        List.append_assoc, List.take_append_drop] at heq
      exact absurd (List.append_cancel_left heq) hne
    · rintro ⟨heq, -⟩
      omega
  · -- the entry exactly, and the end of the session
    have hnil : out = [] := eq_nil_of_exact hw'
      (by rw [Sys.after_fPos_self, hexact]; rfl) hsize hns h
    rw [hnil, List.flatten_nil, hexact, List.take_of_length_le hlen.le, List.append_right_inj]
    constructor
    · intro heq
      refine ⟨rfl, List.eq_nil_iff_forall_not_mem.mpr fun e he => ?_⟩
      -- another line would have been due
      exact (hes e he).ne_nil (List.flatten_eq_nil_iff.mp heq.symm e he)
    · rintro ⟨-, rfl⟩
      rfl

/-- **A session delivers the lines that are due exactly if its requests cover
them.** -/
theorem flatten_eq_iff_covers (m : ℕ) (hw : s.Wf) (hfile : s.fPos file = some 0)
    (hpos : ∀ n ∈ counts, 0 < n.toNat) (hdue : Due s.toDriver m)
    (hline : ∀ e ∈ walk 10 s.slotBytes s.dev.bufferP.outOffs m, Line eol e)
    (h : readUntilZero file s counts = some (out, t)) :
    out.flatten = (walk 10 s.slotBytes s.dev.bufferP.outOffs m).flatten ↔
      Covers (walk 10 s.slotBytes s.dev.bufferP.outOffs m) counts := by
  induction m generalizing s counts out with
  | zero =>
    cases counts with
    | nil => exact absurd h (by simp [readUntilZero])
    | cons n ns =>
      rw [readUntilZero_end hw hfile (hdue.current_end hw), Option.some.injEq, Prod.mk.injEq] at h
      rw [← h.1, walk_zero, Covers]
      exact ⟨fun _ => trivial, fun _ => rfl⟩
  | succ m ih =>
    cases counts with
    | nil => exact absurd h (by simp [readUntilZero])
    | cons n ns =>
      rw [Driver.walk_served hw] at hline ⊢
      have hl : Line eol (s.slotBytes s.dev.bufferP.outOffs) := hline _ (by simp)
      have hlen : (s.slotBytes s.dev.bufferP.outOffs).length = s.current.size :=
        hw.length_slotBytes _
      have hns : ∀ n' ∈ ns, 0 < n'.toNat := fun n' hn' => hpos n' (by simp [hn'])
      have hcounter := hdue.counter_ne_ten
      rw [List.flatten_cons, Covers, hlen]
      rcases readUntilZero_inside (p := 0) hw hfile (hdue.current_ne_zero hw) (Nat.zero_le _)
        (hpos n (by simp)) h with
        ⟨hten, -⟩ | ⟨-, hzero, -⟩ | ⟨-, -, hpast, out', hrest, rfl⟩ |
          ⟨-, hin, out', hrest, rfl⟩
      · exact absurd hten hcounter
      · exact absurd hzero.symm (hdue.current_ne_zero hw)
      · -- the whole entry, and on to the next
        have hiff := ih (s := s.after file 0 (s.served true)) (hw.served true hcounter)
          (Sys.after_fPos_self _ _ _ _) hns hdue.served
          (fun e he => hline e (List.mem_cons_of_mem _ he)) hrest
        rw [Nat.zero_add] at hpast
        rw [Nat.sub_zero, List.take_of_length_le hlen.le, List.flatten_cons,
          List.append_right_inj]
        refine hiff.trans ⟨fun hc => Or.inl ⟨hpast, hc⟩, ?_⟩
        rintro (⟨-, hc⟩ | ⟨heq, -⟩)
        · exact hc
        · omega
      · rw [Nat.zero_add] at hin hrest
        have hnot : ¬ s.current.size < n.toNat := by omega
        rw [List.flatten_cons, flatten_eq_iff_of_within hw (hdue.current_ne_zero hw) hcounter hl
          (fun e he => hline e (List.mem_cons_of_mem _ he)) (hpos n (by simp)) hin hns hrest]
        exact ⟨Or.inr, fun hc => hc.resolve_left fun hlt => hnot hlt.1⟩

end Reads

/-- **A session receives what is stored exactly if its requests cover it.**  On a
device that was written by writes that append something and never read, for every
complete session with positive counts: the bytes delivered are the stored entries, the
last ten commits, oldest first, if and only if every count is larger than the entry it
meets, and the count for the last entry is at least as large. -/
theorem session_receives_stored_iff {hist : List (Call × Reply)} {s t : Sys} {file : ℕ}
    {counts : List UInt64} {out : List (List UInt8)}
    (h : Run Sys.step WriteOnly Sys.init hist s) (hpos : ∀ n ∈ counts, 0 < n)
    (hs : readSession s file counts = some (out, t)) :
    out.flatten = ((commits hist).drop ((commits hist).length - 10)).flatten ↔
      Covers ((commits hist).drop ((commits hist).length - 10)) counts := by
  have hw := Sys.wf_of_run h
  have hst := Streamed.of_run_writeOnly h
  have hu := Unread.of_run h
  rw [readSession_eq, hu.aesdOpen_eq] at hs
  rw [← hu.walk_outOffs hst]
  refine flatten_eq_iff_covers (s := s.after file 0 s.toDriver) _ hw (Sys.after_fPos_self _ _ _ _)
    (fun n hn => UInt64.lt_iff_toNat_lt.mp (hpos n hn)) (hu.due hst hw) (fun e he => ?_) hs
  have he' : e ∈ walk 10 s.slotBytes s.dev.bufferP.outOffs (min (commits hist).length 10) := he
  rw [hu.walk_outOffs hst] at he'
  exact hst.isLine (List.mem_of_mem_drop he')

theorem session_receives_stored_two :
    ∃ hist s out t, Run Sys.step WriteOnly Sys.init hist s ∧
      commits hist = [[97, 98, 10], [99, 10]] ∧
      readSession s 1 [9, 2, 1] = some (out, t) ∧ out.flatten = [97, 98, 10, 99, 10] := by
  obtain ⟨hist, s, hrun, hcommits, hsome⟩ := exists_run_of_replay Sys.step WriteOnly Sys.init
    [.aesdOpen 0, writeLine [97, 98, 10], writeLine [99], writeLine [10]]
    (fun hist s => commits hist = [[97, 98, 10], [99, 10]] ∧
      (readSession s 1 [9, 2, 1]).isSome) (by decide +kernel)
  obtain ⟨⟨out, t⟩, hs⟩ := Option.isSome_iff_exists.mp hsome
  refine ⟨hist, s, out, t, hrun, hcommits, hs, ?_⟩
  have hiff := session_receives_stored_iff hrun (by simp) hs
  rw [hcommits] at hiff
  exact hiff.mpr (Or.inl ⟨by decide, Or.inr ⟨by decide, rfl⟩⟩)

/-- **A line of three bytes, read two bytes at a time**, comes out as its first two
bytes and its first byte again. -/
theorem session_receives_other :
    ∃ hist s out t, Run Sys.step WriteOnly Sys.init hist s ∧ commits hist = [[97, 98, 10]] ∧
      readSession s 1 [2, 2, 2] = some (out, t) ∧ out.flatten = [97, 98, 97] := by
  obtain ⟨hist, s, hrun, hcommits, hsession⟩ := exists_run_of_replay Sys.step WriteOnly Sys.init
    [.aesdOpen 0, writeLine [97, 98, 10]]
    (fun hist s => commits hist = [[97, 98, 10]] ∧
      (readSession s 1 [2, 2, 2]).map (·.1.flatten) = some [97, 98, 97]) (by decide +kernel)
  obtain ⟨⟨out, t⟩, hs, hout⟩ := Option.map_eq_some_iff.mp hsession
  exact ⟨hist, s, out, t, hrun, hcommits, hs, hout⟩

end Aesd
