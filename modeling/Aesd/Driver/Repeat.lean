import Aesd.Driver.Session

/-!
# One session more

Reading should leave no trace.  It leaves two: where `out_offs` stands and how many
reads are counted.  The first does no harm.  Opening puts `out_offs` back unless the
ring is marked full, and then a session goes round it.  The second does: a session
that ends at an empty slot leaves its reads counted, and a later one is cut short when
the count reaches ten.

So a session delivers as many slots as there are, or as the count allows
(`sessionLength`), and inserting one changes the next exactly if the count allows one
of the two fewer slots than the other.
-/

namespace Aesd

/-! ## While the ring fills -/

/-- Before ten commits the ring is not marked full, and the read index is not past the
write index. -/
def Filling (hist : List (Call × Reply)) (d : Driver) : Prop :=
  (commits hist).length < 10 →
    d.dev.bufferP.full = false ∧ d.dev.bufferP.outOffs ≤ (commits hist).length

namespace Filling

variable {hist : List (Call × Reply)} {d d' : Driver} {e : Call × Reply}

theorem quiet (h : Filling hist d) (hw : d.Wf) (hst : Streamed hist d) (hq : Quiet d d')
    (hcommit : e.2.commit = none) : Filling (hist ++ [e]) d' := by
  intro hlt
  rw [commits_concat, hcommit, Option.toList_none, List.append_nil] at hlt ⊢
  obtain ⟨hfull, hle⟩ := h hlt
  refine ⟨by rw [hq.full, hfull], hq.outOffs_le hle fun hsize => ?_⟩
  -- a slot that was read is occupied, so it is before the write index
  by_contra hge
  exact hsize (hst.size_eq_zero hw hw.outOffs_lt (by omega))

theorem wrote (h : Filling hist d) (hw : d.Wf) (hst : Streamed hist d) {data : List UInt8}
    (hcommit : e.2.commit =
      if Committable (d.pending ++ data) then some (d.pending ++ data) else none) :
    Filling (hist ++ [e]) (d.wrote data) := by
  intro hlt
  rw [commits_concat, hcommit] at hlt ⊢
  rw [Driver.wrote]
  by_cases hc : Committable (d.pending ++ data)
  · rw [if_pos hc, Option.toList_some, List.length_append, List.length_singleton] at hlt
    rw [if_pos hc, if_pos hc, Option.toList_some, List.length_append, List.length_singleton]
    obtain ⟨hfull, hle⟩ := h (by omega)
    have hin := hst.inOffs
    rw [Driver.bufferP_handed, Driver.bufferP_filled, addEntry_full _ hw.inOffs_lt,
      addEntry_outOffs _ hw.inOffs_lt, hfull, if_neg (by simp), Bool.false_or, beq_eq_false_iff_ne]
    exact ⟨by omega, by omega⟩
  · rw [if_neg hc, Option.toList_none, List.append_nil] at hlt
    rw [if_neg hc, if_neg hc, Option.toList_none, List.append_nil]
    exact h hlt

theorem of_run {s : Sys} (h : Run Sys.step (OnWrites Appends) Sys.init hist s) :
    Filling hist s.toDriver := by
  refine h.invariant (P := fun hist s => Filling hist s.toDriver) (fun _ => ⟨rfl, le_rfl⟩) ?_
  intro hist s c r s' hrun hf hok hs
  have hw := Sys.wf_of_run hrun
  have hst := Streamed.of_run (hrun.mono fun _ _ hok => hok.grows)
  rcases Sys.step_done hw (fun _ _ _ _ hP => hP.1.done) hok hs with
    ⟨hq, -, hcommit⟩ | ⟨_, _, buf, count, -, -, -, -, hcommit, hd⟩
  · exact hf.quiet hw hst hq hcommit
  · rw [hd]
    exact hf.wrote hw hst hcommit

end Filling

/-! ## A session from any state -/

/-- Where a session begins. -/
def Driver.start (d : Driver) : ℕ := if d.dev.bufferP.full then d.dev.bufferP.outOffs else 0

theorem aesdOpen_outOffs (d : Driver) : (aesdOpen d).dev.bufferP.outOffs = d.start := by
  rw [aesdOpen, Driver.start]
  split <;> rfl

theorem aesdOpen_counter (d : Driver) : (aesdOpen d).dev.readCounter = d.dev.readCounter := by
  rw [aesdOpen]
  split <;> rfl

/-- How many slots a session delivers, with `c` commits and `k` reads counted. -/
def sessionLength (c k : ℕ) : ℕ := min (min c 10) (10 - k)

section Session

variable {hist : List (Call × Reply)} {s t : Sys} {file k : ℕ} {counts : List UInt64}
  {out : List (List UInt8)}

/-- The slots a session delivers are due. -/
theorem due_sessionLength (h : Run Sys.step (OnWrites Appends) Sys.init hist s)
    (hk : s.dev.readCounter = k) :
    Due (aesdOpen s.toDriver) (sessionLength (commits hist).length k) := by
  have hw := Sys.wf_of_run h
  have hst := Streamed.of_run (h.mono fun _ _ hok => hok.grows)
  have hle := hw.counter_le
  have hstart : (commits hist).length < 10 → s.start = 0 := by
    intro hlt
    rw [Driver.start, (Filling.of_run h hlt).1, if_neg (by simp)]
  refine ⟨fun i hi => ?_, ?_, ?_⟩
  · rw [(Quiet.aesdOpen _).slot, aesdOpen_outOffs]
    refine hst.size_ne_zero hw (Nat.mod_lt _ (by decide)) ?_
    unfold sessionLength at hi
    rcases lt_or_ge (commits hist).length 10 with hlt | hge
    · rw [hstart hlt]
      omega
    · omega
  · rw [aesdOpen_counter, hk]
    unfold sessionLength
    omega
  · rw [(Quiet.aesdOpen _).slot, aesdOpen_outOffs, aesdOpen_counter, hk]
    by_cases hall : (commits hist).length < 10 - k
    · -- every commit is delivered, and the slot after them is empty
      refine Or.inl (hst.size_eq_zero hw (Nat.mod_lt _ (by decide)) ?_)
      rw [hstart (by omega)]
      unfold sessionLength
      omega
    · refine Or.inr ?_
      unfold sessionLength
      omega

/-- **What a complete session delivers and leaves behind**, in any reachable state. -/
theorem readSession_some (h : Run Sys.step (OnWrites Appends) Sys.init hist s)
    (hk : s.dev.readCounter = k) (hbig : Exceeds s.toDriver counts)
    (hs : readSession s file counts = some (out, t)) :
    out = walk 10 s.slotBytes s.start (sessionLength (commits hist).length k) ∧
      t.toDriver = (aesdOpen s.toDriver).ended (sessionLength (commits hist).length k) := by
  have hq := Quiet.aesdOpen s.toDriver
  have hbig' : Exceeds (aesdOpen s.toDriver) counts := by
    intro n hn j hj
    rw [hq.slot]
    exact hbig n hn j hj
  rw [readSession_eq, readUntilZero_eq (s := s.after file 0 (aesdOpen s.toDriver)) _
    (hq.wf (Sys.wf_of_run h)) (Sys.after_fPos_self _ _ _ _) hbig' (due_sessionLength h hk)] at hs
  split at hs
  · rw [Option.some.injEq, Prod.mk.injEq, Sys.after_toDriver, aesdOpen_outOffs] at hs
    obtain ⟨rfl, rfl⟩ := hs
    refine ⟨?_, rfl⟩
    congr 1
    ext j : 1
    rw [Driver.slotBytes_eq, Driver.slotBytes_eq, hq.dataAt]
  · exact absurd hs (by simp)

/-- A session leaves the contents of the slots alone. -/
theorem slotBytes_ended (d : Driver) (m : ℕ) :
    ((aesdOpen d).ended m).slotBytes = d.slotBytes := by
  ext j : 1
  exact congrArg (·.getD []) ((Quiet.aesdOpen d).dataAt (some j))

theorem size_ended (d : Driver) (m j : ℕ) :
    (((aesdOpen d).ended m).dev.bufferP.slot j).size = (d.dev.bufferP.slot j).size :=
  congrArg AesdBufferEntry.size ((Quiet.aesdOpen d).slot j)

/-- Where the session after a session begins. -/
theorem start_ended (d : Driver) (m : ℕ) :
    ((aesdOpen d).ended m).start = if d.dev.bufferP.full then (d.start + m) % 10 else 0 := by
  have hfull : ((aesdOpen d).ended m).dev.bufferP.full = d.dev.bufferP.full :=
    (Quiet.aesdOpen d).full
  have hout : ((aesdOpen d).ended m).dev.bufferP.outOffs = (d.start + m) % 10 := by
    rw [← aesdOpen_outOffs]
    rfl
  rw [Driver.start, hfull, hout]

/-- How many reads are counted after a session. -/
theorem counter_ended (d : Driver) (m : ℕ) :
    ((aesdOpen d).ended m).dev.readCounter =
      if (d.dev.bufferP.slot ((d.start + m) % 10)).size = 0 then d.dev.readCounter + m
      else 0 := by
  show (if ((aesdOpen d).dev.bufferP.slot
    (((aesdOpen d).dev.bufferP.outOffs + m) % 10)).size = 0 then
      (aesdOpen d).dev.readCounter + m else 0) = _
  rw [(Quiet.aesdOpen d).slot, aesdOpen_outOffs, aesdOpen_counter]

/-- Walks from slot 0 over commits deliver the same only if they are the same. -/
theorem Streamed.flatten_walk_inj {d : Driver} (hst : Streamed hist d) (hw : d.Wf)
    {m n : ℕ} (hm : m ≤ (commits hist).length)
    (hn : n ≤ (commits hist).length) :
    (walk 10 d.slotBytes 0 m).flatten = (walk 10 d.slotBytes 0 n).flatten ↔ m = n := by
  have hne : ∀ i < (commits hist).length, d.slotBytes ((0 + i) % 10) ≠ [] := by
    intro i hi
    rw [← List.length_pos_iff, hw.length_slotBytes, Nat.pos_iff_ne_zero]
    exact hst.size_ne_zero hw (Nat.mod_lt _ (by decide)) (by omega)
  constructor
  · intro heq
    have hlen := congrArg List.length heq
    rcases lt_trichotomy m n with hmn | hmn | hmn
    · have := length_flatten_walk_lt (N := 10) hmn (hne m (by omega))
      omega
    · exact hmn
    · have := length_flatten_walk_lt (N := 10) hmn (hne n (by omega))
      omega
  · rintro rfl
    rfl

/-- While the ring fills, a session leaves the next one as it was if the count allows
both of them all entries. -/
theorem Streamed.walk_same_iff_of_lt {d : Driver} (hst : Streamed hist d) (hw : d.Wf) {k₂ : ℕ}
    (hlt : (commits hist).length < 10) (hle : k ≤ 10)
    (hk₂ : k₂ = if sessionLength (commits hist).length k = (commits hist).length then
      k + (commits hist).length else 0) :
    (walk 10 d.slotBytes 0 (sessionLength (commits hist).length k₂)).flatten =
        (walk 10 d.slotBytes 0 (sessionLength (commits hist).length k)).flatten ↔
      k + 2 * (commits hist).length ≤ 10 := by
  rw [hst.flatten_walk_inj hw (by unfold sessionLength; omega) (by unfold sessionLength; omega)]
  unfold sessionLength at *
  split at hk₂ <;> omega

/-- In a full ring, a walk that goes round once delivers what a shorter one does only if
it is no longer, and begins where that did. -/
theorem Streamed.walk_same_iff_of_ge {d : Driver} (hst : Streamed hist d) (hw : d.Wf)
    {start start' : ℕ} (hge : 10 ≤ (commits hist).length) (hstart : k = 0 → start' = start) :
    (walk 10 d.slotBytes start' 10).flatten = (walk 10 d.slotBytes start (10 - k)).flatten ↔
      k = 0 := by
  constructor
  · intro heq
    by_contra hpos
    have hslot : d.slotBytes ((start + (10 - k)) % 10) ≠ [] := by
      rw [← List.length_pos_iff, hw.length_slotBytes, Nat.pos_iff_ne_zero]
      exact hst.size_ne_zero hw (Nat.mod_lt _ (by decide)) (by omega)
    have hless := length_flatten_walk_lt (show 10 - k < 10 by omega) hslot
    rw [length_flatten_walk_round 10 d.slotBytes start start', heq] at hless
    exact absurd hless (lt_irrefl _)
  · rintro rfl
    rw [hstart rfl]

end Session

/-- **When a session leaves no trace.**  In every state reached by calls whose writes
append something, inserting a complete session before the next one leaves the bytes of
the next one as they are if and only if the reads counted so far and twice the stored
entries are at most ten, or, once ten entries are stored, no read is counted. -/
theorem inserted_session_invisible_iff {hist : List (Call × Reply)} {s s₁ s₂ s₃ : Sys}
    {file₁ file₂ file₃ : ℕ} {counts₁ counts₂ counts₃ : List UInt64}
    {out₁ out₂ out₃ : List (List UInt8)}
    (h : Run Sys.step (OnWrites Appends) Sys.init hist s)
    (hbig₁ : Exceeds s.toDriver counts₁) (hbig₂ : Exceeds s.toDriver counts₂)
    (hbig₃ : Exceeds s.toDriver counts₃)
    (h₁ : readSession s file₁ counts₁ = some (out₁, s₁))
    (h₂ : readSession s file₂ counts₂ = some (out₂, s₂))
    (h₃ : readSession s₂ file₃ counts₃ = some (out₃, s₃)) :
    out₃.flatten = out₁.flatten ↔
      ((commits hist).length < 10 ∧ s.dev.readCounter + 2 * (commits hist).length ≤ 10) ∨
        (10 ≤ (commits hist).length ∧ s.dev.readCounter = 0) := by
  have hw := Sys.wf_of_run h
  have hst := Streamed.of_run (h.mono fun _ _ hok => hok.grows)
  have hf := Filling.of_run h
  obtain ⟨k, hk⟩ := Int.eq_ofNat_of_zero_le hw.counter_nonneg
  have hle := hw.counter_le
  obtain ⟨hout₁, -⟩ := readSession_some h hk hbig₁ h₁
  obtain ⟨-, hd₂⟩ := readSession_some h hk hbig₂ h₂
  -- the state after the inserted session is reachable by the same commits
  obtain ⟨hist', hrun', hnone⟩ := run_of_readSession (P := Appends) hw h₂
  have hrun₂ := h.trans hrun'
  have hcommits : commits (hist ++ hist') = commits hist := by
    rw [commits_append, hnone, List.append_nil]
  have hw₂ := Sys.wf_of_run hrun₂
  obtain ⟨k₂, hk₂⟩ := Int.eq_ofNat_of_zero_le hw₂.counter_nonneg
  have hbig₃' : Exceeds s₂.toDriver counts₃ := by
    intro n hn j hj
    rw [hd₂, size_ended]
    exact hbig₃ n hn j hj
  obtain ⟨hout₃, -⟩ := readSession_some hrun₂ hk₂ hbig₃' h₃
  rw [hcommits, hd₂, slotBytes_ended, start_ended] at hout₃
  rw [hd₂, counter_ended] at hk₂
  rw [hout₁, hout₃, hk]
  rcases lt_or_ge (commits hist).length 10 with hlt | hge
  · obtain ⟨hfull, -⟩ := hf hlt
    have hstart : s.start = 0 := by rw [Driver.start, hfull, if_neg (by simp)]
    rw [hstart] at hk₂ ⊢
    rw [hfull, if_neg (by simp), hst.walk_same_iff_of_lt hw hlt (by omega) ?_]
    · omega
    · -- the inserted session ends at an empty slot if it has delivered everything
      have hlen : sessionLength (commits hist).length k ≤ (commits hist).length := by
        unfold sessionLength
        omega
      rcases Nat.lt_or_eq_of_le hlen with hless | hall
      · rw [if_neg (hst.size_ne_zero hw (Nat.mod_lt _ (by decide)) (by omega))] at hk₂
        rw [if_neg hless.ne]
        omega
      · rw [hall, if_pos (hst.size_eq_zero hw (Nat.mod_lt _ (by decide)) (by omega))] at hk₂
        rw [if_pos hall]
        omega
  · have hlen : sessionLength (commits hist).length k = 10 - k := by
      unfold sessionLength
      omega
    have hlen₂ : sessionLength (commits hist).length k₂ = 10 := by
      rw [if_neg (hst.size_ne_zero hw (Nat.mod_lt _ (by decide)) (by omega))] at hk₂
      unfold sessionLength
      omega
    rw [hlen, hlen₂, hst.walk_same_iff_of_ge hw hge ?_]
    · omega
    · -- a session that goes round once ends where it began
      rintro rfl
      have hout := hw.outOffs_lt
      unfold Driver.start
      split <;> omega

/-- What two sessions in a row deliver. -/
def twoSessions (s : Sys) (counts : List UInt64) : Option (List UInt8 × List UInt8) :=
  (readSession s 1 counts).bind fun q =>
    (readSession q.2 2 counts).map fun q' => (q.1.flatten, q'.1.flatten)

theorem twoSessions_some {s : Sys} {counts : List UInt64} {a b : List UInt8}
    (h : twoSessions s counts = some (a, b)) :
    ∃ out₁ s₁ out₂ s₂, readSession s 1 counts = some (out₁, s₁) ∧
      readSession s₁ 2 counts = some (out₂, s₂) ∧ out₁.flatten = a ∧ out₂.flatten = b := by
  obtain ⟨⟨out₁, s₁⟩, h₁, hrest⟩ := Option.bind_eq_some_iff.mp h
  obtain ⟨⟨out₂, s₂⟩, h₂, heq⟩ := Option.map_eq_some_iff.mp hrest
  obtain ⟨ha, hb⟩ := Prod.mk.inj heq
  exact ⟨out₁, s₁, out₂, s₂, h₁, h₂, ha, hb⟩

theorem inserted_session_invisible_three :
    ∃ hist s out₁ s₁ out₂ s₂, Run Sys.step (OnWrites Appends) Sys.init hist s ∧
      commits hist = [[97, 10], [98, 10], [99, 10]] ∧
      readSession s 1 (List.replicate 4 9) = some (out₁, s₁) ∧
      readSession s₁ 2 (List.replicate 4 9) = some (out₂, s₂) ∧ out₂.flatten = out₁.flatten := by
  obtain ⟨hist, s, hrun, hcommits, hcounter, hbig, htwo⟩ := exists_run_of_replay Sys.step
    (OnWrites Appends) Sys.init
    [.aesdOpen 0, writeLine [97, 10], writeLine [98, 10], writeLine [99, 10]]
    (fun hist s => commits hist = [[97, 10], [98, 10], [99, 10]] ∧ s.dev.readCounter = 0 ∧
      Exceeds s.toDriver (List.replicate 4 9) ∧
      twoSessions s (List.replicate 4 9) =
        some ([97, 10, 98, 10, 99, 10], [97, 10, 98, 10, 99, 10]))
    (by decide +kernel)
  obtain ⟨out₁, s₁, out₂, s₂, h₁, h₂, -, -⟩ := twoSessions_some htwo
  refine ⟨hist, s, out₁, s₁, out₂, s₂, hrun, hcommits, h₁, h₂, ?_⟩
  refine (inserted_session_invisible_iff hrun hbig hbig hbig h₁ h₁ h₂).mpr (Or.inl ?_)
  rw [hcommits, hcounter]
  decide

/-- **Six lines are read once, and the next time only four of them.** -/
theorem inserted_session_visible :
    ∃ hist s out₁ s₁ out₂ s₂, Run Sys.step WriteOnly Sys.init hist s ∧
      Exceeds s.toDriver (List.replicate 7 9) ∧
      readSession s 1 (List.replicate 7 9) = some (out₁, s₁) ∧
      readSession s₁ 2 (List.replicate 7 9) = some (out₂, s₂) ∧
      out₁.flatten = [10, 10, 10, 10, 10, 10] ∧ out₂.flatten = [10, 10, 10, 10] := by
  obtain ⟨hist, s, hrun, hbig, htwo⟩ := exists_run_of_replay Sys.step WriteOnly Sys.init
    (.aesdOpen 0 :: List.replicate 6 (writeLine [10]))
    (fun _ s => Exceeds s.toDriver (List.replicate 7 9) ∧
      twoSessions s (List.replicate 7 9) = some ([10, 10, 10, 10, 10, 10], [10, 10, 10, 10]))
    (by decide +kernel)
  obtain ⟨out₁, s₁, out₂, s₂, h₁, h₂, ha, hb⟩ := twoSessions_some htwo
  exact ⟨hist, s, out₁, s₁, out₂, s₂, hrun, hbig, h₁, h₂, ha, hb⟩

end Aesd
