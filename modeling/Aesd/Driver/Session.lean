import Aesd.Driver.Unread

/-!
# Read sessions

A reader opens the device and reads until a read returns 0.  How much a session
delivers is decided by the device, not by the file: it begins at `out_offs`, which the
reads of earlier sessions have moved unless opening puts it back to slot 0, and it
ends at an empty slot or when ten reads have been counted, whichever comes first.  The
count is over all sessions since it was last reset, and only the second exit resets
it.

With requests larger than every entry, each read delivers one whole slot, and a
session is a walk over the ring (`readUntilZero_eq`).
-/

namespace Aesd

/-- Call `aesd_read` with the given counts, into buffers of that size, until a call
returns 0: what the calls before it delivered, and the state after it. -/
def readUntilZero (file : ℕ) : Sys → List UInt64 → Option (List (List UInt8) × Sys)
  | _, [] => none
  | s, n :: ns =>
      match s.step (.aesdRead file false n.toNat n) with
      | .error _ => none
      | .ok (r, s') =>
          if r.retval = 0 then some ([], s')
          else if r.retval < 0 then none
          else (readUntilZero file s' ns).map fun q => (r.copied :: q.1, q.2)

/-- A read session: a fresh open, and reads until one returns 0. -/
def readSession (s : Sys) (file : ℕ) (counts : List UInt64) :
    Option (List (List UInt8) × Sys) :=
  match s.step (.aesdOpen file) with
  | .error _ => none
  | .ok (_, s') => readUntilZero file s' counts

theorem readSession_eq (s : Sys) (file : ℕ) (counts : List UInt64) :
    readSession s file counts =
      readUntilZero file (s.after file 0 (aesdOpen s.toDriver)) counts := rfl

/-! ## A session is a run -/

/-- The reads of a session are calls that write nothing. -/
theorem run_of_readUntilZero {P : Driver → Option (ℕ → UInt8) → List UInt8 → ℕ → Prop}
    {file : ℕ} {counts : List UInt64} {s t : Sys} {out : List (List UInt8)} (hw : s.Wf)
    (h : readUntilZero file s counts = some (out, t)) :
    ∃ hist, Run Sys.step (OnWrites P) s hist t ∧ commits hist = [] := by
  induction counts generalizing s out with
  | nil => exact absurd h (by simp [readUntilZero])
  | cons n ns ih =>
    rw [readUntilZero] at h
    split at h
    · exact absurd h (by simp)
    · next r s' hs =>
      have hone : Run Sys.step (OnWrites P) s [(.aesdRead file false n.toNat n, r)] s' :=
        Run.start.call trivial hs
      have hcommit : commits [(Call.aesdRead file false n.toNat n, r)] = [] := by
        rcases Sys.step_cases hw hs with ⟨-, hnone⟩ | ⟨_, _, _, _, _, _, _, hc, -⟩
        · simp [commits, hnone]
        · exact absurd hc (by simp)
      split at h
      · rw [Option.some.injEq, Prod.mk.injEq] at h
        obtain ⟨-, rfl⟩ := h
        exact ⟨_, hone, hcommit⟩
      · split at h
        · exact absurd h (by simp)
        · obtain ⟨⟨out', t'⟩, hq, he⟩ := Option.map_eq_some_iff.mp h
          obtain ⟨-, rfl⟩ := Prod.mk.inj he
          obtain ⟨hist, hrun, hnone⟩ := ih (Sys.step_wf hw hs) hq
          refine ⟨_, hone.trans hrun, ?_⟩
          rw [commits_append, hcommit, hnone, List.append_nil]

theorem run_of_readSession {P : Driver → Option (ℕ → UInt8) → List UInt8 → ℕ → Prop}
    {file : ℕ} {counts : List UInt64} {s t : Sys} {out : List (List UInt8)} (hw : s.Wf)
    (h : readSession s file counts = some (out, t)) :
    ∃ hist, Run Sys.step (OnWrites P) s hist t ∧ commits hist = [] := by
  rw [readSession_eq] at h
  obtain ⟨hist, hrun, hnone⟩ := run_of_readUntilZero (P := P) ((Quiet.aesdOpen _).wf hw) h
  have hone : Run Sys.step (OnWrites P) s [(.aesdOpen file, { retval := 0 })]
      (s.after file 0 (aesdOpen s.toDriver)) := Run.start.call trivial rfl
  refine ⟨_, hone.trans hrun, ?_⟩
  rw [commits_append, hnone, List.append_nil]
  rfl

/-! ## Large requests -/

/-- Every request is larger than every stored entry. -/
def Exceeds (d : Driver) (counts : List UInt64) : Prop :=
  ∀ n ∈ counts, ∀ j < 10, (d.dev.bufferP.slot j).size < n.toNat

instance (d : Driver) (counts : List UInt64) : Decidable (Exceeds d counts) :=
  List.decidableBAll (fun n : UInt64 => ∀ j < 10, (d.dev.bufferP.slot j).size < n.toNat) counts

/-- The driver after a session that delivered `m` slots. -/
def Driver.ended (d : Driver) (m : ℕ) : Driver :=
  { d with
    dev.bufferP.outOffs := (d.dev.bufferP.outOffs + m) % 10
    dev.readCounter :=
      if (d.dev.bufferP.slot ((d.dev.bufferP.outOffs + m) % 10)).size = 0 then
        d.dev.readCounter + m
      else 0 }

/-- The step of a session that is not its last. -/
theorem Driver.ended_served (d : Driver) (m : ℕ) :
    (d.served true).ended m = d.ended (m + 1) := by
  have hout : ((d.dev.bufferP.outOffs + 1) % 10 + m) % 10 =
      (d.dev.bufferP.outOffs + (m + 1)) % 10 := by omega
  have hcount : d.dev.readCounter + 1 + m = d.dev.readCounter + (m + 1 : ℕ) := by
    push_cast
    omega
  simp only [ended, served, if_true, hout, hcount]
  rfl

variable {s : Sys} {file : ℕ} {counts : List UInt64}

/-- One read of a session. -/
theorem readUntilZero_cons {n : UInt64} {ns : List UInt64} {r : Reply} {p p' : ℤ} {d : Driver}
    (hfile : s.fPos file = some p)
    (hread : aesdRead s.toDriver p false n.toNat n.toNat = .ok (r, p', d)) :
    readUntilZero file s (n :: ns) =
      if r.retval = 0 then some ([], s.after file p' d)
      else if r.retval < 0 then none
      else (readUntilZero file (s.after file p' d) ns).map fun q => (r.copied :: q.1, q.2) := by
  have hs : s.step (.aesdRead file false n.toNat n) = .ok (r, s.after file p' d) := by
    simp only [Sys.step, Sys.onFile, hfile, hread, Except.map]
  rw [readUntilZero, hs]

/-- The read that ends a session. -/
theorem readUntilZero_end {n : UInt64} {ns : List UInt64} {p : ℤ} (hw : s.Wf)
    (hfile : s.fPos file = some p) (hend : s.current.size = 0 ∨ s.dev.readCounter = 10) :
    readUntilZero file s (n :: ns) = some ([], s.after file p (s.ended 0)) := by
  have hout : (s.dev.bufferP.outOffs + 0) % 10 = s.dev.bufferP.outOffs :=
    Nat.mod_eq_of_lt hw.outOffs_lt
  rw [Driver.ended, hout, Nat.cast_zero, add_zero]
  by_cases hsize : s.current.size = 0
  · have hread : aesdRead s.toDriver p false n.toNat n.toNat =
        .ok ({ retval := 0 }, p, s.toDriver) := by
      simp [aesdRead, aesdReadLocked, hsize]
    have hslot : (s.dev.bufferP.slot s.dev.bufferP.outOffs).size = 0 := hsize
    rw [readUntilZero_cons hfile hread, if_pos rfl, if_pos hslot]
  · have hten : s.dev.readCounter = 10 := hend.resolve_left hsize
    have hread : aesdRead s.toDriver p false n.toNat n.toNat =
        .ok ({ retval := 0 }, p, { s.toDriver with dev.readCounter := 0 }) := by
      simp [aesdRead, aesdReadLocked, hsize, hten]
    have hslot : ¬ (s.dev.bufferP.slot s.dev.bufferP.outOffs).size = 0 := hsize
    rw [readUntilZero_cons hfile hread, if_pos rfl, if_neg hslot]

/-- A read of a whole slot. -/
theorem readUntilZero_whole {n : UInt64} {ns : List UInt64} (hw : s.Wf)
    (hfile : s.fPos file = some 0) (hsize : s.current.size ≠ 0)
    (hcounter : s.dev.readCounter ≠ 10) (hn : s.current.size < n.toNat) :
    readUntilZero file s (n :: ns) =
      (readUntilZero file (s.after file 0 (s.served true)) ns).map fun q =>
        (s.slotBytes s.dev.bufferP.outOffs :: q.1, q.2) := by
  have hread := aesdRead_past_end (p := 0) hw hsize hcounter (Nat.zero_le _)
    (by rw [Nat.zero_add]; exact hn) (by rw [Nat.zero_add]; exact n.toNat_lt) le_rfl
  have hlen : (s.slotBytes s.dev.bufferP.outOffs).length = s.current.size :=
    hw.length_slotBytes _
  rw [Nat.sub_zero, List.take_of_length_le hlen.le, Nat.cast_zero] at hread
  rw [readUntilZero_cons hfile hread, if_neg (by simpa using hsize), if_neg (by simp)]

/-- The driver after a counted read is well formed. -/
theorem Driver.Wf.served {d : Driver} (hw : d.Wf) (last : Bool)
    (hcounter : d.dev.readCounter ≠ 10) : (d.served last).Wf := by
  have hlt : (d.served last).dev.bufferP.outOffs < 10 := by
    have := hw.outOffs_lt
    simp only [Driver.served]
    split <;> omega
  have hnonneg := hw.counter_nonneg
  have hle := hw.counter_le
  exact ⟨hw.owned, hw.sized, hw.bounded, hw.null, hw.inOffs_lt, hlt,
    by simp only [Driver.served]; omega, by simp only [Driver.served]; omega⟩

/-- A session that has `m` slots still to deliver: they are occupied, and it ends after
them, at an empty slot or because ten reads are counted. -/
structure Due (d : Driver) (m : ℕ) : Prop where
  occupied : ∀ i < m, (d.dev.bufferP.slot ((d.dev.bufferP.outOffs + i) % 10)).size ≠ 0
  counted : d.dev.readCounter + m ≤ 10
  ends : (d.dev.bufferP.slot ((d.dev.bufferP.outOffs + m) % 10)).size = 0 ∨
    d.dev.readCounter + m = 10

namespace Due

variable {d : Driver} {m : ℕ}

theorem current_end (h : Due d 0) (hw : d.Wf) : d.current.size = 0 ∨ d.dev.readCounter = 10 := by
  have hends := h.ends
  rw [Nat.add_zero, Nat.mod_eq_of_lt hw.outOffs_lt, Nat.cast_zero, add_zero] at hends
  exact hends

theorem current_ne_zero (h : Due d (m + 1)) (hw : d.Wf) : d.current.size ≠ 0 := by
  have hfirst := h.occupied 0 (by omega)
  rw [Nat.add_zero, Nat.mod_eq_of_lt hw.outOffs_lt] at hfirst
  exact hfirst

theorem counter_ne_ten (h : Due d (m + 1)) : d.dev.readCounter ≠ 10 := by
  have hcounted := h.counted
  push_cast at hcounted
  omega

/-- One slot less after a read of a whole slot. -/
theorem served (h : Due d (m + 1)) : Due (d.served true) m := by
  have hmod : ∀ i, ((d.dev.bufferP.outOffs + 1) % 10 + i) % 10 =
      (d.dev.bufferP.outOffs + (i + 1)) % 10 := fun i => by omega
  refine ⟨fun i hi => ?_, ?_, ?_⟩
  · have hocc := h.occupied (i + 1) (by omega)
    rw [← hmod] at hocc
    exact hocc
  · have hcounted := h.counted
    push_cast at hcounted
    simp only [Driver.served]
    omega
  · have hends := h.ends
    rw [← hmod] at hends
    push_cast at hends
    rcases hends with hempty | hten
    · exact Or.inl hempty
    · refine Or.inr ?_
      simp only [Driver.served]
      omega

end Due

theorem Driver.walk_served {d : Driver} (hw : d.Wf) (m : ℕ) :
    walk 10 d.slotBytes d.dev.bufferP.outOffs (m + 1) =
      d.slotBytes d.dev.bufferP.outOffs ::
        walk 10 (d.served true).slotBytes (d.served true).dev.bufferP.outOffs m := by
  rw [walk_succ, Nat.mod_eq_of_lt hw.outOffs_lt, ← walk_mod 10 d.slotBytes (_ + 1)]
  rfl

/-- **A session is a walk.**  With large requests its reads deliver the slots that are
due, one each, and it needs one read more. -/
theorem readUntilZero_eq (m : ℕ) (hw : s.Wf) (hfile : s.fPos file = some 0)
    (hbig : Exceeds s.toDriver counts) (hdue : Due s.toDriver m) :
    readUntilZero file s counts =
      if m < counts.length then
        some (walk 10 s.slotBytes s.dev.bufferP.outOffs m, s.after file 0 (s.ended m))
      else none := by
  induction m generalizing s counts with
  | zero =>
    cases counts with
    | nil => rfl
    | cons n ns =>
      rw [readUntilZero_end hw hfile (hdue.current_end hw), if_pos (by simp), walk_zero]
  | succ m ih =>
    cases counts with
    | nil => rfl
    | cons n ns =>
      have hn : s.current.size < n.toNat := hbig n (by simp) _ hw.outOffs_lt
      have hcounter := hdue.counter_ne_ten
      -- what is left of the session is a session of the driver the read leaves
      have hrest : readUntilZero file (s.after file 0 (s.served true)) ns = _ :=
        ih (hw.served true hcounter) (Sys.after_fPos_self _ _ _ _)
          (fun n' hn' => hbig n' (by simp [hn'])) hdue.served
      rw [readUntilZero_whole hw hfile (hdue.current_ne_zero hw) hcounter hn, hrest,
        List.length_cons, Sys.after_after, Sys.after_toDriver, Driver.ended_served,
        Driver.walk_served hw]
      by_cases hlen : m < ns.length
      · rw [if_pos hlen, if_pos (by omega), Option.map_some]
      · rw [if_neg hlen, if_neg (by omega), Option.map_none]

/-! ## What is stored -/

namespace Streamed

variable {hist : List (Call × Reply)} {d : Driver}

/-- The slots that commits have reached are occupied. -/
theorem size_ne_zero (h : Streamed hist d) (hw : d.Wf) {j : ℕ} (hj : j < 10)
    (hlt : j < (commits hist).length) : (d.dev.bufferP.slot j).size ≠ 0 := by
  obtain ⟨k, a, hk, hle, rfl⟩ := RingLog.exists_recent (by decide)
    ((commits hist).map some) hj (by rw [List.length_map]; exact hlt)
  have hslot := h.ring.recent k a hk hle
  rw [List.getElem?_map] at hk
  obtain ⟨e, he, rfl⟩ := Option.map_eq_some_iff.mp hk
  obtain ⟨-, -, -, hsize⟩ := holds_of_dataAt hw hslot
  rw [hsize]
  exact (h.isLine (List.mem_of_getElem? he)).length_pos.ne'

/-- The others are empty. -/
theorem size_eq_zero (h : Streamed hist d) (hw : d.Wf) {j : ℕ} (hj : j < 10)
    (hle : (commits hist).length ≤ j) : (d.dev.bufferP.slot j).size = 0 := by
  rw [slot_of_dataAt_none hw (h.ring.unwritten j (by rw [List.length_map]; exact hle) hj)]
  rfl

theorem walk_slotBytes (d : Driver) (start n : ℕ) :
    walk 10 d.slotBytes start n =
      (walk 10 (fun j => d.dataAt (some j)) start n).map (·.getD []) := by
  rw [map_walk]
  rfl

/-- Once the ring is full, the last ten commits are read from the write index on. -/
theorem walk_of_ge (h : Streamed hist d) (hge : 10 ≤ (commits hist).length) :
    walk 10 d.slotBytes ((commits hist).length % 10) 10 =
      (commits hist).drop ((commits hist).length - 10) := by
  have hwalk := h.ring.walk_of_ge (by rw [List.length_map]; exact hge)
  rw [List.length_map] at hwalk
  rw [walk_slotBytes, hwalk, ← List.map_drop, List.map_map]
  exact List.map_id _

/-- Before that, all commits are read from slot 0 on. -/
theorem walk_of_le (h : Streamed hist d) (hle : (commits hist).length ≤ 10) :
    walk 10 d.slotBytes 0 (commits hist).length = commits hist := by
  have hwalk := h.ring.walk_of_le (by rw [List.length_map]; exact hle)
  rw [List.length_map] at hwalk
  rw [walk_slotBytes, hwalk, List.map_map]
  exact List.map_id _

end Streamed

namespace Unread

variable {hist : List (Call × Reply)} {d : Driver}

/-- In a ring that was not read, everything that is stored is due. -/
theorem due (h : Unread hist d) (hst : Streamed hist d) (hw : d.Wf) :
    Due d (min (commits hist).length 10) := by
  have hcounter := h.counter
  have hout := h.outOffs
  rcases lt_or_ge (commits hist).length 10 with hlt | hge
  · rw [if_pos hlt] at hout
    rw [min_eq_left hlt.le]
    refine ⟨fun i hi => ?_, by omega, Or.inl ?_⟩
    · rw [hout]
      exact hst.size_ne_zero hw (Nat.mod_lt _ (by decide)) (by omega)
    · rw [hout]
      exact hst.size_eq_zero hw (Nat.mod_lt _ (by decide)) (by omega)
  · rw [min_eq_right hge]
    refine ⟨fun i _ => ?_, by omega, Or.inr (by omega)⟩
    exact hst.size_ne_zero hw (Nat.mod_lt _ (by decide)) (by omega)

/-- And it is read from `out_offs` on, oldest first. -/
theorem walk_outOffs (h : Unread hist d) (hst : Streamed hist d) :
    walk 10 d.slotBytes d.dev.bufferP.outOffs (min (commits hist).length 10) =
      (commits hist).drop ((commits hist).length - 10) := by
  rw [h.outOffs]
  rcases lt_or_ge (commits hist).length 10 with hlt | hge
  · rw [if_pos hlt, min_eq_left hlt.le, hst.walk_of_le hlt.le, Nat.sub_eq_zero_of_le hlt.le,
      List.drop_zero]
  · rw [if_neg (by omega), min_eq_right hge, hst.walk_of_ge hge]

end Unread

/-! ## The steady state -/

/-- Ten entries are committed before the first read; then calls that are not reads,
and complete sessions with large requests, in any order.  The history is that of the
calls outside the sessions. -/
inductive SteadyRun : List (Call × Reply) → Sys → Prop where
  /-- At least ten commits, and no reads. -/
  | fill {hist : List (Call × Reply)} {s : Sys} :
      Run Sys.step WriteOnly Sys.init hist s → 10 ≤ (commits hist).length → SteadyRun hist s
  /-- A call between the sessions. -/
  | call {hist : List (Call × Reply)} {s s' : Sys} {c : Call} {r : Reply} :
      SteadyRun hist s → WriteOnly s c → s.step c = .ok (r, s') →
        SteadyRun (hist ++ [(c, r)]) s'
  /-- A session, to its end. -/
  | session {hist : List (Call × Reply)} {s t : Sys} {file : ℕ} {counts : List UInt64}
      {out : List (List UInt8)} :
      SteadyRun hist s → Exceeds s.toDriver counts → readSession s file counts = some (out, t) →
        SteadyRun hist t

/-- The state between sessions: the ring is full, and as the commits alone would have
left it. -/
structure Steady (hist : List (Call × Reply)) (d : Driver) : Prop where
  wf : d.Wf
  streamed : Streamed hist d
  unread : Unread hist d
  ten : 10 ≤ (commits hist).length

namespace Steady

variable {hist : List (Call × Reply)} {d : Driver}

theorem outOffs (h : Steady hist d) : d.dev.bufferP.outOffs = (commits hist).length % 10 := by
  have hten := h.ten
  rw [h.unread.outOffs, if_neg (by omega)]

/-- A session of ten reads goes round the ring once and leaves the driver as it
was. -/
theorem ended_ten (h : Steady hist d) : d.ended 10 = d := by
  have hlt := h.wf.outOffs_lt
  have hout : (d.dev.bufferP.outOffs + 10) % 10 = d.dev.bufferP.outOffs := by omega
  have hten := h.ten
  have hsize := h.streamed.size_ne_zero h.wf hlt (by omega)
  rw [Driver.ended, hout, if_neg hsize, ← h.unread.counter]

/-- **A session in the steady state** delivers the last ten commits, and leaves the
driver as it was. -/
theorem readSession_eq {s : Sys} (h : Steady hist s.toDriver)
    (hbig : Exceeds s.toDriver counts) :
    readSession s file counts =
      if 10 < counts.length then
        some ((commits hist).drop ((commits hist).length - 10), s.after file 0 s.toDriver)
      else none := by
  have hdue := h.unread.due h.streamed h.wf
  have hwalk := h.unread.walk_outOffs h.streamed
  rw [min_eq_right h.ten] at hdue hwalk
  rw [Aesd.readSession_eq, h.unread.aesdOpen_eq, readUntilZero_eq
    (s := s.after file 0 s.toDriver) 10 h.wf (Sys.after_fPos_self _ _ _ _) hbig hdue,
    Sys.after_after, Sys.after_toDriver, h.ended_ten, hwalk]

/-- **The steady state is kept.** -/
theorem of_steadyRun {s : Sys} (h : SteadyRun hist s) : Steady hist s.toDriver := by
  induction h with
  | fill hrun hten =>
    exact ⟨Sys.wf_of_run hrun, Streamed.of_run_writeOnly hrun, Unread.of_run hrun, hten⟩
  | @call hist s s' c r _ hok hs ih =>
    refine ⟨Sys.step_wf ih.wf hs, ih.streamed.step ih.wf hok.2.grows hs,
      ih.unread.step ih.wf hok hs, ?_⟩
    have hten := ih.ten
    rw [commits_concat, List.length_append]
    omega
  | @session hist s t file counts out _ hbig hs ih =>
    rw [ih.readSession_eq hbig] at hs
    split at hs
    · rw [Option.some.injEq, Prod.mk.injEq] at hs
      obtain ⟨-, rfl⟩ := hs
      exact ih
    · exact absurd hs (by simp)

end Steady

/-- **Sessions in the steady state.**  Once ten entries were committed before the first
read, every session with large requests --- after any number of earlier sessions and of
writes between them --- ends if it has eleven reads; and it delivers the last ten
commits, oldest first, one in each of its first ten reads, and leaves `out_offs` at
`in_offs`, the read counter at 0 and the position at 0. -/
theorem steady_session_reads_last_ten {hist : List (Call × Reply)} {s : Sys} (file : ℕ)
    (h : SteadyRun hist s) (hbig : Exceeds s.toDriver counts) :
    (11 ≤ counts.length → (readSession s file counts).isSome) ∧
      ∀ out t, readSession s file counts = some (out, t) →
        out.length = 10 ∧ out = (commits hist).drop ((commits hist).length - 10) ∧
        t.dev.bufferP.outOffs = t.dev.bufferP.inOffs ∧ t.dev.readCounter = 0 ∧
        t.fPos file = some 0 := by
  have hst := Steady.of_steadyRun h
  have hten := hst.ten
  rw [hst.readSession_eq hbig]
  constructor
  · intro hlen
    rw [if_pos (by omega)]
    rfl
  · intro out t ht
    split at ht
    · rw [Option.some.injEq, Prod.mk.injEq] at ht
      obtain ⟨rfl, rfl⟩ := ht
      refine ⟨?_, rfl, ?_, hst.unread.counter, Sys.after_fPos_self _ _ _ _⟩
      · rw [List.length_drop]
        omega
      · rw [Sys.after_toDriver, hst.outOffs, hst.unread.inOffs]
    · exact absurd ht (by simp)

/-- Twelve lines. -/
def fillCalls : List Call :=
  .aesdOpen 0 :: List.replicate 11 (writeLine [97, 10]) ++ [writeLine [98, 99, 10]]

theorem steady_session_reads_last_ten_again :
    ∃ hist s out t, SteadyRun hist s ∧ s.fPos 1 = some 0 ∧
      readSession s 2 (List.replicate 11 8) = some (out, t) ∧
      out = List.replicate 9 [97, 10] ++ [[98, 99, 10]] ∧
      t.dev.bufferP.outOffs = 2 ∧ t.dev.bufferP.inOffs = 2 := by
  obtain ⟨hist, s, hrun, hcommits, hbig, hin⟩ := exists_run_of_replay Sys.step WriteOnly Sys.init
    fillCalls (fun hist s => commits hist = List.replicate 11 [97, 10] ++ [[98, 99, 10]] ∧
      Exceeds s.toDriver (List.replicate 11 8) ∧ s.dev.bufferP.inOffs = 2) (by decide +kernel)
  have hfill : SteadyRun hist s := .fill hrun (by rw [hcommits]; decide)
  have hfirst : readSession s 1 (List.replicate 11 8) = _ :=
    (Steady.of_steadyRun hfill).readSession_eq hbig
  rw [if_pos (by decide)] at hfirst
  have hsteady := hfill.session hbig hfirst
  obtain ⟨hsome, hall⟩ := steady_session_reads_last_ten 2 hsteady hbig
  obtain ⟨⟨out, t⟩, hsession⟩ := Option.isSome_iff_exists.mp (hsome (by decide))
  obtain ⟨-, hout, hoffs, -, -⟩ := hall out t hsession
  have hsame : t.dev.bufferP.inOffs = 2 := by
    rw [(Steady.of_steadyRun hsteady).readSession_eq hbig, if_pos (by decide),
      Option.some.injEq, Prod.mk.injEq] at hsession
    rw [← hsession.2]
    exact hin
  exact ⟨hist, _, out, t, hsteady, Sys.after_fPos_self _ _ _ _, hsession,
    by rw [hout, hcommits]; rfl, hoffs.trans hsame, hsame⟩

end Aesd
