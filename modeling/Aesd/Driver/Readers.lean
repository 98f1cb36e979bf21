import Aesd.Driver.Contents
import Aesd.Driver.Session

/-!
# Readers side by side

Each reader opens the device and reads until a read returns 0, as in a session; but here
several do so at once, and their calls may come in any order.  They share `out_offs` and
`readCounter`: every read moves both for all of them, and every open of a ring that is
not full puts `out_offs` back for all of them.

So a reader is given what it would be given alone exactly if no other one has moved the
cursor away from it.  `Undisturbed` says what that means for a single read: it finds at
`out_offs` the entry its reader is due, and the counter has not run out; or its reader
has had everything, and the read finds one of the two ends.
-/

namespace Aesd

/-- Where a reader is, and what it has received. -/
inductive Reader where
  | idle
  | reading (received : List (List UInt8))
  | finished (received : List (List UInt8))
  deriving DecidableEq

namespace Reader

/-- What the reader has received. -/
def received : Reader → List (List UInt8)
  | .idle => []
  | .reading l => l
  | .finished l => l

/-- The reader has been given a 0. -/
def isFinished : Reader → Bool
  | .finished _ => true
  | _ => false

/-- The reader after a read. -/
def got (l : List (List UInt8)) (r : Reply) : Reader :=
  if r.retval = 0 then .finished l else .reading (l ++ [r.copied])

end Reader

/-- The device, and its readers; each has the file of its name. -/
structure Readers where
  sys : Sys
  reader : ℕ → Reader

namespace Readers

/-- All readers are still to come. -/
def start (s : Sys) : Readers := ⟨s, fun _ => .idle⟩

/-- A reader's turn: it opens its file, or it reads with the given count into a buffer
of that size. -/
def step (t : Readers) (c : ℕ × UInt64) : Except Fault (Reply × Readers) :=
  match t.reader c.1 with
  | .idle =>
      (t.sys.step (.aesdOpen c.1)).map fun q =>
        (q.1, ⟨q.2, Function.update t.reader c.1 (.reading [])⟩)
  | .reading l | .finished l =>
      (t.sys.step (.aesdRead c.1 false c.2.toNat c.2)).map fun q =>
        (q.1, ⟨q.2, Function.update t.reader c.1 (.got l q.1)⟩)

/-- The turns of the readers in `files`: none after its first 0, and with a count
greater than every entry. -/
def Turn (files : List ℕ) (t : Readers) (c : ℕ × UInt64) : Prop :=
  c.1 ∈ files ∧ (t.reader c.1).isFinished = false ∧
    ∀ j < 10, (t.sys.dev.bufferP.slot j).size < c.2.toNat

instance (files : List ℕ) (t : Readers) (c : ℕ × UInt64) : Decidable (Turn files t c) :=
  inferInstanceAs (Decidable (_ ∧ _ ∧ ∀ j < 10, _))

end Readers

/-- A read finds what its reader is due, of the entries in `due`. -/
def Undisturbed (due : List (List UInt8)) (t : Readers) (c : ℕ × UInt64) : Prop :=
  ∀ l, t.reader c.1 = .reading l →
    (∀ e, due[l.length]? = some e →
      t.sys.dev.readCounter ≠ 10 ∧ t.sys.slotBytes t.sys.dev.bufferP.outOffs = e) ∧
    (due[l.length]? = none →
      t.sys.slotBytes t.sys.dev.bufferP.outOffs = [] ∨ t.sys.dev.readCounter = 10)

namespace Readers

/-- What stays as it is while only readers are at work. -/
structure Steady (s : Sys) (t : Readers) : Prop where
  wf : t.sys.Wf
  slots : t.sys.slotBytes = s.slotBytes
  fPos : ∀ x l, t.reader x = .reading l → t.sys.fPos x = some 0

theorem Steady.start {s : Sys} (hw : s.Wf) : Steady s (start s) :=
  ⟨hw, rfl, fun _ _ h => absurd h (by simp [Readers.start])⟩

theorem Steady.current_size {s : Sys} {t : Readers} (h : Steady s t) :
    t.sys.current.size = 0 ↔ t.sys.slotBytes t.sys.dev.bufferP.outOffs = [] := by
  rw [← List.length_eq_zero_iff, h.wf.length_slotBytes]
  rfl

/-- What a quiet call leaves of what stays as it is. -/
theorem Steady.quiet {s t' : Sys} {t : Readers} {x : ℕ} {R : Reader} (h : Steady s t)
    (hq : Quiet t.sys.toDriver t'.toDriver) (hx : t'.fPos = Function.update t.sys.fPos x (some 0)) :
    Steady s ⟨t', Function.update t.reader x R⟩ where
  wf := hq.wf h.wf
  slots := by
    ext1 j
    rw [← h.slots]
    exact congrArg (·.getD []) (hq.dataAt (some j))
  fPos y l hl := by
    dsimp only at hl ⊢
    by_cases hy : y = x
    · rw [hx, hy, Function.update_self]
    · rw [Function.update_of_ne hy] at hl
      rw [hx, Function.update_of_ne hy]
      exact h.fPos y l hl

/-- **One turn.**  A reader opens; or it reads, and finds an end; or it is given the
whole entry at `out_offs`. -/
theorem Steady.step {s : Sys} {t t' : Readers} {files : List ℕ} {c : ℕ × UInt64} {r : Reply}
    (h : Steady s t) (hturn : Turn files t c) (hs : t.step c = .ok (r, t')) :
    Steady s t' ∧
      ((t.reader c.1 = .idle ∧ t'.reader = Function.update t.reader c.1 (.reading [])) ∨
        ∃ l, t.reader c.1 = .reading l ∧
          (((t.sys.slotBytes t.sys.dev.bufferP.outOffs = [] ∨ t.sys.dev.readCounter = 10) ∧
              t'.reader = Function.update t.reader c.1 (.finished l)) ∨
            (t.sys.slotBytes t.sys.dev.bufferP.outOffs ≠ [] ∧ t.sys.dev.readCounter ≠ 10 ∧
              t'.reader = Function.update t.reader c.1
                (.reading (l ++ [t.sys.slotBytes t.sys.dev.bufferP.outOffs]))))) := by
  obtain ⟨x, n⟩ := c
  obtain ⟨-, hnot, hbig⟩ := hturn
  simp only at hnot hbig ⊢
  cases hx : t.reader x with
  | finished l => exact absurd hnot (by simp [hx, Reader.isFinished])
  | idle =>
    simp only [Readers.step, hx, Sys.step, Except.map, Except.ok.injEq, Prod.mk.injEq] at hs
    obtain ⟨-, rfl⟩ := hs
    exact ⟨h.quiet (Quiet.aesdOpen _) rfl, Or.inl ⟨rfl, rfl⟩⟩
  | reading l =>
    have hfile := h.fPos x l hx
    -- the driver's answer, from the position at the start of the entry
    have hanswer : ∀ {r' d}, aesdRead t.sys.toDriver 0 false n.toNat n.toNat = .ok (r', 0, d) →
        t' = ⟨t.sys.after x 0 d, Function.update t.reader x (.got l r')⟩ := by
      intro r' d hread
      simp only [Readers.step, hx, Sys.step, Sys.onFile, hfile, hread, Except.map,
        Except.ok.injEq, Prod.mk.injEq] at hs
      exact hs.2.symm
    by_cases hend : t.sys.slotBytes t.sys.dev.bufferP.outOffs = [] ∨ t.sys.dev.readCounter = 10
    · have hout : Steady s t' ∧ t'.reader = Function.update t.reader x (.finished l) := by
        by_cases hsize : t.sys.current.size = 0
        · have hread : aesdRead t.sys.toDriver 0 false n.toNat n.toNat =
              .ok ({ retval := 0 }, 0, t.sys.toDriver) := by
            simp [aesdRead, aesdReadLocked, hsize]
          rw [hanswer hread]
          exact ⟨h.quiet (Quiet.refl _) rfl, rfl⟩
        · have hten := hend.resolve_left fun hnil => hsize (h.current_size.mpr hnil)
          have hread : aesdRead t.sys.toDriver 0 false n.toNat n.toNat =
              .ok ({ retval := 0 }, 0, { t.sys.toDriver with dev.readCounter := 0 }) := by
            simp [aesdRead, aesdReadLocked, hsize, hten]
          rw [hanswer hread]
          exact ⟨h.quiet ⟨rfl, rfl, rfl, rfl, rfl, Or.inl rfl, Or.inr (Or.inl rfl)⟩ rfl, rfl⟩
      exact ⟨hout.1, Or.inr ⟨l, rfl, Or.inl ⟨hend, hout.2⟩⟩⟩
    · obtain ⟨hne, hcounter⟩ := not_or.mp hend
      have hsize : t.sys.current.size ≠ 0 := fun hzero => hne (h.current_size.mp hzero)
      have hread := aesdRead_past_end (p := 0) h.wf hsize hcounter (Nat.zero_le _)
        (by rw [Nat.zero_add]; exact hbig _ h.wf.outOffs_lt)
        (by rw [Nat.zero_add]; exact n.toNat_lt) le_rfl
      have hlen : (t.sys.slotBytes t.sys.dev.bufferP.outOffs).length = t.sys.current.size :=
        h.wf.length_slotBytes _
      rw [Nat.sub_zero, List.take_of_length_le hlen.le, Nat.cast_zero] at hread
      rw [hanswer hread]
      refine ⟨h.quiet ⟨rfl, rfl, rfl, rfl, rfl, Or.inr (Or.inr ⟨hsize, rfl⟩),
        Or.inr (Or.inr ⟨hcounter, rfl⟩)⟩ rfl, Or.inr ⟨l, rfl, Or.inr ⟨hne, hcounter, ?_⟩⟩⟩
      rw [Reader.got, if_neg (by simpa using hsize)]

theorem Steady.of_run {s : Sys} (hw : s.Wf) {t : Readers} {files : List ℕ}
    {hist : List ((ℕ × UInt64) × Reply)} {ok : Readers → ℕ × UInt64 → Prop}
    (hok : ∀ t c, ok t c → Turn files t c)
    (h : Run Readers.step ok (Readers.start s) hist t) : Steady s t := by
  refine h.invariant (P := fun _ t => Steady s t) (.start hw) ?_
  intro hist t c r t' _ hst hc hs
  exact (hst.step (hok _ _ hc) hs).1

end Readers

/-! ## On course -/

theorem prefix_concat_left {α : Type*} {l due : List α} {e : α} :
    l ++ [e] <+: due ↔ l <+: due ∧ due[l.length]? = some e := by
  constructor
  · rintro ⟨rest, rfl⟩
    exact ⟨⟨[e] ++ rest, by simp⟩, by simp⟩
  · rintro ⟨⟨rest, rfl⟩, he⟩
    cases rest with
    | nil => simp at he
    | cons b rest =>
      rw [List.getElem?_append_right le_rfl, Nat.sub_self, List.getElem?_cons_zero,
        Option.some.injEq] at he
      exact ⟨rest, by rw [he]; simp⟩

theorem eq_iff_prefix_getElem? {α : Type*} {l due : List α} :
    l = due ↔ l <+: due ∧ due[l.length]? = none := by
  rw [List.getElem?_eq_none_iff]
  constructor
  · rintro rfl
    exact ⟨List.prefix_refl l, le_rfl⟩
  · rintro ⟨hl, hle⟩
    exact hl.eq_of_length_le hle

/-- The reader has received the beginning of what is due, and all of it if it has
finished. -/
def Reader.OnCourse (due : List (List UInt8)) : Reader → Prop
  | .idle => True
  | .reading l => l <+: due
  | .finished l => l = due

theorem undisturbed_of_reading {due : List (List UInt8)} {t : Readers} {c : ℕ × UInt64}
    {l : List (List UInt8)} (hl : t.reader c.1 = .reading l) :
    Undisturbed due t c ↔
      (∀ e, due[l.length]? = some e →
        t.sys.dev.readCounter ≠ 10 ∧ t.sys.slotBytes t.sys.dev.bufferP.outOffs = e) ∧
      (due[l.length]? = none →
        t.sys.slotBytes t.sys.dev.bufferP.outOffs = [] ∨ t.sys.dev.readCounter = 10) := by
  constructor
  · exact fun h => h l hl
  · intro h l' hl'
    obtain rfl : l = l' := Reader.reading.inj (hl.symm.trans hl')
    exact h

namespace Readers

variable {s : Sys} {files : List ℕ} {due : List (List UInt8)}

/-- **A turn keeps its reader on course exactly if it is undisturbed.** -/
theorem onCourse_step {t t' : Readers} {c : ℕ × UInt64} {r : Reply} (hst : Steady s t)
    (hdue : ∀ e ∈ due, e ≠ []) (hturn : Turn files t c) (hs : t.step c = .ok (r, t')) :
    (∀ x, (t'.reader x).OnCourse due) ↔
      (∀ x, (t.reader x).OnCourse due) ∧ Undisturbed due t c := by
  -- the other readers are not touched
  have hothers : ∀ R : Reader, t'.reader = Function.update t.reader c.1 R →
      (R.OnCourse due ↔ (t.reader c.1).OnCourse due ∧ Undisturbed due t c) →
      ((∀ x, (t'.reader x).OnCourse due) ↔
        (∀ x, (t.reader x).OnCourse due) ∧ Undisturbed due t c) := by
    intro R hR hiff
    rw [hR]
    constructor
    · intro h
      have hself := h c.1
      rw [Function.update_self] at hself
      obtain ⟨hcourse, hund⟩ := hiff.mp hself
      refine ⟨fun x => ?_, hund⟩
      by_cases hx : x = c.1
      · rw [hx]
        exact hcourse
      · have hother := h x
        rwa [Function.update_of_ne hx] at hother
    · rintro ⟨h, hund⟩ x
      by_cases hx : x = c.1
      · rw [hx, Function.update_self]
        exact hiff.mpr ⟨h c.1, hund⟩
      · rw [Function.update_of_ne hx]
        exact h x
  obtain ⟨-, ⟨hidle, hnew⟩ | ⟨l, hl, ⟨hend, hnew⟩ | ⟨hne, hcounter, hnew⟩⟩⟩ :=
    hst.step hturn hs
  · refine hothers _ hnew ⟨fun _ => ⟨by rw [hidle]; trivial, fun l hl => ?_⟩,
      fun _ => List.nil_prefix⟩
    rw [hidle] at hl
    exact absurd hl (by simp)
  · refine hothers _ hnew ?_
    rw [undisturbed_of_reading hl, hl, Reader.OnCourse, Reader.OnCourse, eq_iff_prefix_getElem?]
    refine and_congr_right fun _ => ⟨fun hnone => ⟨fun e he => ?_, fun _ => hend⟩, fun h => ?_⟩
    · rw [hnone] at he
      exact absurd he (by simp)
    · -- an entry that is still due is not empty, and the counter has not run out
      by_contra hsome
      obtain ⟨e, he⟩ := Option.ne_none_iff_exists'.mp hsome
      obtain ⟨hcounter, hbytes⟩ := h.1 e he
      rcases hend with hnil | hten
      · exact hdue e (List.mem_of_getElem? he) (hbytes.symm.trans hnil)
      · exact hcounter hten
  · refine hothers _ hnew ?_
    rw [undisturbed_of_reading hl, hl, Reader.OnCourse, Reader.OnCourse, prefix_concat_left]
    refine and_congr_right fun _ => ⟨fun hsome => ⟨fun e he => ?_, fun hnone => ?_⟩, fun h => ?_⟩
    · rw [hsome, Option.some.injEq] at he
      exact ⟨hcounter, he⟩
    · rw [hsome] at hnone
      exact absurd hnone (by simp)
    · cases hdue : due[l.length]? with
      | none => exact absurd (h.2 hdue) (not_or.mpr ⟨hne, hcounter⟩)
      | some e => rw [(h.1 e hdue).2]

/-- **All readers are on course exactly if every read so far was undisturbed.** -/
theorem onCourse_iff (hw : s.Wf) (hdue : ∀ e ∈ due, e ≠ []) {t : Readers}
    {hist : List ((ℕ × UInt64) × Reply)}
    (h : Run Readers.step (Turn files) (Readers.start s) hist t) :
    (∀ x, (t.reader x).OnCourse due) ↔
      Run Readers.step (fun t c => Turn files t c ∧ Undisturbed due t c) (Readers.start s)
        hist t := by
  induction h with
  | start => exact ⟨fun _ => .start, fun _ _ => trivial⟩
  | call hrun hturn hs ih =>
    rw [onCourse_step (.of_run hw (fun _ _ hc => hc) hrun) hdue hturn hs, ih]
    constructor
    · rintro ⟨hgood, hund⟩
      exact hgood.call ⟨hturn, hund⟩ hs
    · intro hboth
      obtain ⟨t'', hgood, hok, -⟩ := Run.concat_iff.mp hboth
      obtain rfl := hgood.unique hrun
      exact ⟨hgood, hok.2⟩

/-- Who is not among the readers has no turn. -/
theorem idle_of_notMem (hw : s.Wf) {t : Readers} {hist : List ((ℕ × UInt64) × Reply)}
    (h : Run Readers.step (Turn files) (Readers.start s) hist t) {x : ℕ} (hx : x ∉ files) :
    t.reader x = .idle := by
  refine h.invariant (P := fun _ t => t.reader x = .idle) rfl ?_
  intro hist t c r t' hrun hidle hturn hs
  have hne : x ≠ c.1 := fun heq => hx (heq ▸ hturn.1)
  obtain ⟨-, ⟨-, hnew⟩ | ⟨l, -, ⟨-, hnew⟩ | ⟨-, -, hnew⟩⟩⟩ :=
    (Steady.of_run hw (fun _ _ hc => hc) hrun).step hturn hs
  all_goals rw [hnew, Function.update_of_ne hne, hidle]

/-- What a reader has received are contents of slots. -/
theorem received_slots (hw : s.Wf) {t : Readers} {hist : List ((ℕ × UInt64) × Reply)}
    (h : Run Readers.step (Turn files) (Readers.start s) hist t) :
    ∀ x, ∀ e ∈ (t.reader x).received, ∃ j < 10, e = s.slotBytes j ∧ e ≠ [] := by
  refine h.invariant (P := fun _ t => ∀ x, ∀ e ∈ (t.reader x).received,
    ∃ j < 10, e = s.slotBytes j ∧ e ≠ []) (by simp [Readers.start, Reader.received]) ?_
  intro hist t c r t' hrun ih hturn hs x e he
  have hst := Steady.of_run hw (fun _ _ hc => hc) hrun
  obtain ⟨-, hcases⟩ := hst.step hturn hs
  by_cases hx : x = c.1
  · subst hx
    rcases hcases with ⟨-, hnew⟩ | ⟨l, hl, ⟨-, hnew⟩ | ⟨hne, -, hnew⟩⟩
    · rw [hnew, Function.update_self] at he
      exact absurd he (by simp [Reader.received])
    · rw [hnew, Function.update_self] at he
      exact ih c.1 e (by rw [hl]; exact he)
    · rw [hnew, Function.update_self, Reader.received, List.mem_append, List.mem_singleton] at he
      rcases he with he | rfl
      · exact ih c.1 e (by rw [hl]; exact he)
      · exact ⟨_, hst.wf.outOffs_lt, by rw [hst.slots], hne⟩
  · have hsame : t'.reader x = t.reader x := by
      rcases hcases with ⟨-, hnew⟩ | ⟨l, -, ⟨-, hnew⟩ | ⟨-, -, hnew⟩⟩
      all_goals rw [hnew, Function.update_of_ne hx]
    exact ih x e (by rw [← hsame]; exact he)

end Readers

/-! ## What a reader receives alone -/

section Alone

variable {ok : Sys → Call → Prop} {hist : List (Call × Reply)} {s : Sys}

/-- The entries from where opening leaves the reader, as many as are stored. -/
def Driver.entries (d : Driver) (m : ℕ) : List (List UInt8) :=
  walk 10 d.slotBytes (aesdOpen d).dev.bufferP.outOffs m

theorem aesdOpen_of_zero {d : Driver} (h : d.dev.bufferP.outOffs = 0) : aesdOpen d = d := by
  unfold aesdOpen
  split
  · rfl
  · rw [← h]

/-- What is stored is due to a reader that opens the device. -/
theorem due_aesdOpen (h : Run Sys.step ok Sys.init hist s)
    (hne : ∀ e ∈ (commits hist).drop ((commits hist).length - 10), e ≠ [])
    (hcounter : s.dev.readCounter = 0)
    (hout : s.dev.bufferP.outOffs =
      if (commits hist).length < 10 then 0 else (commits hist).length % 10) :
    Due (aesdOpen s.toDriver) (min (commits hist).length 10) := by
  have hw := Sys.wf_of_run h
  have hq := Quiet.aesdOpen s.toDriver
  have hsize : ∀ j, ((aesdOpen s.toDriver).dev.bufferP.slot j).size =
      (s.slotBytes j).length := fun j => by rw [hq.slot, hw.length_slotBytes]
  have hcount : (aesdOpen s.toDriver).dev.readCounter = 0 := by
    rw [← hcounter]
    unfold aesdOpen
    split <;> rfl
  rcases lt_or_ge (commits hist).length 10 with hlt | hge
  · -- opening leaves the reader at slot 0, where it is
    rw [if_pos hlt] at hout
    have hzero : (aesdOpen s.toDriver).dev.bufferP.outOffs = 0 := by
      rw [aesdOpen_of_zero hout, hout]
    rw [min_eq_left hlt.le]
    refine ⟨fun i hi => ?_, by rw [hcount]; omega, Or.inl ?_⟩
    · rw [hsize, hzero, Nat.zero_add, Nat.mod_eq_of_lt (by omega)]
      exact (List.length_pos_iff.mpr (slotBytes_ne_nil h hne (by omega) hi)).ne'
    · rw [hsize, hzero, Nat.zero_add, Nat.mod_eq_of_lt hlt,
        slotBytes_eq_nil h hlt le_rfl, List.length_nil]
  · rw [min_eq_right hge]
    refine ⟨fun i _ => ?_, by rw [hcount]; omega, Or.inr (by rw [hcount]; rfl)⟩
    rw [hsize]
    exact (List.length_pos_iff.mpr (slotBytes_ne_nil h hne (Nat.mod_lt _ (by decide))
      (by omega))).ne'

/-- **Alone, a reader receives what is stored.** -/
theorem readSession_alone {file : ℕ} {counts : List UInt64} {out : List (List UInt8)} {t : Sys}
    (h : Run Sys.step ok Sys.init hist s)
    (hne : ∀ e ∈ (commits hist).drop ((commits hist).length - 10), e ≠ [])
    (hcounter : s.dev.readCounter = 0)
    (hout : s.dev.bufferP.outOffs =
      if (commits hist).length < 10 then 0 else (commits hist).length % 10)
    (hbig : Exceeds s.toDriver counts) (hs : readSession s file counts = some (out, t)) :
    out = s.entries (min (commits hist).length 10) := by
  have hq := Quiet.aesdOpen s.toDriver
  have hbytes : (aesdOpen s.toDriver).slotBytes = s.slotBytes := by
    ext1 j
    exact congrArg (·.getD []) (hq.dataAt (some j))
  have heq : readUntilZero file (s.after file 0 (aesdOpen s.toDriver)) counts = _ :=
    readUntilZero_eq _ (hq.wf (Sys.wf_of_run h)) (Sys.after_fPos_self _ _ _ _)
      (fun n hn j hj => by
        rw [Sys.after_toDriver, hq.slot]
        exact hbig n hn j hj) (due_aesdOpen h hne hcounter hout)
  rw [readSession_eq, heq] at hs
  split at hs
  · rw [Option.some.injEq, Prod.mk.injEq] at hs
    rw [← hs.1, Sys.after_toDriver, hbytes, Driver.entries]
  · exact absurd hs (by simp)

/-! ## Two readers -/

/-- **Two readers receive what each would receive alone exactly if no read of theirs is
disturbed.**  A read is undisturbed if the reader finds at `out_offs` the entry it is due
next and `readCounter` is not 10, or has received all entries and finds an empty slot
or `readCounter` at 10. -/
theorem readers_undisturbed_iff {a b : ℕ} {countsA countsB : List UInt64}
    {outA outB la lb : List (List UInt8)} {tA tB : Sys} {t : Readers}
    {turns : List ((ℕ × UInt64) × Reply)}
    (h : Run Sys.step ok Sys.init hist s)
    (hne : ∀ e ∈ (commits hist).drop ((commits hist).length - 10), e ≠ [])
    (hcounter : s.dev.readCounter = 0)
    (hout : s.dev.bufferP.outOffs =
      if (commits hist).length < 10 then 0 else (commits hist).length % 10)
    (hbigA : Exceeds s.toDriver countsA) (haloneA : readSession s a countsA = some (outA, tA))
    (hbigB : Exceeds s.toDriver countsB) (haloneB : readSession s b countsB = some (outB, tB))
    (hrun : Run Readers.step (Readers.Turn [a, b]) (Readers.start s) turns t)
    (ha : t.reader a = .finished la) (hb : t.reader b = .finished lb) :
    (la.flatten = outA.flatten ∧ lb.flatten = outB.flatten) ↔
      Run Readers.step
        (fun t c => Readers.Turn [a, b] t c ∧
          Undisturbed (s.entries (min (commits hist).length 10)) t c)
        (Readers.start s) turns t := by
  have hw := Sys.wf_of_run h
  have hdue := due_aesdOpen h hne hcounter hout
  have hq := Quiet.aesdOpen s.toDriver
  have hlines : ∀ e ∈ s.entries (min (commits hist).length 10), Line eol e := by
    intro e he
    obtain ⟨i, hi, rfl⟩ := List.mem_map.mp he
    refine line_of_slotBytes h (Nat.mod_lt _ (by decide)) fun hnil => ?_
    refine hdue.occupied i (List.mem_range.mp hi) ?_
    rw [hq.slot, ← hw.length_slotBytes, hnil, List.length_nil]
  -- what a finished reader has received are lines too, so their bytes determine them
  have hreceived : ∀ {x l}, t.reader x = .finished l →
      (l.flatten = (s.entries (min (commits hist).length 10)).flatten ↔
        (t.reader x).OnCourse (s.entries (min (commits hist).length 10))) := by
    intro x l hl
    rw [hl, Reader.OnCourse]
    refine ⟨fun hflat => ?_, fun heq => by rw [heq]⟩
    refine (lines_unique_of_clean (p := []) (q := []) (fun e he => ?_) hlines (by simp) (by simp)
      (congrArg (· ++ []) hflat)).1
    obtain ⟨j, hj, rfl, hne'⟩ := Readers.received_slots hw hrun x e (by rw [hl]; exact he)
    exact line_of_slotBytes h hj hne'
  rw [readSession_alone h hne hcounter hout hbigA haloneA,
    readSession_alone h hne hcounter hout hbigB haloneB, hreceived ha, hreceived hb,
    ← Readers.onCourse_iff hw (fun e he => (hlines e he).ne_nil) hrun]
  constructor
  · rintro ⟨hgoodA, hgoodB⟩ x
    by_cases hx : x ∈ [a, b]
    · rcases List.mem_pair.mp hx with rfl | rfl
      · exact hgoodA
      · exact hgoodB
    · rw [Readers.idle_of_notMem hw hrun hx]
      trivial
  · exact fun hall => ⟨hall a, hall b⟩

end Alone

/-- The second reader opens when the first has had everything. -/
theorem readers_undisturbed_in_turn :
    ∃ hist s turns t la lb, Run Sys.step (OnWrites Appends) Sys.init hist s ∧
      commits hist = [[97, 10], [98, 10]] ∧
      Run Readers.step (Readers.Turn [1, 2]) (Readers.start s) turns t ∧
      t.reader 1 = .finished la ∧ t.reader 2 = .finished lb ∧
      Run Readers.step
        (fun t c => Readers.Turn [1, 2] t c ∧ Undisturbed (s.entries 2) t c)
        (Readers.start s) turns t := by
  obtain ⟨hist, s, hrun, hcommits, hcounter, hout, hbig, hone, htwo, hreaders⟩ :=
    exists_run_of_replay Sys.step (OnWrites Appends) Sys.init
      [.aesdOpen 0, writeLine [97, 10], writeLine [98, 10]]
      (fun hist s => commits hist = [[97, 10], [98, 10]] ∧ s.dev.readCounter = 0 ∧
        s.dev.bufferP.outOffs = 0 ∧ Exceeds s.toDriver [9, 9, 9] ∧
        (readSession s 1 [9, 9, 9]).map (·.1) = some [[97, 10], [98, 10]] ∧
        (readSession s 2 [9, 9, 9]).map (·.1) = some [[97, 10], [98, 10]] ∧
        (replay Readers.step (Readers.Turn [1, 2]) (Readers.start s)
          [(1, 9), (1, 9), (1, 9), (2, 9), (2, 9), (2, 9), (1, 9), (2, 9)]).any
          (fun q => decide (q.2.reader 1 = .finished [[97, 10], [98, 10]] ∧
            q.2.reader 2 = .finished [[97, 10], [98, 10]])) = true) (by decide +kernel)
  obtain ⟨turns, t, hturns, ha, hb⟩ := exists_run_of_replay Readers.step
    (Readers.Turn [1, 2]) (Readers.start s) _
    (fun _ t => t.reader 1 = .finished [[97, 10], [98, 10]] ∧
      t.reader 2 = .finished [[97, 10], [98, 10]]) hreaders
  obtain ⟨⟨outA, tA⟩, haloneA, rfl⟩ := Option.map_eq_some_iff.mp hone
  obtain ⟨⟨outB, tB⟩, haloneB, rfl⟩ := Option.map_eq_some_iff.mp htwo
  have hund := (readers_undisturbed_iff hrun (by rw [hcommits]; decide) hcounter
    (by rw [hout, hcommits]; rfl) hbig haloneA hbig haloneB hturns ha hb).mp ⟨rfl, rfl⟩
  rw [hcommits] at hund
  exact ⟨hist, s, turns, t, _, _, hrun, hcommits, hturns, ha, hb, hund⟩

/-- **Two readers share one entry**: both open, and the second is given nothing. -/
theorem readers_disturbed :
    ∃ hist s turns t outB tB, Run Sys.step (OnWrites Appends) Sys.init hist s ∧
      commits hist = [[97, 10]] ∧ s.dev.readCounter = 0 ∧ s.dev.bufferP.outOffs = 0 ∧
      Exceeds s.toDriver [9, 9] ∧ readSession s 2 [9, 9] = some (outB, tB) ∧
      Run Readers.step (Readers.Turn [1, 2]) (Readers.start s) turns t ∧
      t.reader 1 = .finished [[97, 10]] ∧ t.reader 2 = .finished [] ∧
      ([] : List (List UInt8)).flatten ≠ outB.flatten := by
  obtain ⟨hist, s, hrun, hcommits, hcounter, hout, hbig, halone, hreaders⟩ :=
    exists_run_of_replay Sys.step (OnWrites Appends) Sys.init
      [.aesdOpen 0, writeLine [97, 10]]
      (fun hist s => commits hist = [[97, 10]] ∧ s.dev.readCounter = 0 ∧
        s.dev.bufferP.outOffs = 0 ∧ Exceeds s.toDriver [9, 9] ∧
        (readSession s 2 [9, 9]).map (·.1) = some [[97, 10]] ∧
        (replay Readers.step (Readers.Turn [1, 2]) (Readers.start s)
          [(1, 9), (2, 9), (1, 9), (1, 9), (2, 9)]).any
          (fun q => decide (q.2.reader 1 = .finished [[97, 10]] ∧
            q.2.reader 2 = .finished [])) = true) (by decide +kernel)
  obtain ⟨turns, t, hturns, ha, hb⟩ := exists_run_of_replay Readers.step
    (Readers.Turn [1, 2]) (Readers.start s) _
    (fun _ t => t.reader 1 = .finished [[97, 10]] ∧ t.reader 2 = .finished []) hreaders
  obtain ⟨⟨outB, tB⟩, haloneB, rfl⟩ := Option.map_eq_some_iff.mp halone
  exact ⟨hist, s, turns, t, _, tB, hrun, hcommits, hcounter, hout, hbig, haloneB, hturns, ha, hb,
    by simp⟩

end Aesd
