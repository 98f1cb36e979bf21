import Aesd.Driver.Log

/-!
# The driver refines the log

`StandsFor d a` says that a driver with blocks, pointers and sizes stands for a device
that is a list of commands.  Every operation of the driver that returns gives the answer
of the device and keeps the relation, so every run of the driver gets the answers that
the log gives to the same requests (`replies_eq_answers`).

The relation says nothing of the identity of blocks, of how many there are, or of what a
block held before it was written to, and a request says nothing of allocations.  So
nothing of all that is ever visible to a caller (`replies_eq_of_requests_eq`): what the
kernel's memory happened to contain does not get out.
-/

namespace Aesd

open FixedWidth

/-- A driver that stands for a device. -/
structure StandsFor (d : Driver) (a : LogDevice) : Prop where
  wf : d.Wf
  ring : RingLog 10 [] a.commands d.slotBytes
  inOffs : d.dev.bufferP.inOffs = a.commands.length % 10
  cursor : d.dev.bufferP.outOffs = a.cursor
  full : d.dev.bufferP.full = a.full
  counter : d.dev.readCounter = a.readCounter
  pending : d.pending = a.pending
  /-- There is a block for the partial entry only if it has bytes. -/
  block : d.dev.entry.buffptr = none ↔ a.pending = []

namespace StandsFor

variable {d d' : Driver} {a : LogDevice}

theorem slot (h : StandsFor d a) {j : ℕ} (hj : j < 10) : d.slotBytes j = a.slot j :=
  h.ring.slot_eq (by decide) hj

theorem current (h : StandsFor d a) : d.slotBytes d.dev.bufferP.outOffs = a.current := by
  rw [h.slot h.wf.outOffs_lt, h.cursor, LogDevice.current]

theorem length_current (h : StandsFor d a) : d.current.size = a.current.length := by
  rw [← h.current, h.wf.length_slotBytes, Driver.current]

theorem length_slot (h : StandsFor d a) {j : ℕ} (hj : j < 10) :
    (d.dev.bufferP.slot j).size = (a.slot j).length := by
  rw [← h.slot hj, h.wf.length_slotBytes]

/-- What is stored is the same. -/
theorem stored (h : StandsFor d a) : d.stored = a.stored := by
  have hnil : (List.replicate (10 - a.commands.length) ([] : List UInt8)).flatten = [] :=
    List.flatten_replicate_nil
  rw [Driver.stored, h.inOffs, h.ring.walk_round, List.flatten_append, hnil, List.nil_append,
    LogDevice.stored]

/-- Only the cursor and the counter have moved. -/
theorem quiet (h : StandsFor d a) (hq : Quiet d d') {cursor : ℕ} {counter : ℤ}
    (hcursor : d'.dev.bufferP.outOffs = cursor) (hcounter : d'.dev.readCounter = counter) :
    StandsFor d' { a with cursor := cursor, readCounter := counter } where
  wf := hq.wf h.wf
  ring := h.ring.congr (by decide) fun j _ => congrArg (·.getD []) (hq.dataAt (some j))
  inOffs := hq.inOffs.trans h.inOffs
  cursor := hcursor
  full := hq.full.trans h.full
  counter := hcounter
  pending := hq.pending.trans h.pending
  block := by rw [hq.entry]; exact h.block

/-! ## Opening and reading -/

theorem openFile (h : StandsFor d a) : StandsFor (aesdOpen d) a.openFile := by
  have hq := Quiet.aesdOpen d
  unfold LogDevice.openFile
  cases hf : a.full with
  | true =>
    have hopen : Aesd.aesdOpen d = d := by rw [Aesd.aesdOpen, if_pos (h.full.trans hf)]
    rw [if_pos rfl, hopen]
    exact h
  | false =>
    have hopen : Aesd.aesdOpen d = { d with dev.bufferP.outOffs := 0 } := by
      rw [Aesd.aesdOpen, if_neg (by rw [h.full, hf]; exact Bool.false_ne_true)]
    have hcursor : (Aesd.aesdOpen d).dev.bufferP.outOffs = 0 := by rw [hopen]
    have hcounter : (Aesd.aesdOpen d).dev.readCounter = a.readCounter := by
      rw [hopen]
      exact h.counter
    have hrep := h.quiet hq hcursor hcounter
    rw [if_neg Bool.false_ne_true]
    simpa only [hf] using hrep

/-- A read goes past the end of the same command. -/
theorem readLast (h : StandsFor d a) (p : ℤ) (count : ℕ) :
    decide (a.current.length < wrapU 64 (p + count)) = readLast d p count := by
  rw [← h.length_current]
  rfl

/-- And it takes the same number of bytes. -/
theorem readCount (h : StandsFor d a) (p : ℤ) (count : ℕ) :
    (if Aesd.readLast d p count then wrapU 64 ((a.current.length : ℤ) - p) else count) =
      readCount d p count := by
  rw [← h.length_current]
  rfl

/-- What a read that fails has copied. -/
theorem copied_of_fault (h : StandsFor d a) (hsize : d.current.size ≠ 0)
    {avail n left : ℕ} {bytes : List UInt8}
    (hc : copyToUser d.heap d.current.buffptr avail n = .ok (left, bytes)) :
    bytes = if n < 2 ^ 31 then a.current.take (min n avail) else [] := by
  rcases lt_or_ge n (2 ^ 31) with hlt | hge
  · obtain ⟨i, hptr, hdata⟩ := h.wf.current_data hsize
    rw [hptr, copyToUser_of_data? hdata hlt] at hc
    split at hc
    · rw [Except.ok.injEq, Prod.mk.injEq] at hc
      rw [if_pos hlt, ← hc.2, h.current]
    · exact absurd hc (by simp)
  · rw [copyToUser_of_ge hge, Except.ok.injEq, Prod.mk.injEq] at hc
    rw [if_neg (by omega), hc.2]

/-- What a counted read reports to have copied is what `copy_to_user` copied. -/
theorem copyToUser_of_aesdRead {p q : ℤ} {avail count : ℕ} {r : Reply}
    (hsize : d.current.size ≠ 0) (hcounter : d.dev.readCounter ≠ 10)
    (hread : aesdRead d p false avail count = .ok (r, q, d')) :
    ∃ left, copyToUser d.heap d.current.buffptr avail (Aesd.readCount d p count) =
      .ok (left, r.copied) := by
  have hn : (if decide (d.current.size < wrapU 64 (p + count)) = true then
      wrapU 64 ((d.current.size : ℤ) - p) else count) = Aesd.readCount d p count := rfl
  simp only [aesdRead, aesdReadLocked, Bool.false_eq_true, if_false, if_neg hsize,
    if_neg hcounter, hn] at hread
  split at hread
  · exact absurd hread (by simp)
  · next left bytes hcopy =>
    refine ⟨left, ?_⟩
    rw [hcopy]
    split at hread
    · rw [Except.ok.injEq, Prod.mk.injEq] at hread
      rw [← hread.1]
    · split at hread <;>
      · rw [Except.ok.injEq, Prod.mk.injEq] at hread
        rw [← hread.1]

/-- **A read that returns gives the answer of the device.** -/
theorem read (h : StandsFor d a) {p q : ℤ} {interrupted : Bool} {avail count : ℕ} {r : Reply}
    (hread : aesdRead d p interrupted avail count = .ok (r, q, d')) :
    ∃ a', a.read p interrupted avail count = (r, q, a') ∧ StandsFor d' a' := by
  have hout := aesdRead_outcome h.wf p interrupted avail count
  have hlen := h.length_current
  unfold LogDevice.read
  rw [hread] at hout
  simp only [h.readLast, h.readCount]
  have hq := (Quiet.of_readOutcome hout).1
  cases hout with
  | interrupted hint => exact ⟨a, by rw [if_pos hint], h⟩
  | nothing hint hsize =>
    refine ⟨a, ?_, h⟩
    rw [if_neg (by simp [hint]), if_pos (hlen ▸ hsize)]
  | stopped hint hsize hten =>
    refine ⟨{ a with readCounter := 0 }, ?_, h.quiet hq h.cursor rfl⟩
    rw [if_neg (by simp [hint]), if_neg (hlen ▸ hsize), if_pos (h.counter ▸ hten)]
  | fault hint hsize hten hfail =>
    refine ⟨a, ?_, h⟩
    subst hint
    obtain ⟨left, hcopy⟩ := copyToUser_of_aesdRead hsize hten hread
    rw [if_neg Bool.false_ne_true, if_neg (hlen ▸ hsize), if_neg (h.counter ▸ hten),
      if_neg (by omega), ← h.copied_of_fault hsize hcopy]
  | served hint hsize hten hle havail hlt =>
    refine ⟨_, ?_, h.quiet hq rfl rfl⟩
    rw [if_neg (by simp [hint]), if_neg (hlen ▸ hsize), if_neg (h.counter ▸ hten),
      if_pos ⟨hlt, havail⟩, h.current, Driver.served, h.counter, h.cursor]

/-! ## Writing -/

/-- Only the partial entry has changed. -/
theorem accumulated (h : StandsFor d a) {data : List UInt8} (hw : d'.Wf)
    (hslots : ∀ j, d'.slotBytes j = d.slotBytes j) (hring : d'.dev.bufferP = d.dev.bufferP)
    (hcounter : d'.dev.readCounter = d.dev.readCounter) (hpending : d'.pending = data)
    (hblock : d'.dev.entry.buffptr = none ↔ data = []) :
    StandsFor d' { a with pending := data } where
  wf := hw
  ring := h.ring.congr (by decide) fun j _ => hslots j
  inOffs := by rw [hring]; exact h.inOffs
  cursor := by rw [hring]; exact h.cursor
  full := by rw [hring]; exact h.full
  counter := hcounter.trans h.counter
  pending := hpending
  block := hblock

/-- An entry was handed over. -/
theorem appended (h : StandsFor d a) {data : List UInt8} {entry : AesdBufferEntry} (hw : d'.Wf)
    (hslots : ∀ j, d'.slotBytes j = if j = d.dev.bufferP.inOffs then data else d.slotBytes j)
    (hring : d'.dev.bufferP = (aesdCircularBufferAddEntry d.dev.bufferP entry).2)
    (hcounter : d'.dev.readCounter = d.dev.readCounter)
    (hentry : d'.dev.entry.buffptr = none) : StandsFor d' (a.append data) where
  wf := hw
  ring := by
    refine h.ring.push (by decide) fun j _ => ?_
    rw [hslots, h.inOffs]
  inOffs := by
    rw [hring, addEntry_inOffs _ h.wf.inOffs_lt, h.inOffs, LogDevice.append, List.length_append,
      List.length_singleton, Nat.mod_add_mod]
  cursor := by
    rw [hring, addEntry_outOffs _ h.wf.inOffs_lt, h.full, h.cursor, LogDevice.append]
  full := by
    rw [hring, addEntry_full _ h.wf.inOffs_lt, h.full, h.cursor, h.inOffs, LogDevice.append]
  counter := hcounter.trans h.counter
  pending := Driver.pending_of_null hentry
  block := by simp [hentry, LogDevice.append]

/-- The beginning of a command that could not be copied completely stays, with zeros for
what is missing. -/
theorem pending_of_fault {p q : ℤ} {alloc : Option (ℕ → UInt8)} {buf : List UInt8} {count : ℕ}
    {r : Reply} (hptr : d.dev.entry.buffptr = none) (hshort : buf.length < count)
    (hsmall : count < 2 ^ 31)
    (hwrite : aesdWrite d p false alloc buf count = .ok (r, q, d')) :
    d'.pending = padded buf count := by
  simp only [aesdWrite, Bool.false_eq_true, if_false, hptr, aesdWriteNew] at hwrite
  rcases kmalloc_cases d.heap alloc count with ⟨hk, -⟩ | ⟨block, hk, hblock, -, -⟩
  · -- nothing is written through `NULL`
    simp only [hk] at hwrite
    split at hwrite
    · exact absurd hwrite (by simp)
    · next left heap hcopy =>
      rcases copyFromUser_ok hcopy with ⟨hbig, -, -⟩ | ⟨-, -, hstore⟩
      · omega
      · have hnil := (store_null_ok hstore).1
        have hlen := length_padded buf count
        rw [hnil, List.length_nil] at hlen
        omega
  · simp only [hk] at hwrite
    split at hwrite
    · exact absurd hwrite (by simp)
    · next left heap hcopy =>
      rcases copyFromUser_fresh_ok (Nat.zero_le _) hcopy with
        ⟨hbig, -, -⟩ | ⟨-, hleft, -, rfl⟩
      · omega
      · have hfill : block.take 0 ++ padded buf count ++ block.drop (0 + count) =
            padded buf count := by
          rw [Nat.zero_add, List.drop_of_length_le (by omega)]
          simp
        rw [if_pos (by omega), hfill] at hwrite
        simp only [Except.ok.injEq, Prod.mk.injEq] at hwrite
        rw [← hwrite.2.2, Driver.pending]
        exact bytesAt_of_data? (BlockHeap.data?_alloc_fresh _ _)

/-- A block left behind does not change the partial entry. -/
theorem pending_of_heap (hw : d.Wf) (hptr : d.dev.entry.buffptr ≠ none) {heap : Heap}
    (hheap : heap = d.heap ∨ ∃ block, heap = d.heap.alloc block) :
    Driver.pending { d with heap } = d.pending := by
  obtain ⟨i, hi⟩ := Option.ne_none_iff_exists'.mp hptr
  have hdata := (hw.pending_data hi).1
  rcases hheap with rfl | ⟨block, rfl⟩
  · rfl
  · rw [Driver.pending, hi]
    exact bytesAt_of_data? (BlockHeap.data?_alloc_of_some block hdata)

/-- A write that commits nothing leaves the slots alone. -/
theorem slotBytes_of_write (h : StandsFor d a) {p q : ℤ} {interrupted : Bool}
    {alloc : Option (ℕ → UInt8)} {buf : List UInt8} {count : ℕ} {r : Reply}
    (hout : WriteOutcome d p interrupted alloc buf count (.ok (r, q, d')))
    (hnone : r.commit = none) (j : ℕ) : d'.slotBytes j = d.slotBytes j := by
  rw [hout.slotBytes h.wf, hnone, Option.getD_none, ite_self]

/-- **A write that returns gives the answer of the device**, wherever its block came
from. -/
theorem write (h : StandsFor d a) {p q : ℤ} {interrupted : Bool} {alloc : Option (ℕ → UInt8)}
    {buf : List UInt8} {count : ℕ} {r : Reply}
    (hwrite : aesdWrite d p interrupted alloc buf count = .ok (r, q, d')) :
    ∃ a', a.write p interrupted buf count = (r, q, a') ∧ StandsFor d' a' := by
  have hout := aesdWrite_outcome h.wf p interrupted alloc buf count
  rw [hwrite] at hout
  have hw := hout.wf h.wf
  have hslots := hout.slotBytes h.wf
  have hkeep := h.slotBytes_of_write hout
  unfold LogDevice.write
  rw [← h.pending]
  cases hout with
  | interrupted hint => exact ⟨a, by rw [if_pos hint], h⟩
  | faultOngoing hint hptr hbad hheap =>
    have hne : d.pending ≠ [] := by rw [h.pending]; exact mt h.block.mpr hptr
    have hpend := pending_of_heap h.wf hptr hheap
    refine ⟨a, ?_, ?_⟩
    · rw [if_neg (by simp [hint]), if_neg, if_neg (fun hb => hne hb.1)]
      rintro ⟨hle, hlen⟩
      rw [List.length_append, List.length_take] at hlen
      omega
    · exact h.accumulated hw (hkeep rfl) rfl rfl (hpend.trans h.pending) h.block
  | faultNew hint hptr hshort hlen hlt =>
    have hnil : d.pending = [] := Driver.pending_of_null hptr
    subst hint
    refine ⟨{ a with pending := padded buf count }, ?_, ?_⟩
    · rw [if_neg Bool.false_ne_true, if_neg (fun hb => absurd hb.1 (by omega)),
        if_pos ⟨hnil, hlt⟩]
    · refine h.accumulated hw (hkeep rfl) rfl rfl (pending_of_fault hptr hshort hlt hwrite) ?_
      have hpos : (padded buf count).length ≠ 0 := by rw [length_padded]; omega
      simpa using fun h0 => hpos (by rw [h0, List.length_nil])
  | refused hint hptr hbig =>
    have hnil : d.pending = [] := Driver.pending_of_null hptr
    refine ⟨a, ?_, ?_⟩
    · rw [if_neg (by simp [hint]), if_neg, if_neg (fun hb => absurd hb.2 (by omega))]
      rintro ⟨hle, hlen⟩
      rw [List.length_append, List.length_take] at hlen
      omega
    · exact h.accumulated hw (hkeep rfl) rfl rfl (hnil.symm.trans h.pending)
        (iff_of_true rfl (h.pending ▸ hnil))
  | empty hint hnone hzero hnil =>
    subst hzero
    refine ⟨a.append [], ?_, ?_⟩
    · rw [if_neg (by simp [hint]), hnil, List.take_zero, List.append_nil,
        if_pos ⟨Nat.zero_le _, by decide⟩, if_pos (show Committable [] from Or.inl rfl)]
      rfl
    · exact h.appended hw hslots rfl rfl rfl
  | kept hint hsome hle hlen hc =>
    refine ⟨{ a with pending := d.pending ++ buf.take count }, ?_, ?_⟩
    · rw [if_neg (by simp [hint]), if_pos ⟨hle, hlen⟩, if_neg hc]
    · refine h.accumulated hw (hkeep rfl) rfl rfl (Driver.pending_filled h.wf _) ?_
      exact iff_of_false (by simp [Driver.filled]) fun h0 => hc (Or.inl h0)
  | committed hint hsome hle hlen hc =>
    refine ⟨a.append (d.pending ++ buf.take count), ?_, ?_⟩
    · rw [if_neg (by simp [hint]), if_pos ⟨hle, hlen⟩, if_pos hc]
    · exact h.appended hw hslots rfl rfl rfl

/-! ## Seeking -/

/-- A seek gives the answer of the device. -/
theorem seek (h : StandsFor d a) (p : ℤ) (interrupted : Bool) (offset : Int64)
    (whence : Int32) :
    aesdLlseek d p interrupted offset whence = a.seek p interrupted offset whence := by
  have htotal : totalSize d = a.stored.length := by rw [totalSize_eq h.wf, h.stored]
  unfold aesdLlseek LogDevice.seek
  rw [htotal, ← h.cursor]
  exact rfl

/-- Seeking to a byte of a slot gives the answer of the device. -/
theorem seekSlot (h : StandsFor d a) (p : ℤ) (interrupted : Bool) (seekto : AesdSeekto) :
    aesdAdjustFileOffset d p interrupted seekto.writeCmd seekto.writeCmdOffset =
      a.seekSlot p interrupted seekto := by
  unfold LogDevice.seekSlot
  cases interrupted with
  | true => rw [Driver.adjust_interrupted, if_pos rfl]
  | false =>
    rw [if_neg Bool.false_ne_true]
    rcases le_or_gt 10 seekto.writeCmd.toNat with hge | hlt
    · rw [Driver.adjust_of_ge hge, if_neg (by omega)]
    · have hsize := h.length_slot hlt
      by_cases hin : seekto.writeCmdOffset.toNat < (a.slot seekto.writeCmd.toNat).length
      · have hwalk : walk 10 d.slotBytes 0 seekto.writeCmd.toNat =
            walk 10 a.slot 0 seekto.writeCmd.toNat :=
          List.map_congr_left fun i _ => h.slot (Nat.mod_lt _ (by decide))
        obtain ⟨hret, hpos⟩ := Driver.adjust_of_lt_size hlt (hsize ▸ hin) p
        rw [if_pos ⟨hlt, hin⟩, ← hwalk]
        exact Prod.ext hret (hpos h.wf)
      · rw [Driver.adjust_of_size_le hlt (by omega), if_neg (fun hb => hin hb.2)]

/-- The control call gives the answer of the device. -/
theorem control (h : StandsFor d a) (p : ℤ) (interrupted : Bool) (cmd : UInt32)
    (arg : List UInt8) (stack : Vector UInt8 8) :
    aesdIoctl d p interrupted cmd arg stack = a.control p interrupted cmd arg stack := by
  unfold LogDevice.control
  by_cases hcmd : cmd = seektoRequest
  · rw [if_pos hcmd, hcmd]
    cases arg with
    | nil => rfl
    | cons b bs => rw [aesdIoctl_seekto, h.seekSlot]
  · rw [if_neg hcmd, aesdIoctl_of_ne hcmd]

end StandsFor

/-! ## Runs -/

/-- The driver stands for the device, and every file is where it is there. -/
def Sys.Refines (s : Sys) (t : LogSys) : Prop :=
  StandsFor s.toDriver t.toLogDevice ∧ s.fPos = t.fPos

namespace Sys

theorem refines_init : init.Refines LogSys.init := by
  refine ⟨⟨init_wf, ?_, rfl, rfl, rfl, rfl, rfl, iff_of_true rfl rfl⟩, rfl⟩
  have hrun : Run step (fun _ _ => True) init [] init := .start
  exact (ring_of_run hrun).1

theorem Refines.after {s : Sys} {t : LogSys} (h : s.Refines t) (file : ℕ) (p : ℤ) {d : Driver}
    {a : LogDevice} (hd : StandsFor d a) : (s.after file p d).Refines (t.after file p a) := by
  refine ⟨hd, ?_⟩
  simp only [Sys.after, LogSys.after, h.2]

/-- A call on a file that is open there is a call on a file that is open here. -/
theorem Refines.onFile {s : Sys} {t : LogSys} (h : s.Refines t) {file : ℕ} {p : ℤ}
    (hp : s.fPos file = some p) (k : ℤ → Reply × LogSys) : t.onFile file k = k p := by
  unfold LogSys.onFile
  rw [← h.2, hp]

theorem Refines.onFile_none {s : Sys} {t : LogSys} (h : s.Refines t) {file : ℕ}
    (hp : s.fPos file = none) (k : ℤ → Reply × LogSys) :
    t.onFile file k = ({ retval := -eBadf }, t) := by
  unfold LogSys.onFile
  rw [← h.2, hp]

/-- A request to a file is answered like the call, if it is on an open file. -/
theorem Refines.step_file {s s' : Sys} {t : LogSys} (h : s.Refines t) {file : ℕ} {r : Reply}
    {k : ℤ → Except Fault (Reply × Sys)} {k' : ℤ → Reply × LogSys}
    (hk : ∀ p, k p = .ok (r, s') → (k' p).1 = r ∧ s'.Refines (k' p).2)
    (hs : s.onFile file k = .ok (r, s')) :
    (t.onFile file k').1 = r ∧ s'.Refines (t.onFile file k').2 := by
  rcases onFile_ok hs with ⟨hp, rfl, rfl⟩ | ⟨p, hp, hs⟩
  · rw [h.onFile_none hp]
    exact ⟨rfl, h⟩
  · rw [h.onFile hp]
    exact hk p hs

/-- **Forward simulation.**  A call that returns gives the answer that the log gives to
its request. -/
theorem refines : Aesd.Refines step LogSys.step Call.request Refines where
  step := by
    intro s s' t c r h hs
    cases c with
    | aesdOpen file =>
      simp only [step, Except.ok.injEq, Prod.mk.injEq] at hs
      obtain ⟨rfl, rfl⟩ := hs
      exact ⟨rfl, h.after file 0 h.1.openFile⟩
    | aesdRelease file =>
      refine h.step_file (fun p hk => ?_) hs
      simp only [Except.ok.injEq, Prod.mk.injEq] at hk
      obtain ⟨rfl, rfl⟩ := hk
      exact ⟨rfl, h.1, by rw [h.2]⟩
    | aesdRead file interrupted avail count =>
      refine h.step_file (fun p hk => ?_) hs
      obtain ⟨p', d, hres, rfl⟩ := map_ok hk
      obtain ⟨a', ha, hrep⟩ := h.1.read hres
      rw [ha]
      exact ⟨rfl, h.after file p' hrep⟩
    | aesdWrite file interrupted alloc buf count =>
      refine h.step_file (fun p hk => ?_) hs
      obtain ⟨p', d, hres, rfl⟩ := map_ok hk
      obtain ⟨a', ha, hrep⟩ := h.1.write hres
      rw [ha]
      exact ⟨rfl, h.after file p' hrep⟩
    | aesdLlseek file interrupted offset whence =>
      refine h.step_file (fun p hk => ?_) hs
      simp only [Except.ok.injEq, Prod.mk.injEq] at hk
      obtain ⟨rfl, rfl⟩ := hk
      rw [h.1.seek]
      exact ⟨rfl, h.after file _ h.1⟩
    | aesdIoctl file interrupted cmd arg stack =>
      refine h.step_file (fun p hk => ?_) hs
      simp only [Except.ok.injEq, Prod.mk.injEq] at hk
      obtain ⟨rfl, rfl⟩ := hk
      rw [h.1.control]
      exact ⟨rfl, h.after file _ h.1⟩

end Sys

/-- **The driver refines the log.**  In every run, with any calls and whatever the kernel's
part of them does, the replies are those of the log to the same requests, and what is
stored, what is pending and where the files are is the same. -/
theorem replies_eq_answers {ok : Sys → Call → Prop} {hist : List (Call × Reply)} {s : Sys}
    (h : Run Sys.step ok Sys.init hist s) :
    let t := endState LogSys.step LogSys.init (requests Call.request hist)
    replies hist = answers LogSys.step LogSys.init (requests Call.request hist) ∧
      s.stored = t.stored ∧ s.pending = t.pending ∧ s.fPos = t.fPos := by
  obtain ⟨hreplies, hrep, hpos⟩ := Sys.refines.run Sys.refines_init h
  exact ⟨hreplies, hrep.stored, hrep.pending, hpos⟩

/-- A write that cannot copy everything, the rest of the line, and a read of it. -/
theorem replies_eq_answers_fault :
    ∃ hist s, Run Sys.step (fun _ _ => True) Sys.init hist s ∧
      replies hist = answers LogSys.step LogSys.init
        [.openFile 0, .write 0 false [97] 2, .write 0 false [10] 1, .read 0 false 9 9] := by
  obtain ⟨hist, s, hrun, hreq⟩ := exists_run_of_replay Sys.step (fun _ _ => True) Sys.init
    [.aesdOpen 0, .aesdWrite 0 false (some fun _ => 7) [97] 2, writeLine [10],
      .aesdRead 0 false 9 9]
    (fun hist _ => requests Call.request hist =
      [.openFile 0, .write 0 false [97] 2, .write 0 false [10] 1, .read 0 false 9 9])
    (by decide +kernel)
  refine ⟨hist, s, hrun, ?_⟩
  rw [← hreq]
  exact (replies_eq_answers hrun).1

end Aesd
