import Aesd.Server.Device

/-!
# What the device makes of the lines

Each connection hands its line to a stream, the streams write it in pieces, and the driver
puts lines together from what it is handed by any of them.  It comes out right because of
`file_mutex`: it is held from before the first piece of a line until after the last, so what
the driver has not committed is the beginning of one line, of which the owner of the mutex
has the rest (`unwritten`).

What is read back is another matter.  The size of the reply is what `lseek` returned, and
that was the number of a slot, so a reply has at most nine bytes, and they are the beginning
of one line.
-/

namespace Aesd

open FixedWidth

/-- The lines that the mutex was taken for, in that order. -/
def lockedLines (hist : List ((ℕ × Stroke) × Deed)) : List (List UInt8) :=
  hist.flatMap fun e => e.2.action.line

/-- The calls on the stream. -/
def Action.onStream : Action → Bool
  | .fopen | .fputs _ | .fclose _ => true
  | _ => false

namespace DeviceThreads

/-- The streams work: they can be opened, and what they write is written. -/
def StreamsWork (s : DeviceThreads) (e : ℕ × Stroke) : Prop :=
  (s.thread e.1).action.any Action.onStream = true → e.2.answer ≠ .failed

instance (s : DeviceThreads) (e : ℕ × Stroke) : Decidable (StreamsWork s e) :=
  inferInstanceAs (Decidable (_ → _))

/-- What the owner of the mutex has in hand. -/
def unwritten (s : DeviceThreads) : List (List UInt8) :=
  match s.shared.fileMutex with
  | none => []
  | some t => (s.thread t).inHand

end DeviceThreads

/-! ## The driver -/

/-- A write that is not refused appends, and commits a line if there is one. -/
theorem Sys.step_appended {s s' : Sys} {file : ℕ} {interrupted : Bool}
    {alloc : Option (ℕ → UInt8)} {buf : List UInt8} {count : UInt64} {r : Reply} (hw : s.Wf)
    (hs : s.step (.aesdWrite file interrupted alloc buf count) = .ok (r, s'))
    (hret : 0 ≤ r.retval) :
    (Committable (s.pending ++ buf.take count.toNat) ∧
        r.commit = some (s.pending ++ buf.take count.toNat) ∧ s'.pending = []) ∨
      (¬ Committable (s.pending ++ buf.take count.toNat) ∧ r.commit = none ∧
        s'.pending = s.pending ++ buf.take count.toNat) := by
  cases Sys.step_outcome hw hs with
  | notOpen => exact absurd hret (by decide)
  | aesdWrite _ hout =>
    cases hout with
    | interrupted | faultOngoing | faultNew | refused => exact absurd hret (by decide)
    | empty _ _ hzero hnil =>
      rw [hzero, List.take_zero, List.append_nil, hnil]
      exact Or.inl ⟨Or.inl rfl, rfl, Driver.pending_handed⟩
    | kept _ _ _ _ hc => exact Or.inr ⟨hc, rfl, Driver.pending_filled hw _⟩
    | committed _ _ _ _ hc => exact Or.inl ⟨hc, rfl, Driver.pending_handed⟩

/-- Any other call leaves the partial entry alone. -/
theorem Sys.step_not_write {s s' : Sys} {c : Call} {r : Reply} (hw : s.Wf)
    (hs : s.step c = .ok (r, s'))
    (hc : ∀ file interrupted alloc buf count, c ≠ .aesdWrite file interrupted alloc buf count) :
    r.commit = none ∧ s'.pending = s.pending := by
  rcases Sys.step_cases hw hs with ⟨hq, hnone⟩ | ⟨_, _, _, _, _, _, _, heq, -⟩
  · exact ⟨hnone, hq.pending⟩
  · exact absurd heq (hc _ _ _ _ _)

/-- Only a stream writes. -/
theorem ne_aesdWrite {t : ℕ} {k : KernelPart} {a : Answer} {act : Action} {call : Call}
    (happ : act.appended = []) (hcall : deviceCall t k a act = some call) (file : ℕ)
    (interrupted : Bool) (alloc : Option (ℕ → UInt8)) (buf : List UInt8) (count : UInt64) :
    call ≠ .aesdWrite file interrupted alloc buf count := by
  rintro rfl
  cases act with
  | fclose pending => cases happ
  | release r v => cases r <;> cases v <;> simp [deviceCall] at hcall
  | _ => simp [deviceCall] at hcall

/-! ## The owner of the mutex -/

namespace DeviceThreads

variable {ok : DeviceThreads → ℕ × Stroke → Prop} {hist : List ((ℕ × Stroke) × Deed)}
  {s s' : DeviceThreads} {t : ℕ} {x : Stroke} {d : Deed} {c : Conn} {w : Device}

/-- If the mutex stays where it is and the thread keeps what it has in hand, so does the
owner. -/
theorem unwritten_keep (hmutex : w.fileMutex = s.shared.fileMutex)
    (hhand : c.inHand = (s.thread t).inHand) :
    unwritten ⟨w, Function.update s.thread t c⟩ = s.unwritten := by
  rw [unwritten, unwritten]
  dsimp only
  rw [hmutex]
  cases hm : s.shared.fileMutex with
  | none => rfl
  | some u =>
    dsimp only
    by_cases hu : u = t
    · subst hu
      rw [Function.update_self, hhand]
    · rw [Function.update_of_ne hu]

theorem unwritten_self (hmutex : w.fileMutex = some t) :
    unwritten ⟨w, Function.update s.thread t c⟩ = c.inHand := by
  simp [unwritten, hmutex]

/-- **What a turn does to the line in hand**: nothing; it takes the mutex for a line; it
writes a piece of it; it writes what is left. -/
inductive Handled (s : DeviceThreads) (x : Stroke) (d : Deed) (s' : DeviceThreads) : Prop where
  | kept (hline : d.action.line = []) (happ : d.action.appended = [])
      (hsame : s'.unwritten = s.unwritten)
  | taken (line : List UInt8) (hd : d = .did (.lockAppend line)) (hold : s.unwritten = [])
      (hnew : s'.unwritten = [line])
  | piece (pending : List UInt8) (n : ℕ) (hpos : 0 < n) (hlt : n < pending.length)
      (hd : d = .flushed (pending.take n)) (hx : x.answer ≠ .failed)
      (hold : s.unwritten = [pending]) (hnew : s'.unwritten = [pending.drop n])
  | rest (pending : List UInt8) (hd : d = .did (.fclose pending)) (hx : x.answer ≠ .failed)
      (hold : s.unwritten = [pending]) (hnew : s'.unwritten = [])

/-- A step that neither takes nor gives back the mutex, and keeps what is in hand. -/
theorem Handled.of_keep {act : Action} (hop : act.lockOp = .keep) (happ : act.appended = [])
    (hmutex : w.fileMutex = act.lockOp.ownerAfter t s.shared.fileMutex)
    (hhand : c.inHand = (s.thread t).inHand) :
    Handled s x (.did act) ⟨w, Function.update s.thread t c⟩ := by
  rw [hop] at hmutex
  exact .kept (line_eq_nil (by simp [Deed.action, hop])) happ (unwritten_keep hmutex hhand)

theorem handled_of_step (howner : ∀ u, (s.thread u).holds = true ↔ s.shared.fileMutex = some u)
    (hok : StreamsWork s (t, x)) (hs : (s.thread t).stroke x = .ok (d, c))
    (hgrant : s.shared.Granted t d x w) :
    Handled s x d ⟨w, Function.update s.thread t c⟩ := by
  obtain ⟨hmutex, hfree⟩ := hgrant.fileMutex
  have hmine : (s.thread t).holds = true → s.unwritten = (s.thread t).inHand := fun hheld => by
    rw [unwritten, (howner t).mp hheld]
  rcases Conn.stroke_cases hs with
    ⟨-, act, rfl, hstep⟩ | ⟨n, pending, -, hpc, hpos, hlt, rfl, rfl⟩
  · cases Conn.moves_of_step hstep with
    | lockAppend line h =>
      refine .taken line rfl ?_ (unwritten_self hmutex)
      rw [unwritten, hfree rfl]
    | lockReadBack h =>
      refine .kept rfl rfl ((unwritten_self hmutex).trans ?_)
      rw [unwritten, hfree rfl]
      rfl
    | unlockAppend h =>
      refine .kept rfl rfl ?_
      rw [hmine (by simp [Conn.holds, h]), unwritten]
      simp [hmutex, Deed.action, Action.lockOp, LockOp.ownerAfter, Conn.inHand, h]
    | unlock rest h =>
      refine .kept rfl rfl ?_
      rw [hmine (by simp [Conn.holds, h]), unwritten]
      simp [hmutex, Deed.action, Action.lockOp, LockOp.ownerAfter, Conn.inHand, h]
    | fopenFailed line h ha =>
      exact absurd ha (hok (by simp [Conn.action, h, Action.onStream]))
    | fputsFailed line h ha =>
      exact absurd ha (hok (by simp [Conn.action, h, Action.onStream]))
    | fclose pending h =>
      have hheld : (s.thread t).holds = true := by simp [Conn.holds, h]
      refine .rest pending rfl (hok (by simp [Conn.action, h, Action.onStream])) ?_ ?_
      · rw [hmine hheld]
        simp [Conn.inHand, h]
      · rw [unwritten_self (hmutex.trans ((howner t).mp hheld))]
        rfl
    | dropped h => exact .of_keep rfl rfl hmutex rfl
    | _ => exact .of_keep rfl rfl hmutex (by simp [Conn.inHand, *])
  · have hheld : (s.thread t).holds = true := by simp [Conn.holds, hpc]
    have hne : x.answer ≠ .failed := hok (by simp [Conn.action, hpc, Action.onStream])
    refine .piece pending n hpos hlt rfl hne ?_ ?_
    · rw [hmine hheld]
      simp [Conn.inHand, hpc]
    · rw [unwritten_self (hmutex.trans ((howner t).mp hheld)), if_neg hne]
      rfl

end DeviceThreads

/-! ## Lines are short -/

/-- The lines that the thread has are as short as what it received. -/
def Conn.Short (c : Conn) : Prop := ∀ l ∈ c.pending ++ c.inHand, l.length < buffsize

theorem short_stroke {c c' : Conn} {x : Stroke} {d : Deed} {t : ℕ} {w w' : Device}
    (hc : c.Short) (hs : c.stroke x = .ok (d, c')) (hgrant : w.Granted t d x w') : c'.Short := by
  rcases Conn.stroke_cases hs with
    ⟨-, act, rfl, hstep⟩ | ⟨n, pending, -, hpc, hpos, hlt, rfl, rfl⟩
  · cases Conn.moves_of_step hstep with
    | line h hseek hlast =>
      have hshort : x.answer.bytes.length < buffsize := by
        cases hgrant with
        | noCall _ _ hposs => simpa [Deed.action, Action.possible] using hposs
        | acquire hop | release hop => cases hop
        | call _ _ _ _ hcall => cases hcall
      have hle : (cString x.answer.bytes).length ≤ x.answer.bytes.length :=
        (List.takeWhile_prefix _).length_le
      intro l hl
      obtain rfl : l = cString x.answer.bytes := by simpa [Conn.pending, Conn.inHand] using hl
      omega
    | fputsFailed => simp [Conn.Short, Conn.pending, Conn.inHand, buffsize]
    | dropped => exact hc
    | _ => simp_all [Conn.Short, Conn.pending, Conn.inHand]
  · have hpending : pending.length < buffsize := hc pending (by simp [Conn.inHand, hpc])
    intro l hl
    obtain rfl : l = if x.answer = .failed then [] else pending.drop n := by
      simpa [Conn.pending, Conn.inHand] using hl
    split
    · simp [buffsize]
    · rw [List.length_drop]
      omega

/-- **In every run, lines are short.** -/
theorem DeviceThreads.short_of_run {ok : DeviceThreads → ℕ × Stroke → Prop}
    {hist : List ((ℕ × Stroke) × Deed)} {s : DeviceThreads} (h : Run step ok init hist s) (t : ℕ) :
    (s.thread t).Short := by
  induction h generalizing t with
  | start => exact fun l hl => absurd hl (by simp [init, Conn.start, Conn.pending, Conn.inHand])
  | @call hist s s' e d _ _ hs ih =>
    obtain ⟨c, w, hstroke, hgrant, rfl⟩ := step_iff.mp hs
    show (Function.update s.thread e.1 c t).Short
    by_cases ht : t = e.1
    · subst ht
      rw [Function.update_self]
      exact short_stroke (ih _) hstroke hgrant
    · rw [Function.update_of_ne ht]
      exact ih t

/-! ## What becomes of a line -/

namespace DeviceThreads

variable {hist : List ((ℕ × Stroke) × Deed)} {s s' : DeviceThreads} {e : ℕ × Stroke} {d : Deed}
  {c : Conn} {w : Device}

theorem lockedLines_concat :
    lockedLines (hist ++ [(e, d)]) = lockedLines hist ++ d.action.line := by
  simp [lockedLines]

theorem commits_concat : commits (callsOf (hist ++ [(e, d)])) =
    commits (callsOf hist) ++ commits (callsOf [(e, d)]) := by
  rw [callsOf_append, commits_append]

/-- A deed that writes nothing commits nothing. -/
theorem commits_kept (hw : s.shared.sys.Wf) (hgrant : s.shared.Granted e.1 d e.2 w)
    (hnot : ∀ call, deviceCall e.1 e.2.kernel e.2.answer d.action = some call →
      ∀ file interrupted alloc buf count, call ≠ .aesdWrite file interrupted alloc buf count) :
    commits (callsOf [(e, d)]) = [] ∧ w.sys.pending = s.shared.sys.pending := by
  rcases hgrant.driver with ⟨hcall, hsys⟩ | ⟨call, hcall, hstep, -⟩
  · exact ⟨by simp [callsOf, hcall], by rw [hsys]⟩
  · obtain ⟨hcommit, hpending⟩ := Sys.step_not_write hw hstep (hnot call hcall)
    exact ⟨by simp [callsOf, hcall, commits, hcommit], hpending⟩

/-- A piece that is written is appended, and completes the line if it does. -/
theorem commits_wrote (hw : s.shared.sys.Wf) (hgrant : s.shared.Granted e.1 d e.2 w)
    {piece : List UInt8} (hd : d.action = .fclose piece) (hne : piece ≠ [])
    (hshort : piece.length < buffsize) (hanswer : e.2.answer ≠ .failed) :
    (Committable (s.shared.sys.pending ++ piece) ∧
        commits (callsOf [(e, d)]) = [s.shared.sys.pending ++ piece] ∧ w.sys.pending = []) ∨
      (¬ Committable (s.shared.sys.pending ++ piece) ∧ commits (callsOf [(e, d)]) = [] ∧
        w.sys.pending = s.shared.sys.pending ++ piece) := by
  have hcall : deviceCall e.1 e.2.kernel e.2.answer d.action =
      some (.aesdWrite (2 * e.1 + 1) e.2.kernel.interrupted e.2.kernel.alloc piece
        (.ofNat piece.length)) := by
    rw [hd, deviceCall, if_neg hne]
  rcases hgrant.driver with ⟨hnone, -⟩ | ⟨call, hsome, hstep, heq⟩
  · exact absurd (hcall.symm.trans hnone) (by simp)
  · obtain rfl := Option.some.inj (hcall.symm.trans hsome)
    have hret : 0 ≤ e.2.reply.retval := by
      by_contra hneg
      exact hanswer (heq.trans (if_pos (by omega)))
    have htake : piece.take (UInt64.ofNat piece.length).toNat = piece := by
      have hsmall : piece.length < 2 ^ 64 := by
        rw [buffsize] at hshort
        omega
      rw [UInt64.toNat_ofNat', Nat.mod_eq_of_lt hsmall, List.take_length]
    have hone : commits (callsOf [(e, d)]) = e.2.reply.commit.toList := by
      simp only [callsOf, List.flatMap_singleton, hcall, Option.map_some, Option.toList_some]
      exact Aesd.commits_concat [] _
    have happ := Sys.step_appended hw hstep hret
    rw [htake] at happ
    rw [hone]
    rcases happ with ⟨hc, hcommit, hpending⟩ | ⟨hc, hcommit, hpending⟩
    · exact Or.inl ⟨hc, by rw [hcommit]; rfl, hpending⟩
    · exact Or.inr ⟨hc, by rw [hcommit]; rfl, hpending⟩

/-- What was committed, what is pending and what is in hand are the lines that the mutex was
taken for; and if those are lines, all but the last are committed. -/
structure Conserved (hist : List ((ℕ × Stroke) × Deed)) (s : DeviceThreads) : Prop where
  stream : (commits (callsOf hist)).flatten ++ s.shared.sys.pending ++ s.unwritten.flatten =
    (lockedLines hist).flatten
  whole : (∀ l ∈ lockedLines hist, Line eol l) →
    (s.unwritten = [] ∧ s.shared.sys.pending = [] ∧
        lockedLines hist = commits (callsOf hist)) ∨
      ∃ u, s.unwritten = [u] ∧ u ≠ [] ∧
        lockedLines hist = commits (callsOf hist) ++ [s.shared.sys.pending ++ u]

theorem conserved_init : Conserved [] init where
  stream := rfl
  whole _ := Or.inl ⟨rfl, rfl, rfl⟩

/-- A deed that leaves the stream alone. -/
theorem Conserved.kept (h : Conserved hist s) (hline : d.action.line = [])
    (hsame : s'.unwritten = s.unwritten)
    (hcommits : commits (callsOf [(e, d)]) = [] ∧ s'.shared.sys.pending = s.shared.sys.pending) :
    Conserved (hist ++ [(e, d)]) s' := by
  constructor
  · rw [commits_concat, lockedLines_concat, hcommits.1, hcommits.2, hline, hsame,
      List.append_nil, List.append_nil]
    exact h.stream
  · rw [commits_concat, lockedLines_concat, hcommits.1, hcommits.2, hline, hsame,
      List.append_nil, List.append_nil]
    exact h.whole

/-- A deed that takes the mutex for a line. -/
theorem Conserved.taken (h : Conserved hist s) {line : List UInt8} (hline : d.action.line = [line])
    (hold : s.unwritten = []) (hnew : s'.unwritten = [line])
    (hcommits : commits (callsOf [(e, d)]) = [] ∧ s'.shared.sys.pending = s.shared.sys.pending) :
    Conserved (hist ++ [(e, d)]) s' := by
  constructor
  · have hstream := h.stream
    rw [hold, List.flatten_nil, List.append_nil] at hstream
    rw [commits_concat, lockedLines_concat, hcommits.1, hcommits.2, hline, hnew,
      List.append_nil, hstream, List.flatten_append]
  · intro hlines
    rw [lockedLines_concat, hline] at hlines
    rcases h.whole fun l hl => hlines l (List.mem_append_left _ hl) with
      ⟨-, hpending, hall⟩ | ⟨u, hu, -⟩
    · refine Or.inr ⟨line, hnew, (hlines line (by simp)).ne_nil, ?_⟩
      rw [commits_concat, lockedLines_concat, hcommits.1, hcommits.2, hline, hpending,
        List.append_nil, List.nil_append, hall]
    · exact absurd (hu.symm.trans hold) (by simp)

/-- A deed that writes a piece of the line in hand, or what is left of it. -/
theorem Conserved.wrote (h : Conserved hist s) {piece : List UInt8} (left : List UInt8)
    (hne : piece ≠ []) (hline : d.action.line = []) (hold : s.unwritten = [piece ++ left])
    (hnew : s'.unwritten = if left = [] then [] else [left])
    (hcommits : (Committable (s.shared.sys.pending ++ piece) ∧
        commits (callsOf [(e, d)]) = [s.shared.sys.pending ++ piece] ∧
        s'.shared.sys.pending = []) ∨
      (¬ Committable (s.shared.sys.pending ++ piece) ∧ commits (callsOf [(e, d)]) = [] ∧
        s'.shared.sys.pending = s.shared.sys.pending ++ piece)) :
    Conserved (hist ++ [(e, d)]) s' := by
  have hleft : s'.unwritten.flatten = left := by
    rw [hnew]
    split
    · next hnil => rw [hnil, List.flatten_nil]
    · simp
  constructor
  · have hstream := h.stream
    rw [hold, List.flatten_singleton] at hstream
    rw [commits_concat, lockedLines_concat, hline, List.append_nil, ← hstream, hleft]
    rcases hcommits with ⟨-, hc, hp⟩ | ⟨-, hc, hp⟩
    · rw [hc, hp]
      simp
    · rw [hc, hp]
      simp
  · intro hlines
    rw [lockedLines_concat, hline, List.append_nil] at hlines
    rcases h.whole hlines with ⟨hnone, -⟩ | ⟨u, hu, -, hall⟩
    · exact absurd (hnone.symm.trans hold) (by simp)
    · obtain rfl : u = piece ++ left := by simpa using hu.symm.trans hold
      have hl : Line eol (s.shared.sys.pending ++ (piece ++ left)) :=
        hlines _ (by rw [hall]; simp)
      rw [commits_concat, lockedLines_concat, hline, List.append_nil, hnew]
      by_cases hnil : left = []
      · subst hnil
        rw [List.append_nil] at hl hall
        rcases hcommits with ⟨-, hc, hp⟩ | ⟨hnot, -⟩
        · exact Or.inl ⟨if_pos rfl, hp, by rw [hc, hall]⟩
        · exact absurd (Or.inr hl) hnot
      · -- a line does not end before its end
        have hshorter : ¬ Line eol (s.shared.sys.pending ++ piece) := by
          intro hbad
          have hmem : eol ∈ s.shared.sys.pending ++ piece :=
            List.mem_of_getLast? hbad.getLast?
          rw [← List.append_assoc] at hl
          exact not_line_append hmem hnil hl
        rcases hcommits with ⟨hc, hcommit, hp⟩ | ⟨-, hcommit, hp⟩
        · refine absurd (hc.resolve_left fun hnone => ?_) hshorter
          exact hne (List.append_eq_nil_iff.mp hnone).2
        · refine Or.inr ⟨left, if_neg hnil, hnil, ?_⟩
          rw [hcommit, hp, List.append_nil, hall, List.append_assoc]

/-- A stream is closed that has nothing to write. -/
theorem Conserved.closed (h : Conserved hist s) (hline : d.action.line = [])
    (hold : s.unwritten = [[]]) (hnew : s'.unwritten = [])
    (hcommits : commits (callsOf [(e, d)]) = [] ∧ s'.shared.sys.pending = s.shared.sys.pending) :
    Conserved (hist ++ [(e, d)]) s' := by
  constructor
  · have hstream := h.stream
    rw [hold, List.flatten_singleton, List.append_nil] at hstream
    rw [commits_concat, lockedLines_concat, hcommits.1, hcommits.2, hline, hnew, List.flatten_nil,
      List.append_nil, List.append_nil, List.append_nil, hstream]
  · intro hlines
    rw [lockedLines_concat, hline, List.append_nil] at hlines
    rcases h.whole hlines with ⟨hnone, -⟩ | ⟨u, hu, hne, -⟩
    · exact absurd (hnone.symm.trans hold) (by simp)
    · exact absurd (List.singleton_inj.mp (hu.symm.trans hold)) hne

/-- **In every run whose streams work, nothing is lost and nothing is torn.** -/
theorem conserved_of_run (h : Run step StreamsWork init hist s) : Conserved hist s := by
  induction h with
  | start => exact conserved_init
  | @call hist s s' e d hrun hok hs ih =>
    obtain ⟨c, w, hstroke, hgrant, rfl⟩ := step_iff.mp hs
    have hw := Sys.wf_of_run (run_driver hrun)
    have hshort : ∀ p, s.unwritten = [p] → p.length < buffsize := by
      intro p hp
      rw [unwritten] at hp
      cases hm : s.shared.fileMutex with
      | none => rw [hm] at hp; cases hp
      | some t =>
        rw [hm] at hp
        dsimp only at hp
        exact short_of_run hrun t p (List.mem_append_right _ (by rw [hp]; simp))
    cases handled_of_step (owner_of_run hrun) hok hstroke hgrant with
    | kept hline happ hsame =>
      exact ih.kept hline hsame (commits_kept hw hgrant fun call hcall => ne_aesdWrite happ hcall)
    | taken line hd hold hnew =>
      subst hd
      exact ih.taken rfl hold hnew (commits_kept hw hgrant fun call hcall => ne_aesdWrite rfl hcall)
    | piece pending n hpos hlt hd hx hold hnew =>
      subst hd
      have hne : pending.take n ≠ [] := by
        rw [ne_eq, List.take_eq_nil_iff]
        rintro (hn | hnil)
        · omega
        · rw [hnil] at hlt
          exact absurd hlt (by simp)
      have hleft : pending.drop n ≠ [] := by
        rw [ne_eq, List.drop_eq_nil_iff]
        omega
      have hlen := hshort pending hold
      refine ih.wrote (pending.drop n) hne rfl ?_ ?_ (commits_wrote hw hgrant rfl hne ?_ hx)
      · rw [List.take_append_drop, hold]
      · rw [if_neg hleft, hnew]
      · rw [List.length_take]
        omega
    | rest pending hd hx hold hnew =>
      subst hd
      have hlen := hshort pending hold
      by_cases hnil : pending = []
      · subst hnil
        refine ih.closed rfl hold hnew (commits_kept hw hgrant fun call hcall => ?_)
        simp [Deed.action, deviceCall] at hcall
      · refine ih.wrote [] hnil rfl ?_ ?_ (commits_wrote hw hgrant rfl hnil hlen hx)
        · rw [List.append_nil, hold]
        · rw [if_pos rfl, hnew]

end DeviceThreads

/-- **No line is lost, doubled or torn.**  Any number of connections are open over the device,
they send anything, and their streams write in any pieces; opens, seeks and read-backs of
others come in between.  If the streams work, what the driver committed, what it has pending
and what is still in hand is what the mutex was taken for, in that order.  If each of those
is a line, the driver committed all of them but at most the last; and when nobody has the
mutex it committed all, and the device stores the last ten. -/
theorem lines_conserved {hist : List ((ℕ × Stroke) × Deed)} {s : DeviceThreads}
    (h : Run DeviceThreads.step DeviceThreads.StreamsWork DeviceThreads.init hist s) :
    (commits (callsOf hist)).flatten ++ s.shared.sys.pending ++ s.unwritten.flatten =
        (lockedLines hist).flatten ∧
      ((∀ l ∈ lockedLines hist, Line eol l) →
        (∃ rest, lockedLines hist = commits (callsOf hist) ++ rest ∧ rest.length ≤ 1) ∧
          (s.shared.fileMutex = none → commits (callsOf hist) = lockedLines hist ∧
            s.shared.sys.stored = lastTen (lockedLines hist))) := by
  have hcons := DeviceThreads.conserved_of_run h
  refine ⟨hcons.stream, fun hlines => ⟨?_, fun hfree => ?_⟩⟩
  · rcases hcons.whole hlines with ⟨-, -, hall⟩ | ⟨u, -, -, hall⟩
    · exact ⟨[], by rw [hall, List.append_nil], Nat.zero_le _⟩
    · exact ⟨_, hall, le_rfl⟩
  · have hnone : s.unwritten = [] := by rw [DeviceThreads.unwritten, hfree]
    have hall : lockedLines hist = commits (callsOf hist) := by
      rcases hcons.whole hlines with ⟨-, -, hall⟩ | ⟨u, hu, -⟩
      · exact hall
      · exact absurd (hu.symm.trans hnone) (by simp)
    rw [hall, lastTen]
    exact ⟨rfl, stored_eq (DeviceThreads.run_driver h)⟩

/-- The thread makes its next step; its calls of the driver are served. -/
def Stroke.next (a : Answer) (r : Reply) : Stroke :=
  ⟨none, a, ⟨false, some fun _ => 0, Vector.replicate 8 0⟩, r⟩

/-- The stream writes a piece. -/
def Stroke.piece (n : ℕ) (r : Reply) : Stroke :=
  ⟨some n, .done, ⟨false, some fun _ => 0, Vector.replicate 8 0⟩, r⟩

/-- A connection that appends a line, up to giving back the mutex. -/
def appendStrokes (t : ℕ) : List (ℕ × Stroke) :=
  [(t, .next .done { retval := 0 }), (t, .next .done { retval := 0 }),
    (t, .next (.data [97, 10]) { retval := 0 }), (t, .next .done { retval := 0 }),
    (t, .next .done { retval := 0 }), (t, .next .done { retval := 0 }),
    (t, .next .done { retval := 2, commit := some [97, 10] }), (t, .next .done { retval := 0 })]

/-- Two connections.  The line of the first is written in two pieces, and the second opens the
device in between. -/
theorem lines_conserved_two : ∃ hist s,
    Run DeviceThreads.step DeviceThreads.StreamsWork DeviceThreads.init hist s ∧
      lockedLines hist = [[97, 98, 10], [99, 10]] ∧ s.shared.fileMutex = none ∧
      commits (callsOf hist) = [[97, 98, 10], [99, 10]] ∧
      s.shared.sys.stored = [97, 98, 10, 99, 10] := by
  let ok : Reply := { retval := 0 }
  obtain ⟨hist, s, hrun, hlines, hfree⟩ := exists_run_of_replay DeviceThreads.step
    DeviceThreads.StreamsWork DeviceThreads.init
    [(0, .next .done ok), (0, .next .done ok), (0, .next (.data [97, 98, 10]) ok),
      (0, .next .done ok), (0, .next .done ok), (0, .next .done ok),
      (0, .piece 1 { retval := 1 }), (1, .next .done ok), (1, .next .done ok),
      (1, .next (.data [99, 10]) ok),
      (0, .next .done { retval := 2, commit := some [97, 98, 10] }), (0, .next .done ok),
      (1, .next .done ok), (1, .next .done ok), (1, .next .done ok),
      (1, .next .done { retval := 2, commit := some [99, 10] }), (1, .next .done ok)]
    (fun hist s => lockedLines hist = [[97, 98, 10], [99, 10]] ∧ s.shared.fileMutex = none)
    (by decide +kernel)
  obtain ⟨-, hwhole⟩ := lines_conserved hrun
  obtain ⟨-, hall⟩ := hwhole (by rw [hlines]; decide)
  obtain ⟨hcommits, hstored⟩ := hall hfree
  rw [hlines] at hcommits hstored
  exact ⟨hist, s, hrun, hlines, hfree, hcommits, hstored⟩

end Aesd
