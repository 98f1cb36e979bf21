import Aesd.Driver.Failure
import Aesd.Driver.LateOpen
import Aesd.Driver.Sampling

/-!
# All that is outside the lock

`aesd_read` and `aesd_llseek` sample sizes before they have the lock, and `aesd_open` never has
it.  `Sampling` and `LateOpen` take these apart one at a time; here they are taken apart
together, with any number of calls of each kind on their way at once.  What a call does under
`dev->lock` stays one step.  For the other calls that take the lock this is what the lock is
for; for the store of an open, which takes none, it is an assumption.

If no sample decides anything else than one that is taken under the lock would, and no open
stores too late, then nothing of this can be seen: the calls might as well have been atomic, each
happening when it has the lock (`calls_linearize`).  What happens otherwise is in `Overtaking`.
-/

namespace Aesd

open FixedWidth

/-- The driver, the open files, and all that is on its way. -/
structure Unlocked extends Sys where
  /-- The calls that have sampled. -/
  inFlight : ℕ → Option Sampled
  /-- The opens that have tested. -/
  opening : ℕ → Option Bool

namespace Unlocked

/-- One step. -/
inductive Act where
  /-- Of a call that samples, or an atomic one. -/
  | split (a : Split.Act)
  /-- Of an open, or an atomic one. -/
  | late (a : LateSys.Act)

/-- The loaded driver. -/
def init : Unlocked := { Sys.init with inFlight := fun _ => none, opening := fun _ => none }

/-- Without the opens. -/
def samples (s : Unlocked) : Split := ⟨s.toSys, s.inFlight⟩

/-- Without the samples. -/
def opens (s : Unlocked) : LateSys := ⟨s.toSys, s.opening⟩

/-- One step.  A section under `dev->lock` is one step, also for the store of an open, which
the lock does not keep out. -/
def step (s : Unlocked) : Act → Except Fault (Reply × Unlocked)
  | .split a => (s.samples.step a).map fun q =>
      (q.1, { s with toSys := q.2.toSys, inFlight := q.2.inFlight })
  | .late a => (s.opens.step a).map fun q =>
      (q.1, { s with toSys := q.2.toSys, opening := q.2.opening })

/-- The atomic call of a step, if it is one. -/
def Act.call : Act → Option Call
  | .split (.atomic c) | .late (.atomic c) => some c
  | _ => none

/-- A restriction on the atomic calls. -/
def OnCalls (ok : Sys → Call → Prop) (s : Unlocked) (a : Act) : Prop :=
  ∀ c ∈ a.call, ok s.toSys c

instance (ok : Sys → Call → Prop) [∀ s c, Decidable (ok s c)] (s : Unlocked) (a : Act) :
    Decidable (OnCalls ok s a) :=
  inferInstanceAs (Decidable (∀ c ∈ a.call, ok s.toSys c))

variable {ok : Unlocked → Act → Prop} {hist : List (Act × Reply)} {s s' : Unlocked} {a : Act}
  {r : Reply}

/-! ## Samples that decide nothing -/

/-- A read on a file at `p` ends alike with the sizes `n` and `m`. -/
def SameRead (d : Driver) (n m : ℕ) (p : ℤ) (count : ℕ) : Prop :=
  n = m ∨
    n ≠ 0 ∧ m ≠ 0 ∧ (d.dev.readCounter = 10 ∨ wrapU 64 (p + count) ≤ n ∧ wrapU 64 (p + count) ≤ m)

instance (d : Driver) (n m : ℕ) (p : ℤ) (count : ℕ) : Decidable (SameRead d n m p count) :=
  inferInstanceAs (Decidable (_ ∨ _))

theorem SameRead.locked_eq {d : Driver} {n m : ℕ} {p : ℤ} {count : ℕ}
    (h : SameRead d n m p count) (avail : ℕ) :
    aesdReadLocked d n p avail count = aesdReadLocked d m p avail count := by
  rcases h with rfl | ⟨hn, hm, hten | ⟨hwithin, hwithin'⟩⟩
  · rfl
  · simp only [aesdReadLocked, if_neg hn, if_neg hm, if_pos hten]
  · have hcut : decide (n < wrapU 64 (p + count)) = false := decide_eq_false (not_lt.mpr hwithin)
    have hcut' : decide (m < wrapU 64 (p + count)) = false := decide_eq_false (not_lt.mpr hwithin')
    rw [aesdReadLocked, aesdReadLocked, if_neg hn, if_neg hm, hcut, hcut']
    rfl

/-- A seek on a file at `p` ends alike with the totals `n` and `m`. -/
def SameSeek (d : Driver) (n m p : ℤ) (offset : Int64) (whence : Int32) : Prop :=
  ∀ q ∈ seekTarget d p offset whence, 0 ≤ q → (q ≤ n ↔ q ≤ m)

instance (d : Driver) (n m p : ℤ) (offset : Int64) (whence : Int32) :
    Decidable (SameSeek d n m p offset whence) :=
  inferInstanceAs (Decidable (∀ q ∈ seekTarget d p offset whence, 0 ≤ q → (q ≤ n ↔ q ≤ m)))

theorem SameSeek.locked_eq {d : Driver} {n m p : ℤ} {offset : Int64} {whence : Int32}
    (h : SameSeek d n m p offset whence) :
    aesdLlseekLocked d n p offset whence = aesdLlseekLocked d m p offset whence := by
  rcases aesdLlseekLocked_cases d n p offset whence with
    ⟨q, hq, hpos, hle, hset⟩ | ⟨hrefused, hout⟩
  · rcases aesdLlseekLocked_cases d m p offset whence with
      ⟨q', hq', -, -, hset'⟩ | ⟨-, hout'⟩
    · obtain rfl := Option.some.inj (hq.symm.trans hq')
      rw [hset, hset']
    · have hlt := hout' q hq hpos
      have hle' := (h q hq hpos).mp hle
      omega
  · rcases aesdLlseekLocked_cases d m p offset whence with
      ⟨q', hq', hpos', hle', -⟩ | ⟨hrefused', -⟩
    · have hlt := hout q' hq' hpos'
      have hle := (h q' hq' hpos').mpr hle'
      omega
    · rw [hrefused, hrefused']

/-- The size a read has sampled is as good as what it would sample now. -/
def ReadUpToNow (s : Sys) (interrupted : Bool) (count : ℕ) : Option Sampled → Prop
  | some (.entrySize file n) => interrupted = false →
      ∀ p ∈ s.fPos file, SameRead s.toDriver n s.current.size p count
  | _ => False

instance (s : Sys) (interrupted : Bool) (count : ℕ) (m : Option Sampled) :
    Decidable (ReadUpToNow s interrupted count m) :=
  match m with
  | some (.entrySize _ _) => inferInstanceAs (Decidable (_ → ∀ p ∈ s.fPos _, SameRead ..))
  | some (.totalSize _ _) | none => isFalse id

theorem ReadUpToNow.sampled {s : Sys} {interrupted : Bool} {count : ℕ} {m : Option Sampled}
    (h : ReadUpToNow s interrupted count m) : ∃ file n, m = some (.entrySize file n) := by
  cases m with
  | none => exact absurd h id
  | some m =>
    cases m with
    | entrySize file n => exact ⟨file, n, rfl⟩
    | totalSize file n => exact absurd h id

/-- The total a seek has sampled is as good as what it would sample now. -/
def SeekUpToNow (s : Sys) (interrupted : Bool) (offset : Int64) (whence : Int32) :
    Option Sampled → Prop
  | some (.totalSize file n) => interrupted = false →
      ∀ p ∈ s.fPos file, SameSeek s.toDriver n (totalSize s.toDriver) p offset whence
  | _ => False

instance (s : Sys) (interrupted : Bool) (offset : Int64) (whence : Int32) (m : Option Sampled) :
    Decidable (SeekUpToNow s interrupted offset whence m) :=
  match m with
  | some (.totalSize _ _) => inferInstanceAs (Decidable (_ → ∀ p ∈ s.fPos _, SameSeek ..))
  | some (.entrySize _ _) | none => isFalse id

theorem SeekUpToNow.sampled {s : Sys} {interrupted : Bool} {offset : Int64} {whence : Int32}
    {m : Option Sampled} (h : SeekUpToNow s interrupted offset whence m) :
    ∃ file n, m = some (.totalSize file n) := by
  cases m with
  | none => exact absurd h id
  | some m =>
    cases m with
    | entrySize file n => exact absurd h id
    | totalSize file n => exact ⟨file, n, rfl⟩

theorem lockedRead_eq {s : Split} {call file n : ℕ} {interrupted : Bool} {count : UInt64}
    (hcall : s.inFlight call = some (.entrySize file n))
    (hsame : ReadUpToNow s.toSys interrupted count.toNat (s.inFlight call)) (avail : ℕ) :
    s.step (.lockedRead call interrupted avail count) =
      (s.toSys.step (.aesdRead file interrupted avail count)).map fun q =>
        (q.1, s.finish call q.2) := by
  rw [hcall] at hsame
  simp only [Split.step, hcall, Sys.step, Sys.onFile]
  cases hp : s.fPos file with
  | none => rfl
  | some p =>
    cases interrupted with
    | true => simp only [aesdRead, if_true, Except.map, Sys.after_same hp]
    | false =>
      simp only [aesdRead, Bool.false_eq_true, if_false, (hsame rfl p hp).locked_eq avail]

theorem lockedLlseek_eq {s : Split} {call file : ℕ} {n : ℤ} {interrupted : Bool} {offset : Int64}
    {whence : Int32} (hcall : s.inFlight call = some (.totalSize file n))
    (hsame : SeekUpToNow s.toSys interrupted offset whence (s.inFlight call)) :
    s.step (.lockedLlseek call interrupted offset whence) =
      (s.toSys.step (.aesdLlseek file interrupted offset whence)).map fun q =>
        (q.1, s.finish call q.2) := by
  rw [hcall] at hsame
  simp only [Split.step, hcall, Sys.step, Sys.onFile]
  cases hp : s.fPos file with
  | none => rfl
  | some p =>
    cases interrupted with
    | true => simp only [aesdLlseek, if_true, Sys.after_same hp]
    | false => simp only [aesdLlseek, Bool.false_eq_true, if_false, (hsame rfl p hp).locked_eq]

/-! ## The calls in order -/

/-- No step decides by anything that is out of date. -/
def InTime (s : Unlocked) : Act → Prop
  | .split (.lockedRead call interrupted _ count) =>
      ReadUpToNow s.toSys interrupted count.toNat (s.inFlight call)
  | .split (.lockedLlseek call interrupted offset whence) =>
      SeekUpToNow s.toSys interrupted offset whence (s.inFlight call)
  | .split _ => True
  | .late a => s.opens.Timely a

instance (s : Unlocked) (a : Act) : Decidable (InTime s a) :=
  match a with
  | .split (.lockedRead ..) => inferInstanceAs (Decidable (ReadUpToNow ..))
  | .split (.lockedLlseek ..) => inferInstanceAs (Decidable (SeekUpToNow ..))
  | .split (.sampleEntrySize ..) | .split (.sampleTotalSize ..) | .split (.atomic _) =>
      isTrue trivial
  | .late _ => inferInstanceAs (Decidable (LateSys.Timely ..))

/-- The files of the calls on their way, after a step. -/
def files (file : ℕ → ℕ) : Act → ℕ → ℕ
  | .split (.sampleEntrySize call f) | .split (.sampleTotalSize call f) =>
      Function.update file call f
  | _ => file

/-- The call that happens in a step. -/
def happens (file : ℕ → ℕ) : Act → Option Call
  | .split (.lockedRead call interrupted avail count) =>
      some (.aesdRead (file call) interrupted avail count)
  | .split (.lockedLlseek call interrupted offset whence) =>
      some (.aesdLlseek (file call) interrupted offset whence)
  | .late (.finishOpen file) => some (.aesdOpen file)
  | .split (.atomic c) | .late (.atomic c) => some c
  | .split (.sampleEntrySize ..) | .split (.sampleTotalSize ..) | .late (.testFull _) => none

/-- The calls that have happened, in order, and the files of those on their way. -/
structure Order where
  file : ℕ → ℕ
  calls : List (Call × Reply)

/-- One step more. -/
def Order.next (o : Order) (e : Act × Reply) : Order where
  file := files o.file e.1
  calls := o.calls ++ ((happens o.file e.1).map fun c => (c, e.2)).toList

/-- The order of a history. -/
def order (hist : List (Act × Reply)) : Order := hist.foldl Order.next ⟨fun _ => 0, []⟩

theorem order_concat (hist : List (Act × Reply)) (e : Act × Reply) :
    order (hist ++ [e]) = (order hist).next e := by
  rw [order, List.foldl_append]
  rfl

/-- The file of a call that has sampled. -/
def fileOf : Sampled → ℕ
  | .entrySize file _ | .totalSize file _ => file

/-- **What a step can be.** -/
theorem step_cases (h : s.step a = .ok (r, s')) :
    (∃ b t, a = .split b ∧ s.samples.step b = .ok (r, t) ∧
      s' = { s with toSys := t.toSys, inFlight := t.inFlight }) ∨
    ∃ b t, a = .late b ∧ s.opens.step b = .ok (r, t) ∧
      s' = { s with toSys := t.toSys, opening := t.opening } := by
  cases a with
  | split b =>
    obtain ⟨⟨r', t⟩, ht, hq⟩ := Split.map_ok h
    obtain ⟨rfl, rfl⟩ := Prod.mk.inj hq
    exact .inl ⟨b, t, rfl, ht, rfl⟩
  | late b =>
    obtain ⟨⟨r', t⟩, ht, hq⟩ := Split.map_ok h
    obtain ⟨rfl, rfl⟩ := Prod.mk.inj hq
    exact .inr ⟨b, t, rfl, ht, rfl⟩

/-- A call happens, or nothing does. -/
def Takes (s : Sys) (r : Reply) (s' : Sys) : Option Call → Prop
  | none => s' = s
  | some c => s.step c = .ok (r, s')

/-- The files are those that the calls on their way have sampled for. -/
def Filed (file : ℕ → ℕ) (inFlight : ℕ → Option Sampled) : Prop :=
  ∀ call m, inFlight call = some m → file call = fileOf m

theorem Filed.update {file : ℕ → ℕ} {inFlight : ℕ → Option Sampled} (h : Filed file inFlight)
    (call : ℕ) (m : Sampled) :
    Filed (Function.update file call (fileOf m)) (Function.update inFlight call (some m)) := by
  intro call' m' hm'
  by_cases hc : call' = call
  · subst hc
    rw [Function.update_self, Option.some.injEq] at hm'
    rw [Function.update_self, hm']
  · rw [Function.update_of_ne hc] at hm' ⊢
    exact h call' m' hm'

theorem Filed.finish {file : ℕ → ℕ} {inFlight : ℕ → Option Sampled} (h : Filed file inFlight)
    (call : ℕ) : Filed file (Function.update inFlight call none) := by
  intro call' m' hm'
  by_cases hc : call' = call
  · subst hc
    rw [Function.update_self] at hm'
    exact absurd hm' (by simp)
  · rw [Function.update_of_ne hc] at hm'
    exact h call' m' hm'

/-- A step of a call that samples, or of an atomic one. -/
theorem takes_of_split {file : ℕ → ℕ} {b : Split.Act} {t : Split} (hf : Filed file s.inFlight)
    (hok : InTime s (.split b)) (hs : s.samples.step b = .ok (r, t)) :
    Takes s.toSys r t.toSys (happens file (.split b)) ∧
      Filed (files file (.split b)) t.inFlight := by
  cases b with
  | sampleEntrySize call f =>
    obtain ⟨rfl, rfl⟩ := Prod.mk.inj (Except.ok.inj hs)
    exact ⟨rfl, hf.update call (.entrySize f _)⟩
  | sampleTotalSize call f =>
    obtain ⟨rfl, rfl⟩ := Prod.mk.inj (Except.ok.inj hs)
    exact ⟨rfl, hf.update call (.totalSize f _)⟩
  | atomic c =>
    obtain ⟨⟨r', u⟩, hu, hq⟩ := Split.map_ok hs
    obtain ⟨rfl, rfl⟩ := Prod.mk.inj hq
    exact ⟨hu, hf⟩
  | lockedRead call interrupted avail count =>
    have hnow : ReadUpToNow s.toSys interrupted count.toNat (s.inFlight call) := hok
    obtain ⟨f, n, hcall⟩ := hnow.sampled
    have hs' := lockedRead_eq (s := s.samples) hcall hnow avail
    rw [hs] at hs'
    obtain ⟨⟨r', u⟩, hu, hq⟩ := Split.map_ok hs'.symm
    obtain ⟨rfl, rfl⟩ := Prod.mk.inj hq
    refine ⟨?_, hf.finish call⟩
    rw [happens, hf call _ hcall]
    exact hu
  | lockedLlseek call interrupted offset whence =>
    have hnow : SeekUpToNow s.toSys interrupted offset whence (s.inFlight call) := hok
    obtain ⟨f, n, hcall⟩ := hnow.sampled
    have hs' := lockedLlseek_eq (s := s.samples) hcall hnow
    rw [hs] at hs'
    obtain ⟨⟨r', u⟩, hu, hq⟩ := Split.map_ok hs'.symm
    obtain ⟨rfl, rfl⟩ := Prod.mk.inj hq
    refine ⟨?_, hf.finish call⟩
    rw [happens, hf call _ hcall]
    exact hu

/-- A step of an open, or of an atomic call. -/
theorem takes_of_late {file : ℕ → ℕ} {b : LateSys.Act} {t : LateSys} (ht : s.opens.Tested)
    (hok : s.opens.Timely b) (hs : s.opens.step b = .ok (r, t)) :
    Takes s.toSys r t.toSys (happens file (.late b)) := by
  rcases LateSys.step_cases hs with ⟨f, rfl, -, rfl⟩ | ⟨f, notFull, rfl, hopening, rfl, rfl⟩ |
    ⟨f, rfl, hopening, -, -⟩ | ⟨c, u, rfl, hu, rfl⟩
  · rfl
  · have hstore := LateSys.store_eq ht hopening hok
    show Sys.step s.toSys (.aesdOpen f) = _
    rw [Sys.step]
    exact congrArg (fun d => Except.ok (({ retval := 0 } : Reply), s.toSys.after f 0 d)) hstore
  · rcases hok with hfalse | ⟨htrue, -⟩
    · exact absurd (hopening.symm.trans hfalse) (by simp)
    · exact absurd (hopening.symm.trans htrue) (by simp)
  · exact hu

/-- What holds between a run and the calls in order. -/
structure InOrder (hist : List (Act × Reply)) (s : Unlocked) : Prop where
  run : Run Sys.step (fun _ _ => True) Sys.init (order hist).calls s.toSys
  filed : Filed (order hist).file s.inFlight
  tested : s.opens.Tested

theorem inOrder_step (h : InOrder hist s) (hok : InTime s a) (hs : s.step a = .ok (r, s')) :
    InOrder (hist ++ [(a, r)]) s' := by
  have hw : s.Wf := Sys.wf_of_run h.run
  have htakes : Takes s.toSys r s'.toSys (happens (order hist).file a) ∧
      Filed (files (order hist).file a) s'.inFlight ∧ s'.opens.Tested := by
    rcases step_cases hs with ⟨b, t, rfl, hb, rfl⟩ | ⟨b, t, rfl, hb, rfl⟩
    · obtain ⟨htakes, hfiled⟩ := takes_of_split h.filed hok hb
      refine ⟨htakes, hfiled, fun f hf => ?_⟩
      have hfull : s.dev.bufferP.full = true := h.tested f hf
      -- the opens on their way are the same, and the ring stays full
      cases hc : happens (order hist).file (.split b) with
      | none =>
        rw [hc] at htakes
        have heq : t.toSys = s.toSys := htakes
        show t.toSys.dev.bufferP.full = true
        rw [heq]
        exact hfull
      | some c =>
        rw [hc] at htakes
        exact LateSys.full_of_call hw htakes hfull
    · exact ⟨takes_of_late h.tested hok hb, h.filed, LateSys.tested_step hw h.tested hb⟩
  obtain ⟨htakes, hfiled, htested⟩ := htakes
  refine ⟨?_, by rw [order_concat]; exact hfiled, htested⟩
  rw [order_concat, Order.next]
  cases hc : happens (order hist).file a with
  | none =>
    rw [hc] at htakes
    have heq : s'.toSys = s.toSys := htakes
    rw [heq, Option.map_none, Option.toList_none, List.append_nil]
    exact h.run
  | some c =>
    rw [hc] at htakes
    exact h.run.call trivial htakes

/-- **Calls that are in time happen when they have the lock**, and opens when they store; with
any number of each on their way at once, the run is one of atomic calls.  This is as long as no
open stores while another call has the lock. -/
theorem calls_linearize (h : Run step InTime init hist s) :
    Run Sys.step (fun _ _ => True) Sys.init (order hist).calls s.toSys := by
  have hinv : InOrder hist s := by
    refine h.invariant (P := InOrder) ?_ fun _ _ _ _ _ _ hio hok hs => inOrder_step hio hok hs
    exact ⟨.start, fun _ _ hm => absurd hm (by simp [init]),
      fun _ hf => absurd hf (by simp [opens, init])⟩
  exact hinv.run

/-- A read samples a size of 2, another line is committed and an open stores, and it reads; a
seek samples 4 and is carried out when 6 bytes are stored. -/
theorem calls_linearize_six :
    ∃ hist s, Run step InTime init hist s ∧
      ((order hist).calls.map fun e => e.2.retval) = [0, 2, 0, 2, 0, 2, 2, 1] ∧
      Run Sys.step (fun _ _ => True) Sys.init (order hist).calls s.toSys := by
  obtain ⟨hist, s, hrun, hretvals⟩ := exists_run_of_replay step InTime init
    [.split (.atomic (.aesdOpen 0)), .split (.atomic (writeLine [97, 10])), .late (.testFull 1),
      .late (.finishOpen 1), .split (.sampleEntrySize 7 1), .late (.testFull 2),
      .split (.atomic (writeLine [98, 10])), .split (.sampleTotalSize 8 2), .late (.finishOpen 2),
      .split (.atomic (writeLine [99, 10])), .split (.lockedRead 7 false 9 9),
      .split (.lockedLlseek 8 false 1 0)]
    (fun hist _ => ((order hist).calls.map fun e => e.2.retval) = [0, 2, 0, 2, 0, 2, 2, 1])
    (by decide +kernel)
  exact ⟨hist, s, hrun, hretvals, calls_linearize hrun⟩

end Unlocked
end Aesd
