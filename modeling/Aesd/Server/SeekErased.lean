import Aesd.Foundations.Simulation
import Aesd.Server.DeviceLines

/-!
# Seek commands have no effect

A client of the device can send `AESDCHAR_IOCSEEKTO:` and two numbers, and the thread moves
the position of its `file_fd` accordingly.  But before it reads the file back it seeks to the
end to learn the size and then to the start, so by the time the position matters it has been
overwritten.

The proof takes the seek commands out of a run.  What is left is a run, because nothing that
the threads do depends on a position before it is set again (`Erased`).
-/

namespace Aesd

/-! ## Positions -/

/-- The file that a call is on. -/
def Call.target : Call → ℕ
  | .aesdOpen file | .aesdRelease file | .aesdRead file .. | .aesdWrite file ..
  | .aesdLlseek file .. | .aesdIoctl file .. => file

/-- Calls whose result does not depend on the position of the file. -/
def Call.ignoresPosition : Call → Prop
  | .aesdOpen _ | .aesdRelease _ => True
  | .aesdLlseek _ _ _ whence => whence ≠ 1
  | _ => False

namespace Sys

variable {s s' u : Sys} {c : Call} {r : Reply}

/-- A call moves no other file. -/
theorem fPos_of_ne (hw : s.Wf) (hs : s.step c = .ok (r, u)) {g : ℕ} (hg : g ≠ c.target) :
    u.fPos g = s.fPos g := by
  cases step_outcome hw hs with
  | notOpen => rfl
  | _ => exact Function.update_of_ne hg _ _

/-- The call on one file, in two states. -/
theorem onFile_congr {file : ℕ} {k k' : ℤ → Except Fault (Reply × Sys)} {P : Sys → Sys → Prop}
    (hnone : s.fPos file = none → s'.fPos file = none ∧ P s s')
    (hsome : ∀ p, s.fPos file = some p → k p = .ok (r, u) →
      ∃ p' u', s'.fPos file = some p' ∧ k' p' = .ok (r, u') ∧ P u u')
    (hs : s.onFile file k = .ok (r, u)) : ∃ u', s'.onFile file k' = .ok (r, u') ∧ P u u' := by
  rcases onFile_ok hs with ⟨hp, rfl, rfl⟩ | ⟨p, hp, hk⟩
  · obtain ⟨hp', hP⟩ := hnone hp
    exact ⟨s', by rw [onFile, hp'], hP⟩
  · obtain ⟨p', u', hp', hk', hP⟩ := hsome p hp hk
    exact ⟨u', by rw [onFile, hp']; exact hk', hP⟩

/-- Two states of the driver that agree on one file. -/
structure SameAt (file : ℕ) (s s' : Sys) : Prop where
  driver : s'.toDriver = s.toDriver
  fPos : s'.fPos file = s.fPos file

theorem SameAt.after (file : ℕ) (p : ℤ) (d : Driver) :
    SameAt file (s.after file p d) (s'.after file p d) := ⟨rfl, by simp⟩

/-- **The same call**, where the driver and the position of the file are the same. -/
theorem step_same (h : SameAt c.target s s') (hs : s.step c = .ok (r, u)) :
    ∃ u', s'.step c = .ok (r, u') ∧ SameAt c.target u u' := by
  obtain ⟨hd, hp⟩ := id h
  cases c with
  | aesdOpen file =>
    cases hs
    refine ⟨_, rfl, ?_⟩
    rw [hd]
    exact .after file 0 _
  | aesdRelease file =>
    refine onFile_congr (fun hnone => ⟨hp.trans hnone, h⟩) (fun p hsome hk => ?_) hs
    cases hk
    exact ⟨p, _, hp.trans hsome, rfl, hd, by simp [Call.target]⟩
  | aesdRead file interrupted avail count =>
    refine onFile_congr (fun hnone => ⟨hp.trans hnone, h⟩) (fun p hsome hk => ?_) hs
    obtain ⟨p', d, hres, rfl⟩ := map_ok hk
    exact ⟨p, s'.after file p' d, hp.trans hsome, by rw [hd, hres]; rfl, .after file p' d⟩
  | aesdWrite file interrupted alloc buf count =>
    refine onFile_congr (fun hnone => ⟨hp.trans hnone, h⟩) (fun p hsome hk => ?_) hs
    obtain ⟨p', d, hres, rfl⟩ := map_ok hk
    exact ⟨p, s'.after file p' d, hp.trans hsome, by rw [hd, hres]; rfl, .after file p' d⟩
  | aesdLlseek file interrupted offset whence =>
    refine onFile_congr (fun hnone => ⟨hp.trans hnone, h⟩) (fun p hsome hk => ?_) hs
    cases hk
    refine ⟨p, s'.after file _ s.toDriver, hp.trans hsome, ?_, .after file _ _⟩
    rw [hd]
  | aesdIoctl file interrupted cmd arg stack =>
    refine onFile_congr (fun hnone => ⟨hp.trans hnone, h⟩) (fun p hsome hk => ?_) hs
    cases hk
    refine ⟨p, s'.after file _ s.toDriver, hp.trans hsome, ?_, .after file _ _⟩
    rw [hd]

/-- Two states of the driver that agree on one file up to its position. -/
structure OpenAt (file : ℕ) (s s' : Sys) : Prop where
  driver : s'.toDriver = s.toDriver
  fPos : s'.fPos file = none ↔ s.fPos file = none

theorem SameAt.openAt {file : ℕ} (h : SameAt file s s') : OpenAt file s s' :=
  ⟨h.driver, by rw [h.fPos]⟩

theorem OpenAt.isSome {file : ℕ} {p : ℤ} (h : OpenAt file s s') (hp : s.fPos file = some p) :
    ∃ p', s'.fPos file = some p' :=
  Option.ne_none_iff_exists'.mp fun hnone => absurd (h.fPos.mp hnone) (by simp [hp])

/-- Unless it starts from the position, a seek returns the same from any. -/
theorem aesdLlseek_fst (d : Driver) (p q : ℤ) (interrupted : Bool) (offset : Int64)
    {whence : Int32} (h : whence ≠ 1) :
    (Aesd.aesdLlseek d p interrupted offset whence).1 =
      (Aesd.aesdLlseek d q interrupted offset whence).1 := by
  unfold Aesd.aesdLlseek aesdLlseekLocked
  cases interrupted with
  | true => rfl
  | false =>
    simp only [if_neg h, Bool.false_eq_true, if_false]
    split
    · rfl
    · split <;> rfl

/-- **The same call**, where the file may be somewhere else and that does not matter. -/
theorem step_open (hc : c.ignoresPosition) (h : OpenAt c.target s s')
    (hs : s.step c = .ok (r, u)) : ∃ u', s'.step c = .ok (r, u') ∧ OpenAt c.target u u' := by
  obtain ⟨hd, hp⟩ := id h
  cases c with
  | aesdOpen file =>
    cases hs
    refine ⟨_, rfl, ?_⟩
    rw [hd]
    exact (SameAt.after file 0 _).openAt
  | aesdRelease file =>
    refine onFile_congr (fun hnone => ⟨hp.mpr hnone, h⟩) (fun p hsome hk => ?_) hs
    cases hk
    obtain ⟨p', hp'⟩ := h.isSome hsome
    exact ⟨p', _, hp', rfl, hd, by simp [Call.target]⟩
  | aesdLlseek file interrupted offset whence =>
    refine onFile_congr (fun hnone => ⟨hp.mpr hnone, h⟩) (fun p hsome hk => ?_) hs
    cases hk
    obtain ⟨p', hp'⟩ := h.isSome hsome
    refine ⟨p', s'.after file (Aesd.aesdLlseek s'.toDriver p' interrupted offset whence).2
      s'.toDriver, hp', ?_, hd, by simp [Call.target]⟩
    rw [hd, aesdLlseek_fst s.toDriver p p' interrupted offset hc]
  | _ => exact hc.elim

theorem aesdLlseek_start {d : Driver} (hw : d.Wf) (p : ℤ) :
    Aesd.aesdLlseek d p false 0 0 = (0, 0) := by
  have hzero : (0 : Int64).toInt = 0 := rfl
  simp only [Aesd.aesdLlseek, aesdLlseekLocked, totalSize_eq hw, hzero, Bool.false_eq_true,
    if_false, if_true]
  exact if_neg (by omega)

/-- Seeking to the start gets there. -/
theorem rewind {file : ℕ} (hw : s.Wf) (hs : s.step (.aesdLlseek file false 0 0) = .ok (r, u)) :
    u.fPos file = (s.fPos file).map fun _ => 0 := by
  cases step_outcome hw hs with
  | notOpen hfile hnone =>
    cases hfile
    rw [hnone, Option.map_none]
  | aesdLlseek hp =>
    rw [hp, after_fPos_self, aesdLlseek_start hw, Option.map_some]

end Sys
/-! ## Seek commands taken out -/

/-- The thread as it is if it has not been sent the seek command that it is carrying out. -/
def Conn.erase (c : Conn) : Conn :=
  match c.pc with
  | .ioctl _ => { c with pc := .receive }
  | _ => c

/-- What is received instead of a seek command: a byte that is forgotten. -/
def Answer.erase (d : Deed) (a : Answer) : Answer :=
  match d, Conn.dispatch a.bytes with
  | .did .receive, .ioctl _ => .data [0]
  | _, _ => a

/-- What a thread was told and did. -/
def event (e : (ℕ × Stroke) × Deed) : ℕ × Answer × Deed := (e.1.1, e.1.2.answer, e.2)

/-- The same without the seek commands. -/
def withoutSeeks (e : (ℕ × Stroke) × Deed) : List (ℕ × Answer × Deed) :=
  match e.2 with
  | .did (.ioctl _) => []
  | d => [(e.1.1, e.1.2.answer.erase d, d)]

/-- The position of `file_fd` matters to the thread. -/
def Conn.Rewound (c : Conn) : Prop := c.pc = .callocFileBuffer ∨ c.pc = .readFile

section Thread

variable {c c' : Conn} {x : Stroke} {d : Deed}

theorem Conn.erase_of_ne (h : ∀ seekto, c.pc ≠ .ioctl seekto) : c.erase = c := by
  rw [erase]
  split
  · next seekto hpc => exact absurd hpc (h seekto)
  · rfl

/-- The position matters from the seek to the start on. -/
theorem rewound_stroke (hs : c.stroke x = .ok (d, c')) (h : c'.Rewound) :
    c.Rewound ∨ d = .did .lseekSet := by
  rcases Conn.stroke_cases hs with ⟨-, act, rfl, hstep⟩ | ⟨n, pending, -, -, -, -, -, rfl⟩
  · cases Conn.moves_of_step hstep with
    | lseekSet => exact Or.inr rfl
    | callocFileBuffer hpc => exact Or.inl (Or.inl hpc)
    | dropped => exact Or.inl h
    | _ => rcases h with h | h <;> cases h
  · rcases h with h | h <;> cases h

/-- Where a thread that received something goes on. -/
theorem pc_of_receive (h : c.pc = .receive) {a : Answer} {act : Action}
    (hs : c.step a = .ok (act, c')) :
    c'.pc = if a.bytes = [] then .leave cleanUp else Conn.dispatch a.bytes := by
  rw [(Conn.step_iff.mp hs).2, Conn.resume]
  simp only [h]

/-- Nothing but seek commands is taken out. -/
theorem Answer.erase_of_ne {a : Answer}
    (h : d = .did .receive → ∀ seekto, Conn.dispatch a.bytes ≠ .ioctl seekto) : a.erase d = a := by
  rw [erase]
  exact fun seekto hd hseekto => h hd seekto hseekto

/-- **A turn without its seek command**: carrying it out is left out, receiving it is receiving
something that is forgotten, and any other turn is the same. -/
theorem erase_stroke (hs : c.stroke x = .ok (d, c')) :
    (∃ seekto, d = .did (.ioctl seekto) ∧ c'.erase = c.erase) ∨
      (d = .did .receive ∧ x.answer.erase d = .data [0] ∧ c'.erase = c.erase ∧
        c.erase.stroke { x with answer := .data [0] } = .ok (d, c.erase)) ∨
      ((∀ seekto, d ≠ .did (.ioctl seekto)) ∧ x.answer.erase d = x.answer ∧
        c.erase.stroke x = .ok (d, c'.erase)) := by
  have hsame (hd : ∀ seekto, d ≠ .did (.ioctl seekto)) (hc : ∀ seekto, c.pc ≠ .ioctl seekto)
      (hc' : ∀ seekto, c'.pc ≠ .ioctl seekto)
      (ha : d = .did .receive → ∀ seekto, Conn.dispatch x.answer.bytes ≠ .ioctl seekto) :
      (∀ seekto, d ≠ .did (.ioctl seekto)) ∧ x.answer.erase d = x.answer ∧
        c.erase.stroke x = .ok (d, c'.erase) := by
    refine ⟨hd, Answer.erase_of_ne ha, ?_⟩
    rw [Conn.erase_of_ne hc, Conn.erase_of_ne hc', hs]
  rcases Conn.stroke_cases hs with ⟨hflush, act, rfl, hstep⟩ | ⟨n, pending, -, hpc, -, -, rfl, rfl⟩
  · cases Conn.moves_of_step hstep with
    | ioctl seekto h => exact Or.inl ⟨seekto, rfl, by simp [Conn.erase, h]⟩
    | seek h seekto hseek =>
      have hpc := pc_of_receive h hstep
      have hdispatch : Conn.dispatch x.answer.bytes = .ioctl seekto := by
        split_ifs at hpc
        exact hpc.symm
      have herase : c.erase = c := Conn.erase_of_ne (by simp [h])
      refine Or.inr (Or.inl ⟨rfl, by simp [Answer.erase, hdispatch], ?_, ?_⟩)
      · rw [herase, Conn.erase]
        dsimp only
        rw [← h]
      · have hforget : Conn.dispatch [0] = .receive := by decide
        have hback : c.resume (.data [0]) = c := by
          rw [Conn.resume]
          simp only [h, Answer.bytes, List.cons_ne_self, if_false, hforget]
          rw [← h]
        have hreceive : c.step (.data [0]) = .ok (.receive, c) :=
          Conn.step_iff.mpr ⟨by simp [Conn.action, h], hback.symm⟩
        rw [herase, Conn.stroke, hflush]
        dsimp only
        rw [hreceive]
        rfl
    | ended h ha =>
      refine Or.inr (Or.inr (hsame (by simp) (by simp [h]) (by simp) fun _ => ?_))
      rw [ha]
      exact fun seekto hseekto => absurd hseekto (by
        have hnone : Conn.dispatch [] = .receive := by decide
        simp [hnone])
    | line h hseek hlast =>
      refine Or.inr (Or.inr (hsame (by simp) (by simp [h]) (by simp) fun _ seekto hseekto => ?_))
      rw [Conn.dispatch, if_neg hseek, if_pos hlast] at hseekto
      cases hseekto
    | dropped h hne =>
      have hpc := pc_of_receive h hstep
      rw [if_neg hne, h] at hpc
      exact Or.inr (Or.inr (hsame (by simp) (by simp [h]) (by simp [h]) fun _ => by simp [← hpc]))
    | release r rest h | unlock rest h | setComplete rest h =>
      exact Or.inr (Or.inr (hsame (by simp) (by simp [h]) (by simp) (by simp)))
    | _ => exact Or.inr (Or.inr (hsame (by simp) (by simp [*]) (by simp) (by simp)))
  · exact Or.inr (Or.inr (hsame (by simp) (by simp [hpc]) (by simp) (by simp)))

end Thread

/-! ## The device -/

/-- The devices of the two runs, as far as thread `t` can tell them apart.  Where its `file_fd`
stands is the same if it is `known`. -/
structure Device.Alike (t : ℕ) (known : Prop) (w v : Device) : Prop where
  fileMutex : v.fileMutex = w.fileMutex
  file : Sys.OpenAt (2 * t) w.sys v.sys
  stream : Sys.SameAt (2 * t + 1) w.sys v.sys
  fPos : known → v.sys.fPos (2 * t) = w.sys.fPos (2 * t)

/-- The calls of a thread are on its stream, or on its `file_fd`; of the latter, only reading
and the seek command look at the position. -/
theorem deviceCall_target {t : ℕ} {k : KernelPart} {a : Answer} {act : Action} {call : Call}
    (h : deviceCall t k a act = some call) :
    call.target = 2 * t + 1 ∨
      call.target = 2 * t ∧ (call.ignoresPosition ∨ (∃ count, act = .readFile count) ∨
        ∃ seekto, act = .ioctl seekto) := by
  cases act with
  | openFile | fopen | fclose =>
    simp only [deviceCall] at h
    split_ifs at h
    cases h
    simp [Call.target, Call.ignoresPosition]
  | ioctl | lseekEnd | lseekSet | readFile =>
    cases h
    simp [Call.target, Call.ignoresPosition]
  | release r v =>
    cases r <;> cases v <;> cases h
    simp [Call.target, Call.ignoresPosition]
  | _ => cases h

namespace Device

variable {w w' v : Device} {t : ℕ} {d : Deed} {x : Stroke} {known : Prop}

/-- Calls of one thread do not move the files of another. -/
theorem Granted.fPos_of_ne (hw : w.sys.Wf) (h : w.Granted t d x w') {g : ℕ} (hg : g ≠ 2 * t)
    (hg' : g ≠ 2 * t + 1) : w'.sys.fPos g = w.sys.fPos g := by
  rcases h.driver with ⟨-, hsys⟩ | ⟨call, hcall, hs, -⟩
  · rw [hsys]
  · refine Sys.fPos_of_ne hw hs ?_
    rcases deviceCall_target hcall with htarget | ⟨htarget, -⟩ <;> omega

theorem Alike.mono {known' : Prop} (h : Alike t known w v) (hk : known' → known) :
    Alike t known' w v := ⟨h.fileMutex, h.file, h.stream, fun hknown => h.fPos (hk hknown)⟩

/-- A call on the stream. -/
theorem Alike.call_stream (hw : w.sys.Wf) (h : Alike t known w v) {call : Call} {r : Reply}
    {u : Sys} (htarget : call.target = 2 * t + 1) (hs : w.sys.step call = .ok (r, u)) :
    ∃ u', v.sys.step call = .ok (r, u') ∧
      Alike t known { w with sys := u } { v with sys := u' } := by
  have hv : v.sys.Wf := by rw [h.stream.driver]; exact hw
  have hne : 2 * t ≠ call.target := by omega
  obtain ⟨u', hs', hsame⟩ := Sys.step_same (htarget ▸ h.stream) hs
  have hu := Sys.fPos_of_ne hw hs hne
  have hu' := Sys.fPos_of_ne hv hs' hne
  refine ⟨u', hs', h.fileMutex, ⟨hsame.driver, ?_⟩, htarget ▸ hsame, fun hk => ?_⟩
  · rw [hu, hu']
    exact h.file.fPos
  · show u'.fPos _ = u.fPos _
    rw [hu, hu', h.fPos hk]

/-- A call on `file_fd`, if its position is known or does not matter. -/
theorem Alike.call_file {known' : Prop} (hw : w.sys.Wf) (h : Alike t known w v) {call : Call}
    {r : Reply} {u : Sys} (htarget : call.target = 2 * t) (hs : w.sys.step call = .ok (r, u))
    (hcall : call.ignoresPosition ∨ known)
    (hknown : known' → known ∨ call = .aesdLlseek (2 * t) false 0 0) :
    ∃ u', v.sys.step call = .ok (r, u') ∧
      Alike t known' { w with sys := u } { v with sys := u' } := by
  have hv : v.sys.Wf := by rw [h.stream.driver]; exact hw
  have hne : 2 * t + 1 ≠ call.target := by omega
  have hstream {u' : Sys} (hs' : v.sys.step call = .ok (r, u')) :
      u'.fPos (2 * t + 1) = u.fPos (2 * t + 1) := by
    rw [Sys.fPos_of_ne hw hs hne, Sys.fPos_of_ne hv hs' hne, h.stream.fPos]
  by_cases hk : known
  · have hat : Sys.SameAt call.target w.sys v.sys := ⟨h.file.driver, htarget ▸ h.fPos hk⟩
    obtain ⟨u', hs', hsame⟩ := Sys.step_same hat hs
    rw [htarget] at hsame
    exact ⟨u', hs', h.fileMutex, hsame.openAt, ⟨hsame.driver, hstream hs'⟩, fun _ => hsame.fPos⟩
  · obtain ⟨u', hs', hopen⟩ := Sys.step_open (hcall.resolve_right hk) (htarget ▸ h.file) hs
    rw [htarget] at hopen
    refine ⟨u', hs', h.fileMutex, hopen, ⟨hopen.driver, hstream hs'⟩, fun hk' => ?_⟩
    obtain rfl := (hknown hk').resolve_left hk
    have hrewind := Sys.rewind hw hs
    have hrewind' := Sys.rewind hv hs'
    show u'.fPos _ = u.fPos _
    rw [hrewind, hrewind']
    cases hp : w.sys.fPos (2 * t) with
    | none => rw [h.file.fPos.mpr hp]
    | some p =>
      obtain ⟨p', hp'⟩ := h.file.isSome hp
      rw [hp']
      rfl

/-- **The other run follows.** -/
theorem Alike.grant {known' : Prop} (hw : w.sys.Wf) (h : Alike t known w v)
    (hgrant : w.Granted t d x w') (hseek : ∀ seekto, d.action ≠ .ioctl seekto)
    (hread : ∀ count, d.action = .readFile count → known)
    (hrewind : d.action = .lseekSet → x.kernel.interrupted = false)
    (hknown : known' → known ∨ d.action = .lseekSet) :
    ∃ v', v.Granted t d x v' ∧ Alike t known' w' v' := by
  cases hgrant with
  | acquire hop hfree =>
    refine ⟨{ v with fileMutex := some t }, .acquire hop (h.fileMutex.trans hfree), rfl, h.file,
      h.stream, fun hk => h.fPos ((hknown hk).resolve_right fun hd => ?_)⟩
    rw [hd] at hop
    cases hop
  | release hop =>
    refine ⟨{ v with fileMutex := none }, .release hop, rfl, h.file, h.stream,
      fun hk => h.fPos ((hknown hk).resolve_right fun hd => ?_)⟩
    rw [hd] at hop
    cases hop
  | noCall hop hcall hposs =>
    refine ⟨v, .noCall hop hcall hposs, h.mono fun hk => (hknown hk).resolve_right fun hd => ?_⟩
    rw [hd] at hcall
    cases hcall
  | call hop call r sys hcall hs hreply hanswer =>
    have hstart : d.action = .lseekSet → call = .aesdLlseek (2 * t) false 0 0 := by
      intro hd
      rw [hd, deviceCall, hrewind hd, Option.some.injEq] at hcall
      exact hcall.symm
    rcases deviceCall_target hcall with htarget | ⟨htarget, hkind⟩
    · obtain ⟨u', hs', halike⟩ := h.call_stream hw htarget hs
      refine ⟨_, .call hop call r u' hcall hs' hreply hanswer, halike.mono fun hk => ?_⟩
      refine (hknown hk).resolve_right fun hd => ?_
      rw [hstart hd] at htarget
      exact absurd htarget (by simp [Call.target])
    · have hign : call.ignoresPosition ∨ known := by
        rcases hkind with hign | ⟨count, hact⟩ | ⟨seekto, hact⟩
        · exact Or.inl hign
        · exact Or.inr (hread count hact)
        · exact absurd hact (hseek seekto)
      obtain ⟨u', hs', halike⟩ :=
        h.call_file hw htarget hs hign fun hk => (hknown hk).imp_right hstart
      exact ⟨_, .call hop call r u' hcall hs' hreply hanswer, halike⟩

/-- A thread that does nothing does not see what another did. -/
theorem Alike.other {known' : Prop} {v' : Device} {u : ℕ} (hu : u ≠ t) (hw : w.sys.Wf)
    (hv : v.sys.Wf) (h : Alike u known w v) (hgrant : w.Granted t d x w')
    (hgrant' : v.Granted t d x v') (halike : Alike t known' w' v') : Alike u known w' v' := by
  have hfile := hgrant.fPos_of_ne hw (g := 2 * u) (by omega) (by omega)
  have hfile' := hgrant'.fPos_of_ne hv (g := 2 * u) (by omega) (by omega)
  have hstream := hgrant.fPos_of_ne hw (g := 2 * u + 1) (by omega) (by omega)
  have hstream' := hgrant'.fPos_of_ne hv (g := 2 * u + 1) (by omega) (by omega)
  refine ⟨halike.fileMutex, ⟨halike.file.driver, ?_⟩, ⟨halike.file.driver, ?_⟩, fun hk => ?_⟩
  · rw [hfile, hfile']
    exact h.file.fPos
  · rw [hstream, hstream', h.stream.fPos]
  · rw [hfile, hfile', h.fPos hk]

/-- **A seek command moves nothing but the position**, and its thread does not know that. -/
theorem Alike.ioctl {known' : Prop} {seekto : AesdSeekto} (hw : w.sys.Wf) (h : Alike t known w v)
    (hgrant : w.Granted t (.did (.ioctl seekto)) x w') (hknown : ¬ known') :
    Alike t known' w' v ∧ ∀ u, u ≠ t → ∀ known, Alike u known w v → Alike u known w' v := by
  cases hgrant with
  | acquire hop | release hop => cases hop
  | noCall _ hcall => cases hcall
  | call _ call r sys hcall hs =>
    cases hcall
    have hother : ∀ g, g ≠ 2 * t → sys.fPos g = w.sys.fPos g := fun g hg =>
      Sys.fPos_of_ne hw hs hg
    have hsame : sys.toDriver = w.sys.toDriver ∧
        (sys.fPos (2 * t) = none ↔ w.sys.fPos (2 * t) = none) := by
      cases Sys.step_outcome hw hs with
      | notOpen => exact ⟨rfl, Iff.rfl⟩
      | aesdIoctl hp => exact ⟨rfl, by simp [hp]⟩
    have hdriver : v.sys.toDriver = sys.toDriver := h.file.driver.trans hsame.1.symm
    refine ⟨⟨h.fileMutex, ⟨hdriver, h.file.fPos.trans hsame.2.symm⟩, ⟨hdriver, ?_⟩,
      fun hk => absurd hk hknown⟩, fun u hu known hold => ⟨hold.fileMutex, ⟨hdriver, ?_⟩,
      ⟨hdriver, ?_⟩, fun hk => ?_⟩⟩
    · rw [hother _ (by omega), h.stream.fPos]
    · rw [hother _ (by omega)]
      exact hold.file.fPos
    · rw [hother _ (by omega), hold.stream.fPos]
    · show v.sys.fPos _ = sys.fPos _
      rw [hother _ (by omega), hold.fPos hk]

end Device

/-! ## Runs -/

namespace DeviceThreads

/-- Seeking back to the start is not interrupted. -/
def Rewinds (s : DeviceThreads) (e : ℕ × Stroke) : Prop :=
  (s.thread e.1).action = some .lseekSet → e.2.kernel.interrupted = false

instance (s : DeviceThreads) (e : ℕ × Stroke) : Decidable (Rewinds s e) :=
  inferInstanceAs (Decidable (_ → _))

/-- `s'` is what `s` would be if no seek command had been sent. -/
structure Erased (s s' : DeviceThreads) : Prop where
  wf : s.shared.sys.Wf
  thread : ∀ t, s'.thread t = (s.thread t).erase
  device : ∀ t, Device.Alike t (s.thread t).Rewound s.shared s'.shared

variable {s s' u : DeviceThreads} {e : ℕ × Stroke} {d : Deed} {c : Conn} {w : Device}

theorem erased_init : Erased init init where
  wf := Sys.init_wf
  thread _ := rfl
  device _ := ⟨rfl, ⟨rfl, Iff.rfl⟩, ⟨rfl, rfl⟩, fun _ => rfl⟩

theorem action_of_erase (h : c.erase.action = some .lseekSet) : c.action = some .lseekSet := by
  rw [Conn.erase] at h
  split at h
  · exact absurd h (by simp [Conn.action])
  · exact h

/-- After a seek command the thread receives again. -/
theorem pc_of_ioctl {c c' : Conn} {x : Stroke} {seekto : AesdSeekto}
    (hs : c.stroke x = .ok (.did (.ioctl seekto), c')) : c'.pc = .receive := by
  rcases Conn.stroke_cases hs with ⟨-, act, hd, hstep⟩ | ⟨_, _, _, _, _, _, hd, _⟩
  · cases hd
    cases Conn.moves_of_step hstep with
    | ioctl => rfl
  · cases hd

/-- A thread that reads back has seeked to the start. -/
theorem rewound_of_readFile {c c' : Conn} {x : Stroke} {d : Deed} {count : ℕ}
    (hs : c.stroke x = .ok (d, c')) (hd : d.action = .readFile count) : c.Rewound := by
  rcases Conn.stroke_cases hs with ⟨-, act, rfl, hstep⟩ | ⟨_, _, _, _, _, _, rfl, _⟩
  · cases hd
    cases Conn.moves_of_step hstep with
    | readFile h | readFailed h => exact Or.inr h
  · cases hd

theorem withoutSeeks_of_ne {e : ℕ × Stroke} (h : ∀ seekto, d ≠ .did (.ioctl seekto)) :
    withoutSeeks (e, d) = [(e.1, e.2.answer.erase d, d)] := by
  unfold withoutSeeks
  split
  · next seekto hd => exact absurd hd (h seekto)
  · rfl

/-- What a turn of one thread does to the others. -/
theorem Erased.update {v : Device} {c' : Conn} (h : Erased s s') (hw : w.sys.Wf) (t : ℕ)
    (hc : c' = c.erase) (hself : Device.Alike t c.Rewound w v)
    (hother : ∀ u, u ≠ t → Device.Alike u (s.thread u).Rewound w v) :
    Erased ⟨w, Function.update s.thread t c⟩ ⟨v, Function.update s'.thread t c'⟩ := by
  refine ⟨hw, fun u => ?_, fun u => ?_⟩
  · by_cases hu : u = t
    · subst hu
      simp [hc]
    · simp [hu, h.thread u]
  · show Device.Alike u (Function.update s.thread t c u).Rewound w v
    by_cases hu : u = t
    · subst hu
      rw [Function.update_self]
      exact hself
    · rw [Function.update_of_ne hu]
      exact hother u hu

/-- **One turn** is matched by the same turn, or by none if it carries out a seek command. -/
theorem erased_step (h : Erased s s') (hok : Rewinds s e) (hs : s.step e = .ok (d, u)) :
    (Erased u s' ∧ withoutSeeks (e, d) = []) ∨
      ∃ e' d' u', Rewinds s' e' ∧ s'.step e' = .ok (d', u') ∧ Erased u u' ∧
        [event (e', d')] = withoutSeeks (e, d) := by
  obtain ⟨c, w, hstroke, hgrant, rfl⟩ := step_iff.mp hs
  obtain ⟨t, x⟩ := e
  have hw : w.sys.Wf := by
    rcases hgrant.driver with ⟨-, hsys⟩ | ⟨call, -, hcall, -⟩
    · rw [hsys]
      exact h.wf
    · exact Sys.step_wf h.wf hcall
  have hwf' : s'.shared.sys.Wf := by
    rw [(h.device t).stream.driver]
    exact h.wf
  rcases erase_stroke hstroke with
    ⟨seekto, rfl, herase⟩ | ⟨rfl, hanswer, herase, hforget⟩ | ⟨hseek, hanswer, hsame⟩
  · -- carrying out a seek command is left out
    have hpc : ¬ c.Rewound := by
      rintro (hpc | hpc) <;> cases (pc_of_ioctl hstroke).symm.trans hpc
    obtain ⟨hself, hother⟩ := (h.device t).ioctl h.wf hgrant hpc
    refine Or.inl ⟨?_, rfl⟩
    have hthread : Function.update s'.thread t (s'.thread t) = s'.thread :=
      Function.update_eq_self ..
    have hup := h.update hw t ((h.thread t).trans herase.symm) hself
      fun u hu => hother u hu _ (h.device u)
    rwa [hthread] at hup
  · -- instead of receiving one, something is received that is forgotten
    have hquiet : w = s.shared := by
      cases hgrant with
      | noCall => rfl
      | acquire hop | release hop => cases hop
      | call _ _ _ _ hcall => cases hcall
    subst hquiet
    refine Or.inr ⟨(t, { x with answer := .data [0] }), .did .receive,
      ⟨s'.shared, Function.update s'.thread t (s.thread t).erase⟩,
      fun hact => hok (action_of_erase (h.thread t ▸ hact)), ?_, ?_, ?_⟩
    · exact step_iff.mpr ⟨_, s'.shared, by rw [h.thread t]; exact hforget,
        .noCall rfl rfl rfl, rfl⟩
    · refine h.update hw t herase.symm ((h.device t).mono fun hrew => ?_) fun u _ => h.device u
      exact (rewound_stroke hstroke hrew).resolve_right (by simp)
    · rw [withoutSeeks_of_ne (by simp), hanswer]
      rfl
  · -- any other turn is the same
    have haction : ∀ act, d.action = act → (∀ p, act ≠ .fclose p) → d = .did act := by
      rintro _ rfl hne
      cases d with
      | did act => rfl
      | flushed piece => exact absurd rfl (hne piece)
    have hstart : d.action = .lseekSet → x.kernel.interrupted = false := by
      intro hd
      obtain rfl := haction _ hd (by simp)
      rcases Conn.stroke_cases hstroke with ⟨-, act, hd', hstep⟩ | ⟨_, _, _, _, _, _, hd', _⟩
      · cases hd'
        exact hok (Conn.step_iff.mp hstep).1
      · cases hd'
    obtain ⟨v', hgrant', halike⟩ := (h.device t).grant h.wf hgrant
      (fun seekto hd => hseek seekto (haction _ hd (by simp)))
      (fun count hd => rewound_of_readFile hstroke hd) hstart
      (fun hrew => (rewound_stroke hstroke hrew).imp_right fun hd => by rw [hd]; rfl)
    refine Or.inr ⟨(t, x), d, ⟨v', Function.update s'.thread t c.erase⟩,
      fun hact => hok (action_of_erase (h.thread t ▸ hact)), ?_, ?_, ?_⟩
    · exact step_iff.mpr ⟨_, v', by rw [h.thread t]; exact hsame, hgrant', rfl⟩
    · exact h.update hw t rfl halike fun u hu =>
        (h.device u).other hu h.wf hwf' hgrant hgrant' halike
    · rw [withoutSeeks_of_ne hseek, hanswer]
      rfl

end DeviceThreads

/-- **Seek commands have no effect.**  Any number of connections are open over the device, they
send seek commands among other things, and no seek to the start of the file is interrupted.
Then everything that the threads do, what they send included, could have been done as well
without the seek commands: there is a run in which the same is done in the same order and in
which nobody carries out a seek command, and it leaves the driver, the mutex and the threads
in the same state, but for a thread that is about to carry one out, which is still waiting for
its client there. -/
theorem seek_commands_erased {hist : List ((ℕ × Stroke) × Deed)} {s : DeviceThreads}
    (h : Run DeviceThreads.step DeviceThreads.Rewinds DeviceThreads.init hist s) :
    ∃ hist' s', Run DeviceThreads.step DeviceThreads.Rewinds DeviceThreads.init hist' s' ∧
      hist'.map event = hist.flatMap withoutSeeks ∧
      s'.shared.sys.toDriver = s.shared.sys.toDriver ∧
      s'.shared.fileMutex = s.shared.fileMutex ∧ ∀ t, s'.thread t = (s.thread t).erase := by
  obtain ⟨hist', s', hrun, herased, hshown⟩ := h.simulate DeviceThreads.Erased withoutSeeks
    (fun e => [event e])
    (fun _ _ _ _ _ hrel hok hs => DeviceThreads.erased_step hrel hok hs) DeviceThreads.erased_init
  refine ⟨hist', s', hrun, ?_, (herased.device 0).stream.driver, (herased.device 0).fileMutex,
    herased.thread⟩
  rw [← hshown, List.map_eq_flatMap]

/-- Two connections append a line each.  A third sends a seek command, which moves its position
to the second line, then a line of its own, and is sent its reply. -/
theorem seek_commands_erased_one : ∃ before s₁ hist s hist' s',
    Run DeviceThreads.step DeviceThreads.Rewinds DeviceThreads.init before s₁ ∧
      s₁.shared.sys.fPos 4 = some 2 ∧
      Run DeviceThreads.step DeviceThreads.Rewinds DeviceThreads.init (before ++ hist) s ∧
      (∃ e ∈ before, e.2 = .did (.ioctl ⟨1, 0⟩)) ∧ (∃ e ∈ hist, e.2 = .did (.send [] 0)) ∧
      Run DeviceThreads.step DeviceThreads.Rewinds DeviceThreads.init hist' s' ∧
      hist'.map event = (before ++ hist).flatMap withoutSeeks := by
  let ok : Reply := { retval := 0 }
  let rest : List (ℕ × Stroke) :=
    [(2, .next (.data [97, 10]) ok), (2, .next .done ok), (2, .next .done ok),
      (2, .next .done ok), (2, .next .done { retval := 2, commit := some [97, 10] }),
      (2, .next .done ok), (2, .next .done ok), (2, .next (.position 0) ok),
      (2, .next (.position 0) ok), (2, .next .done ok), (2, .next (.data []) ok),
      (2, .next .done ok)]
  obtain ⟨before, s₁, hrun₁, hmoved, hseek, hrest⟩ := exists_run_of_replay DeviceThreads.step
    DeviceThreads.Rewinds DeviceThreads.init
    (appendStrokes 0 ++ appendStrokes 1 ++
      [(2, .next .done ok), (2, .next .done ok),
        (2, .next (.data (literal "AESDCHAR_IOCSEEKTO:1,0")) ok), (2, .next .done ok)])
    (fun before s₁ => s₁.shared.sys.fPos 4 = some 2 ∧
      (∃ e ∈ before, e.2 = .did (.ioctl ⟨1, 0⟩)) ∧
      (replay DeviceThreads.step DeviceThreads.Rewinds s₁ rest).any
        (fun q => decide (∃ e ∈ q.1, e.2 = .did (.send [] 0))) = true)
    (by decide +kernel)
  obtain ⟨hist, s, hrun₂, hsend⟩ := exists_run_of_replay DeviceThreads.step DeviceThreads.Rewinds s₁
    rest (fun hist _ => ∃ e ∈ hist, e.2 = .did (.send [] 0)) hrest
  have hrun := hrun₁.trans hrun₂
  obtain ⟨hist', s', hrun', hevents, -⟩ := seek_commands_erased hrun
  exact ⟨before, s₁, hist, s, hist', s', hrun₁, hmoved, hrun, hseek, hsend, hrun', hevents⟩

end Aesd
