import Aesd.Driver.Disclosure
import Aesd.Server.DeviceLines

/-!
# What the clients of the device are sent

A thread asks `lseek` for the size of its reply and is told the number of a slot, or that the
seek failed.  It then reads once, and one read does not go beyond one slot.  So whatever the
other threads do, and whatever fails, a reply is the beginning of one line and has at most
nine bytes.

The length does not depend on how the calls of the driver interleave.  That it is one line
does: calls are single steps here, and an open that came in the middle of a read could make the
read copy from a slot that is shorter than the one whose size it had looked up.
-/

namespace Aesd

open FixedWidth

/-- What a thread in the read-back knows, with `log` the lines that were committed. -/
def Conn.Told (c : Conn) (log : List (List UInt8)) : Prop :=
  match c.pc with
  | .lseekSet | .callocFileBuffer => c.fileSize = -1 ∨ 0 ≤ c.fileSize ∧ c.fileSize ≤ 9
  | .readFile => 0 ≤ c.fileSize ∧ c.fileSize ≤ 9
  | .send bytes n =>
      n = bytes.length ∧ n ≤ 9 ∧ (bytes = [] ∨ ∃ e ∈ log, Line eol e ∧ bytes <+: e)
  | _ => True

theorem Conn.Told.mono {c : Conn} {log : List (List UInt8)} (h : c.Told log)
    (more : List (List UInt8)) : c.Told (log ++ more) := by
  cases hpc : c.pc with
  | send bytes n =>
    simp only [Conn.Told, hpc] at h ⊢
    obtain ⟨hn, hle, hbytes⟩ := h
    refine ⟨hn, hle, hbytes.imp_right ?_⟩
    rintro ⟨e, he, hline, hpre⟩
    exact ⟨e, List.mem_append_left _ he, hline, hpre⟩
  | lseekSet | callocFileBuffer | readFile => simpa only [Conn.Told, hpc] using h
  | _ => simp only [Conn.Told, hpc]

/-! ## The two calls -/

/-- **The size the thread is told**: the seek fails, or it is the number of a slot. -/
theorem fileSize_le_nine {s s' : Sys} {file : ℕ} {interrupted : Bool} {r : Reply} (hw : s.Wf)
    (hs : s.step (.aesdLlseek file interrupted 0 2) = .ok (r, s')) :
    (answerOf .lseekEnd r).fileSize = -1 ∨
      0 ≤ (answerOf .lseekEnd r).fileSize ∧ (answerOf .lseekEnd r).fileSize ≤ 9 := by
  have hlt := hw.outOffs_lt
  cases Sys.step_outcome hw hs with
  | notOpen => exact Or.inl rfl
  | @aesdLlseek _ _ _ _ p =>
    cases interrupted with
    | true => exact Or.inl rfl
    | false =>
      rcases aesdLlseek_seekEnd hw p with h | h
      · exact Or.inl (by rw [h]; rfl)
      · rw [h, answerOf, if_neg (by simp)]
        exact Or.inr (by simp only [Answer.fileSize, Int.toNat_natCast]; omega)

/-- What is read back is the beginning of a line. -/
theorem copied_line {ok : Sys → Call → Prop} {hist : List (Call × Reply)} {s s' : Sys} {c : Call}
    {r : Reply} (h : Run Sys.step ok Sys.init hist s) (hs : s.step c = .ok (r, s')) :
    r.copied = [] ∨ ∃ e ∈ commits hist, Line eol e ∧ r.copied <+: e := by
  rcases Sys.copied_recent h hs with hnil | ⟨e, he, hpre⟩
  · exact Or.inl hnil
  · have hmem := List.mem_of_mem_drop he
    rcases committable_of_run h e hmem with rfl | hline
    · exact Or.inl (List.prefix_nil.mp hpre)
    · exact Or.inr ⟨e, hmem, hline, hpre⟩

/-! ## Runs -/

namespace DeviceThreads

variable {ok : DeviceThreads → ℕ × Stroke → Prop} {hist : List ((ℕ × Stroke) × Deed)}
  {s s' : DeviceThreads} {t : ℕ} {x : Stroke} {d : Deed} {c : Conn} {w : Device}

/-- **One turn** of the thread itself. -/
theorem told_stroke (hrun : Run step ok init hist s)
    (hold : (s.thread t).Told (commits (callsOf hist))) (hs : (s.thread t).stroke x = .ok (d, c))
    (hgrant : s.shared.Granted t d x w) : c.Told (commits (callsOf hist)) := by
  rcases Conn.stroke_cases hs with ⟨-, act, rfl, hstep⟩ | ⟨n, pending, -, -, -, -, -, rfl⟩
  · cases Conn.moves_of_step hstep with
    | lseekEnd h =>
      rcases hgrant.driver with ⟨hnone, -⟩ | ⟨call, hcall, hs', hanswer⟩
      · cases hnone
      · cases hcall
        have hsize := fileSize_le_nine (Sys.wf_of_run (run_driver hrun)) hs'
        rw [hanswer]
        exact hsize
    | lseekSet h =>
      simp only [Conn.Told, h] at hold
      exact hold
    | callocFileBuffer h ha =>
      simp only [Conn.Told, h] at hold
      rcases hold with hneg | hsize
      · -- a block of that size is not there
        cases hgrant with
        | noCall _ _ hposs =>
          have hmax : 2 ^ 63 ≤ wrapU 64 (-1) := by decide
          rw [hneg] at hposs
          have hlt : wrapU 64 (-1) < 2 ^ 63 := by
            simpa [Deed.action, Action.possible, ha] using hposs
          omega
        | acquire hop | release hop => cases hop
        | call _ _ _ _ hcall => cases hcall
      · exact hsize
    | readFile h hread =>
      simp only [Conn.Told, h] at hold
      rcases hgrant.driver with ⟨hnone, -⟩ | ⟨call, hcall, hs', hanswer⟩
      · cases hnone
      · have hsize : wrapU 64 (s.thread t).fileSize ≤ 9 := by
          obtain ⟨n, hn⟩ := Int.eq_ofNat_of_zero_le hold.1
          rw [hn, wrapU_natCast (by omega)]
          omega
        by_cases hfailed : x.answer = .failed
        · rw [hfailed] at hread
          have hmax : Answer.failed.bytesRead = 2 ^ 64 - 1 := by decide
          omega
        · have hread' : x.answer = answerOf (.readFile (wrapU 64 (s.thread t).fileSize)) x.reply :=
            hanswer
          have hbytes : x.answer.bytes = x.reply.copied := by
            by_cases hneg : x.reply.retval < 0
            · exact absurd (hanswer.trans (if_pos hneg)) hfailed
            · rw [hread', answerOf, if_neg hneg]
              rfl
          have hlen : x.answer.bytesRead = x.answer.bytes.length := if_neg hfailed
          refine ⟨hlen, by omega, ?_⟩
          rw [hbytes]
          exact copied_line (run_driver hrun) hs'
    | dropped h => exact hold
    | _ => trivial
  · trivial

theorem told_of_run (h : Run step ok init hist s) (t : ℕ) :
    (s.thread t).Told (commits (callsOf hist)) := by
  induction h generalizing t with
  | start => trivial
  | @call hist s s' e d hrun _ hs ih =>
    obtain ⟨c, w, hstroke, hgrant, rfl⟩ := step_iff.mp hs
    rw [commits_concat]
    refine Conn.Told.mono ?_ _
    show (Function.update s.thread e.1 c t).Told _
    by_cases ht : t = e.1
    · subst ht
      rw [Function.update_self]
      exact told_stroke hrun (ih _) hstroke hgrant
    · rw [Function.update_of_ne ht]
      exact ih t

end DeviceThreads

/-- **A reply is a piece of one line, and a short one.**  Any number of connections are open
over the device and anything fails.  Whatever a thread sends is at most nine bytes long and
the beginning of one line that was committed before, as long as no open comes in the middle of
a read of another connection. -/
theorem reply_le_nine {ok : DeviceThreads → ℕ × Stroke → Prop}
    {hist : List ((ℕ × Stroke) × Deed)} {s s' : DeviceThreads} {t : ℕ} {x : Stroke}
    {bytes : List UInt8} {n : ℕ} (h : Run DeviceThreads.step ok DeviceThreads.init hist s)
    (hs : s.step (t, x) = .ok (.did (.send bytes n), s')) :
    n = bytes.length ∧ n ≤ 9 ∧
      (bytes = [] ∨ ∃ e ∈ commits (callsOf hist), Line eol e ∧ bytes <+: e) := by
  obtain ⟨c, w, hstroke, -, -⟩ := DeviceThreads.step_iff.mp hs
  rcases Conn.stroke_cases hstroke with ⟨-, act, hd, hstep⟩ | ⟨_, _, _, _, _, _, hd, _⟩
  · cases hd
    have htold := DeviceThreads.told_of_run h t
    simp only [Conn.Told, Conn.action_send_iff.mp (Conn.step_iff.mp hstep).1] at htold
    exact htold
  · cases hd

/-- Eleven connections; the last is told that the size is one. -/
theorem reply_le_nine_one : ∃ hist s s',
    Run DeviceThreads.step (fun _ _ => True) DeviceThreads.init hist s ∧
      s.step (10, .next .done { retval := 0 }) = .ok (.did (.send [97] 1), s') ∧
      ∃ e ∈ commits (callsOf hist), Line eol e ∧ [97] <+: e := by
  obtain ⟨hist, s, hrun, hsend⟩ := exists_run_of_replay DeviceThreads.step (fun _ _ => True)
    DeviceThreads.init
    ((List.range 11).flatMap appendStrokes ++
      [(10, .next .done { retval := 0 }), (10, .next (.position 1) { retval := 1 }),
        (10, .next (.position 0) { retval := 0 }), (10, .next .done { retval := 0 }),
        (10, .next (.data [97]) { retval := 1, copied := [97] })])
    (fun _ s => (s.step (10, .next .done { retval := 0 })).toOption.map (·.1) =
      some (.did (.send [97] 1))) (by decide +kernel)
  cases hs : s.step (10, .next .done { retval := 0 }) with
  | error f => exact absurd hsend (by rw [hs]; simp [Except.toOption])
  | ok res =>
    obtain ⟨d, s'⟩ := res
    rw [hs, Except.toOption, Option.map_some, Option.some.injEq] at hsend
    dsimp only at hsend
    subst hsend
    exact ⟨hist, s, s', hrun, hs, (reply_le_nine hrun hs).2.2.resolve_left (by simp)⟩

end Aesd
