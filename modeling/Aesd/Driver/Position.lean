import Aesd.Driver.Sampling

/-!
# Setting a position

`aesd_adjust_file_offset` and `aesd_llseek` set `f_pos`, and both go through the slots in the
order in which they lie in the array.  The commands are numbered from the oldest one on,
which is somewhere in the middle once the ring has gone round.

The number of a command finds the right one where the slots and the commands agree as far
as that command (`seek_command_iff`), which they do until the first one is replaced, and then
again each time the ring begins anew (`seek_command_in_order`).  The total size is not touched
by the order, but `SEEK_END` does not use it: it starts from `out_offs`, a number of slots
(`llseek_iff`).  And of the structure that the control call is given, one byte arrives
(`ioctl_iff`).
-/

namespace Aesd

open FixedWidth

/-! ## The traversal of `aesd_adjust_file_offset` -/

/-- The traversal goes to the slot of the number it is given, and adds up what it passes. -/
theorem adjustLoop_eq (writeCmd writeCmdOffset : ℕ) (fPos : ℤ) (es : List AesdBufferEntry)
    (i total : ℕ) (hi : i ≤ writeCmd) :
    adjustLoop writeCmd writeCmdOffset fPos es i total =
      match es[writeCmd - i]? with
      | none => (0, fPos)
      | some e =>
          if e.size ≤ writeCmdOffset then (-eInval, fPos)
          else
            (0, wrapS 64 (wrapU 64 (((es.take (writeCmd - i)).foldl
              (fun (total : ℕ) e => wrapU 64 (total + e.size)) total : ℕ) + writeCmdOffset))) := by
  induction es generalizing i total with
  | nil => rfl
  | cons e es ih =>
    rcases hi.lt_or_eq with hlt | rfl
    · have hsub : writeCmd - i = (writeCmd - (i + 1)) + 1 := by omega
      rw [adjustLoop, if_neg hlt.ne, ih _ _ hlt, hsub, List.getElem?_cons_succ,
        List.take_succ_cons, List.foldl_cons]
    · simp [adjustLoop]

/-- The sum does not wrap. -/
theorem foldl_wrapU_eq (l : List AesdBufferEntry) (total : ℕ) (h : ∀ e ∈ l, e.size < 2 ^ 31)
    (hfit : total + l.length * 2 ^ 31 < 2 ^ 63) :
    l.foldl (fun (total : ℕ) e => wrapU 64 (total + e.size)) total =
      total + (l.map (·.size)).sum := by
  induction l generalizing total with
  | nil => simp
  | cons e l ih =>
    have he := h e (by simp)
    rw [List.length_cons] at hfit
    have hstep : wrapU 64 ((total : ℤ) + e.size) = total + e.size := by
      exact_mod_cast wrapU_natCast (w := 64) (n := total + e.size) (by omega)
    rw [List.foldl_cons, hstep, ih _ (fun e' he' => h e' (by simp [he'])) (by omega),
      List.map_cons, List.sum_cons, Nat.add_assoc]

namespace Driver

variable {d : Driver}

/-- How many bytes the slots before this one hold. -/
def bytesBefore (d : Driver) (i : ℕ) : ℕ := (walk 10 d.slotBytes 0 i).flatten.length

theorem take_slots (d : Driver) {i : ℕ} (hi : i ≤ 10) :
    d.dev.bufferP.slots.take i = (List.range i).map d.dev.bufferP.slot := by
  rw [AesdCircularBuffer.slots_eq, ← List.map_take, List.take_range, min_eq_left hi]

theorem getElem?_slots (d : Driver) {i : ℕ} (hi : i < 10) :
    d.dev.bufferP.slots[i]? = some (d.dev.bufferP.slot i) := by
  rw [AesdCircularBuffer.slots_eq, List.getElem?_map, List.getElem?_range hi, Option.map_some]

theorem bytesBefore_eq (hw : d.Wf) {i : ℕ} (hi : i ≤ 10) :
    d.bytesBefore i = ((d.dev.bufferP.slots.take i).map (·.size)).sum := by
  rw [take_slots d hi, bytesBefore, walk, List.length_flatten, List.map_map, List.map_map]
  congr 1
  apply List.map_congr_left
  intro j hj
  rw [List.mem_range] at hj
  rw [Function.comp_apply, Function.comp_apply, Nat.zero_add, Nat.mod_eq_of_lt (by omega),
    hw.length_slotBytes]

theorem size_lt_of_mem_take (hw : d.Wf) {i : ℕ} (hi : i ≤ 10) :
    ∀ e ∈ d.dev.bufferP.slots.take i, e.size < 2 ^ 31 := by
  intro e he
  rw [take_slots d hi] at he
  obtain ⟨j, -, rfl⟩ := List.mem_map.mp he
  exact hw.size_lt j

theorem bytesBefore_le (hw : d.Wf) {i : ℕ} (hi : i ≤ 10) : d.bytesBefore i ≤ 10 * 2 ^ 31 := by
  have hlen : ((d.dev.bufferP.slots.take i).map (·.size)).length ≤ 10 := by
    rw [List.length_map, take_slots d hi, List.length_map, List.length_range]
    exact hi
  have hsizes : ∀ n ∈ (d.dev.bufferP.slots.take i).map (·.size), n ≤ 2 ^ 31 := by
    intro n hn
    obtain ⟨e, he, rfl⟩ := List.mem_map.mp hn
    exact (size_lt_of_mem_take hw hi e he).le
  rw [bytesBefore_eq hw hi]
  exact (List.sum_le_card_nsmul _ _ hsizes).trans (Nat.mul_le_mul_right _ hlen)

theorem adjust_interrupted (fPos : ℤ) (writeCmd writeCmdOffset : UInt32) :
    aesdAdjustFileOffset d fPos true writeCmd writeCmdOffset = (-eRestartsys, fPos) := by
  rw [aesdAdjustFileOffset, if_pos rfl]

/-- A number that is too large. -/
theorem adjust_of_ge {writeCmd : UInt32} (hge : 10 ≤ writeCmd.toNat) (fPos : ℤ)
    (writeCmdOffset : UInt32) :
    aesdAdjustFileOffset d fPos false writeCmd writeCmdOffset = (-eInval, fPos) := by
  rw [aesdAdjustFileOffset, if_neg Bool.false_ne_true, if_pos hge]

/-- An offset that is too large. -/
theorem adjust_of_size_le {writeCmd writeCmdOffset : UInt32} (hlt : writeCmd.toNat < 10)
    (hsize : (d.dev.bufferP.slot writeCmd.toNat).size ≤ writeCmdOffset.toNat) (fPos : ℤ) :
    aesdAdjustFileOffset d fPos false writeCmd writeCmdOffset = (-eInval, fPos) := by
  rw [aesdAdjustFileOffset, if_neg Bool.false_ne_true, if_neg (by simpa using hlt),
    adjustLoop_eq _ _ _ _ _ _ (Nat.zero_le _), Nat.sub_zero, getElem?_slots d hlt]
  exact if_pos hsize

/-- Neither is. -/
theorem adjust_of_lt_size {writeCmd writeCmdOffset : UInt32} (hlt : writeCmd.toNat < 10)
    (hsize : writeCmdOffset.toNat < (d.dev.bufferP.slot writeCmd.toNat).size) (fPos : ℤ) :
    (aesdAdjustFileOffset d fPos false writeCmd writeCmdOffset).1 = 0 ∧
      (d.Wf → (aesdAdjustFileOffset d fPos false writeCmd writeCmdOffset).2 =
        (d.bytesBefore writeCmd.toNat + writeCmdOffset.toNat : ℕ)) := by
  rw [aesdAdjustFileOffset, if_neg Bool.false_ne_true, if_neg (by simpa using hlt),
    adjustLoop_eq _ _ _ _ _ _ (Nat.zero_le _), Nat.sub_zero, getElem?_slots d hlt]
  dsimp only
  rw [if_neg (by omega)]
  refine ⟨rfl, fun hw => ?_⟩
  have hsizes := size_lt_of_mem_take hw hlt.le
  have hlen : (d.dev.bufferP.slots.take writeCmd.toNat).length = writeCmd.toNat := by
    rw [take_slots d hlt.le, List.length_map, List.length_range]
  have hbefore := bytesBefore_le hw hlt.le
  have hoff := writeCmdOffset.toNat_lt
  rw [foldl_wrapU_eq _ _ hsizes (by rw [hlen]; omega), Nat.zero_add, ← bytesBefore_eq hw hlt.le,
    ← Nat.cast_add, wrapU_natCast (by omega), wrapS_of_bounds (by omega) (by omega)]

end Driver

/-! ## Commands by number -/

/-- The commands that a device of ten slots still holds, oldest first. -/
def storedCommands (hist : List (Call × Reply)) : List (List UInt8) :=
  (commits hist).drop ((commits hist).length - 10)

/-- Seeking to a byte of a command, by the number of the command: what is returned, and the
position. -/
def seekCommand (commands : List (List UInt8)) (fPos : ℤ) (n offset : ℕ) : ℤ × ℤ :=
  match commands[n]? with
  | none => (-eInval, fPos)
  | some e =>
      if offset < e.length then (0, ((commands.take n).flatten.length + offset : ℕ))
      else (-eInval, fPos)

theorem seekCommand_of_le {commands : List (List UInt8)} {n offset : ℕ}
    (h : (commands.getD n []).length ≤ offset) (fPos : ℤ) :
    seekCommand commands fPos n offset = (-eInval, fPos) := by
  rw [List.getD_eq_getElem?_getD] at h
  unfold seekCommand
  cases hget : commands[n]? with
  | none => rfl
  | some e =>
    rw [hget, Option.getD_some] at h
    exact if_neg (by omega)

theorem seekCommand_of_lt {commands : List (List UInt8)} {n offset : ℕ}
    (h : offset < (commands.getD n []).length) (fPos : ℤ) :
    seekCommand commands fPos n offset =
      (0, (((commands.take n).flatten.length + offset : ℕ) : ℤ)) := by
  rw [List.getD_eq_getElem?_getD] at h
  unfold seekCommand
  cases hget : commands[n]? with
  | none =>
    rw [hget] at h
    exact absurd h (Nat.not_lt_zero _)
  | some e =>
    rw [hget, Option.getD_some] at h
    exact if_pos h

theorem length_flatten_take_succ {α : Type*} (l : List (List α)) (n : ℕ) :
    (l.take (n + 1)).flatten.length = (l.take n).flatten.length + (l.getD n []).length := by
  rw [List.take_add_one, List.flatten_append, List.length_append, List.getD_eq_getElem?_getD]
  cases l[n]? <;> simp

section Commands

variable {ok : Sys → Call → Prop} {hist : List (Call × Reply)} {s : Sys}

/-- **The number of a command finds it exactly if the slots and the commands agree as far as
that command**: in how many bytes there are before it, and in whether the offset is inside. -/
theorem seek_command_iff (h : Run Sys.step ok Sys.init hist s) (fPos : ℤ)
    (writeCmd writeCmdOffset : UInt32) :
    aesdAdjustFileOffset s.toDriver fPos false writeCmd writeCmdOffset =
        seekCommand (storedCommands hist) fPos writeCmd.toNat writeCmdOffset.toNat ↔
      10 ≤ writeCmd.toNat ∨
      ((s.dev.bufferP.slot writeCmd.toNat).size ≤ writeCmdOffset.toNat ∧
        ((storedCommands hist).getD writeCmd.toNat []).length ≤ writeCmdOffset.toNat) ∨
      (writeCmdOffset.toNat < (s.dev.bufferP.slot writeCmd.toNat).size ∧
        writeCmdOffset.toNat < ((storedCommands hist).getD writeCmd.toNat []).length ∧
        s.bytesBefore writeCmd.toNat =
          ((storedCommands hist).take writeCmd.toNat).flatten.length) := by
  have hw := Sys.wf_of_run h
  rcases le_or_gt 10 writeCmd.toNat with hge | hlt
  · have hlen : (storedCommands hist).length ≤ writeCmd.toNat := by
      rw [storedCommands, List.length_drop]
      omega
    have hnone : ((storedCommands hist).getD writeCmd.toNat []).length ≤ writeCmdOffset.toNat := by
      rw [List.getD_eq_getElem?_getD, List.getElem?_eq_none hlen]
      exact Nat.zero_le _
    rw [Driver.adjust_of_ge hge, seekCommand_of_le hnone]
    exact iff_of_true rfl (Or.inl hge)
  rw [or_iff_right (not_le.mpr hlt)]
  rcases le_or_gt (s.dev.bufferP.slot writeCmd.toNat).size writeCmdOffset.toNat with
      hslot | hslot <;>
    rcases le_or_gt ((storedCommands hist).getD writeCmd.toNat []).length
      writeCmdOffset.toNat with hcommand | hcommand
  · rw [Driver.adjust_of_size_le hlt hslot, seekCommand_of_le hcommand]
    exact iff_of_true rfl (Or.inl ⟨hslot, hcommand⟩)
  · rw [Driver.adjust_of_size_le hlt hslot, seekCommand_of_lt hcommand]
    refine iff_of_false (fun heq => ?_) (by omega)
    exact absurd (Prod.mk.inj heq).1 (by decide)
  · have hzero := (Driver.adjust_of_lt_size hlt hslot fPos).1
    rw [seekCommand_of_le hcommand]
    refine iff_of_false (fun heq => ?_) (by omega)
    rw [heq] at hzero
    simp at hzero
  · obtain ⟨hzero, hpos⟩ := Driver.adjust_of_lt_size hlt hslot fPos
    rw [seekCommand_of_lt hcommand, Prod.ext_iff, hzero, hpos hw]
    constructor
    · rintro ⟨-, heq⟩
      have heq' := Nat.cast_inj.mp heq
      exact Or.inr ⟨hslot, hcommand, Nat.add_right_cancel heq'⟩
    · rintro (⟨hle, -⟩ | ⟨-, -, heq⟩)
      · omega
      · exact ⟨rfl, by rw [heq]⟩

/-- **Until a command is replaced, and each time the ring begins anew**, the slots are the
commands. -/
theorem slots_eq_commands (h : Run Sys.step ok Sys.init hist s)
    (hlap : (commits hist).length ≤ 10 ∨ (commits hist).length % 10 = 0) {j : ℕ} (hj : j < 10) :
    s.slotBytes j = (storedCommands hist).getD j [] := by
  obtain ⟨hring, -⟩ := Sys.ring_of_run h
  rw [List.getD_eq_getElem?_getD, storedCommands, List.getElem?_drop]
  cases hget : (commits hist)[(commits hist).length - 10 + j]? with
  | none =>
    rw [List.getElem?_eq_none_iff] at hget
    exact hring.unwritten j (by omega) hj
  | some e =>
    have hlt := (List.getElem?_eq_some_iff.mp hget).1
    have hrecent := hring.recent _ e hget (by omega)
    rw [show ((commits hist).length - 10 + j) % 10 = j by omega] at hrecent
    exact hrecent

/-- So any number finds its command then. -/
theorem seek_command_in_order (h : Run Sys.step ok Sys.init hist s)
    (hlap : (commits hist).length ≤ 10 ∨ (commits hist).length % 10 = 0) {n : ℕ} (hn : n < 10) :
    (s.dev.bufferP.slot n).size = ((storedCommands hist).getD n []).length ∧
      s.bytesBefore n = ((storedCommands hist).take n).flatten.length := by
  refine ⟨?_, ?_⟩
  · rw [← slots_eq_commands h hlap hn, (Sys.wf_of_run h).length_slotBytes]
  · induction n with
    | zero => rfl
    | succ n ih =>
      have hslot := slots_eq_commands h hlap (show n < 10 by omega)
      rw [Driver.bytesBefore, walk_add, List.flatten_append, List.length_append,
        ← Driver.bytesBefore, ih (by omega), length_flatten_take_succ, ← hslot]
      simp [walk, Nat.mod_eq_of_lt (show n < 10 by omega)]

end Commands

/-- One command of three bytes, and its second byte. -/
theorem seek_command_one :
    ∃ hist s, Run Sys.step (fun _ _ => True) Sys.init hist s ∧ commits hist = [[97, 98, 10]] ∧
      aesdAdjustFileOffset s.toDriver 3 false 0 1 =
        seekCommand (storedCommands hist) 3 (0 : UInt32).toNat (1 : UInt32).toNat := by
  obtain ⟨hist, s, hrun, hcommits, hslot⟩ := exists_run_of_replay Sys.step (fun _ _ => True)
    Sys.init [.aesdOpen 0, writeLine [97, 98, 10]]
    (fun hist s => commits hist = [[97, 98, 10]] ∧ (s.dev.bufferP.slot 0).size = 3)
    (by decide +kernel)
  refine ⟨hist, s, hrun, hcommits, (seek_command_iff hrun 3 0 1).mpr (Or.inr (Or.inr ?_))⟩
  rw [storedCommands, hcommits]
  exact ⟨by rw [show (0 : UInt32).toNat = 0 by rfl, hslot]; decide, by decide, rfl⟩

/-- Eleven commands: number 0 is the eleventh, where the second is meant. -/
theorem seek_command_differs :
    ∃ hist s, Run Sys.step (fun _ _ => True) Sys.init hist s ∧
      aesdAdjustFileOffset s.toDriver 14 false 0 3 = (0, 3) ∧
      seekCommand (storedCommands hist) 14 0 3 = (-eInval, 14) :=
  exists_run_of_replay Sys.step (fun _ _ => True) Sys.init
    ([.aesdOpen 0] ++ List.replicate 10 (writeLine [10]) ++ [writeLine [97, 98, 99, 10]])
    (fun hist s => aesdAdjustFileOffset s.toDriver 14 false 0 3 = (0, 3) ∧
      seekCommand (storedCommands hist) 14 0 3 = (-eInval, 14)) (by decide +kernel)

/-! ## What arrives of the structure -/

/-- `AESDCHAR_IOCSEEKTO` as a request. -/
def seektoRequest : UInt32 := .ofNat aesdcharIocseekto

/-- `seekto` once the first byte has been copied over what the stack held. -/
def seektoCopied (stack : Vector UInt8 8) (b : UInt8) : AesdSeekto :=
  .ofBytes (stack.setIfInBounds 0 b)

/-- The control call copies one byte. -/
theorem aesdIoctl_seekto (d : Driver) (fPos : ℤ) (interrupted : Bool) (b : UInt8)
    (bs : List UInt8) (stack : Vector UInt8 8) :
    aesdIoctl d fPos interrupted seektoRequest (b :: bs) stack =
      aesdAdjustFileOffset d fPos interrupted (seektoCopied stack b).writeCmd
        (seektoCopied stack b).writeCmdOffset := by
  have htype : ¬ seektoRequest.toNat / 2 ^ 8 % 2 ^ 8 ≠ aesdIocMagic := by decide
  have hnr : ¬ aesdcharIocMaxnr < seektoRequest.toNat % 2 ^ 8 := by decide
  have hcmd : seektoRequest.toNat = aesdcharIocseekto := by decide
  have hset : stack.setIfInBounds 0 b = stack.set 0 b := by
    ext i hi
    rw [Vector.getElem_setIfInBounds, Vector.getElem_set]
  unfold aesdIoctl seektoCopied
  rw [if_neg htype, if_neg hnr, if_pos hcmd, hset]

/-- There is no other request. -/
theorem aesdIoctl_of_ne {cmd : UInt32} (hcmd : cmd ≠ seektoRequest) (d : Driver) (fPos : ℤ)
    (interrupted : Bool) (arg : List UInt8) (stack : Vector UInt8 8) :
    aesdIoctl d fPos interrupted cmd arg stack = (-eNotty, fPos) := by
  have hne : cmd.toNat ≠ aesdcharIocseekto := fun h =>
    hcmd (UInt32.toNat_inj.mp (h.trans (by decide)))
  unfold aesdIoctl
  rw [if_neg hne, ite_self, ite_self]

/-- The request is for a byte that a slot has. -/
def Driver.Seekable (d : Driver) (seekto : AesdSeekto) : Prop :=
  seekto.writeCmd.toNat < 10 ∧
    seekto.writeCmdOffset.toNat < (d.dev.bufferP.slot seekto.writeCmd.toNat).size

instance (d : Driver) (seekto : AesdSeekto) : Decidable (d.Seekable seekto) :=
  inferInstanceAs (Decidable (_ ∧ _))

/-- The position of that byte, the slots taken in the order of the array. -/
def Driver.seekPosition (d : Driver) (seekto : AesdSeekto) : ℕ :=
  d.bytesBefore seekto.writeCmd.toNat + seekto.writeCmdOffset.toNat

/-- The control call seeks to a byte of a slot, or it leaves the position alone. -/
theorem aesdIoctl_cases {d : Driver} (hw : d.Wf) (fPos : ℤ) (interrupted : Bool) (cmd : UInt32)
    (arg : List UInt8) (stack : Vector UInt8 8) :
    (interrupted = false ∧ cmd = seektoRequest ∧ ∃ b, arg.head? = some b ∧
      d.Seekable (seektoCopied stack b) ∧
      (aesdIoctl d fPos interrupted cmd arg stack).2 =
        d.seekPosition (seektoCopied stack b)) ∨
    ((aesdIoctl d fPos interrupted cmd arg stack).2 = fPos ∧
      (interrupted = false → cmd = seektoRequest → ∀ b, arg.head? = some b →
        ¬ d.Seekable (seektoCopied stack b))) := by
  by_cases hcmd : cmd = seektoRequest
  · subst hcmd
    cases arg with
    | nil => exact Or.inr ⟨rfl, fun _ _ b h => by cases h⟩
    | cons b bs =>
      rw [aesdIoctl_seekto]
      cases interrupted with
      | true =>
        rw [Driver.adjust_interrupted]
        exact Or.inr ⟨rfl, fun h => by cases h⟩
      | false =>
        by_cases hseek : d.Seekable (seektoCopied stack b)
        · obtain ⟨-, hpos⟩ := Driver.adjust_of_lt_size hseek.1 hseek.2 fPos
          exact Or.inl ⟨rfl, rfl, b, rfl, hseek, hpos hw⟩
        · refine Or.inr ⟨?_, fun _ _ b' h => ?_⟩
          · rcases le_or_gt 10 (seektoCopied stack b).writeCmd.toNat with hge | hlt
            · rw [Driver.adjust_of_ge hge]
            · rw [Driver.adjust_of_size_le hlt (not_lt.mp fun h => hseek ⟨hlt, h⟩)]
          · obtain rfl := Option.some.inj h
            exact hseek
  · rw [aesdIoctl_of_ne hcmd]
    exact Or.inr ⟨rfl, fun _ h => absurd h hcmd⟩

theorem word32_toNat (b₀ b₁ b₂ b₃ : UInt8) :
    (word32 b₀ b₁ b₂ b₃).toNat =
      b₀.toNat + 2 ^ 8 * b₁.toNat + 2 ^ 16 * b₂.toNat + 2 ^ 24 * b₃.toNat := by
  have h₀ := b₀.toNat_lt
  have h₁ := b₁.toNat_lt
  have h₂ := b₂.toNat_lt
  have h₃ := b₃.toNat_lt
  rw [word32, UInt32.toNat_ofNat', Nat.mod_eq_of_lt (by omega)]

/-- The first byte is the low byte of the number. -/
theorem AesdSeekto.ofBytes_writeCmd (m : Vector UInt8 8) :
    (AesdSeekto.ofBytes m).writeCmd.toNat % 256 = (m.get 0).toNat := by
  have hlt := (m.get 0).toNat_lt
  have hget : m.get 0 = m[0] := rfl
  rw [hget] at hlt ⊢
  rw [ofBytes, word32_toNat]
  omega

theorem seektoCopied_writeCmd (stack : Vector UInt8 8) (b : UInt8) :
    (seektoCopied stack b).writeCmd.toNat % 256 = b.toNat := by
  have hget : (stack.setIfInBounds 0 b).get 0 = b :=
    Vector.getElem_setIfInBounds_self (by decide)
  rw [seektoCopied, AesdSeekto.ofBytes_writeCmd, hget]

/-- The first byte from the user, and the others as they were. -/
theorem seektoCopied_replicate (a b : UInt8) :
    seektoCopied (.replicate 8 a) b = ⟨word32 b a a a, word32 a a a a⟩ := by
  simp [seektoCopied, AesdSeekto.ofBytes]

theorem toList_eq_cons (m : Vector UInt8 8) : m.toList = m.get 0 :: m.toList.drop 1 := by
  apply List.ext_getElem (by simp)
  intro i hi hi'
  cases i <;> simp [Vector.get]

/-- A number that is refused whatever the rest of it and the offset are. -/
theorem Driver.adjust_refused {d : Driver} {writeCmd : UInt32}
    (h : 10 ≤ writeCmd.toNat % 256 ∨ (d.dev.bufferP.slot (writeCmd.toNat % 256)).size = 0)
    (fPos : ℤ) (writeCmdOffset : UInt32) :
    aesdAdjustFileOffset d fPos false writeCmd writeCmdOffset = (-eInval, fPos) := by
  rcases le_or_gt 10 writeCmd.toNat with hge | hlt
  · exact adjust_of_ge hge fPos writeCmdOffset
  · rw [Nat.mod_eq_of_lt (by omega)] at h
    exact adjust_of_size_le hlt (by omega) fPos

/-- **The control call does what it was asked to, whatever the stack held, exactly if it
refuses anyway.** -/
theorem ioctl_iff (d : Driver) (fPos : ℤ) (interrupted : Bool) (m : Vector UInt8 8)
    (rest : List UInt8) :
    (∀ stack₁ stack₂ : Vector UInt8 8,
      aesdIoctl d fPos interrupted seektoRequest (m.toList ++ rest) stack₁ =
          aesdIoctl d fPos interrupted seektoRequest (m.toList ++ rest) stack₂ ∧
        aesdIoctl d fPos interrupted seektoRequest (m.toList ++ rest) stack₁ =
          aesdAdjustFileOffset d fPos interrupted (AesdSeekto.ofBytes m).writeCmd
            (AesdSeekto.ofBytes m).writeCmdOffset) ↔
      interrupted = true ∨ 10 ≤ (AesdSeekto.ofBytes m).writeCmd.toNat % 256 ∨
        (d.dev.bufferP.slot ((AesdSeekto.ofBytes m).writeCmd.toNat % 256)).size = 0 := by
  have hlow := AesdSeekto.ofBytes_writeCmd m
  rw [toList_eq_cons m, List.cons_append]
  simp only [aesdIoctl_seekto]
  cases interrupted with
  | true =>
    refine iff_of_true (fun _ _ => ?_) (Or.inl rfl)
    rw [Driver.adjust_interrupted, Driver.adjust_interrupted, Driver.adjust_interrupted]
    exact ⟨rfl, rfl⟩
  | false =>
    rw [or_iff_right Bool.false_ne_true, hlow]
    constructor
    · intro h
      by_contra hserved
      push Not at hserved
      obtain ⟨hlt, hsize⟩ := hserved
      -- zeros seek to the start of a slot, and ones make the number too large
      obtain ⟨heq, -⟩ := h (Vector.replicate 8 0) (Vector.replicate 8 1)
      rw [seektoCopied_replicate, seektoCopied_replicate] at heq
      have hfirst : (word32 (m.get 0) 0 0 0).toNat = (m.get 0).toNat := by simp [word32_toNat]
      have hzero : (word32 0 0 0 0).toNat = 0 := by simp [word32_toNat]
      have hsecond : 10 ≤ (word32 (m.get 0) 1 1 1).toNat := by
        simp only [word32_toNat, show (1 : UInt8).toNat = 1 by rfl]
        omega
      have hserved : (aesdAdjustFileOffset d fPos false (word32 (m.get 0) 0 0 0)
          (word32 0 0 0 0)).1 = 0 :=
        (Driver.adjust_of_lt_size (by rw [hfirst]; exact hlt)
          (by rw [hfirst, hzero]; omega) fPos).1
      rw [heq, Driver.adjust_of_ge hsecond] at hserved
      exact absurd hserved (by simp)
    · intro hrefused stack₁ stack₂
      rw [Driver.adjust_refused (by rw [seektoCopied_writeCmd]; exact hrefused),
        Driver.adjust_refused (by rw [seektoCopied_writeCmd]; exact hrefused),
        Driver.adjust_refused (by rw [hlow]; exact hrefused)]
      exact ⟨rfl, rfl⟩

/-- One command of three bytes, and a request for its third byte: the position is set to the
first, or not at all. -/
theorem ioctl_depends_on_stack :
    ∃ hist s, Run Sys.step (fun _ _ => True) Sys.init hist s ∧ s.fPos 0 = some 3 ∧
      AesdSeekto.ofBytes #v[0, 0, 0, 0, 2, 0, 0, 0] = ⟨0, 2⟩ ∧
      aesdAdjustFileOffset s.toDriver 3 false 0 2 = (0, 2) ∧
      aesdIoctl s.toDriver 3 false seektoRequest [0, 0, 0, 0, 2, 0, 0, 0]
        (Vector.replicate 8 0) = (0, 0) ∧
      aesdIoctl s.toDriver 3 false seektoRequest [0, 0, 0, 0, 2, 0, 0, 0]
        (Vector.replicate 8 1) = (-eInval, 3) := by
  obtain ⟨hist, s, hrun, hfile, hadjust, hzeros, hones⟩ := exists_run_of_replay Sys.step
    (fun _ _ => True) Sys.init [.aesdOpen 0, writeLine [97, 98, 10]]
    (fun _ s => s.fPos 0 = some 3 ∧ aesdAdjustFileOffset s.toDriver 3 false 0 2 = (0, 2) ∧
      aesdIoctl s.toDriver 3 false seektoRequest [0, 0, 0, 0, 2, 0, 0, 0]
        (Vector.replicate 8 0) = (0, 0) ∧
      aesdIoctl s.toDriver 3 false seektoRequest [0, 0, 0, 0, 2, 0, 0, 0]
        (Vector.replicate 8 1) = (-eInval, 3)) (by decide +kernel)
  exact ⟨hist, s, hrun, hfile, by decide +kernel, hadjust, hzeros, hones⟩

/-! ## `aesd_llseek` -/

/-- The position a seek is relative to, with so many bytes stored. -/
def seekBase (whence : Int32) (fPos : ℤ) (total : ℕ) : ℤ :=
  if whence = 0 then 0 else if whence = 1 then fPos else total

/-- A seek to a position that has to be within what is stored. -/
def seekWithin (total : ℕ) (fPos q : ℤ) : ℤ × ℤ :=
  if 0 ≤ q ∧ q ≤ total then (q, q) else (-eInval, fPos)

/-- Two positions are treated alike if they are the same, or both are refused. -/
theorem seekWithin_eq_iff {total : ℕ} {fPos q q' : ℤ} :
    seekWithin total fPos q = seekWithin total fPos q' ↔
      q = q' ∨ ¬ (0 ≤ q ∧ q ≤ total) ∧ ¬ (0 ≤ q' ∧ q' ≤ total) := by
  unfold seekWithin
  split_ifs with h h' h'
  · rw [Prod.mk.injEq]
    omega
  · rw [Prod.mk.injEq, eInval]
    omega
  · rw [Prod.mk.injEq, eInval]
    omega
  · exact iff_of_true rfl (Or.inr ⟨h, h'⟩)

/-- What is stored is far from filling a `loff_t`. -/
theorem Driver.Wf.length_stored_le {d : Driver} (hw : d.Wf) :
    d.stored.length ≤ 10 * 2 ^ 31 := by
  rw [Driver.stored, length_flatten_walk_round 10 d.slotBytes _ 0]
  exact Driver.bytesBefore_le hw (le_refl _)

/-- **A sum that wraps is refused like one that does not.** -/
theorem aesdLlseek_eq {d : Driver} (hw : d.Wf) {fPos b : ℤ} {offset : Int64} {whence : Int32}
    (h0 : 0 ≤ b) (hb : b < 2 ^ 62)
    (htarget : seekTarget d fPos offset whence = some (wrapS 64 (b + offset.toInt))) :
    aesdLlseek d fPos false offset whence =
      seekWithin d.stored.length fPos (b + offset.toInt) := by
  have hlo := offset.le_toInt
  have hhi := offset.toInt_lt
  have hlen := hw.length_stored_le
  have hwrap : wrapS 64 (b + offset.toInt) = b + offset.toInt ∨
      2 ^ 63 ≤ b + offset.toInt ∧ wrapS 64 (b + offset.toInt) < 0 := by
    rcases lt_or_ge (b + offset.toInt) (2 ^ 63) with hlt | hge
    · exact Or.inl (wrapS_of_bounds (by omega) (by omega))
    · have hu := wrapU_emod 64 (b + offset.toInt)
      refine Or.inr ⟨hge, ?_⟩
      unfold wrapS
      split_ifs <;> omega
  rw [aesdLlseek, if_neg Bool.false_ne_true, totalSize_eq hw, seekWithin]
  rcases aesdLlseekLocked_cases d d.stored.length fPos offset whence with
    ⟨q, hq, hq0, hqT, heq⟩ | ⟨heq, hrefused⟩
  · rw [htarget, Option.some.injEq] at hq
    rw [heq, if_pos (by omega)]
    congr 1 <;> omega
  · have := hrefused _ htarget
    rw [heq, if_neg (by omega)]

/-- **A seek follows its contract, unless it is relative to the end** and the number of the
slot to be read is in place of the number of bytes. -/
theorem llseek_iff {ok : Sys → Call → Prop} {hist : List (Call × Reply)} {s : Sys}
    (h : Run Sys.step ok Sys.init hist s) {fPos : ℤ} (h0 : 0 ≤ fPos)
    (hT : fPos ≤ s.stored.length) (offset : Int64) {whence : Int32}
    (hwhence : whence = 0 ∨ whence = 1 ∨ whence = 2) :
    aesdLlseek s.toDriver fPos false offset whence =
        seekWithin s.stored.length fPos
          (seekBase whence fPos s.stored.length + offset.toInt) ↔
      whence ≠ 2 ∨ s.dev.bufferP.outOffs = s.stored.length ∨
      (¬ (0 ≤ s.dev.bufferP.outOffs + offset.toInt ∧
          s.dev.bufferP.outOffs + offset.toInt ≤ s.stored.length) ∧
        ¬ (0 ≤ s.stored.length + offset.toInt ∧
          s.stored.length + offset.toInt ≤ s.stored.length)) := by
  have hw := Sys.wf_of_run h
  have hout := hw.outOffs_lt
  have hlen := hw.length_stored_le
  rcases hwhence with rfl | rfl | rfl
  · have hlo := offset.le_toInt
    have hhi := offset.toInt_lt
    refine iff_of_true ?_ (Or.inl (by decide))
    rw [aesdLlseek_eq hw (le_refl 0) (by omega)]
    · rfl
    · rw [zero_add, wrapS_of_bounds (by omega) (by omega)]
      rfl
  · have hbase : seekBase 1 fPos s.stored.length = fPos := rfl
    refine iff_of_true ?_ (Or.inl (by decide))
    rw [hbase]
    exact aesdLlseek_eq hw h0 (by omega) rfl
  · have hbase : seekBase 2 fPos s.stored.length = s.stored.length := rfl
    rw [aesdLlseek_eq (b := s.dev.bufferP.outOffs) hw (by omega) (by omega) rfl, hbase,
      seekWithin_eq_iff, or_iff_right (show ¬ (2 : Int32) ≠ 2 by simp)]
    omega

/-- Three bytes stored, and a seek past them by a distance that wraps. -/
theorem llseek_far :
    ∃ hist s, Run Sys.step (fun _ _ => True) Sys.init hist s ∧ s.stored = [97, 98, 10] ∧
      aesdLlseek s.toDriver 3 false Int64.maxValue 1 =
        seekWithin s.stored.length 3
          (seekBase 1 3 s.stored.length + Int64.maxValue.toInt) := by
  obtain ⟨hist, s, hrun, hstored⟩ := exists_run_of_replay Sys.step (fun _ _ => True)
    Sys.init [.aesdOpen 0, writeLine [97, 98, 10]] (fun _ s => s.stored = [97, 98, 10])
    (by decide +kernel)
  refine ⟨hist, s, hrun, hstored, ?_⟩
  exact (llseek_iff hrun (by omega) (by rw [hstored]; decide) Int64.maxValue
    (Or.inr (Or.inl rfl))).mpr (Or.inl (by decide))

/-- And a seek to the end of them, which goes to the beginning. -/
theorem llseek_end_differs :
    ∃ hist s, Run Sys.step (fun _ _ => True) Sys.init hist s ∧ s.stored = [97, 98, 10] ∧
      s.fPos 0 = some 3 ∧ aesdLlseek s.toDriver 3 false 0 2 = (0, 0) ∧
      seekWithin s.stored.length 3 (seekBase 2 3 s.stored.length + (0 : Int64).toInt) = (3, 3) :=
  exists_run_of_replay Sys.step (fun _ _ => True) Sys.init
    [.aesdOpen 0, writeLine [97, 98, 10]]
    (fun _ s => s.stored = [97, 98, 10] ∧ s.fPos 0 = some 3 ∧
      aesdLlseek s.toDriver 3 false 0 2 = (0, 0) ∧
      seekWithin s.stored.length 3 (seekBase 2 3 s.stored.length + (0 : Int64).toInt) = (3, 3))
    (by decide +kernel)

end Aesd
