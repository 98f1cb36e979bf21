import Aesd.Driver.Contents
import Aesd.Driver.Stream

/-!
# Reading after a seek

`aesd_llseek` bounds a position by the total size of what is stored, and
`aesd_adjust_file_offset` computes positions in the concatenation of the entries.
`aesd_read` takes the same number for a position inside the entry at `out_offs`.  The
two readings of `f_pos` have nothing to do with each other, so what a read after a seek
delivers is what it was asked for only where the entry at `out_offs` happens to begin
with those bytes (`read_after_seek_iff`).  At the start of that very entry it does
(`read_at_entry_start`), provided the entry is longer than everything before it.
-/

namespace Aesd

open FixedWidth

/-- A seek that succeeds sets the position it returns. -/
theorem aesdLlseek_set {d : Driver} {fPos : ℤ} {interrupted : Bool} {offset : Int64}
    {whence : Int32} (h : 0 ≤ (aesdLlseek d fPos interrupted offset whence).1) :
    aesdLlseek d fPos interrupted offset whence =
      ((aesdLlseek d fPos interrupted offset whence).1,
        (aesdLlseek d fPos interrupted offset whence).1) := by
  unfold aesdLlseek at h ⊢
  cases interrupted with
  | true => exact absurd h (by simp)
  | false =>
    simp only [Bool.false_eq_true, if_false] at h ⊢
    unfold aesdLlseekLocked at h ⊢
    dsimp only at h ⊢
    split at h
    · exact absurd h (by simp)
    · split at h
      · exact absurd h (by simp)
      · next hin => rw [if_neg hin]

/-- The position a `SEEK_SET` returns is the offset. -/
theorem aesdLlseek_seekSet {d : Driver} {fPos : ℤ} {interrupted : Bool} {offset : Int64}
    (h : 0 ≤ (aesdLlseek d fPos interrupted offset 0).1) :
    (aesdLlseek d fPos interrupted offset 0).1 = offset.toInt := by
  unfold aesdLlseek at h ⊢
  cases interrupted with
  | true => exact absurd h (by simp)
  | false =>
    simp only [Bool.false_eq_true, if_false, aesdLlseekLocked, if_true] at h ⊢
    split at h
    · exact absurd h (by simp)
    · next hin => rw [if_neg hin]

/-- The state after a successful seek. -/
theorem Sys.step_seek {s s' : Sys} {file : ℕ} {interrupted : Bool} {offset : Int64} {r : Reply}
    {p : ℕ} (h : s.step (.aesdLlseek file interrupted offset 0) = .ok (r, s'))
    (hp : r.retval = p) : s' = s.after file p s.toDriver ∧ p < 2 ^ 63 := by
  rcases onFile_ok h with ⟨-, rfl, rfl⟩ | ⟨q, -, hk⟩
  · exact absurd hp (by simp only [eBadf]; omega)
  · simp only [Except.ok.injEq, Prod.mk.injEq] at hk
    obtain ⟨rfl, rfl⟩ := hk
    have hpos : 0 ≤ (Aesd.aesdLlseek s.toDriver q interrupted offset 0).1 := by
      simp only at hp
      omega
    have hset := aesdLlseek_set hpos
    have hoff := aesdLlseek_seekSet hpos
    have hlt := Int64.toInt_lt offset
    simp only at hp
    rw [hset, hp]
    exact ⟨rfl, by omega⟩

/-- The two ways of cutting a request off at the end of the entry agree, for a request
that delivers something. -/
theorem readCount_eq_min {d : Driver} {p count : ℕ} (hp : p < 2 ^ 63) (hcount : count < 2 ^ 64)
    (hsize : d.current.size < 2 ^ 31) (hle : readCount d p count ≤ d.current.size)
    (hpos : 0 < readCount d p count) :
    p < d.current.size ∧ p + count < 2 ^ 64 ∧
      readCount d p count = min count (d.current.size - p) := by
  -- past the end of the entry the difference wraps to something enormous
  have hbefore : readLast d p count = true → p < d.current.size ∧
      readCount d p count = d.current.size - p := by
    intro hl
    rw [readCount, if_pos hl] at hle hpos ⊢
    rcases le_or_gt p d.current.size with hin | hout
    · have hdiff : (d.current.size : ℤ) - p = ((d.current.size - p : ℕ) : ℤ) := by omega
      rw [hdiff, wrapU_natCast (by omega)] at hpos ⊢
      omega
    · have hneg := wrapU_of_neg (w := 64) (x := (d.current.size : ℤ) - p) (by omega) (by omega)
      omega
  rcases lt_or_ge (p + count) (2 ^ 64) with hfit | hover
  · by_cases hl : readLast d p count = true
    · obtain ⟨hin, hn⟩ := hbefore hl
      rw [readLast_natCast hfit, decide_eq_true_eq] at hl
      exact ⟨hin, hfit, by omega⟩
    · have hn : readCount d p count = count := by rw [readCount, if_neg hl]
      rw [readLast_natCast hfit, decide_eq_true_eq] at hl
      exact ⟨by omega, hfit, by omega⟩
  · exfalso
    by_cases hl : readLast d p count = true
    · obtain ⟨hin, -⟩ := hbefore hl
      have hwrap : wrapU 64 ((p : ℤ) + count) = p + count - 2 ^ 64 := by
        unfold wrapU
        omega
      rw [readLast, hwrap, decide_eq_true_eq] at hl
      omega
    · rw [readCount, if_neg hl] at hle
      omega

/-- **What a read at a position delivers.**  A read that succeeds and delivers something
is at a position inside the current entry, and delivers the beginning of the entry. -/
theorem aesdRead_delivers_iff {d : Driver} {p avail count : ℕ} (hw : d.Wf) (hp : p < 2 ^ 63)
    (hcount : count < 2 ^ 64) (hpos : 0 < count) (havail : count ≤ avail)
    (k : ℕ) (bytes : List UInt8) :
    (∃ r q d', aesdRead d p false avail count = .ok (r, q, d') ∧ r.retval = k ∧
        r.copied = bytes ∧ 0 < k) ↔
      d.dev.readCounter ≠ 10 ∧ p < d.current.size ∧ p + count < 2 ^ 64 ∧
        k = min count (d.current.size - p) ∧
        bytes = (d.slotBytes d.dev.bufferP.outOffs).take k := by
  constructor
  · rintro ⟨r, q, d', hread, hret, hcopied, hk⟩
    have hout := aesdRead_outcome hw p false avail count
    rw [hread] at hout
    cases hout with
    | interrupted h => exact absurd h (by simp)
    | nothing => simp only at hret; omega
    | stopped => simp only at hret; omega
    | fault => simp only [eFault] at hret; omega
    | served _ hsize hcounter hle _ _ =>
      simp only [Nat.cast_inj] at hret
      have hmin := readCount_eq_min hp hcount (hw.current_size_lt hsize) hle (by omega)
      rw [hret] at hcopied hmin
      exact ⟨hcounter, hmin.1, hmin.2.1, hmin.2.2, hcopied.symm⟩
  · rintro ⟨hcounter, hin, hfit, rfl, rfl⟩
    have hsize : d.current.size ≠ 0 := by omega
    rcases lt_or_ge d.current.size (p + count) with hpast | hwithin
    · have hread := aesdRead_past_end hw hsize hcounter hin.le hpast hfit havail
      rw [min_eq_right (by omega)]
      exact ⟨_, _, _, hread, rfl, rfl, by omega⟩
    · have hread := aesdRead_within hw hsize hcounter hwithin havail
      rw [min_eq_left (by omega)]
      exact ⟨_, _, _, hread, rfl, rfl, hpos⟩

/-- **Seek and read agree exactly where the entry at `out_offs` begins with the bytes
asked for.**  A position is set; a read that follows returns bytes that are stored from
that position on, if and only if no ten reads have been counted, the position is smaller
than the size of the entry at `out_offs`, and the beginning of that entry is the same
as what is stored from the position on, as far as the read goes. -/
theorem read_after_seek_iff {ok : Sys → Call → Prop} {hist : List (Call × Reply)}
    {s s₁ : Sys} {file : ℕ} {interrupted : Bool} {offset : Int64} {r₁ : Reply} {p : ℕ}
    {avail : ℕ} {count : UInt64} (h : Run Sys.step ok Sys.init hist s)
    (hseek : s.step (.aesdLlseek file interrupted offset 0) = .ok (r₁, s₁))
    (hp : r₁.retval = p) (hcount : 0 < count.toNat) (havail : count.toNat ≤ avail) :
    s.stored = ((commits hist).drop ((commits hist).length - 10)).flatten ∧
      ((∃ r t k, s₁.step (.aesdRead file false avail count) = .ok (r, t) ∧ 0 < k ∧
          r.retval = (k : ℕ) ∧ r.copied.length = k ∧ r.copied = (s.stored.drop p).take k) ↔
        s.dev.readCounter ≠ 10 ∧ p < s.current.size ∧ p + count.toNat < 2 ^ 64 ∧
          (s.slotBytes s.dev.bufferP.outOffs).take (min count.toNat (s.current.size - p)) =
            (s.stored.drop p).take (min count.toNat (s.current.size - p))) := by
  have hw := Sys.wf_of_run h
  obtain ⟨rfl, hlt⟩ := Sys.step_seek hseek hp
  have hlen : (s.slotBytes s.dev.bufferP.outOffs).length = s.current.size :=
    hw.length_slotBytes _
  have hiff := aesdRead_delivers_iff hw hlt count.toNat_lt hcount havail
  have hstep : (s.after file p s.toDriver).step (.aesdRead file false avail count) =
      (aesdRead s.toDriver p false avail count.toNat).map fun r =>
        (r.1, s.after file r.2.1 r.2.2) := by
    simp only [Sys.step, Sys.onFile, Sys.after_fPos_self, Sys.after_toDriver, Sys.after_after]
  refine ⟨stored_eq h, ?_⟩
  rw [hstep]
  constructor
  · rintro ⟨r, t, k, hread, hk, hret, -, hcopied⟩
    obtain ⟨q, d, hres, -⟩ := Sys.map_ok hread
    obtain ⟨hcounter, hin, hfit, rfl, hbytes⟩ :=
      (hiff k r.copied).mp ⟨r, q, d, hres, hret, rfl, hk⟩
    exact ⟨hcounter, hin, hfit, by rw [← hbytes, hcopied]⟩
  · rintro ⟨hcounter, hin, hfit, heq⟩
    obtain ⟨r, q, d, hres, hret, hbytes, hk⟩ :=
      (hiff _ _).mpr ⟨hcounter, hin, hfit, rfl, rfl⟩
    refine ⟨r, s.after file q d, _, by rw [hres]; rfl, hk, hret, ?_, by rw [hbytes, heq]⟩
    rw [hbytes, List.length_take, hlen]
    omega

/-- A short line that was read and a longer one: the reader is at the second, and the
position is where it begins. -/
theorem read_after_seek_second :
    ∃ hist s r₁ s₁ r t k, Run Sys.step (OnWrites Appends) Sys.init hist s ∧
      s.stored = [97, 10, 98, 99, 100, 10] ∧
      s.step (.aesdLlseek 0 false 2 0) = .ok (r₁, s₁) ∧ r₁.retval = (2 : ℕ) ∧
      s₁.step (.aesdRead 0 false 9 9) = .ok (r, t) ∧ 0 < k ∧ r.copied.length = k ∧
      r.copied = [98, 99, 100, 10].take k := by
  obtain ⟨hist, s, hrun, hstored, hfile, hseek, hslot, hcounter, hsize⟩ :=
    exists_run_of_replay Sys.step (OnWrites Appends) Sys.init
      [.aesdOpen 0, writeLine [97, 10], writeLine [98, 99, 100, 10], .aesdOpen 0,
        .aesdRead 0 false 9 9]
      (fun _ s => s.stored = [97, 10, 98, 99, 100, 10] ∧ s.fPos 0 = some 0 ∧
        aesdLlseek s.toDriver 0 false 2 0 = (2, 2) ∧
        s.slotBytes s.dev.bufferP.outOffs = [98, 99, 100, 10] ∧ s.dev.readCounter = 1 ∧
        s.current.size = 4) (by decide +kernel)
  have hstep : s.step (.aesdLlseek 0 false 2 0) =
      .ok ({ retval := (2 : ℕ) }, s.after 0 2 s.toDriver) := by
    simp [Sys.step, Sys.onFile, hfile, hseek]
  have hnine : (9 : UInt64).toNat = 9 := by decide
  obtain ⟨-, hiff⟩ := read_after_seek_iff hrun hstep rfl
    (show 0 < (9 : UInt64).toNat by decide) (show (9 : UInt64).toNat ≤ 9 by decide)
  rw [hstored, hslot, hsize, hcounter, hnine] at hiff
  obtain ⟨r, t, k, hread, hk, -, hlen, hcopied⟩ := hiff.mpr (by decide)
  exact ⟨hist, s, _, _, r, t, k, hrun, hstored, hstep, rfl, hread, hk, hlen, hcopied⟩

/-- **Seek to the second byte, read the first.** -/
theorem read_after_seek_differs :
    ∃ hist s r₁ s₁ r t, Run Sys.step (OnWrites Appends) Sys.init hist s ∧
      s.stored = [97, 98, 10] ∧
      s.step (.aesdLlseek 0 false 1 0) = .ok (r₁, s₁) ∧ r₁.retval = 1 ∧
      s₁.step (.aesdRead 0 false 1 1) = .ok (r, t) ∧ r.retval = 1 ∧
      r.copied = [97] ∧ (s.stored.drop 1).take 1 = [98] := by
  obtain ⟨hist, s, hrun, hstored, hfile, hseek, hslot, hcounter, hsize⟩ :=
    exists_run_of_replay Sys.step (OnWrites Appends) Sys.init
      [.aesdOpen 0, writeLine [97, 98, 10]]
      (fun _ s => s.stored = [97, 98, 10] ∧ s.fPos 0 = some 3 ∧
        aesdLlseek s.toDriver 3 false 1 0 = (1, 1) ∧
        s.slotBytes s.dev.bufferP.outOffs = [97, 98, 10] ∧ s.dev.readCounter = 0 ∧
        s.current.size = 3) (by decide +kernel)
  have hwithin := aesdRead_within (Sys.wf_of_run hrun) (by omega) (by omega)
    (show 1 + 1 ≤ s.current.size by omega) (le_refl 1)
  rw [hslot] at hwithin
  have hread : aesdRead s.toDriver 1 false 1 1 =
      .ok ({ retval := 1, copied := [97] }, 2, s.served false) := hwithin
  refine ⟨hist, s, { retval := 1 }, s.after 0 1 s.toDriver,
    { retval := 1, copied := [97] }, s.after 0 2 (s.served false), hrun, hstored, ?_, rfl, ?_, rfl,
    rfl, by rw [hstored]; rfl⟩
  · simp [Sys.step, Sys.onFile, hfile, hseek]
  · have hone : (1 : UInt64).toNat = 1 := by decide
    simp only [Sys.step, Sys.onFile, Sys.after_fPos_self, Sys.after_toDriver, Sys.after_after,
      hone, hread, Except.map]

/-! ## The start of the current entry -/

/-- What is stored from the start of the entry at `out_offs` on begins with that
entry. -/
theorem Driver.stored_drop_start {d : Driver} {i : ℕ} (hi : i < 10)
    (hout : d.dev.bufferP.outOffs = (d.dev.bufferP.inOffs + i) % 10) :
    d.stored.drop (walk 10 d.slotBytes d.dev.bufferP.inOffs i).flatten.length =
      d.slotBytes d.dev.bufferP.outOffs ++
        (walk 10 d.slotBytes (d.dev.bufferP.inOffs + i + 1) (9 - i)).flatten := by
  have hround := walk_add 10 d.slotBytes d.dev.bufferP.inOffs i (9 - i + 1)
  rw [show i + (9 - i + 1) = 10 by omega] at hround
  rw [Driver.stored, hround, List.flatten_append, List.drop_left, walk_succ, List.flatten_cons,
    hout]

/-- **At the start of the entry at `out_offs` a read agrees with the seek**, if the
entry is longer than everything before it. -/
theorem read_at_entry_start {ok : Sys → Call → Prop} {hist : List (Call × Reply)}
    {s : Sys} {i p n : ℕ} (h : Run Sys.step ok Sys.init hist s) (hi : i < 10)
    (hout : s.dev.bufferP.outOffs = (s.dev.bufferP.inOffs + i) % 10)
    (hp : (walk 10 s.slotBytes s.dev.bufferP.inOffs i).flatten.length = p) :
    (s.slotBytes s.dev.bufferP.outOffs).take (min n (s.current.size - p)) =
      (s.stored.drop p).take (min n (s.current.size - p)) := by
  have hlen : (s.slotBytes s.dev.bufferP.outOffs).length = s.current.size :=
    (Sys.wf_of_run h).length_slotBytes _
  rw [← hp, Driver.stored_drop_start hi hout, List.take_append_of_le_length (by omega)]

end Aesd
