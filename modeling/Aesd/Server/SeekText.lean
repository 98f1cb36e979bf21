import Aesd.Server.Framing
import Aesd.Foundations.Lines

/-!
# The text of a seek command

A client that wants the position of `file_fd` moved sends `AESDCHAR_IOCSEEKTO:` and two
numbers with a comma between them, and `sscanf` reads the numbers back.  What `sscanf` takes
for a number is more than what a client would write: blanks may come first, then a sign, and
a number that is too large is not refused but becomes another one (`Numeral`).  What follows
the second number is not looked at.  `dispatch_eq_ioctl_iff` is the whole grammar.

A command that is written as it should be is understood (`dispatch_seekText`), provided that
it arrives in one piece.  If it does not, its last piece ends in a newline and is appended to
the file like any line, and its first is carried out as far as it can be read, with the
digits of the offset that are in it (`seek_command_arrives`).
-/

namespace Aesd

open FixedWidth

/-! ## Numbers -/

/-- The number that `%u` stores, given what the digits say. -/
def unsignedOf (negative : Bool) (n : ℕ) : UInt32 :=
  if 2 ^ 64 ≤ n then .ofNat (2 ^ 32 - 1) else .ofNat (wrapU 32 (if negative then -n else n))

/-- Blanks, a sign and digits, and what `%u` makes of them. -/
structure Numeral (blanks sign digits : List UInt8) (v : UInt32) : Prop where
  isSpace : ∀ b ∈ blanks, isSpace b = true
  isSign : sign = [] ∨ sign = [43] ∨ sign = [45]
  isDigit : ∀ b ∈ digits, isDigit b = true
  ne_nil : digits ≠ []
  value : v = unsignedOf (sign = [45]) (decimal digits)

/-- The text does not go on with a digit. -/
def NoDigit (s : List UInt8) : Prop := ∀ b, s.head? = some b → isDigit b = false

theorem isDigit_iff {b : UInt8} : isDigit b = true ↔ 48 ≤ b.toNat ∧ b.toNat ≤ 57 := by
  rw [isDigit, Bool.and_eq_true, decide_eq_true_eq, decide_eq_true_eq]
  exact Iff.rfl

theorem isSpace_iff {b : UInt8} : isSpace b = true ↔
    b.toNat = 32 ∨ 9 ≤ b.toNat ∧ b.toNat ≤ 13 := by
  rw [isSpace, Bool.or_eq_true, Bool.and_eq_true, decide_eq_true_eq, decide_eq_true_eq,
    decide_eq_true_eq, UInt8.ext_iff]
  exact Iff.rfl

theorem isSpace_of_isDigit {b : UInt8} (h : isDigit b = true) : isSpace b = false := by
  rw [isDigit_iff] at h
  rw [Bool.eq_false_iff, ne_eq, isSpace_iff]
  omega

/-- The digits at the head of a text. -/
theorem takeWhile_isDigit {digits rest : List UInt8} (h : ∀ b ∈ digits, isDigit b = true)
    (hrest : NoDigit rest) : (digits ++ rest).takeWhile isDigit = digits := by
  rw [List.takeWhile_append_of_pos h]
  cases rest with
  | nil => rw [List.takeWhile_nil, List.append_nil]
  | cons b rest =>
    rw [List.takeWhile_cons_of_neg (by rw [hrest b rfl]; simp), List.append_nil]

theorem dropWhile_isDigit {digits rest : List UInt8} (h : ∀ b ∈ digits, isDigit b = true)
    (hrest : NoDigit rest) : (digits ++ rest).dropWhile isDigit = rest := by
  rw [List.dropWhile_append_of_pos h]
  cases rest with
  | nil => rfl
  | cons b rest => rw [List.dropWhile_cons_of_neg (by rw [hrest b rfl]; simp)]

theorem noDigit_dropWhile (s : List UInt8) : NoDigit (s.dropWhile isDigit) := by
  intro b hb
  rw [Bool.eq_false_iff]
  intro hdigit
  have hne : s.dropWhile isDigit ≠ [] := by
    intro hnil
    rw [hnil] at hb
    exact absurd hb (by simp)
  rw [List.head?_eq_some_head hne, Option.some.injEq] at hb
  have hstop := List.head_dropWhile_not isDigit hne
  rw [hb, hdigit] at hstop
  exact absurd hstop (by simp)

/-- What is left when blanks and a sign have been read. -/
def afterSign (s : List UInt8) : List UInt8 :=
  if s.head? = some 43 ∨ s.head? = some 45 then s.tail else s

theorem scanUnsigned_eq (s : List UInt8) {t u : List UInt8} (ht : s.dropWhile isSpace = t)
    (hu : afterSign t = u) :
    scanUnsigned s =
      if u.takeWhile isDigit = [] then none
      else some (unsignedOf (t.head? = some 45) (decimal (u.takeWhile isDigit)),
        u.dropWhile isDigit) := by
  rw [afterSign] at hu
  rw [scanUnsigned, ht, hu, unsignedOf]
  simp only [decide_eq_true_eq]
  split
  · rfl
  · split
    · rfl
    · rfl

/-- **What is written as a number is read as one**, as far as it goes. -/
theorem scanUnsigned_append {blanks sign digits rest : List UInt8} {v : UInt32}
    (h : Numeral blanks sign digits v) (hrest : NoDigit rest) :
    scanUnsigned (blanks ++ (sign ++ (digits ++ rest))) = some (v, rest) := by
  obtain ⟨d, ds, hd⟩ := List.exists_cons_of_ne_nil h.ne_nil
  have hdigit : isDigit d = true := h.isDigit d (by simp [hd])
  have hspace := isSpace_of_isDigit hdigit
  have hplus : d ≠ 43 := by
    rintro rfl
    exact absurd hdigit (by decide)
  have hminus : d ≠ 45 := by
    rintro rfl
    exact absurd hdigit (by decide)
  have hskip : (blanks ++ (sign ++ (digits ++ rest))).dropWhile isSpace =
      sign ++ (digits ++ rest) := by
    rw [List.dropWhile_append_of_pos h.isSpace]
    rcases h.isSign with rfl | rfl | rfl
    · simp [hd, hspace]
    · rfl
    · rfl
  have hsign : afterSign (sign ++ (digits ++ rest)) = digits ++ rest := by
    rcases h.isSign with rfl | rfl | rfl
    · simp [afterSign, hd, hplus, hminus]
    · rfl
    · rfl
  have hnegative : (sign ++ (digits ++ rest)).head? = some 45 ↔ sign = [45] := by
    rcases h.isSign with rfl | rfl | rfl
    · simp [hd, hminus]
    · simp
    · simp
  rw [scanUnsigned_eq _ hskip hsign, takeWhile_isDigit h.isDigit hrest,
    dropWhile_isDigit h.isDigit hrest, if_neg h.ne_nil, h.value]
  simp only [hnegative]

/-- **What is read as a number was written as one.** -/
theorem exists_numeral_of_scanUnsigned {s rest : List UInt8} {v : UInt32}
    (h : scanUnsigned s = some (v, rest)) :
    ∃ blanks sign digits, s = blanks ++ (sign ++ (digits ++ rest)) ∧
      Numeral blanks sign digits v ∧ NoDigit rest := by
  obtain ⟨t, ht⟩ : ∃ t, s.dropWhile isSpace = t := ⟨_, rfl⟩
  obtain ⟨u, hu⟩ : ∃ u, afterSign t = u := ⟨_, rfl⟩
  -- the sign, if there is one, is what stands between the blanks and the rest
  obtain ⟨sign, hsplit, hsign, hnegative⟩ : ∃ sign, t = sign ++ u ∧
      (sign = [] ∨ sign = [43] ∨ sign = [45]) ∧ (t.head? = some 45 ↔ sign = [45]) := by
    rw [← hu, afterSign]
    by_cases hplus : t.head? = some 43
    · rw [if_pos (.inl hplus)]
      exact ⟨[43], (List.cons_head?_tail hplus).symm, .inr (.inl rfl), by simp [hplus]⟩
    by_cases hminus : t.head? = some 45
    · rw [if_pos (.inr hminus)]
      exact ⟨[45], (List.cons_head?_tail hminus).symm, .inr (.inr rfl), by simp [hminus]⟩
    · rw [if_neg (not_or.mpr ⟨hplus, hminus⟩)]
      exact ⟨[], rfl, .inl rfl, by simp [hminus]⟩
  rw [scanUnsigned_eq s ht hu] at h
  split at h
  · exact absurd h (by simp)
  · next hne =>
    rw [Option.some.injEq, Prod.mk.injEq] at h
    refine ⟨s.takeWhile isSpace, sign, u.takeWhile isDigit, ?_, ?_, ?_⟩
    · rw [← h.2, List.takeWhile_append_dropWhile, ← hsplit, ← ht,
        List.takeWhile_append_dropWhile]
    · refine ⟨fun b hb => List.mem_takeWhile_imp hb, hsign,
        fun b hb => List.mem_takeWhile_imp hb, hne, ?_⟩
      rw [← h.1]
      simp only [hnegative]
    · rw [← h.2]
      exact noDigit_dropWhile u

/-- A text that `%u` takes for the number. -/
def IsNumeral (w : List UInt8) (v : UInt32) : Prop :=
  ∃ blanks sign digits, w = blanks ++ (sign ++ digits) ∧ Numeral blanks sign digits v

theorem scanUnsigned_iff {s rest : List UInt8} {v : UInt32} :
    scanUnsigned s = some (v, rest) ↔ ∃ w, s = w ++ rest ∧ IsNumeral w v ∧ NoDigit rest := by
  constructor
  · intro h
    obtain ⟨blanks, sign, digits, rfl, hnum, hrest⟩ := exists_numeral_of_scanUnsigned h
    exact ⟨blanks ++ (sign ++ digits), by simp, ⟨blanks, sign, digits, rfl, hnum⟩, hrest⟩
  · rintro ⟨w, rfl, ⟨blanks, sign, digits, rfl, hnum⟩, hrest⟩
    rw [List.append_assoc, List.append_assoc]
    exact scanUnsigned_append hnum hrest

/-- The bytes of a number. -/
theorem IsNumeral.mem {w : List UInt8} {v : UInt32} (h : IsNumeral w v) {b : UInt8}
    (hb : b ∈ w) : isSpace b = true ∨ b = 43 ∨ b = 45 ∨ isDigit b = true := by
  obtain ⟨blanks, sign, digits, rfl, hnum⟩ := h
  rcases List.mem_append.mp hb with hb | hb
  · exact .inl (hnum.isSpace b hb)
  rcases List.mem_append.mp hb with hb | hb
  · rcases hnum.isSign with rfl | rfl | rfl
    · exact absurd hb (by simp)
    · exact .inr (.inl (List.mem_singleton.mp hb))
    · exact .inr (.inr (.inl (List.mem_singleton.mp hb)))
  · exact .inr (.inr (.inr (hnum.isDigit b hb)))

/-- A number ends in a digit. -/
theorem IsNumeral.getLast? {w : List UInt8} {v : UInt32} (h : IsNumeral w v) :
    ∃ b, w.getLast? = some b ∧ isDigit b = true := by
  obtain ⟨blanks, sign, digits, rfl, hnum⟩ := h
  refine ⟨digits.getLast hnum.ne_nil, ?_, hnum.isDigit _ (List.getLast_mem _)⟩
  rw [List.getLast?_append_of_ne_nil _ (List.append_ne_nil_of_right_ne_nil _ hnum.ne_nil),
    List.getLast?_append_of_ne_nil _ hnum.ne_nil]
  exact List.getLast?_eq_some_getLast _

theorem IsNumeral.zero_notMem {w : List UInt8} {v : UInt32} (h : IsNumeral w v) : 0 ∉ w := by
  intro hb
  rcases h.mem hb with hb | hb | hb | hb <;> exact absurd hb (by decide)

/-! ## The command -/

theorem scanSeekto_iff {s : List UInt8} {k : AesdSeekto} :
    scanSeekto s = some k ↔ ∃ w₁ w₂ rest, s = w₁ ++ 44 :: (w₂ ++ rest) ∧
      IsNumeral w₁ k.writeCmd ∧ IsNumeral w₂ k.writeCmdOffset ∧ NoDigit rest := by
  constructor
  · intro h
    rw [scanSeekto] at h
    split at h
    · next writeCmd s' hcmd =>
      obtain ⟨⟨offset, rest⟩, hoffset, rfl⟩ := Option.map_eq_some_iff.mp h
      obtain ⟨w₁, rfl, hw₁, -⟩ := scanUnsigned_iff.mp hcmd
      obtain ⟨w₂, rfl, hw₂, hrest⟩ := scanUnsigned_iff.mp hoffset
      exact ⟨w₁, w₂, rest, rfl, hw₁, hw₂, hrest⟩
    · exact absurd h (by simp)
  · rintro ⟨w₁, w₂, rest, rfl, hw₁, hw₂, hrest⟩
    have hcomma : NoDigit (44 :: (w₂ ++ rest)) := by
      rintro b ⟨⟩
      decide
    have hcmd := scanUnsigned_iff.mpr ⟨w₁, rfl, hw₁, hcomma⟩
    have hoffset := scanUnsigned_iff.mpr ⟨w₂, rfl, hw₂, hrest⟩
    rw [scanSeekto, hcmd]
    simp only [hoffset, Option.map_some]

/-- The string that a buffer begins with goes up to a NUL or to the end. -/
theorem cString_append {s t : List UInt8} (hs : 0 ∉ s) : cString (s ++ t) = s ++ cString t :=
  List.takeWhile_append_of_pos fun _ hb => decide_eq_true fun h => hs (h ▸ hb)

theorem noDigit_cString {s : List UInt8} : NoDigit (cString s) ↔ NoDigit s := by
  cases s with
  | nil => exact Iff.rfl
  | cons b s =>
    by_cases hb : b = 0
    · subst hb
      simp [NoDigit, cString, isDigit]
    · simp [NoDigit, cString, hb]

/-- The bytes of a chunk that begin with a number and a comma, and what the string that
`sscanf` is given says of the rest. -/
theorem cString_eq_iff {chunk w₁ w₂ : List UInt8} {v₁ v₂ : UInt32} (hw₁ : IsNumeral w₁ v₁)
    (hw₂ : IsNumeral w₂ v₂) :
    (∃ rest, cString chunk = w₁ ++ 44 :: (w₂ ++ rest) ∧ NoDigit rest) ↔
      ∃ rest, chunk = w₁ ++ 44 :: (w₂ ++ rest) ∧ NoDigit rest := by
  have hzero : (0 : UInt8) ∉ w₁ ++ 44 :: w₂ := by
    rw [List.mem_append, List.mem_cons]
    rintro (h | h | h)
    · exact hw₁.zero_notMem h
    · exact absurd h (by decide)
    · exact hw₂.zero_notMem h
  have hsplit : ∀ rest : List UInt8, w₁ ++ 44 :: (w₂ ++ rest) = (w₁ ++ 44 :: w₂) ++ rest := by
    intro rest
    simp
  constructor
  · rintro ⟨rest, hstr, hrest⟩
    have hchunk : chunk = (w₁ ++ 44 :: w₂) ++ (rest ++ chunk.dropWhile (· ≠ 0)) := by
      rw [← List.append_assoc, ← hsplit, ← hstr]
      exact List.takeWhile_append_dropWhile.symm
    refine ⟨rest ++ chunk.dropWhile (· ≠ 0), by rw [hsplit]; exact hchunk, ?_⟩
    rw [hchunk, cString_append hzero, hsplit, List.append_cancel_left_eq] at hstr
    rw [← noDigit_cString, hstr]
    exact hrest
  · rintro ⟨rest, rfl, hrest⟩
    exact ⟨cString rest, by rw [hsplit, cString_append hzero, hsplit], noDigit_cString.mpr hrest⟩

/-- The word, two numbers with a comma between them, and after the second anything that is no
digit. -/
def IsCommand (chunk : List UInt8) (k : AesdSeekto) : Prop :=
  ∃ w₁ w₂ rest, chunk = seekPrefix ++ (w₁ ++ 44 :: (w₂ ++ rest)) ∧
    IsNumeral w₁ k.writeCmd ∧ IsNumeral w₂ k.writeCmdOffset ∧ NoDigit rest

/-- **What is taken for a seek command.** -/
theorem dispatch_eq_ioctl_iff {chunk : List UInt8} {k : AesdSeekto} :
    Conn.dispatch chunk = .ioctl k ↔ IsCommand chunk k := by
  have hlen : seekPrefix.length = 19 := by decide
  constructor
  · intro h
    rw [Conn.dispatch] at h
    split at h
    · next hseek =>
      obtain ⟨body, rfl⟩ := hseek
      rw [← hlen, List.drop_left] at h
      split at h
      · next k' hk =>
        obtain rfl : k' = k := by simpa using h
        obtain ⟨w₁, w₂, rest, hstr, hw₁, hw₂, hrest⟩ := scanSeekto_iff.mp hk
        obtain ⟨rest', rfl, hrest'⟩ := (cString_eq_iff hw₁ hw₂).mp ⟨rest, hstr, hrest⟩
        exact ⟨w₁, w₂, rest', rfl, hw₁, hw₂, hrest'⟩
      · exact absurd h (by simp)
    · split at h
      · exact absurd h (by simp)
      · exact absurd h (by simp)
  · rintro ⟨w₁, w₂, rest, rfl, hw₁, hw₂, hrest⟩
    obtain ⟨rest', hstr, hrest'⟩ := (cString_eq_iff hw₁ hw₂).mpr ⟨rest, rfl, hrest⟩
    have hk : scanSeekto (cString (w₁ ++ 44 :: (w₂ ++ rest))) = some k :=
      scanSeekto_iff.mpr ⟨w₁, w₂, rest', hstr, hw₁, hw₂, hrest'⟩
    rw [Conn.dispatch, if_pos (List.prefix_append _ _), ← hlen, List.drop_left, hk]

/-! ## What a client writes -/

/-- A number as `%u` prints it. -/
def numeral (n : ℕ) : List UInt8 := literal (toString n)

/-- The text of a command. -/
def seekText (k : AesdSeekto) : List UInt8 :=
  seekPrefix ++ (numeral k.writeCmd.toNat ++ 44 :: numeral k.writeCmdOffset.toNat)

theorem numeral_eq (n : ℕ) :
    numeral n = (Nat.toDigits 10 n).map fun ch => UInt8.ofNat ch.toNat := by
  rw [numeral, literal, Nat.toString_eq_repr, Nat.toList_repr]

theorem toNat_ofNat_of_isDigit {ch : Char} (h : ch.isDigit) :
    (UInt8.ofNat ch.toNat).toNat = ch.toNat ∧ 48 ≤ ch.toNat ∧ ch.toNat ≤ 57 := by
  obtain ⟨hlo, hhi⟩ := Char.isDigit_iff_toNat.mp h
  have hle : ch.toNat ≤ 57 := hhi
  refine ⟨?_, hlo, hhi⟩
  rw [UInt8.toNat_ofNat', Nat.mod_eq_of_lt (by omega)]

theorem isDigit_of_mem_numeral {n : ℕ} {b : UInt8} (h : b ∈ numeral n) : isDigit b = true := by
  rw [numeral_eq] at h
  obtain ⟨ch, hch, rfl⟩ := List.mem_map.mp h
  have hdigit := toNat_ofNat_of_isDigit
    (Nat.isDigit_of_mem_toDigits (by decide) (by decide) hch)
  rw [isDigit_iff, hdigit.1]
  exact hdigit.2

theorem numeral_ne_nil (n : ℕ) : numeral n ≠ [] := by
  rw [numeral_eq, ne_eq, List.map_eq_nil_iff]
  exact Nat.toDigits_ne_nil

/-- **What was printed is read.** -/
theorem decimal_numeral (n : ℕ) : decimal (numeral n) = n := by
  have hfold : ∀ (l : List Char) (m : ℕ), (∀ ch ∈ l, ch.isDigit) →
      (l.map fun ch => UInt8.ofNat ch.toNat).foldl (fun n b => 10 * n + (b.toNat - 48)) m =
        Nat.ofDigitChars 10 l m := by
    intro l
    induction l with
    | nil =>
      intro m _
      rw [Nat.ofDigitChars_nil]
      rfl
    | cons ch l ih =>
      intro m hl
      have hch := toNat_ofNat_of_isDigit (hl ch (by simp))
      rw [List.map_cons, List.foldl_cons, Nat.ofDigitChars_cons, hch.1]
      exact ih _ fun ch' h => hl ch' (by simp [h])
  rw [decimal, numeral_eq, hfold _ _ fun ch hch =>
    Nat.isDigit_of_mem_toDigits (by decide) (by decide) hch]
  exact Nat.ofDigitChars_ten_toDigits

/-- Digits without blanks or a sign. -/
theorem isNumeral_iff_of_digits {w : List UInt8} {v : UInt32}
    (h : ∀ b ∈ w, isDigit b = true) :
    IsNumeral w v ↔ w ≠ [] ∧ v = unsignedOf false (decimal w) := by
  constructor
  · rintro ⟨blanks, sign, digits, rfl, hnum⟩
    have hblanks : blanks = [] := by
      refine List.eq_nil_iff_forall_not_mem.mpr fun b hb => ?_
      have hspace := isSpace_of_isDigit (h b (by simp [hb]))
      rw [hnum.isSpace b hb] at hspace
      exact absurd hspace (by simp)
    have hsign : sign = [] := by
      rcases hnum.isSign with hs | rfl | rfl
      · exact hs
      · exact absurd (h 43 (by simp)) (by decide)
      · exact absurd (h 45 (by simp)) (by decide)
    subst hblanks hsign
    exact ⟨hnum.ne_nil, hnum.value⟩
  · rintro ⟨hne, hv⟩
    exact ⟨[], [], w, rfl, by simp, .inl rfl, h, hne, hv⟩

theorem unsignedOf_of_lt {n : ℕ} (h : n < 2 ^ 32) : unsignedOf false n = .ofNat n := by
  rw [unsignedOf, if_neg (by omega), if_neg (by simp), wrapU_natCast h]

theorem isNumeral_numeral_iff {a v : UInt32} : IsNumeral (numeral a.toNat) v ↔ v = a := by
  rw [isNumeral_iff_of_digits fun _ hb => isDigit_of_mem_numeral hb, decimal_numeral,
    unsignedOf_of_lt a.toNat_lt, UInt32.ofNat_toNat]
  exact and_iff_right (numeral_ne_nil _)

/-- **A command that arrives in one piece is understood**, whatever follows it. -/
theorem dispatch_seekText (k : AesdSeekto) {rest : List UInt8} (h : NoDigit rest) :
    Conn.dispatch (seekText k ++ rest) = .ioctl k :=
  dispatch_eq_ioctl_iff.mpr ⟨numeral k.writeCmd.toNat, numeral k.writeCmdOffset.toNat, rest,
    by simp [seekText], isNumeral_numeral_iff.mpr rfl, isNumeral_numeral_iff.mpr rfl, h⟩

/-! ## What a thread asks for -/

/-- The command that a chunk is taken for. -/
def command (chunk : List UInt8) : List AesdSeekto :=
  match Conn.dispatch chunk with
  | .ioctl k => [k]
  | _ => []

theorem command_of_isCommand {chunk : List UInt8} {k : AesdSeekto} (h : IsCommand chunk k) :
    command chunk = [k] := by
  rw [command, dispatch_eq_ioctl_iff.mpr h]

theorem command_of_not_isCommand {chunk : List UInt8} (h : ¬ ∃ k, IsCommand chunk k) :
    command chunk = [] := by
  rw [command]
  split
  · next k hk => exact absurd ⟨k, dispatch_eq_ioctl_iff.mp hk⟩ h
  · rfl

instance (chunk : List UInt8) : Decidable (∃ k, IsCommand chunk k) :=
  decidable_of_iff (command chunk ≠ [])
    ⟨fun h => not_not.mp fun hnot => h (command_of_not_isCommand hnot), fun h => by
      obtain ⟨k, hk⟩ := h
      rw [command_of_isCommand hk]
      exact List.cons_ne_nil _ _⟩

/-- The argument of an `ioctl`. -/
def Action.seekto : Action → List AesdSeekto
  | .ioctl k => [k]
  | _ => []

/-- The argument of an `ioctl` that has not been made. -/
def Conn.wanted (c : Conn) : List AesdSeekto :=
  match c.pc with
  | .ioctl k => [k]
  | _ => []

/-- The commands that were asked for. -/
def asked (hist : List (Answer × Action)) (c : Conn) : List AesdSeekto :=
  hist.flatMap (fun e => e.2.seekto) ++ c.wanted

variable {ok : Conn → Answer → Prop} {hist : List (Answer × Action)} {c c' : Conn}

/-- **One step**: what was wanted is asked for, and what is wanted then has just been
received. -/
theorem seekto_append_wanted {a : Answer} {act : Action} (h : c.step a = .ok (act, c')) :
    act.seekto ++ c'.wanted = c.wanted ++ (delivered (a, act)).flatMap command := by
  by_cases hpc : c.pc = .receive
  · obtain ⟨hact, rfl⟩ := Conn.step_iff.mp h
    obtain rfl : .receive = act := by simpa [Conn.action, hpc] using hact
    by_cases hne : a.bytes = []
    · simp [delivered, Action.seekto, Conn.wanted, Conn.resume, hpc, hne]
    · simp [delivered, Action.seekto, Conn.wanted, Conn.resume, hpc, hne, command]
  · cases Conn.moves_of_step h with
    | ended hreceive | seek hreceive | line hreceive | dropped hreceive =>
      exact absurd hreceive hpc
    | _ => simp [delivered, Action.seekto, Conn.wanted, *]

/-- **What is asked for** are the commands that were received, each once and in order. -/
theorem asked_eq (h : Run Conn.step ok Conn.start hist c) :
    asked hist c = (received hist).flatMap command := by
  induction h with
  | start => rfl
  | @call hist c c' a act _ _ hs ih =>
    have hone := seekto_append_wanted hs
    rw [asked, List.flatMap_append, List.append_assoc, List.flatMap_singleton, hone,
      ← List.append_assoc, ← asked, ih, received_append, List.flatMap_append]
    simp [received]

/-- **Every command of a run** is a chunk that reads as one, and every chunk that reads as a
command becomes one. -/
theorem asked_commands (h : Run Conn.step ok Conn.start hist c) :
    List.Forall₂ IsCommand ((received hist).filter fun chunk => ∃ k, IsCommand chunk k)
      (asked hist c) := by
  rw [asked_eq h]
  induction received hist with
  | nil => exact .nil
  | cons chunk chunks ih =>
    rw [List.flatMap_cons]
    by_cases hcmd : ∃ k, IsCommand chunk k
    · rw [List.filter_cons, if_pos (decide_eq_true hcmd)]
      obtain ⟨k, hk⟩ := hcmd
      rw [command_of_isCommand hk]
      exact .cons hk ih
    · rw [List.filter_cons, if_neg (by simpa using hcmd), command_of_not_isCommand hcmd,
        List.nil_append]
      exact ih

/-- Blanks, a sign, and a number that does not fit. -/
theorem asked_commands_minus :
    ∃ hist c, Run Conn.step (fun _ _ => True) Conn.start hist c ∧
      asked hist c = [⟨4294967295, 7⟩] ∧
      List.Forall₂ IsCommand ((received hist).filter fun chunk => ∃ k, IsCommand chunk k)
        [⟨4294967295, 7⟩] := by
  have hrun := exists_run_of_replay Conn.step (fun _ _ => True) Conn.start
    [.done, .done, .data (literal "AESDCHAR_IOCSEEKTO: -1,4294967303 or so")]
    (fun hist c => asked hist c = [⟨4294967295, 7⟩]) (by decide)
  obtain ⟨hist, c, hrun, hasked⟩ := hrun
  exact ⟨hist, c, hrun, hasked, hasked ▸ asked_commands hrun⟩

/-! ## A command in pieces -/

theorem command_of_not_prefix {chunk : List UInt8} (h : ¬ seekPrefix <+: chunk) :
    command chunk = [] := by
  rw [command, Conn.dispatch, if_neg h]
  split
  · next k hk =>
    split at hk
    · exact absurd hk (by simp)
    · exact absurd hk (by simp)
  · rfl

theorem mem_seekText {k : AesdSeekto} {b : UInt8} (h : b ∈ seekText k) :
    b ∈ seekPrefix ∨ b = 44 ∨ isDigit b = true := by
  rw [seekText, List.mem_append, List.mem_append, List.mem_cons] at h
  rcases h with h | h | h | h
  · exact .inl h
  · exact .inr (.inr (isDigit_of_mem_numeral h))
  · exact .inr (.inl h)
  · exact .inr (.inr (isDigit_of_mem_numeral h))

theorem line_seekText (k : AesdSeekto) : Line eol (seekText k ++ [eol]) := by
  refine ⟨seekText k, fun h => ?_, rfl⟩
  rcases mem_seekText h with h | h | h
  · exact absurd h (by decide)
  · exact absurd h (by decide)
  · exact absurd h (by decide)

theorem zero_notMem_seekText (k : AesdSeekto) : 0 ∉ seekText k ++ [eol] := by
  rw [List.mem_append, List.mem_singleton]
  rintro (h | h)
  · rcases mem_seekText h with h | h | h
    · exact absurd h (by decide)
    · exact absurd h (by decide)
    · exact absurd h (by decide)
  · exact absurd h (by decide)

/-- The word occurs in the text only once: it ends in a colon, and there is no other. -/
theorem eq_nil_of_seekPrefix {k : AesdSeekto} {a b : List UInt8}
    (h : seekText k ++ [eol] = a ++ (seekPrefix ++ b)) : a = [] := by
  have hword : Line 58 seekPrefix := by decide
  have hbody : (58 : UInt8) ∉
      (numeral k.writeCmd.toNat ++ 44 :: numeral k.writeCmdOffset.toNat) ++ [eol] := by
    intro hmem
    rw [List.mem_append, List.mem_append, List.mem_cons, List.mem_singleton] at hmem
    rcases hmem with (hmem | hmem | hmem) | hmem
    · exact absurd (isDigit_of_mem_numeral hmem) (by decide)
    · exact absurd hmem (by decide)
    · exact absurd (isDigit_of_mem_numeral hmem) (by decide)
    · exact absurd hmem (by decide)
  rw [seekText, List.append_assoc] at h
  exact hword.eq_nil_of_append_eq hbody h

theorem decimal_append (l t : List UInt8) :
    decimal (l ++ t) = decimal l * 10 ^ t.length + decimal t := by
  have hfold : ∀ m, t.foldl (fun n b => 10 * n + (b.toNat - 48)) m =
      m * 10 ^ t.length + t.foldl (fun n b => 10 * n + (b.toNat - 48)) 0 := by
    induction t with
    | nil => simp
    | cons b t ih =>
      intro m
      rw [List.foldl_cons, List.foldl_cons, ih, ih (10 * 0 + (b.toNat - 48)), List.length_cons,
        pow_succ]
      ring
  rw [decimal, List.foldl_append, hfold]
  rfl

theorem decimal_lt {t : List UInt8} (h : ∀ b ∈ t, isDigit b = true) :
    decimal t < 10 ^ t.length := by
  induction t with
  | nil => simp [decimal]
  | cons b t ih =>
    have hb := (isDigit_iff.mp (h b (by simp))).2
    have ht := ih fun b' h' => h b' (by simp [h'])
    have hone : decimal [b] = b.toNat - 48 := by simp [decimal]
    rw [← List.singleton_append, decimal_append, hone, List.length_append, List.length_singleton,
      Nat.add_comm 1, pow_succ]
    calc (b.toNat - 48) * 10 ^ t.length + decimal t
        < (b.toNat - 48) * 10 ^ t.length + 10 ^ t.length := by omega
      _ = (b.toNat - 48 + 1) * 10 ^ t.length := by ring
      _ ≤ 10 * 10 ^ t.length := Nat.mul_le_mul_right _ (by omega)
      _ = 10 ^ t.length * 10 := Nat.mul_comm _ _

/-- A number whose last digits are missing. -/
theorem decimal_of_append {w t : List UInt8} {n : ℕ} (h : w ++ t = numeral n) :
    decimal w = n / 10 ^ t.length := by
  have ht := decimal_lt fun b hb => isDigit_of_mem_numeral (n := n) (by
    rw [← h]
    exact List.mem_append_right _ hb)
  rw [← decimal_numeral n, ← h, decimal_append, Nat.mul_comm,
    Nat.mul_add_div (Nat.pow_pos (by decide)), Nat.div_eq_of_lt ht, Nat.add_zero]

/-- The command with the last digits of the offset missing. -/
def truncated (k : AesdSeekto) (j : ℕ) : AesdSeekto :=
  ⟨k.writeCmd, .ofNat (k.writeCmdOffset.toNat / 10 ^ j)⟩

/-- **What the first piece of a command may be taken for**: the command with some of the
digits of its offset. -/
theorem command_of_append {k : AesdSeekto} {first more : List UInt8}
    (h : first ++ more = seekText k ++ [eol]) :
    command first = [] ∨
      ∃ j < (numeral k.writeCmdOffset.toNat).length, command first = [truncated k j] := by
  rw [command]
  split
  · next k' hk' =>
    obtain ⟨w₁, w₂, rest, rfl, hw₁, hw₂, hrest⟩ := dispatch_eq_ioctl_iff.mp hk'
    have hcomma : (44 : UInt8) ∉ numeral k.writeCmd.toNat := fun hmem =>
      absurd (isDigit_of_mem_numeral hmem) (by decide)
    have hcomma' : (44 : UInt8) ∉ numeral k.writeCmdOffset.toNat ++ [eol] := by
      rw [List.mem_append, List.mem_singleton]
      rintro (hmem | hmem)
      · exact absurd (isDigit_of_mem_numeral hmem) (by decide)
      · exact absurd hmem (by decide)
    have hbody : numeral k.writeCmd.toNat ++ 44 :: (numeral k.writeCmdOffset.toNat ++ [eol]) =
        w₁ ++ 44 :: (w₂ ++ (rest ++ more)) := by
      rw [seekText] at h
      simpa using h.symm
    obtain ⟨rfl, -, hoffset⟩ := (List.append_cons_inj_of_notMem hcomma hcomma').mp hbody
    have hcmd := isNumeral_numeral_iff.mp hw₁
    -- a number ends in a digit, so it does not reach the newline
    obtain ⟨t, ht⟩ : ∃ t, w₂ ++ t = numeral k.writeCmdOffset.toNat := by
      rcases List.eq_nil_or_concat (rest ++ more) with hnil | ⟨t, b, htb⟩
      · rw [hnil, List.append_nil] at hoffset
        obtain ⟨b, hb, hdigit⟩ := hw₂.getLast?
        rw [← hoffset, List.getLast?_concat, Option.some.injEq] at hb
        rw [← hb] at hdigit
        exact absurd hdigit (by decide)
      · rw [htb, List.concat_eq_append, ← List.append_assoc] at hoffset
        exact ⟨t, (List.append_inj' hoffset rfl).1.symm⟩
    have hdigits : ∀ b ∈ w₂, isDigit b = true := fun b hb =>
      isDigit_of_mem_numeral (n := k.writeCmdOffset.toNat) (by
        rw [← ht]
        exact List.mem_append_left _ hb)
    have hvalue := ((isNumeral_iff_of_digits hdigits).mp hw₂).2
    have hlt : k.writeCmdOffset.toNat / 10 ^ t.length < 2 ^ 32 :=
      (Nat.div_le_self _ _).trans_lt k.writeCmdOffset.toNat_lt
    rw [decimal_of_append ht, unsignedOf_of_lt hlt] at hvalue
    have hpos : 0 < w₂.length := by
      rw [List.length_pos_iff]
      rintro rfl
      obtain ⟨b, hb, -⟩ := hw₂.getLast?
      exact absurd hb (by simp)
    refine .inr ⟨t.length, ?_, ?_⟩
    · rw [← ht, List.length_append]
      omega
    · rw [truncated, ← hcmd, ← hvalue]
  · exact .inl rfl

/-- **A command that a client sends** is carried out and not written to the file if it
arrives in one piece.  Otherwise its last piece is written to the file, and its first may be
carried out, as the command whose offset has lost the digits that came later: none of them,
or some, but not all. -/
theorem seek_command_arrives {k : AesdSeekto} (h : Run Conn.step ok Conn.start hist c)
    (hsent : (received hist).flatten = seekText k ++ [eol]) :
    (received hist = [seekText k ++ [eol]] ∧ asked hist c = [k] ∧ handed hist c = []) ∨
      ∃ first mid last, received hist = first :: (mid ++ [last]) ∧ handed hist c = [last] ∧
        (asked hist c = [] ∨ ∃ j < (numeral k.writeCmdOffset.toNat).length,
          asked hist c = [truncated k j]) := by
  have hne : ∀ chunk ∈ received hist, chunk ≠ [] := fun chunk hchunk => by
    obtain ⟨e, -, he⟩ := List.mem_flatMap.mp hchunk
    rw [delivered] at he
    split at he
    · next hbytes =>
      rw [List.mem_singleton.mp he]
      exact hbytes.2
    · exact absurd he (by simp)
  have hline : Line eol (received hist).flatten := hsent ▸ line_seekText k
  obtain ⟨init, last, hsplit, hinit, hlast⟩ := hline.pieces hne
  rw [handed_eq h, asked_eq h]
  cases init with
  | nil =>
    rw [hsplit, List.nil_append, List.flatten_singleton] at hsent
    subst hsent
    have hseek : seekPrefix <+: seekText k ++ [eol] := by
      rw [seekText, List.append_assoc]
      exact List.prefix_append _ _
    have heol : NoDigit [eol] := by
      rintro b ⟨⟩
      decide
    have hdispatch := dispatch_seekText k heol
    refine .inl ⟨hsplit, ?_, ?_⟩
    · rw [hsplit, List.nil_append, List.flatMap_singleton, command, hdispatch]
    · rw [hsplit, List.nil_append, List.filter_singleton, decide_eq_false fun hl => hl.1 hseek]
      rfl
  | cons first mid =>
    rw [hsplit, List.cons_append, List.flatten_cons] at hsent
    have hfirst : first ≠ [] := hne first (by rw [hsplit]; simp)
    have hlater : ∀ chunk ∈ mid ++ [last], ¬ seekPrefix <+: chunk := by
      rintro chunk hchunk ⟨b, rfl⟩
      obtain ⟨before, after, hmid⟩ := List.append_of_mem hchunk
      rw [hmid, List.flatten_append, List.flatten_cons] at hsent
      have hnil := eq_nil_of_seekPrefix (a := first ++ before.flatten) (b := b ++ after.flatten)
        (by rw [← hsent]; simp)
      exact hfirst (List.append_eq_nil_iff.mp hnil).1
    refine .inr ⟨first, mid, last, hsplit, ?_, ?_⟩
    · have hnone : (first :: mid).filter (fun chunk => IsLine chunk) = [] :=
        List.filter_eq_nil_iff.mpr fun chunk hchunk => by
          rw [decide_eq_true_eq]
          exact fun hl => hinit chunk hchunk hl.2
      have hstr : cString last = last := by
        refine List.takeWhile_eq_self_iff.mpr fun b hb => decide_eq_true ?_
        rintro rfl
        refine zero_notMem_seekText k ?_
        rw [← hsent]
        simp [hb]
      have hlastLine : IsLine last := ⟨hlater last (by simp), hlast⟩
      rw [hsplit, List.filter_append, hnone, List.nil_append, List.filter_singleton,
        decide_eq_true hlastLine, cond_true, List.map_singleton, hstr]
    · have hnone : (mid ++ [last]).flatMap command = [] :=
        List.flatMap_eq_nil_iff.mpr fun chunk hchunk => command_of_not_prefix (hlater chunk hchunk)
      rw [hsplit, List.cons_append, List.flatMap_cons, hnone, List.append_nil]
      exact command_of_append hsent

/-- The command with the numbers 1 and 23, cut before its last digit: the position is moved to
offset 2, and what is left of the command becomes a line of the file. -/
theorem seek_command_arrives_cut :
    ∃ hist c, Run Conn.step (fun _ _ => True) Conn.start hist c ∧
      (received hist).flatten = seekText ⟨1, 23⟩ ++ [eol] ∧
      asked hist c = [⟨1, 2⟩] ∧ handed hist c = [[51, 10]] := by
  have hrun := exists_run_of_replay Conn.step (fun _ _ => True) Conn.start
    [.done, .done, .data (seekPrefix ++ [49, 44, 50]), .done, .data [51, 10]]
    (fun hist c => received hist = [seekPrefix ++ [49, 44, 50], [51, 10]] ∧
      asked hist c = [⟨1, 2⟩]) (by decide)
  obtain ⟨hist, c, hrun, hrec, hasked⟩ := hrun
  have hsent : (received hist).flatten = seekText ⟨1, 23⟩ ++ [eol] := by
    rw [hrec]
    decide
  refine ⟨hist, c, hrun, hsent, hasked, ?_⟩
  rcases seek_command_arrives hrun hsent with ⟨hone, -, -⟩ | ⟨first, mid, last, hsplit, hlast, -⟩
  · rw [hrec] at hone
    exact absurd (congrArg List.length hone) (by simp)
  · rw [hrec] at hsplit
    obtain ⟨-, hrest⟩ := List.cons.inj hsplit
    have hlen := congrArg List.length hrest
    obtain rfl : mid = [] := List.length_eq_zero_iff.mp (by simpa using hlen.symm)
    rw [hlast, ← List.singleton_inj.mp hrest]

end Aesd
