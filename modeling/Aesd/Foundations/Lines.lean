import Mathlib.Tactic

/-!
# Assembling a stream into lines

A delimiter `d` cuts a stream into *lines*: a line is a list that contains `d`
exactly once, at its end.  A line assembler receives the stream in chunks, keeps
what it has received since the last complete line, and completes a line when
what it keeps has become one.

The assembler here looks at the whole of what it keeps, not at the chunk.  So it
conserves the stream (`feed_received`), and it never completes anything but a line;
but a chunk with a delimiter *before* its end leaves something that is no line
and that no later chunk can make into one.  `cutLines` counts the lines completed
before that happens, from the chunks alone, and `assemble_eq_iff` says that this
count is all that the final state remembers of how the stream was cut.
-/

namespace Aesd

variable {β : Type*} {d : β}

/-- A line: the delimiter occurs once, at the end. -/
def Line (d : β) (l : List β) : Prop := ∃ body, d ∉ body ∧ l = body ++ [d]

theorem Line.ne_nil {l : List β} (h : Line d l) : l ≠ [] := by
  obtain ⟨body, -, rfl⟩ := h
  simp

theorem Line.length_pos {l : List β} (h : Line d l) : 0 < l.length :=
  List.length_pos_iff.mpr h.ne_nil

theorem Line.getLast? {l : List β} (h : Line d l) : l.getLast? = some d := by
  obtain ⟨body, -, rfl⟩ := h
  simp

/-- No proper initial piece of a line contains the delimiter. -/
theorem Line.not_mem_take {l : List β} (h : Line d l) {k : ℕ} (hk : k < l.length) :
    d ∉ l.take k := by
  obtain ⟨body, hbody, rfl⟩ := h
  rw [List.length_append, List.length_singleton] at hk
  rw [List.take_append_of_le_length (by omega)]
  exact fun hmem => hbody (List.mem_of_mem_take hmem)

/-- Every non-empty final piece of a line contains the delimiter. -/
theorem Line.mem_drop {l : List β} (h : Line d l) {k : ℕ} (hk : k < l.length) :
    d ∈ l.drop k := by
  obtain ⟨body, -, rfl⟩ := h
  rw [List.length_append, List.length_singleton] at hk
  rw [List.drop_append_of_le_length (by omega)]
  simp

/-- The end of a line is not found at its beginning. -/
theorem Line.take_ne_drop {l : List β} (h : Line d l) {p : ℕ} (hp : 0 < p) (hlt : p < l.length) :
    l.take (l.length - p) ≠ l.drop p := by
  intro heq
  refine h.not_mem_take (k := l.length - p) (by omega) ?_
  rw [heq]
  exact h.mem_drop hlt

/-- What has a delimiter already is not made into a line by adding to it. -/
theorem not_line_append {p c : List β} (hp : d ∈ p) (hc : c ≠ []) : ¬ Line d (p ++ c) := by
  intro hl
  have hlen : p.length < (p ++ c).length := by
    rw [List.length_append]
    have := List.length_pos_iff.mpr hc
    omega
  have := hl.not_mem_take hlen
  rw [List.take_left] at this
  exact this hp

/-- Of the pieces of a line, only the last ends in the delimiter. -/
theorem Line.pieces {chunks : List (List β)} (h : Line d chunks.flatten)
    (hne : ∀ c ∈ chunks, c ≠ []) :
    ∃ init last, chunks = init ++ [last] ∧ (∀ c ∈ init, c.getLast? ≠ some d) ∧
      last.getLast? = some d := by
  rcases List.eq_nil_or_concat chunks with rfl | ⟨init, last, rfl⟩
  · exact absurd rfl h.ne_nil
  rw [List.concat_eq_append] at h hne ⊢
  have hlast : last ≠ [] := hne last (by simp)
  have hend := h.getLast?
  rw [List.flatten_append, List.flatten_singleton, List.getLast?_append_of_ne_nil _ hlast] at hend
  refine ⟨init, last, rfl, fun c hc hbad => ?_, hend⟩
  refine h.not_mem_take (k := init.flatten.length) ?_ ?_
  · rw [List.flatten_append, List.flatten_singleton, List.length_append]
    exact Nat.lt_add_of_pos_right (List.length_pos_iff.mpr hlast)
  · rw [List.flatten_append, List.take_left]
    exact List.mem_flatten.mpr ⟨c, hc, List.mem_of_getLast? hbad⟩

variable [DecidableEq β]

/-- **A line is a list whose first delimiter is its last element.** -/
theorem line_iff_idxOf (l : List β) : Line d l ↔ l.idxOf d + 1 = l.length := by
  constructor
  · rintro ⟨body, hbody, rfl⟩
    simp [List.idxOf_append_of_notMem hbody]
  · intro h
    have hlt : l.idxOf d < l.length := by omega
    have hmem : d ∈ l := List.idxOf_lt_length_iff.mp hlt
    have hne : l ≠ [] := List.ne_nil_of_mem hmem
    have hlast : l.getLast hne = d := by
      rw [List.getLast_eq_getElem hne]
      have : l.length - 1 = l.idxOf d := by omega
      simp only [this, List.getElem_idxOf]
    refine ⟨l.dropLast, ?_, ?_⟩
    · intro hmem'
      have hle := List.idxOf_lt_length_iff.mpr hmem'
      rw [List.length_dropLast] at hle
      have heq : l.dropLast.idxOf d = l.idxOf d := by
        conv_rhs => rw [← List.dropLast_append_getLast hne]
        rw [List.idxOf_append_of_mem hmem']
      omega
    · conv_lhs => rw [← List.dropLast_append_getLast hne]
      rw [hlast]

instance (d : β) (l : List β) : Decidable (Line d l) :=
  decidable_of_iff _ (line_iff_idxOf l).symm

/-- A line contains the delimiter once. -/
theorem Line.count {l : List β} (h : Line d l) : l.count d = 1 := by
  obtain ⟨body, hbody, rfl⟩ := h
  simp [List.count_eq_zero_of_not_mem hbody]

/-- Adding to what has no delimiter gives a line exactly if the addition is one. -/
theorem line_append_iff {p c : List β} (hp : d ∉ p) : Line d (p ++ c) ↔ Line d c := by
  rw [line_iff_idxOf, line_iff_idxOf, List.idxOf_append_of_notMem hp, List.length_append]
  omega

/-- What begins with a line and has no other delimiter contains the line nowhere else. -/
theorem Line.eq_nil_of_append_eq {l t a b : List β} (h : Line d l) (ht : d ∉ t)
    (heq : l ++ t = a ++ (l ++ b)) : a = [] := by
  have hcount := congrArg (List.count d) heq
  rw [List.count_append, List.count_append, List.count_append, h.count,
    List.count_eq_zero_of_not_mem ht] at hcount
  have ha : d ∉ a := List.count_eq_zero.mp (by omega)
  have hidx := congrArg (List.idxOf d) heq
  have hmem : d ∈ l := List.mem_of_getLast? h.getLast?
  rw [List.idxOf_append_of_mem hmem, List.idxOf_append_of_notMem ha,
    List.idxOf_append_of_mem hmem] at hidx
  exact List.length_eq_zero_iff.mp (by omega)

/-! ## The assembler -/

/-- Completed lines, and what has been received since. -/
structure Assembly (d : β) where
  /-- The lines completed so far, oldest first. -/
  lines : List (List β)
  /-- What has been received since the last completed line. -/
  pending : List β
  /-- Nothing but lines is completed. -/
  isLine : ∀ l ∈ lines, Line d l

namespace Assembly

/-- Nothing received yet. -/
def empty (d : β) : Assembly d := ⟨[], [], by simp⟩

/-- Receive a chunk: what is kept is completed if it has become a line. -/
def feed (a : Assembly d) (chunk : List β) : Assembly d :=
  if h : Line d (a.pending ++ chunk) then
    { lines := a.lines ++ [a.pending ++ chunk]
      pending := []
      isLine := by
        intro l hl
        rcases List.mem_append.mp hl with hl | hl
        · exact a.isLine l hl
        · rw [List.mem_singleton.mp hl]; exact h }
  else { a with pending := a.pending ++ chunk }

theorem feed_of_line {a : Assembly d} {c : List β} (h : Line d (a.pending ++ c)) :
    (a.feed c).lines = a.lines ++ [a.pending ++ c] ∧ (a.feed c).pending = [] := by
  unfold feed
  rw [dif_pos h]
  exact ⟨rfl, rfl⟩

theorem feed_of_not_line {a : Assembly d} {c : List β} (h : ¬ Line d (a.pending ++ c)) :
    (a.feed c).lines = a.lines ∧ (a.feed c).pending = a.pending ++ c := by
  unfold feed
  rw [dif_neg h]
  exact ⟨rfl, rfl⟩

/-- Everything that has been received. -/
def received (a : Assembly d) : List β := a.lines.flatten ++ a.pending

/-- **The assembler loses and invents nothing.** -/
theorem feed_received (a : Assembly d) (c : List β) :
    (a.feed c).received = a.received ++ c := by
  by_cases h : Line d (a.pending ++ c)
  · obtain ⟨h1, h2⟩ := feed_of_line h
    simp [received, h1, h2]
  · obtain ⟨h1, h2⟩ := feed_of_not_line h
    simp [received, h1, h2]

/-- Receive a list of chunks. -/
def feedAll (a : Assembly d) (chunks : List (List β)) : Assembly d := chunks.foldl feed a

/-- The assembly of a stream that arrives in the given chunks. -/
def assemble (d : β) (chunks : List (List β)) : Assembly d := (empty d).feedAll chunks

theorem assemble_concat (chunks : List (List β)) (c : List β) :
    assemble d (chunks ++ [c]) = (assemble d chunks).feed c := by
  simp [assemble, feedAll]

theorem feedAll_received (a : Assembly d) (chunks : List (List β)) :
    (a.feedAll chunks).received = a.received ++ chunks.flatten := by
  induction chunks generalizing a with
  | nil => simp [feedAll]
  | cons c cs ih =>
    rw [feedAll, List.foldl_cons, ← feedAll, ih, feed_received, List.flatten_cons,
      List.append_assoc]

theorem assemble_received (chunks : List (List β)) :
    (assemble d chunks).received = chunks.flatten := by
  rw [assemble, feedAll_received]
  simp [received, empty]

/-- **Chunks that contain the delimiter at most at their end leave none behind.** -/
theorem assemble_pending_clean (chunks : List (List β))
    (h : ∀ c ∈ chunks, d ∉ c.dropLast) : d ∉ (assemble d chunks).pending := by
  induction chunks using List.reverseRecOn with
  | nil => simp [assemble, feedAll, empty]
  | append_singleton cs c ih =>
    have hcs : d ∉ (assemble d cs).pending := ih fun c' hc' => h c' (by simp [hc'])
    have hc : d ∉ c.dropLast := h c (by simp)
    rw [assemble_concat]
    by_cases hl : Line d ((assemble d cs).pending ++ c)
    · rw [(feed_of_line hl).2]; simp
    · rw [(feed_of_not_line hl).2, List.mem_append]
      rintro (hmem | hmem)
      · exact hcs hmem
      · -- the delimiter would end the chunk, and the chunk would be a line
        have hne : c ≠ [] := List.ne_nil_of_mem hmem
        rw [← List.dropLast_append_getLast hne] at hmem hl
        have hlast : d = c.getLast hne := by
          rcases List.mem_append.mp hmem with hm | hm
          · exact absurd hm hc
          · exact List.mem_singleton.mp hm
        rw [← hlast] at hl
        exact hl ((line_append_iff hcs).mpr ⟨_, hc, rfl⟩)

/-! ## What the final state remembers of the chunks -/

/-- A delimiter left behind stays, and nothing is completed any more. -/
theorem feedAll_stuck (a : Assembly d) (chunks : List (List β)) (ha : d ∈ a.pending)
    (hne : ∀ c ∈ chunks, c ≠ []) : (a.feedAll chunks).lines = a.lines := by
  induction chunks generalizing a with
  | nil => rfl
  | cons c cs ih =>
    have hnl : ¬ Line d (a.pending ++ c) := not_line_append ha (hne c (by simp))
    obtain ⟨h1, h2⟩ := feed_of_not_line hnl
    rw [feedAll, List.foldl_cons, ← feedAll, ih _ _ fun c' hc' => hne c' (by simp [hc']), h1]
    rw [h2]
    exact List.mem_append_left _ ha

/-- The number of delimiters that end a chunk, up to the first chunk that has a
delimiter before its end. -/
def cutLines (d : β) : List (List β) → ℕ
  | [] => 0
  | c :: cs =>
      if d ∈ c.dropLast then 0
      else (if c.getLast? = some d then 1 else 0) + cutLines d cs

/-- **`cutLines` counts the completed lines.** -/
theorem feedAll_lines_length (a : Assembly d) (chunks : List (List β)) (ha : d ∉ a.pending)
    (hne : ∀ c ∈ chunks, c ≠ []) :
    (a.feedAll chunks).lines.length = a.lines.length + cutLines d chunks := by
  induction chunks generalizing a with
  | nil => rfl
  | cons c cs ih =>
    have hc : c ≠ [] := hne c (by simp)
    have hcs : ∀ c' ∈ cs, c' ≠ [] := fun c' hc' => hne c' (by simp [hc'])
    have hsplit : c.dropLast ++ [c.getLast hc] = c := List.dropLast_append_getLast hc
    rw [feedAll, List.foldl_cons, ← feedAll, cutLines]
    by_cases hin : d ∈ c.dropLast
    · -- an inner delimiter: no line now, and none ever after
      rw [if_pos hin]
      have hdc : d ∈ c := List.mem_of_mem_dropLast hin
      have hnl : ¬ Line d (a.pending ++ c) := by
        rw [line_append_iff ha, ← hsplit]
        exact not_line_append hin (by simp)
      obtain ⟨h1, h2⟩ := feed_of_not_line hnl
      rw [feedAll_stuck _ _ _ hcs, h1, Nat.add_zero]
      rw [h2]
      exact List.mem_append_right _ hdc
    · rw [if_neg hin]
      by_cases hlast : c.getLast? = some d
      · rw [List.getLast?_eq_getLast_of_ne_nil hc, Option.some.injEq] at hlast
        have hl : Line d (a.pending ++ c) := by
          rw [line_append_iff ha]
          exact ⟨c.dropLast, hin, by rw [← hlast, hsplit]⟩
        obtain ⟨h1, h2⟩ := feed_of_line hl
        rw [ih _ (by rw [h2]; simp) hcs, h1,
          if_pos (by rw [List.getLast?_eq_getLast_of_ne_nil hc, hlast])]
        simp only [List.length_append, List.length_singleton]
        omega
      · have hdc : d ∉ c := by
          rw [← hsplit, List.mem_append, List.mem_singleton]
          rintro (hm | hm)
          · exact hin hm
          · exact hlast (by rw [List.getLast?_eq_getLast_of_ne_nil hc, hm])
        have hnl : ¬ Line d (a.pending ++ c) := by
          rw [line_append_iff ha]
          rintro ⟨body, -, rfl⟩
          exact hdc (by simp)
        obtain ⟨h1, h2⟩ := feed_of_not_line hnl
        rw [ih _ _ hcs, h1, if_neg hlast, Nat.zero_add]
        rw [h2, List.mem_append]
        rintro (hm | hm)
        · exact ha hm
        · exact hdc hm

theorem assemble_lines_length (chunks : List (List β)) (hne : ∀ c ∈ chunks, c ≠ []) :
    (assemble d chunks).lines.length = cutLines d chunks := by
  rw [assemble, feedAll_lines_length _ _ (by simp [empty]) hne]
  simp [empty]

end Assembly

/-- **A stream is cut into its first lines in one way only.** -/
theorem lines_unique {ls ms : List (List β)} {p q : List β}
    (hls : ∀ l ∈ ls, Line d l) (hms : ∀ m ∈ ms, Line d m) (hlen : ls.length = ms.length)
    (h : ls.flatten ++ p = ms.flatten ++ q) : ls = ms ∧ p = q := by
  induction ls generalizing ms with
  | nil =>
    have hms0 : ms = [] := List.length_eq_zero_iff.mp hlen.symm
    subst hms0
    exact ⟨rfl, by simpa using h⟩
  | cons l ls ih =>
    cases ms with
    | nil => exact absurd hlen (by simp)
    | cons m ms =>
      obtain ⟨b, hb, rfl⟩ := hls l (by simp)
      obtain ⟨c, hc, rfl⟩ := hms m (by simp)
      simp only [List.flatten_cons, List.append_assoc, List.singleton_append] at h
      have hbc : b = c ∧ ls.flatten ++ p = ms.flatten ++ q := by
        have hidx := congrArg (List.idxOf d) h
        rw [List.idxOf_append_of_notMem hb, List.idxOf_append_of_notMem hc] at hidx
        have hlenbc : b.length = c.length := by simpa using hidx
        obtain ⟨h1, h2⟩ := List.append_inj h hlenbc
        exact ⟨h1, (List.cons.inj h2).2⟩
      obtain ⟨rfl, hrest⟩ := hbc
      obtain ⟨rfl, rfl⟩ := ih (fun l hl => hls l (by simp [hl]))
        (fun m hm => hms m (by simp [hm])) (by simpa using hlen) hrest
      exact ⟨rfl, rfl⟩

/-- The delimiters of a list of lines are as many as the lines. -/
theorem count_flatten_lines {ls : List (List β)} (hls : ∀ l ∈ ls, Line d l) :
    ls.flatten.count d = ls.length := by
  induction ls with
  | nil => rfl
  | cons l ls ih =>
    rw [List.flatten_cons, List.count_append, (hls l (by simp)).count,
      ih fun l hl => hls l (by simp [hl]), List.length_cons, Nat.add_comm]

/-- **The complete lines of a stream are determined by it.** -/
theorem lines_unique_of_clean {ls ms : List (List β)} {p q : List β}
    (hls : ∀ l ∈ ls, Line d l) (hms : ∀ m ∈ ms, Line d m) (hp : d ∉ p) (hq : d ∉ q)
    (h : ls.flatten ++ p = ms.flatten ++ q) : ls = ms ∧ p = q := by
  have hcount := congrArg (List.count d) h
  rw [List.count_append, List.count_append, count_flatten_lines hls, count_flatten_lines hms,
    List.count_eq_zero_of_not_mem hp, List.count_eq_zero_of_not_mem hq] at hcount
  exact lines_unique hls hms (by omega) h

namespace Assembly

/-- **The final state remembers of the chunks only how many lines were cut.** -/
theorem assemble_eq_iff {cs cs' : List (List β)} (hne : ∀ c ∈ cs, c ≠ [])
    (hne' : ∀ c ∈ cs', c ≠ []) (hflat : cs.flatten = cs'.flatten) :
    (assemble d cs).pending = (assemble d cs').pending ∧
        (assemble d cs).lines = (assemble d cs').lines ↔
      cutLines d cs = cutLines d cs' := by
  have hrec : (assemble d cs).received = (assemble d cs').received := by
    rw [assemble_received, assemble_received, hflat]
  constructor
  · rintro ⟨-, hlines⟩
    rw [← assemble_lines_length cs hne, ← assemble_lines_length cs' hne', hlines]
  · intro hcut
    rw [← assemble_lines_length cs hne, ← assemble_lines_length cs' hne'] at hcut
    obtain ⟨h1, h2⟩ := lines_unique (assemble d cs).isLine (assemble d cs').isLine hcut hrec
    exact ⟨h2, h1⟩

end Assembly
end Aesd
