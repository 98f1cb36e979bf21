import Aesd.Server.Connection
import Mathlib.Data.List.TakeWhile

/-!
# What of the received data is written

The receive loop has one buffer, and every `read` of the socket starts at its beginning.
A chunk that does not end in a newline is looked at and overwritten by the next.  So what
is handed to `write_to_file` is a matter of single chunks: those that end in a newline and
are no seek command, each for itself (`handed_eq`).

A client that sends one line does not decide how the line arrives.  If it arrives in one
piece, it is handed over; if it arrives in more, only its last piece is.
-/

namespace Aesd

variable {ok : Conn → Answer → Prop} {hist : List (Answer × Action)} {c c' : Conn}

/-- A chunk that is handed to `write_to_file`. -/
def IsLine (chunk : List UInt8) : Prop := ¬ seekPrefix <+: chunk ∧ chunk.getLast? = some eol

instance (chunk : List UInt8) : Decidable (IsLine chunk) := inferInstanceAs (Decidable (_ ∧ _))

/-- The chunk an answer delivers. -/
def delivered (e : Answer × Action) : List (List UInt8) :=
  if e.2 = .receive ∧ e.1.bytes ≠ [] then [e.1.bytes] else []

/-- The chunks that the reads of the socket delivered. -/
def received (hist : List (Answer × Action)) : List (List UInt8) := hist.flatMap delivered

/-- The argument of a call of `write_to_file`. -/
def Action.line : Action → List (List UInt8)
  | .lockAppend line => [line]
  | _ => []

/-- The argument of a call that has not got as far as its lock. -/
def Conn.pending (c : Conn) : List (List UInt8) :=
  match c.pc with
  | .lockAppend line => [line]
  | _ => []

/-- What was handed to `write_to_file`, call by call. -/
def handed (hist : List (Answer × Action)) (c : Conn) : List (List UInt8) :=
  hist.flatMap (fun e => e.2.line) ++ c.pending

theorem received_append (h₁ h₂ : List (Answer × Action)) :
    received (h₁ ++ h₂) = received h₁ ++ received h₂ := List.flatMap_append

/-! ## Every chunk for itself -/

/-- **One step**: what was pending is handed over, and what is pending then is a chunk
that has just been received. -/
theorem line_append_pending {a : Answer} {act : Action} (h : c.step a = .ok (act, c')) :
    act.line ++ c'.pending =
      c.pending ++ ((delivered (a, act)).filter (fun k => IsLine k)).map cString := by
  cases Conn.moves_of_step h with
  | ended hpc ha => simp [delivered, ha, Action.line, Conn.pending, hpc]
  | seek hpc seekto hseek =>
    have hnot : ¬ IsLine a.bytes := fun hl => hl.1 hseek
    by_cases hne : a.bytes = []
    · simp [delivered, hne, Action.line, Conn.pending, hpc]
    · simp [delivered, hne, hnot, Action.line, Conn.pending, hpc]
  | line hpc hseek hlast =>
    have hne : a.bytes ≠ [] := by
      intro hnil
      rw [hnil] at hlast
      exact absurd hlast (by simp)
    have hline : IsLine a.bytes := ⟨hseek, hlast⟩
    simp [delivered, hne, hline, Action.line, Conn.pending, hpc]
  | dropped hpc hne hnot =>
    have hline : ¬ IsLine a.bytes := by
      rintro ⟨hseek, hlast⟩
      exact hnot.elim hseek (· hlast)
    simp [delivered, hne, hline, Action.line, Conn.pending, hpc]
  | lockAppend line hpc => simp [delivered, Action.line, Conn.pending, hpc]
  | _ => simp [delivered, Action.line, Conn.pending, *]

/-- **What is handed to `write_to_file`** are the chunks that end in a newline and are no
seek command, up to their first NUL. -/
theorem handed_eq (h : Run Conn.step ok Conn.start hist c) :
    handed hist c = ((received hist).filter (fun k => IsLine k)).map cString := by
  induction h with
  | start => rfl
  | @call hist c c' a act _ _ hs ih =>
    have hone := line_append_pending hs
    rw [handed, List.flatMap_append, List.append_assoc, List.flatMap_singleton, hone,
      ← List.append_assoc, ← handed, ih, received_append, List.filter_append, List.map_append]
    simp [received]

/-! ## A line in pieces -/

/-- A line: its only newline is its last byte, and it has no NUL. -/
def IsMessage (m : List UInt8) : Prop := (∃ body, m = body ++ [eol] ∧ eol ∉ body) ∧ 0 ∉ m

/-- A way in which the reads of the socket may deliver a message: in chunks that fit into
the buffer, none of which looks like a seek command. -/
structure Delivery (m : List UInt8) (chunks : List (List UInt8)) : Prop where
  flatten : chunks.flatten = m
  size : ∀ k ∈ chunks, 1 ≤ k.length ∧ k.length ≤ buffsize - 1
  noSeek : ∀ k ∈ chunks, ¬ seekPrefix <+: k

variable {m : List UInt8} {chunks : List (List UInt8)}

/-- Only the last chunk of a line ends in a newline. -/
theorem Delivery.last (hd : Delivery m chunks) (hm : IsMessage m) :
    ∃ init last, chunks = init ++ [last] ∧ (∀ k ∈ init, k.getLast? ≠ some eol) ∧
      last.getLast? = some eol := by
  obtain ⟨⟨body, rfl, hbody⟩, -⟩ := hm
  rcases List.eq_nil_or_concat chunks with rfl | ⟨init, last, rfl⟩
  · exact absurd hd.flatten (by simp)
  rw [List.concat_eq_append] at hd ⊢
  have hflat := hd.flatten
  have hlast : last ≠ [] := by
    rintro rfl
    exact absurd (hd.size [] (by simp)).1 (by simp)
  rcases List.eq_nil_or_concat last with rfl | ⟨l, x, rfl⟩
  · exact absurd rfl hlast
  rw [List.concat_eq_append] at hflat ⊢
  have hsplit : (init.flatten ++ l) ++ [x] = body ++ [eol] := by simpa using hflat
  obtain ⟨hpre, hx⟩ := List.append_inj' hsplit rfl
  refine ⟨init, l ++ [x], rfl, fun k hk hend => hbody ?_, by simpa using hx⟩
  rw [← hpre]
  exact List.mem_append_left _ (List.mem_flatten.mpr ⟨k, hk, List.mem_of_getLast? hend⟩)

/-- Of a line, the last chunk is handed over. -/
theorem filter_isLine_of_delivery (hd : Delivery m chunks) (hm : IsMessage m) :
    ∃ init last, chunks = init ++ [last] ∧
      (chunks.filter (fun k => IsLine k)).map cString = [last] := by
  obtain ⟨init, last, rfl, hinit, hlast⟩ := hd.last hm
  refine ⟨init, last, rfl, ?_⟩
  have hnone : init.filter (fun k => IsLine k) = [] :=
    List.filter_eq_nil_iff.mpr fun k hk => by
      rw [decide_eq_true_eq]
      exact fun hl => hinit k hk hl.2
  have hline : IsLine last := ⟨hd.noSeek last (by simp), hlast⟩
  have hstr : cString last = last := by
    refine List.takeWhile_eq_self_iff.mpr fun b hb => decide_eq_true ?_
    rintro rfl
    refine hm.2 ?_
    rw [← hd.flatten]
    exact List.mem_flatten.mpr ⟨last, by simp, hb⟩
  rw [List.filter_append, hnone, List.nil_append, List.filter_singleton, decide_eq_true hline,
    cond_true, List.map_singleton, hstr]

/-- A chunk that is dropped leaves the thread where it was. -/
theorem step_dropped {k : List UInt8} (hpc : c.pc = .receive) (hne : k ≠ [])
    (hseek : ¬ seekPrefix <+: k) (hlast : k.getLast? ≠ some eol) :
    c.step (.data k) = .ok (.receive, c) := by
  refine Conn.step_iff.mpr ⟨by rw [Conn.action, hpc], ?_⟩
  have hb : (Answer.data k).bytes ≠ [] := hne
  have hdisp : Conn.dispatch k = .receive := by
    rw [Conn.dispatch, if_neg hseek, if_neg hlast]
  simp only [Conn.resume, hpc, if_neg hb]
  show c = { c with pc := Conn.dispatch k }
  rw [hdisp, ← hpc]

theorem run_dropped (hpc : c.pc = .receive) (hne : ∀ k ∈ chunks, k ≠ [])
    (hseek : ∀ k ∈ chunks, ¬ seekPrefix <+: k) (hlast : ∀ k ∈ chunks, k.getLast? ≠ some eol) :
    Run Conn.step (fun _ _ => True) c (chunks.map fun k => (.data k, .receive)) c := by
  induction chunks with
  | nil => exact .start
  | cons k ks ih =>
    have hone : Run Conn.step (fun _ _ => True) c [(.data k, .receive)] c :=
      Run.start.call trivial
        (step_dropped hpc (hne k (by simp)) (hseek k (by simp)) (hlast k (by simp)))
    exact hone.trans (ih (fun j hj => hne j (by simp [hj])) (fun j hj => hseek j (by simp [hj]))
      fun j hj => hlast j (by simp [hj]))

theorem received_data (hne : ∀ k ∈ chunks, k ≠ []) :
    received (chunks.map fun k => (.data k, .receive)) = chunks := by
  induction chunks with
  | nil => rfl
  | cons k ks ih =>
    have hk : (Answer.data k).bytes ≠ [] := hne k (by simp)
    have hhead : delivered (.data k, .receive) = [k] := if_pos ⟨rfl, hk⟩
    rw [List.map_cons, received, List.flatMap_cons, hhead, ← received,
      ih fun j hj => hne j (by simp [hj]), List.singleton_append]

/-- **Every delivery may happen**: the connection is accepted, the buffer allocated, the
file opened, and then it is up to the network. -/
theorem exists_run_of_delivery (hd : Delivery m chunks) (hm : IsMessage m) :
    ∃ hist c, Run Conn.step (fun _ _ => True) Conn.start hist c ∧ received hist = chunks := by
  obtain ⟨init, last, rfl, hinit, -⟩ := hd.last hm
  have hne : ∀ k ∈ init ++ [last], k ≠ [] := by
    rintro k hk rfl
    exact absurd (hd.size [] hk).1 (by simp)
  have hopened : Run Conn.step (fun _ _ => True) Conn.start
      [(.done, .callocBuffer), (.done, .openFile)]
      { Conn.start with buffer := .acquired, fileFd := .acquired, pc := .receive } :=
    (Run.start.call trivial rfl).call trivial rfl
  have hdropped := hopened.trans (run_dropped rfl (fun k hk => hne k (by simp [hk]))
    (fun k hk => hd.noSeek k (by simp [hk])) hinit)
  have hall := hdropped.call (a := .data last) trivial (Conn.step_iff.mpr ⟨rfl, rfl⟩)
  refine ⟨_, _, hall, ?_⟩
  have hlast : received ([last].map fun k => (.data k, .receive)) = [last] :=
    received_data fun k hk => hne k (List.mem_append_right _ hk)
  rw [received_append, received_append, received_data fun k hk => hne k (by simp [hk])]
  exact congrArg (init ++ ·) hlast

/-- **A line survives if and only if it arrives in one piece.** -/
theorem handed_iff_one_chunk (hm : IsMessage m) (hd : Delivery m chunks) :
    (∃ hist c, Run Conn.step (fun _ _ => True) Conn.start hist c ∧ received hist = chunks) ∧
      ∀ hist c, Run Conn.step (fun _ _ => True) Conn.start hist c → received hist = chunks →
        (handed hist c = [m] ↔ chunks.length = 1) := by
  refine ⟨exists_run_of_delivery hd hm, fun hist c hrun hrec => ?_⟩
  obtain ⟨init, last, hsplit, hfilter⟩ := filter_isLine_of_delivery hd hm
  have hflat := hd.flatten
  rw [handed_eq hrun, hrec, hfilter, List.singleton_inj]
  rw [hsplit, List.flatten_append, List.flatten_singleton] at hflat
  rw [← hflat, hsplit, List.length_append, List.length_singleton]
  constructor
  · intro hself
    have hnil : init.flatten = [] := List.append_left_eq_self.mp hself.symm
    cases init with
    | nil => rfl
    | cons k ks =>
      have hk := (hd.size k (by rw [hsplit]; simp)).1
      have : k = [] := List.flatten_eq_nil_iff.mp hnil k (by simp)
      rw [this] at hk
      exact absurd hk (by simp)
  · intro hlen
    have hnil : init = [] := List.length_eq_zero_iff.mp (by omega)
    rw [hnil, List.flatten_nil, List.nil_append]

theorem isMessage_ab : IsMessage [97, 98, 10] := ⟨⟨[97, 98], rfl, by decide⟩, by decide⟩

theorem handed_iff_one_chunk_ab :
    ∃ hist c, Run Conn.step (fun _ _ => True) Conn.start hist c ∧
      received hist = [[97, 98, 10]] ∧ handed hist c = [[97, 98, 10]] := by
  have hd : Delivery [97, 98, 10] [[97, 98, 10]] := ⟨rfl, by decide, by decide⟩
  have h := handed_iff_one_chunk isMessage_ab hd
  obtain ⟨hist, c, hrun, hrec⟩ := h.1
  exact ⟨hist, c, hrun, hrec, (h.2 hist c hrun hrec).mpr rfl⟩

/-- The line `ab` in two pieces: only the second is handed to `write_to_file`. -/
theorem line_in_two_chunks_truncated :
    IsMessage [97, 98, 10] ∧ ¬ seekPrefix <+: [97, 98, 10] ∧
      Delivery [97, 98, 10] [[97], [98, 10]] ∧
      ∃ hist c, Run Conn.step (fun _ _ => True) Conn.start hist c ∧
        received hist = [[97], [98, 10]] ∧ handed hist c = [[98, 10]] :=
  ⟨isMessage_ab, by decide, ⟨rfl, by decide, by decide⟩,
    exists_run_of_replay Conn.step _ Conn.start
      [.done, .done, .data [97], .data [98, 10]]
      (fun hist c => received hist = [[97], [98, 10]] ∧ handed hist c = [[98, 10]]) (by decide)⟩

end Aesd
