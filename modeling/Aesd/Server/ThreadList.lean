import Aesd.Foundations.Links
import Aesd.Server.Connection

/-!
# The accept loop and its list of threads

`main` of `aesdsocket.c` from the accept loop on, with `list_cleanup` and the macros of
`queue.h` it uses.  Every accepted connection gets a node in a singly linked list and a
thread; after each accept the list is swept, and the threads that are complete are joined
and their nodes taken out, while the others go on running.  When `accept` fails after a
signal, all threads are joined and the process exits.

What the threads do is left open (`ThreadFn`): `main` sees of a thread whether it has set
`thread_complete` and, in `pthread_join`, whether it has returned.  The flag is in the node,
but only the thread writes it after `main` has cleared it, so it is part of the thread's
state here.

The list is its pointers, not a list: `SLIST_REMOVE` searches the node before the one to
remove, and dereferences what it finds.  Nothing stops that search in the source but
finding the node, so it has a bound here that is another way to fail.
-/

namespace Aesd

/-- A thread function, as `main` sees it.  Its steps take an answer of the world and say
what the thread did. -/
structure ThreadFn (τ α κ : Type) where
  /-- The thread when it is created. -/
  start : τ
  /-- One step. -/
  step : τ → α → Except Unit (κ × τ)
  /-- `thread_complete` in the node of the thread. -/
  threadComplete : τ → Bool
  /-- The function has returned. -/
  returned : τ → Bool

/-- `handle_connection`. -/
def handleConnection : ThreadFn Conn Answer Action where
  start := .start
  step := Conn.step
  threadComplete := Conn.threadComplete
  returned := Conn.returned

/-! ## `SLIST_REMOVE` -/

/-- Why `main` does not go on. -/
inductive MainFault where
  /-- A null pointer was dereferenced. -/
  | nullDeref
  /-- The search went on for longer than there are nodes. -/
  | endless
  /-- What the step was to do is not possible here, or waits for something. -/
  | notPossible
  deriving DecidableEq, Repr

/-- The search of `SLIST_REMOVE`: `while (curelm->field.sle_next != (elm))`. -/
def slistSearch (next : ℕ → Option ℕ) (elm : ℕ) : ℕ → Option ℕ → Except MainFault ℕ
  | 0, _ => .error .endless
  | _ + 1, none => .error .nullDeref
  | n + 1, some curelm =>
      if next curelm = some elm then .ok curelm else slistSearch next elm n (next curelm)

/-- `SLIST_REMOVE`, with a bound on the search.  Returns the pointers it leaves. -/
def slistRemove (bound : ℕ) (first : Option ℕ) (next : ℕ → Option ℕ) (elm : ℕ) :
    Except MainFault (Option ℕ × (ℕ → Option ℕ)) :=
  if first = some elm then .ok (next elm, next)
  else
    match slistSearch next elm bound first with
    | .error f => .error f
    | .ok curelm => .ok (first, Function.update next curelm (next elm))

section Slist

variable {next : ℕ → Option ℕ} {p : Option ℕ} {elm c bound : ℕ} {pre post : List ℕ}

/-- **The search finds the node before.** -/
theorem slistSearch_eq (h : Links next p (pre ++ c :: elm :: post))
    (hnd : (pre ++ c :: elm :: post).Nodup) (hbound : pre.length < bound) :
    slistSearch next elm bound p = .ok c := by
  induction pre generalizing p bound with
  | nil =>
    obtain ⟨rfl, hnext, -⟩ := h
    obtain ⟨bound, rfl⟩ := Nat.exists_eq_add_of_lt hbound
    rw [List.length_nil, Nat.zero_add, slistSearch, if_pos hnext]
  | cons b pre ih =>
    obtain ⟨rfl, hrest⟩ := h
    obtain ⟨bound, rfl⟩ : ∃ n, bound = n + 1 := ⟨bound - 1, by simp at hbound; omega⟩
    have hne : next b ≠ some elm := by
      rw [hrest.eq_head?]
      intro heq
      -- the node after `b` is in front of `elm`, which occurs only once
      have hmem : elm ∈ pre ++ [c] := by
        cases pre with
        | nil => simp_all
        | cons d pre => simp_all
      have hsplit : pre ++ c :: elm :: post = (pre ++ [c]) ++ elm :: post := by simp
      rw [List.cons_append, List.nodup_cons, hsplit] at hnd
      exact (List.nodup_append.mp hnd.2).2.2 elm hmem elm (by simp) rfl
    rw [slistSearch, if_neg hne]
    exact ih hrest (List.nodup_cons.mp hnd).2 (by simpa using hbound)

/-- **`SLIST_REMOVE` takes the node out of the list** and does nothing else to it. -/
theorem slistRemove_spec (h : Links next p (pre ++ elm :: post))
    (hnd : (pre ++ elm :: post).Nodup) (hbound : (pre ++ elm :: post).length ≤ bound) :
    ∃ p' next', slistRemove bound p next elm = .ok (p', next') ∧ Links next' p' (pre ++ post) := by
  rcases List.eq_nil_or_concat pre with rfl | ⟨pre, c, rfl⟩
  · obtain ⟨rfl, hpost⟩ := h
    exact ⟨next elm, next, if_pos rfl, hpost⟩
  · rw [List.concat_eq_append, List.append_assoc] at h hnd hbound ⊢
    have hfirst : p ≠ some elm := by
      rw [h.eq_head?]
      intro heq
      cases pre with
      | nil => simp_all
      | cons d pre =>
        simp only [List.cons_append, List.head?_cons, Option.some.injEq] at heq
        subst heq
        exact (List.nodup_cons.mp hnd).1 (by simp)
    have hlen : pre.length < bound := by
      simp only [List.length_append, List.length_cons, List.length_nil] at hbound
      omega
    refine ⟨p, Function.update next c (next elm), ?_, h.unlink hnd⟩
    rw [slistRemove, if_neg hfirst, List.singleton_append] at *
    rw [slistSearch_eq h hnd hlen]

end Slist

/-! ## The accept loop -/

/-- Where `main` stands. -/
inductive MainPc where
  /-- The head of the loop: `datap = malloc(...)`. -/
  | malloc
  /-- `accept`. -/
  | accept (datap : ℕ)
  /-- `pthread_create`. -/
  | create (datap : ℕ)
  /-- `SLIST_INSERT_HEAD`. -/
  | insert (datap : ℕ)
  /-- `elem = malloc(...)` before the sweep, or in `list_cleanup`. -/
  | mallocElem (cleanup : Bool)
  /-- The condition of `SLIST_FOREACH_SAFE`. -/
  | visit (cleanup : Bool) (elem : Option ℕ)
  /-- `if (elem->thread_complete == true)`. -/
  | test (elem : ℕ) (tdatap : Option ℕ)
  /-- `pthread_join`. -/
  | join (cleanup : Bool) (elem : ℕ) (tdatap : Option ℕ)
  /-- `SLIST_REMOVE`. -/
  | remove (cleanup : Bool) (elem : ℕ) (tdatap : Option ℕ)
  /-- `exit(0)`. -/
  | exited
  deriving DecidableEq, Repr

/-- `main`, its list, and the threads. -/
structure Main (τ : Type) where
  pc : MainPc
  /-- `head.slh_first`. -/
  first : Option ℕ
  /-- `entries.sle_next` of each node. -/
  next : ℕ → Option ℕ
  /-- The nodes that are allocated. -/
  live : List ℕ
  /-- The thread of each node. -/
  thread : ℕ → Option τ
  /-- `caught_signal`. -/
  caughtSignal : Bool

/-- Who makes a step. -/
inductive Turn (α : Type) where
  /-- `main`, with what its call returned: a pointer, a descriptor, or nothing. -/
  | main (result : Option ℕ)
  /-- The thread of a node, with the answer to what it does. -/
  | thread (datap : ℕ) (a : α)
  /-- A signal is delivered. -/
  | signal
  deriving DecidableEq, Repr

/-- What happened in a step. -/
inductive Event (κ : Type) where
  | malloc (p : Option ℕ)
  | free (p : Option ℕ)
  | accepted (datap : ℕ)
  | saw (elem : ℕ) (threadComplete : Bool)
  | joined (elem : ℕ)
  | thread (datap : ℕ) (act : κ)
  /-- Nothing that matters to anyone else. -/
  | quiet
  deriving DecidableEq, Repr

namespace Main

variable {τ α κ : Type}

/-- `main` before the loop, after `SLIST_INIT`. -/
def init : Main τ where
  pc := .malloc
  first := none
  next := fun _ => none
  live := []
  thread := fun _ => none
  caughtSignal := false

/-- A step of `main` itself.  `malloc` returns nothing that is in use, `pthread_create`
succeeds, and `pthread_join` waits until the thread has returned. -/
def mainStep (F : ThreadFn τ α κ) (s : Main τ) (result : Option ℕ) :
    Except MainFault (Event κ × Main τ) :=
  match s.pc with
  | .malloc =>
      match result with
      | none => .ok (.malloc none, s)
      | some p =>
          if p ∈ s.live then .error .notPossible
          else .ok (.malloc (some p), { s with live := p :: s.live, pc := .accept p })
  | .accept datap =>
      if result = none then
        if s.caughtSignal then .ok (.quiet, { s with pc := .mallocElem true })
        else .ok (.free (some datap), { s with live := s.live.erase datap, pc := .malloc })
      else .ok (.accepted datap, { s with pc := .create datap })
  | .create datap =>
      .ok (.quiet,
        { s with thread := Function.update s.thread datap (some F.start), pc := .insert datap })
  | .insert datap =>
      .ok (.quiet,
        { s with
          next := Function.update s.next datap s.first
          first := some datap
          pc := .mallocElem false })
  | .mallocElem cleanup =>
      -- what `elem` points to is lost at once: the loop starts with `elem = head.slh_first`
      match result with
      | none => .ok (.malloc none, { s with pc := .visit cleanup s.first })
      | some p =>
          if p ∈ s.live then .error .notPossible
          else
            .ok (.malloc (some p),
              { s with live := p :: s.live, pc := .visit cleanup s.first })
  | .visit cleanup none =>
      .ok (.free none, { s with pc := if cleanup then .exited else .malloc })
  | .visit cleanup (some elem) =>
      .ok (.quiet,
        { s with
          pc := if cleanup then .join cleanup elem (s.next elem) else .test elem (s.next elem) })
  | .test elem tdatap =>
      let threadComplete := (s.thread elem).any F.threadComplete
      .ok (.saw elem threadComplete,
        { s with pc := if threadComplete then .join false elem tdatap else .visit false tdatap })
  | .join cleanup elem tdatap =>
      if (s.thread elem).any F.returned then
        .ok (.joined elem, { s with pc := .remove cleanup elem tdatap })
      else .error .notPossible
  | .remove cleanup elem tdatap =>
      match slistRemove s.live.length s.first s.next elem with
      | .error f => .error f
      | .ok (first, next) => .ok (.quiet, { s with first, next, pc := .visit cleanup tdatap })
  | .exited => .error .notPossible

/-- One step of the process. -/
def step (F : ThreadFn τ α κ) (s : Main τ) : Turn α → Except MainFault (Event κ × Main τ)
  | .main result => s.mainStep F result
  | .thread datap a =>
      match s.thread datap with
      | none => .error .notPossible
      | some c =>
          match F.step c a with
          | .error _ => .error .notPossible
          | .ok (act, c) =>
              .ok (.thread datap act,
                { s with thread := Function.update s.thread datap (some c) })
  | .signal => .ok (.quiet, { s with caughtSignal := true })

/-! ## The steps, branch by branch -/

variable {F : ThreadFn τ α κ}

/-- The steps of the process, one case for each branch. -/
inductive Moves (F : ThreadFn τ α κ) (s : Main τ) : Turn α → Event κ → Main τ → Prop where
  | mallocFailed (h : s.pc = .malloc) : Moves F s (.main none) (.malloc none) s
  | malloc (p : ℕ) (h : s.pc = .malloc) (hp : p ∉ s.live) :
      Moves F s (.main (some p)) (.malloc (some p))
        { s with live := p :: s.live, pc := .accept p }
  | refused (datap : ℕ) (h : s.pc = .accept datap) (hsig : s.caughtSignal = false) :
      Moves F s (.main none) (.free (some datap))
        { s with live := s.live.erase datap, pc := .malloc }
  | shutdown (datap : ℕ) (h : s.pc = .accept datap) (hsig : s.caughtSignal = true) :
      Moves F s (.main none) .quiet { s with pc := .mallocElem true }
  | accept (datap fd : ℕ) (h : s.pc = .accept datap) :
      Moves F s (.main (some fd)) (.accepted datap) { s with pc := .create datap }
  | create (result : Option ℕ) (datap : ℕ) (h : s.pc = .create datap) :
      Moves F s (.main result) .quiet
        { s with thread := Function.update s.thread datap (some F.start), pc := .insert datap }
  | insert (result : Option ℕ) (datap : ℕ) (h : s.pc = .insert datap) :
      Moves F s (.main result) .quiet
        { s with
          next := Function.update s.next datap s.first
          first := some datap
          pc := .mallocElem false }
  | begin (result : Option ℕ) (cleanup : Bool) (h : s.pc = .mallocElem cleanup)
      (hp : ∀ p ∈ result, p ∉ s.live) :
      Moves F s (.main result) (.malloc result)
        { s with live := result.toList ++ s.live, pc := .visit cleanup s.first }
  | finish (result : Option ℕ) (cleanup : Bool) (h : s.pc = .visit cleanup none) :
      Moves F s (.main result) (.free none)
        { s with pc := if cleanup then .exited else .malloc }
  | visit (result : Option ℕ) (elem : ℕ) (h : s.pc = .visit false (some elem)) :
      Moves F s (.main result) .quiet { s with pc := .test elem (s.next elem) }
  | visitCleanup (result : Option ℕ) (elem : ℕ) (h : s.pc = .visit true (some elem)) :
      Moves F s (.main result) .quiet { s with pc := .join true elem (s.next elem) }
  | keep (result : Option ℕ) (elem : ℕ) (tdatap : Option ℕ) (h : s.pc = .test elem tdatap)
      (hflag : (s.thread elem).any F.threadComplete = false) :
      Moves F s (.main result) (.saw elem false) { s with pc := .visit false tdatap }
  | reap (result : Option ℕ) (elem : ℕ) (tdatap : Option ℕ) (h : s.pc = .test elem tdatap)
      (hflag : (s.thread elem).any F.threadComplete = true) :
      Moves F s (.main result) (.saw elem true) { s with pc := .join false elem tdatap }
  | join (result : Option ℕ) (cleanup : Bool) (elem : ℕ) (tdatap : Option ℕ)
      (h : s.pc = .join cleanup elem tdatap) (hret : (s.thread elem).any F.returned = true) :
      Moves F s (.main result) (.joined elem) { s with pc := .remove cleanup elem tdatap }
  | remove (result : Option ℕ) (cleanup : Bool) (elem : ℕ) (tdatap first : Option ℕ)
      (next : ℕ → Option ℕ) (h : s.pc = .remove cleanup elem tdatap)
      (hrem : slistRemove s.live.length s.first s.next elem = .ok (first, next)) :
      Moves F s (.main result) .quiet { s with first, next, pc := .visit cleanup tdatap }
  | thread (datap : ℕ) (a : α) (act : κ) (c c' : τ) (hc : s.thread datap = some c)
      (hs : F.step c a = .ok (act, c')) :
      Moves F s (.thread datap a) (.thread datap act)
        { s with thread := Function.update s.thread datap (some c') }
  | signal : Moves F s .signal .quiet { s with caughtSignal := true }

theorem moves_of_mainStep {s s' : Main τ} {result : Option ℕ} {e : Event κ}
    (hs : s.mainStep F result = .ok (e, s')) : Moves F s (.main result) e s' := by
  revert hs
  unfold mainStep
  cases h : s.pc with
  | malloc =>
    cases result with
    | none =>
      rintro ⟨⟩
      exact .mallocFailed h
    | some p =>
      dsimp only
      split_ifs with hp <;> rintro ⟨⟩
      exact .malloc p h hp
  | accept datap =>
    dsimp only
    split_ifs with hr hsig <;> rintro ⟨⟩
    · subst hr
      exact .shutdown datap h hsig
    · subst hr
      exact .refused datap h (by simpa using hsig)
    · obtain ⟨fd, rfl⟩ := Option.ne_none_iff_exists'.mp hr
      exact .accept datap fd h
  | create datap =>
    rintro ⟨⟩
    exact .create result datap h
  | insert datap =>
    rintro ⟨⟩
    exact .insert result datap h
  | mallocElem cleanup =>
    cases result with
    | none =>
      rintro ⟨⟩
      exact .begin none cleanup h (by simp)
    | some p =>
      dsimp only
      split_ifs with hp <;> rintro ⟨⟩
      exact .begin (some p) cleanup h (by simpa using hp)
  | visit cleanup elem =>
    cases elem with
    | none =>
      rintro ⟨⟩
      exact .finish result cleanup h
    | some elem =>
      rintro ⟨⟩
      cases cleanup with
      | false => exact .visit result elem h
      | true => exact .visitCleanup result elem h
  | test elem tdatap =>
    rintro ⟨⟩
    cases hflag : (s.thread elem).any F.threadComplete with
    | false => exact .keep result elem tdatap h hflag
    | true => exact .reap result elem tdatap h hflag
  | join cleanup elem tdatap =>
    dsimp only
    split_ifs with hret <;> rintro ⟨⟩
    exact .join result cleanup elem tdatap h hret
  | remove cleanup elem tdatap =>
    dsimp only
    cases hrem : slistRemove s.live.length s.first s.next elem with
    | error f => rintro ⟨⟩
    | ok r =>
      rintro ⟨⟩
      exact .remove result cleanup elem tdatap r.1 r.2 h hrem
  | exited => rintro ⟨⟩

/-- **The branches are all there is.** -/
theorem moves_of_step {s s' : Main τ} {turn : Turn α} {e : Event κ}
    (hs : s.step F turn = .ok (e, s')) : Moves F s turn e s' := by
  cases turn with
  | main result => exact moves_of_mainStep hs
  | thread datap a =>
    simp only [step] at hs
    cases hc : s.thread datap with
    | none =>
      rw [hc] at hs
      cases hs
    | some c =>
      rw [hc] at hs
      dsimp only at hs
      cases hstep : F.step c a with
      | error x =>
        rw [hstep] at hs
        cases hs
      | ok r =>
        rw [hstep] at hs
        cases hs
        exact .thread datap a r.1 c r.2 hc hstep
  | signal =>
    cases hs
    exact .signal

end Main
end Aesd
