import Aesd.Foundations.Run

/-!
# From the first call to the accept loop

What `main` of `aesdsocket.c` does before it accepts connections, with `init_socket` which it
calls, as a machine that acts and waits for an answer.  `getaddrinfo` returns a list of
addresses, and the first one is taken to which a socket can be bound.  What is in an address
is only passed on, so the type of addresses is a parameter.

Every exit of `init_socket` but one closes the socket it has in hand and frees the list.  The
one is the exit after `setsockopt`, which returns from the middle of the loop: it does not
close the socket and does not free the list (`failed_of_run`).  If the loop of `main` is
reached, nothing but the listening socket is open, and it is bound to the first address that
could be had (`serving_of_run`).

The calls that cannot fail or whose failure has no effect are not here: `pthread_mutex_init`,
`openlog`, `memset`, and what is printed.
-/

namespace Aesd

namespace Startup

variable {ρ : Type*}

/-- What came of a call. -/
inductive Answer (ρ : Type*) where
  /-- `-1`, or in the case of `getaddrinfo` an error code. -/
  | failed
  /-- It was done, and there is nothing more to say. -/
  | done
  /-- The list of addresses. -/
  | results (l : List ρ)
  /-- A new descriptor. -/
  | descriptor (fd : ℕ)
  deriving DecidableEq, Repr

/-- What `main` and `init_socket` call. -/
inductive Action (ρ : Type*) where
  /-- `sigaction(SIGTERM, &new_action, NULL)`. -/
  | sigactionTerm
  /-- `sigaction(SIGINT, &new_action, NULL)`. -/
  | sigactionInt
  /-- `getaddrinfo(NULL, SERVER_PORT, &hints, &results)`. -/
  | getaddrinfo
  /-- `socket(record->ai_family, record->ai_socktype, record->ai_protocol)`. -/
  | socket (record : ρ)
  /-- `setsockopt(socketfd, SOL_SOCKET, SO_REUSEADDR, &reuseval, sizeof(int))`. -/
  | setsockopt (socketfd : ℕ)
  /-- `bind(socketfd, record->ai_addr, record->ai_addrlen)`. -/
  | bind (socketfd : ℕ) (record : ρ)
  /-- `close(socketfd)`. -/
  | close (socketfd : ℕ)
  /-- `freeaddrinfo(results)`. -/
  | freeaddrinfo (results : List ρ)
  /-- `daemon(0, 0)`. -/
  | daemon
  /-- `listen(socketfd, 10)`. -/
  | listen (socketfd : ℕ)
  deriving DecidableEq, Repr

/-- Where `main` stands.  In the loop over the addresses, `next` is `record->ai_next`. -/
inductive Pc (ρ : Type*) where
  | sigactionTerm
  | sigactionInt
  | getaddrinfo
  | socket (record : ρ) (next : List ρ)
  | setsockopt (socketfd : ℕ) (record : ρ) (next : List ρ)
  | bind (socketfd : ℕ) (record : ρ) (next : List ρ)
  | close (socketfd : ℕ) (next : List ρ)
  /-- After the loop, with the socket that was bound, or with `record == NULL`. -/
  | freeaddrinfo (bound : Option ℕ)
  | daemon (socketfd : ℕ)
  | listen (socketfd : ℕ)
  /-- At `SLIST_INIT` and the loop of `main`. -/
  | serving (socketfd : ℕ)
  /-- `main` has returned -1, and this is the descriptor that its variable `socketfd` holds. -/
  | failed (socketfd : Option ℕ)
  deriving DecidableEq, Repr

/-- `main`, with the variable `results` of `init_socket` and whether the first argument of the
program is `-d`. -/
structure State (ρ : Type*) where
  pc : Pc ρ
  results : List ρ
  asDaemon : Bool
  deriving DecidableEq, Repr

/-- `main` when it is called. -/
def start (argv : List String) : State ρ where
  pc := .sigactionTerm
  results := []
  asDaemon := argv[1]? = some "-d"

/-- The head of the loop over the addresses. -/
def record : List ρ → Pc ρ
  | [] => .freeaddrinfo none
  | r :: next => .socket r next

namespace State

/-- What `main` does next; nothing if it is in its loop or has returned. -/
def action (s : State ρ) : Option (Action ρ) :=
  match s.pc with
  | .sigactionTerm => some .sigactionTerm
  | .sigactionInt => some .sigactionInt
  | .getaddrinfo => some .getaddrinfo
  | .socket record _ => some (.socket record)
  | .setsockopt socketfd _ _ => some (.setsockopt socketfd)
  | .bind socketfd record _ => some (.bind socketfd record)
  | .close socketfd _ => some (.close socketfd)
  | .freeaddrinfo _ => some (.freeaddrinfo s.results)
  | .daemon _ => some .daemon
  | .listen socketfd => some (.listen socketfd)
  | .serving _ | .failed _ => none

/-- How `main` goes on. -/
def resume (s : State ρ) (a : Answer ρ) : State ρ :=
  match s.pc, a with
  -- a signal that cannot be handled is reported, and that is all
  | .sigactionTerm, _ => { s with pc := .sigactionInt }
  | .sigactionInt, _ => { s with pc := .getaddrinfo }
  | .getaddrinfo, .results l => { s with results := l, pc := record l }
  | .getaddrinfo, _ => { s with pc := .failed none }
  | .socket record next, .descriptor fd => { s with pc := .setsockopt fd record next }
  | .socket _ next, _ => { s with pc := record next }
  -- here `init_socket` returns
  | .setsockopt _ _ _, .failed => { s with pc := .failed none }
  | .setsockopt socketfd record next, _ => { s with pc := .bind socketfd record next }
  | .bind socketfd _ next, .failed => { s with pc := .close socketfd next }
  | .bind socketfd _ _, _ => { s with pc := .freeaddrinfo (some socketfd) }
  | .close _ next, _ => { s with pc := record next }
  | .freeaddrinfo none, _ => { s with pc := .failed none }
  | .freeaddrinfo (some socketfd), _ =>
      { s with pc := if s.asDaemon then .daemon socketfd else .listen socketfd }
  | .daemon socketfd, .failed => { s with pc := .failed (some socketfd) }
  | .daemon socketfd, _ => { s with pc := .listen socketfd }
  | .listen socketfd, .failed => { s with pc := .failed (some socketfd) }
  | .listen socketfd, _ => { s with pc := .serving socketfd }
  | .serving _, _ | .failed _, _ => s

/-- One step. -/
def step (s : State ρ) (a : Answer ρ) : Except Unit (Action ρ × State ρ) :=
  match s.action with
  | some act => .ok (act, s.resume a)
  | none => .error ()

end State

/-- What `main` can do, with what it needs and where it leads. -/
inductive Moves (s : State ρ) : Answer ρ → Action ρ → State ρ → Prop where
  | sigactionTerm {a : Answer ρ} (h : s.pc = .sigactionTerm) :
      Moves s a .sigactionTerm { s with pc := .sigactionInt }
  | sigactionInt {a : Answer ρ} (h : s.pc = .sigactionInt) :
      Moves s a .sigactionInt { s with pc := .getaddrinfo }
  | getaddrinfo (l : List ρ) (h : s.pc = .getaddrinfo) :
      Moves s (.results l) .getaddrinfo { s with results := l, pc := record l }
  | noAddresses {a : Answer ρ} (h : s.pc = .getaddrinfo) (ha : ∀ l, a ≠ .results l) :
      Moves s a .getaddrinfo { s with pc := .failed none }
  | socket (fd : ℕ) (r : ρ) (next : List ρ) (h : s.pc = .socket r next) :
      Moves s (.descriptor fd) (.socket r) { s with pc := .setsockopt fd r next }
  | noSocket {a : Answer ρ} (r : ρ) (next : List ρ) (h : s.pc = .socket r next)
      (ha : ∀ fd, a ≠ .descriptor fd) : Moves s a (.socket r) { s with pc := record next }
  | setsockopt {a : Answer ρ} (fd : ℕ) (r : ρ) (next : List ρ) (h : s.pc = .setsockopt fd r next)
      (ha : a ≠ .failed) : Moves s a (.setsockopt fd) { s with pc := .bind fd r next }
  | setsockoptFailed (fd : ℕ) (r : ρ) (next : List ρ) (h : s.pc = .setsockopt fd r next) :
      Moves s .failed (.setsockopt fd) { s with pc := .failed none }
  | bind {a : Answer ρ} (fd : ℕ) (r : ρ) (next : List ρ) (h : s.pc = .bind fd r next)
      (ha : a ≠ .failed) : Moves s a (.bind fd r) { s with pc := .freeaddrinfo (some fd) }
  | bindFailed (fd : ℕ) (r : ρ) (next : List ρ) (h : s.pc = .bind fd r next) :
      Moves s .failed (.bind fd r) { s with pc := .close fd next }
  | close {a : Answer ρ} (fd : ℕ) (next : List ρ) (h : s.pc = .close fd next) :
      Moves s a (.close fd) { s with pc := record next }
  | noRecord {a : Answer ρ} (h : s.pc = .freeaddrinfo none) :
      Moves s a (.freeaddrinfo s.results) { s with pc := .failed none }
  | bound {a : Answer ρ} (fd : ℕ) (h : s.pc = .freeaddrinfo (some fd)) :
      Moves s a (.freeaddrinfo s.results)
        { s with pc := if s.asDaemon then .daemon fd else .listen fd }
  | daemon {a : Answer ρ} (fd : ℕ) (h : s.pc = .daemon fd) (ha : a ≠ .failed) :
      Moves s a .daemon { s with pc := .listen fd }
  | daemonFailed (fd : ℕ) (h : s.pc = .daemon fd) :
      Moves s .failed .daemon { s with pc := .failed (some fd) }
  | listen {a : Answer ρ} (fd : ℕ) (h : s.pc = .listen fd) (ha : a ≠ .failed) :
      Moves s a (.listen fd) { s with pc := .serving fd }
  | listenFailed (fd : ℕ) (h : s.pc = .listen fd) :
      Moves s .failed (.listen fd) { s with pc := .failed (some fd) }

theorem moves_of_step {s s' : State ρ} {a : Answer ρ} {act : Action ρ}
    (hs : s.step a = .ok (act, s')) : Moves s a act s' := by
  rw [State.step] at hs
  split at hs
  case h_2 => exact absurd hs (by simp)
  case h_1 act' hact =>
    obtain ⟨rfl, rfl⟩ : act' = act ∧ s.resume a = s' := by simpa using hs
    rw [State.action] at hact
    rw [State.resume.eq_def]
    cases hpc : s.pc with
    | sigactionTerm =>
      obtain rfl : .sigactionTerm = act' := by simpa [hpc] using hact
      exact .sigactionTerm hpc
    | sigactionInt =>
      obtain rfl : .sigactionInt = act' := by simpa [hpc] using hact
      exact .sigactionInt hpc
    | getaddrinfo =>
      obtain rfl : .getaddrinfo = act' := by simpa [hpc] using hact
      cases a with
      | results l => exact .getaddrinfo l hpc
      | _ => exact .noAddresses hpc (by simp)
    | socket r next =>
      obtain rfl : .socket r = act' := by simpa [hpc] using hact
      cases a with
      | descriptor fd => exact .socket fd r next hpc
      | _ => exact .noSocket r next hpc (by simp)
    | setsockopt fd r next =>
      obtain rfl : .setsockopt fd = act' := by simpa [hpc] using hact
      cases a with
      | failed => exact .setsockoptFailed fd r next hpc
      | _ => exact .setsockopt fd r next hpc (by simp)
    | bind fd r next =>
      obtain rfl : .bind fd r = act' := by simpa [hpc] using hact
      cases a with
      | failed => exact .bindFailed fd r next hpc
      | _ => exact .bind fd r next hpc (by simp)
    | close fd next =>
      obtain rfl : .close fd = act' := by simpa [hpc] using hact
      exact .close fd next hpc
    | freeaddrinfo bound =>
      obtain rfl : .freeaddrinfo s.results = act' := by simpa [hpc] using hact
      cases bound with
      | none => exact .noRecord hpc
      | some fd => exact .bound fd hpc
    | daemon fd =>
      obtain rfl : .daemon = act' := by simpa [hpc] using hact
      cases a with
      | failed => exact .daemonFailed fd hpc
      | _ => exact .daemon fd hpc (by simp)
    | listen fd =>
      obtain rfl : .listen fd = act' := by simpa [hpc] using hact
      cases a with
      | failed => exact .listenFailed fd hpc
      | _ => exact .listen fd hpc (by simp)
    | serving fd => exact absurd hact (by simp [hpc])
    | failed fd => exact absurd hact (by simp [hpc])

/-! ## The books -/

section Books

/-- The descriptors that were opened. -/
def opens (e : Answer ρ × Action ρ) : List ℕ :=
  match e.2, e.1 with
  | .socket _, .descriptor fd => [fd]
  | _, _ => []

/-- The descriptors that were closed. -/
def closes (e : Answer ρ × Action ρ) : List ℕ :=
  match e.2 with
  | .close fd => [fd]
  | _ => []

/-- The sockets whose options could not be set. -/
def abandons (e : Answer ρ × Action ρ) : List ℕ :=
  match e.2, e.1 with
  | .setsockopt fd, .failed => [fd]
  | _, _ => []

/-- The addresses for which a socket was asked for. -/
def tries (e : Answer ρ × Action ρ) : List ρ :=
  match e.2 with
  | .socket r => [r]
  | _ => []

/-- The sockets that were bound, with the addresses. -/
def binds (e : Answer ρ × Action ρ) : List (ℕ × ρ) :=
  match e.2, e.1 with
  | .bind _ _, .failed => []
  | .bind fd r, _ => [(fd, r)]
  | _, _ => []

/-- The lists of addresses that were obtained. -/
def obtains (e : Answer ρ × Action ρ) : List (List ρ) :=
  match e.2, e.1 with
  | .getaddrinfo, .results l => [l]
  | _, _ => []

/-- The lists of addresses that were freed. -/
def frees (e : Answer ρ × Action ρ) : List (List ρ) :=
  match e.2 with
  | .freeaddrinfo l => [l]
  | _ => []

theorem opens_of_ne {a : Answer ρ} (h : ∀ fd, a ≠ .descriptor fd) (r : ρ) :
    opens (a, .socket r) = [] := by
  cases a with
  | descriptor fd => exact absurd rfl (h fd)
  | _ => rfl

theorem abandons_of_ne {a : Answer ρ} (h : a ≠ .failed) (fd : ℕ) :
    abandons (a, .setsockopt fd) = [] := by
  cases a with
  | failed => exact absurd rfl h
  | _ => rfl

theorem binds_of_ne {a : Answer ρ} (h : a ≠ .failed) (fd : ℕ) (r : ρ) :
    binds (a, .bind fd r) = [(fd, r)] := by
  cases a with
  | failed => exact absurd rfl h
  | _ => rfl

theorem obtains_of_ne {a : Answer ρ} (h : ∀ l, a ≠ .results l) :
    obtains (a, .getaddrinfo) = [] := by
  cases a with
  | results l => exact absurd rfl (h l)
  | _ => rfl

/-- How the books stand. -/
structure Tally (ρ : Type*) where
  /-- The descriptor in hand. -/
  inHand : List ℕ := []
  abandoned : List ℕ := []
  tried : List ρ := []
  bound : List (ℕ × ρ) := []
  obtained : List (List ρ) := []
  freed : List (List ρ) := []

/-- The books of a history stand like this. -/
structure Tally.Of (t : Tally ρ) (hist : List (Answer ρ × Action ρ)) : Prop where
  opened : (hist.flatMap opens).Perm (t.inHand ++ (t.abandoned ++ hist.flatMap closes))
  abandoned : hist.flatMap abandons = t.abandoned
  tried : hist.flatMap tries = t.tried
  bound : hist.flatMap binds = t.bound
  obtained : hist.flatMap obtains = t.obtained
  freed : hist.flatMap frees = t.freed

/-- An entry is booked. -/
theorem Tally.Of.concat {t : Tally ρ} {hist : List (Answer ρ × Action ρ)} (h : t.Of hist)
    (e : Answer ρ × Action ρ) (inHand : List ℕ)
    (hhand : (t.inHand ++ opens e).Perm (inHand ++ (abandons e ++ closes e))) :
    Tally.Of
      { inHand := inHand
        abandoned := t.abandoned ++ abandons e
        tried := t.tried ++ tries e
        bound := t.bound ++ binds e
        obtained := t.obtained ++ obtains e
        freed := t.freed ++ frees e } (hist ++ [e]) where
  opened := by
    rw [List.flatMap_append, List.flatMap_append, List.flatMap_singleton, List.flatMap_singleton]
    have hopened := h.opened
    classical
    rw [List.perm_iff_count] at hopened hhand ⊢
    intro fd
    have h₁ := hopened fd
    have h₂ := hhand fd
    simp only [List.count_append] at h₁ h₂ ⊢
    omega
  abandoned := by rw [List.flatMap_append, List.flatMap_singleton, h.abandoned]
  tried := by rw [List.flatMap_append, List.flatMap_singleton, h.tried]
  bound := by rw [List.flatMap_append, List.flatMap_singleton, h.bound]
  obtained := by rw [List.flatMap_append, List.flatMap_singleton, h.obtained]
  freed := by rw [List.flatMap_append, List.flatMap_singleton, h.freed]

/-- What comes after the address list is not booked. -/
theorem Tally.Of.after {t : Tally ρ} {hist : List (Answer ρ × Action ρ)} (h : t.Of hist)
    (a : Answer ρ) {act : Action ρ} (hact : act = .daemon ∨ ∃ fd, act = .listen fd) :
    t.Of (hist ++ [(a, act)]) := by
  rcases hact with rfl | ⟨fd, rfl⟩
  · simpa [abandons, tries, binds, obtains, frees] using h.concat (a, .daemon) t.inHand .rfl
  · simpa [abandons, tries, binds, obtains, frees] using h.concat (a, .listen fd) t.inHand .rfl

/-- What the books say where `main` stands. -/
def Books (hist : List (Answer ρ × Action ρ)) (s : State ρ) : Prop :=
  match s.pc with
  | .sigactionTerm | .sigactionInt | .getaddrinfo => Tally.Of {} hist
  | .socket r next => ∃ done, s.results = done ++ r :: next ∧
      Tally.Of { tried := done, obtained := [s.results] } hist
  | .setsockopt fd r next | .bind fd r next => ∃ done, s.results = done ++ r :: next ∧
      Tally.Of { inHand := [fd], tried := done ++ [r], obtained := [s.results] } hist
  | .close fd next => ∃ done, s.results = done ++ next ∧
      Tally.Of { inHand := [fd], tried := done, obtained := [s.results] } hist
  | .freeaddrinfo none => Tally.Of { tried := s.results, obtained := [s.results] } hist
  | .freeaddrinfo (some fd) => ∃ done r next, s.results = done ++ r :: next ∧
      Tally.Of { inHand := [fd], tried := done ++ [r], bound := [(fd, r)],
                 obtained := [s.results] } hist
  | .daemon fd | .listen fd | .serving fd | .failed (some fd) =>
      ∃ done r next, s.results = done ++ r :: next ∧
        Tally.Of { inHand := [fd], tried := done ++ [r], bound := [(fd, r)],
                   obtained := [s.results], freed := [s.results] } hist
  | .failed none =>
      -- there were no addresses, or none could be had, or the options could not be set
      Tally.Of {} hist ∨
        Tally.Of { tried := s.results, obtained := [s.results], freed := [s.results] } hist ∨
        ∃ fd done r next, s.results = done ++ r :: next ∧
          Tally.Of { abandoned := [fd], tried := done ++ [r], obtained := [s.results] } hist

variable {ok : State ρ → Answer ρ → Prop} {hist : List (Answer ρ × Action ρ)} {s s' : State ρ}
  {argv : List String}

/-- At the head of the loop. -/
theorem books_record {done next : List ρ} (hsplit : s.results = done ++ next)
    (h : Tally.Of { tried := done, obtained := [s.results] } hist) :
    Books hist { s with pc := record next } := by
  cases next with
  | nil =>
    rw [List.append_nil] at hsplit
    rw [← hsplit] at h
    exact h
  | cons r next => exact ⟨done, hsplit, h⟩

/-- **One step keeps the books.** -/
theorem books_step {a : Answer ρ} {act : Action ρ} (h : Books hist s)
    (hs : s.step a = .ok (act, s')) : Books (hist ++ [(a, act)]) s' := by
  rw [Books.eq_def] at h
  cases moves_of_step hs with
  | sigactionTerm hpc =>
    rw [hpc] at h
    exact h.concat (a, .sigactionTerm) [] .rfl
  | sigactionInt hpc =>
    rw [hpc] at h
    exact h.concat (a, .sigactionInt) [] .rfl
  | getaddrinfo l hpc =>
    rw [hpc] at h
    exact books_record (s := { s with results := l }) (List.nil_append l).symm
      (h.concat (.results l, .getaddrinfo) [] .rfl)
  | noAddresses hpc ha =>
    rw [hpc] at h
    have hone := h.concat (a, .getaddrinfo) [] (by simp [opens, abandons, closes])
    rw [obtains_of_ne ha] at hone
    exact .inl hone
  | socket fd r next hpc =>
    rw [hpc] at h
    obtain ⟨done, hsplit, h⟩ := h
    exact ⟨done, hsplit, h.concat (.descriptor fd, .socket r) [fd] .rfl⟩
  | noSocket r next hpc ha =>
    rw [hpc] at h
    obtain ⟨done, hsplit, h⟩ := h
    refine books_record (by rw [hsplit, List.append_cons]) ?_
    exact h.concat (a, .socket r) [] (by rw [opens_of_ne ha]; exact .rfl)
  | setsockopt fd r next hpc ha =>
    rw [hpc] at h
    obtain ⟨done, hsplit, h⟩ := h
    have hone := h.concat (a, .setsockopt fd) [fd] (by rw [abandons_of_ne ha]; exact .rfl)
    rw [abandons_of_ne ha] at hone
    exact ⟨done, hsplit, by simpa [tries, binds, obtains, frees] using hone⟩
  | setsockoptFailed fd r next hpc =>
    rw [hpc] at h
    obtain ⟨done, hsplit, h⟩ := h
    exact .inr (.inr ⟨fd, done, r, next, hsplit, by
      simpa [abandons, tries, binds, obtains, frees] using
        h.concat (.failed, .setsockopt fd) [] (by simp [opens, abandons, closes])⟩)
  | bind fd r next hpc ha =>
    rw [hpc] at h
    obtain ⟨done, hsplit, h⟩ := h
    have hone := h.concat (a, .bind fd r) [fd] .rfl
    rw [binds_of_ne ha] at hone
    exact ⟨done, r, next, hsplit, by simpa [abandons, tries, obtains, frees] using hone⟩
  | bindFailed fd r next hpc =>
    rw [hpc] at h
    obtain ⟨done, hsplit, h⟩ := h
    exact ⟨done ++ [r], by rw [hsplit, List.append_cons], by
      simpa [abandons, tries, binds, obtains, frees] using
        h.concat (.failed, .bind fd r) [fd] .rfl⟩
  | close fd next hpc =>
    rw [hpc] at h
    obtain ⟨done, hsplit, h⟩ := h
    refine books_record hsplit ?_
    simpa [abandons, tries, binds, obtains, frees] using
      h.concat (a, .close fd) [] (by simp [opens, abandons, closes])
  | noRecord hpc =>
    rw [hpc] at h
    exact .inr (.inl (by
      simpa [abandons, tries, binds, obtains, frees] using
        h.concat (a, .freeaddrinfo s.results) [] .rfl))
  | bound fd hpc =>
    rw [hpc] at h
    obtain ⟨done, r, next, hsplit, h⟩ := h
    have hone := h.concat (a, .freeaddrinfo s.results) [fd] .rfl
    cases hd : s.asDaemon with
    | true => exact ⟨done, r, next, hsplit, by
        simpa [abandons, tries, binds, obtains, frees] using hone⟩
    | false => exact ⟨done, r, next, hsplit, by
        simpa [abandons, tries, binds, obtains, frees] using hone⟩
  | daemon fd hpc ha =>
    rw [hpc] at h
    obtain ⟨done, r, next, hsplit, h⟩ := h
    exact ⟨done, r, next, hsplit, h.after a (.inl rfl)⟩
  | daemonFailed fd hpc =>
    rw [hpc] at h
    obtain ⟨done, r, next, hsplit, h⟩ := h
    exact ⟨done, r, next, hsplit, h.after .failed (.inl rfl)⟩
  | listen fd hpc ha =>
    rw [hpc] at h
    obtain ⟨done, r, next, hsplit, h⟩ := h
    exact ⟨done, r, next, hsplit, h.after a (.inr ⟨fd, rfl⟩)⟩
  | listenFailed fd hpc =>
    rw [hpc] at h
    obtain ⟨done, r, next, hsplit, h⟩ := h
    exact ⟨done, r, next, hsplit, h.after .failed (.inr ⟨fd, rfl⟩)⟩

theorem books_of_run (h : Run State.step ok (start argv) hist s) : Books hist s := by
  induction h with
  | start => exact ⟨.rfl, rfl, rfl, rfl, rfl, rfl⟩
  | call _ _ hs ih => exact books_step ih hs

/-- **What a server that runs has.**  Its socket is bound to an address, those before it were
tried in turn and could not be had, those after it were not tried; no other socket is open, and
the list of addresses is freed. -/
theorem serving_of_run {fd : ℕ} (h : Run State.step ok (start argv) hist s)
    (hpc : s.pc = .serving fd) :
    ∃ before r after, hist.flatMap obtains = [before ++ r :: after] ∧
      hist.flatMap tries = before ++ [r] ∧ hist.flatMap binds = [(fd, r)] ∧
      (hist.flatMap opens).Perm (fd :: hist.flatMap closes) ∧
      hist.flatMap frees = hist.flatMap obtains := by
  have hbooks := books_of_run h
  rw [Books.eq_def, hpc] at hbooks
  obtain ⟨before, r, after, hsplit, ht⟩ := hbooks
  refine ⟨before, r, after, ?_, ht.tried, ht.bound, by simpa using ht.opened, ?_⟩
  · rw [ht.obtained, hsplit]
  · rw [ht.freed, ht.obtained]

/-- The address 7 is taken, and 8 is not. -/
theorem serving_of_run_second :
    ∃ (hist : List (Answer ℕ × Action ℕ)) (s : State ℕ),
      Run State.step (fun _ _ => True) (start ["aesdsocket", "-d"]) hist s ∧
      s.pc = .serving 4 ∧ hist.flatMap tries = [7, 8] ∧
      ∃ before r after, hist.flatMap obtains = [before ++ r :: after] ∧
        hist.flatMap tries = before ++ [r] ∧ hist.flatMap binds = [(4, r)] ∧
        (hist.flatMap opens).Perm (4 :: hist.flatMap closes) ∧
        hist.flatMap frees = hist.flatMap obtains := by
  obtain ⟨hist, s, hrun, hpc, htries⟩ := exists_run_of_replay State.step (fun _ _ => True)
    (start ["aesdsocket", "-d"])
    [.done, .done, .results [7, 8, 9], .descriptor 3, .done, .failed, .done, .descriptor 4, .done,
      .done, .done, .done, .done]
    (fun hist s => s.pc = .serving 4 ∧ hist.flatMap tries = [7, 8]) (by decide +kernel)
  exact ⟨hist, s, hrun, hpc, htries, serving_of_run hrun hpc⟩

/-- **What a server that does not start leaves behind.**  At most one socket stays open: the one
that was bound, or the one whose options could not be set.  If there is none, all addresses
were tried.  The list of addresses stays if and only if the options could not be set. -/
theorem failed_of_run {socketfd : Option ℕ} (h : Run State.step ok (start argv) hist s)
    (hpc : s.pc = .failed socketfd) :
    ∃ left : List ℕ, (hist.flatMap opens).Perm (left ++ hist.flatMap closes) ∧
      left = (hist.flatMap binds).map Prod.fst ++ hist.flatMap abandons ∧ left.length ≤ 1 ∧
      (left = [] → hist.flatMap tries = (hist.flatMap obtains).flatten) ∧
      (hist.flatMap frees = hist.flatMap obtains ↔ hist.flatMap abandons = []) := by
  have hbooks := books_of_run h
  rw [Books.eq_def, hpc] at hbooks
  cases socketfd with
  | some fd =>
    obtain ⟨before, r, after, -, ht⟩ := hbooks
    refine ⟨[fd], by simpa using ht.opened, ?_, le_rfl, by simp, ?_⟩
    · rw [ht.bound, ht.abandoned]
      rfl
    · simp [ht.freed, ht.obtained, ht.abandoned]
  | none =>
    rcases hbooks with ht | ht | ⟨fd, before, r, after, -, ht⟩
    · refine ⟨[], ht.opened, ?_, by simp, fun _ => ?_, ?_⟩
      · rw [ht.bound, ht.abandoned]
        rfl
      · rw [ht.tried, ht.obtained]
        rfl
      · simp [ht.freed, ht.obtained, ht.abandoned]
    · refine ⟨[], ht.opened, ?_, by simp, fun _ => ?_, ?_⟩
      · rw [ht.bound, ht.abandoned]
        rfl
      · rw [ht.tried, ht.obtained, List.flatten_singleton]
      · simp [ht.freed, ht.obtained, ht.abandoned]
    · refine ⟨[fd], by simpa using ht.opened, ?_, le_rfl, by simp, ?_⟩
      · rw [ht.bound, ht.abandoned]
        rfl
      · simp [ht.freed, ht.obtained, ht.abandoned]

/-- The options of the first socket cannot be set, and the second address is not tried. -/
theorem failed_of_run_setsockopt :
    ∃ (hist : List (Answer ℕ × Action ℕ)) (s : State ℕ),
      Run State.step (fun _ _ => True) (start ["aesdsocket"]) hist s ∧
      s.pc = .failed none ∧ hist.flatMap tries = [7] ∧
      ∃ left : List ℕ, (hist.flatMap opens).Perm (left ++ hist.flatMap closes) ∧
        left = (hist.flatMap binds).map Prod.fst ++ hist.flatMap abandons ∧ left.length ≤ 1 ∧
        (left = [] → hist.flatMap tries = (hist.flatMap obtains).flatten) ∧
        (hist.flatMap frees = hist.flatMap obtains ↔ hist.flatMap abandons = []) := by
  obtain ⟨hist, s, hrun, hpc, htries⟩ := exists_run_of_replay State.step (fun _ _ => True)
    (start ["aesdsocket"])
    [.done, .done, .results [7, 8], .descriptor 3, .failed]
    (fun hist s => s.pc = .failed none ∧ hist.flatMap tries = [7]) (by decide +kernel)
  exact ⟨hist, s, hrun, hpc, htries, failed_of_run hrun hpc⟩

end Books

end Startup
end Aesd
