import Aesd.Server.ThreadList

/-!
# The sweeps are exact

Without the pointers, what `main` does to its list is short (`View.Step`): it puts a node
in front, it goes through the list and keeps or drops each node in turn, and in the end it
drops them all.  That the pointers do the same is the simulation `sees_step`; its one real
obligation is that the search of `SLIST_REMOVE` arrives, which needs that the list has no
node twice.

The latter is not a property of the list alone.  A node is in the list once because it was
allocated once: `malloc` returns nothing that is in use, and no node of an accepted
connection is ever freed.  So the list is tied to the history: at every moment it is the
accepted connections, newest first, without those that were joined (`View.Inv`).
-/

namespace Aesd

variable {τ α κ : Type}

/-! ## The list without pointers -/

/-- What `main` is doing to its list. -/
inductive View where
  /-- Nothing. -/
  | idle (l : List ℕ)
  /-- A connection was accepted and is not in the list yet. -/
  | inserting (datap : ℕ) (l : List ℕ)
  /-- Going through the list: `kept` was looked at and stays, `rest` is to come. -/
  | sweep (cleanup : Bool) (kept rest : List ℕ)
  | test (kept : List ℕ) (elem : ℕ) (rest : List ℕ)
  | join (cleanup : Bool) (kept : List ℕ) (elem : ℕ) (rest : List ℕ)
  | remove (cleanup : Bool) (kept : List ℕ) (elem : ℕ) (rest : List ℕ)
  | exited

namespace View

/-- The nodes that are linked. -/
def linked : View → List ℕ
  | .idle l => l
  | .inserting _ l => l
  | .sweep _ kept rest => kept ++ rest
  | .test kept elem rest => kept ++ elem :: rest
  | .join _ kept elem rest => kept ++ elem :: rest
  | .remove _ kept elem rest => kept ++ elem :: rest
  | .exited => []

/-- The connections that are accounted for. -/
def connections : View → List ℕ
  | .inserting datap l => datap :: l
  | .remove _ kept _ rest => kept ++ rest
  | v => v.linked

/-- What `main` is doing, by where it stands. -/
def At (v : View) : MainPc → Prop
  | .malloc | .accept _ | .mallocElem _ => ∃ l, v = .idle l
  | .create datap | .insert datap => ∃ l, v = .inserting datap l
  | .visit cleanup elem =>
      ∃ kept rest, v = .sweep cleanup kept rest ∧ elem = rest.head? ∧ (cleanup = true → kept = [])
  | .test elem tdatap => ∃ kept rest, v = .test kept elem rest ∧ tdatap = rest.head?
  | .join cleanup elem tdatap =>
      ∃ kept rest, v = .join cleanup kept elem rest ∧ tdatap = rest.head? ∧
        (cleanup = true → kept = [])
  | .remove cleanup elem tdatap =>
      ∃ kept rest, v = .remove cleanup kept elem rest ∧ tdatap = rest.head? ∧
        (cleanup = true → kept = [])
  | .exited => v = .exited

/-- The steps of `main`, as far as the list is concerned. -/
inductive Step : View → Event κ → View → Prop where
  | same (v : View) (e : Event κ) (ha : ∀ d, e ≠ .accepted d) (hs : ∀ d b, e ≠ .saw d b)
      (hj : ∀ d, e ≠ .joined d) : Step v e v
  | accept (d : ℕ) (l : List ℕ) : Step (.idle l) (.accepted d) (.inserting d l)
  | insert (d : ℕ) (l : List ℕ) : Step (.inserting d l) .quiet (.idle (d :: l))
  | begin (p : Option ℕ) (cleanup : Bool) (l : List ℕ) :
      Step (.idle l) (.malloc p) (.sweep cleanup [] l)
  | finish (l : List ℕ) : Step (.sweep false l []) (.free none) (.idle l)
  | exit : Step (.sweep true [] []) (.free none) .exited
  | visit (kept : List ℕ) (d : ℕ) (rest : List ℕ) :
      Step (.sweep false kept (d :: rest)) .quiet (.test kept d rest)
  | visitCleanup (d : ℕ) (rest : List ℕ) :
      Step (.sweep true [] (d :: rest)) .quiet (.join true [] d rest)
  | keep (kept : List ℕ) (d : ℕ) (rest : List ℕ) :
      Step (.test kept d rest) (.saw d false) (.sweep false (kept ++ [d]) rest)
  | reap (kept : List ℕ) (d : ℕ) (rest : List ℕ) :
      Step (.test kept d rest) (.saw d true) (.join false kept d rest)
  | join (cleanup : Bool) (kept : List ℕ) (d : ℕ) (rest : List ℕ) :
      Step (.join cleanup kept d rest) (.joined d) (.remove cleanup kept d rest)
  | remove (cleanup : Bool) (kept : List ℕ) (d : ℕ) (rest : List ℕ) :
      Step (.remove cleanup kept d rest) .quiet (.sweep cleanup kept rest)

end View

/-! ## The pointers do the same -/

namespace Main

variable {F : ThreadFn τ α κ} {s s' : Main τ} {v : View} {turn : Turn α} {e : Event κ}

/-- The list is in memory, and `main` stands where it says. -/
structure Sees (s : Main τ) (v : View) : Prop where
  at_pc : v.At s.pc
  links : Links s.next s.first v.linked

theorem sees_init : (init : Main τ).Sees (.idle []) := ⟨⟨[], rfl⟩, rfl⟩

/-- **A step on the pointers is a step on the list.** -/
theorem sees_step (hsees : s.Sees v) (hnd : v.linked.Nodup) (hfresh : v.connections.Nodup)
    (hbound : v.linked.length ≤ s.live.length) (hs : Moves F s turn e s') :
    ∃ v', s'.Sees v' ∧ v.Step e v' := by
  obtain ⟨hat, hlinks⟩ := hsees
  cases hs with
  | mallocFailed h => exact ⟨v, ⟨hat, hlinks⟩, .same v _ (by simp) (by simp) (by simp)⟩
  | malloc _ h | refused _ h | shutdown _ h =>
    rw [h] at hat
    exact ⟨v, ⟨hat, hlinks⟩, .same v _ (by simp) (by simp) (by simp)⟩
  | accept datap fd h =>
    rw [h] at hat
    obtain ⟨l, rfl⟩ := hat
    exact ⟨.inserting datap l, ⟨⟨l, rfl⟩, hlinks⟩, .accept datap l⟩
  | create result datap h =>
    rw [h] at hat
    exact ⟨v, ⟨hat, hlinks⟩, .same v _ (by simp) (by simp) (by simp)⟩
  | insert result datap h =>
    rw [h] at hat
    obtain ⟨l, rfl⟩ := hat
    exact ⟨.idle (datap :: l), ⟨⟨_, rfl⟩, Links.insert hlinks (List.nodup_cons.mp hfresh).1⟩,
      .insert datap l⟩
  | begin result cleanup h hp =>
    rw [h] at hat
    obtain ⟨l, rfl⟩ := hat
    exact ⟨.sweep cleanup [] l, ⟨⟨[], l, rfl, hlinks.eq_head?, fun _ => rfl⟩, hlinks⟩,
      .begin result cleanup l⟩
  | finish result cleanup h =>
    rw [h] at hat
    obtain ⟨kept, rest, rfl, hhead, hkept⟩ := hat
    obtain rfl : rest = [] := List.head?_eq_none_iff.mp hhead.symm
    have hkeptlinks : Links s.next s.first kept := by simpa [View.linked] using hlinks
    cases cleanup with
    | false => exact ⟨.idle kept, ⟨⟨kept, rfl⟩, hkeptlinks⟩, .finish kept⟩
    | true =>
      obtain rfl := hkept rfl
      exact ⟨.exited, ⟨rfl, hkeptlinks⟩, .exit⟩
  | visit result elem h =>
    rw [h] at hat
    obtain ⟨kept, rest, rfl, hhead, -⟩ := hat
    cases rest with
    | nil => cases hhead
    | cons d rest =>
      obtain rfl := Option.some.inj hhead
      exact ⟨.test kept elem rest, ⟨⟨kept, rest, rfl, hlinks.next_eq⟩, hlinks⟩,
        .visit kept elem rest⟩
  | visitCleanup result elem h =>
    rw [h] at hat
    obtain ⟨kept, rest, rfl, hhead, hkept⟩ := hat
    obtain rfl := hkept rfl
    cases rest with
    | nil => cases hhead
    | cons d rest =>
      obtain rfl := Option.some.inj hhead
      exact ⟨.join true [] elem rest,
        ⟨⟨[], rest, rfl, hlinks.2.eq_head?, fun _ => rfl⟩, hlinks⟩,
        .visitCleanup elem rest⟩
  | keep result elem tdatap h hflag =>
    rw [h] at hat
    obtain ⟨kept, rest, rfl, htdatap⟩ := hat
    refine ⟨.sweep false (kept ++ [elem]) rest, ⟨⟨_, rest, rfl, htdatap, by simp⟩, ?_⟩,
      .keep kept elem rest⟩
    simpa [View.linked] using hlinks
  | reap result elem tdatap h hflag =>
    rw [h] at hat
    obtain ⟨kept, rest, rfl, htdatap⟩ := hat
    exact ⟨.join false kept elem rest, ⟨⟨kept, rest, rfl, htdatap, by simp⟩, hlinks⟩,
      .reap kept elem rest⟩
  | join result cleanup elem tdatap h hret =>
    rw [h] at hat
    obtain ⟨kept, rest, rfl, hcursor⟩ := hat
    exact ⟨.remove cleanup kept elem rest, ⟨⟨kept, rest, rfl, hcursor⟩, hlinks⟩,
      .join cleanup kept elem rest⟩
  | remove result cleanup elem tdatap first next h hrem =>
    rw [h] at hat
    obtain ⟨kept, rest, rfl, hcursor⟩ := hat
    obtain ⟨first', next', hrem', hlinks'⟩ := slistRemove_spec hlinks hnd hbound
    cases hrem.symm.trans hrem'
    exact ⟨.sweep cleanup kept rest, ⟨⟨kept, rest, rfl, hcursor⟩, hlinks'⟩,
      .remove cleanup kept elem rest⟩
  | thread datap a act c c' hc hstep =>
    exact ⟨v, ⟨hat, hlinks⟩, .same v _ (by simp) (by simp) (by simp)⟩
  | signal => exact ⟨v, ⟨hat, hlinks⟩, .same v _ (by simp) (by simp) (by simp)⟩

end Main

/-! ## Histories -/

/-- The connections that were accepted, in that order. -/
@[simp] def Event.accepts : Event κ → List ℕ
  | .accepted d => [d]
  | _ => []

/-- The connection whose thread was joined. -/
@[simp] def Event.joins : Event κ → List ℕ
  | .joined d => [d]
  | _ => []

/-- The flag that was looked at. -/
@[simp] def Event.saws : Event κ → List (ℕ × Bool)
  | .saw d b => [(d, b)]
  | _ => []

def accepted (hist : List (Turn α × Event κ)) : List ℕ := hist.flatMap fun e => e.2.accepts

def joined (hist : List (Turn α × Event κ)) : List ℕ := hist.flatMap fun e => e.2.joins

def saws (hist : List (Turn α × Event κ)) : List (ℕ × Bool) := hist.flatMap fun e => e.2.saws

section History

variable (hist : List (Turn α × Event κ)) (turn : Turn α) (e : Event κ)

@[simp] theorem accepted_concat : accepted (hist ++ [(turn, e)]) = accepted hist ++ e.accepts := by
  simp [accepted]

@[simp] theorem joined_concat : joined (hist ++ [(turn, e)]) = joined hist ++ e.joins := by
  simp [joined]

@[simp] theorem saws_concat : saws (hist ++ [(turn, e)]) = saws hist ++ e.saws := by
  simp [saws]

end History

/-- An accepted connection keeps its node: it is allocated, and `main` is not about to
accept it again. -/
structure Main.Allocated (acc : List ℕ) (s : Main τ) : Prop where
  live : ∀ d ∈ acc, d ∈ s.live
  fresh : ∀ d, s.pc = .accept d → d ∈ s.live ∧ d ∉ acc
  nodup : acc.Nodup

theorem Main.Allocated.step {F : ThreadFn τ α κ} {s s' : Main τ} {acc : List ℕ} {turn : Turn α}
    {e : Event κ} (h : s.Allocated acc) (hs : Moves F s turn e s') :
    s'.Allocated (acc ++ e.accepts) := by
  obtain ⟨hlive, hfresh, hnd⟩ := h
  cases hs with
  | malloc p hpc hp =>
    refine ⟨fun d hd => List.mem_cons_of_mem _ (hlive d (by simpa using hd)), ?_,
      by simpa using hnd⟩
    rintro d ⟨⟩
    exact ⟨by simp, by simpa using fun hd => hp (hlive p hd)⟩
  | refused datap hpc hsig =>
    refine ⟨fun d hd => ?_, nofun, by simpa using hnd⟩
    have hmem : d ∈ acc := by simpa using hd
    refine (List.mem_erase_of_ne ?_).mpr (hlive d hmem)
    rintro rfl
    exact (hfresh d hpc).2 hmem
  | accept datap fd hpc =>
    obtain ⟨hin, hnot⟩ := hfresh datap hpc
    refine ⟨fun d hd => ?_, nofun, ?_⟩
    · rcases List.mem_append.mp hd with hd | hd
      · exact hlive d hd
      · obtain rfl : d = datap := by simpa using hd
        exact hin
    · exact List.nodup_append_comm.mp (List.nodup_cons.mpr ⟨hnot, hnd⟩)
  | begin result cleanup hpc hp =>
    refine ⟨fun d hd => ?_, nofun, by simpa using hnd⟩
    exact List.mem_append_right _ (hlive d (by simpa using hd))
  | mallocFailed hpc => exact ⟨by simpa using hlive, by simp [hpc], by simpa using hnd⟩
  | finish result cleanup hpc =>
    refine ⟨by simpa using hlive, fun d hd => ?_, by simpa using hnd⟩
    cases cleanup <;> cases hd
  | thread | signal => exact ⟨by simpa using hlive, by simpa using hfresh, by simpa using hnd⟩
  | _ => exact ⟨by simpa using hlive, by simp, by simpa using hnd⟩

namespace View

/-- The list and the history. -/
structure Inv (acc joi : List ℕ) (v : View) : Prop where
  connections : v.connections = acc.reverse.filter fun d => d ∉ joi
  subset : joi ⊆ acc
  nodup : joi.Nodup
  removing : ∀ cleanup kept d rest, v = .remove cleanup kept d rest → d ∈ joi

variable {acc joi : List ℕ} {v v' : View} {e : Event κ}

theorem inv_init : Inv [] [] (.idle []) := ⟨rfl, by simp, List.nodup_nil, by simp⟩

theorem Inv.connections_nodup (h : Inv acc joi v) (hacc : acc.Nodup) : v.connections.Nodup := by
  rw [h.connections]
  exact (List.nodup_reverse.mpr hacc).filter _

theorem Inv.mem_connections (h : Inv acc joi v) {d : ℕ} :
    d ∈ v.connections ↔ d ∈ acc ∧ d ∉ joi := by
  rw [h.connections]
  simp

theorem Inv.linked_nodup (h : Inv acc joi v) (hacc : acc.Nodup) : v.linked.Nodup := by
  have hnd := h.connections_nodup hacc
  cases v with
  | inserting d l => exact (List.nodup_cons.mp hnd).2
  | remove cleanup kept d rest =>
    have hd : d ∉ kept ++ rest := fun hmem =>
      (h.mem_connections.mp hmem).2 (h.removing cleanup kept d rest rfl)
    exact List.nodup_middle.mpr (List.nodup_cons.mpr ⟨hd, hnd⟩)
  | _ => exact hnd

theorem Inv.linked_subset (h : Inv acc joi v) : v.linked ⊆ acc := by
  intro d hd
  cases v with
  | inserting d' l => exact (h.mem_connections.mp (List.mem_cons_of_mem _ hd)).1
  | remove cleanup kept d' rest =>
    have hsplit : d = d' ∨ d ∈ kept ++ rest := by simpa [linked, or_left_comm] using hd
    rcases hsplit with rfl | hmem
    · exact h.subset (h.removing cleanup kept d rest rfl)
    · exact (h.mem_connections.mp hmem).1
  | _ => exact (h.mem_connections.mp hd).1

/-- **A step on the list keeps it in line with the history.** -/
theorem Inv.step (h : Inv acc joi v) (hacc : (acc ++ e.accepts).Nodup) (hs : v.Step e v') :
    Inv (acc ++ e.accepts) (joi ++ e.joins) v' := by
  cases hs with
  | same _ _ ha hsaw hj =>
    have hnone : e.accepts = [] ∧ e.joins = [] := by
      cases e <;> simp_all [Event.accepts, Event.joins]
    rw [hnone.1, hnone.2, List.append_nil, List.append_nil]
    exact h
  | accept d l =>
    have hd : d ∉ joi := fun hmem =>
      (List.nodup_append.mp hacc).2.2 d (h.subset hmem) d (by simp) rfl
    have hl : l = acc.reverse.filter fun d => d ∉ joi := h.connections
    refine ⟨?_, ?_, by simpa using h.nodup, by simp⟩
    · simp [View.connections, hd, hl]
    · show joi ++ [] ⊆ acc ++ [d]
      rw [List.append_nil]
      exact fun x hx => List.mem_append_left _ (h.subset hx)
  | join cleanup kept d rest =>
    have hnd := h.connections_nodup (by simpa using hacc)
    have hd := h.mem_connections.mp (List.mem_append_right kept (List.mem_cons_self (l := rest)))
    have hconn : kept ++ d :: rest = acc.reverse.filter fun x => x ∉ joi := h.connections
    have hcons : (d :: (kept ++ rest)).Nodup := List.nodup_middle.mp hnd
    refine ⟨?_, ?_, ?_, ?_⟩
    · have herase : kept ++ rest = (kept ++ d :: rest).filter fun x => x ≠ d := by
        have hk : ∀ x ∈ kept ++ rest, x ≠ d := by
          rintro x hx rfl
          exact (List.nodup_cons.mp hcons).1 hx
        rw [List.filter_append, List.filter_cons_of_neg (by simp), ← List.filter_append]
        exact (List.filter_eq_self.mpr (by simpa using hk)).symm
      show kept ++ rest = _
      rw [herase, hconn, List.filter_filter]
      simp [not_or, and_comm]
    · show joi ++ [d] ⊆ acc ++ []
      rw [List.append_nil]
      exact List.append_subset.mpr ⟨h.subset, by simpa using hd.1⟩
    · exact List.nodup_append_comm.mp (List.nodup_cons.mpr ⟨hd.2, h.nodup⟩)
    · rintro _ _ _ _ ⟨⟩
      simp
  | insert | begin | finish | exit | visit | visitCleanup | keep | reap | remove =>
    refine ⟨?_, by simpa using h.subset, by simpa using h.nodup, by simp⟩
    simpa [View.connections, View.linked] using h.connections

end View

/-! ## Runs -/

namespace Main

variable {F : ThreadFn τ α κ} {ok : Main τ → Turn α → Prop} {s s' : Main τ} {v : View}
  {turn : Turn α} {e : Event κ} {hist : List (Turn α × Event κ)}

/-- The state, the view of it, and the history agree. -/
structure Good (hist : List (Turn α × Event κ)) (s : Main τ) (v : View) : Prop where
  sees : s.Sees v
  inv : v.Inv (accepted hist) (joined hist)
  allocated : s.Allocated (accepted hist)

theorem Good.linked_nodup (h : Good hist s v) : v.linked.Nodup :=
  h.inv.linked_nodup h.allocated.nodup

theorem Good.linked_length (h : Good hist s v) : v.linked.length ≤ s.live.length :=
  (List.subperm_of_subset h.linked_nodup fun d hd =>
    h.allocated.live d (h.inv.linked_subset hd)).length_le

theorem good_init : Good ([] : List (Turn α × Event κ)) (init : Main τ) (.idle []) where
  sees := sees_init
  inv := View.inv_init
  allocated := ⟨by simp [accepted], nofun, List.nodup_nil⟩

/-- **One step.** -/
theorem good_step (h : Good hist s v) (hs : s.step F turn = .ok (e, s')) :
    ∃ v', Good (hist ++ [(turn, e)]) s' v' ∧ v.Step e v' := by
  have hm := moves_of_step hs
  have halloc := h.allocated.step hm
  obtain ⟨v', hsees, hstep⟩ := sees_step h.sees h.linked_nodup
    (h.inv.connections_nodup h.allocated.nodup) h.linked_length hm
  refine ⟨v', ⟨hsees, ?_, ?_⟩, hstep⟩
  · rw [accepted_concat, joined_concat]
    exact h.inv.step halloc.nodup hstep
  · rw [accepted_concat]
    exact halloc

theorem good_of_run (h : Run (step F) ok init hist s) : ∃ v, Good hist s v := by
  induction h with
  | start => exact ⟨_, good_init⟩
  | call _ _ hs ih =>
    obtain ⟨v, hv⟩ := ih
    obtain ⟨v', hv', -⟩ := good_step hv hs
    exact ⟨v', hv'⟩

/-- **The search for the node to remove arrives.** -/
theorem step_ne_error (h : Good hist s v) (turn : Turn α) :
    s.step F turn ≠ .error .nullDeref ∧ s.step F turn ≠ .error .endless := by
  cases turn with
  | signal => simp [step]
  | thread datap a =>
    simp only [step]
    cases s.thread datap with
    | none => simp
    | some c =>
      dsimp only
      cases F.step c a <;> simp
  | main result =>
    simp only [step]
    cases hpc : s.pc with
    | remove cleanup elem tdatap =>
      have hat := h.sees.at_pc
      rw [hpc] at hat
      obtain ⟨kept, rest, rfl, -⟩ := hat
      obtain ⟨first, next, hrem, -⟩ := slistRemove_spec h.sees.links h.linked_nodup h.linked_length
      simp [mainStep, hpc, hrem]
    | malloc =>
      cases result with
      | none => simp [mainStep, hpc]
      | some p =>
        simp only [mainStep, hpc]
        split_ifs <;> simp
    | mallocElem =>
      cases result with
      | none => simp [mainStep, hpc]
      | some p =>
        simp only [mainStep, hpc]
        split_ifs <;> simp
    | accept =>
      simp only [mainStep, hpc]
      split_ifs <;> simp
    | join =>
      simp only [mainStep, hpc]
      split_ifs <;> simp
    | visit cleanup elem => cases elem <;> simp [mainStep, hpc]
    | create | insert | test | exited => simp [mainStep, hpc]

end Main

/-! ## One sweep -/

/-- The nodes that were seen incomplete. -/
def keptOf (l : List (ℕ × Bool)) : List ℕ := (l.filter fun p => !p.2).map Prod.fst

/-- The nodes that were seen complete. -/
def goneOf (l : List (ℕ × Bool)) : List ℕ := (l.filter fun p => p.2).map Prod.fst

/-- `main` is going through the list after an accept. -/
def MainPc.inSweep : MainPc → Bool
  | .visit cleanup _ | .join cleanup _ _ | .remove cleanup _ _ => !cleanup
  | .test _ _ => true
  | _ => false

/-- How far a sweep of `l` has got, with what it saw and what it joined so far. -/
def View.Swept (l : List ℕ) (saw : List (ℕ × Bool)) (joi : List ℕ) : View → Prop
  | .sweep false kept rest => saw.map Prod.fst ++ rest = l ∧ kept = keptOf saw ∧ joi = goneOf saw
  | .test kept elem rest =>
      saw.map Prod.fst ++ elem :: rest = l ∧ kept = keptOf saw ∧ joi = goneOf saw
  | .join false kept elem rest =>
      saw.map Prod.fst ++ rest = l ∧ kept = keptOf saw ∧ joi ++ [elem] = goneOf saw
  | .remove false kept _ rest =>
      saw.map Prod.fst ++ rest = l ∧ kept = keptOf saw ∧ joi = goneOf saw
  | .idle kept => saw.map Prod.fst = l ∧ kept = keptOf saw ∧ joi = goneOf saw
  | _ => False

/-- One step of a sweep. -/
theorem View.Swept.step {v v' : View} {e : Event κ} {l joi : List ℕ} {saw : List (ℕ × Bool)}
    (h : v.Swept l saw joi) (hidle : ∀ l, v ≠ .idle l) (hs : v.Step e v') :
    v'.Swept l (saw ++ e.saws) (joi ++ e.joins) := by
  cases hs with
  | same _ _ ha hsaw hj =>
    have hnone : e.saws = [] ∧ e.joins = [] := by cases e <;> simp_all
    rw [hnone.1, hnone.2, List.append_nil, List.append_nil]
    exact h
  | accept d l' | begin p cleanup l' => exact absurd rfl (hidle l')
  | insert | exit | visitCleanup => exact h.elim
  | finish | visit => simpa [Swept] using h
  | keep kept d rest =>
    obtain ⟨hl, rfl, hj⟩ := h
    exact ⟨by simpa using hl, by simp [keptOf], by simpa [goneOf] using hj⟩
  | reap kept d rest =>
    obtain ⟨hl, rfl, hj⟩ := h
    exact ⟨by simpa using hl, by simp [keptOf], by simpa [goneOf] using hj⟩
  | join cleanup kept d rest =>
    cases cleanup with
    | true => exact h.elim
    | false => simpa [Swept] using h
  | remove cleanup kept d rest =>
    cases cleanup with
    | true => exact h.elim
    | false => simpa [Swept] using h

namespace Main

variable {F : ThreadFn τ α κ} {s s' : Main τ} {v : View} {hist sweep : List (Turn α × Event κ)}

/-- **A sweep**, from its beginning as far as it has got. -/
theorem swept_of_run (h : Good hist s v) (hstart : s.pc = .visit false s.first)
    (hrun : Run (step F) (fun s _ => s.pc.inSweep = true) s sweep s') :
    ∃ v', Good (hist ++ sweep) s' v' ∧ v'.Swept v.linked (saws sweep) (joined sweep) := by
  induction hrun with
  | start =>
    refine ⟨v, by simpa using h, ?_⟩
    have hat := h.sees.at_pc
    rw [hstart] at hat
    obtain ⟨kept, rest, rfl, hhead, -⟩ := hat
    -- the first node is the one to be visited, so nothing was passed over
    have hkept : kept = [] := by
      cases kept with
      | nil => rfl
      | cons d kept =>
        have hfirst := h.sees.links.eq_head?
        rw [hhead] at hfirst
        have hmem : d ∈ rest := List.mem_of_head? hfirst
        exact absurd (List.mem_append_right kept hmem) (List.nodup_cons.mp h.linked_nodup).1
    subst hkept
    exact ⟨rfl, rfl, rfl⟩
  | @call sweep s₁ s₂ turn e _ hin hs ih =>
    obtain ⟨v₁, hgood, hswept⟩ := ih
    obtain ⟨v₂, hgood', hstep⟩ := good_step hgood hs
    have hidle : ∀ l, v₁ ≠ .idle l := by
      rintro l rfl
      have hat := hgood.sees.at_pc
      cases hpc : s₁.pc <;> simp_all [View.At, MainPc.inSweep]
    refine ⟨v₂, by simpa using hgood', ?_⟩
    rw [saws_concat, joined_concat]
    exact hswept.step hidle hstep

end Main

/-- What is known of the list at every moment. -/
structure ListExact (F : ThreadFn τ α κ) (hist : List (Turn α × Event κ)) (s : Main τ) : Prop where
  /-- The search of `SLIST_REMOVE` does not run off the list. -/
  noFault : ∀ turn, s.step F turn ≠ .error .nullDeref ∧ s.step F turn ≠ .error .endless
  /-- At the head of the loop the list has no duplicates and holds the accepted connections
  that were not joined, newest first. -/
  loopHead : s.pc = .malloc → ∃ l, Links s.next s.first l ∧ l.Nodup ∧
    l = (accepted hist).reverse.filter fun d => d ∉ joined hist
  /-- No connection is accepted twice or joined twice, and only accepted ones are joined. -/
  once : (accepted hist).Nodup ∧ (joined hist).Nodup ∧ joined hist ⊆ accepted hist
  /-- A sweep looks at all nodes of the list, joins and unlinks those whose flag it saw set,
  and keeps the others in their order. -/
  sweeps : ∀ sweep s', s.pc = .visit false s.first →
    Run (Main.step F) (fun s _ => s.pc.inSweep = true) s sweep s' → s'.pc = .malloc →
      ∃ l, Links s.next s.first l ∧ (saws sweep).map Prod.fst = l ∧
        joined sweep = goneOf (saws sweep) ∧ Links s'.next s'.first (keptOf (saws sweep))
  /-- On exit the list is empty, and every accepted connection was joined. -/
  atExit : s.pc = .exited → s.first = none ∧ (joined hist).Perm (accepted hist)

/-- **The sweeps of the thread list are exact**, in every run of the accept loop and
whatever the threads do. -/
theorem list_exact {F : ThreadFn τ α κ} {hist : List (Turn α × Event κ)} {s : Main τ}
    (h : Run (Main.step F) (fun _ _ => True) Main.init hist s) : ListExact F hist s := by
  obtain ⟨v, hgood⟩ := Main.good_of_run h
  have hconn := hgood.inv.connections
  have hat := hgood.sees.at_pc
  refine ⟨Main.step_ne_error hgood, fun hpc => ?_,
    ⟨hgood.allocated.nodup, hgood.inv.nodup, hgood.inv.subset⟩, fun sweep s' hstart hrun hend => ?_,
    fun hpc => ?_⟩
  · rw [hpc] at hat
    obtain ⟨l, rfl⟩ := hat
    exact ⟨l, hgood.sees.links, hgood.linked_nodup, hconn⟩
  · obtain ⟨v', hgood', hswept⟩ := Main.swept_of_run hgood hstart hrun
    have hat' := hgood'.sees.at_pc
    rw [hend] at hat'
    obtain ⟨l', rfl⟩ := hat'
    obtain ⟨hl, rfl, hj⟩ := hswept
    exact ⟨v.linked, hgood.sees.links, hl, hj, hgood'.sees.links⟩
  · rw [hpc] at hat
    subst hat
    refine ⟨hgood.sees.links, ?_⟩
    rw [List.perm_ext_iff_of_nodup hgood.inv.nodup hgood.allocated.nodup]
    intro d
    refine ⟨fun hd => hgood.inv.subset hd, fun hd => ?_⟩
    by_contra hnot
    exact absurd (hgood.inv.mem_connections.mpr ⟨hd, hnot⟩)
      (by simp [View.connections, View.linked])

/-- Two connections: the first fails at once, and the sweep after the second finds it. -/
theorem list_exact_two :
    ∃ hist s, Run (Main.step handleConnection) (fun _ _ => True) Main.init hist s ∧
      s.pc = .malloc ∧ accepted hist = [7, 8] ∧ saws hist = [(7, false), (8, false), (7, true)] ∧
      ListExact handleConnection hist s := by
  obtain ⟨hist, s, hrun, hpc, hacc, hsaw⟩ := exists_run_of_replay (Main.step handleConnection)
    (fun _ _ => True) Main.init
    [.main (some 7), .main (some 4), .main none, .main none, .main none, .main none, .main none,
      .main none, .thread 7 .failed, .thread 7 .done, .thread 7 .done,
      .main (some 8), .main (some 5), .main none, .main none, .main none, .main none, .main none,
      .main none, .main none, .main none, .main none, .main none]
    (fun hist s => s.pc = .malloc ∧ accepted hist = [7, 8] ∧
      saws hist = [(7, false), (8, false), (7, true)]) (by decide)
  exact ⟨hist, s, hrun, hpc, hacc, hsaw, list_exact hrun⟩

end Aesd
