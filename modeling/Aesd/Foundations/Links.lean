import Mathlib.Tactic

/-!
# Singly linked lists

A list in memory is a pointer to its first node and, in every node, a pointer to the
next.  `Links next p l` says that following the pointers from `p` visits the nodes of
`l` and then ends.  Memory is only the function `next`; what else is in a node, and
which nodes exist, is left to whoever uses it.

The three lemmas that matter are about writing one pointer: outside the list
(`congr`), in front of it (`insert`), and inside it to take a node out (`unlink`).  The
last two need that no node occurs twice, which is also what makes the node found by
searching the one that was meant.
-/

namespace Aesd

variable {α : Type*}

/-- Following `next` from `p` visits the nodes of the list, and ends. -/
def Links (next : α → Option α) : Option α → List α → Prop
  | p, [] => p = none
  | p, a :: l => p = some a ∧ Links next (next a) l

namespace Links

instance decidable [DecidableEq α] (next : α → Option α) :
    (p : Option α) → (l : List α) → Decidable (Links next p l)
  | p, [] => inferInstanceAs (Decidable (p = none))
  | p, a :: l =>
      have := decidable next (next a) l
      inferInstanceAs (Decidable (p = some a ∧ Links next (next a) l))

variable {next next' : α → Option α} {p : Option α} {a c : α} {l pre post : List α}

@[simp] theorem nil_iff : Links next p [] ↔ p = none := Iff.rfl

@[simp] theorem cons_iff : Links next p (a :: l) ↔ p = some a ∧ Links next (next a) l := Iff.rfl

/-- The pointer is to the first node. -/
theorem eq_head? (h : Links next p l) : p = l.head? := by
  cases l with
  | nil => exact h
  | cons a l => exact h.1

/-- Pointers of nodes outside the list do not matter. -/
theorem congr (h : Links next p l) (hsame : ∀ a ∈ l, next' a = next a) : Links next' p l := by
  induction l generalizing p with
  | nil => exact h
  | cons a l ih =>
    obtain ⟨hp, hrest⟩ := h
    refine ⟨hp, ?_⟩
    rw [hsame a (by simp)]
    exact ih hrest fun b hb => hsame b (by simp [hb])

/-- The list from one of its nodes on. -/
theorem suffix (h : Links next p (pre ++ a :: post)) : Links next (next a) post := by
  induction pre generalizing p with
  | nil => exact h.2
  | cons b pre ih => exact ih h.2

/-- Where the pointer of a node of the list leads. -/
theorem next_eq (h : Links next p (pre ++ a :: post)) : next a = post.head? := h.suffix.eq_head?

/-- A pointer leads to one list only. -/
theorem unique (h : Links next p l) {l' : List α} (h' : Links next p l') : l = l' := by
  induction l generalizing p l' with
  | nil =>
    cases l' with
    | nil => rfl
    | cons a l' => exact absurd (h.symm.trans h'.1) (by simp)
  | cons a l ih =>
    cases l' with
    | nil => exact absurd (h'.symm.trans h.1) (by simp)
    | cons b l' =>
      obtain rfl : a = b := Option.some.inj (h.1.symm.trans h'.1)
      rw [ih h.2 h'.2]

variable [DecidableEq α]

/-- A node in front of the list. -/
theorem insert (h : Links next p l) (ha : a ∉ l) :
    Links (Function.update next a p) (some a) (a :: l) := by
  refine ⟨rfl, ?_⟩
  rw [Function.update_self]
  refine h.congr fun b hb => Function.update_of_ne ?_ _ _
  rintro rfl
  exact ha hb

/-- **A node taken out**, by writing the pointer of the node before it. -/
theorem unlink (h : Links next p (pre ++ c :: a :: post)) (hnd : (pre ++ c :: a :: post).Nodup) :
    Links (Function.update next c (next a)) p (pre ++ c :: post) := by
  induction pre generalizing p with
  | nil =>
    obtain ⟨hp, -, hpost⟩ := h
    refine ⟨hp, ?_⟩
    rw [Function.update_self]
    refine hpost.congr fun b hb => Function.update_of_ne ?_ _ _
    rintro rfl
    exact (List.nodup_cons.mp hnd).1 (by simp [hb])
  | cons b pre ih =>
    have hne : b ≠ c := by
      rintro rfl
      exact (List.nodup_cons.mp hnd).1 (by simp)
    refine ⟨h.1, ?_⟩
    rw [Function.update_of_ne hne]
    exact ih h.2 (List.nodup_cons.mp hnd).2

end Links
end Aesd
