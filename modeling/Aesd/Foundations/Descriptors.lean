import Mathlib.Tactic

/-!
# Tables of open files

A process has a table of its open files.  A file that is opened gets the lowest number that is
free, below a limit, and a number can be made to stand for what another one stands for.  A number
can be marked, and is then closed when the process becomes another program; what stands for a
file that was opened without the mark, or for a duplicate, is not.

`redirect` is the usual way to have a number stand for a file: open it, duplicate it, and close
the number that it was opened under.  It does what it should unless the file happened to be opened
under the very number that was wanted; then closing it undoes the whole (`redirect_eq`).
-/

namespace Aesd

variable {φ : Type*}

/-- What a number stands for. -/
structure OpenFile (φ : Type*) where
  file : φ
  /-- The number is closed when the process becomes another program. -/
  cloexec : Bool
  deriving DecidableEq, Repr

/-- A table of open files. -/
abbrev Descriptors (φ : Type*) := ℕ → Option (OpenFile φ)

namespace Descriptors

variable {t : Descriptors φ} {limit fd n : ℕ} {f : φ}

/-- The lowest number that is free. -/
def lowest (limit : ℕ) (t : Descriptors φ) : Option ℕ :=
  (List.range limit).find? fun n => (t n).isNone

theorem lowest_eq_some_iff :
    lowest limit t = some fd ↔ fd < limit ∧ t fd = none ∧ ∀ n < fd, t n ≠ none := by
  rw [lowest, List.find?_range_eq_some]
  simp only [Option.isNone_iff_eq_none, List.mem_range, Bool.not_eq_true',
    Option.isNone_eq_false_iff, Option.isSome_iff_ne_none]
  exact and_left_comm

/-- Open a file under a number, without the mark. -/
def openAt (t : Descriptors φ) (fd : ℕ) (f : φ) : Descriptors φ :=
  Function.update t fd (some ⟨f, false⟩)

/-- How many files are open. -/
def openCount (limit : ℕ) (t : Descriptors φ) : ℕ :=
  ((Finset.range limit).filter fun n => (t n).isSome = true).card

theorem openCount_le (limit : ℕ) (t : Descriptors φ) : openCount limit t ≤ limit :=
  (Finset.card_filter_le _ _).trans (Finset.card_range limit).le

/-- **Opening a file** makes one more. -/
theorem openCount_openAt (hfd : fd < limit) (hfree : t fd = none) (f : φ) :
    openCount limit (openAt t fd f) = openCount limit t + 1 := by
  have hnot : fd ∉ (Finset.range limit).filter fun n => (t n).isSome = true := by
    simp [hfree]
  rw [openCount, openCount, ← Finset.card_insert_of_notMem hnot, openAt]
  congr 1
  ext n
  by_cases hn : n = fd
  · subst hn
    simp [hfd]
  · simp [hn]

/-- Duplicate `fd` under the number `n`.  The duplicate is not marked; a number is not duplicated
under itself. -/
def dup2 (t : Descriptors φ) (fd n : ℕ) : Descriptors φ :=
  if fd = n then t else Function.update t n ((t fd).map fun o => ⟨o.file, false⟩)

/-- Close a number. -/
def close (t : Descriptors φ) (fd : ℕ) : Descriptors φ := Function.update t fd none

/-- What is open when the process has become another program. -/
def exec (t : Descriptors φ) : Descriptors φ := fun n => (t n).filter fun o => !o.cloexec

/-- The table when a file that was opened under `fd` has been duplicated under `n` and `fd` has
been closed. -/
def redirect (t : Descriptors φ) (fd : ℕ) (f : φ) (n : ℕ) : Descriptors φ :=
  close (dup2 (openAt t fd f) fd n) fd

/-- **What redirection does.** -/
theorem redirect_eq (hfree : t fd = none) (f : φ) (n : ℕ) :
    redirect t fd f n = if fd = n then t else openAt t n f := by
  ext1 k
  rw [redirect, close, dup2]
  split
  · by_cases hk : k = fd
    · rw [hk, Function.update_self, hfree]
    · rw [Function.update_of_ne hk, openAt, Function.update_of_ne hk]
  · next hne =>
    by_cases hk : k = fd
    · rw [hk, Function.update_self, openAt, Function.update_of_ne hne, hfree]
    · rw [Function.update_of_ne hk]
      by_cases hkn : k = n
      · rw [hkn, Function.update_self, openAt, openAt, Function.update_self, Function.update_self,
          Option.map_some]
      · rw [Function.update_of_ne hkn, openAt, openAt, Function.update_of_ne hk,
          Function.update_of_ne hkn]

end Descriptors
end Aesd
