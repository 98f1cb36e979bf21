import Aesd.Foundations.BlockHeap

/-!
# What the driver calls in the kernel

The driver's own code is small; most of what can go wrong with it goes wrong in
what it passes to `kmalloc`, `kfree`, `memcpy` and the two user copies.  These
five are not part of the repository, so each is modelled by what the kernel
documents about it, with everything that is not decided by its arguments left
open.

* A block has an identity of its own: no identity is given out twice.
* `kmalloc` may return `NULL` whenever it likes, and always does for a size of
  `2 ^ 31` or more; the bytes of a new block are whatever they were.
* A user copy is limited by how many bytes at the user's address are accessible.
  It returns the number of bytes it could not copy.  A size above `INT_MAX` is
  refused before anything is touched, and `copy_from_user` fills what it could not
  copy with zeros.
* Touching memory through `NULL`, outside a block or in a freed block, and freeing
  a block twice, is a `Fault`: C gives it no meaning, and there is no next state.
-/

namespace Aesd

/-- What the kernel gives no meaning to. -/
inductive Fault where
  /-- Memory was touched through `NULL`. -/
  | nullPointer
  /-- Memory was touched past the end of its block. -/
  | outOfBounds
  /-- A freed block was touched. -/
  | useAfterFree
  /-- A block was freed a second time. -/
  | doubleFree
  deriving DecidableEq, Repr

/-- Kernel memory. -/
abbrev Heap := BlockHeap UInt8

/-! ## Error numbers -/

/-- `EBADF`. -/
abbrev eBadf : ℤ := 9
/-- `ENOMEM`. -/
abbrev eNomem : ℤ := 12
/-- `EFAULT`. -/
abbrev eFault : ℤ := 14
/-- `EINVAL`. -/
abbrev eInval : ℤ := 22
/-- `ENOTTY`. -/
abbrev eNotty : ℤ := 25
/-- `ERESTARTSYS`. -/
abbrev eRestartsys : ℤ := 512
/-- `INT_MAX`. -/
abbrev intMax : ℕ := 2 ^ 31 - 1

/-! ## Memory -/

/-- The block a pointer refers to, with its contents. -/
def deref (h : Heap) : Option ℕ → Except Fault (ℕ × List UInt8)
  | none => .error .nullPointer
  | some i =>
      match h.data? i with
      | some d => .ok (i, d)
      | none => .error .useAfterFree

/-- Read `n` bytes from the start of a block. -/
def load (h : Heap) (p : Option ℕ) (n : ℕ) : Except Fault (List UInt8) :=
  if n = 0 then .ok []
  else
    match deref h p with
    | .error f => .error f
    | .ok (_, d) => if n ≤ d.length then .ok (d.take n) else .error .outOfBounds

/-- Write bytes into a block from offset `off` on. -/
def store (h : Heap) (p : Option ℕ) (off : ℕ) (bytes : List UInt8) : Except Fault Heap :=
  if bytes = [] then .ok h
  else
    match deref h p with
    | .error f => .error f
    | .ok (i, d) =>
        if off + bytes.length ≤ d.length then
          .ok (h.store i (d.take off ++ bytes ++ d.drop (off + bytes.length)))
        else .error .outOfBounds

/-- The bytes behind a pointer, for reading the state; nothing behind `NULL`. -/
def bytesAt (h : Heap) (p : Option ℕ) : List UInt8 := (p.bind h.data?).getD []

/-- `kmalloc(n)`.  `alloc` is `none` if the kernel is out of memory, and otherwise
the bytes that happen to be in the block. -/
def kmalloc (h : Heap) (alloc : Option (ℕ → UInt8)) (n : ℕ) : Heap × Option ℕ :=
  match alloc with
  | none => (h, none)
  | some junk =>
      if n < 2 ^ 31 then (h.alloc ((List.range n).map junk), some h.fresh) else (h, none)

/-- `kfree(p)`. -/
def kfree (h : Heap) : Option ℕ → Except Fault Heap
  | none => .ok h
  | some i =>
      match h.data? i with
      | some _ => .ok (h.release i)
      | none => .error .doubleFree

/-- `memcpy(dst, src, n)`. -/
def memcpy (h : Heap) (dst src : Option ℕ) (n : ℕ) : Except Fault Heap :=
  match load h src n with
  | .error f => .error f
  | .ok bytes => store h dst 0 bytes

/-- `copy_from_user(dst + off, buf, n)`, where `buf` is what is readable at the
user's address.  Returns the number of bytes not copied. -/
def copyFromUser (h : Heap) (dst : Option ℕ) (off : ℕ) (buf : List UInt8) (n : ℕ) :
    Except Fault (ℕ × Heap) :=
  if intMax < n then .ok (n, h)
  else
    match store h dst off (buf.take n ++ List.replicate (n - buf.length) 0) with
    | .error f => .error f
    | .ok h => .ok (n - buf.length, h)

/-- `copy_to_user(buf, src, n)`, where `avail` bytes are writable at the user's
address.  Returns the number of bytes not copied, and what was copied. -/
def copyToUser (h : Heap) (src : Option ℕ) (avail n : ℕ) : Except Fault (ℕ × List UInt8) :=
  if intMax < n then .ok (n, [])
  else
    match load h src (min n avail) with
    | .error f => .error f
    | .ok bytes => .ok (n - avail, bytes)

/-! ## What they do to a good pointer -/

section GoodPointer

variable {h : Heap} {i : ℕ} {d : List UInt8}

theorem deref_of_data? (hd : h.data? i = some d) : deref h (some i) = .ok (i, d) := by
  simp [deref, hd]

theorem bytesAt_of_data? (hd : h.data? i = some d) : bytesAt h (some i) = d := by
  simp [bytesAt, hd]

@[simp] theorem bytesAt_none (h : Heap) : bytesAt h none = [] := rfl

theorem load_of_data? (hd : h.data? i = some d) {n : ℕ} (hn : n ≤ d.length) :
    load h (some i) n = .ok (d.take n) := by
  unfold load
  split
  · next h0 => simp [h0]
  · rw [deref_of_data? hd]
    simp [hn]

theorem kfree_of_live (hi : h.Live i) : kfree h (some i) = .ok (h.release i) := by
  obtain ⟨d, hd⟩ := hi
  simp [kfree, hd]

/-- `kfree` succeeds exactly on `NULL` and on live blocks. -/
theorem kfree_releasePtr {p : Option ℕ} (hp : ∀ i, p = some i → h.Live i) :
    kfree h p = .ok (h.releasePtr p) := by
  cases p with
  | none => rfl
  | some i => exact kfree_of_live (hp i rfl)

/-- Writing into a block that was just allocated. -/
theorem store_fresh {off : ℕ} {bytes : List UInt8} (hle : off + bytes.length ≤ d.length) :
    store (h.alloc d) (some h.fresh) off bytes =
      .ok (h.alloc (d.take off ++ bytes ++ d.drop (off + bytes.length))) := by
  unfold store
  split
  · next h0 => simp [h0]
  · rw [deref_of_data? (h.data?_alloc_fresh d)]
    simp [hle]

/-- A write into a block that was just allocated succeeds only inside it. -/
theorem store_fresh_ok {off : ℕ} {bytes : List UInt8} {h' : Heap} (hoff : off ≤ d.length)
    (hs : store (h.alloc d) (some h.fresh) off bytes = .ok h') :
    off + bytes.length ≤ d.length ∧
      h' = h.alloc (d.take off ++ bytes ++ d.drop (off + bytes.length)) := by
  by_cases hle : off + bytes.length ≤ d.length
  · rw [store_fresh hle, Except.ok.injEq] at hs
    exact ⟨hle, hs.symm⟩
  · have hne : bytes ≠ [] := by
      rintro rfl
      exact hle (by simpa using hoff)
    rw [store, if_neg hne, deref_of_data? (h.data?_alloc_fresh d)] at hs
    simp [hle] at hs

/-- A write into a block that was just allocated fails only past its end. -/
theorem store_fresh_error {off : ℕ} {bytes : List UInt8} {f : Fault}
    (hs : store (h.alloc d) (some h.fresh) off bytes = .error f) :
    f = .outOfBounds ∧ d.length < off + bytes.length := by
  by_cases hle : off + bytes.length ≤ d.length
  · rw [store_fresh hle] at hs
    exact absurd hs (by simp)
  · by_cases hne : bytes = []
    · simp [store, hne] at hs
    · rw [store, if_neg hne, deref_of_data? (h.data?_alloc_fresh d)] at hs
      simp only [if_neg hle, Except.error.injEq] at hs
      exact ⟨hs.symm, by omega⟩

theorem store_null_error {off : ℕ} {bytes : List UInt8} {f : Fault}
    (hs : store h none off bytes = .error f) : f = .nullPointer := by
  by_cases hne : bytes = []
  · simp [store, hne] at hs
  · simp only [store, if_neg hne, deref, Except.error.injEq] at hs
    exact hs.symm

/-- Nothing is ever written through `NULL`. -/
theorem store_null_ok {off : ℕ} {bytes : List UInt8} {h' : Heap}
    (hs : store h none off bytes = .ok h') : bytes = [] ∧ h' = h := by
  by_cases hne : bytes = []
  · simp only [store, if_pos hne, Except.ok.injEq] at hs
    exact ⟨hne, hs.symm⟩
  · simp [store, hne, deref] at hs

/-- The two outcomes of `kmalloc`. -/
theorem kmalloc_cases (h : Heap) (alloc : Option (ℕ → UInt8)) (n : ℕ) :
    (kmalloc h alloc n = (h, none) ∧ (alloc = none ∨ 2 ^ 31 ≤ n)) ∨
      ∃ block, kmalloc h alloc n = (h.alloc block, some h.fresh) ∧ block.length = n ∧
        n < 2 ^ 31 ∧ alloc ≠ none := by
  cases alloc with
  | none => exact Or.inl ⟨rfl, Or.inl rfl⟩
  | some junk =>
    by_cases hn : n < 2 ^ 31
    · exact Or.inr ⟨_, by rw [kmalloc, if_pos hn], by simp, hn, by simp⟩
    · exact Or.inl ⟨by rw [kmalloc, if_neg hn], Or.inr (by omega)⟩

/-- `memcpy` from a good block is a write of its bytes. -/
theorem memcpy_of_data? (hd : h.data? i = some d) (dst : Option ℕ) :
    memcpy h dst (some i) d.length = store h dst 0 d := by
  rw [memcpy, load_of_data? hd le_rfl, List.take_length]

/-- What `copy_from_user` writes: the readable bytes, and zeros for the rest. -/
def padded (buf : List UInt8) (n : ℕ) : List UInt8 :=
  buf.take n ++ List.replicate (n - buf.length) 0

@[simp] theorem length_padded (buf : List UInt8) (n : ℕ) : (padded buf n).length = n := by
  simp only [padded, List.length_append, List.length_take, List.length_replicate]
  omega

theorem padded_of_le {buf : List UInt8} {n : ℕ} (h : n ≤ buf.length) :
    padded buf n = buf.take n := by
  simp [padded, Nat.sub_eq_zero_of_le h]

/-- `copy_from_user` either refuses the size, or writes `n` bytes. -/
theorem copyFromUser_ok {dst : Option ℕ} {off : ℕ} {buf : List UInt8} {n left : ℕ}
    {h h' : Heap} (hc : copyFromUser h dst off buf n = .ok (left, h')) :
    (2 ^ 31 ≤ n ∧ left = n ∧ h' = h) ∨
      (n < 2 ^ 31 ∧ left = n - buf.length ∧ store h dst off (padded buf n) = .ok h') := by
  have hmax : intMax < n ↔ 2 ^ 31 ≤ n := by simp only [intMax]; omega
  unfold copyFromUser at hc
  by_cases hn : intMax < n
  · rw [if_pos hn, Except.ok.injEq, Prod.mk.injEq] at hc
    exact Or.inl ⟨hmax.mp hn, hc.1.symm, hc.2.symm⟩
  · rw [if_neg hn] at hc
    refine Or.inr ⟨by omega, ?_⟩
    split at hc
    · exact absurd hc (by simp)
    · next h'' hs =>
      rw [Except.ok.injEq, Prod.mk.injEq] at hc
      obtain ⟨rfl, rfl⟩ := hc
      exact ⟨rfl, hs⟩

theorem copyFromUser_error {dst : Option ℕ} {off : ℕ} {buf : List UInt8} {n : ℕ} {h : Heap}
    {f : Fault} (hc : copyFromUser h dst off buf n = .error f) :
    store h dst off (padded buf n) = .error f := by
  unfold copyFromUser at hc
  split at hc
  · exact absurd hc (by simp)
  · split at hc
    · next f' hs =>
      rw [Except.error.injEq] at hc
      rw [← hc]
      exact hs
    · exact absurd hc (by simp)

/-- A copy into a block that was just allocated either is refused for its size, or
stays inside the block. -/
theorem copyFromUser_fresh_ok {off : ℕ} {buf : List UInt8} {n left : ℕ} {h' : Heap}
    (hoff : off ≤ d.length)
    (hc : copyFromUser (h.alloc d) (some h.fresh) off buf n = .ok (left, h')) :
    (2 ^ 31 ≤ n ∧ left = n ∧ h' = h.alloc d) ∨
      (n < 2 ^ 31 ∧ left = n - buf.length ∧ off + n ≤ d.length ∧
        h' = h.alloc (d.take off ++ padded buf n ++ d.drop (off + n))) := by
  rcases copyFromUser_ok hc with hbig | ⟨hsmall, hleft, hstore⟩
  · exact Or.inl hbig
  · obtain ⟨hle, hh⟩ := store_fresh_ok hoff hstore
    rw [length_padded] at hle hh
    exact Or.inr ⟨hsmall, hleft, hle, hh⟩

/-- And it goes wrong only past the block's end. -/
theorem copyFromUser_fresh_error {off : ℕ} {buf : List UInt8} {n : ℕ} {f : Fault}
    (hc : copyFromUser (h.alloc d) (some h.fresh) off buf n = .error f) :
    f = .outOfBounds ∧ d.length < off + n := by
  obtain ⟨hf, hshort⟩ := store_fresh_error (copyFromUser_error hc)
  rw [length_padded] at hshort
  exact ⟨hf, hshort⟩

end GoodPointer
end Aesd
