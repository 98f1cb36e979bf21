import Aesd.Driver.Contents
import Aesd.Driver.Ownership

/-!
# Loading and unloading

The module is entered in two tables of the kernel, that of the device numbers and that of
the devices which calls can reach, and it takes its blocks from the kernel's memory, which
is there before it is loaded and stays when it is gone.  A `Host` is the kernel as far as
the module has to do with it, and the module can be loaded and unloaded any number of
times.

Two things are to be seen.  The entries come in pairs on every path, a load that fails
half-way included (`tables_balanced`).  And the blocks of others are safe: a block that the
driver does not hold is not written, not freed and never taken hold of
(`Driver.Apart`).  That is also why what the driver loses is lost for good, and the partial
entry is always among it: `clean_aesd` goes through the ring only (`unload_leaves_iff`).
-/

namespace Aesd

/-! ## Blocks of others -/

/-- A block with these contents that the driver does not hold. -/
structure Driver.Apart (d : Driver) (q : ℕ) (data : List UInt8) : Prop where
  data : d.heap.data? q = some data
  held : ∀ i, d.ptrAt i ≠ some q

namespace Driver.Apart

variable {d d' : Driver} {q : ℕ} {data : List UInt8}

theorem quiet (h : d.Apart q data) (hq : Quiet d d') : d'.Apart q data :=
  ⟨by rw [hq.heap]; exact h.data, by rw [hq.ptrAt]; exact h.held⟩

theorem alloc (h : d.Apart q data) (block : List UInt8) :
    Driver.Apart { d with heap := d.heap.alloc block } q data :=
  ⟨BlockHeap.data?_alloc_of_some block h.data, h.held⟩

/-- The partial entry gets a new block, or none. -/
theorem entry (h : d.Apart q data) {e : AesdBufferEntry} (he : e.buffptr ≠ some q) :
    Driver.Apart { d with dev.entry := e } q data := by
  refine ⟨h.data, fun i => ?_⟩
  cases i with
  | none => exact he
  | some j => exact h.held (some j)

theorem filled (h : d.Apart q data) (bytes : List UInt8) : (d.filled bytes).Apart q data := by
  refine ⟨?_, fun i => ?_⟩
  · have hne : d.dev.entry.buffptr ≠ some q := h.held none
    rw [Driver.filled, BlockHeap.data?_releasePtr_of_ne _ hne]
    exact BlockHeap.data?_alloc_of_some _ h.data
  · have hfresh := (BlockHeap.lt_fresh_of_data? h.data).ne
    cases i with
    | none => simpa [Driver.filled] using hfresh.symm
    | some j => exact h.held (some j)

theorem cleared (h : d.Apart q data) : d.cleared.Apart q data := by
  refine ⟨?_, fun i => ?_⟩
  · have hne : d.dev.entry.buffptr ≠ some q := h.held none
    rw [Driver.cleared, BlockHeap.data?_releasePtr_of_ne _ hne]
    exact h.data
  · cases i with
    | none => simp [Driver.cleared]
    | some j => exact h.held (some j)

theorem handed (hin : d.dev.bufferP.inOffs < 10) (h : d.Apart q data) :
    d.handed.Apart q data := by
  refine ⟨?_, fun i => ?_⟩
  · have hne : (aesdCircularBufferAddEntry d.dev.bufferP d.dev.entry).1 ≠ some q := fun hp =>
      h.held _ (Driver.addEntry_result_eq hin hp)
    rw [Driver.handed, BlockHeap.data?_releasePtr_of_ne _ hne]
    exact h.data
  · rw [Driver.ptrAt_handed hin]
    cases i with
    | none => simp
    | some j =>
      rw [Function.update_of_ne (by simp)]
      by_cases hj : some j = some d.dev.bufferP.inOffs
      · rw [hj, Function.update_self]
        exact h.held none
      · rw [Function.update_of_ne hj]
        exact h.held (some j)

theorem write (hw : d.Wf) (h : d.Apart q data) {p p' : ℤ} {interrupted : Bool}
    {alloc : Option (ℕ → UInt8)} {buf : List UInt8} {count : ℕ} {r : Reply}
    (hout : WriteOutcome d p interrupted alloc buf count (.ok (r, p', d'))) :
    d'.Apart q data := by
  cases hout with
  | interrupted => exact h
  | faultOngoing _ _ _ hheap =>
    rcases hheap with rfl | ⟨block, rfl⟩
    · exact h
    · exact h.alloc block
  | faultNew =>
    refine (h.alloc _).entry ?_
    simpa using (BlockHeap.lt_fresh_of_data? h.data).ne'
  | refused => exact h.entry (by simp)
  | empty => exact h.cleared.handed hw.inOffs_lt
  | kept => exact h.filled _
  | committed => exact (h.filled _).handed hw.inOffs_lt

/-- **A call leaves the blocks of others alone.** -/
theorem step {s s' : Sys} {c : Call} {r : Reply} (hw : s.Wf) (h : s.Apart q data)
    (hs : s.step c = .ok (r, s')) : s'.Apart q data := by
  rcases Sys.step_cases hw hs with ⟨hq, -⟩ | ⟨_, _, _, _, _, _, _, -, -, hout, -⟩
  · exact h.quiet hq
  · exact h.write hw hout

end Driver.Apart

/-! ## `clean_aesd` -/

theorem kfree_ok {h h' : Heap} {p : Option ℕ} (hf : kfree h p = .ok h') :
    h' = h.releasePtr p := by
  cases p with
  | none =>
    rw [kfree, Except.ok.injEq] at hf
    exact hf.symm
  | some i =>
    rw [kfree] at hf
    split at hf
    · rw [Except.ok.injEq] at hf
      exact hf.symm
    · exact absurd hf (by simp)

/-- `clean_aesd` frees what the slots point to and nothing else. -/
theorem cleanAesdLoop_data? {es : List AesdBufferEntry} {h h' : Heap}
    (hc : cleanAesdLoop h es = .ok h') (q : ℕ) :
    h'.data? q = if some q ∈ es.map (·.buffptr) then none else h.data? q := by
  induction es generalizing h with
  | nil =>
    rw [cleanAesdLoop, Except.ok.injEq] at hc
    rw [if_neg (by simp), hc]
  | cons e es ih =>
    rw [cleanAesdLoop] at hc
    split at hc
    · exact absurd hc (by simp)
    · next h₁ hfree =>
      rw [ih hc, kfree_ok hfree]
      by_cases hhead : e.buffptr = some q
      · rw [hhead, BlockHeap.releasePtr_some, BlockHeap.data?_release_self, ite_self, if_pos]
        simp [hhead]
      · rw [BlockHeap.data?_releasePtr_of_ne _ hhead]
        simp [Ne.symm hhead]

/-- **After unloading, the blocks of the slots are free and everything else is as it was.** -/
theorem cleanAesd_data? {d : Driver} {heap : Heap} (hc : cleanAesd d = .ok heap) (q : ℕ) :
    ((∃ j, d.ptrAt (some j) = some q) ∧ heap.data? q = none) ∨
      ((∀ j, d.ptrAt (some j) ≠ some q) ∧ heap.data? q = d.heap.data? q) := by
  have hmem : some q ∈ d.dev.bufferP.slots.map (·.buffptr) ↔ ∃ j, d.ptrAt (some j) = some q := by
    rw [AesdCircularBuffer.slots_eq, List.map_map, List.mem_map]
    refine ⟨fun ⟨j, _, hj⟩ => ⟨j, hj⟩, fun ⟨j, hj⟩ => ⟨j, List.mem_range.mpr ?_, hj⟩⟩
    by_contra hge
    rw [Driver.ptrAt_some, AesdCircularBuffer.slot_of_ge _ (by omega)] at hj
    exact absurd hj (by simp [AesdBufferEntry.zero])
  have hdata := cleanAesdLoop_data? hc q
  by_cases hheld : ∃ j, d.ptrAt (some j) = some q
  · rw [if_pos (hmem.mpr hheld)] at hdata
    exact Or.inl ⟨hheld, hdata⟩
  · rw [if_neg (mt hmem.mp hheld)] at hdata
    exact Or.inr ⟨not_exists.mp hheld, hdata⟩

theorem Kept.of_run {hist : List (Call × Reply)} {s : Sys}
    (h : Run Sys.step
      (OnWrites fun d a b n => AllOk d a b n ∧ FillsFromStart d (b.take n)) Sys.init hist s) :
    Kept s.toDriver := by
  refine h.invariant (P := fun _ s => Kept s.toDriver) init_kept ?_
  intro hist s c r s' hrun hk hok hs
  have hw := Sys.wf_of_run hrun
  rcases Sys.step_done hw (fun _ _ _ _ hP => hP.1.done) hok hs with
    ⟨hq, -⟩ | ⟨_, _, buf, count, -, ⟨-, hfill⟩, hlen, -, -, hd⟩
  · exact hk.quiet hw hq
  · rw [hd, Driver.wrote]
    split
    · next hc => exact (hk.filled _).handed (hw.filled hlen) (hfill hc)
    · exact hk.filled _

/-- **What unloading leaves behind.**  In every run of the loaded driver whose allocations
and copies succeed and in which the ring fills from its start, `clean_aesd` frees every
block that the driver has, except that of the partial entry. -/
theorem unload_leaves_iff {hist : List (Call × Reply)} {s : Sys}
    (h : Run Sys.step
      (OnWrites fun d a b n => AllOk d a b n ∧ FillsFromStart d (b.take n)) Sys.init hist s) :
    ∃ heap, cleanAesd s.toDriver = .ok heap ∧
      ∀ p, heap.Live p ↔ s.dev.entry.buffptr = some p := by
  have hw := Sys.wf_of_run h
  obtain ⟨heap, hc⟩ := cleanAesd_ok hw
  refine ⟨heap, hc, fun p => ⟨fun ⟨data, hd⟩ => ?_, fun hp => ?_⟩⟩
  · rcases cleanAesd_data? hc p with ⟨-, hnone⟩ | ⟨hslots, hsame⟩
    · exact absurd hd (by simp [hnone])
    · obtain ⟨i, hi⟩ := (Kept.of_run h).covered p ⟨data, hsame ▸ hd⟩
      cases i with
      | none => exact hi
      | some j => exact absurd hi (hslots j)
  · obtain ⟨data, hd⟩ := hw.owned.live none p hp
    rcases cleanAesd_data? hc p with ⟨⟨j, hj⟩, -⟩ | ⟨-, hsame⟩
    · exact absurd (hw.owned.inj none (some j) p hp hj) (by simp)
    · exact ⟨data, by rw [hsame, hd]⟩

/-- One line and the beginning of another. -/
theorem unload_leaves_partial_line :
    ∃ hist s heap, Run Sys.step
        (OnWrites fun d a b n => AllOk d a b n ∧ FillsFromStart d (b.take n)) Sys.init hist s ∧
      cleanAesd s.toDriver = .ok heap ∧ ∀ p, heap.Live p ↔ p = 1 := by
  obtain ⟨hist, s, hrun, hentry⟩ := exists_run_of_replay Sys.step
    (OnWrites fun d a b n => AllOk d a b n ∧ FillsFromStart d (b.take n)) Sys.init
    [.aesdOpen 0, writeLine [97, 10], writeLine [98]]
    (fun _ s => s.dev.entry.buffptr = some 1) (by decide +kernel)
  obtain ⟨heap, hc, hlive⟩ := unload_leaves_iff hrun
  refine ⟨hist, s, heap, hrun, hc, fun p => ?_⟩
  rw [hlive, hentry, Option.some.injEq, eq_comm]

/-! ## The host -/

/-- The module while it is loaded. -/
structure Loaded where
  /-- `aesd_major`. -/
  aesdMajor : ℕ
  /-- `aesd_device`. -/
  aesdDevice : AesdDev
  /-- `f_pos` of each open file. -/
  fPos : ℕ → Option ℤ

/-- The kernel as far as the module has to do with it. -/
structure Host where
  /-- Its memory. -/
  heap : Heap
  /-- The major numbers in use. -/
  regions : List ℕ
  /-- The major numbers whose device can be reached. -/
  cdevs : List ℕ
  /-- The module. -/
  module? : Option Loaded

/-- What is done to the module. -/
inductive HostCall where
  /-- Load it.  `region` is what `alloc_chrdev_region` returns, an error or a major number,
  and `added` what `cdev_add` returns. -/
  | insmod (region : Except ℤ ℕ) (added : ℤ)
  /-- Call one of its file operations. -/
  | call (c : Call)
  /-- Unload it. -/
  | rmmod

/-- `ENXIO`. -/
abbrev eNxio : ℤ := 6
/-- `EEXIST`. -/
abbrev eExist : ℤ := 17

namespace Host

/-- `aesd_setup_cdev`. -/
def aesdSetupCdev (k : Host) (major : ℕ) (added : ℤ) : ℤ × Host :=
  (added, if added = 0 then { k with cdevs := major :: k.cdevs } else k)

/-- `aesd_init_module`. -/
def aesdInitModule (k : Host) (region : Except ℤ ℕ) (added : ℤ) : ℤ × Host :=
  match region with
  | .error result => (result, k)
  | .ok major =>
      let (result, k) := { k with regions := major :: k.regions }.aesdSetupCdev major added
      if result ≠ 0 then (result, { k with regions := k.regions.erase major })
      else
        (result, { k with module? := some ⟨major, Aesd.aesdInitModule.dev, fun _ => none⟩ })

/-- `aesd_cleanup_module`. -/
def aesdCleanupModule (k : Host) (m : Loaded) : Except Fault Host :=
  let cdevs := k.cdevs.erase m.aesdMajor
  match cleanAesd ⟨k.heap, m.aesdDevice⟩ with
  | .error f => .error f
  | .ok heap =>
      .ok { heap, cdevs, regions := k.regions.erase m.aesdMajor, module? := none }

/-- The loaded driver, in the kernel's memory. -/
def sys (k : Host) (m : Loaded) : Sys := ⟨⟨k.heap, m.aesdDevice⟩, m.fPos⟩

/-- The module after a call. -/
def withSys (k : Host) (m : Loaded) (s : Sys) : Host :=
  { k with heap := s.heap, module? := some { m with aesdDevice := s.dev, fPos := s.fPos } }

/-- The kernel does one thing to the module.  It does not unload it while a file is open;
nothing here depends on that. -/
def step (k : Host) : HostCall → Except Fault (ℤ × Host)
  | .insmod region added =>
      match k.module? with
      | some _ => .ok (-eExist, k)
      | none => .ok (k.aesdInitModule region added)
  | .call c =>
      match k.module? with
      | none => .ok (-eNxio, k)
      | some m => ((k.sys m).step c).map fun q => (q.1.retval, k.withSys m q.2)
  | .rmmod =>
      match k.module? with
      | none => .ok (-eNxio, k)
      | some m => (k.aesdCleanupModule m).map fun k' => (0, k')

/-! ## Runs of the host -/

/-- What holds of a kernel that was `k₀` before the module was first loaded. -/
structure Sound (k₀ k : Host) : Prop where
  unloaded : k.module? = none → k.regions = k₀.regions ∧ k.cdevs = k₀.cdevs
  loaded : ∀ m, k.module? = some m →
    k.regions = m.aesdMajor :: k₀.regions ∧ k.cdevs = m.aesdMajor :: k₀.cdevs
  wf : ∀ m, k.module? = some m → (k.sys m).Wf
  others : ∀ q data, k₀.heap.data? q = some data →
    k.heap.data? q = some data ∧ ∀ m, k.module? = some m → ∀ i, (k.sys m).ptrAt i ≠ some q

/-- A device that was just initialised has no pointers. -/
theorem ptrAt_init (heap : Heap) (i : Option ℕ) :
    Driver.ptrAt ⟨heap, Aesd.aesdInitModule.dev⟩ i = none :=
  Sys.init_ptrAt i

theorem wf_init (heap : Heap) : Driver.Wf ⟨heap, Aesd.aesdInitModule.dev⟩ where
  owned := by
    refine ⟨fun i p hp => ?_, fun i j p hp => ?_⟩
    · exact absurd (ptrAt_init heap i) (by rw [hp]; simp)
    · exact absurd (ptrAt_init heap i) (by rw [hp]; simp)
  sized i p hp := absurd (ptrAt_init heap i) (by rw [hp]; simp)
  bounded i p hp := absurd (ptrAt_init heap i) (by rw [hp]; simp)
  null := Sys.init_wf.null
  inOffs_lt := Sys.init_wf.inOffs_lt
  outOffs_lt := Sys.init_wf.outOffs_lt
  counter_nonneg := Sys.init_wf.counter_nonneg
  counter_le := Sys.init_wf.counter_le

variable {k₀ k k' : Host} {result : ℤ}

theorem Sound.init (hnone : k₀.module? = none) : Sound k₀ k₀ where
  unloaded _ := ⟨rfl, rfl⟩
  loaded m hm := absurd hm (by simp [hnone])
  wf m hm := absurd hm (by simp [hnone])
  others q data hd := ⟨hd, fun m hm => absurd hm (by simp [hnone])⟩

/-- **Loading**: whatever fails, the tables are as they were or have one entry more each. -/
theorem Sound.insmod (h : Sound k₀ k) (hnone : k.module? = none) (region : Except ℤ ℕ)
    (added : ℤ) : Sound k₀ (k.aesdInitModule region added).2 := by
  obtain ⟨hregions, hcdevs⟩ := h.unloaded hnone
  cases region with
  | error e => exact h
  | ok major =>
    by_cases hadd : added = 0
    · subst hadd
      refine ⟨fun hm => absurd hm (by simp [aesdInitModule, aesdSetupCdev]), fun m hm => ?_,
        fun m hm => ?_, fun q data hd => ⟨(h.others q data hd).1, fun m hm i => ?_⟩⟩
      all_goals
        simp only [aesdInitModule, aesdSetupCdev, ne_eq, not_true_eq_false, if_true, if_false,
          Option.some.injEq] at hm
        subst hm
      · simp [aesdInitModule, aesdSetupCdev, hregions, hcdevs]
      · exact wf_init k.heap
      · intro hp
        exact absurd (hp.symm.trans (ptrAt_init k.heap i)) (by simp)
    · have hsame : (k.aesdInitModule (.ok major) added).2 = k := by
        simp [aesdInitModule, aesdSetupCdev, hadd]
      rw [hsame]
      exact h

/-- **A call** moves nothing in the tables. -/
theorem Sound.call (h : Sound k₀ k) {m : Loaded} (hm : k.module? = some m) {c : Call}
    {r : Reply} {s : Sys} (hs : (k.sys m).step c = .ok (r, s)) :
    Sound k₀ (k.withSys m s) where
  unloaded hnone := absurd hnone (by simp [withSys])
  loaded m' hm' := by
    obtain rfl := Option.some.inj hm'
    exact h.loaded m hm
  wf m' hm' := by
    obtain rfl := Option.some.inj hm'
    exact Sys.step_wf (h.wf m hm) hs
  others q data hd := by
    obtain ⟨hlive, hheld⟩ := h.others q data hd
    have hapart := Driver.Apart.step (h.wf m hm) ⟨hlive, hheld m hm⟩ hs
    refine ⟨hapart.data, fun m' hm' => ?_⟩
    obtain rfl := Option.some.inj hm'
    exact hapart.held

/-- **Unloading** ends, and takes the entries out again. -/
theorem Sound.rmmod (h : Sound k₀ k) {m : Loaded} (hm : k.module? = some m) :
    ∃ k', k.aesdCleanupModule m = .ok k' ∧ k'.module? = none ∧ Sound k₀ k' := by
  obtain ⟨hregions, hcdevs⟩ := h.loaded m hm
  obtain ⟨heap, hc⟩ := cleanAesd_ok (h.wf m hm)
  have hc' : cleanAesd ⟨k.heap, m.aesdDevice⟩ = .ok heap := hc
  refine ⟨_, by rw [aesdCleanupModule, hc'], rfl, ?_⟩
  refine ⟨fun _ => by simp [hregions, hcdevs], fun m' hm' => absurd hm' (by simp),
    fun m' hm' => absurd hm' (by simp), fun q data hd => ⟨?_, fun m' hm' => absurd hm' (by simp)⟩⟩
  obtain ⟨hlive, hheld⟩ := h.others q data hd
  rcases cleanAesd_data? hc q with ⟨⟨j, hj⟩, -⟩ | ⟨-, hsame⟩
  · exact absurd hj (hheld m hm (some j))
  · exact hsame.trans hlive

theorem Sound.step (h : Sound k₀ k) {c : HostCall} (hs : k.step c = .ok (result, k')) :
    Sound k₀ k' := by
  cases hm : k.module? with
  | none =>
    cases c with
    | insmod region added =>
      simp only [Host.step, hm, Except.ok.injEq] at hs
      have hk : k' = (k.aesdInitModule region added).2 := by rw [hs]
      rw [hk]
      exact h.insmod hm region added
    | _ =>
      simp only [Host.step, hm, Except.ok.injEq, Prod.mk.injEq] at hs
      exact hs.2 ▸ h
  | some m =>
    cases c with
    | insmod region added =>
      simp only [Host.step, hm, Except.ok.injEq, Prod.mk.injEq] at hs
      exact hs.2 ▸ h
    | call c =>
      simp only [Host.step, hm] at hs
      cases hcall : (k.sys m).step c with
      | error f => exact absurd hs (by simp [hcall, Except.map])
      | ok q =>
        simp only [hcall, Except.map, Except.ok.injEq, Prod.mk.injEq] at hs
        exact hs.2 ▸ h.call hm hcall
    | rmmod =>
      obtain ⟨k₁, hclean, -, hsound⟩ := h.rmmod hm
      simp only [Host.step, hm, hclean, Except.map, Except.ok.injEq, Prod.mk.injEq] at hs
      exact hs.2 ▸ hsound

/-- **The tables are balanced and the blocks of others are safe.**  The module is loaded,
called and unloaded any number of times, and any of it may fail.  While it is not loaded
the tables of the kernel are what they were before it ever was; while it is, each has the
module's entry more.  What was in the kernel's memory is untouched.  And it can always be
unloaded. -/
theorem tables_balanced {ok : Host → HostCall → Prop} {hist : List (HostCall × ℤ)}
    (hnone : k₀.module? = none) (h : Run step ok k₀ hist k) :
    (k.module? = none → k.regions = k₀.regions ∧ k.cdevs = k₀.cdevs) ∧
      (∀ m, k.module? = some m →
        k.regions = m.aesdMajor :: k₀.regions ∧ k.cdevs = m.aesdMajor :: k₀.cdevs) ∧
      (∀ q data, k₀.heap.data? q = some data → k.heap.data? q = some data) ∧
      ∃ result k', k.step .rmmod = .ok (result, k') ∧ k'.module? = none := by
  have hsound : Sound k₀ k := by
    refine h.invariant (P := fun _ k => Sound k₀ k) (Sound.init hnone) ?_
    intro _ k c r k' _ hsound _ hs
    exact hsound.step hs
  refine ⟨hsound.unloaded, hsound.loaded, fun q data hd => (hsound.others q data hd).1, ?_⟩
  cases hm : k.module? with
  | none => exact ⟨-eNxio, k, by simp only [step, hm], hm⟩
  | some m =>
    obtain ⟨k', hclean, hnone', -⟩ := hsound.rmmod hm
    exact ⟨0, k', by simp only [step, hm, hclean, Except.map], hnone'⟩

/-- A load that fails, one that does not, a line, an unload, and a load again. -/
theorem tables_balanced_twice :
    ∃ hist k, Run step (fun _ _ => True) ⟨⟨[.live [5]]⟩, [1], [1], none⟩ hist k ∧
      hist.length = 7 ∧ k.regions = [8, 1] ∧ k.heap.data? 0 = some [5] := by
  obtain ⟨hist, k, hrun, hlen, hmod⟩ := exists_run_of_replay step (fun _ _ => True)
    ⟨⟨[.live [5]]⟩, [1], [1], none⟩
    [.insmod (.error (-16)) 0, .insmod (.ok 7) (-12), .insmod (.ok 7) 0, .call (.aesdOpen 0),
      .call (writeLine [97, 10]), .rmmod, .insmod (.ok 8) 0]
    (fun hist k => hist.length = 7 ∧ k.module?.map (·.aesdMajor) = some 8) (by decide +kernel)
  obtain ⟨m, hm, hmajor⟩ := Option.map_eq_some_iff.mp hmod
  obtain ⟨-, hloaded, hothers, -⟩ := tables_balanced rfl hrun
  exact ⟨hist, k, hrun, hlen, by rw [(hloaded m hm).1, hmajor], hothers 0 [5] rfl⟩

end Host
end Aesd
