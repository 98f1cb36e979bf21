import Aesd.CircularBuffer.Model
import Aesd.Driver.Kernel
import Aesd.Foundations.FixedWidth

/-!
# The driver of `main.c`

The file operations of the character device, each as a function of the driver
state and the position of the file it is called on.  A function returns what the
system call returns, the new position and the new state, or the `Fault` it ran
into.

`size_t` and `loff_t` arithmetic is done in the integers and converted where the
source stores a result, with the width and signedness of the variable it is stored
in.  `mutex_lock_interruptible` may be interrupted; that outcome is an argument.

Two functions read part of the device before they take the lock, `aesd_read` the
size of the current entry and `aesd_llseek` the total size.  The part under the
lock is a function of its own that takes what was read before.

Left out: debug prints, `dev->size` (nothing reads it), and the registration of
the device.
-/

namespace Aesd

open FixedWidth

/-- `struct aesd_dev`. -/
structure AesdDev where
  /-- Buffer for partial data. -/
  entry : AesdBufferEntry
  /-- Data buffer. -/
  bufferP : AesdCircularBuffer
  /-- End condition for read loop. -/
  readCounter : ℤ
  deriving DecidableEq, Repr

/-- The device and the memory it points into. -/
structure Driver where
  /-- Kernel memory. -/
  heap : Heap
  /-- `aesd_device`. -/
  dev : AesdDev
  deriving DecidableEq, Repr

/-- What a system call does besides changing the state. -/
structure Reply where
  /-- The value returned. -/
  retval : ℤ
  /-- The bytes copied to the caller. -/
  copied : List UInt8 := []
  /-- The bytes of the entry handed to `aesd_circular_buffer_add_entry`, if the
  call handed one over. -/
  commit : Option (List UInt8) := none
  deriving DecidableEq, Repr

/-- The device as `aesd_init_module` leaves it. -/
def aesdInitModule : Driver where
  heap := ⟨[]⟩
  dev :=
    { entry := .zero
      bufferP := aesdCircularBufferInit
      readCounter := 0 }

/-! ## `aesd_open` and `aesd_read` -/

/-- `aesd_open`. -/
def aesdOpen (d : Driver) : Driver :=
  if d.dev.bufferP.full then d
  else { d with dev.bufferP.outOffs := 0 }

/-- `dev->bufferP.entry[dev->bufferP.out_offs]`. -/
def Driver.current (d : Driver) : AesdBufferEntry := d.dev.bufferP.slot d.dev.bufferP.outOffs

/-- The part of `aesd_read` under the lock, with the `entrySize` read before. -/
def aesdReadLocked (d : Driver) (entrySize : ℕ) (fPos : ℤ) (avail count : ℕ) :
    Except Fault (Reply × ℤ × Driver) :=
  if entrySize = 0 then .ok ({ retval := 0 }, fPos, d)
  else if d.dev.readCounter = 10 then
    .ok ({ retval := 0 }, fPos, { d with dev.readCounter := 0 })
  else
    let lastNonZeroReadCurrentEntry := decide (entrySize < wrapU 64 (fPos + count))
    let count := if lastNonZeroReadCurrentEntry then wrapU 64 (entrySize - fPos) else count
    match copyToUser d.heap d.current.buffptr avail count with
    | .error f => .error f
    | .ok (left, bytes) =>
        if left ≠ 0 then .ok ({ retval := -eFault, copied := bytes }, fPos, d)
        else if lastNonZeroReadCurrentEntry then
          -- next call, read next buffer entry
          .ok ({ retval := wrapS 64 count, copied := bytes }, 0,
            { d with
              dev.readCounter := d.dev.readCounter + 1
              dev.bufferP.outOffs :=
                (d.dev.bufferP.outOffs + 1) % maxWriteOperationsSupported })
        else
          .ok ({ retval := wrapS 64 count, copied := bytes }, wrapS 64 (fPos + count),
            { d with dev.readCounter := d.dev.readCounter + 1 })

/-- `aesd_read`. -/
def aesdRead (d : Driver) (fPos : ℤ) (interrupted : Bool) (avail count : ℕ) :
    Except Fault (Reply × ℤ × Driver) :=
  let entrySize := d.current.size
  if interrupted then .ok ({ retval := -eRestartsys }, fPos, d)
  else aesdReadLocked d entrySize fPos avail count

/-! ## `aesd_write` -/

/-- `'\n'`. -/
abbrev eol : UInt8 := 10

/-- The loop of `checkEOLChar`, from index `i` on. -/
def checkEOLCharLoop (size : ℤ) : List UInt8 → ℤ → Except Fault ℤ
  | [], i => if i < size then .error .outOfBounds else .ok (-1)
  | b :: bs, i =>
      if i < size then
        if b = eol then .ok i else checkEOLCharLoop size bs (i + 1)
      else .ok (-1)

/-- `checkEOLChar`: the position of the first EOL char in the array. -/
def checkEOLChar (h : Heap) (buff : Option ℕ) (size : ℤ) : Except Fault ℤ :=
  if 0 < size then
    match deref h buff with
    | .error f => .error f
    | .ok (_, d) => checkEOLCharLoop size d 0
  else .ok (-1)

/-- `write_entry_into_buffer`: whether an entry was handed to the circular buffer,
and the state it leaves. -/
def writeEntryIntoBuffer (d : Driver) : Except Fault (Option (List UInt8) × Driver) :=
  match checkEOLChar d.heap d.dev.entry.buffptr (wrapS 32 d.dev.entry.size) with
  | .error f => .error f
  | .ok eolPos =>
      -- `int` against `size_t`: both sides are converted to `size_t`
      if wrapU 64 eolPos = wrapU 64 (d.dev.entry.size - 1) then
        let added := aesdCircularBufferAddEntry d.dev.bufferP d.dev.entry
        match kfree d.heap added.1 with
        | .error f => .error f
        | .ok heap =>
            .ok (some (bytesAt d.heap d.dev.entry.buffptr),
              { heap
                dev := { d.dev with bufferP := added.2, entry := ⟨none, 0⟩ } })
      else .ok (none, d)

/-- `aesd_write` from where the user's data is in the partial entry. -/
def aesdWriteFinish (d : Driver) (fPos : ℤ) (count : ℕ) : Except Fault (Reply × ℤ × Driver) :=
  match writeEntryIntoBuffer d with
  | .error f => .error f
  | .ok (commit, d) =>
      .ok ({ retval := wrapS 64 count, commit }, wrapS 64 (fPos + count), d)

/-- `aesd_write` with a partial write ongoing: the accumulated entry is built in a
new block, and replaces the old one. -/
def aesdWriteOngoing (d : Driver) (fPos : ℤ) (alloc : Option (ℕ → UInt8))
    (buf : List UInt8) (count : ℕ) : Except Fault (Reply × ℤ × Driver) :=
  let newSize := wrapS 32 (wrapU 64 (count + d.dev.entry.size))
  let (heap, newString) := kmalloc d.heap alloc (wrapU 64 newSize)
  match memcpy heap newString d.dev.entry.buffptr d.dev.entry.size with
  | .error f => .error f
  | .ok heap =>
      match copyFromUser heap newString d.dev.entry.size buf count with
      | .error f => .error f
      | .ok (left, heap) =>
          if left ≠ 0 then .ok ({ retval := -eFault }, fPos, { d with heap })
          else
            match kfree heap d.dev.entry.buffptr with
            | .error f => .error f
            | .ok heap =>
                aesdWriteFinish
                  { heap, dev := { d.dev with entry := ⟨newString, wrapU 64 newSize⟩ } }
                  fPos count

/-- `aesd_write` starting a new write session: the entry is allocated in place. -/
def aesdWriteNew (d : Driver) (fPos : ℤ) (alloc : Option (ℕ → UInt8))
    (buf : List UInt8) (count : ℕ) : Except Fault (Reply × ℤ × Driver) :=
  let (heap, buffptr) := kmalloc d.heap alloc count
  let dev := { d.dev with entry := ⟨buffptr, count⟩ }
  match copyFromUser heap dev.entry.buffptr 0 buf dev.entry.size with
  | .error f => .error f
  | .ok (left, heap) =>
      if left ≠ 0 then .ok ({ retval := -eFault }, fPos, { heap, dev })
      else aesdWriteFinish { heap, dev } fPos count

/-- `aesd_write`. -/
def aesdWrite (d : Driver) (fPos : ℤ) (interrupted : Bool) (alloc : Option (ℕ → UInt8))
    (buf : List UInt8) (count : ℕ) : Except Fault (Reply × ℤ × Driver) :=
  if interrupted then .ok ({ retval := -eRestartsys }, fPos, d)
  else
    match d.dev.entry.buffptr with
    | some _ => aesdWriteOngoing d fPos alloc buf count
    | none => aesdWriteNew d fPos alloc buf count

/-! ## `aesd_llseek` and `aesd_ioctl` -/

/-- The total of the stored sizes, as `aesd_llseek` sums it up. -/
def totalSize (d : Driver) : ℤ :=
  d.dev.bufferP.slots.foldl (fun total e => wrapS 64 (total + e.size)) 0

/-- The part of `aesd_llseek` under the lock, with the `total_size` summed up
before.  Returns the return value and the new position. -/
def aesdLlseekLocked (d : Driver) (total : ℤ) (fPos : ℤ) (offset : Int64) (whence : Int32) :
    ℤ × ℤ :=
  let newpos : Option ℤ :=
    -- `SEEK_SET`, `SEEK_CUR`, `SEEK_END`
    if whence = 0 then some offset.toInt
    else if whence = 1 then some (wrapS 64 (fPos + offset.toInt))
    else if whence = 2 then some (wrapS 64 (d.dev.bufferP.outOffs + offset.toInt))
    else none
  match newpos with
  | none => (-eInval, fPos)
  | some newpos => if newpos < 0 ∨ total < newpos then (-eInval, fPos) else (newpos, newpos)

/-- `aesd_llseek`. -/
def aesdLlseek (d : Driver) (fPos : ℤ) (interrupted : Bool) (offset : Int64)
    (whence : Int32) : ℤ × ℤ :=
  let total := totalSize d
  if interrupted then (-eRestartsys, fPos) else aesdLlseekLocked d total fPos offset whence

/-- The traversal of `aesd_adjust_file_offset`, from slot `i` on.  Returns the
return value and the new position. -/
def adjustLoop (writeCmd writeCmdOffset : ℕ) (fPos : ℤ) :
    List AesdBufferEntry → ℕ → ℕ → ℤ × ℤ
  | [], _, _ => (0, fPos)
  | e :: es, i, total =>
      if i = writeCmd then
        if e.size ≤ writeCmdOffset then (-eInval, fPos)
        else (0, wrapS 64 (wrapU 64 (total + writeCmdOffset)))
      else adjustLoop writeCmd writeCmdOffset fPos es (i + 1) (wrapU 64 (total + e.size))

/-- `aesd_adjust_file_offset`. -/
def aesdAdjustFileOffset (d : Driver) (fPos : ℤ) (interrupted : Bool)
    (writeCmd writeCmdOffset : UInt32) : ℤ × ℤ :=
  if interrupted then (-eRestartsys, fPos)
  else if maxWriteOperationsSupported ≤ writeCmd.toNat then (-eInval, fPos)
  else adjustLoop writeCmd.toNat writeCmdOffset.toNat fPos d.dev.bufferP.slots 0 0

/-- `struct aesd_seekto`. -/
structure AesdSeekto where
  /-- The zero referenced write command to seek into. -/
  writeCmd : UInt32
  /-- The zero referenced offset within the write. -/
  writeCmdOffset : UInt32
  deriving DecidableEq, Repr

/-- A little-endian 32-bit word. -/
def word32 (b₀ b₁ b₂ b₃ : UInt8) : UInt32 :=
  .ofNat (b₀.toNat + 2 ^ 8 * b₁.toNat + 2 ^ 16 * b₂.toNat + 2 ^ 24 * b₃.toNat)

/-- The structure in eight bytes of memory. -/
def AesdSeekto.ofBytes (m : Vector UInt8 8) : AesdSeekto :=
  ⟨word32 m[0] m[1] m[2] m[3], word32 m[4] m[5] m[6] m[7]⟩

/-- `AESD_IOC_MAGIC`. -/
abbrev aesdIocMagic : ℕ := 0x16
/-- `AESDCHAR_IOC_MAXNR`. -/
abbrev aesdcharIocMaxnr : ℕ := 1
/-- `AESDCHAR_IOCSEEKTO`, that is `_IOWR(AESD_IOC_MAGIC, 1, struct aesd_seekto)`. -/
abbrev aesdcharIocseekto : ℕ := 3 * 2 ^ 30 + 8 * 2 ^ 16 + aesdIocMagic * 2 ^ 8 + 1

/-- `aesd_ioctl`, where `arg` is what is readable at the user's address and `stack`
what the local variable `seekto` holds before anything was copied into it. -/
def aesdIoctl (d : Driver) (fPos : ℤ) (interrupted : Bool) (cmd : UInt32)
    (arg : List UInt8) (stack : Vector UInt8 8) : ℤ × ℤ :=
  -- `_IOC_TYPE(cmd)` and `_IOC_NR(cmd)`
  if cmd.toNat / 2 ^ 8 % 2 ^ 8 ≠ aesdIocMagic then (-eNotty, fPos)
  else if aesdcharIocMaxnr < cmd.toNat % 2 ^ 8 then (-eNotty, fPos)
  else if cmd.toNat = aesdcharIocseekto then
    -- the length passed is `sizeof(seekto) != 0`, which is one
    match arg with
    | [] => (-eFault, fPos)
    | b :: _ =>
        let seekto := AesdSeekto.ofBytes (stack.set 0 b)
        aesdAdjustFileOffset d fPos interrupted seekto.writeCmd seekto.writeCmdOffset
  else (-eNotty, fPos)

/-! ## `clean_aesd` -/

/-- The traversal of `clean_aesd`. -/
def cleanAesdLoop (h : Heap) : List AesdBufferEntry → Except Fault Heap
  | [] => .ok h
  | e :: es =>
      match kfree h e.buffptr with
      | .error f => .error f
      | .ok h => cleanAesdLoop h es

/-- `clean_aesd`. -/
def cleanAesd (d : Driver) : Except Fault Heap := cleanAesdLoop d.heap d.dev.bufferP.slots

end Aesd
