import Aesd.Driver.Position
import Aesd.Foundations.Simulation

/-!
# The device as a log

What the driver is for, with the memory taken out of it.  The device is the list of all
commands that were ever completed, the bytes of the one that is being written, and where
the reader is.  There are no blocks, nothing is allocated and nothing can fault, so the
machine always answers.

The reader is where the driver shows through.  It is a number of a slot, and a slot is
the last command sent to it; neither is a position in the list of commands.  Nor is
`full` a number of commands, once the reader has moved.  A log that looked better would
not be the one that this driver implements.

A request is a call without what the kernel's allocator does.
-/

namespace Aesd

open FixedWidth

/-- The device. -/
structure LogDevice where
  /-- Every command that was completed, the oldest first. -/
  commands : List (List UInt8)
  /-- The bytes of the command being written. -/
  pending : List UInt8
  /-- The slot to be read next. -/
  cursor : ℕ
  /-- The device counts as full. -/
  full : Bool
  /-- How many reads were served since the last one that was not. -/
  readCounter : ℤ
  deriving DecidableEq, Repr

namespace LogDevice

/-- The device to which nothing has been written. -/
def init : LogDevice := ⟨[], [], 0, false, 0⟩

/-- What a slot holds: the last command that was sent to it. -/
def slot (a : LogDevice) (j : ℕ) : List UInt8 := RingLog.lastSent 10 [] a.commands j

/-- The command to be read next. -/
def current (a : LogDevice) : List UInt8 := a.slot a.cursor

/-- What is stored: the last ten commands. -/
def stored (a : LogDevice) : List UInt8 := (a.commands.drop (a.commands.length - 10)).flatten

/-- A command is complete. -/
def append (a : LogDevice) (command : List UInt8) : LogDevice where
  commands := a.commands ++ [command]
  pending := []
  cursor := if a.full then (a.cursor + 1) % 10 else a.cursor
  full := a.full ||
    (a.commands.length % 10 + 1) % 10 == if a.full then (a.cursor + 1) % 10 else a.cursor
  readCounter := a.readCounter

/-- Open a file. -/
def openFile (a : LogDevice) : LogDevice := if a.full then a else { a with cursor := 0 }

/-- Write. -/
def write (a : LogDevice) (fPos : ℤ) (interrupted : Bool) (buf : List UInt8) (count : ℕ) :
    Reply × ℤ × LogDevice :=
  if interrupted then ({ retval := -eRestartsys }, fPos, a)
  else
    let data := a.pending ++ buf.take count
    if count ≤ buf.length ∧ data.length < 2 ^ 31 then
      if Committable data then
        ({ retval := count, commit := some data }, wrapS 64 (fPos + count), a.append data)
      else ({ retval := count }, wrapS 64 (fPos + count), { a with pending := data })
    else
      -- what could be copied stays, if it is the beginning of a command
      ({ retval := -eFault }, fPos,
        if a.pending = [] ∧ count < 2 ^ 31 then { a with pending := padded buf count } else a)

/-- Read. -/
def read (a : LogDevice) (fPos : ℤ) (interrupted : Bool) (avail count : ℕ) :
    Reply × ℤ × LogDevice :=
  if interrupted then ({ retval := -eRestartsys }, fPos, a)
  else if a.current.length = 0 then ({ retval := 0 }, fPos, a)
  else if a.readCounter = 10 then ({ retval := 0 }, fPos, { a with readCounter := 0 })
  else
    let last := decide (a.current.length < wrapU 64 (fPos + count))
    let n := if last then wrapU 64 (a.current.length - fPos) else count
    if n < 2 ^ 31 ∧ n ≤ avail then
      ({ retval := n, copied := a.current.take n },
        if last then 0 else wrapS 64 (fPos + n),
        { a with
          readCounter := a.readCounter + 1
          cursor := if last then (a.cursor + 1) % 10 else a.cursor })
    else
      ({ retval := -eFault
         copied := if n < 2 ^ 31 then a.current.take (min n avail) else [] }, fPos, a)

/-- Seek. -/
def seek (a : LogDevice) (fPos : ℤ) (interrupted : Bool) (offset : Int64) (whence : Int32) :
    ℤ × ℤ :=
  let target : Option ℤ :=
    if whence = 0 then some offset.toInt
    else if whence = 1 then some (wrapS 64 (fPos + offset.toInt))
    else if whence = 2 then some (wrapS 64 (a.cursor + offset.toInt))
    else none
  if interrupted then (-eRestartsys, fPos)
  else
    match target with
    | none => (-eInval, fPos)
    | some q => if q < 0 ∨ a.stored.length < q then (-eInval, fPos) else (q, q)

/-- Seek to a byte of a slot. -/
def seekSlot (a : LogDevice) (fPos : ℤ) (interrupted : Bool) (seekto : AesdSeekto) : ℤ × ℤ :=
  if interrupted then (-eRestartsys, fPos)
  else if seekto.writeCmd.toNat < 10 ∧
      seekto.writeCmdOffset.toNat < (a.slot seekto.writeCmd.toNat).length then
    (0, ((walk 10 a.slot 0 seekto.writeCmd.toNat).flatten.length +
      seekto.writeCmdOffset.toNat : ℕ))
  else (-eInval, fPos)

/-- The control call. -/
def control (a : LogDevice) (fPos : ℤ) (interrupted : Bool) (cmd : UInt32) (arg : List UInt8)
    (stack : Vector UInt8 8) : ℤ × ℤ :=
  if cmd = seektoRequest then
    match arg with
    | [] => (-eFault, fPos)
    | b :: _ => a.seekSlot fPos interrupted (seektoCopied stack b)
  else (-eNotty, fPos)

end LogDevice

/-! ## Requests -/

/-- A call, without what the allocator does. -/
inductive Request where
  | openFile (file : ℕ)
  | release (file : ℕ)
  | read (file : ℕ) (interrupted : Bool) (avail : ℕ) (count : UInt64)
  | write (file : ℕ) (interrupted : Bool) (buf : List UInt8) (count : UInt64)
  | seek (file : ℕ) (interrupted : Bool) (offset : Int64) (whence : Int32)
  | control (file : ℕ) (interrupted : Bool) (cmd : UInt32) (arg : List UInt8)
      (stack : Vector UInt8 8)
  deriving DecidableEq

/-- The request that a call makes. -/
def Call.request : Call → Request
  | .aesdOpen file => .openFile file
  | .aesdRelease file => .release file
  | .aesdRead file interrupted avail count => .read file interrupted avail count
  | .aesdWrite file interrupted _ buf count => .write file interrupted buf count
  | .aesdLlseek file interrupted offset whence => .seek file interrupted offset whence
  | .aesdIoctl file interrupted cmd arg stack => .control file interrupted cmd arg stack

/-- The device and the positions of the open files. -/
structure LogSys extends LogDevice where
  /-- The position of each open file. -/
  fPos : ℕ → Option ℤ

namespace LogSys

/-- The empty device, with no file open. -/
def init : LogSys := { LogDevice.init with fPos := fun _ => none }

/-- The state after an operation on one file. -/
def after (t : LogSys) (file : ℕ) (p : ℤ) (a : LogDevice) : LogSys :=
  { a with fPos := Function.update t.fPos file (some p) }

/-- An operation needs an open file. -/
def onFile (t : LogSys) (file : ℕ) (k : ℤ → Reply × LogSys) : Reply × LogSys :=
  match t.fPos file with
  | none => ({ retval := -eBadf }, t)
  | some p => k p

/-- Answer one request. -/
def step (t : LogSys) : Request → Reply × LogSys
  | .openFile file => ({ retval := 0 }, t.after file 0 t.toLogDevice.openFile)
  | .release file =>
      t.onFile file fun _ =>
        ({ retval := 0 }, { t with fPos := Function.update t.fPos file none })
  | .read file interrupted avail count =>
      t.onFile file fun p =>
        let r := t.toLogDevice.read p interrupted avail count.toNat
        (r.1, t.after file r.2.1 r.2.2)
  | .write file interrupted buf count =>
      t.onFile file fun p =>
        let r := t.toLogDevice.write p interrupted buf count.toNat
        (r.1, t.after file r.2.1 r.2.2)
  | .seek file interrupted offset whence =>
      t.onFile file fun p =>
        let r := t.toLogDevice.seek p interrupted offset whence
        ({ retval := r.1 }, t.after file r.2 t.toLogDevice)
  | .control file interrupted cmd arg stack =>
      t.onFile file fun p =>
        let r := t.toLogDevice.control p interrupted cmd arg stack
        ({ retval := r.1 }, t.after file r.2 t.toLogDevice)

end LogSys
end Aesd
