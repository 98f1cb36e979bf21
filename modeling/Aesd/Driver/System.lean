import Aesd.Driver.Model
import Aesd.Foundations.Run

/-!
# The driver as a system taking calls

The device is one, the open files are many: each has a position of its own, and
all of them work on the same device.  A system state is the driver with the
position of every open file, and a `Call` is one file operation with everything it
does not find in the state: which file, the arguments, and how the kernel's part
of it turns out.

Files have names only so that calls can refer to them; opening one gives a fresh
position, whatever the name stood for before.  A call on a file that is not open
does not get past the system call layer.
-/

namespace Aesd

/-- The driver and the positions of the open files. -/
structure Sys extends Driver where
  /-- `f_pos` of each open file. -/
  fPos : ℕ → Option ℤ

/-- One atomic call. -/
inductive Call where
  /-- Open a file: it gets a fresh `struct file`. -/
  | aesdOpen (file : ℕ)
  /-- Close a file. -/
  | aesdRelease (file : ℕ)
  /-- Read; `avail` bytes are writable at the user's address. -/
  | aesdRead (file : ℕ) (interrupted : Bool) (avail : ℕ) (count : UInt64)
  /-- Write; `buf` is what is readable at the user's address. -/
  | aesdWrite (file : ℕ) (interrupted : Bool) (alloc : Option (ℕ → UInt8))
      (buf : List UInt8) (count : UInt64)
  /-- Seek. -/
  | aesdLlseek (file : ℕ) (interrupted : Bool) (offset : Int64) (whence : Int32)
  /-- Control; `arg` is what is readable at the user's address. -/
  | aesdIoctl (file : ℕ) (interrupted : Bool) (cmd : UInt32) (arg : List UInt8)
      (stack : Vector UInt8 8)

namespace Sys

/-- The loaded driver, with no file open. -/
def init : Sys := { aesdInitModule with fPos := fun _ => none }

/-- The state after a file operation that changed the driver and the position of
one file. -/
def after (s : Sys) (file : ℕ) (p : ℤ) (d : Driver) : Sys :=
  { d with fPos := Function.update s.fPos file (some p) }

@[simp] theorem after_fPos_self (s : Sys) (file : ℕ) (p : ℤ) (d : Driver) :
    (s.after file p d).fPos file = some p := by
  simp [after]

@[simp] theorem after_toDriver (s : Sys) (file : ℕ) (p : ℤ) (d : Driver) :
    (s.after file p d).toDriver = d := rfl

@[simp] theorem after_after (s : Sys) (file : ℕ) (p q : ℤ) (d e : Driver) :
    (s.after file p d).after file q e = s.after file q e := by
  simp [after]

/-- A file operation needs an open file. -/
def onFile (s : Sys) (file : ℕ) (k : ℤ → Except Fault (Reply × Sys)) :
    Except Fault (Reply × Sys) :=
  match s.fPos file with
  | none => .ok ({ retval := -eBadf }, s)
  | some p => k p

/-- One call. -/
def step (s : Sys) : Call → Except Fault (Reply × Sys)
  | .aesdOpen file => .ok ({ retval := 0 }, s.after file 0 (Aesd.aesdOpen s.toDriver))
  | .aesdRelease file =>
      s.onFile file fun _ =>
        .ok ({ retval := 0 }, { s with fPos := Function.update s.fPos file none })
  | .aesdRead file interrupted avail count =>
      s.onFile file fun p =>
        (Aesd.aesdRead s.toDriver p interrupted avail count.toNat).map fun r =>
          (r.1, s.after file r.2.1 r.2.2)
  | .aesdWrite file interrupted alloc buf count =>
      s.onFile file fun p =>
        (Aesd.aesdWrite s.toDriver p interrupted alloc buf count.toNat).map fun r =>
          (r.1, s.after file r.2.1 r.2.2)
  | .aesdLlseek file interrupted offset whence =>
      s.onFile file fun p =>
        let r := Aesd.aesdLlseek s.toDriver p interrupted offset whence
        .ok ({ retval := r.1 }, s.after file r.2 s.toDriver)
  | .aesdIoctl file interrupted cmd arg stack =>
      s.onFile file fun p =>
        let r := Aesd.aesdIoctl s.toDriver p interrupted cmd arg stack
        .ok ({ retval := r.1 }, s.after file r.2 s.toDriver)

end Sys
end Aesd
