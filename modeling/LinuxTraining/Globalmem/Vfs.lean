import LinuxTraining.Globalmem.Body

/-!
# Files as the drivers see them

A driver is its `struct file_operations`. The virtual file system calls its functions on an open
file: `read` and `write` get a copy of the file's cursor `f_pos`, which the system writes back after
the call, and `llseek` moves the cursor itself.
-/

namespace LinuxTraining.Globalmem

open Lib

/-- A system call on an open file. A copy limit of `none` is a user copy that does not fault. -/
inductive FileOp
  | read (size : Nat) (limit : Option Fault)
  | write (buf : Mem Byte) (size : Nat) (limit : Option Fault)
  | llseek (offset orig : Int)
  | ioctl (cmd : Nat)

/-- A system call: open a file on the device that `ι` names, use it, or release it. -/
inductive Op (ι : Type)
  | open (fd : Nat) (dev : ι)
  | on (fd : Nat) (op : FileOp)
  | release (fd : Nat)

/-- What a call gives back: its return value and the bytes it delivers. -/
structure Out where
  ret : Int
  data : List Byte
  deriving DecidableEq

/-- `struct file_operations`, on the memory of the device the file belongs to. -/
structure FileOperations where
  llseek : (fPos offset orig : Int) → Int × Int
  read : Mem Byte → (size : Nat) → (ppos : Int) → Option Fault → ReadResult
  write : Mem Byte → (buf : Mem Byte) → (size : Nat) → (ppos : Int) → Option Fault → WriteResult
  unlockedIoctl : Mem Byte → (cmd : Nat) → Int × Mem Byte

/-- A call on an open file whose cursor is `fPos`: what it returns, the device memory, and the
cursor after it. -/
def FileOperations.call (fops : FileOperations) (mem : Mem Byte) (fPos : Int) :
    FileOp → Out × Mem Byte × Int
  | .read size limit =>
    let r := fops.read mem size fPos limit
    (⟨r.ret, r.data⟩, mem, r.ppos)
  | .write buf size limit =>
    let r := fops.write mem buf size fPos limit
    (⟨r.ret, []⟩, r.mem, r.ppos)
  | .llseek offset orig =>
    let r := fops.llseek fPos offset orig
    (⟨r.1, []⟩, mem, r.2)
  | .ioctl cmd =>
    let r := fops.unlockedIoctl mem cmd
    (⟨r.1, []⟩, r.2, fPos)

/-- The cap that the virtual file system puts on the size of a read or a write. -/
def MAX_RW_COUNT : Nat := 0x7ffff000

/-- A call without a copy fault, of a size the virtual file system passes on. -/
def FileOp.Plain : FileOp → Prop
  | .read size limit => size ≤ MAX_RW_COUNT ∧ limit = none
  | .write _ size limit => size ≤ MAX_RW_COUNT ∧ limit = none
  | _ => True

/-- The calls of a run that are plain. -/
def Op.Plain {ι : Type} : Op ι → Prop
  | .on _ op => op.Plain
  | _ => True

end LinuxTraining.Globalmem
