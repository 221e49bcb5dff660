import LinuxTraining.Globalmem.Vfs

/-!
# The abstract device: a fixed-size file with a cursor per open file

What globalmem is for, with no machine arithmetic in it: a byte string of fixed length, and for
each open file a cursor that lies in it. `FixedFile.Step` is the meaning of each call and
`FixedFile.Run` of a sequence of calls. `lastWritten` is the value of an address given the effects
on the memory since the start, newest first, and `lastWritten_wrote` says how a write changes it.
-/

namespace LinuxTraining.Globalmem

open Lib

/-- A byte string of length `N` and the cursors of the open files. -/
structure FixedFile (N : Nat) where
  content : List Byte
  size : content.length = N
  cursor : Nat → Option (Fin (N + 1))

namespace FixedFile

variable {N : Nat}

/-- The device before any file is open. -/
def init (N : Nat) : FixedFile N := ⟨List.replicate N 0, List.length_replicate, fun _ => none⟩

/-- The cursor of one file moved. -/
def setCursor (f : FixedFile N) (fd : Nat) (p : Option (Fin (N + 1))) : FixedFile N :=
  { f with cursor := Function.update f.cursor fd p }

/-- The bytes from `p` on replaced by `bs`. -/
def overwrite (f : FixedFile N) (p : Nat) (bs : List Byte) (h : p + bs.length ≤ N) :
    FixedFile N where
  content := f.content.take p ++ bs ++ f.content.drop (p + bs.length)
  size := by
    have := f.size
    simp only [List.length_append, List.length_take, List.length_drop]
    omega
  cursor := f.cursor

/-- Every byte zero. -/
def clear (f : FixedFile N) : FixedFile N :=
  { f with content := List.replicate N 0, size := List.length_replicate }

/-- The meaning of one call. A seek may set its own cursor to any position in the file, which it
then returns, or fail. -/
inductive Step : FixedFile N → Op Unit → Out → FixedFile N → Prop
  | open {f : FixedFile N} (fd : Nat) : f.cursor fd = none →
      Step f (.open fd ()) ⟨0, []⟩ (f.setCursor fd (some 0))
  | release {f : FixedFile N} {p : Fin (N + 1)} (fd : Nat) : f.cursor fd = some p →
      Step f (.release fd) ⟨0, []⟩ (f.setCursor fd none)
  | read {f : FixedFile N} {p : Fin (N + 1)} (fd size : Nat) (limit : Option Fault)
      (p' : Fin (N + 1)) : f.cursor fd = some p → p'.val = p + min size (N - p) →
      Step f (.on fd (.read size limit))
        ⟨(min size (N - p) : Nat), (f.content.drop p).take (min size (N - p))⟩
        (f.setCursor fd (some p'))
  | write {f : FixedFile N} {p : Fin (N + 1)} (fd : Nat) (buf : Mem Byte) (size : Nat)
      (limit : Option Fault) (p' : Fin (N + 1)) (hp : f.cursor fd = some p)
      (hp' : p'.val = p + min size (N - p))
      (hfit : p + (buf.slice 0 (min size (N - p))).length ≤ N) :
      Step f (.on fd (.write buf size limit)) ⟨(min size (N - p) : Nat), []⟩
        ((f.overwrite p (buf.slice 0 (min size (N - p))) hfit).setCursor fd (some p'))
  | seek {f : FixedFile N} {p : Fin (N + 1)} (fd : Nat) (offset orig : Int) (p' : Fin (N + 1)) :
      f.cursor fd = some p →
      Step f (.on fd (.llseek offset orig)) ⟨p'.val, []⟩ (f.setCursor fd (some p'))
  | seekFail {f : FixedFile N} {p : Fin (N + 1)} (fd : Nat) (offset orig : Int) :
      f.cursor fd = some p → Step f (.on fd (.llseek offset orig)) ⟨-EINVAL, []⟩ f
  | clear {f : FixedFile N} {p : Fin (N + 1)} (fd : Nat) : f.cursor fd = some p →
      Step f (.on fd (.ioctl MEM_CLEAR)) ⟨0, []⟩ f.clear
  | badIoctl {f : FixedFile N} {p : Fin (N + 1)} (fd : Nat) {cmd : Nat} :
      f.cursor fd = some p → cmd ≠ MEM_CLEAR → Step f (.on fd (.ioctl cmd)) ⟨-EINVAL, []⟩ f

/-- A sequence of calls with what each of them returned. -/
inductive Run (f : FixedFile N) : List (Op Unit × Out) → FixedFile N → Prop
  | nil : Run f [] f
  | snoc {tr : List (Op Unit × Out)} {g g' : FixedFile N} {op : Op Unit} {out : Out} :
      Run f tr g → Step g op out g' → Run f (tr ++ [(op, out)]) g'

end FixedFile

/-! ## The last write to an address -/

/-- What a call does to the memory. -/
inductive Effect
  | wrote (p : Nat) (bs : List Byte)
  | cleared

/-- The byte last written to an address since the last clear, or zero; the newest effect first. -/
def lastWritten : List Effect → Nat → Byte
  | [], _ => 0
  | .cleared :: _, _ => 0
  | .wrote p bs :: es, a =>
    if p ≤ a ∧ a < p + bs.length then bs.getD (a - p) 0 else lastWritten es a

/-- A write as an effect: the store it performs, read at one address. -/
theorem lastWritten_wrote {m : Mem Byte} {es : List Effect} {N p : Nat} {bs : List Byte}
    (h : ∀ a < N, m a = lastWritten es a) :
    ∀ a < N, m.store p bs a = lastWritten (.wrote p bs :: es) a := by
  intro a ha
  unfold lastWritten
  split
  · next hin =>
    obtain ⟨i, rfl⟩ := Nat.exists_eq_add_of_le hin.1
    rw [Mem.store_add m p (by omega), Nat.add_sub_cancel_left, List.getD_eq_getElem _ _ (by omega)]
  · next hout =>
    rw [← h a ha]
    rcases Nat.lt_or_ge a p with hlt | hge
    · exact Mem.store_of_lt m bs hlt
    · exact Mem.store_of_ge m bs (by omega)

end LinuxTraining.Globalmem
