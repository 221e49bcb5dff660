import LinuxTraining.Lib.Bytes
import LinuxTraining.Lib.CInt

/-!
# The kernel interfaces the drivers share

Error numbers, and the two user copies. A user copy may fault: its label carries the number of
bytes it can move at most, it moves that prefix, and it returns the number of bytes it did not
move, which is what the drivers test. `copy_from_user` overwrites the whole of its destination all
the same: what it puts in the place of the bytes it did not move is carried by the label, too.
-/

namespace LinuxTraining

open Lib

/-- A byte. -/
abbrev Byte := UInt8

def EAGAIN : Int := 11
def EFAULT : Int := 14
def EINVAL : Int := 22
def ERESTARTSYS : Int := 512

/-- A user copy that may fault: the number of bytes it moves at most, and what `copy_from_user`
leaves in the place of those it does not move. Linux pads with zeros there. -/
structure Fault where
  moved : Nat
  tail : Mem Byte

/-- How many of `n` bytes a user copy moves: all of them, or at most the given number. -/
def copied : (limit : Option Fault) → (n : Nat) → Nat
  | none, n => n
  | some f, n => min f.moved n

/-- What `copy_from_user` leaves of `n` bytes in the place of those it does not move. -/
def leftover : (limit : Option Fault) → (n : Nat) → List Byte
  | none, _ => []
  | some f, n => f.tail.slice (copied (some f) n) (n - copied (some f) n)

/-- `copy_to_user`: the bytes that arrive in the user's buffer and the number of bytes left. -/
def copyToUser (limit : Option Fault) (src : List Byte) : List Byte × Nat :=
  (src.take (copied limit src.length), src.length - copied limit src.length)

/-- `copy_from_user` to the address `dst`: the kernel memory and the number of bytes left. -/
def copyFromUser (limit : Option Fault) (m : Mem Byte) (dst : Nat) (src : List Byte) :
    Mem Byte × Nat :=
  (m.store dst (src.take (copied limit src.length) ++ leftover limit src.length),
    src.length - copied limit src.length)

theorem copied_le (limit : Option Fault) (n : Nat) : copied limit n ≤ n := by
  cases limit with
  | none => exact Nat.le_refl n
  | some f => exact Nat.min_le_right ..

@[simp] theorem copied_none (n : Nat) : copied none n = n := rfl

/-- A copy that stops short of its end has moved what its limit says. -/
theorem copied_some_of_lt {i n : Nat} {tail : Mem Byte} (h : i < n) :
    copied (some ⟨i, tail⟩) n = i :=
  Nat.min_eq_left (Nat.le_of_lt h)

@[simp] theorem length_leftover (limit : Option Fault) (n : Nat) :
    (leftover limit n).length = n - copied limit n := by
  cases limit with
  | none => exact (Nat.sub_self n).symm
  | some f => exact Mem.length_slice ..

/-- A copy that moves everything leaves nothing of its own. -/
theorem leftover_of_left_zero {limit : Option Fault} {n : Nat} (h : n - copied limit n = 0) :
    leftover limit n = [] := by
  rw [← List.length_eq_zero_iff, length_leftover, h]

/-- A copy to the user that leaves nothing delivered its whole source. -/
theorem copyToUser_fst_of_left_zero {limit : Option Fault} {src : List Byte}
    (h : (copyToUser limit src).2 = 0) : (copyToUser limit src).1 = src := by
  have hle := copied_le limit src.length
  simp only [copyToUser] at h ⊢
  exact List.take_of_length_le (by omega)

/-- A copy from the user that leaves nothing stored its whole source. -/
theorem copyFromUser_fst_of_left_zero {limit : Option Fault} {m : Mem Byte} {dst : Nat}
    {src : List Byte} (h : (copyFromUser limit m dst src).2 = 0) :
    (copyFromUser limit m dst src).1 = m.store dst src := by
  have hle := copied_le limit src.length
  simp only [copyFromUser] at h ⊢
  rw [List.take_of_length_le (by omega), leftover_of_left_zero h, List.append_nil]

/-- Whatever a copy from the user does, it stays within the bytes it was asked to write. -/
theorem copyFromUser_frame (limit : Option Fault) (m : Mem Byte) {dst b n : Nat} {src : List Byte}
    (h : b + n ≤ dst ∨ dst + src.length ≤ b) :
    (copyFromUser limit m dst src).1.slice b n = m.slice b n := by
  have hle := copied_le limit src.length
  refine Mem.slice_store_of_disjoint m (h.imp_right fun h => ?_)
  rw [List.length_append, List.length_take, length_leftover]
  omega

end LinuxTraining
