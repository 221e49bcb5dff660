import LinuxTraining.Kernel

/-!
# The bodies of the globalmem operations

`ch6/globalmem.c`, `ch6/multi_globalmem.c` and `ch7/globalmem.c` each spell out `globalmem_read`,
`globalmem_write`, `globalmem_llseek` and `globalmem_ioctl` over a buffer `mem` of
`GLOBALMEM_SIZE` bytes, with the same bodies up to locking. The bodies stand here once, with the
size as a parameter, and each driver's own functions are these at its own size. `memRead_of_le`
and `memWrite_of_le` are the specification lemmas of a read and a write at a position and with a
size that the narrowing conversions keep, and `memLlseek_cases` is that of a seek.
-/

namespace LinuxTraining.Globalmem

open Lib

/-- What `read` gives back: the return value, the bytes in the user's buffer, and `*ppos`. -/
structure ReadResult where
  ret : Int
  data : List Byte
  ppos : Int
  deriving DecidableEq

/-- What `write` gives back: the return value, the device memory, and `*ppos`. -/
structure WriteResult where
  ret : Int
  mem : Mem Byte
  ppos : Int

variable (W : LongWidth) (cap : Nat)

/-- `globalmem_read` over a buffer of `cap` bytes. -/
def memRead (mem : Mem Byte) (size : Nat) (ppos : Int) (limit : Option Fault) : ReadResult :=
  let p := toUnsigned W.bits ppos
  let count := size % 2 ^ 32
  if cap ≤ p then ⟨0, [], ppos⟩
  else
    let count := if usub W.bits cap p < count then usub W.bits cap p % 2 ^ 32 else count
    let (data, left) := copyToUser limit (mem.slice p count)
    if left ≠ 0 then ⟨-EFAULT, data, ppos⟩
    else ⟨toSigned 32 count, data, toSigned 64 (ppos + count)⟩

/-- `globalmem_write` over a buffer of `cap` bytes, from the user memory that starts at `buf`. -/
def memWrite (mem : Mem Byte) (buf : Mem Byte) (size : Nat) (ppos : Int) (limit : Option Fault) :
    WriteResult :=
  let p := toUnsigned W.bits ppos
  let count := size % 2 ^ 32
  if cap ≤ p then ⟨0, mem, ppos⟩
  else
    let count := if usub W.bits cap p < count then usub W.bits cap p % 2 ^ 32 else count
    let (mem', left) := copyFromUser limit mem p (buf.slice 0 count)
    if left ≠ 0 then ⟨-EFAULT, mem', ppos⟩
    else ⟨toSigned 32 count, mem', toSigned 64 (ppos + count)⟩

/-- `globalmem_llseek`: the return value and the new `f_pos`. -/
def memLlseek (fPos offset : Int) (orig : Int) : Int × Int :=
  if orig = 0 then
    if offset < 0 then (-EINVAL, fPos)
    else if cap < toUnsigned 32 offset then (-EINVAL, fPos)
    else (toUnsigned 32 offset, toUnsigned 32 offset)
  else if orig = 1 then
    if (cap : Int) < toSigned 64 (fPos + offset) then (-EINVAL, fPos)
    else if toSigned 64 (fPos + offset) < 0 then (-EINVAL, fPos)
    else (toSigned 64 (fPos + offset), toSigned 64 (fPos + offset))
  else (-EINVAL, fPos)

/-- `MEM_CLEAR`. -/
def MEM_CLEAR : Nat := 0x1

/-- `globalmem_ioctl`: the return value and the device memory. -/
def memIoctl (mem : Mem Byte) (cmd : Nat) : Int × Mem Byte :=
  if cmd = MEM_CLEAR then (0, mem.store 0 (List.replicate cap 0)) else (-EINVAL, mem)

/-! ## Specification lemmas -/

variable {W cap}

/-- A read past the end delivers nothing. -/
theorem memRead_of_ge {mem : Mem Byte} {size : Nat} {ppos : Int} {limit : Option Fault}
    (h : cap ≤ toUnsigned W.bits ppos) : memRead W cap mem size ppos limit = ⟨0, [], ppos⟩ :=
  if_pos h

/-- A write past the end stores nothing. -/
theorem memWrite_of_ge {mem buf : Mem Byte} {size : Nat} {ppos : Int} {limit : Option Fault}
    (h : cap ≤ toUnsigned W.bits ppos) : memWrite W cap mem buf size ppos limit = ⟨0, mem, ppos⟩ :=
  if_pos h

/-- `count` after the clamp, at the position `p`. -/
def clamp (W : LongWidth) (cap size p : Nat) : Nat :=
  if usub W.bits cap p < size % 2 ^ 32 then usub W.bits cap p % 2 ^ 32 else size % 2 ^ 32

/-- A read in the device delivers what its user copy moves, and fails unless that is all. -/
theorem memRead_of_lt {mem : Mem Byte} {size n : Nat} {ppos : Int} {limit : Option Fault}
    (h : ¬ cap ≤ toUnsigned W.bits ppos) (hn : clamp W cap size (toUnsigned W.bits ppos) = n) :
    memRead W cap mem size ppos limit =
      if n - copied limit n ≠ 0 then
        ⟨-EFAULT, mem.slice (toUnsigned W.bits ppos) (copied limit n), ppos⟩
      else ⟨toSigned 32 n, mem.slice (toUnsigned W.bits ppos) (copied limit n),
        toSigned 64 (ppos + n)⟩ := by
  subst hn
  unfold memRead
  simp only [if_neg h, copyToUser, Mem.length_slice, Mem.take_slice mem _ (copied_le limit _)]
  rfl

/-- A write in the device stores what its user copy moves, with what the copy leaves in the place of
the rest, and fails unless the copy moves all. -/
theorem memWrite_of_lt {mem buf : Mem Byte} {size n : Nat} {ppos : Int} {limit : Option Fault}
    (h : ¬ cap ≤ toUnsigned W.bits ppos) (hn : clamp W cap size (toUnsigned W.bits ppos) = n) :
    memWrite W cap mem buf size ppos limit =
      if n - copied limit n ≠ 0 then
        ⟨-EFAULT, mem.store (toUnsigned W.bits ppos)
          (buf.slice 0 (copied limit n) ++ leftover limit n), ppos⟩
      else ⟨toSigned 32 n, mem.store (toUnsigned W.bits ppos) (buf.slice 0 n),
        toSigned 64 (ppos + n)⟩ := by
  unfold clamp at hn
  have hle := copied_le limit n
  unfold memWrite
  simp only [if_neg h, hn, copyFromUser, Mem.length_slice, Mem.take_slice buf _ hle]
  by_cases hleft : n - copied limit n = 0
  · have hall : copied limit n = n := by omega
    rw [if_neg (not_not.2 hleft), if_neg (not_not.2 hleft), leftover_of_left_zero hleft, hall,
      List.append_nil]
  · rw [if_pos hleft, if_pos hleft]

/-- The number of bytes a transfer at `p` moves. -/
def span (cap size p : Nat) : Nat := min size (cap - p)

/-- The clamp of `count` at a position in the device. -/
theorem clamp_eq {size p : Nat} (hcap : cap < 2 ^ 31) (hsize : size < 2 ^ 32) (hp : p < cap) :
    clamp W cap size p = span cap size p := by
  have hW := W.two_pow_le
  unfold clamp
  rw [usub_of_le (Nat.le_of_lt hp) (by omega), Nat.mod_eq_of_lt hsize, Nat.mod_eq_of_lt (by omega)]
  unfold span
  split <;> omega

/-- A count that fits in the device survives the conversions of the return value and the cursor. -/
theorem toSigned_span {size p : Nat} (hcap : cap < 2 ^ 31) (hp : p ≤ cap) :
    toSigned 32 (span cap size p) = span cap size p ∧
      toSigned 64 ((p : Int) + span cap size p) = p + span cap size p := by
  have hle : span cap size p ≤ cap - p := Nat.min_le_right _ _
  exact ⟨toSigned_of_range (by omega) (by omega), toSigned_of_range (by omega) (by omega)⟩

/-- A read at a cursor within the device whose copy does not fault. -/
theorem memRead_of_le {mem : Mem Byte} {size p : Nat} (hcap : cap < 2 ^ 31) (hsize : size < 2 ^ 32)
    (hp : p ≤ cap) :
    memRead W cap mem size p none =
      ⟨span cap size p, mem.slice p (span cap size p), p + span cap size p⟩ := by
  have hW := W.two_pow_le
  have hpos : toUnsigned W.bits p = p := toUnsigned_of_lt (by omega)
  rcases Nat.lt_or_ge p cap with hlt | hge
  · have hn : clamp W cap size (toUnsigned W.bits p) = span cap size p := by
      rw [hpos, clamp_eq hcap hsize hlt]
    rw [memRead_of_lt (by omega) hn, hpos, copied_none, if_neg (by omega),
      (toSigned_span hcap hp).1, (toSigned_span hcap hp).2]
  · have h0 : span cap size p = 0 := by unfold span; omega
    rw [memRead_of_ge (by omega), h0]
    simp

/-- A write at a cursor within the device whose copy does not fault. -/
theorem memWrite_of_le {mem buf : Mem Byte} {size p : Nat} (hcap : cap < 2 ^ 31)
    (hsize : size < 2 ^ 32) (hp : p ≤ cap) :
    memWrite W cap mem buf size p none =
      ⟨span cap size p, mem.store p (buf.slice 0 (span cap size p)), p + span cap size p⟩ := by
  have hW := W.two_pow_le
  have hpos : toUnsigned W.bits p = p := toUnsigned_of_lt (by omega)
  rcases Nat.lt_or_ge p cap with hlt | hge
  · have hn : clamp W cap size (toUnsigned W.bits p) = span cap size p := by
      rw [hpos, clamp_eq hcap hsize hlt]
    rw [memWrite_of_lt (by omega) hn, hpos, copied_none, if_neg (by omega),
      (toSigned_span hcap hp).1, (toSigned_span hcap hp).2]
  · have h0 : span cap size p = 0 := by unfold span; omega
    rw [memWrite_of_ge (by omega), h0]
    simp

/-- A seek either fails and keeps the cursor or returns the cursor it sets, which lies in the
device: the casts and the wrapping sum never let one escape. -/
theorem memLlseek_cases (fPos offset orig : Int) :
    memLlseek cap fPos offset orig = (-EINVAL, fPos) ∨
      ∃ p : Nat, p ≤ cap ∧ memLlseek cap fPos offset orig = ((p : Int), (p : Int)) := by
  unfold memLlseek
  by_cases h0 : orig = 0
  · rw [if_pos h0]
    by_cases hneg : offset < 0
    · rw [if_pos hneg]; exact .inl rfl
    · rw [if_neg hneg]
      by_cases hbig : cap < toUnsigned 32 offset
      · rw [if_pos hbig]; exact .inl rfl
      · rw [if_neg hbig]; exact .inr ⟨toUnsigned 32 offset, by omega, rfl⟩
  · rw [if_neg h0]
    by_cases h1 : orig = 1
    · rw [if_pos h1]
      by_cases hbig : (cap : Int) < toSigned 64 (fPos + offset)
      · rw [if_pos hbig]; exact .inl rfl
      · rw [if_neg hbig]
        by_cases hneg : toSigned 64 (fPos + offset) < 0
        · rw [if_pos hneg]; exact .inl rfl
        · rw [if_neg hneg]
          obtain ⟨p, hp⟩ := Int.eq_ofNat_of_zero_le (Int.not_lt.1 hneg)
          rw [hp] at hbig ⊢
          exact .inr ⟨p, by omega, rfl⟩
    · rw [if_neg h1]; exact .inl rfl

end LinuxTraining.Globalmem
