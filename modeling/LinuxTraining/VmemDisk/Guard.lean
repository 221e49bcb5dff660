import LinuxTraining.VmemDisk.Transfer

/-!
# The bounds check of `vmem_disk_transfer`

The check compares `offset + nbytes` with `dev->size`, all three as `unsigned long`: the products
and the sum are taken modulo the word, so the check is about the residue of the end of the transfer
(`guard_sum`). `guardExact_iff` says for which arguments that is the end itself.
-/

namespace LinuxTraining.VmemDisk

open Lib

/-- The test of `vmem_disk_transfer` that refuses a transfer. -/
def Refuses (W : LongWidth) (sector nsect : Nat) : Prop :=
  devSize < uadd W.bits (umul W.bits sector KERNEL_SECTOR_SIZE)
    (umul W.bits nsect KERNEL_SECTOR_SIZE)

instance (W : LongWidth) (sector nsect : Nat) : Decidable (Refuses W sector nsect) :=
  inferInstanceAs (Decidable (_ < _))

/-- The number of sectors after which the byte offset wraps. -/
def sectorWrap (W : LongWidth) : Nat := 2 ^ (W.bits - 9)

section
variable {W : LongWidth} {data buffer : Mem Byte} {sector nsect : Nat} {write : Bool}

theorem two_pow_bits (W : LongWidth) : 2 ^ W.bits = 512 * sectorWrap W := by
  cases W <;> rfl

theorem sectorWrap_ge (W : LongWidth) : 2 ^ 23 ≤ sectorWrap W := by
  cases W <;> decide

/-- A byte offset or count of a transfer. -/
theorem umul_sector (W : LongWidth) (n : Nat) :
    umul W.bits n KERNEL_SECTOR_SIZE = 512 * (n % sectorWrap W) := by
  rw [umul, KERNEL_SECTOR_SIZE, two_pow_bits, Nat.mul_comm, Nat.mul_mod_mul_left]

/-- What the check compares with the size: the residue of the end of the transfer. -/
theorem guard_sum (W : LongWidth) (sector nsect : Nat) :
    uadd W.bits (umul W.bits sector KERNEL_SECTOR_SIZE) (umul W.bits nsect KERNEL_SECTOR_SIZE) =
      512 * ((sector + nsect) % sectorWrap W) := by
  rw [umul_sector, umul_sector, uadd, two_pow_bits, ← Nat.mul_add, Nat.mul_mod_mul_left,
    ← Nat.add_mod]

/-- The check, over sectors. -/
theorem refuses_iff : Refuses W sector nsect ↔ 1024 < (sector + nsect) % sectorWrap W := by
  have hsize : devSize = 512 * 1024 := rfl
  rw [Refuses, guard_sum, hsize]
  omega

/-- A refused transfer touches neither the device nor the buffer. -/
theorem vmemDiskTransfer_of_refuses (h : Refuses W sector nsect) :
    vmemDiskTransfer W data sector nsect buffer write = (data, buffer) :=
  if_pos h

/-- Any other transfer copies. -/
theorem vmemDiskTransfer_of_not_refuses (h : ¬ Refuses W sector nsect) :
    vmemDiskTransfer W data sector nsect buffer write =
      if write then (data.store (umul W.bits sector KERNEL_SECTOR_SIZE)
        (buffer.slice 0 (umul W.bits nsect KERNEL_SECTOR_SIZE)), buffer)
      else (data, buffer.store 0 (data.slice (umul W.bits sector KERNEL_SECTOR_SIZE)
        (umul W.bits nsect KERNEL_SECTOR_SIZE))) :=
  if_neg h

end

/-- The check is exact for a transfer: it lets it through if and only if the transfer ends within
the device; then it moves these sectors, and otherwise it touches nothing. -/
structure GuardExact (W : LongWidth) (sector nsect : Nat) : Prop where
  test : ¬ Refuses W sector nsect ↔ 512 * sector + 512 * nsect ≤ devSize
  moves : 512 * sector + 512 * nsect ≤ devSize → ∀ data buffer write,
    vmemDiskTransfer W data sector nsect buffer write =
      if write then (data.store (512 * sector) (buffer.slice 0 (512 * nsect)), buffer)
      else (data, buffer.store 0 (data.slice (512 * sector) (512 * nsect)))
  spares : devSize < 512 * sector + 512 * nsect → ∀ data buffer write,
    vmemDiskTransfer W data sector nsect buffer write = (data, buffer)

/-- **The bounds check is exact, except for the transfers that end past the device and whose end
wraps to a sector within it.** -/
theorem guardExact_iff (W : LongWidth) (sector nsect : Nat) :
    GuardExact W sector nsect ↔
      sector + nsect ≤ 1024 ∨ 1024 < (sector + nsect) % 2 ^ (W.bits - 9) := by
  have hsize : devSize = 512 * 1024 := rfl
  have hwrap := sectorWrap_ge W
  have htest := @refuses_iff W sector nsect
  constructor
  · intro h
    rcases Nat.lt_or_ge 1024 (sector + nsect) with hpast | hwithin
    · refine .inr (htest.1 (not_not.1 fun hnot => ?_))
      have hle := h.test.1 hnot
      omega
    · exact .inl hwithin
  · rintro (hwithin | hrefused)
    · have hmod : sector % 2 ^ W.bits = sector :=
        Nat.mod_eq_of_lt (by rw [two_pow_bits]; omega)
      have hnot : ¬ Refuses W sector nsect := by
        rw [htest, Nat.mod_eq_of_lt (by omega)]
        omega
      refine ⟨iff_of_true hnot (by omega), fun hle data buffer write => ?_, by omega⟩
      have hmove := @vmemDiskTransfer_of_le W data nsect sector write buffer hle
      rwa [hmod] at hmove
    · have hrefuses : Refuses W sector nsect := htest.2 hrefused
      have hpast : 1024 < sector + nsect := Nat.lt_of_lt_of_le hrefused (Nat.mod_le _ _)
      refine ⟨iff_of_false (not_not.2 hrefuses) (by omega), by omega, ?_⟩
      intro _ data buffer write
      exact vmemDiskTransfer_of_refuses hrefuses

/-- With a 32-bit `unsigned long`, the sector 4 GiB into the device passes the check, and a write
there lands on the first sector. -/
theorem guard_four_gib :
    ¬ GuardExact .w32 (2 ^ 23) 1 ∧
      (vmemDiskTransfer .w32 (fun _ => 0) (2 ^ 23) 1 (fun _ => 7) true).1 0 = 7 := by
  constructor
  · intro h
    exact absurd (h.test.1 (by decide)) (by decide)
  · rw [vmemDiskTransfer_of_not_refuses (by decide), if_pos rfl]
    dsimp only
    rw [Mem.store_slice_apply]
    decide

end LinuxTraining.VmemDisk
