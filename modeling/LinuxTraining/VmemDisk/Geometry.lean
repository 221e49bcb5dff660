import LinuxTraining.VmemDisk.Guard

/-!
# The extent of a device

A device states its extent in three places: `dev->size`, which bounds a transfer, the capacity that
`setup_device` gives to the disk, and the geometry of `vmem_disk_getgeo`. The number of sectors is a
parameter here. A transfer and the capacity agree (`refusesPast_iff`), and the geometry never agrees
with them (`extents_never`): `dev->size` is in bytes, and `vmem_disk_getgeo` takes it for sectors.
-/

namespace LinuxTraining.VmemDisk

open Lib

/-- What `setup_device` writes down: `dev->size`, an `int`, and the argument of `set_capacity`. -/
structure Extent where
  size : Int
  capacity : Nat

/-- The extent of a device of `nsectors` sectors. -/
def setupExtent (nsectors : Nat) : Extent where
  size := toSigned 32 (nsectors * HARDSECT_SIZE : Nat)
  capacity := nsectors * (HARDSECT_SIZE / KERNEL_SECTOR_SIZE)

/-- The test of `vmem_disk_transfer` on a device of this size. -/
def RefusesPast (W : LongWidth) (size : Int) (sector nsect : Nat) : Prop :=
  toUnsigned W.bits size < uadd W.bits (umul W.bits sector KERNEL_SECTOR_SIZE)
    (umul W.bits nsect KERNEL_SECTOR_SIZE)

/-- `struct hd_geometry`, with a field of `c` bits for the cylinders. -/
structure HdGeometry (c : Nat) where
  cylinders : BitVec c
  heads : Nat
  sectors : Nat
  start : Nat

/-- `vmem_disk_getgeo`. -/
def vmemDiskGetgeo (W : LongWidth) (c : Nat) (devSize : Int) : Int × HdGeometry c :=
  let size := BitVec.ofInt W.bits
    (toSigned 32 (devSize * (HARDSECT_SIZE / KERNEL_SECTOR_SIZE : Nat)))
  (0, { cylinders := ((size &&& ~~~0x3f).sshiftRight 6).setWidth c, heads := 4, sectors := 16,
        start := 4 })

/-- The number of sectors of a disk of this geometry. -/
def HdGeometry.total {c : Nat} (geo : HdGeometry c) : Nat :=
  geo.cylinders.toNat * geo.heads * geo.sectors

/-- The three places agree on a device of `nsectors` sectors. -/
structure ExtentsAgree (W : LongWidth) (c nsectors : Nat) : Prop where
  transfer : ∀ sector nsect, 512 * sector + 512 * nsect < 2 ^ W.bits →
    (¬ RefusesPast W (setupExtent nsectors).size sector nsect ↔
      sector + nsect ≤ (setupExtent nsectors).capacity)
  geometry : (vmemDiskGetgeo W c (setupExtent nsectors).size).2.total =
    (setupExtent nsectors).capacity

section
variable {W : LongWidth} {c nsectors sector nsect : Nat}

/-- The device of the module is the one of `NSECTORS` sectors. -/
theorem refuses_iff_refusesPast :
    Refuses W sector nsect ↔ RefusesPast W (setupExtent NSECTORS).size sector nsect := by
  have hsize : toUnsigned W.bits (setupExtent NSECTORS).size = devSize := by cases W <;> rfl
  rw [Refuses, RefusesPast, hsize]

theorem setupExtent_capacity (nsectors : Nat) : (setupExtent nsectors).capacity = nsectors :=
  Nat.mul_one nsectors

/-- A size that fits into an `int` is the number of bytes. -/
theorem setupExtent_size (h : nsectors * 512 < 2 ^ 31) :
    (setupExtent nsectors).size = (512 * nsectors : Nat) := by
  have hfits : ((nsectors * HARDSECT_SIZE : Nat) : Int) < 2 ^ 31 := by
    simp only [HARDSECT_SIZE]
    omega
  have hkept := toSigned_of_range (w := 31) (by omega) hfits
  rw [setupExtent]
  dsimp only
  rw [hkept, HARDSECT_SIZE, Nat.mul_comm]

/-- A transfer whose bounds do not wrap is refused if it ends past the size. -/
theorem refusesPast_natCast {size : Nat} (hsize : size < 2 ^ W.bits)
    (hwrap : 512 * sector + 512 * nsect < 2 ^ W.bits) :
    RefusesPast W size sector nsect ↔ size < 512 * sector + 512 * nsect := by
  rw [RefusesPast, toUnsigned_of_lt hsize, KERNEL_SECTOR_SIZE, umul_of_lt (by omega),
    umul_of_lt (by omega), uadd_of_lt (by omega), Nat.mul_comm sector, Nat.mul_comm nsect]

/-- A transfer whose bounds do not wrap is refused if it ends past the capacity. -/
theorem refusesPast_iff (h : nsectors * 512 < 2 ^ 31)
    (hwrap : 512 * sector + 512 * nsect < 2 ^ W.bits) :
    RefusesPast W (setupExtent nsectors).size sector nsect ↔ nsectors < sector + nsect := by
  have hsize : 512 * nsectors < 2 ^ W.bits :=
    Nat.lt_of_lt_of_le (by omega : 512 * nsectors < 2 ^ 32) W.two_pow_le
  rw [setupExtent_size h, refusesPast_natCast hsize hwrap, ← Nat.mul_add]
  exact Nat.mul_lt_mul_left (by decide)

/-- `(size & ~0x3f) >> 6`. -/
theorem cylinders_shift {w n : Nat} (h : 2 * n < 2 ^ w) :
    ((BitVec.ofNat w n &&& ~~~0x3f).sshiftRight 6).toNat = n / 64 := by
  have hnat : (BitVec.ofNat w n).toNat = n := by
    rw [BitVec.toNat_ofNat, Nat.mod_eq_of_lt (by omega)]
  have hmsb : (BitVec.ofNat w n).msb = false := by
    rw [BitVec.msb_eq_false_iff_two_mul_lt, hnat]
    exact h
  -- the bits that the mask clears are shifted out
  have hmask : (BitVec.ofNat w n &&& ~~~0x3f) >>> 6 = BitVec.ofNat w n >>> 6 := by
    refine BitVec.eq_of_getLsbD_eq fun i hi => ?_
    have hsmall : (0x3f : Nat).testBit (6 + i) = false :=
      Nat.testBit_lt_two_pow (Nat.lt_of_lt_of_le (by decide : 0x3f < 2 ^ 6)
        (Nat.pow_le_pow_right (by decide) (Nat.le_add_right 6 i)))
    have hbit : (0x3f : BitVec w).getLsbD (6 + i) = false := by
      show (BitVec.ofNat w 0x3f).getLsbD (6 + i) = false
      rw [BitVec.getLsbD_ofNat, hsmall, Bool.and_false]
    rw [BitVec.getLsbD_ushiftRight, BitVec.getLsbD_ushiftRight, BitVec.getLsbD_and,
      BitVec.getLsbD_not, hbit, Bool.not_false, Bool.and_true]
    by_cases hin : 6 + i < w
    · rw [decide_eq_true hin, Bool.and_true]
    · rw [BitVec.getLsbD_of_ge _ _ (Nat.le_of_not_lt hin), Bool.false_and]
  rw [BitVec.sshiftRight_eq_of_msb_false (by rw [BitVec.msb_and, hmsb, Bool.false_and]), hmask,
    BitVec.toNat_ushiftRight, hnat, Nat.shiftRight_eq_div_pow]

/-- The cylinders of a device whose size fits into an `int`. -/
theorem cylinders_eq (W : LongWidth) (c : Nat) (h : nsectors * 512 < 2 ^ 31) :
    (vmemDiskGetgeo W c (setupExtent nsectors).size).2.cylinders.toNat = 8 * nsectors % 2 ^ c := by
  have hsize : 2 * (512 * nsectors) < 2 ^ W.bits :=
    Nat.lt_of_lt_of_le (by omega : 2 * (512 * nsectors) < 2 ^ 32) W.two_pow_le
  have hkept : toSigned 32 ((512 * nsectors : Nat) * (HARDSECT_SIZE / KERNEL_SECTOR_SIZE : Nat)) =
      (512 * nsectors : Nat) := by
    have hone : (HARDSECT_SIZE / KERNEL_SECTOR_SIZE : Nat) = 1 := rfl
    rw [hone, Nat.cast_one, Int.mul_one]
    exact toSigned_of_range (w := 31) (by omega) (by omega)
  rw [vmemDiskGetgeo, setupExtent_size h]
  dsimp only
  rw [hkept, BitVec.ofInt_natCast, BitVec.toNat_setWidth, cylinders_shift hsize,
    show 512 * nsectors / 64 = 8 * nsectors by omega]

/-- A number of sectors is not its eightfold in cylinders of 64 sectors. -/
theorem cylinders_ne {m : Nat} (c : Nat) (hm : 0 < m) : 512 * m % 2 ^ c ≠ m := by
  intro he
  have hlt : m < 2 ^ c := by
    rw [← he]
    exact Nat.mod_lt _ (Nat.two_pow_pos c)
  have hdvd : 2 ^ c ∣ 511 * m := by
    have hsub := Nat.dvd_sub_mod (n := 2 ^ c) (512 * m)
    rw [he] at hsub
    rwa [show 511 * m = 512 * m - m by omega]
  have hcoprime : Nat.Coprime (2 ^ c) 511 := Nat.Coprime.pow_left c (by decide)
  have hle := Nat.le_of_dvd hm (hcoprime.dvd_of_dvd_mul_left hdvd)
  omega

/-- **The three places never agree**: a transfer and the capacity do, but the geometry is that of a
disk of as many sectors as the device has bytes, cut to the width of the cylinders. -/
theorem extents_never (W : LongWidth) (c : Nat) (hpos : 0 < nsectors) (hdvd : 64 ∣ nsectors)
    (hfits : nsectors * 512 < 2 ^ 31) :
    (∀ sector nsect, 512 * sector + 512 * nsect < 2 ^ W.bits →
      (¬ RefusesPast W (setupExtent nsectors).size sector nsect ↔
        sector + nsect ≤ (setupExtent nsectors).capacity)) ∧
    (8 * nsectors < 2 ^ c → (vmemDiskGetgeo W c (setupExtent nsectors).size).2.total =
      512 * (setupExtent nsectors).capacity) ∧
    ¬ ExtentsAgree W c nsectors := by
  have htotal : (vmemDiskGetgeo W c (setupExtent nsectors).size).2.total =
      8 * nsectors % 2 ^ c * 4 * 16 := by
    rw [HdGeometry.total, cylinders_eq W c hfits]
    rfl
  rw [setupExtent_capacity]
  refine ⟨fun sector nsect hwrap => ?_, fun hcut => ?_, fun h => ?_⟩
  · rw [refusesPast_iff hfits hwrap, Nat.not_lt]
  · rw [htotal, Nat.mod_eq_of_lt hcut]
    omega
  · obtain ⟨m, rfl⟩ := hdvd
    have hgeometry := h.geometry
    rw [htotal, setupExtent_capacity, show 8 * (64 * m) = 512 * m by omega] at hgeometry
    exact cylinders_ne c (by omega) (by omega : 512 * m % 2 ^ c = m)

end

/-- The device of the module. -/
theorem nsectors_never : ¬ ExtentsAgree .w32 16 NSECTORS :=
  (extents_never .w32 16 (by decide : 0 < NSECTORS) (by decide) (by decide)).2.2

/-- The geometry of the module's device of 1024 sectors is that of a disk of 524288. -/
theorem nsectors_geometry :
    (vmemDiskGetgeo .w32 16 (setupExtent NSECTORS).size).2.total = 524288 ∧
      (setupExtent NSECTORS).capacity = 1024 ∧ ¬ ExtentsAgree .w32 16 NSECTORS := by
  have htotal : (vmemDiskGetgeo .w32 16 (setupExtent NSECTORS).size).2.total = 524288 := by decide
  refine ⟨htotal, by decide, fun h => ?_⟩
  have hgeometry := h.geometry
  rw [htotal] at hgeometry
  exact absurd hgeometry (by decide)

end LinuxTraining.VmemDisk
