import LinuxTraining.Globalmem.Multi
import LinuxTraining.Globalmem.Mutex

/-!
# The edges of the device

What the globalmem operations do with the values that only a system call from outside the usual
range passes them: offsets far from the device, positions past its end, and user copies that fault.
The three drivers have the same operations (`Driver.fops_eq`), so each question is settled once, on
the bodies. A seek from the start and a position are cut to 32 bits before they are compared with
`GLOBALMEM_SIZE`, and `memLlseek_exact_iff` and `keepsTo_iff` say for which arguments that
makes a difference. A failing call keeps the cursor, but a failing write has already stored the
bytes that its copy moved (`memWrite_of_fault`).
-/

namespace LinuxTraining.Globalmem

open Lib

/-- The drivers of globalmem. -/
inductive Driver
  | ch6
  | multi
  | ch7

/-- `globalmem_fops` of a driver, for calls that run alone. -/
def Driver.fops (W : LongWidth) : Driver → FileOperations
  | .ch6 => Ch6.globalmemFops W
  | .multi => Multi.globalmemFops W
  | .ch7 => Ch7.globalmemFops W

/-- The three drivers have the same operations. -/
theorem Driver.fops_eq (W : LongWidth) (d : Driver) : d.fops W = Ch6.globalmemFops W := by
  cases d <;> rfl

/-- `GLOBALMEM_SIZE`, the same in the three drivers. -/
abbrev GLOBALMEM_SIZE : Nat := Ch6.GLOBALMEM_SIZE

/-- A transfer within the device fits in an `int`. -/
theorem GLOBALMEM_SIZE_lt : GLOBALMEM_SIZE < 2 ^ 31 := by decide

/-! ## Seeks -/

/-- Where a seek means to go: the origins other than the start and the cursor have no meaning. -/
def seekTarget (fPos offset orig : Int) : Option Int :=
  if orig = 0 then some offset else if orig = 1 then some (fPos + offset) else none

/-- A seek over exact integers: a target in a device of `cap` bytes is returned and becomes the
cursor, and everything else is refused. -/
def exactSeek (cap : Nat) (fPos offset orig : Int) : Int × Int :=
  match seekTarget fPos offset orig with
  | some target => if 0 ≤ target ∧ target ≤ cap then (target, target) else (-EINVAL, fPos)
  | none => (-EINVAL, fPos)

section
variable {cap : Nat} {fPos offset orig : Int}

/-- A seek from the start is exact until the cast of its offset brings it back into the device. -/
theorem memLlseek_start_iff (hcap : cap < 2 ^ 32) :
    memLlseek cap fPos offset 0 = exactSeek cap fPos offset 0 ↔
      offset < 2 ^ 32 ∨ (cap : Int) < offset % 2 ^ 32 := by
  unfold memLlseek exactSeek
  simp only [seekTarget, if_true]
  rcases Int.lt_or_le offset 0 with hneg | hnonneg
  · rw [if_pos hneg, if_neg (by omega)]
    exact iff_of_true rfl (.inl (by omega))
  · obtain ⟨n, rfl⟩ := Int.eq_ofNat_of_zero_le hnonneg
    rw [if_neg (by omega), toUnsigned_natCast]
    by_cases hlow : cap < n % 2 ^ 32
    · -- refused, and rightly: the offset is no smaller than its residue
      have hle := Nat.mod_le n (2 ^ 32)
      rw [if_pos hlow, if_neg (by omega)]
      exact iff_of_true rfl (.inr (by omega))
    · rw [if_neg hlow]
      rcases Nat.lt_or_ge n (2 ^ 32) with hsmall | hbig
      · rw [Nat.mod_eq_of_lt hsmall] at hlow ⊢
        rw [if_pos (by omega)]
        exact iff_of_true rfl (.inl (by omega))
      · -- accepted, at the residue, although the offset is past the device
        rw [if_neg (by omega)]
        refine iff_of_false (fun h => ?_) (by omega)
        have hret := congrArg Prod.fst h
        simp only [EINVAL] at hret
        omega

/-- A seek from the cursor is exact: a sum that wraps is negative, and refused as such. -/
theorem memLlseek_cursor (hcap : cap < 2 ^ 31) (hpos : 0 ≤ fPos ∧ fPos ≤ cap)
    (hoffset : -2 ^ 63 ≤ offset ∧ offset < 2 ^ 63) :
    memLlseek cap fPos offset 1 = exactSeek cap fPos offset 1 := by
  unfold memLlseek exactSeek
  simp only [seekTarget, show ¬ (1 : Int) = 0 by decide, if_false, if_true]
  rcases Int.lt_or_le (fPos + offset) (2 ^ 63) with hsum | hsum
  · rw [toSigned_of_range (by omega) hsum]
    rcases Int.lt_or_le (cap : Int) (fPos + offset) with hbig | hbig
    · rw [if_pos hbig, if_neg (by omega)]
    · rw [if_neg (Int.not_lt.2 hbig)]
      rcases Int.lt_or_le (fPos + offset) 0 with hneg | hneg
      · rw [if_pos hneg, if_neg (by omega)]
      · rw [if_neg (Int.not_lt.2 hneg), if_pos (by omega)]
  · have hwrap : toSigned 64 (fPos + offset) < 0 := toSigned_of_overflow hsum (by omega)
    rw [if_neg (by omega), if_pos hwrap, if_neg (by omega)]

/-- Any other origin is refused. -/
theorem memLlseek_other (h0 : orig ≠ 0) (h1 : orig ≠ 1) :
    memLlseek cap fPos offset orig = exactSeek cap fPos offset orig := by
  simp [memLlseek, exactSeek, seekTarget, h0, h1]

/-- When the 32-bit cast in a seek makes no difference. -/
theorem memLlseek_exact_iff (hcap : cap < 2 ^ 31) (hpos : 0 ≤ fPos ∧ fPos ≤ cap)
    (hoffset : -2 ^ 63 ≤ offset ∧ offset < 2 ^ 63) :
    memLlseek cap fPos offset orig = exactSeek cap fPos offset orig ↔
      orig ≠ 0 ∨ offset < 2 ^ 32 ∨ (cap : Int) < offset % 2 ^ 32 := by
  rcases eq_or_ne orig 0 with rfl | h0
  · rw [memLlseek_start_iff (by omega)]
    simp
  · refine iff_of_true ?_ (.inl h0)
    rcases eq_or_ne orig 1 with rfl | h1
    · exact memLlseek_cursor hcap hpos hoffset
    · exact memLlseek_other h0 h1

end

/-- **`globalmem_llseek` is exact, except for the offsets from the start whose low 32 bits name a
position in the device that the offset itself does not.** -/
theorem globalmem_llseek_exact_iff (d : Driver) (W : LongWidth) {fPos offset : Int} (orig : Int)
    (hpos : 0 ≤ fPos ∧ fPos ≤ GLOBALMEM_SIZE) (hoffset : -2 ^ 63 ≤ offset ∧ offset < 2 ^ 63) :
    (d.fops W).llseek fPos offset orig = exactSeek GLOBALMEM_SIZE fPos offset orig ↔
      orig ≠ 0 ∨ offset < 2 ^ 32 ∨ (GLOBALMEM_SIZE : Int) < offset % 2 ^ 32 := by
  rw [d.fops_eq]
  exact memLlseek_exact_iff GLOBALMEM_SIZE_lt hpos hoffset

theorem llseek_exact_last :
    (Driver.ch7.fops .w32).llseek 4095 1 1 = exactSeek GLOBALMEM_SIZE 4095 1 1 :=
  (globalmem_llseek_exact_iff .ch7 .w32 1 (by decide) (by decide)).2 (.inl (by decide))

/-- A seek to 4 GiB from the start rewinds the file instead of failing. -/
theorem llseek_four_gib :
    (Driver.ch6.fops .w32).llseek 7 (2 ^ 32) 0 = (0, 0) ∧
      exactSeek GLOBALMEM_SIZE 7 (2 ^ 32) 0 = (-EINVAL, 7) := by
  decide

/-! ## Positions past the end -/

/-- A read at `ppos` keeps to a device of `cap` bytes: past the end it delivers nothing and moves
nothing, however its user copy would behave, and within it, unless the copy faults, it delivers the
bytes that are there and were asked for. -/
def ReadKeepsTo (cap : Nat) (read : (size : Nat) → (ppos : Int) → Option Fault → ReadResult)
    (mem : Mem Byte) (size ppos : Nat) : Prop :=
  if cap ≤ ppos then ∀ limit, read size ppos limit = ⟨0, [], ppos⟩
  else read size ppos none =
    ⟨span cap size ppos, mem.slice ppos (span cap size ppos), ppos + span cap size ppos⟩

/-- A write at `ppos` keeps to a device of `cap` bytes, in the same sense. -/
def WriteKeepsTo (cap : Nat)
    (write : (buf : Mem Byte) → (size : Nat) → (ppos : Int) → Option Fault → WriteResult)
    (mem buf : Mem Byte) (size ppos : Nat) : Prop :=
  if cap ≤ ppos then ∀ limit, write buf size ppos limit = ⟨0, mem, ppos⟩
  else write buf size ppos none =
    ⟨span cap size ppos, mem.store ppos (buf.slice 0 (span cap size ppos)),
      ppos + span cap size ppos⟩

/-- The narrowing of a position to `unsigned long` does not bring it back into the device, or
nothing is to be transferred there. -/
def NarrowingHarmless (W : LongWidth) (cap size ppos : Nat) : Prop :=
  ppos < 2 ^ W.bits ∨ cap ≤ ppos % 2 ^ W.bits ∨ size = 0

section
variable {W : LongWidth} {cap size ppos : Nat} {mem buf : Mem Byte}

/-- The clamp of the count, in a device of less than 2 GiB. -/
theorem clamp_lt {p : Nat} (hcap : cap < 2 ^ 31) (hp : p < cap) :
    clamp W cap size p = span cap (size % 2 ^ 32) p := by
  have h := clamp_eq (W := W) hcap (Nat.mod_lt size (by decide : 0 < 2 ^ 32)) hp
  rwa [clamp, Nat.mod_mod] at h

/-- With nothing asked for, the clamp leaves nothing. -/
theorem clamp_zero {p : Nat} (hcap : cap < 2 ^ 31) (hp : p < cap) : clamp W cap 0 p = 0 := by
  rw [clamp_lt hcap hp, span, Nat.zero_mod, Nat.zero_min]

/-- A read of nothing delivers and moves nothing, wherever it is. -/
theorem memRead_zero (hcap : cap < 2 ^ 31) (hppos : ppos < 2 ^ 63) (limit : Option Fault) :
    memRead W cap mem 0 ppos limit = ⟨0, [], ppos⟩ := by
  by_cases hp : cap ≤ toUnsigned W.bits ppos
  · exact memRead_of_ge hp
  · have hcopied : copied limit 0 = 0 := Nat.le_zero.1 (copied_le limit 0)
    have hkeep : toSigned 64 (ppos : Int) = ppos := toSigned_of_range (by omega) (by omega)
    rw [memRead_of_lt hp (clamp_zero hcap (by omega)), hcopied, if_neg (by decide)]
    simp only [Nat.cast_zero, Int.add_zero, hkeep]
    rfl

/-- A write of nothing stores and moves nothing, wherever it is. -/
theorem memWrite_zero (hcap : cap < 2 ^ 31) (hppos : ppos < 2 ^ 63) (limit : Option Fault) :
    memWrite W cap mem buf 0 ppos limit = ⟨0, mem, ppos⟩ := by
  by_cases hp : cap ≤ toUnsigned W.bits ppos
  · exact memWrite_of_ge hp
  · have hcopied : copied limit 0 = 0 := Nat.le_zero.1 (copied_le limit 0)
    have hkeep : toSigned 64 (ppos : Int) = ppos := toSigned_of_range (by omega) (by omega)
    rw [memWrite_of_lt hp (clamp_zero hcap (by omega)), hcopied, if_neg (by decide)]
    simp only [Nat.cast_zero, Int.add_zero, hkeep, Mem.slice_zero, Mem.store_nil]
    rfl

/-- At a position in the device, something asked for is something to report. -/
theorem toSigned_clamp_ne_zero {p : Nat} (hcap : cap < 2 ^ 31) (hsize : size < 2 ^ 32)
    (hp : p < cap) (h0 : size ≠ 0) : toSigned 32 (clamp W cap size p) ≠ 0 := by
  rw [clamp_eq hcap hsize hp, (toSigned_span hcap (Nat.le_of_lt hp)).1]
  unfold span
  omega

/-- A position that the narrowing brings back into the device makes a read deliver bytes. -/
theorem memRead_aliased (hcap : cap < 2 ^ 31) (hsize : size < 2 ^ 32)
    (hp : ¬ cap ≤ toUnsigned W.bits ppos) (h0 : size ≠ 0) :
    (memRead W cap mem size ppos none).ret ≠ 0 := by
  have hret := toSigned_clamp_ne_zero (W := W) hcap hsize (Nat.not_le.1 hp) h0
  rw [memRead_of_lt hp rfl, copied_none, if_neg (not_not.2 (Nat.sub_self _))]
  dsimp only
  exact hret

/-- A position that the narrowing brings back into the device makes a write store bytes. -/
theorem memWrite_aliased (hcap : cap < 2 ^ 31) (hsize : size < 2 ^ 32)
    (hp : ¬ cap ≤ toUnsigned W.bits ppos) (h0 : size ≠ 0) :
    (memWrite W cap mem buf size ppos none).ret ≠ 0 := by
  have hret := toSigned_clamp_ne_zero (W := W) hcap hsize (Nat.not_le.1 hp) h0
  rw [memWrite_of_lt hp rfl, copied_none, if_neg (not_not.2 (Nat.sub_self _))]
  dsimp only
  exact hret

/-- How an operation keeps to the device, from what it does past the end, with nothing to do, and
at an aliased position. -/
theorem keepsTo_iff {past within : Prop} (hend : cap ≤ toUnsigned W.bits ppos → past)
    (hzero : size = 0 → past) (halias : ¬ cap ≤ toUnsigned W.bits ppos → size ≠ 0 → ¬ past)
    (hcap : cap < 2 ^ 32) (hwithin : ppos < cap → within) :
    (if cap ≤ ppos then past else within) ↔ NarrowingHarmless W cap size ppos := by
  have hW := W.two_pow_le
  have hnarrow := toUnsigned_natCast W.bits ppos
  unfold NarrowingHarmless
  split
  · next hge =>
    by_cases hp : cap ≤ toUnsigned W.bits ppos
    · exact iff_of_true (hend hp) (.inr (.inl (hnarrow ▸ hp)))
    · by_cases h0 : size = 0
      · exact iff_of_true (hzero h0) (.inr (.inr h0))
      · refine iff_of_false (halias hp h0) ?_
        rintro (hlt | hlow | h0')
        · rw [hnarrow, Nat.mod_eq_of_lt hlt] at hp
          exact hp hge
        · exact hp (hnarrow ▸ hlow)
        · exact h0 h0'
  · next hlt => exact iff_of_true (hwithin (by omega)) (.inl (by omega))

/-- When a read keeps to the device. -/
theorem memRead_keepsTo_iff (hcap : cap < 2 ^ 31) (hsize : size < 2 ^ 32) (hppos : ppos < 2 ^ 63) :
    ReadKeepsTo cap (memRead W cap mem) mem size ppos ↔ NarrowingHarmless W cap size ppos := by
  refine keepsTo_iff (fun hp _ => memRead_of_ge hp) (fun h0 => ?_) (fun hp h0 hpast => ?_)
    (by omega) fun hlt => memRead_of_le hcap hsize (by omega)
  · subst h0
    exact memRead_zero hcap hppos
  · exact memRead_aliased hcap hsize hp h0 (congrArg ReadResult.ret (hpast none))

/-- When a write keeps to the device. -/
theorem memWrite_keepsTo_iff (hcap : cap < 2 ^ 31) (hsize : size < 2 ^ 32)
    (hppos : ppos < 2 ^ 63) :
    WriteKeepsTo cap (memWrite W cap mem) mem buf size ppos ↔
      NarrowingHarmless W cap size ppos := by
  refine keepsTo_iff (fun hp _ => memWrite_of_ge hp) (fun h0 => ?_) (fun hp h0 hpast => ?_)
    (by omega) fun hlt => memWrite_of_le hcap hsize (by omega)
  · subst h0
    exact memWrite_zero hcap hppos
  · exact memWrite_aliased hcap hsize hp h0 (congrArg WriteResult.ret (hpast none))

end

/-- **Reads and writes respect the end of the device, except at the positions that the narrowing to
`unsigned long` brings back into it.** -/
theorem globalmem_keepsTo_iff (d : Driver) (W : LongWidth) (mem buf : Mem Byte) {size ppos : Nat}
    (hsize : size ≤ MAX_RW_COUNT) (hppos : ppos < 2 ^ 63) :
    (ReadKeepsTo GLOBALMEM_SIZE ((d.fops W).read mem) mem size ppos ↔
      NarrowingHarmless W GLOBALMEM_SIZE size ppos) ∧
    (WriteKeepsTo GLOBALMEM_SIZE ((d.fops W).write mem) mem buf size ppos ↔
      NarrowingHarmless W GLOBALMEM_SIZE size ppos) := by
  rw [d.fops_eq]
  unfold MAX_RW_COUNT at hsize
  exact ⟨memRead_keepsTo_iff GLOBALMEM_SIZE_lt (by omega) hppos,
    memWrite_keepsTo_iff GLOBALMEM_SIZE_lt (by omega) hppos⟩

theorem keepsTo_four_gib :
    (ReadKeepsTo GLOBALMEM_SIZE ((Driver.ch6.fops .w64).read fun _ => 7) (fun _ => 7) 1 (2 ^ 32) ↔
      NarrowingHarmless .w64 GLOBALMEM_SIZE 1 (2 ^ 32)) ∧
    (WriteKeepsTo GLOBALMEM_SIZE ((Driver.ch6.fops .w64).write fun _ => 7) (fun _ => 7)
      (fun _ => 0) 1 (2 ^ 32) ↔ NarrowingHarmless .w64 GLOBALMEM_SIZE 1 (2 ^ 32)) :=
  globalmem_keepsTo_iff .ch6 .w64 _ _ (by decide) (by decide)

/-- With a 32-bit `unsigned long`, a write at 4 GiB lands on the first byte of the device. -/
theorem write_four_gib :
    ¬ WriteKeepsTo GLOBALMEM_SIZE ((Driver.ch6.fops .w32).write fun _ => 0) (fun _ => 0)
      (fun _ => 7) 1 (2 ^ 32) ∧
    ((Driver.ch6.fops .w32).write (fun _ => 0) (fun _ => 7) 1 (2 ^ 32) none).mem 0 = 7 := by
  refine ⟨fun h => ?_, by decide⟩
  have hret := congrArg WriteResult.ret (h none)
  exact absurd hret (by decide)

/-! ## Calls that fail -/

/-- What a write of `n` bytes at `p` leaves of the memory when its copy stops short: at most these
bytes are new, the first of them are those that the copy moved before it faulted, and the others are
what `copy_from_user` leaves in their place. -/
structure Torn (mem buf : Mem Byte) (limit : Option Fault) (p n : Nat) (after : Mem Byte) :
    Prop where
  short : copied limit n < n
  outside : ∀ a, a < p ∨ p + n ≤ a → after a = mem a
  moved : after.slice p (copied limit n) = buf.slice 0 (copied limit n)
  rest : after.slice (p + copied limit n) (n - copied limit n) = leftover limit n

/-- What a failing call leaves: the cursor where it was, and the device memory but for the bytes
that a write was to store. -/
structure FailureLeaves (W : LongWidth) (mem : Mem Byte) (fPos : Int) (op : FileOp)
    (after : Mem Byte × Int) : Prop where
  cursor : after.2 = fPos
  /-- Only a write can leave the memory changed. -/
  unchanged : (∀ buf size limit, op ≠ .write buf size limit) → after.1 = mem
  /-- A failing write is torn at the position as an `unsigned long`. -/
  torn : ∀ buf size limit, op = .write buf size limit →
    Torn mem buf limit (toUnsigned W.bits fPos)
      (span GLOBALMEM_SIZE (size % 2 ^ 32) (toUnsigned W.bits fPos)) after.1

section
variable {W : LongWidth} {cap size : Nat} {ppos : Int} {mem buf : Mem Byte} {limit : Option Fault}

/-- A read that returns an error has not moved the cursor. -/
theorem memRead_of_fault (hcap : cap < 2 ^ 31) (h : (memRead W cap mem size ppos limit).ret < 0) :
    (memRead W cap mem size ppos limit).ppos = ppos := by
  by_cases hp : cap ≤ toUnsigned W.bits ppos
  · rw [memRead_of_ge hp]
  · have hn : clamp W cap size _ = _ := clamp_lt hcap (Nat.not_le.1 hp)
    rw [memRead_of_lt hp hn] at h ⊢
    split at h
    · next hleft => rw [if_pos hleft]
    · rw [(toSigned_span hcap (by omega)).1] at h
      dsimp only at h
      omega

/-- A store of what a faulting copy leaves. -/
theorem torn_store {p n : Nat} (h : copied limit n < n) :
    Torn mem buf limit p n (mem.store p (buf.slice 0 (copied limit n) ++ leftover limit n)) := by
  have hlen : (buf.slice 0 (copied limit n) ++ leftover limit n).length = n := by
    rw [List.length_append, Mem.length_slice, length_leftover]
    omega
  have hself := mem.slice_store_self p (buf.slice 0 (copied limit n) ++ leftover limit n)
  rw [hlen] at hself
  refine ⟨h, fun a ha => ?_, ?_, ?_⟩
  · rcases ha with hlt | hge
    · exact Mem.store_of_lt mem _ hlt
    · exact Mem.store_of_ge mem _ (by rwa [hlen])
  · rw [← Mem.take_slice _ _ (Nat.le_of_lt h), hself, List.take_left' (Mem.length_slice ..)]
  · rw [← Mem.drop_slice _ _ (Nat.le_of_lt h), hself, List.drop_left' (Mem.length_slice ..)]

/-- A write that returns an error has not moved the cursor, but has torn the memory. -/
theorem memWrite_of_fault (hcap : cap < 2 ^ 31)
    (h : (memWrite W cap mem buf size ppos limit).ret < 0) :
    (memWrite W cap mem buf size ppos limit).ppos = ppos ∧
      Torn mem buf limit (toUnsigned W.bits ppos)
        (span cap (size % 2 ^ 32) (toUnsigned W.bits ppos))
        (memWrite W cap mem buf size ppos limit).mem := by
  by_cases hp : cap ≤ toUnsigned W.bits ppos
  · rw [memWrite_of_ge hp] at h
    exact absurd h (by simp)
  · have hn : clamp W cap size _ = _ := clamp_lt hcap (Nat.not_le.1 hp)
    rw [memWrite_of_lt hp hn] at h ⊢
    split at h
    · next hleft =>
      rw [if_pos hleft]
      exact ⟨rfl, torn_store (by omega)⟩
    · rw [(toSigned_span hcap (by omega)).1] at h
      dsimp only at h
      omega

end

/-- **A call that fails leaves the cursor, and the device but for the bytes that a write was to
store**: of these a proper prefix is stored, and `copy_from_user` overwrites the rest. -/
theorem globalmem_failure_leaves (d : Driver) (W : LongWidth) (mem : Mem Byte) (fPos : Int)
    (op : FileOp) (h : ((d.fops W).call mem fPos op).1.ret < 0) :
    FailureLeaves W mem fPos op ((d.fops W).call mem fPos op).2 := by
  rw [d.fops_eq] at h ⊢
  cases op with
  | read size limit =>
    exact ⟨memRead_of_fault GLOBALMEM_SIZE_lt h, fun _ => rfl, fun _ _ _ heq => (nomatch heq)⟩
  | write buf size limit =>
    have hfault := memWrite_of_fault GLOBALMEM_SIZE_lt h
    refine ⟨hfault.1, fun hne => absurd rfl (hne buf size limit), fun _ _ _ heq => ?_⟩
    cases heq
    exact hfault.2
  | llseek offset orig =>
    refine ⟨?_, fun _ => rfl, fun _ _ _ heq => (nomatch heq)⟩
    rcases @memLlseek_cases Ch6.GLOBALMEM_SIZE fPos offset orig with hfail | ⟨p, -, hseek⟩
    · exact congrArg Prod.snd hfail
    · have hret : (memLlseek Ch6.GLOBALMEM_SIZE fPos offset orig).1 < 0 := h
      rw [hseek] at hret
      exact absurd hret (by simp)
  | ioctl cmd =>
    refine ⟨rfl, fun _ => ?_, fun _ _ _ heq => (nomatch heq)⟩
    have hret : (memIoctl Ch6.GLOBALMEM_SIZE mem cmd).1 < 0 := h
    show (memIoctl Ch6.GLOBALMEM_SIZE mem cmd).2 = mem
    unfold memIoctl at hret ⊢
    split at hret
    · exact absurd hret (by simp)
    · next hcmd => rw [if_neg hcmd]

/-- A write of two bytes whose copy faults after the first; the other is padded with zero. -/
def tornWrite : FileOp := .write (fun _ => 7) 2 (some ⟨1, fun _ => 0⟩)

theorem tornWrite_leaves : FailureLeaves .w32 (fun _ => 0) 0 tornWrite
    ((Driver.ch7.fops .w32).call (fun _ => 0) 0 tornWrite).2 :=
  globalmem_failure_leaves .ch7 .w32 (fun _ => 0) 0 tornWrite (by decide)

/-- It fails, and its first byte is in the device. -/
theorem tornWrite_changes :
    ((Driver.ch7.fops .w32).call (fun _ => 0) 0 tornWrite).1.ret = -EFAULT ∧
      ((Driver.ch7.fops .w32).call (fun _ => 0) 0 tornWrite).2.1 ≠ fun _ => 0 := by
  refine ⟨by decide, fun h => ?_⟩
  exact absurd (congrFun h 0) (by decide)

end LinuxTraining.Globalmem
