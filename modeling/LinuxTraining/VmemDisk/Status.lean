import LinuxTraining.VmemDisk.Guard
import LinuxTraining.VmemDisk.Request

/-!
# What the completion of a bio reports

`vmem_disk_transfer` returns `void`, `vmem_disk_xfer_bio` returns 0, and `vmem_disk_request` does
not even look at that. `Shape.calls` lists the transfers that the loop asks for, one for each
segment, with the place on the disk where the segment belongs; it depends on nothing but the shape
of the bio (`vmemDiskXferBio_calls`). `Shape.Whole` are the bios whose segments are all moved in
full to their places (`inFull_iff_whole`), and `status_honest_iff` is the answer for both request
modes: the status, always 0, is right for these and for no others.
-/

namespace LinuxTraining.VmemDisk

open Lib

/-- A call of `vmem_disk_transfer` for one segment: the length of the segment, where on the disk its
bytes belong, and the arguments. -/
structure SegmentCall where
  len : Nat
  place : Nat
  sector : Nat
  nsect : Nat

section
variable (W : LongWidth)

/-- The calls that the loop of `vmem_disk_xfer_bio` makes for segments of the lengths `lens`. -/
def segmentCalls (cur sector place : Nat) : List Nat → List SegmentCall
  | [] => []
  | len :: lens =>
    ⟨len, place, sector % 2 ^ W.bits, cur >>> 9⟩ ::
      segmentCalls cur (uadd 64 sector (cur >>> 9)) (place + len) lens

/-- The calls that `vmem_disk_xfer_bio` makes for a bio. -/
def Shape.calls (sh : Shape) : List SegmentCall :=
  segmentCalls W (sh.lens.headD 0) sh.sector (512 * sh.sector) sh.lens

/-- The transfers of a list of calls, one for each segment. -/
def transferCalls (write : Bool) (data : Mem Byte) :
    List (SegmentCall × Segment) → Mem Byte × List Segment
  | [] => (data, [])
  | (c, s) :: rest =>
    let m := vmemDiskTransfer W data c.sector c.nsect s.page write
    let m' := transferCalls write m.1 rest
    (m'.1, { s with page := m.2 } :: m'.2)

/-- `vmem_disk_transfer` refused the call. -/
def SegmentCall.Refused (c : SegmentCall) : Prop := Refuses W c.sector c.nsect

/-- The call was not refused, and what it copied includes all bytes of the segment, at their place
on the disk. -/
structure SegmentCall.InFull (c : SegmentCall) : Prop where
  passed : ¬ c.Refused W
  place : umul W.bits c.sector KERNEL_SECTOR_SIZE = c.place
  onDisk : c.place + c.len ≤ devSize
  length : c.len ≤ umul W.bits c.nsect KERNEL_SECTOR_SIZE

/-- A status tells the truth about bios: it is 0 if and only if all their segments were transferred
in full, and an error if and only if one of them was refused. -/
structure Honest (shapes : List Shape) (status : Int) : Prop where
  success : status = 0 ↔ ∀ sh ∈ shapes, ∀ c ∈ sh.calls W, c.InFull W
  error : status ≠ 0 ↔ ∃ sh ∈ shapes, ∃ c ∈ sh.calls W, c.Refused W

end

/-- All segments but the last are as long as the first, in whole sectors, the last is no longer, and
as many segments of that length fit on the disk. -/
structure Shape.Whole (sh : Shape) : Prop where
  sectors : 512 ∣ sh.lens.headD 0
  even : ∀ l ∈ sh.lens.dropLast, l = sh.lens.headD 0
  last : ∀ l ∈ sh.lens, l ≤ sh.lens.headD 0
  fits : sh.lens ≠ [] → 512 * sh.sector + sh.lens.length * sh.lens.headD 0 ≤ devSize

/-! ## The calls are those of the loop -/

section
variable {W : LongWidth} {data : Mem Byte} {cur sector place n : Nat} {write : Bool}

/-- The loop of `vmem_disk_xfer_bio` transfers each segment by its call. -/
theorem xferSegments_calls (place : Nat) (segs : List Segment) :
    xferSegments W cur write sector data segs =
      transferCalls W write data
        ((segmentCalls W cur sector place (segs.map (·.len))).zip segs) := by
  induction segs generalizing sector place data with
  | nil => rfl
  | cons s segs ih =>
    rw [xferSegments, List.map_cons, segmentCalls, List.zip_cons_cons, transferCalls,
      ih (place + s.len)]

/-- `vmem_disk_xfer_bio` makes the calls of the bio's shape, and reports 0. -/
theorem vmemDiskXferBio_calls (W : LongWidth) (b : Bio) (data : Mem Byte) :
    vmemDiskXferBio W b data =
      (0, transferCalls W b.write data ((b.shape.calls W).zip b.segs)) := by
  rw [vmemDiskXferBio, xferSegments_calls (512 * b.sector)]
  rfl

/-- A segment moved in full: a write stores its bytes at their place, and a read fills it from
there. -/
theorem vmemDiskTransfer_of_inFull {c : SegmentCall} (h : c.InFull W) (buffer : Mem Byte) :
    (vmemDiskTransfer W data c.sector c.nsect buffer true).1.slice c.place c.len =
        buffer.slice 0 c.len ∧
      (vmemDiskTransfer W data c.sector c.nsect buffer false).2.slice 0 c.len =
        data.slice c.place c.len := by
  rw [vmemDiskTransfer_of_not_refuses h.passed, vmemDiskTransfer_of_not_refuses h.passed, h.place,
    if_pos rfl, if_neg Bool.false_ne_true]
  have hlen := h.length
  constructor
  · refine Mem.slice_congr fun i hi => ?_
    dsimp only
    rw [Mem.store_slice_apply, if_pos (by omega), Nat.add_sub_cancel_left]
  · refine Mem.slice_congr fun i hi => ?_
    dsimp only
    rw [Mem.store_slice_apply, if_pos (by omega), Nat.zero_add, Nat.sub_zero]

/-! ## Which bios are moved in full -/

/-- What it takes for a call to move its segment in full, over sectors. -/
theorem inFull_iff_mod {len : Nat} : (⟨len, place, sector, n⟩ : SegmentCall).InFull W ↔
    (sector + n) % sectorWrap W ≤ 1024 ∧ 512 * (sector % sectorWrap W) = place ∧
      place + len ≤ devSize ∧ len ≤ 512 * (n % sectorWrap W) := by
  rw [← Nat.not_lt, ← refuses_iff, ← umul_sector, ← umul_sector]
  exact ⟨fun h => ⟨h.passed, h.place, h.onDisk, h.length⟩,
    fun ⟨hpassed, hplace, honDisk, hlength⟩ => ⟨hpassed, hplace, honDisk, hlength⟩⟩

/-- A call for a sector that is on the disk, and for no more sectors than it has. -/
theorem inFull_iff {len : Nat} (hs : sector ≤ 1024) (hn : n ≤ 1024) :
    (⟨len, place, sector % 2 ^ W.bits, n⟩ : SegmentCall).InFull W ↔
      place = 512 * sector ∧ len ≤ 512 * n ∧ sector + n ≤ 1024 := by
  have hsize : devSize = 512 * 1024 := rfl
  have hwrap := sectorWrap_ge W
  rw [Nat.mod_eq_of_lt (show sector < 2 ^ W.bits by rw [two_pow_bits]; omega), inFull_iff_mod,
    Nat.mod_eq_of_lt (show sector + n < sectorWrap W by omega),
    Nat.mod_eq_of_lt (show sector < sectorWrap W by omega),
    Nat.mod_eq_of_lt (show n < sectorWrap W by omega)]
  omega

/-- The first call of a bio that is moved in full bounds the sector and the length. -/
theorem first_inFull {len : Nat} (h :
    (⟨len, 512 * sector, sector % 2 ^ W.bits, len >>> 9⟩ : SegmentCall).InFull W) :
    sector ≤ 1024 ∧ ∃ n ≤ 1024, len = 512 * n := by
  have hsize : devSize = 512 * 1024 := rfl
  obtain ⟨-, -, honDisk, hlen⟩ := inFull_iff_mod.1 h
  have hmod := Nat.mod_le (len >>> 9) (sectorWrap W)
  rw [Nat.shiftRight_eq_div_pow] at hlen hmod
  exact ⟨by omega, len / 512, by omega, by omega⟩

/-- The calls of a list of segments that are taken to have `n` sectors each. -/
theorem segmentCalls_inFull_iff (hs : sector ≤ 1024) (hn : n ≤ 1024) (len : Nat)
    (lens : List Nat) :
    (∀ c ∈ segmentCalls W (512 * n) sector (512 * sector) (len :: lens), c.InFull W) ↔
      (∀ l ∈ (len :: lens).dropLast, l = 512 * n) ∧ (∀ l ∈ len :: lens, l ≤ 512 * n) ∧
        sector + (lens.length + 1) * n ≤ 1024 := by
  induction lens generalizing sector len with
  | nil => simp [segmentCalls, shiftRight_mul, inFull_iff hs hn]
  | cons len' lens ih =>
    have hnext : uadd 64 sector ((512 * n) >>> 9) = sector + n := by
      rw [shiftRight_mul, uadd_of_lt (by omega)]
    have hmul : (lens.length + 1 + 1) * n = n + (lens.length + 1) * n := by
      rw [Nat.succ_mul, Nat.add_comm]
    rw [segmentCalls, List.forall_mem_cons, hnext, shiftRight_mul, List.dropLast_cons_cons,
      List.forall_mem_cons, List.forall_mem_cons, List.length_cons, hmul]
    constructor
    · -- the next call is at its place only if this segment has the length it is taken to have
      rintro ⟨hhead, hrest⟩
      obtain ⟨-, hle, hfits⟩ := (inFull_iff hs hn).1 hhead
      have hfirst := hrest _ (.head _)
      rw [shiftRight_mul, inFull_iff hfits hn] at hfirst
      have hlen : len = 512 * n := by omega
      subst hlen
      rw [← Nat.mul_add, ih hfits] at hrest
      exact ⟨⟨rfl, hrest.1⟩, ⟨hle, hrest.2.1⟩, by omega⟩
    · rintro ⟨⟨hlen, heven⟩, ⟨hle, hlast⟩, hfits⟩
      subst hlen
      rw [← Nat.mul_add, ih (by omega)]
      exact ⟨(inFull_iff hs hn).2 ⟨rfl, hle, by omega⟩, heven, hlast, by omega⟩

/-- **The bios whose segments are all moved in full.** -/
theorem inFull_iff_whole (W : LongWidth) (sh : Shape) :
    (∀ c ∈ sh.calls W, c.InFull W) ↔ sh.Whole := by
  have hsize : devSize = 512 * 1024 := rfl
  obtain ⟨sector, write, lens⟩ := sh
  unfold Shape.calls
  dsimp only
  cases lens with
  | nil =>
    refine iff_of_true (fun c hc => (nomatch hc)) ⟨?_, ?_, ?_, ?_⟩
    · exact Nat.dvd_zero 512
    · intro l hl
      cases hl
    · intro l hl
      cases hl
    · intro hne
      exact absurd rfl hne
  | cons len lens =>
    rw [List.headD_cons]
    constructor
    · intro h
      obtain ⟨hs, n, hn, rfl⟩ := first_inFull (h _ (.head _))
      obtain ⟨heven, hlast, hfits⟩ := (segmentCalls_inFull_iff hs hn _ lens).1 h
      refine ⟨⟨n, rfl⟩, heven, hlast, fun _ => ?_⟩
      have hmul : (lens.length + 1) * (512 * n) = 512 * ((lens.length + 1) * n) :=
        Nat.mul_left_comm ..
      dsimp only [List.headD_cons, List.length_cons]
      omega
    · rintro ⟨⟨n, hn⟩, heven, hlast, hfits⟩
      simp only [List.headD_cons] at hn heven hlast hfits
      subst hn
      have hmul : (lens.length + 1) * (512 * n) = 512 * ((lens.length + 1) * n) :=
        Nat.mul_left_comm ..
      have hone : (lens.length + 1) * n = lens.length * n + n := Nat.succ_mul ..
      have hend : 512 * sector + (lens.length + 1) * (512 * n) ≤ devSize :=
        hfits (List.cons_ne_nil _ _)
      rw [hmul] at hend
      exact (segmentCalls_inFull_iff (by omega) (by omega) _ lens).2
        ⟨heven, hlast, by omega⟩

/-- The status 0 tells the truth about the bios that are moved in full, and about no others. -/
theorem honest_zero_iff {W : LongWidth} {shapes : List Shape} :
    Honest W shapes 0 ↔ ∀ sh ∈ shapes, sh.Whole := by
  constructor
  · intro h sh hsh
    exact (inFull_iff_whole W sh).1 (h.success.1 rfl sh hsh)
  · intro h
    have hfull : ∀ sh ∈ shapes, ∀ c ∈ sh.calls W, c.InFull W := by
      intro sh hsh
      exact (inFull_iff_whole W sh).2 (h sh hsh)
    refine ⟨iff_of_true rfl hfull, iff_of_false (fun h => h rfl) ?_⟩
    rintro ⟨sh, hsh, c, hc, hrefused⟩
    exact (hfull sh hsh c hc).passed hrefused

/-! ## The completions of the two request modes -/

/-- `vmem_disk_xfer_bio` keeps the shape of a bio. -/
theorem shape_xferSegments (W : LongWidth) (segs : List Segment) :
    ((xferSegments W cur write sector data segs).2).map (·.len) = segs.map (·.len) := by
  induction segs generalizing sector data with
  | nil => rfl
  | cons s segs ih => rw [xferSegments, List.map_cons, List.map_cons, ih]

/-- So do the bios of a request. -/
theorem shape_xferBios (W : LongWidth) (bios : List Bio) :
    (xferBios W data bios).2.map Bio.shape = bios.map Bio.shape := by
  induction bios generalizing data with
  | nil => rfl
  | cons b bios ih =>
    rw [xferBios, List.map_cons, List.map_cons, ih]
    simp only [Bio.shape, vmemDiskXferBio, shape_xferSegments]

/-- The shapes of the bios of a request. -/
def Request.shapes (r : Request) : List Shape := r.bios.map Bio.shape

end

section
variable {W : LongWidth} {m : Module} {s s' : Io}

/-- One round ends one request, a file system's one with 0, and changes none in kind or shape. -/
theorem requestRound_ends (h : requestRound W m s = some s') :
    (∃ r, s'.ended = s.ended ++ [(r, if (s.req r).fs then 0 else - EIO)]) ∧
      ∀ r, (s'.req r).fs = (s.req r).fs ∧ (s'.req r).shapes = (s.req r).shapes := by
  unfold requestRound at h
  split at h
  · cases h
  · next r _ =>
    split at h
    · next hfs =>
      cases h
      refine ⟨⟨r, ?_⟩, fun r' => ?_⟩
      · rw [if_pos hfs]
        rfl
      · simp only [blkEndRequestAll, Io.xferRequest, blkStartRequest, Function.update_apply]
        split
        · next heq =>
          subst heq
          exact ⟨rfl, shape_xferBios W _⟩
        · exact ⟨rfl, rfl⟩
    · next hfs =>
      cases h
      refine ⟨⟨r, ?_⟩, fun r' => ⟨rfl, rfl⟩⟩
      rw [if_neg hfs]
      rfl

/-- The loop ends the file system's requests with 0. -/
theorem vmemDiskRequest_ends {fuel : Nat} (h : vmemDiskRequest W m fuel s = some s') :
    ∃ done, s'.ended = s.ended ++ done ∧ ∀ e ∈ done, (s.req e.1).fs = true → e.2 = 0 := by
  induction fuel generalizing s with
  | zero => cases h
  | succ fuel ih =>
    rw [vmemDiskRequest] at h
    split at h
    · cases h
      exact ⟨[], by simp, fun e he => (List.not_mem_nil he).elim⟩
    · next t ht =>
      obtain ⟨⟨r, hended⟩, hkeep⟩ := requestRound_ends ht
      obtain ⟨done, hdone, hzero⟩ := ih h
      refine ⟨_ :: done, by rw [hdone, hended, List.append_assoc, List.singleton_append], ?_⟩
      intro e he hfs
      rcases List.mem_cons.1 he with rfl | he
      · exact if_pos hfs
      · exact hzero e he (by rw [(hkeep e.1).1, hfs])

end

/-- **The status that a completion reports is the truth about the bios that are moved in full, and
about no others**, in both request modes: the status of each bio that `vmem_disk_make_request`
completes, and that of each of the file system's requests that `vmem_disk_request` ends. -/
theorem status_honest_iff (W : LongWidth) (m : Module) :
    (∀ q d b, ∃ b' status, (vmemDiskMakeRequest W m q d b).endio = d.endio ++ [(b', status)] ∧
      (Honest W [b.shape] status ↔ b.shape.Whole)) ∧
    ∀ fuel s s', vmemDiskRequest W m fuel s = some s' →
      ∃ done, s'.ended = s.ended ++ done ∧ ∀ r error, (r, error) ∈ done → (s.req r).fs = true →
        (Honest W (s.req r).shapes error ↔ ∀ sh ∈ (s.req r).shapes, sh.Whole) := by
  constructor
  · intro q d b
    refine ⟨_, _, rfl, ?_⟩
    rw [vmemDiskXferBio, honest_zero_iff, List.forall_mem_singleton]
  · intro fuel s s' h
    obtain ⟨done, hdone, hzero⟩ := vmemDiskRequest_ends h
    refine ⟨done, hdone, fun r error he hfs => ?_⟩
    have herror : error = 0 := hzero _ he hfs
    rw [herror, honest_zero_iff]

/-- A bio of three sectors at the end of the disk, in segments of two sectors and of one. -/
def unevenTail : Bio := ⟨1021, true, [⟨1024, fun _ => 1⟩, ⟨512, fun _ => 2⟩]⟩

/-- Its second segment is taken to have two sectors, refused, and reported as written. -/
theorem unevenTail_not_honest :
    (∃ c ∈ unevenTail.shape.calls .w32, c.Refused .w32) ∧
      (vmemDiskMakeRequest .w32 unloaded 0 ⟨fun _ _ => 0, []⟩ unevenTail).endio.map (·.2) = [0] ∧
      ¬ Honest .w32 [unevenTail.shape] 0 := by
  have hcall : (⟨512, 512 * 1023, 1023, 2⟩ : SegmentCall) ∈ unevenTail.shape.calls .w32 := by
    simp [unevenTail, Bio.shape, Shape.calls, segmentCalls, LongWidth.bits, uadd]
  have hrefused : SegmentCall.Refused .w32 ⟨512, 512 * 1023, 1023, 2⟩ := by
    unfold SegmentCall.Refused
    decide
  refine ⟨⟨_, hcall, hrefused⟩, rfl, fun h => ?_⟩
  exact h.error.2 ⟨_, .head _, _, hcall, hrefused⟩ rfl

/-- A bio in equal segments. -/
def evenTail : Bio := ⟨1022, true, [⟨512, fun _ => 1⟩, ⟨512, fun _ => 2⟩]⟩

theorem evenTail_honest : ∃ b' status,
    (vmemDiskMakeRequest .w32 unloaded 0 ⟨fun _ _ => 0, []⟩ evenTail).endio = [(b', status)] ∧
      Honest .w32 [evenTail.shape] status := by
  obtain ⟨b', status, hend, hiff⟩ :=
    (status_honest_iff .w32 unloaded).1 0 ⟨fun _ _ => 0, []⟩ evenTail
  refine ⟨b', status, hend, hiff.2 ⟨?_, ?_, ?_, ?_⟩⟩
  · exact ⟨1, rfl⟩
  · decide
  · decide
  · intro _
    decide

end LinuxTraining.VmemDisk
