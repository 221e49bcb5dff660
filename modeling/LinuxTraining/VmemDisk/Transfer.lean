import LinuxTraining.VmemDisk.Disk

/-!
# `vmem_disk.c`: the transfer of a bio

`vmem_disk_xfer_bio` moves every segment of a bio with the length of the first: it asks
`bio_cur_bytes` of the bio, whose own iterator the loop does not advance. `faithful_iff_uniform`:
the disk stores what it is given exactly for bios whose segments all have one length.
-/

namespace LinuxTraining.VmemDisk

open Lib

/-- `KERNEL_SECTOR_SIZE`. -/
def KERNEL_SECTOR_SIZE : Nat := 512

/-- `HARDSECT_SIZE`. -/
def HARDSECT_SIZE : Nat := 512

/-- `NSECTORS`. -/
def NSECTORS : Nat := 1024

/-- `dev->size`, as `setup_device` sets it. -/
def devSize : Nat := NSECTORS * HARDSECT_SIZE

section
variable (W : LongWidth)

/-- `vmem_disk_transfer`: the device data and the buffer. -/
def vmemDiskTransfer (data : Mem Byte) (sector nsect : Nat) (buffer : Mem Byte) (write : Bool) :
    Mem Byte × Mem Byte :=
  let offset := umul W.bits sector KERNEL_SECTOR_SIZE
  let nbytes := umul W.bits nsect KERNEL_SECTOR_SIZE
  if devSize < uadd W.bits offset nbytes then (data, buffer)
  else if write then (data.store offset (buffer.slice 0 nbytes), buffer)
  else (data, buffer.store 0 (data.slice offset nbytes))

/-- The loop of `vmem_disk_xfer_bio`, with `cur` for `bio_cur_bytes(bio)`; `sector` has 64 bits and
is narrowed by the call. -/
def xferSegments (cur : Nat) (write : Bool) (sector : Nat) (data : Mem Byte) :
    List Segment → Mem Byte × List Segment
  | [] => (data, [])
  | s :: segs =>
    let m := vmemDiskTransfer W data (sector % 2 ^ W.bits) (cur >>> 9) s.page write
    let m' := xferSegments cur write (uadd 64 sector (cur >>> 9)) m.1 segs
    (m'.1, { s with page := m.2 } :: m'.2)

/-- `bio_cur_bytes`: the length of the segment at `bio->bi_iter`, which is the first. -/
def bioCurBytes (b : Bio) : Nat := (b.segs.map (·.len)).headD 0

/-- `vmem_disk_xfer_bio`: the status, the device data and the segments. -/
def vmemDiskXferBio (b : Bio) (data : Mem Byte) : Int × Mem Byte × List Segment :=
  (0, xferSegments W (bioCurBytes b) b.write b.sector data b.segs)

/-- The device data after a list of bios. -/
def dataAfter (data : Mem Byte) (bios : List Bio) : Mem Byte :=
  bios.foldl (fun data b => (vmemDiskXferBio W b data).2.1) data

end

/-- The latest byte written at an address by a list of bios, newest first, over the first data. -/
def latest (data : Mem Byte) : List Bio → Mem Byte
  | [], x => data x
  | b :: older, x =>
    if b.write ∧ 512 * b.sector ≤ x ∧ x < 512 * b.sector + b.shape.total then
      (bytesOf b.segs).getD (x - 512 * b.sector) 0
    else latest data older x

/-- Along a list of bios each one does to the disk and to its segments exactly what it is to do,
and a read brings the latest bytes written. -/
structure Faithful (W : LongWidth) (data : Mem Byte) (bios : List Bio) : Prop where
  exact : ∀ pre b post, bios = pre ++ b :: post →
    (vmemDiskXferBio W b (dataAfter W data pre)).2 = b.after (dataAfter W data pre)
  read : ∀ pre b post, bios = pre ++ b :: post → b.write = false →
    bytesOf (vmemDiskXferBio W b (dataAfter W data pre)).2.2 =
      (latest data pre.reverse).slice (512 * b.sector) b.shape.total

/-! ## Transfers in range -/

section
variable {W : LongWidth} {data : Mem Byte} {n sector : Nat} {write : Bool}

/-- A transfer whose bounds do not wrap is refused when it ends past the device. -/
theorem vmemDiskTransfer_of_gt {buffer : Mem Byte} (h : 512 * sector + 512 * n < 2 ^ 32)
    (hgt : devSize < 512 * sector + 512 * n) :
    vmemDiskTransfer W data (sector % 2 ^ W.bits) n buffer write = (data, buffer) := by
  have hW := W.two_pow_le
  rw [vmemDiskTransfer, Nat.mod_eq_of_lt (show sector < 2 ^ W.bits by omega), KERNEL_SECTOR_SIZE,
    umul_of_lt (by omega), umul_of_lt (by omega), uadd_of_lt (by omega), if_pos (by omega)]

/-- A transfer within the device moves its sectors. -/
theorem vmemDiskTransfer_of_le {buffer : Mem Byte} (hle : 512 * sector + 512 * n ≤ devSize) :
    vmemDiskTransfer W data (sector % 2 ^ W.bits) n buffer write =
      if write then (data.store (512 * sector) (buffer.slice 0 (512 * n)), buffer)
      else (data, buffer.store 0 (data.slice (512 * sector) (512 * n))) := by
  have hW := W.two_pow_le
  have hsize : devSize = 524288 := rfl
  rw [vmemDiskTransfer, Nat.mod_eq_of_lt (show sector < 2 ^ W.bits by omega), KERNEL_SECTOR_SIZE,
    umul_of_lt (by omega), umul_of_lt (by omega), uadd_of_lt (by omega), if_neg (by omega),
    Nat.mul_comm sector, Nat.mul_comm n]

theorem shiftRight_mul (n : Nat) : (512 * n) >>> 9 = n := by
  rw [Nat.shiftRight_eq_div_pow]
  omega

/-- One round of the loop. -/
theorem xferSegments_cons {s : Segment} {segs : List Segment} (h : sector + n < 2 ^ 64) :
    xferSegments W (512 * n) write sector data (s :: segs) =
      let m := vmemDiskTransfer W data (sector % 2 ^ W.bits) n s.page write
      let m' := xferSegments W (512 * n) write (sector + n) m.1 segs
      (m'.1, { s with page := m.2 } :: m'.2) := by
  rw [xferSegments, shiftRight_mul, uadd_of_lt h]

/-- A segment as long as the loop takes it to be is moved exactly. -/
theorem vmemDiskTransfer_exact {s : Segment} (hlen : s.len = 512 * n)
    (hle : 512 * sector + 512 * n ≤ devSize) :
    moved write data (512 * sector) [s] =
      ((vmemDiskTransfer W data (sector % 2 ^ W.bits) n s.page write).1,
        [{ s with page := (vmemDiskTransfer W data (sector % 2 ^ W.bits) n s.page write).2 }]) := by
  rw [vmemDiskTransfer_of_le hle, ← hlen]
  cases write with
  | true => simp [moved, bytesOf, Segment.bytes]
  | false => rfl

/-- Segments that are all as long as the loop takes them to be are moved exactly. -/
theorem xferSegments_uniform {segs : List Segment} (hlen : ∀ s ∈ segs, s.len = 512 * n)
    (hfits : 512 * sector + (segs.map (·.len)).sum ≤ devSize) :
    xferSegments W (512 * n) write sector data segs = moved write data (512 * sector) segs := by
  have hsize : devSize = 524288 := rfl
  induction segs generalizing sector data with
  | nil => cases write <;> simp [xferSegments, moved, bytesOf, fill]
  | cons s segs ih =>
    have hs : s.len = 512 * n := hlen s (.head _)
    rw [List.map_cons, List.sum_cons, hs] at hfits
    have hone := @vmemDiskTransfer_exact W data n sector write s hs (by omega)
    have hrest : ∀ data, xferSegments W (512 * n) write (sector + n) data segs =
        moved write data (512 * sector + s.len) segs := by
      intro data
      rw [hs, ← Nat.mul_add]
      exact ih (fun t ht => hlen t (.tail _ ht)) (by omega)
    rw [xferSegments_cons (by omega), moved_cons, hone]
    simp only [hrest, List.singleton_append]

/-- The loop over two lists of segments, one after the other. -/
theorem xferSegments_append {pre post : List Segment} (h : sector + pre.length * n < 2 ^ 63) :
    xferSegments W (512 * n) write sector data (pre ++ post) =
      let m := xferSegments W (512 * n) write sector data pre
      let m' := xferSegments W (512 * n) write (sector + pre.length * n) m.1 post
      (m'.1, m.2 ++ m'.2) := by
  induction pre generalizing sector data with
  | nil => simp [xferSegments]
  | cons s pre ih =>
    have hmul : (pre.length + 1) * n = pre.length * n + n := Nat.succ_mul _ _
    rw [List.length_cons, hmul] at h ⊢
    have hassoc : sector + (pre.length * n + n) = sector + n + pre.length * n := by omega
    have hrest := fun data => @ih data (sector + n) (by omega)
    rw [List.cons_append, xferSegments_cons (by omega), xferSegments_cons (by omega), hassoc]
    simp only [hrest, List.cons_append]

/-- The loop leaves the device before its first sector. -/
theorem xferSegments_of_lt {segs : List Segment} {x : Nat}
    (h : 512 * sector + 512 * (segs.length * n) + 512 * n < 2 ^ 32) (hx : x < 512 * sector) :
    (xferSegments W (512 * n) write sector data segs).1 x = data x := by
  induction segs generalizing sector data with
  | nil => rfl
  | cons s segs ih =>
    have hmul : (segs.length + 1) * n = segs.length * n + n := Nat.succ_mul _ _
    rw [List.length_cons, hmul] at h
    rw [xferSegments_cons (by omega)]
    refine (ih (by omega) (by omega)).trans ?_
    rcases Nat.lt_or_ge devSize (512 * sector + 512 * n) with hgt | hle
    · rw [vmemDiskTransfer_of_gt (by omega) hgt]
    · rw [vmemDiskTransfer_of_le hle]
      cases write with
      | true => exact Mem.store_of_lt data _ hx
      | false => rfl

end

/-! ## A segment of another length

At the first segment whose length is not that of the first, the loop moves too much, too little or
nothing. `critical` is the first byte of the device that it treats wrongly. The contents that show
it mark the first byte, the inner bytes and the memory past the end of each segment by three values
that the device does not hold there.
-/

section
variable {W : LongWidth} {data : Mem Byte} {n sector l : Nat} {lens : List Nat}

/-- Where the segment of length `l` at `sector` goes wrong. -/
def critical (n sector l : Nat) : Nat :=
  if 512 * n < l then 512 * n else if devSize < 512 * sector + 512 * n then 0 else l

/-- A segment marked by bytes other than `d`. -/
def marked (d : Byte) (l : Nat) : Segment :=
  ⟨l, fun k => if k = 0 then d + 1 else if k < l then d + 2 else d + 3⟩

/-- The marks are three more bytes than `d`. -/
theorem marks_ne (d : Byte) :
    d + 1 ≠ d ∧ d + 2 ≠ d ∧ d + 3 ≠ d ∧ d + 1 ≠ d + 2 ∧ d + 1 ≠ d + 3 := by
  grind

theorem map_len_marked (d : Byte) : (lens.map (marked d)).map (·.len) = lens := by
  simp [Function.comp_def, marked]

/-- The first byte of a marked segment. -/
theorem marked_zero (d : Byte) (l : Nat) : (marked d l).page 0 = d + 1 := rfl

/-- An inner byte of a marked segment. -/
theorem marked_inner (d : Byte) {k : Nat} (h0 : 0 < k) (hk : k < l) :
    (marked d l).page k = d + 2 :=
  (if_neg (Nat.ne_of_gt h0)).trans (if_pos hk)

/-- A byte past the end of a marked segment. -/
theorem marked_past (d : Byte) (hl : 0 < l) : (marked d l).page l = d + 3 :=
  (if_neg (Nat.ne_of_gt hl)).trans (if_neg (Nat.lt_irrefl l))

/-- A write of marked segments stores the bytes of the first. -/
theorem store_marked_of_lt (d : Byte) {k : Nat} (hk : k < l) :
    data.store sector (bytesOf ((l :: lens).map (marked d))) (sector + k) =
      (marked d l).page k := by
  have hlen : (marked d l).bytes.length = l := Mem.length_slice ..
  rw [List.map_cons, bytesOf, List.flatMap_cons, Mem.store_append,
    Mem.store_of_lt _ _ (by omega), Mem.store_add data sector (by omega)]
  exact (Mem.getElem_slice ..).trans (congrArg _ (Nat.zero_add k))

/-- A write of marked segments stores, after the first, the first byte of the second. -/
theorem store_marked_next (d : Byte) {l' : Nat} (hl : 0 < l') :
    data.store sector (bytesOf ((l :: l' :: lens).map (marked d))) (sector + l) = d + 1 := by
  have hlen : (marked d l).bytes.length = l := Mem.length_slice ..
  rw [List.map_cons, bytesOf, List.flatMap_cons, Mem.store_append, hlen]
  exact store_marked_of_lt d hl

/-- A read fills the first segment of another length wrongly. -/
theorem xferSegments_read_ne (hl : 0 < l) (hn : 0 < n) (hne : l ≠ 512 * n)
    (hfits : 512 * sector + l ≤ devSize) (hbound : n ≤ 1024) {d : Byte}
    (hd : data (512 * sector + critical n sector l) = d) :
    (xferSegments W (512 * n) false sector data ((l :: lens).map (marked d))).2 ≠
      (moved false data (512 * sector) ((l :: lens).map (marked d))).2 := by
  intro heq
  have hsize : devSize = 524288 := rfl
  obtain ⟨h1, h2, h3, -, -⟩ := marks_ne d
  rw [List.map_cons, xferSegments_cons (by omega)] at heq
  have hpage := congrArg Segment.page (List.cons.inj heq).1
  have hk := congrFun hpage (critical n sector l)
  change (vmemDiskTransfer W data _ n (marked d l).page false).2 _ =
    (marked d l).page.store 0 (data.slice (512 * sector) l) _ at hk
  rw [Mem.store_slice_apply, Nat.sub_zero, Nat.zero_add] at hk
  rcases Nat.lt_or_ge (512 * n) l with hlong | hshort
  · have hcrit : critical n sector l = 512 * n := if_pos hlong
    rw [hcrit] at hk hd
    rw [vmemDiskTransfer_of_le (by omega), if_neg Bool.false_ne_true] at hk
    dsimp only at hk
    rw [Mem.store_of_ge _ _ (by simp), marked_inner d (by omega) hlong, if_pos ⟨by omega, hlong⟩,
      hd] at hk
    exact h2 hk
  · rcases Nat.lt_or_ge devSize (512 * sector + 512 * n) with hgt | hle
    · have hcrit : critical n sector l = 0 := by rw [critical, if_neg (by omega), if_pos hgt]
      rw [hcrit] at hk hd
      rw [vmemDiskTransfer_of_gt (by omega) hgt, marked_zero, if_pos ⟨by omega, hl⟩, hd] at hk
      exact h1 hk
    · have hcrit : critical n sector l = l := by rw [critical, if_neg (by omega), if_neg (by omega)]
      rw [hcrit] at hk hd
      rw [vmemDiskTransfer_of_le hle, if_neg Bool.false_ne_true] at hk
      dsimp only at hk
      rw [Mem.store_slice_apply, if_pos ⟨by omega, by omega⟩, if_neg (by omega), marked_past d hl,
        Nat.sub_zero, hd] at hk
      exact h3 hk.symm

/-- What a write of marked segments leaves at its first address. -/
theorem xferSegments_start (hn : 0 < n)
    (hbound : 512 * sector + 512 * (lens.length * n) + 512 * n < 2 ^ 32) {d : Byte}
    (hd : data (512 * sector) = d) :
    (xferSegments W (512 * n) true sector data (lens.map (marked d))).1 (512 * sector) = d ∨
      (xferSegments W (512 * n) true sector data (lens.map (marked d))).1 (512 * sector) =
        d + 1 := by
  cases lens with
  | nil => exact .inl hd
  | cons l lens =>
    have hmul : (lens.length + 1) * n = lens.length * n + n := Nat.succ_mul _ _
    rw [List.length_cons, hmul] at hbound
    rw [List.map_cons, xferSegments_cons (by omega)]
    have hframe := fun D => @xferSegments_of_lt W D n (sector + n) true (lens.map (marked d))
      (512 * sector) (by rw [List.length_map]; omega) (by omega)
    simp only [hframe]
    rcases Nat.lt_or_ge devSize (512 * sector + 512 * n) with hgt | hle
    · rw [vmemDiskTransfer_of_gt (by omega) hgt]
      exact .inl hd
    · rw [vmemDiskTransfer_of_le hle, if_pos rfl]
      refine .inr ?_
      dsimp only
      rw [Mem.store_slice_apply, if_pos ⟨Nat.le_refl _, by omega⟩, Nat.sub_self]
      exact marked_zero d l

/-- A write leaves a wrong byte on the disk at the first segment of another length. -/
theorem xferSegments_write_ne (hl : ∀ l' ∈ l :: lens, 0 < l') (hn : 0 < n) (hne : l ≠ 512 * n)
    (hfits : 512 * sector + l ≤ devSize) (hbound : n ≤ 1024) (hcount : lens.length ≤ 1024)
    {d : Byte} (hd : data (512 * sector + critical n sector l) = d) :
    (xferSegments W (512 * n) true sector data ((l :: lens).map (marked d))).1 ≠
      (moved true data (512 * sector) ((l :: lens).map (marked d))).1 := by
  intro heq
  have hsize : devSize = 524288 := rfl
  have hl0 : 0 < l := hl l (.head _)
  have hcn : lens.length * n ≤ 1024 * 1024 := Nat.mul_le_mul hcount hbound
  obtain ⟨h1, h2, h3, h12, h13⟩ := marks_ne d
  have hk := congrFun heq (512 * sector + critical n sector l)
  change _ = data.store (512 * sector) (bytesOf ((l :: lens).map (marked d))) _ at hk
  rw [List.map_cons, xferSegments_cons (by omega)] at hk
  have hframe : ∀ {x : Nat} (data : Mem Byte), x < 512 * sector + 512 * n →
      (xferSegments W (512 * n) true (sector + n) data (lens.map (marked d))).1 x = data x :=
    fun data hx => xferSegments_of_lt (by rw [List.length_map]; omega) (by omega)
  rcases Nat.lt_or_ge (512 * n) l with hlong | hshort
  · have hcrit : critical n sector l = 512 * n := if_pos hlong
    rw [hcrit] at hk hd
    rw [vmemDiskTransfer_of_le (by omega), if_pos rfl, ← List.map_cons, store_marked_of_lt d hlong,
      marked_inner d (by omega) hlong] at hk
    have hold : (data.store (512 * sector) ((marked d l).page.slice 0 (512 * n)))
        (512 * (sector + n)) = d := by
      rw [Mem.store_of_ge _ _ (by rw [Mem.length_slice]; omega), Nat.mul_add, hd]
    have hstart := @xferSegments_start W _ n (sector + n) lens hn (by omega) d hold
    rw [Nat.mul_add, hk] at hstart
    rcases hstart with h | h
    · exact h2 h
    · exact h12 h.symm
  · rcases Nat.lt_or_ge devSize (512 * sector + 512 * n) with hgt | hle
    · have hcrit : critical n sector l = 0 := by rw [critical, if_neg (by omega), if_pos hgt]
      rw [hcrit] at hk hd
      rw [vmemDiskTransfer_of_gt (by omega) hgt, ← List.map_cons, store_marked_of_lt d hl0,
        marked_zero] at hk
      exact h1 (hk.symm.trans ((hframe data (by omega)).trans hd))
    · have hcrit : critical n sector l = l := by rw [critical, if_neg (by omega), if_neg (by omega)]
      rw [hcrit] at hk hd
      rw [vmemDiskTransfer_of_le hle, if_pos rfl] at hk
      have hgot := (hframe (data.store (512 * sector) ((marked d l).page.slice 0 (512 * n)))
        (show 512 * sector + l < _ by omega)).symm.trans hk
      rw [Mem.store_slice_apply, if_pos ⟨by omega, by omega⟩, Nat.add_sub_cancel_left,
        Nat.zero_add, marked_past d hl0] at hgot
      cases lens with
      | nil =>
        have hlen : (bytesOf ([l].map (marked d))).length = l := by
          rw [length_bytesOf, map_len_marked]
          exact Nat.add_zero l
        rw [← List.map_cons, Mem.store_of_ge _ _ (by omega), hd] at hgot
        exact h3 hgot
      | cons l' lens =>
        rw [← List.map_cons, store_marked_next d (hl l' (.tail _ (.head _)))] at hgot
        exact h13 hgot.symm

end

/-! ## Bios -/

section
variable {W : LongWidth} {data : Mem Byte} {sh : Shape} {b : Bio}

/-- A list that is not constant splits at the first entry that differs from its head. -/
theorem exists_first_ne {l₀ : Nat} : ∀ {lens : List Nat}, (¬ ∀ l ∈ lens, l = l₀) →
    ∃ pre l post, lens = pre ++ l :: post ∧ (∀ l' ∈ pre, l' = l₀) ∧ l ≠ l₀
  | [], h => absurd (fun _ hl => nomatch hl) h
  | l :: lens, h => by
    by_cases hl : l = l₀
    · have hrest : ¬ ∀ l ∈ lens, l = l₀ := fun hall => h fun l' hl' => by
        rcases List.mem_cons.1 hl' with rfl | hmem
        · exact hl
        · exact hall l' hmem
      obtain ⟨pre, l', post, rfl, hpre, hne⟩ := exists_first_ne hrest
      exact ⟨l :: pre, l', post, rfl, List.forall_mem_cons.2 ⟨hl, hpre⟩, hne⟩
    · exact ⟨[], l, lens, rfl, (fun _ hl' => nomatch hl'), hl⟩

/-- A bio within the device whose segments are all as long as the first is moved exactly. -/
theorem vmemDiskXferBio_of_uniform (hin : b.shape.Within devSize) (hu : b.shape.Uniform)
    (data : Mem Byte) : (vmemDiskXferBio W b data).2 = b.after data := by
  obtain ⟨n, hn⟩ : 512 ∣ bioCurBytes b := by
    have hne : b.segs.map (·.len) ≠ [] := hin.nonempty
    have hsec := hin.sectors
    change ∀ l ∈ b.segs.map (·.len), _ at hsec
    unfold bioCurBytes
    cases hl : b.segs.map (·.len) with
    | nil => exact absurd hl hne
    | cons l lens =>
      rw [hl] at hsec
      exact (hsec l (.head _)).2
  rw [vmemDiskXferBio, hn, Bio.after]
  refine xferSegments_uniform (fun s hs => ?_) hin.fits
  rw [← hn]
  exact hu s.len (List.mem_map_of_mem hs)

/-- The first segment of another length in a bio is moved wrongly for some contents. -/
theorem xferSegments_ne {write : Bool} {n sector l : Nat} {lens : List Nat}
    (hl : ∀ l' ∈ l :: lens, 0 < l') (hn : 0 < n) (hne : l ≠ 512 * n)
    (hfits : 512 * sector + l ≤ devSize) (hbound : n ≤ 1024) (hcount : lens.length ≤ 1024)
    {d : Byte} (hd : data (512 * sector + critical n sector l) = d) :
    xferSegments W (512 * n) write sector data ((l :: lens).map (marked d)) ≠
      moved write data (512 * sector) ((l :: lens).map (marked d)) := by
  intro heq
  cases write with
  | true => exact xferSegments_write_ne hl hn hne hfits hbound hcount hd (congrArg Prod.fst heq)
  | false =>
    exact xferSegments_read_ne (hl l (.head _)) hn hne hfits hbound hd (congrArg Prod.snd heq)

/-- Segments of whole sectors: as many as the sectors they fill, at most. -/
theorem length_le_sum : ∀ {lens : List Nat}, (∀ l ∈ lens, 0 < l ∧ 512 ∣ l) →
    512 * lens.length ≤ lens.sum
  | [], _ => Nat.le_refl 0
  | l :: lens, h => by
    obtain ⟨hpos, hdvd⟩ := h l (.head _)
    have hle := Nat.le_of_dvd hpos hdvd
    have ih := length_le_sum fun l' hl' => h l' (.tail _ hl')
    rw [List.length_cons, List.sum_cons]
    omega

/-- A bio with a segment of another length than the first is moved wrongly, whatever the device
holds, for some contents of its segments. -/
theorem exists_xferBio_ne (hin : sh.Within devSize) (hu : ¬ sh.Uniform) (data : Mem Byte) :
    ∃ b : Bio, b.shape = sh ∧ (vmemDiskXferBio W b data).2 ≠ b.after data := by
  have hsize : devSize = 524288 := rfl
  obtain ⟨sector, write, lens⟩ := sh
  obtain ⟨hnonempty, hsec, hfits⟩ := hin
  obtain ⟨pre, l, post, hlens, hpre, hne⟩ := exists_first_ne hu
  change lens ≠ [] at hnonempty
  change lens = pre ++ l :: post at hlens
  change ∀ l' ∈ lens, _ at hsec
  change 512 * sector + lens.sum ≤ _ at hfits
  change ∀ l' ∈ pre, l' = lens.headD 0 at hpre
  change l ≠ lens.headD 0 at hne
  have hhead : lens.headD 0 ∈ lens := by
    cases lens with
    | nil => exact absurd rfl hnonempty
    | cons l₀ lens => exact .head _
  obtain ⟨n, hn⟩ := (hsec _ hhead).2
  have hn0 : 0 < n := by
    have hpos := (hsec _ hhead).1
    omega
  have hnle : n ≤ 1024 := by
    obtain ⟨before, rest, happ⟩ := List.append_of_mem hhead
    rw [happ, List.sum_append, List.sum_cons] at hfits
    omega
  have hpresum : pre.sum = pre.length * (512 * n) := by
    rw [← hn, List.eq_replicate_of_mem hpre, List.sum_replicate_nat, List.length_replicate]
  have hsum : lens.sum = pre.length * (512 * n) + (l + post.sum) := by
    rw [hlens, List.sum_append, List.sum_cons, hpresum]
  have hmul : pre.length * (512 * n) = 512 * (pre.length * n) := Nat.mul_left_comm _ _ _
  have hcount : 512 * lens.length ≤ lens.sum := length_le_sum hsec
  have hpostlen : post.length ≤ lens.length := by
    rw [hlens, List.length_append, List.length_cons]
    omega
  let d := data (512 * (sector + pre.length * n) + critical n (sector + pre.length * n) l)
  refine ⟨⟨sector, write, lens.map (marked d)⟩, ?_, fun heq => ?_⟩
  · rw [Bio.shape, map_len_marked]
  · have hcur : bioCurBytes ⟨sector, write, lens.map (marked d)⟩ = 512 * n := by
      rw [bioCurBytes, map_len_marked, hn]
    have huniform : ∀ s ∈ pre.map (marked d), s.len = 512 * n := by
      intro s hs
      obtain ⟨l', hl', rfl⟩ := List.mem_map.1 hs
      exact (hpre l' hl').trans hn
    have hprefix := @xferSegments_uniform W data n sector write _ huniform
      (by rw [map_len_marked]; omega)
    rw [vmemDiskXferBio, hcur, Bio.after] at heq
    simp only [hlens, List.map_append] at heq
    rw [xferSegments_append (by rw [List.length_map]; omega), moved_append, hprefix,
      map_len_marked, List.length_map, hpresum, hmul, ← Nat.mul_add] at heq
    obtain ⟨hdata, hsegs⟩ := Prod.mk.inj heq
    refine @xferSegments_ne W _ write _ _ _ post ?_ hn0 (hn ▸ hne) ?_ hnle ?_ d ?_
      (Prod.ext hdata (List.append_cancel_left hsegs))
    · exact fun l' hl' => (hsec l' (hlens ▸ List.mem_append_right _ hl')).1
    · omega
    · omega
    · exact moved_of_ge (by rw [map_len_marked]; omega)

/-- Where every bio is moved exactly, the device data is what was written latest. -/
theorem dataAfter_eq_latest : ∀ (pre : List Bio), (∀ b ∈ pre, ∀ data,
    (vmemDiskXferBio W b data).2 = b.after data) → dataAfter W data pre.reverse = latest data pre
  | [], _ => rfl
  | b :: older, h => by
    have ih := dataAfter_eq_latest older fun b hb => h b (.tail _ hb)
    have hlast : dataAfter W data (b :: older).reverse =
        (vmemDiskXferBio W b (dataAfter W data older.reverse)).2.1 := by
      simp [dataAfter]
    funext x
    rw [hlast, ih, h b (.head _), Bio.after, latest]
    have hlen : (bytesOf b.segs).length = b.shape.total := length_bytesOf b.segs
    rcases hw : b.write with _ | _
    · rw [if_neg (by simp)]
      rfl
    · split
      · next hx =>
        obtain ⟨i, rfl⟩ := Nat.exists_eq_add_of_le hx.2.1
        have hi : i < (bytesOf b.segs).length := by omega
        rw [Nat.add_sub_cancel_left, List.getD_eq_getElem _ _ hi]
        exact Mem.store_add _ _ hi
      · next hx =>
        rcases Nat.lt_or_ge x (512 * b.sector) with hlt | hge
        · exact Mem.store_of_lt _ _ hlt
        · exact Mem.store_of_ge _ _ (by rw [hlen]; exact Nat.not_lt.1 fun h => hx ⟨rfl, hge, h⟩)

/-- Bios of uniform segments are moved faithfully. -/
theorem Faithful.of_uniform {bios : List Bio} (hin : ∀ b ∈ bios, b.shape.Within devSize)
    (hu : ∀ b ∈ bios, b.shape.Uniform) (data : Mem Byte) : Faithful W data bios := by
  have hexact : ∀ b ∈ bios, ∀ data, (vmemDiskXferBio W b data).2 = b.after data :=
    fun b hb => vmemDiskXferBio_of_uniform (hin b hb) (hu b hb)
  refine ⟨fun pre b post he => hexact b (by simp [he]) _, fun pre b post he hread => ?_⟩
  rw [hexact b (by simp [he]), Bio.after, hread]
  have hlatest := @dataAfter_eq_latest W data pre.reverse
    fun b hb => hexact b (by rw [he]; exact List.mem_append_left _ (List.mem_reverse.1 hb))
  rw [List.reverse_reverse] at hlatest
  rw [← hlatest]
  exact bytesOf_fill

/-- A bio of a given shape, with zeros in its segments. -/
def Shape.zeros (sh : Shape) : Bio := ⟨sh.sector, sh.write, sh.lens.map fun l => ⟨l, fun _ => 0⟩⟩

theorem Shape.shape_zeros (sh : Shape) : sh.zeros.shape = sh := by
  simp [Shape.zeros, Bio.shape, Function.comp_def]

/-- **The disk stores what it is given exactly where the segments of each bio have one length.**
For any sequence of bios within the device: whatever the device and the segments hold, every bio
is moved exactly and every read brings the latest bytes, if and only if the segments of every bio
are all as long as its first. -/
theorem faithful_iff_uniform {shapes : List Shape} (hin : ∀ sh ∈ shapes, sh.Within devSize) :
    (∀ data bios, bios.map Bio.shape = shapes → Faithful W data bios) ↔
      ∀ sh ∈ shapes, sh.Uniform := by
  refine ⟨fun h sh hsh => ?_, fun hu data bios he => ?_⟩
  · by_contra hne
    obtain ⟨before, rest, rfl⟩ := List.append_of_mem hsh
    have hzeros : ∀ shs : List Shape, (shs.map Shape.zeros).map Bio.shape = shs := by
      intro shs
      simp [Function.comp_def, Shape.shape_zeros]
    obtain ⟨b, hb, hwrong⟩ := @exists_xferBio_ne W _ (hin sh hsh) hne
      (dataAfter W (fun _ => 0) (before.map Shape.zeros))
    have hall := h (fun _ => 0) (before.map Shape.zeros ++ b :: rest.map Shape.zeros)
      (by rw [List.map_append, List.map_cons, hzeros, hzeros, hb])
    exact hwrong (hall.exact _ b _ rfl)
  · subst he
    exact .of_uniform (fun b hb => hin _ (List.mem_map_of_mem hb))
      (fun b hb => hu _ (List.mem_map_of_mem hb)) data

/-- A write of two segments of one length, and a read of both by one segment twice as long. -/
def evenSegments : List Bio :=
  [⟨0, true, [⟨512, fun _ => 1⟩, ⟨512, fun _ => 2⟩]⟩, ⟨0, false, [⟨1024, fun _ => 0⟩]⟩]

/-- Both bios are uniform, and the read brings what was written. -/
theorem evenSegments_faithful : Faithful .w32 (fun _ => 0) evenSegments := by
  have hin : ∀ sh ∈ evenSegments.map Bio.shape, sh.Within devSize := ?_
  · exact (faithful_iff_uniform hin).2 (by decide) _ evenSegments rfl
  change ∀ sh ∈ [(⟨0, true, [512, 512]⟩ : Shape), ⟨0, false, [1024]⟩], sh.Within devSize
  intro sh hsh
  rcases List.mem_cons.1 hsh with rfl | hsh
  · exact ⟨by decide, by decide, by decide⟩
  · rcases List.mem_cons.1 hsh with rfl | hsh
    · exact ⟨by decide, by decide, by decide⟩
    · cases hsh

/-- A write of a segment of one sector and one of two. -/
def mixedSegments : Bio := ⟨0, true, [⟨512, fun _ => 1⟩, ⟨1024, fun _ => 2⟩]⟩

/-- **The disk does not store what it is given**: the second sector of the second segment of a
write is lost. -/
theorem mixedSegments_not_faithful :
    ¬ ∀ data bios, (∀ b ∈ bios, b.shape.Within devSize) → Faithful .w64 data bios := by
  intro hall
  have hin : ∀ b ∈ [mixedSegments], b.shape.Within devSize := by
    intro b hb
    rw [List.mem_singleton.1 hb]
    exact ⟨by decide, by decide, by decide⟩
  have hexact := (hall (fun _ => 0) [mixedSegments] hin).exact [] mixedSegments [] rfl
  have hlost : (vmemDiskXferBio .w64 mixedSegments (fun _ => 0)).2.1 1024 = 0 := by decide +kernel
  have hkept : (mixedSegments.after (fun _ => 0)).1 1024 = 2 := by decide +kernel
  have heq := (hlost.symm.trans (congrFun (congrArg Prod.fst hexact) 1024)).trans hkept
  exact absurd heq (by decide)

end

end LinuxTraining.VmemDisk
