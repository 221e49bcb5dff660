import LinuxTraining.VmemDisk.Setup
import LinuxTraining.VmemDisk.Transfer

/-!
# `vmem_disk.c`: the two request modes

`vmem_disk_request` empties a queue of requests and finds the device of each through its disk;
`vmem_disk_make_request` gets one bio and finds the device through the queue. `requestModes_agree`:
the loop ends with the queue empty, every request is started and ended once, and what the file
system's bios have done is what they do when they are given to `vmem_disk_make_request` one by one.
-/

namespace LinuxTraining.VmemDisk

open Lib Ledger

def EIO : Int := 5

/-- `struct request`: whether `cmd_type` is `REQ_TYPE_FS`, the disk, and the bios. -/
structure Request where
  fs : Bool
  rqDisk : Nat
  bios : List Bio

/-- The data of each device, the requests by their address, the request queue, and what has been
started and ended: requests with their error, and bios with the request they belong to. -/
structure Io where
  data : Nat → Mem Byte
  req : Nat → Request
  queue : List Nat
  started : List Nat
  ended : List (Nat × Int)
  endio : List (Nat × Bio × Int)

/-- A queue before anything is started. -/
def Io.start (data : Nat → Mem Byte) (req : Nat → Request) (queue : List Nat) : Io :=
  ⟨data, req, queue, [], [], []⟩

/-! ## The block layer -/

/-- `blk_peek_request`: the head of the queue, which stays there. -/
def blkPeekRequest (s : Io) : Option Nat := s.queue.head?

/-- `blk_start_request`: the request leaves the queue. -/
def blkStartRequest (s : Io) (r : Nat) : Io :=
  { s with queue := s.queue.erase r, started := s.started ++ [r] }

/-- `__blk_end_request_all`: the request and all its bios end with the error. -/
def blkEndRequestAll (s : Io) (r : Nat) (error : Int) : Io :=
  { s with
    ended := s.ended ++ [(r, error)]
    endio := s.endio ++ (s.req r).bios.map fun b => (r, b, error) }

/-! ## `vmem_disk_request` -/

section
variable (W : LongWidth) (m : Module)

/-- `vmem_disk_xfer_bio` of each bio of a list: the data of the device, and the bios. -/
def xferBios (data : Mem Byte) : List Bio → Mem Byte × List Bio
  | [] => (data, [])
  | b :: bios =>
    let x := vmemDiskXferBio W b data
    let rest := xferBios x.2.1 bios
    (rest.1, { b with segs := x.2.2 } :: rest.2)

/-- `__rq_for_each_bio` with `vmem_disk_xfer_bio` on device `dev`. -/
def Io.xferRequest (s : Io) (r dev : Nat) : Io :=
  let x := xferBios W (s.data dev) (s.req r).bios
  { s with data := Function.update s.data dev x.1,
           req := Function.update s.req r { s.req r with bios := x.2 } }

/-- One round of the loop, or `none` when there is no request. -/
def requestRound (s : Io) : Option Io :=
  match blkPeekRequest s with
  | none => none
  | some r =>
    let dev := (m.gendisk (s.req r).rqDisk).privateData
    if (s.req r).fs then
      some (blkEndRequestAll ((blkStartRequest s r).xferRequest W r dev) r 0)
    else some (blkEndRequestAll (blkStartRequest s r) r (- EIO))

/-- `vmem_disk_request`, with at most `fuel` tests of its loop. -/
def vmemDiskRequest : Nat → Io → Option Io
  | 0, _ => none
  | fuel + 1, s =>
    match requestRound W m s with
    | none => some s
    | some s' => vmemDiskRequest fuel s'

/-! ## `vmem_disk_make_request` -/

/-- The data of each device, and the bios that have ended with their status. -/
structure Direct where
  data : Nat → Mem Byte
  endio : List (Bio × Int)

/-- `vmem_disk_make_request` of a bio on the queue `q`. -/
def vmemDiskMakeRequest (q : Nat) (d : Direct) (b : Bio) : Direct :=
  let dev := (m.queue q).queuedata
  let x := vmemDiskXferBio W b (d.data dev)
  { data := Function.update d.data dev x.2.1,
    endio := d.endio ++ [({ b with segs := x.2.2 }, x.1)] }

/-- The bios of requests given to `vmem_disk_make_request` one by one, those of a request on the
queue that `route` names. -/
def makeRequests (req : Nat → Request) (route : Nat → Nat) (d : Direct) (rs : List Nat) : Direct :=
  rs.foldl (fun d r => (req r).bios.foldl (vmemDiskMakeRequest W m (route r)) d) d

end

/-! ## One round -/

section
variable {W : LongWidth} {m m' : Module} {s : Io} {r : Nat} {rest : List Nat}

/-- The bios of one request, given to `vmem_disk_make_request` one by one. -/
theorem foldl_makeRequest (q : Nat) (bios : List Bio) (d : Direct) :
    bios.foldl (vmemDiskMakeRequest W m q) d =
      let dev := (m.queue q).queuedata
      let x := xferBios W (d.data dev) bios
      ⟨Function.update d.data dev x.1, d.endio ++ x.2.map fun b => (b, 0)⟩ := by
  induction bios generalizing d with
  | nil => simp [xferBios]
  | cons b bios ih =>
    rw [List.foldl_cons, ih]
    simp [vmemDiskMakeRequest, xferBios, vmemDiskXferBio]

/-- A request that is not one of the file system ends with `-EIO` and changes no data. -/
theorem requestRound_of_not_fs (hr : blkPeekRequest s = some r) (hfs : (s.req r).fs = false) :
    requestRound W m s = some (blkEndRequestAll (blkStartRequest s r) r (- EIO)) := by
  simp [requestRound, hr, hfs]

theorem requestRound_of_fs (hr : blkPeekRequest s = some r) (hfs : (s.req r).fs = true) :
    requestRound W m s = some (blkEndRequestAll ((blkStartRequest s r).xferRequest W r
      (m.gendisk (s.req r).rqDisk).privateData) r 0) := by
  simp [requestRound, hr, hfs]

/-- The completions of the file system's bios. -/
def fsEndio (req : Nat → Request) (endio : List (Nat × Bio × Int)) : List (Bio × Int) :=
  (endio.filter fun e => (req e.1).fs).map (·.2)

/-- What one round does with the head of the queue. -/
structure Served (m' : Module) (W : LongWidth) (req : Nat → Request) (route : Nat → Nat)
    (d : Direct) (r : Nat) (rest : List Nat) (s t : Io) : Prop where
  queue : t.queue = rest
  started : t.started = s.started ++ [r]
  ended : t.ended = s.ended ++ [(r, if (req r).fs then 0 else - EIO)]
  others : ∀ r', r' ≠ r → t.req r' = s.req r'
  done : ∃ done, fsEndio req t.endio = fsEndio req s.endio ++ done ∧
    makeRequests W m' req route d ([r].filter fun r => (req r).fs) = ⟨t.data, d.endio ++ done⟩

/-- **One round** starts and ends the head of the queue; what its bios do, if it is one of the file
system, is what they do when they are given to `vmem_disk_make_request`. -/
theorem requestRound_served {route : Nat → Nat} (hq : s.queue = r :: rest)
    {req : Nat → Request} (hreq : s.req r = req r)
    (hdev : (m'.queue (route r)).queuedata = (m.gendisk (req r).rqDisk).privateData)
    {d : Direct} (hd : d.data = s.data) :
    ∃ t, requestRound W m s = some t ∧ Served m' W req route d r rest s t := by
  have hpeek : blkPeekRequest s = some r := by simp [blkPeekRequest, hq]
  have hdequeue : s.queue.erase r = rest := by simp [hq]
  cases hfs : (req r).fs with
  | false =>
    refine ⟨_, requestRound_of_not_fs hpeek (by rw [hreq, hfs]), hdequeue, rfl, ?_, ?_, [], ?_, ?_⟩
    · simp [blkEndRequestAll, blkStartRequest, hfs]
    · intro r' _
      rfl
    · simp [fsEndio, blkEndRequestAll, blkStartRequest, List.filter_append, List.filter_map,
        Function.comp_def, hfs]
    · simp [makeRequests, hfs, blkEndRequestAll, blkStartRequest, ← hd]
  | true =>
    refine ⟨_, requestRound_of_fs hpeek (by rw [hreq, hfs]), hdequeue, rfl, ?_, ?_, ?_⟩
    · simp [blkEndRequestAll, blkStartRequest, Io.xferRequest, hfs]
    · intro r' hne
      exact Function.update_of_ne hne ..
    · let dev := (m.gendisk (req r).rqDisk).privateData
      refine ⟨(xferBios W (s.data dev) (req r).bios).2.map fun b => (b, 0), ?_, ?_⟩
      · simp [fsEndio, blkEndRequestAll, blkStartRequest, Io.xferRequest, List.filter_append,
          List.filter_map, Function.comp_def, hfs, hreq, dev]
      · simp [makeRequests, hfs, foldl_makeRequest, hdev, blkEndRequestAll, blkStartRequest,
          Io.xferRequest, hreq, hd, dev]

/-- **The loop.** It takes one round for each request. -/
theorem vmemDiskRequest_spec {route : Nat → Nat} {queue : List Nat} (hq : s.queue = queue)
    (hnodup : queue.Nodup) {req : Nat → Request} (hreq : ∀ r ∈ queue, s.req r = req r)
    (hdev : ∀ r ∈ queue,
      (m'.queue (route r)).queuedata = (m.gendisk (req r).rqDisk).privateData)
    (d : Direct) (hd : d.data = s.data) :
    ∃ s', (∀ fuel, queue.length < fuel → vmemDiskRequest W m fuel s = some s') ∧
      s'.queue = [] ∧ s'.started = s.started ++ queue ∧
      s'.ended = s.ended ++ queue.map (fun r => (r, if (req r).fs then 0 else - EIO)) ∧
      ∃ done, fsEndio req s'.endio = fsEndio req s.endio ++ done ∧
        makeRequests W m' req route d (queue.filter fun r => (req r).fs) =
          ⟨s'.data, d.endio ++ done⟩ := by
  induction queue generalizing s d with
  | nil =>
    refine ⟨s, ?_, hq, by simp, by simp, [], by simp, ?_⟩
    · intro fuel hfuel
      obtain ⟨fuel, rfl⟩ := Nat.exists_eq_add_of_lt hfuel
      simp [vmemDiskRequest, requestRound, blkPeekRequest, hq]
    · obtain ⟨data, endio⟩ := d
      simpa [makeRequests] using hd
  | cons r rest ih =>
    obtain ⟨hnot, hnodup⟩ := List.nodup_cons.1 hnodup
    obtain ⟨t, ht, hserved⟩ := requestRound_served (W := W) (m := m) hq (hreq r (.head _))
      (hdev r (.head _)) hd
    obtain ⟨done₁, hdone₁, hmake₁⟩ := hserved.done
    have hreq' : ∀ r' ∈ rest, t.req r' = req r' := by
      intro r' hr'
      have hne : r' ≠ r := by
        rintro rfl
        exact hnot hr'
      rw [hserved.others r' hne]
      exact hreq r' (.tail _ hr')
    obtain ⟨s', hrun, hempty, hstarted, hended, done₂, hdone₂, hmake₂⟩ :=
      ih hserved.queue hnodup hreq' (fun r' hr' => hdev r' (.tail _ hr'))
        ⟨t.data, d.endio ++ done₁⟩ rfl
    refine ⟨s', ?_, hempty, ?_, ?_, done₁ ++ done₂, ?_, ?_⟩
    · intro fuel hfuel
      cases fuel with
      | zero => simp at hfuel
      | succ fuel =>
        simp only [vmemDiskRequest, ht]
        exact hrun fuel (by simpa using hfuel)
    · rw [hstarted, hserved.started, List.append_assoc, List.singleton_append]
    · rw [hended, hserved.ended, List.append_assoc, List.singleton_append, List.map_cons]
    · rw [hdone₂, hdone₁, List.append_assoc]
    · have hsplit : (r :: rest).filter (fun r => (req r).fs) =
          [r].filter (fun r => (req r).fs) ++ rest.filter fun r => (req r).fs := by
        rw [← List.filter_append, List.singleton_append]
      rw [hsplit, makeRequests, List.foldl_append]
      rw [makeRequests] at hmake₁ hmake₂
      rw [hmake₁, hmake₂, List.append_assoc]

end

/-- **The request modes agree.** The devices are loaded twice, with any two values of
`request_mode`, and each request of the queue is for a disk of the first whose device has in the
second the queue that `route` names. Then `vmem_disk_request` ends with the queue empty, having
started and ended every request once, those that are not of the file system with `-EIO` and without
a change of data; and the data, the buffers and the status of the file system's bios are those of
`vmem_disk_make_request`. -/
theorem requestModes_agree {W : LongWidth} {n : Nat} {mode mode' major major' : Int}
    {ans ans' : Nat → Answers} {m₀ m₀' m m' : Module} (hmajor : 0 < major) (hmajor' : 0 < major')
    (hm : m = (vmemDiskInit n mode major true ans m₀).2)
    (hm' : m' = (vmemDiskInit n mode' major' true ans' m₀').2)
    (hf : Fresh m.log) (hf' : Fresh m'.log) {data : Nat → Mem Byte} {req : Nat → Request}
    {queue : List Nat} (hnodup : queue.Nodup) {route : Nat → Nat}
    (hroute : ∀ r ∈ queue, ∃ i < n, (m.dev i).gd = some (req r).rqDisk ∧
      (m'.dev i).queue = some (route r)) :
    ∃ s', (∀ fuel, queue.length < fuel →
        vmemDiskRequest W m fuel (.start data req queue) = some s') ∧
      s'.queue = [] ∧ s'.started = queue ∧
      s'.ended = queue.map (fun r => (r, if (req r).fs then 0 else - EIO)) ∧
      makeRequests W m' req route ⟨data, []⟩ (queue.filter fun r => (req r).fs) =
        ⟨s'.data, fsEndio req s'.endio⟩ ∧
      ∀ t r, blkPeekRequest t = some r → (t.req r).fs = false →
        ∃ t', requestRound W m t = some t' ∧ t'.data = t.data ∧
          t'.ended = t.ended ++ [(r, - EIO)] := by
  subst hm hm'
  have hw := wired_of_init hmajor hf
  have hw' := wired_of_init hmajor' hf'
  have hdev : ∀ r ∈ queue,
      ((vmemDiskInit n mode' major' true ans' m₀').2.queue (route r)).queuedata =
        ((vmemDiskInit n mode major true ans m₀).2.gendisk (req r).rqDisk).privateData := by
    intro r hr
    obtain ⟨i, hi, hdisk, hqueue⟩ := hroute r hr
    obtain ⟨q, -, hg⟩ := hw.disk i hi _ hdisk
    rw [hg, hw'.queue i hi _ hqueue]
  have hstart : ∀ r ∈ queue, (Io.start data req queue).req r = req r := by
    intro r _
    rfl
  have hqueue : (Io.start data req queue).queue = queue := rfl
  obtain ⟨s', hrun, hempty, hstarted, hended, done, hdone, hmake⟩ :=
    vmemDiskRequest_spec (W := W) hqueue hnodup hstart hdev ⟨data, []⟩ rfl
  refine ⟨s', hrun, hempty, hstarted, hended, ?_, ?_⟩
  · rw [hmake, hdone]
    rfl
  · intro t r hr hfs
    exact ⟨_, requestRound_of_not_fs hr hfs, rfl, rfl⟩

/-- A write to the disk 0, and a request that is not of the file system to the disk 1. -/
def writeAndOther (r : Nat) : Request :=
  if r = 0 then ⟨true, 0, [⟨0, true, [⟨512, fun _ => 7⟩]⟩]⟩ else ⟨false, 1, []⟩

theorem writeAndOther_agrees : ∃ s',
    (∀ fuel, 2 < fuel → vmemDiskRequest .w64
        (vmemDiskInit 2 0 1 true (fun i => ⟨some i, some i, some i⟩) unloaded).2 fuel
        (.start (fun _ _ => 0) writeAndOther [1, 0]) = some s') ∧
      s'.ended = [(1, - EIO), (0, 0)] := by
  let ans : Nat → Answers := fun i => ⟨some i, some i, some i⟩
  have hf : Fresh (vmemDiskInit 2 0 1 true ans unloaded).2.log :=
    .of_freshFrom (by decide +kernel)
  have hf' : Fresh (vmemDiskInit 2 1 1 true ans unloaded).2.log :=
    .of_freshFrom (by decide +kernel)
  have hroute : ∀ r ∈ [1, 0], ∃ i < 2,
      ((vmemDiskInit 2 0 1 true ans unloaded).2.dev i).gd = some (writeAndOther r).rqDisk ∧
        ((vmemDiskInit 2 1 1 true ans unloaded).2.dev i).queue = some (id r) := by
    decide +kernel
  obtain ⟨s', hrun, -, -, hended, -⟩ := @requestModes_agree .w64 2 0 1 1 1 ans ans unloaded
    unloaded _ _ Int.one_pos Int.one_pos rfl rfl hf hf' (fun _ _ => 0) writeAndOther [1, 0]
    (by decide) id hroute
  exact ⟨s', hrun, hended⟩

end LinuxTraining.VmemDisk
