import LinuxTraining.Lib.Machine
import LinuxTraining.VmemDisk.Setup
import LinuxTraining.VmemDisk.Transfer

/-!
# `vmem_disk.c`: bios that are submitted concurrently

The copies of `vmem_disk_transfer` go byte by byte, in any order. The block layer calls
`vmem_disk_request` with `dev->lock` held, and `vmem_disk_make_request` with no lock at all.
`serializable_iff`: whatever the schedule, the transfers are as if made one after the other exactly
when the queue has a request function, or no two bios overlap with one of them writing. What carries
the proof is that the data is the data after the ended bios, overlaid with the bytes that the
writes in progress have copied (`Overlay`).
-/

namespace LinuxTraining.VmemDisk

open Lib

/-- A bio of one segment, without its contents. -/
structure Job where
  sector : Nat
  write : Bool
  len : Nat

/-- The bio, whose segment is mapped at `page`. -/
def Job.bio (j : Job) (page : Mem Byte) : Bio := ⟨j.sector, j.write, [⟨j.len, page⟩]⟩

def Job.shape (j : Job) : Shape := ⟨j.sector, j.write, [j.len]⟩

/-- Two bios overlap and one of them writes. -/
def Job.Conflicts (j j' : Job) : Prop :=
  (j.write ∨ j'.write) ∧ 512 * j.sector < 512 * j'.sector + j'.len ∧
    512 * j'.sector < 512 * j.sector + j.len

theorem Job.Conflicts.symm {j j' : Job} (h : j.Conflicts j') : j'.Conflicts j :=
  ⟨h.1.symm, h.2.2, h.2.1⟩

instance (j j' : Job) : Decidable (j.Conflicts j') := inferInstanceAs (Decidable (_ ∧ _))

/-- How far a bio has got: `copying` has the offsets of the bytes that are copied. -/
inductive Progress
  | idle
  | queued
  | copying (copied : Finset Nat)
  | ended
  deriving DecidableEq

/-- Where a context stands: outside the driver, at the test of the loop of `vmem_disk_request`, or
in `vmem_disk_xfer_bio`. -/
inductive Ctx (k : Nat)
  | out
  | loop
  | xfer (p : Fin k)
  deriving DecidableEq

/-- A device and the bios submitted to it. -/
structure Shared (k : Nat) where
  data : Mem Byte
  page : Fin k → Mem Byte
  progress : Fin k → Progress
  queue : List (Fin k)
  lock : Option Nat
  ctx : Nat → Ctx k

/-- A bio enters the queue at a place that the elevator chooses; a context gets `dev->lock` and
calls `vmem_disk_request`; it tests the loop; a context calls `vmem_disk_make_request`; a context
copies a byte, or is through with the bio. -/
inductive Act (k : Nat)
  | add (p : Fin k) (pos : Nat)
  | enter (c : Nat)
  | peek (c : Nat)
  | call (c : Nat) (p : Fin k)
  | copy (c i : Nat)
  | finish (c : Nat)

variable {k : Nat}

/-- Nothing has been submitted. -/
def Shared.start (data : Mem Byte) (page : Fin k → Mem Byte) : Shared k :=
  ⟨data, page, fun _ => .idle, [], none, fun _ => .out⟩

section
variable (W : LongWidth)

/-- `offset` in `vmem_disk_transfer`. -/
def Job.offset (j : Job) : Nat := umul W.bits (j.sector % 2 ^ W.bits) KERNEL_SECTOR_SIZE

/-- The number of bytes that `vmem_disk_transfer` copies; none if they end past the device. -/
def Job.nbytes (j : Job) : Nat :=
  let nbytes := umul W.bits (j.len >>> 9) KERNEL_SECTOR_SIZE
  if devSize < uadd W.bits (j.offset W) nbytes then 0 else nbytes

/-- A context and a bio go on. -/
def Shared.move (s : Shared k) (c : Nat) (x : Ctx k) (p : Fin k) (g : Progress) : Shared k :=
  { s with ctx := Function.update s.ctx c x, progress := Function.update s.progress p g }

/-- One byte of the `memcpy`. -/
def Shared.copyByte (job : Fin k → Job) (s : Shared k) (p : Fin k) (copied : Finset Nat)
    (i : Nat) : Shared k :=
  let s' := { s with progress := Function.update s.progress p (.copying (insert i copied)) }
  if (job p).write then
    { s' with data := Function.update s.data ((job p).offset W + i) (s.page p i) }
  else
    { s' with page := Function.update s.page p
                (Function.update (s.page p) i (s.data ((job p).offset W + i))) }

/-- The loop tests the head of the queue; when there is none, the lock is released. -/
def Shared.peek (s : Shared k) (c : Nat) : Shared k :=
  match s.queue with
  | [] => { s with lock := none, ctx := Function.update s.ctx c .out }
  | p :: rest => { s.move c (.xfer p) p (.copying ∅) with queue := rest }

/-- Where a context goes on after a bio. -/
def Handler.next : Handler → Ctx k
  | .request => .loop
  | .makeRequest => .out

/-- One step of a device whose queue was set up with the function `h`. -/
def Shared.step (h : Handler) (job : Fin k → Job) (s : Shared k) : Act k → Option (Shared k)
  | .add p pos =>
    if h = .request ∧ s.lock = none ∧ s.progress p = .idle then
      some { s with queue := s.queue.take pos ++ p :: s.queue.drop pos,
                    progress := Function.update s.progress p .queued }
    else none
  | .enter c =>
    if h = .request ∧ s.lock = none ∧ s.ctx c = .out then
      some { s with lock := some c, ctx := Function.update s.ctx c .loop }
    else none
  | .peek c => if s.ctx c = .loop then some (s.peek c) else none
  | .call c p =>
    if h = .makeRequest ∧ s.ctx c = .out ∧ s.progress p = .idle then
      some (s.move c (.xfer p) p (.copying ∅))
    else none
  | .copy c i =>
    match s.ctx c with
    | .xfer p =>
      match s.progress p with
      | .copying copied =>
        if i < (job p).nbytes W ∧ i ∉ copied then some (s.copyByte W job p copied i) else none
      | _ => none
    | _ => none
  | .finish c =>
    match s.ctx c with
    | .xfer p =>
      match s.progress p with
      | .copying copied =>
        if ∀ i < (job p).nbytes W, i ∈ copied then some (s.move c h.next p .ended) else none
      | _ => none
    | _ => none

/-- The runs on a device that holds `data`, with the segments of the bios at `page`. -/
def shared (h : Handler) (job : Fin k → Job) (data : Mem Byte) (page : Fin k → Mem Byte) :
    Machine (Shared k) (Act k) where
  init s := s = .start data page
  step := Shared.step W h job

/-! ## One transfer after the other -/

/-- The memory of the only segment of a bio. -/
def onlyPage (page : Mem Byte) : List Segment → Mem Byte
  | [s] => s.page
  | _ => page

/-- `vmem_disk_xfer_bio` without any other. -/
def xferAlone (job : Fin k → Job) (m : Mem Byte × (Fin k → Mem Byte)) (p : Fin k) :
    Mem Byte × (Fin k → Mem Byte) :=
  let x := vmemDiskXferBio W ((job p).bio (m.2 p)) m.1
  (x.2.1, Function.update m.2 p (onlyPage (m.2 p) x.2.2))

/-- The data and the segments after the bios in the given order. -/
def inOrder (job : Fin k → Job) (data : Mem Byte) (page : Fin k → Mem Byte)
    (order : List (Fin k)) : Mem Byte × (Fin k → Mem Byte) :=
  order.foldl (xferAlone W job) (data, page)

/-- The data and the segments are those of the bios made one after the other. -/
def Serializable (job : Fin k → Job) (data : Mem Byte) (page : Fin k → Mem Byte)
    (s : Shared k) : Prop :=
  ∃ order : List (Fin k), order.Nodup ∧ (∀ p, p ∈ order) ∧
    inOrder W job data page order = (s.data, s.page)

end

/-! ## Bios in range -/

section
variable {W : LongWidth} {j : Job}

/-- The bio lies within the device. -/
abbrev Job.InRange (j : Job) : Prop := j.shape.Within devSize

theorem Job.InRange.le (h : j.InRange) : 512 * j.sector + j.len ≤ devSize := by
  simpa [Job.shape, Shape.total] using h.fits

theorem Job.InRange.dvd (h : j.InRange) : 512 ∣ j.len := (h.sectors j.len (by simp [Job.shape])).2

theorem Job.InRange.pos (h : j.InRange) : 0 < j.len := (h.sectors j.len (by simp [Job.shape])).1

/-- The copy of a bio in range goes through the whole segment. -/
theorem Job.InRange.offset_nbytes (h : j.InRange) :
    j.offset W = 512 * j.sector ∧ j.nbytes W = j.len := by
  obtain ⟨n, hn⟩ := h.dvd
  have hle := h.le
  have hW := W.two_pow_le
  have hsize : devSize = 524288 := rfl
  have hoffset : j.offset W = 512 * j.sector := by
    rw [Job.offset, Nat.mod_eq_of_lt (by omega), KERNEL_SECTOR_SIZE, umul_of_lt (by omega),
      Nat.mul_comm]
  refine ⟨hoffset, ?_⟩
  rw [Job.nbytes, hoffset, hn, shiftRight_mul, KERNEL_SECTOR_SIZE, umul_of_lt (by omega),
    uadd_of_lt (by omega), if_neg (by omega), Nat.mul_comm]

/-- A bio in range without any other moves its segment to or from its place. -/
theorem xferAlone_of_inRange {job : Fin k → Job} {p : Fin k} (h : (job p).InRange)
    (m : Mem Byte × (Fin k → Mem Byte)) :
    xferAlone W job m p =
      if (job p).write then (m.1.store (512 * (job p).sector) ((m.2 p).slice 0 (job p).len), m.2)
      else (m.1, Function.update m.2 p
        ((m.2 p).store 0 (m.1.slice (512 * (job p).sector) (job p).len))) := by
  obtain ⟨n, hn⟩ := h.dvd
  have hle := h.le
  have hcur : bioCurBytes ((job p).bio (m.2 p)) = 512 * n := hn
  have hx : (vmemDiskXferBio W ((job p).bio (m.2 p)) m.1).2 =
      moved (job p).write m.1 (512 * (job p).sector) [⟨(job p).len, m.2 p⟩] := by
    rw [vmemDiskXferBio, hcur]
    refine xferSegments_uniform ?_ ?_
    · simp [Job.bio, hn]
    · simpa [Job.bio] using hle
  rw [xferAlone]
  simp only [hx]
  cases (job p).write with
  | true => simp [moved, bytesOf, Segment.bytes, onlyPage]
  | false => simp [moved, fill, onlyPage]

end

/-! ## Contexts, the queue and the lock -/

section
variable {W : LongWidth} {h : Handler} {job : Fin k → Job} {s t : Shared k} {a : Act k}

/-- The queue holds the queued bios once, each bio that is being copied is in the hands of a
context, and the contexts in `vmem_disk_request` hold `dev->lock`. -/
structure Shared.Wf (h : Handler) (s : Shared k) : Prop where
  nodup : s.queue.Nodup
  queued : ∀ p, p ∈ s.queue ↔ s.progress p = .queued
  held : ∀ p copied, s.progress p = .copying copied → ∃ c, s.ctx c = .xfer p
  lock : h = .request → ∀ c, s.ctx c ≠ .out → s.lock = some c

/-- What a step can do to the data, the segments and the bios. -/
inductive Effect (W : LongWidth) (job : Fin k → Job) (s t : Shared k) : Prop
  | keep : t.data = s.data → t.page = s.page → t.progress = s.progress → Effect W job s t
  | wait (p : Fin k) : s.progress p = .idle → t.data = s.data → t.page = s.page →
      t.progress = Function.update s.progress p .queued → Effect W job s t
  | start (p : Fin k) : s.progress p = .idle ∨ s.progress p = .queued → t.data = s.data →
      t.page = s.page → t.progress = Function.update s.progress p (.copying ∅) → Effect W job s t
  | copy (p : Fin k) (copied : Finset Nat) (i : Nat) : s.progress p = .copying copied →
      i < (job p).nbytes W → t = s.copyByte W job p copied i → Effect W job s t
  | finish (p : Fin k) (copied : Finset Nat) : s.progress p = .copying copied →
      (∀ i < (job p).nbytes W, i ∈ copied) → t.data = s.data → t.page = s.page →
      t.progress = Function.update s.progress p .ended → Effect W job s t

/-- A step that copies a byte. -/
theorem Shared.step_copy {c i : Nat} (hs : s.step W h job (.copy c i) = some t) :
    ∃ p copied, s.ctx c = .xfer p ∧ s.progress p = .copying copied ∧ i < (job p).nbytes W ∧
      t = s.copyByte W job p copied i := by
  simp only [Shared.step] at hs
  split at hs
  · next p hc =>
    split at hs
    · next copied hp =>
      split at hs
      · next hi => exact ⟨p, copied, hc, hp, hi.1, (Option.some.inj hs).symm⟩
      · cases hs
    · cases hs
  · cases hs

/-- A step that is through with a bio. -/
theorem Shared.step_finish {c : Nat} (hs : s.step W h job (.finish c) = some t) :
    ∃ p copied, s.ctx c = .xfer p ∧ s.progress p = .copying copied ∧
      (∀ i < (job p).nbytes W, i ∈ copied) ∧ t = s.move c h.next p .ended := by
  simp only [Shared.step] at hs
  split at hs
  · next p hc =>
    split at hs
    · next copied hp =>
      split at hs
      · next hi => exact ⟨p, copied, hc, hp, hi, (Option.some.inj hs).symm⟩
      · cases hs
    · cases hs
  · cases hs

theorem Effect.of_step (hw : s.Wf h) (hs : s.step W h job a = some t) : Effect W job s t := by
  cases a with
  | add p pos =>
    simp only [Shared.step, Option.ite_none_right_eq_some, Option.some.injEq] at hs
    obtain ⟨⟨-, -, hp⟩, rfl⟩ := hs
    exact .wait p hp rfl rfl rfl
  | enter c =>
    simp only [Shared.step, Option.ite_none_right_eq_some, Option.some.injEq] at hs
    obtain ⟨-, rfl⟩ := hs
    exact .keep rfl rfl rfl
  | peek c =>
    simp only [Shared.step, Option.ite_none_right_eq_some, Option.some.injEq] at hs
    obtain ⟨-, rfl⟩ := hs
    unfold Shared.peek
    split
    · exact .keep rfl rfl rfl
    · next p rest hq =>
      have hp : s.progress p = .queued := (hw.queued p).1 (by simp [hq])
      exact .start p (.inr hp) rfl rfl rfl
  | call c p =>
    simp only [Shared.step, Option.ite_none_right_eq_some, Option.some.injEq] at hs
    obtain ⟨⟨-, -, hp⟩, rfl⟩ := hs
    exact .start p (.inl hp) rfl rfl rfl
  | copy c i =>
    obtain ⟨p, copied, -, hp, hi, rfl⟩ := Shared.step_copy hs
    exact .copy p copied i hp hi rfl
  | finish c =>
    obtain ⟨p, copied, -, hp, hall, rfl⟩ := Shared.step_finish hs
    exact .finish p copied hp hall rfl rfl rfl

@[simp] theorem Shared.copyByte_queue (s : Shared k) (p : Fin k) (copied : Finset Nat) (i : Nat) :
    (s.copyByte W job p copied i).queue = s.queue := by
  unfold Shared.copyByte
  split <;> rfl

@[simp] theorem Shared.copyByte_lock (s : Shared k) (p : Fin k) (copied : Finset Nat) (i : Nat) :
    (s.copyByte W job p copied i).lock = s.lock := by
  unfold Shared.copyByte
  split <;> rfl

@[simp] theorem Shared.copyByte_ctx (s : Shared k) (p : Fin k) (copied : Finset Nat) (i : Nat) :
    (s.copyByte W job p copied i).ctx = s.ctx := by
  unfold Shared.copyByte
  split <;> rfl

@[simp] theorem Shared.copyByte_progress (s : Shared k) (p : Fin k) (copied : Finset Nat)
    (i : Nat) : (s.copyByte W job p copied i).progress =
      Function.update s.progress p (.copying (insert i copied)) := by
  unfold Shared.copyByte
  split <;> rfl

/-- A bio leaves the hands of its context, or comes into the hands of one that is free. -/
theorem held_move (hheld : ∀ q copied, s.progress q = .copying copied → ∃ c, s.ctx c = .xfer q)
    {c : Nat} {x : Ctx k} {p : Fin k} {g : Progress} (hx : x = .xfer p ∨ g = .ended)
    (hc : ∀ q, s.ctx c = .xfer q → q = p) (q : Fin k) (copied : Finset Nat)
    (hq : (s.move c x p g).progress q = .copying copied) :
    ∃ c', (s.move c x p g).ctx c' = .xfer q := by
  rcases eq_or_ne q p with rfl | hne
  · rcases hx with rfl | rfl
    · exact ⟨c, Function.update_self ..⟩
    · simp [Shared.move] at hq
  · obtain ⟨c', hc'⟩ := hheld q copied (by simpa [Shared.move, hne] using hq)
    have hcc : c' ≠ c := by
      rintro rfl
      exact hne (hc q hc')
    exact ⟨c', by simpa [Shared.move, hcc] using hc'⟩

/-- A context that copies nothing goes on. -/
theorem held_other (hheld : ∀ q copied, s.progress q = .copying copied → ∃ c, s.ctx c = .xfer q)
    {c : Nat} (hc : ∀ q, s.ctx c ≠ .xfer q) (x : Ctx k) (q : Fin k) (copied : Finset Nat)
    (hq : s.progress q = .copying copied) : ∃ c', Function.update s.ctx c x c' = .xfer q := by
  obtain ⟨c', hc'⟩ := hheld q copied hq
  have hne : c' ≠ c := by
    rintro rfl
    exact hc q hc'
  exact ⟨c', by rwa [Function.update_of_ne hne]⟩

/-- A bio that is not queued goes on, and is not queued then. -/
theorem queued_move (hqueued : ∀ q, q ∈ s.queue ↔ s.progress q = .queued) {p : Fin k}
    {g : Progress} (hp : s.progress p ≠ .queued) (hg : g ≠ .queued) (q : Fin k) :
    q ∈ s.queue ↔ Function.update s.progress p g q = .queued := by
  rw [hqueued q]
  rcases eq_or_ne q p with rfl | hne
  · rw [Function.update_self]
    exact iff_of_false hp hg
  · rw [Function.update_of_ne hne]

theorem Shared.Wf.start {data : Mem Byte} {page : Fin k → Mem Byte} :
    (Shared.start data page).Wf h where
  nodup := List.nodup_nil
  queued p := by simp [Shared.start]
  held p copied hp := by simp [Shared.start] at hp
  lock _ c hc := absurd rfl hc

/-- A context that holds the lock goes on, and no other is in `vmem_disk_request`. -/
theorem lock_move (hlock : h = .request → ∀ c, s.ctx c ≠ .out → s.lock = some c) {c : Nat}
    (hc : h = .request → s.ctx c ≠ .out) (x : Ctx k) (hreq : h = .request) (c' : Nat)
    (hc' : Function.update s.ctx c x c' ≠ .out) : s.lock = some c' := by
  rcases eq_or_ne c' c with rfl | hne
  · exact hlock hreq c' (hc hreq)
  · exact hlock hreq c' (by simpa [hne] using hc')

theorem Shared.Wf.step (hw : s.Wf h) (hs : s.step W h job a = some t) : t.Wf h := by
  cases a with
  | add p pos =>
    simp only [Shared.step, Option.ite_none_right_eq_some, Option.some.injEq] at hs
    obtain ⟨⟨-, -, hp⟩, rfl⟩ := hs
    have hnot : p ∉ s.queue := by
      intro hmem
      cases hp.symm.trans ((hw.queued p).1 hmem)
    have hperm : (s.queue.take pos ++ p :: s.queue.drop pos).Perm (p :: s.queue) := by
      refine List.perm_middle.trans ?_
      rw [List.take_append_drop]
    refine ⟨hperm.nodup_iff.2 (List.nodup_cons.2 ⟨hnot, hw.nodup⟩), ?_, ?_, hw.lock⟩
    · intro q
      rw [hperm.mem_iff, List.mem_cons]
      rcases eq_or_ne q p with rfl | hne
      · simp
      · simp [hne, hw.queued q]
    · intro q copied hq
      have hne : q ≠ p := by
        rintro rfl
        simp at hq
      exact hw.held q copied (by simpa [hne] using hq)
  | enter c =>
    simp only [Shared.step, Option.ite_none_right_eq_some, Option.some.injEq] at hs
    obtain ⟨⟨hreq, hfree, hc⟩, rfl⟩ := hs
    refine ⟨hw.nodup, hw.queued, held_other hw.held ?_ _, ?_⟩
    · intro q hq
      cases hc.symm.trans hq
    · intro _ c' hc'
      rcases eq_or_ne c' c with rfl | hne
      · rfl
      · have hsome := hw.lock hreq c' (by simpa [hne] using hc')
        cases hfree.symm.trans hsome
  | peek c =>
    simp only [Shared.step, Option.ite_none_right_eq_some, Option.some.injEq] at hs
    obtain ⟨hc, rfl⟩ := hs
    have hout : h = .request → s.ctx c ≠ .out := by
      intro _ hout
      cases hc.symm.trans hout
    have hfree : ∀ q, s.ctx c ≠ .xfer q := by
      intro q hq
      cases hc.symm.trans hq
    unfold Shared.peek
    split
    · next hq =>
      refine ⟨hw.nodup, hw.queued, held_other hw.held hfree _, ?_⟩
      intro hreq c' hc'
      have hne : c' ≠ c := by
        rintro rfl
        exact hc' (Function.update_self ..)
      dsimp only at hc'
      rw [Function.update_of_ne hne] at hc'
      have h₁ := hw.lock hreq c (hout hreq)
      have h₂ := hw.lock hreq c' hc'
      exact absurd (Option.some.inj (h₂.symm.trans h₁)) hne
    · next p rest hq =>
      have hnodup := hw.nodup
      rw [hq, List.nodup_cons] at hnodup
      refine ⟨hnodup.2, ?_, ?_, lock_move hw.lock hout _⟩
      · intro q
        have hmem := hw.queued q
        rw [hq, List.mem_cons] at hmem
        rcases eq_or_ne q p with rfl | hne
        · simp [Shared.move, hnodup.1]
        · simpa [Shared.move, hne] using hmem
      · exact held_move hw.held (.inl rfl) fun q hq => absurd hq (hfree q)
  | call c p =>
    simp only [Shared.step, Option.ite_none_right_eq_some, Option.some.injEq] at hs
    obtain ⟨⟨hmake, hc, hp⟩, rfl⟩ := hs
    refine ⟨hw.nodup, queued_move hw.queued (by simp [hp]) Progress.noConfusion, ?_, ?_⟩
    · refine held_move hw.held (.inl rfl) ?_
      intro q hq
      cases hc.symm.trans hq
    · intro hreq
      cases hmake.symm.trans hreq
  | copy c i =>
    obtain ⟨p, copied, -, hp, -, rfl⟩ := Shared.step_copy hs
    refine ⟨by simpa using hw.nodup, ?_, ?_, by simpa using hw.lock⟩
    · rw [Shared.copyByte_queue, Shared.copyByte_progress]
      exact queued_move hw.queued (by simp [hp]) Progress.noConfusion
    · intro q copied' hq
      rcases eq_or_ne q p with rfl | hne
      · simpa using hw.held q copied hp
      · simpa using hw.held q copied' (by simpa [hne] using hq)
  | finish c =>
    obtain ⟨p, copied, hc, hp, -, rfl⟩ := Shared.step_finish hs
    refine ⟨hw.nodup, queued_move hw.queued (by simp [hp]) Progress.noConfusion, ?_, ?_⟩
    · refine held_move hw.held (.inr rfl) ?_
      intro q hq
      exact (Ctx.xfer.inj (hc.symm.trans hq)).symm
    · refine lock_move hw.lock ?_ _
      intro _ hout
      cases hc.symm.trans hout

/-- Under the lock one bio is copied at a time. -/
theorem Shared.Wf.copying_unique (hw : s.Wf .request) {p q : Fin k} {copied copied' : Finset Nat}
    (hp : s.progress p = .copying copied) (hq : s.progress q = .copying copied') : p = q := by
  obtain ⟨c, hc⟩ := hw.held p copied hp
  obtain ⟨c', hc'⟩ := hw.held q copied' hq
  have h₁ := hw.lock rfl c (by simp [hc])
  have h₂ := hw.lock rfl c' (by simp [hc'])
  have heq : c = c' := Option.some.inj (h₁.symm.trans h₂)
  subst heq
  exact Ctx.xfer.inj (hc.symm.trans hc')

end

/-! ## The copies as an overlay -/

section
variable {W : LongWidth} {h : Handler} {job : Fin k → Job} {data : Mem Byte}
  {page : Fin k → Mem Byte} {order : List (Fin k)} {s t : Shared k} {a : Act k}

/-- The address on the device of a byte of a bio. -/
def Job.addr (j : Job) (i : Nat) : Nat := 512 * j.sector + i

/-- No two bios that are being copied conflict. -/
def Shared.Calm (job : Fin k → Job) (s : Shared k) : Prop :=
  ∀ p q copied copied', s.progress p = .copying copied → s.progress q = .copying copied' →
    p ≠ q → ¬ (job p).Conflicts (job q)

/-- A write in progress has copied the byte of an address. -/
def Shared.Written (job : Fin k → Job) (s : Shared k) (x : Nat) : Prop :=
  ∃ p copied, s.progress p = .copying copied ∧ (job p).write ∧ ∃ i ∈ copied, x = (job p).addr i

/-- What is known of a bio `j` whose segment was mapped at `page₀`, when the ended bios leave the
data `after`: a write has stored the bytes that it has copied, a read has loaded those, and a bio
that has ended has the segment `out`. -/
structure BioOk (j : Job) (page₀ after out data page : Mem Byte) (g : Progress) : Prop where
  within : ∀ copied, g = .copying copied → ∀ i ∈ copied, i < j.len
  write : ∀ copied, g = .copying copied → j.write → ∀ i ∈ copied, data (j.addr i) = page₀ i
  read : ∀ copied, g = .copying copied → j.write = false →
    ∀ i, page i = if i ∈ copied then after (j.addr i) else page₀ i
  source : j.write → page = page₀
  waiting : g = .idle ∨ g = .queued → page = page₀
  done : g = .ended → page = out

/-- The data and the segments are those after the ended bios, overlaid with the bytes that the bios
in progress have copied. -/
structure Overlay (W : LongWidth) (job : Fin k → Job) (data : Mem Byte) (page : Fin k → Mem Byte)
    (order : List (Fin k)) (s : Shared k) : Prop where
  nodup : order.Nodup
  ended : ∀ p, p ∈ order ↔ s.progress p = .ended
  rest : ∀ x, ¬ s.Written job x → s.data x = (inOrder W job data page order).1 x
  bio : ∀ p, BioOk (job p) (page p) (inOrder W job data page order).1
    ((inOrder W job data page order).2 p) s.data (s.page p) (s.progress p)

/-- What is known of a bio depends on the data at the bytes that it has copied only. -/
theorem BioOk.frame {j : Job} {page₀ after out data' page' after' out' d : Mem Byte}
    {g : Progress} (h : BioOk j page₀ after out d page' g)
    (hdata : ∀ copied i, g = .copying copied → j.write → i ∈ copied →
      data' (j.addr i) = d (j.addr i))
    (hafter : ∀ copied i, g = .copying copied → j.write = false → i ∈ copied →
      after' (j.addr i) = after (j.addr i)) (hout : out' = out) :
    BioOk j page₀ after' out' data' page' g := by
  refine ⟨h.within, ?_, ?_, h.source, h.waiting, ?_⟩
  · intro copied hg hw i hi
    rw [hdata copied i hg hw hi]
    exact h.write copied hg hw i hi
  · intro copied hg hr i
    rw [h.read copied hg hr i]
    split
    · next hi => rw [hafter copied i hg hr hi]
    · rfl
  · intro hg
    rw [hout]
    exact h.done hg

theorem inOrder_snoc (p : Fin k) : inOrder W job data page (order ++ [p]) =
    xferAlone W job (inOrder W job data page order) p := by
  rw [inOrder, List.foldl_append]
  rfl

/-- A bio changes no other's segment. -/
theorem inOrder_page_of_notMem {p : Fin k} (hp : p ∉ order) :
    (inOrder W job data page order).2 p = page p := by
  induction order using List.reverseRecOn with
  | nil => rfl
  | append_singleton order q ih =>
    rw [List.mem_append, List.mem_singleton, not_or] at hp
    rw [inOrder_snoc]
    exact (Function.update_of_ne hp.2 _ _).trans (ih hp.1)

theorem Overlay.start : Overlay W job data page [] (.start data page) where
  nodup := List.nodup_nil
  ended p := by simp [Shared.start]
  rest _ _ := rfl
  bio p := by constructor <;> simp [Shared.start]

/-- A step of one bio that does not end, given what is known of it after the step. -/
theorem Overlay.update (ho : Overlay W job data page order s) {p : Fin k} {g : Progress}
    {page' : Mem Byte} (hprogress : t.progress = Function.update s.progress p g)
    (hpage : t.page = Function.update s.page p page')
    (hended : g ≠ .ended ∧ s.progress p ≠ .ended)
    (hself : BioOk (job p) (page p) (inOrder W job data page order).1
      ((inOrder W job data page order).2 p) t.data page' g)
    (hothers : ∀ q copied i, q ≠ p → s.progress q = .copying copied → (job q).write →
      i ∈ copied → t.data ((job q).addr i) = s.data ((job q).addr i))
    (hrest : ∀ x, ¬ t.Written job x → t.data x = (inOrder W job data page order).1 x) :
    Overlay W job data page order t := by
  refine ⟨ho.nodup, ?_, hrest, ?_⟩
  · intro q
    rw [ho.ended q, hprogress]
    rcases eq_or_ne q p with rfl | hne
    · rw [Function.update_self]
      exact iff_of_false hended.2 hended.1
    · rw [Function.update_of_ne hne]
  · intro q
    rw [hprogress, hpage]
    rcases eq_or_ne q p with rfl | hne
    · rw [Function.update_self, Function.update_self]
      exact hself
    · rw [Function.update_of_ne hne, Function.update_of_ne hne]
      exact (ho.bio q).frame (fun copied i => hothers q copied i hne) (fun _ _ _ _ _ => rfl) rfl

/-- A byte that is written before a step of a bio is written after it, if that step keeps it. -/
theorem Shared.Written.update {p : Fin k} {g : Progress} {x : Nat} (h : s.Written job x)
    (hprogress : t.progress = Function.update s.progress p g)
    (hself : ∀ copied, s.progress p = .copying copied → (job p).write →
      (∃ i ∈ copied, x = (job p).addr i) → t.Written job x) : t.Written job x := by
  obtain ⟨q, copied, hq, hw, hi⟩ := h
  rcases eq_or_ne q p with rfl | hne
  · exact hself copied hq hw hi
  · refine ⟨q, copied, ?_, hw, hi⟩
    rw [hprogress, Function.update_of_ne hne, hq]

/-- A bio that has copied nothing and has not ended may be queued or started. -/
theorem Overlay.advance (ho : Overlay W job data page order s) {p : Fin k} {g : Progress}
    (hp : s.progress p = .idle ∨ s.progress p = .queued) (hg : g = .queued ∨ g = .copying ∅)
    (hdata : t.data = s.data) (hpage : t.page = s.page)
    (hprogress : t.progress = Function.update s.progress p g) :
    Overlay W job data page order t := by
  have hpage₀ : s.page p = page p := (ho.bio p).waiting hp
  have hempty : ∀ copied, g = .copying copied → copied = ∅ := by
    intro copied hcopied
    rcases hg with rfl | rfl
    · cases hcopied
    · exact (Progress.copying.inj hcopied).symm
  have hsame : t.page = Function.update s.page p (page p) := by
    rw [hpage, ← hpage₀, Function.update_eq_self]
  refine ho.update hprogress hsame ?_ ⟨?_, ?_, ?_, ?_, ?_, ?_⟩ ?_ ?_
  · rcases hp with hp | hp <;> rcases hg with rfl | rfl <;> simp [hp]
  · intro copied hcopied i hi
    rw [hempty copied hcopied] at hi
    cases Finset.notMem_empty i hi
  · intro copied hcopied _ i hi
    rw [hempty copied hcopied] at hi
    cases Finset.notMem_empty i hi
  · intro copied hcopied _ i
    rw [hempty copied hcopied, if_neg (Finset.notMem_empty i)]
  · intro _
    rfl
  · intro _
    rfl
  · rintro rfl
    rcases hg with hg | hg <;> cases hg
  · intro q copied i _ _ _ _
    rw [hdata]
  · intro x hx
    rw [hdata]
    refine ho.rest x fun hwritten => hx (hwritten.update hprogress ?_)
    intro copied hcopied
    rcases hp with hp | hp <;> cases hp.symm.trans hcopied

/-- Bios with a byte in common conflict if one of them writes. -/
theorem conflicts_of_addr {j j' : Job} {i i' : Nat} (hw : j.write ∨ j'.write) (hi : i < j.len)
    (hi' : i' < j'.len) (heq : j.addr i = j'.addr i') : j.Conflicts j' := by
  unfold Job.addr at heq
  exact ⟨hw, by omega, by omega⟩

theorem copyByte_of_write {p : Fin k} {copied : Finset Nat} {i : Nat} (hin : (job p).InRange)
    (hw : (job p).write) : s.copyByte W job p copied i =
      { s with
        data := Function.update s.data ((job p).addr i) (s.page p i)
        progress := Function.update s.progress p (.copying (insert i copied)) } := by
  rw [Shared.copyByte, if_pos hw, hin.offset_nbytes.1]
  rfl

theorem copyByte_of_read {p : Fin k} {copied : Finset Nat} {i : Nat} (hin : (job p).InRange)
    (hw : (job p).write = false) : s.copyByte W job p copied i =
      { s with
        page := Function.update s.page p
          (Function.update (s.page p) i (s.data ((job p).addr i)))
        progress := Function.update s.progress p (.copying (insert i copied)) } := by
  rw [Shared.copyByte, if_neg (by simp [hw]), hin.offset_nbytes.1]
  rfl

/-- The offsets that are copied are within the bio, with one more that is. -/
theorem BioOk.within_insert {j : Job} {page₀ after out d page' : Mem Byte} {f : Finset Nat}
    {i : Nat} (h : BioOk j page₀ after out d page' (.copying f)) (hi : i < j.len)
    (copied : Finset Nat) (hcopied : Progress.copying (insert i f) = .copying copied) :
    ∀ n ∈ copied, n < j.len := by
  obtain rfl := Progress.copying.inj hcopied
  intro n hn
  rcases Finset.mem_insert.1 hn with rfl | hn
  · exact hi
  · exact h.within f rfl n hn

/-- A byte of a write in progress. -/
theorem Overlay.copyWrite (ho : Overlay W job data page order s) (hcalm : s.Calm job) {p : Fin k}
    {copied : Finset Nat} {i : Nat} (hp : s.progress p = .copying copied) (hi : i < (job p).len)
    (hw : (job p).write) (hdata : t.data = Function.update s.data ((job p).addr i) (s.page p i))
    (hpage : t.page = s.page)
    (hprogress : t.progress = Function.update s.progress p (.copying (insert i copied))) :
    Overlay W job data page order t := by
  have hok := ho.bio p
  rw [hp] at hok
  have hself : t.progress p = .copying (insert i copied) := by rw [hprogress, Function.update_self]
  have hsame : t.page = Function.update s.page p (s.page p) := by
    rw [hpage, Function.update_eq_self]
  refine ho.update hprogress hsame (by simp [hp])
    ⟨hok.within_insert hi, ?_, ?_, hok.source, by simp, by simp⟩ ?_ ?_
  · intro copied' hcopied _ n hn
    obtain rfl := Progress.copying.inj hcopied
    rw [hdata]
    rcases eq_or_ne n i with rfl | hne
    · rw [Function.update_self, hok.source hw]
    · have haddr : (job p).addr n ≠ (job p).addr i := by
        unfold Job.addr
        omega
      rw [Function.update_of_ne haddr]
      exact hok.write copied rfl hw n (Finset.mem_of_mem_insert_of_ne hn hne)
  · intro _ _ hr
    cases hw.symm.trans hr
  · intro q copied' n hne hq hwq hn
    have haddr : (job q).addr n ≠ (job p).addr i := by
      intro heq
      exact hcalm q p copied' copied hq hp hne
        (conflicts_of_addr (.inl hwq) ((ho.bio q).within copied' hq n hn) hi heq)
    rw [hdata, Function.update_of_ne haddr]
  · intro x hx
    have hxi : x ≠ (job p).addr i := by
      intro heq
      exact hx ⟨p, _, hself, hw, i, Finset.mem_insert_self .., heq⟩
    rw [hdata, Function.update_of_ne hxi]
    refine ho.rest x fun hwritten => hx (hwritten.update hprogress ?_)
    rintro copied' hcopied - ⟨n, hn, heq⟩
    obtain rfl := Progress.copying.inj (hp.symm.trans hcopied)
    exact ⟨p, _, hself, hw, n, Finset.mem_insert_of_mem hn, heq⟩

/-- No write in progress has copied a byte of a read in progress. -/
theorem Overlay.read_addr (ho : Overlay W job data page order s) (hcalm : s.Calm job) {p : Fin k}
    {copied : Finset Nat} {i : Nat} (hp : s.progress p = .copying copied) (hi : i < (job p).len)
    (hr : (job p).write = false) :
    s.data ((job p).addr i) = (inOrder W job data page order).1 ((job p).addr i) := by
  refine ho.rest _ ?_
  rintro ⟨q, copied', hq, hwq, j, hj, heq⟩
  have hne : p ≠ q := by
    rintro rfl
    cases hr.symm.trans hwq
  exact hcalm p q copied copied' hp hq hne
    (conflicts_of_addr (.inr hwq) hi ((ho.bio q).within copied' hq j hj) heq)

/-- A byte of a read in progress. -/
theorem Overlay.copyRead (ho : Overlay W job data page order s) (hcalm : s.Calm job) {p : Fin k}
    {copied : Finset Nat} {i : Nat} (hp : s.progress p = .copying copied) (hi : i < (job p).len)
    (hr : (job p).write = false) (hdata : t.data = s.data)
    (hpage : t.page = Function.update s.page p
      (Function.update (s.page p) i (s.data ((job p).addr i))))
    (hprogress : t.progress = Function.update s.progress p (.copying (insert i copied))) :
    Overlay W job data page order t := by
  have hok := ho.bio p
  rw [hp] at hok
  refine ho.update hprogress hpage (by simp [hp])
    ⟨hok.within_insert hi, ?_, ?_, ?_, by simp, by simp⟩ ?_ ?_
  · intro _ _ hw
    cases hr.symm.trans hw
  · intro copied' hcopied _ n
    obtain rfl := Progress.copying.inj hcopied
    rcases eq_or_ne n i with rfl | hne
    · rw [Function.update_self, if_pos (Finset.mem_insert_self ..)]
      exact ho.read_addr hcalm hp hi hr
    · rw [Function.update_of_ne hne, hok.read copied rfl hr n]
      simp only [Finset.mem_insert, hne, false_or]
  · intro hw
    cases hr.symm.trans hw
  · intro q copied' n _ _ _ _
    rw [hdata]
  · intro x hx
    rw [hdata]
    refine ho.rest x fun hwritten => hx (hwritten.update hprogress ?_)
    intro _ _ hw
    cases hr.symm.trans hw

/-- A byte of the device after one more bio. -/
theorem inOrder_snoc_apply {p : Fin k} (hin : (job p).InRange) (hp : p ∉ order) (x : Nat) :
    (inOrder W job data page (order ++ [p])).1 x =
      if (job p).write ∧ 512 * (job p).sector ≤ x ∧ x < 512 * (job p).sector + (job p).len then
        page p (x - 512 * (job p).sector)
      else (inOrder W job data page order).1 x := by
  rw [inOrder_snoc, xferAlone_of_inRange hin, inOrder_page_of_notMem hp]
  cases (job p).write with
  | true => simp [Mem.store_slice_apply]
  | false => simp

/-- The segments after one more bio. -/
theorem inOrder_snoc_page {p : Fin k} (hin : (job p).InRange) (hp : p ∉ order) (q : Fin k) :
    (inOrder W job data page (order ++ [p])).2 q =
      if q = p ∧ (job p).write = false then
        (page p).store 0 ((inOrder W job data page order).1.slice (512 * (job p).sector)
          (job p).len)
      else (inOrder W job data page order).2 q := by
  rw [inOrder_snoc, xferAlone_of_inRange hin, inOrder_page_of_notMem hp]
  cases (job p).write with
  | true => simp
  | false =>
    rcases eq_or_ne q p with rfl | hne
    · simp
    · simp [hne]

/-- What is known of a bio that has copied all its bytes, when it has ended. -/
theorem BioOk.finish {j : Job} {page₀ after out d page' after' : Mem Byte} {f : Finset Nat}
    (h : BioOk j page₀ after page₀ d page' (.copying f)) (hall : ∀ i < j.len, i ∈ f)
    (hout : out = if j.write = false then page₀.store 0 (after.slice (512 * j.sector) j.len)
      else page₀) : BioOk j page₀ after' out d page' .ended := by
  refine ⟨by simp, by simp, by simp, h.source, by simp, ?_⟩
  intro _
  rw [hout]
  cases hw : j.write with
  | true => exact h.source hw
  | false =>
    rw [if_pos rfl]
    funext i
    rw [Mem.store_slice_apply, h.read f rfl hw i]
    by_cases hi : i < j.len
    · rw [if_pos (hall i hi), if_pos ⟨Nat.zero_le i, by omega⟩]
      rfl
    · rw [if_neg (fun hmem => hi (h.within f rfl i hmem)), if_neg (by omega)]

/-- A bio that has copied all its bytes is the last of those that have ended. -/
theorem Overlay.finish (ho : Overlay W job data page order s) (hcalm : s.Calm job) {p : Fin k}
    {copied : Finset Nat} (hin : (job p).InRange) (hp : s.progress p = .copying copied)
    (hall : ∀ i < (job p).len, i ∈ copied) (hdata : t.data = s.data) (hpage : t.page = s.page)
    (hprogress : t.progress = Function.update s.progress p .ended) :
    Overlay W job data page (order ++ [p]) t := by
  have hok := ho.bio p
  rw [hp] at hok
  have hnot : p ∉ order := by
    intro hmem
    cases hp.symm.trans ((ho.ended p).1 hmem)
  refine ⟨?_, ?_, ?_, ?_⟩
  · rw [← List.concat_eq_append]
    exact ho.nodup.concat hnot
  · intro q
    rw [List.mem_append, List.mem_singleton, ho.ended q, hprogress]
    rcases eq_or_ne q p with rfl | hne
    · simp
    · simp [hne]
  · intro x hx
    rw [hdata, inOrder_snoc_apply hin hnot]
    split
    · next hx' =>
      have hi : x - 512 * (job p).sector < (job p).len := by omega
      have haddr : (job p).addr (x - 512 * (job p).sector) = x := by
        unfold Job.addr
        omega
      have hwrite := hok.write copied rfl hx'.1 _ (hall _ hi)
      rwa [haddr] at hwrite
    · next hx' =>
      refine ho.rest x fun hwritten => hx (hwritten.update hprogress ?_)
      rintro copied' hcopied hw ⟨i, hi, rfl⟩
      have hlt := (ho.bio p).within copied' hcopied i hi
      exact absurd ⟨hw, by unfold Job.addr; omega, by unfold Job.addr; omega⟩ hx'
  · intro q
    rw [hdata, hpage, hprogress, inOrder_snoc_page hin hnot]
    rcases eq_or_ne q p with rfl | hne
    · rw [Function.update_self, inOrder_page_of_notMem hnot]
      rw [inOrder_page_of_notMem hnot] at hok
      exact hok.finish hall (by simp)
    · rw [Function.update_of_ne hne]
      refine (ho.bio q).frame (fun _ _ _ _ _ => rfl) ?_ (if_neg fun h => hne h.1)
      intro copied' i hq hr hi
      rw [inOrder_snoc_apply hin hnot, if_neg]
      rintro ⟨hw, hle, hlt⟩
      have haddr : (job q).addr i = (job p).addr ((job q).addr i - 512 * (job p).sector) := by
        unfold Job.addr at hle ⊢
        omega
      exact hcalm q p copied' copied hq hp hne
        (conflicts_of_addr (.inr hw) ((ho.bio q).within copied' hq i hi) (by omega) haddr)

/-- **One step**, in a state where no two bios in progress conflict. -/
theorem Overlay.step (ho : Overlay W job data page order s) (hcalm : s.Calm job)
    (hin : ∀ p, (job p).InRange) (he : Effect W job s t) :
    ∃ order', Overlay W job data page order' t := by
  cases he with
  | keep hdata hpage hprogress =>
    obtain ⟨hnodup, hended, hrest, hbio⟩ := ho
    rw [← hprogress] at hended hbio
    rw [← hdata] at hrest hbio
    rw [← hpage] at hbio
    refine ⟨order, hnodup, hended, ?_, hbio⟩
    intro x hx
    refine hrest x ?_
    rwa [Shared.Written, ← hprogress]
  | wait p hp hdata hpage hprogress =>
    exact ⟨order, ho.advance (.inl hp) (.inl rfl) hdata hpage hprogress⟩
  | start p hp hdata hpage hprogress =>
    exact ⟨order, ho.advance hp (.inr rfl) hdata hpage hprogress⟩
  | copy p copied i hp hi ht =>
    rw [(hin p).offset_nbytes.2] at hi
    cases hw : (job p).write with
    | true =>
      rw [copyByte_of_write (hin p) hw] at ht
      subst ht
      exact ⟨order, ho.copyWrite hcalm hp hi hw rfl rfl rfl⟩
    | false =>
      rw [copyByte_of_read (hin p) hw] at ht
      subst ht
      exact ⟨order, ho.copyRead hcalm hp hi hw rfl rfl rfl⟩
  | finish p copied hp hall hdata hpage hprogress =>
    rw [(hin p).offset_nbytes.2] at hall
    exact ⟨order ++ [p], ho.finish hcalm (hin p) hp hall hdata hpage hprogress⟩

/-- **A whole run**: with the lock, or without conflicts among the bios, the device is at every
moment as after the ended bios, up to the bytes that bios in progress have copied. -/
theorem overlay_of_reach {mode : Int} (hin : ∀ p, (job p).InRange)
    (hcalm : mode ≠ VMEMD_NOQUEUE ∨ ∀ p q, p ≠ q → ¬ (job p).Conflicts (job q))
    (hs : (shared W (handlerOf mode) job data page).Reach Machine.anyStep s) :
    s.Wf (handlerOf mode) ∧ ∃ order, Overlay W job data page order s := by
  refine hs.invariant (I := fun s => s.Wf (handlerOf mode) ∧ ∃ order,
    Overlay W job data page order s) ?_ ?_
  · rintro s rfl
    exact ⟨.start, [], .start⟩
  · rintro s a t ⟨hw, order, ho⟩ - ht
    refine ⟨hw.step ht, ho.step ?_ hin (.of_step hw ht)⟩
    intro p q copied copied' hp hq hne
    rcases hcalm with hmode | hcalm
    · rw [handlerOf, if_neg hmode] at hw
      exact absurd (hw.copying_unique hp hq) hne
    · exact hcalm p q hne

end

end LinuxTraining.VmemDisk
