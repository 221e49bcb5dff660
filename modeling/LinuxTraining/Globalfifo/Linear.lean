import LinuxTraining.Globalfifo.Lock
import LinuxTraining.Globalfifo.Queue
import Mathlib.Data.List.Permutation

/-!
# globalfifo is a linearizable byte queue where `memcpy` is asked for what it promises

The queue is the first `current_len` bytes of `mem`. Each call takes effect in one step: a copy, a
refusal, or the discovery of a signal. `globalfifo_read` moves the rest of the queue down with
`memcpy`, and `isByteQueue_of_memcpyDefined` are the runs in which the ranges are apart or `memcpy`
moves data down all the same; `readOfOne_not_byteQueue` is a run in which neither holds.
-/

namespace LinuxTraining.Globalfifo

open Lib

/-- The queue that a device holds. -/
def Dev.content (d : Dev) : List Byte := d.mem.slice 0 d.currentLen

@[simp] theorem Dev.length_content (d : Dev) : d.content.length = d.currentLen :=
  Mem.length_slice ..

/-! ## The copies -/

section
variable {W : LongWidth} {cp : Copier Byte} {d : Dev} {count : Nat} {limit : Option Fault}

theorem readCount_eq (d : Dev) (count : Nat) : readCount d count = min count d.currentLen := by
  unfold readCount
  split <;> omega

theorem writeCount_eq (hd : d.currentLen ≤ GLOBALFIFO_SIZE) :
    writeCount d count = min count (GLOBALFIFO_SIZE - d.currentLen) := by
  unfold writeCount
  rw [usub_of_le hd (by decide)]
  split <;> omega

/-- The call of `memcpy` in `globalfifo_read` is one that the contract covers, or that the copier
makes right. -/
def MemcpyCovered (cp : Copier Byte) (d : Dev) (count : Nat) : Prop :=
  Apart 0 (readCount d count) (d.currentLen - readCount d count) ∨ cp.MovesDown

/-- A read whose user copy is complete takes the first bytes of the queue. -/
theorem readCopy_of_complete (hd : d.currentLen ≤ GLOBALFIFO_SIZE)
    (hfull : (copyToUser limit (d.mem.slice 0 (readCount d count))).2 = 0)
    (hcp : MemcpyCovered cp d count) :
    let n := min count d.currentLen
    (readCopy W cp count d limit).ok = true ∧
      (readCopy W cp count d limit).res = ⟨(n : Nat), d.content.take n⟩ ∧
      (readCopy W cp count d limit).dev.currentLen = d.currentLen - n ∧
      (readCopy W cp count d limit).dev.content = d.content.drop n := by
  have hsize : GLOBALFIFO_SIZE = 4096 := rfl
  have hW := W.two_pow_le
  have hle : readCount d count ≤ d.currentLen := by rw [readCount_eq]; omega
  have hsub : usub W.bits d.currentLen (readCount d count) = d.currentLen - readCount d count :=
    usub_of_le hle (by omega)
  have hnarrow : (d.currentLen - readCount d count) % 2 ^ 32 = d.currentLen - readCount d count :=
    Nat.mod_eq_of_lt (by omega)
  have hret : toSigned 32 (readCount d count) = readCount d count :=
    toSigned_of_range (by omega) (by omega)
  have hcopy : cp.copy d.mem 0 (readCount d count) (d.currentLen - readCount d count) = _ :=
    cp.copy_down (Nat.zero_le _) hcp
  have hcontent : (d.mem.store 0 (d.mem.slice (readCount d count)
      (d.currentLen - readCount d count))).slice 0 (d.currentLen - readCount d count) =
      d.content.drop (readCount d count) := by
    have hself := Mem.slice_store_self d.mem 0
      (d.mem.slice (readCount d count) (d.currentLen - readCount d count))
    rw [Mem.length_slice] at hself
    rw [hself, Dev.content, Mem.drop_slice _ _ hle, Nat.zero_add]
  have hread : readCopy W cp count d limit =
      ⟨⟨d.currentLen - readCount d count, d.mem.store 0 (d.mem.slice (readCount d count)
          (d.currentLen - readCount d count)), d.mutex, d.rWait, d.wWait, d.asyncQueue⟩,
        ⟨readCount d count, d.mem.slice 0 (readCount d count)⟩, true⟩ := by
    unfold readCopy
    dsimp only
    rw [if_neg (by rw [hfull]; simp), copyToUser_fst_of_left_zero hfull, hsub, hnarrow, hret, hcopy]
  rw [hread, ← readCount_eq]
  refine ⟨rfl, ?_, rfl, hcontent⟩
  rw [Dev.content, Mem.take_slice _ _ hle]

/-- A read whose user copy faults leaves the device. -/
theorem readCopy_of_fault
    (hfault : (copyToUser limit (d.mem.slice 0 (readCount d count))).2 ≠ 0) :
    ∃ k, k < min count d.currentLen ∧
      readCopy W cp count d limit = ⟨d, ⟨-EFAULT, d.content.take k⟩, false⟩ := by
  have hle := copied_le limit (readCount d count)
  have hcount := readCount_eq d count
  refine ⟨copied limit (readCount d count), ?_, ?_⟩
  · simp only [copyToUser, Mem.length_slice] at hfault
    omega
  · unfold readCopy
    dsimp only
    rw [if_pos hfault, copyToUser, Mem.length_slice, Mem.take_slice _ _ hle, Dev.content,
      Mem.take_slice _ _ (by omega)]

/-- A write whose user copy is complete appends the first bytes of the buffer. -/
theorem writeCopy_of_complete {buf : Mem Byte} (hd : d.currentLen ≤ GLOBALFIFO_SIZE)
    (hfull : (copyFromUser limit d.mem d.currentLen (buf.slice 0 (writeCount d count))).2 = 0) :
    let n := min count (GLOBALFIFO_SIZE - d.currentLen)
    (writeCopy W buf count d limit).ok = true ∧
      (writeCopy W buf count d limit).res = ⟨(n : Nat), []⟩ ∧
      (writeCopy W buf count d limit).dev.currentLen = d.currentLen + n ∧
      (writeCopy W buf count d limit).dev.content = d.content ++ buf.slice 0 n := by
  have hsize : GLOBALFIFO_SIZE = 4096 := rfl
  have hW := W.two_pow_le
  have hcount : writeCount d count = min count (GLOBALFIFO_SIZE - d.currentLen) := writeCount_eq hd
  have hadd : uadd W.bits d.currentLen (writeCount d count) = d.currentLen + writeCount d count :=
    uadd_of_lt (by omega)
  have hnarrow : (d.currentLen + writeCount d count) % 2 ^ 32 = d.currentLen + writeCount d count :=
    Nat.mod_eq_of_lt (by omega)
  have hret : toSigned 32 (writeCount d count) = writeCount d count :=
    toSigned_of_range (by omega) (by omega)
  have hcontent : (d.mem.store d.currentLen (buf.slice 0 (writeCount d count))).slice 0
      (d.currentLen + writeCount d count) = d.content ++ buf.slice 0 (writeCount d count) := by
    have hself := Mem.slice_store_self d.mem d.currentLen (buf.slice 0 (writeCount d count))
    rw [Mem.length_slice] at hself
    rw [Mem.slice_add, Nat.zero_add, hself, Mem.slice_store_of_disjoint d.mem (.inl (by omega)),
      Dev.content]
  have hwrite : writeCopy W buf count d limit =
      ⟨⟨d.currentLen + writeCount d count,
          d.mem.store d.currentLen (buf.slice 0 (writeCount d count)), d.mutex, d.rWait, d.wWait,
          d.asyncQueue⟩, ⟨writeCount d count, []⟩, true⟩ := by
    unfold writeCopy
    dsimp only
    rw [if_neg (by rw [hfull]; simp), copyFromUser_fst_of_left_zero hfull, hadd, hnarrow, hret]
  rw [hwrite, ← hcount]
  exact ⟨rfl, rfl, rfl, hcontent⟩

/-- A write whose user copy faults dirties the buffer past the queue only. -/
theorem writeCopy_of_fault {buf : Mem Byte}
    (hfault : (copyFromUser limit d.mem d.currentLen (buf.slice 0 (writeCount d count))).2 ≠ 0) :
    (writeCopy W buf count d limit).ok = false ∧
      (writeCopy W buf count d limit).res = ⟨-EFAULT, []⟩ ∧
      (writeCopy W buf count d limit).dev.currentLen = d.currentLen ∧
      (writeCopy W buf count d limit).dev.content = d.content := by
  unfold writeCopy
  dsimp only
  rw [if_pos hfault]
  refine ⟨rfl, rfl, rfl, ?_⟩
  exact copyFromUser_frame limit d.mem (.inl (Nat.zero_add d.currentLen).le)

end

/-! ## One step -/

/-- The call of a process as its callers see it: it takes effect at a copy, at a refusal, or where
it finds a signal. -/
def Proc.phase (x : Proc) : Phase Call Result :=
  match x.pc with
  | .idle => .idle
  | .lock | .addWait | .test | .setState | .unlock1 | .schedule | .sigTest | .relock | .copy
  | .switch | .clear | .pollWait | .mask | .fasync => .pending x.call
  | .wake | .killFasync | .out | .out2 | .setRunning | .ret => .done x.call x.res

/-- The condition under which a read or a write waits. -/
def Call.blocked : Call → Dev → Prop
  | .read _ _, d => d.currentLen = 0
  | .write _ _ _, d => d.currentLen = GLOBALFIFO_SIZE
  | _, _ => False

/-- The call may wait. -/
def Call.mayBlock : Call → Prop
  | .read _ nonblock | .write _ _ nonblock => nonblock = false
  | _ => False

/-- What is known of a process: at its copy the loop's condition is false, in the loop it may
block, and past the `switch` it clears. -/
def Proc.Sound (d : Dev) (x : Proc) : Prop :=
  match x.pc with
  | .copy => ¬ x.call.blocked d
  | .setState | .unlock1 | .schedule | .sigTest | .relock => x.call.mayBlock
  | .clear => x.call = .ioctl FIFO_CLEAR
  | .lock => ∀ cmd, x.call = .ioctl cmd → cmd = FIFO_CLEAR
  | _ => True

/-- A step of process `p` at `x` is one move of the queue, or none. -/
structure Linear (d : Dev) (x : Proc) (e : Effect) : Prop where
  bound : e.dev.currentLen ≤ GLOBALFIFO_SIZE
  sound : e.proc.Sound e.dev
  same : ¬ x.pc.Holding → e.dev.currentLen = d.currentLen
  move : (e.dev.content = d.content ∧ e.proc.phase = x.phase) ∨
    (x.phase = .pending x.call ∧ e.proc.phase = .done x.call e.proc.res ∧
      QueueStep d.content x.call e.proc.res e.dev.content)

/-- What the copy of a call does to the queue. -/
structure CopyStep (d : Dev) (call : Call) (r : Copied) : Prop where
  bound : r.dev.currentLen ≤ GLOBALFIFO_SIZE
  step : QueueStep d.content call r.res r.dev.content

section
variable {W : LongWidth} {cp : Copier Byte} {async : Bool} {d : Dev} {p : Nat} {x : Proc}
  {task : TaskState} {sig : Bool} {limit : Option Fault} {e : Effect}

/-- A step that leaves the device's content and does not take effect. -/
theorem Linear.silent (hb : d.currentLen ≤ GLOBALFIFO_SIZE)
    (hlen : e.dev.currentLen = d.currentLen) (hmem : e.dev.mem = d.mem)
    (hsound : e.proc.Sound e.dev) (hph : e.proc.phase = x.phase) : Linear d x e :=
  ⟨hlen ▸ hb, hsound, fun _ => hlen, .inl ⟨by rw [Dev.content, hlen, hmem]; rfl, hph⟩⟩

/-- A step at which the call takes effect without changing the device's content. -/
theorem Linear.refuse (hb : d.currentLen ≤ GLOBALFIFO_SIZE) (hd : e.dev.currentLen = d.currentLen)
    (hm : e.dev.mem = d.mem) (hsound : e.proc.Sound e.dev) (hx : x.phase = .pending x.call)
    (hph : e.proc.phase = .done x.call e.proc.res)
    (hs : QueueStep d.content x.call e.proc.res d.content) : Linear d x e := by
  have hcontent : e.dev.content = d.content := by
    rw [Dev.content, hd, hm]
    rfl
  exact ⟨hd ▸ hb, hsound, fun _ => hd, .inr ⟨hx, hph, by rwa [hcontent]⟩⟩

/-- `mutex_lock` takes no effect on the queue. -/
theorem mutexLock_linear {next : Pc} (h : mutexLock d p x next = some e)
    (hb : d.currentLen ≤ GLOBALFIFO_SIZE) (hs : (x.goto next).Sound { d with mutex := some p })
    (hph : (x.goto next).phase = x.phase) : Linear d x e := by
  obtain ⟨-, rfl⟩ := mutexLock_eq_some h
  exact .silent hb rfl rfl hs hph

/-- `mutex_unlock` takes no effect on the queue. -/
theorem mutexUnlock_linear {next : Pc} (h : mutexUnlock d x next = some e)
    (hb : d.currentLen ≤ GLOBALFIFO_SIZE) (hs : (x.goto next).Sound { d with mutex := none })
    (hph : (x.goto next).phase = x.phase) : Linear d x e := by
  cases h
  exact .silent hb rfl rfl hs hph

/-- A step of a read or a write, given what its parts do. -/
theorem rwStep_linear {c : RwCode} (hb : d.currentLen ≤ GLOBALFIFO_SIZE) (hx : x.Sound d)
    (hblocked : c.blocked d = true ↔ x.call.blocked d)
    (hmay : c.nonblock = false → x.call.mayBlock)
    (hagain : c.blocked d = true → c.nonblock = true →
      QueueStep d.content x.call ⟨-EAGAIN, []⟩ d.content)
    (hsignal : x.call.mayBlock → QueueStep d.content x.call ⟨-ERESTARTSYS, []⟩ d.content)
    (hcopy : x.pc = .copy → ¬ x.call.blocked d → CopyStep d x.call (c.copy d limit))
    (h : rwStep c d p x task sig limit = some e) : Linear d x e := by
  cases rwStep_rule h with
  | addWait =>
    refine .silent hb ?_ ?_ trivial rfl
    · cases c.addsTo <;> rfl
    · cases c.addsTo <;> rfl
  | again hbl hnb => exact .refuse hb rfl rfl trivial rfl rfl (hagain hbl hnb)
  | sleep _ hblock => exact .silent hb rfl rfl (hmay hblock) rfl
  | pass hfree =>
    exact .silent hb rfl rfl (fun hcb => Bool.false_ne_true (hfree.symm.trans (hblocked.2 hcb))) rfl
  | interrupted => exact .refuse hb rfl rfl trivial rfl rfl (hsignal hx)
  | copied | fault =>
    obtain ⟨hbound, hstep⟩ := hcopy rfl hx
    exact ⟨hbound, trivial, fun hout => absurd trivial hout, .inr ⟨rfl, rfl, hstep⟩⟩
  | out2 =>
    refine .silent hb ?_ ?_ trivial rfl
    · cases c.removesFrom <;> rfl
    · cases c.removesFrom <;> rfl
  | setState | unlock1 | schedule | retry => exact .silent hb rfl rfl hx rfl
  | lock | relock | wake | wakeKill | killFasync | out | setRunning =>
    exact .silent hb rfl rfl trivial rfl

/-- The copy of a read that the contract covers. -/
theorem readCopy_step {count : Nat} {nonblock : Bool} (hb : d.currentLen ≤ GLOBALFIFO_SIZE)
    (hne : d.currentLen ≠ 0)
    (hcp : (copyToUser limit (d.mem.slice 0 (readCount d count))).2 = 0 →
      MemcpyCovered cp d count) :
    CopyStep d (.read count nonblock) (readCopy W cp count d limit) := by
  have hnonempty : d.content ≠ [] := fun he => hne (by rw [← Dev.length_content, he]; rfl)
  rcases Nat.eq_zero_or_pos (copyToUser limit (d.mem.slice 0 (readCount d count))).2 with h0 | hpos
  · obtain ⟨-, hres, hlen, hcontent⟩ := readCopy_of_complete (W := W) hb h0 (hcp h0)
    refine ⟨by rw [hlen]; omega, ?_⟩
    rw [hres, hcontent, ← Dev.length_content]
    exact .read count nonblock hnonempty
  · obtain ⟨k, hk, hres⟩ := @readCopy_of_fault W cp d count limit (Nat.ne_of_gt hpos)
    rw [hres]
    exact ⟨hb, .readFault count k nonblock hnonempty (by rwa [Dev.length_content])⟩

/-- The copy of a write. -/
theorem writeCopy_step {buf : Mem Byte} {count : Nat} {nonblock : Bool}
    (hb : d.currentLen ≤ GLOBALFIFO_SIZE) (hne : d.currentLen ≠ GLOBALFIFO_SIZE) :
    CopyStep d (.write buf count nonblock) (writeCopy W buf count d limit) := by
  have hroom : d.content.length < GLOBALFIFO_SIZE := by rw [Dev.length_content]; omega
  rcases Nat.eq_zero_or_pos
    (copyFromUser limit d.mem d.currentLen (buf.slice 0 (writeCount d count))).2 with h0 | hpos
  · obtain ⟨-, hres, hlen, hcontent⟩ := writeCopy_of_complete (W := W) hb h0
    refine ⟨by rw [hlen]; omega, ?_⟩
    rw [hres, hcontent, ← Dev.length_content]
    exact .write buf count nonblock hroom
  · obtain ⟨-, hres, hlen, hcontent⟩ := writeCopy_of_fault (W := W) (Nat.ne_of_gt hpos)
    refine ⟨by rwa [hlen], ?_⟩
    rw [hres, hcontent]
    exact .writeFault buf count nonblock hroom

/-- A step of an `ioctl`. -/
theorem globalfifoIoctl_linear {cmd : Nat} (hb : d.currentLen ≤ GLOBALFIFO_SIZE) (hx : x.Sound d)
    (hc : x.call = .ioctl cmd) (h : globalfifoIoctl cmd d p x = some e) : Linear d x e := by
  obtain ⟨call, file, pc, res⟩ := x
  change call = .ioctl cmd at hc
  subst hc
  cases pc with
  | switch =>
    simp only [globalfifoIoctl] at h
    split at h
    · next heq =>
      cases h
      exact .silent hb rfl rfl (fun cmd' he => by cases he; exact heq) rfl
    · next hne =>
      cases h
      exact .refuse hb rfl rfl trivial rfl rfl (.ioctl cmd hne)
  | lock => exact mutexLock_linear h hb (congrArg _ (hx cmd rfl)) rfl
  | clear =>
    cases h
    have hcmd : cmd = FIFO_CLEAR := by
      cases hx
      rfl
    subst hcmd
    exact ⟨Nat.zero_le _, trivial, fun hout => absurd trivial hout, .inr ⟨rfl, rfl, .clear⟩⟩
  | out => exact mutexUnlock_linear h hb trivial rfl
  | _ => cases h

/-- A step of a poll. -/
theorem globalfifoPoll_linear (hb : d.currentLen ≤ GLOBALFIFO_SIZE) (hc : x.call = .poll)
    (h : globalfifoPoll d p x = some e) : Linear d x e := by
  obtain ⟨call, file, pc, res⟩ := x
  change call = .poll at hc
  subst hc
  cases pc with
  | lock => exact mutexLock_linear h hb trivial rfl
  | pollWait => cases h; exact .silent hb rfl rfl trivial rfl
  | mask =>
    cases h
    have hstep : QueueStep d.content .poll ⟨pollMask d.content.length, []⟩ d.content := .poll
    rw [Dev.length_content] at hstep
    exact .refuse hb rfl rfl trivial rfl rfl hstep
  | out => exact mutexUnlock_linear h hb trivial rfl
  | _ => cases h

/-- **A step within a call is one move of the queue, or none.** -/
theorem callStep_linear (hb : d.currentLen ≤ GLOBALFIFO_SIZE) (hx : x.Sound d)
    (hcp : ∀ count nonblock, x.call = .read count nonblock → x.pc = .copy →
      (copyToUser limit (d.mem.slice 0 (readCount d count))).2 = 0 → MemcpyCovered cp d count)
    (h : callStep W cp async d p x task sig limit = some e) : Linear d x e := by
  unfold callStep at h
  split at h
  · next count nonblock hc =>
    refine rwStep_linear hb hx ?_ ?_ ?_ ?_ ?_ h
    · simp [globalfifoRead, hc, Call.blocked]
    · exact fun hn => by rw [hc]; exact hn
    · intro hbl hn
      have hn' : nonblock = true := hn
      have hlen : d.currentLen = 0 := of_decide_eq_true hbl
      rw [hc, hn']
      exact .readAgain count (List.length_eq_zero_iff.1 (by rw [Dev.length_content, hlen]))
    · intro hmay
      rw [hc] at hmay ⊢
      have hn : nonblock = false := hmay
      rw [hn]
      exact .readSignal count
    · intro hpc hbl
      rw [hc] at hbl ⊢
      exact readCopy_step hb hbl (hcp count nonblock hc hpc)
  · next buf count nonblock hc =>
    refine rwStep_linear hb hx ?_ ?_ ?_ ?_ ?_ h
    · simp [globalfifoWrite, hc, Call.blocked]
    · exact fun hn => by rw [hc]; exact hn
    · intro hbl hn
      have hn' : nonblock = true := hn
      have hlen : d.currentLen = GLOBALFIFO_SIZE := of_decide_eq_true hbl
      rw [hc, hn']
      exact .writeAgain buf count (by rw [Dev.length_content, hlen])
    · intro hmay
      rw [hc] at hmay ⊢
      have hn : nonblock = false := hmay
      rw [hn]
      exact .writeSignal buf count
    · intro _ hbl
      rw [hc] at hbl ⊢
      exact writeCopy_step hb hbl
  · next cmd hc => exact globalfifoIoctl_linear hb hx hc h
  · next hc => exact globalfifoPoll_linear hb hc h
  · next mode hc =>
    obtain ⟨call, file, pc, res⟩ := x
    change call = .fasync mode at hc
    subst hc
    cases pc with
    | fasync => cases h; exact .refuse hb rfl rfl trivial rfl rfl (.fasync mode _)
    | _ => cases h
  · next hc =>
    obtain ⟨call, file, pc, res⟩ := x
    change call = .release at hc
    subst hc
    cases pc with
    | fasync => cases h; exact .refuse hb rfl rfl trivial rfl rfl .release
    | _ => cases h

end

/-! ## Runs -/

/-- The condition on a step: a read whose user copy does not fault calls `memcpy` where it is
covered. -/
def MemcpyDefined (cp : Copier Byte) (s : State) : Act → Prop
  | .run p limit => ∀ count nonblock, (s.proc p).call = .read count nonblock →
      (s.proc p).pc = .copy →
      (copyToUser limit (s.dev.mem.slice 0 (readCount s.dev count))).2 = 0 →
      MemcpyCovered cp s.dev count
  | _ => True

/-- The unsigned subtractions that a call makes at its copy: the length of `memcpy` and the new
`current_len` of a read, the two bounds of the clamp of a write. -/
def Call.subtractions (d : Dev) : Call → List (Nat × Nat)
  | .read count _ =>
    [(d.currentLen, readCount d count), (d.currentLen, readCount d count)]
  | .write _ _ _ => [(GLOBALFIFO_SIZE, d.currentLen), (GLOBALFIFO_SIZE, d.currentLen)]
  | _ => []

/-- What linearizability says of a run: the buffer never overflows, no subtraction of a copy wraps,
the history is one of the byte queue whose content is the first `current_len` bytes of `mem`, and
since the last clear the bytes accepted are the bytes delivered followed by that content. -/
structure IsByteQueue (W : LongWidth) (cp : Copier Byte) (async : Bool) (as : List Act)
    (s : State) : Prop where
  bound : s.dev.currentLen ≤ GLOBALFIFO_SIZE
  noWrap : ∀ p, (s.proc p).pc = .copy → ∀ ab ∈ (s.proc p).call.subtractions s.dev, ab.2 ≤ ab.1
  trace : ∃ log, byteQueue.Trace ((machine W cp async).events observe .init as)
      ⟨s.dev.content, fun p => (s.proc p).phase, log⟩ ∧
    (passed log).1 = (passed log).2 ++ s.dev.content

/-- The state stands for the queue `q`. -/
structure Sim (s : State) (q : List Byte) : Prop where
  exclusive : Exclusive s
  bound : s.dev.currentLen ≤ GLOBALFIFO_SIZE
  content : s.dev.content = q
  sound : ∀ p, (s.proc p).Sound s.dev

section
variable {W : LongWidth} {cp : Copier Byte} {async : Bool} {s s' : State} {q : List Byte}

/-- What is known of a process stays true when the length is the same, and when the process is not
at its copy. -/
theorem Proc.Sound.of_dev {d d' : Dev} {x : Proc} (h : x.Sound d)
    (hd : x.pc = .copy → d'.currentLen = d.currentLen) : x.Sound d' := by
  obtain ⟨call, file, pc, res⟩ := x
  cases pc with
  | copy =>
    have hlen := hd rfl
    cases call with
    | read => exact fun hb => h (hlen.symm.trans hb)
    | write => exact fun hb => h (hlen.symm.trans hb)
    | _ => exact fun hb => hb
  | _ => exact h

/-- The phases after one process moved. -/
theorem phase_update (s : State) (p : Nat) (x : Proc) :
    (fun q => (Function.update s.proc p x q).phase) =
      Function.update (fun q => (s.proc q).phase) p x.phase :=
  Function.comp_update Proc.phase s.proc p x

/-- The first point of a call. -/
theorem Call.entry_sound (c : Call) (d : Dev) (file : Nat) (r : Result) :
    (Proc.mk c file c.entry r).Sound d ∧ (Proc.mk c file c.entry r).phase = .pending c := by
  cases c with
  | read | write | poll => exact ⟨(fun _ he => by cases he), rfl⟩
  | ioctl | fasync | release => exact ⟨trivial, rfl⟩

/-- What is known of the processes after one of them moved. -/
theorem sound_update {d : Dev} {p : Nat} {x : Proc} (hx : x.Sound d)
    (hs : ∀ r, r ≠ p → (s.proc r).Sound d) : ∀ r, (Function.update s.proc p x r).Sound d :=
  (Function.forall_update_iff s.proc fun _ y => y.Sound d).2 ⟨hx, hs⟩

/-- A step within a call, with the other processes. -/
theorem Sim.callStep (hex : Exclusive s) (hsound : ∀ p, (s.proc p).Sound s.dev) {p : Nat}
    {e : Effect} (hl : Linear s.dev (s.proc p) e) (hex' : Exclusive (s.put p e)) :
    ∃ q', Sim (s.put p e) q' ∧ byteQueue.Move s.dev.content (fun p => (s.proc p).phase) none q'
      (fun r => ((s.put p e).proc r).phase) := by
  obtain ⟨hbound, hself, hsame, hmove⟩ := hl
  have hothers : ∀ r, r ≠ p → (s.proc r).Sound e.dev := fun r hne =>
    (hsound r).of_dev fun hcopy => hsame fun hp => hne (hex.eq (by rw [hcopy]; trivial) hp)
  refine ⟨e.dev.content, ⟨hex', by rwa [State.put_dev], by rw [State.put_dev], fun r => ?_⟩, ?_⟩
  · rw [State.put_dev, State.put_proc]
    exact sound_update hself hothers r
  · rw [State.put_proc, phase_update]
    rcases hmove with ⟨hcontent, hph⟩ | ⟨hpend, hdone, hq⟩
    · rw [hcontent, hph, Function.update_eq_self]
      exact .silent
    · rw [hdone]
      exact .apply p _ _ _ hpend hq

/-- **One step of the schedule** is one move of the queue, or none. -/
theorem Sim.step (h : Sim s q) {a : Act} (ha : MemcpyDefined cp s a)
    (hs : step W cp async s a = some s') :
    ∃ q', Sim s' q' ∧ byteQueue.Move q (fun p => (s.proc p).phase) (observe s a) q'
      (fun p => (s'.proc p).phase) := by
  obtain ⟨hex, hb, rfl, hsound⟩ := h
  have hex' : Exclusive s' := hex.step hs
  cases a with
  | call p file c =>
    simp only [Globalfifo.step] at hs
    split at hs
    · next hidle =>
      cases hs
      obtain ⟨hentry, hph⟩ := c.entry_sound s.dev file ⟨0, []⟩
      refine ⟨s.dev.content, ⟨hex', hb, rfl, sound_update hentry fun r _ => hsound r⟩, ?_⟩
      rw [phase_update, hph]
      exact .call p c (by simp [Proc.phase, hidle])
    · cases hs
  | run p limit =>
    obtain ⟨e, he, rfl⟩ := Option.map_eq_some_iff.1 hs
    unfold procStep at he
    split at he
    · cases he
    · next hpc =>
      cases he
      have hobs : observe s (.run p limit) = some (.ret p (s.proc p).res) := by
        simp [observe, hpc]
      refine ⟨s.dev.content, ⟨hex', hb, rfl, sound_update trivial fun r _ => hsound r⟩, ?_⟩
      rw [hobs, State.put_proc, phase_update]
      exact .ret p (s.proc p).call _ (by simp [Proc.phase, hpc])
    · next hnret =>
      have hobs : observe s (.run p limit) = none := if_neg hnret
      rw [hobs]
      exact Sim.callStep hex hsound (callStep_linear hb (hsound p) ha he) hex'
  | wakeup p => cases hs; exact ⟨_, ⟨hex', hb, rfl, hsound⟩, .silent⟩
  | signal p => cases hs; exact ⟨_, ⟨hex', hb, rfl, hsound⟩, .silent⟩

/-- The device at rest is an empty queue. -/
theorem Sim.init : Sim .init byteQueue.init :=
  ⟨.init, Nat.zero_le _, rfl, fun _ => trivial⟩

/-- The subtractions of a copy do not wrap. -/
theorem Sim.noWrap (h : Sim s q) (p : Nat) :
    ∀ ab ∈ (s.proc p).call.subtractions s.dev, ab.2 ≤ ab.1 := by
  intro ab hab
  cases hc : (s.proc p).call with
  | read count nonblock =>
    rw [hc] at hab
    have hle : readCount s.dev count ≤ s.dev.currentLen := by rw [readCount_eq]; omega
    simp only [Call.subtractions, List.mem_cons, List.not_mem_nil, or_false, or_self] at hab
    rw [hab]
    exact hle
  | write buf count nonblock =>
    rw [hc] at hab
    simp only [Call.subtractions, List.mem_cons, List.not_mem_nil, or_false, or_self] at hab
    rw [hab]
    exact h.bound
  | _ => rw [hc] at hab; cases hab

/-- **globalfifo is a linearizable bounded byte queue where `memcpy` is covered**: in every run
whose reads move the rest of the queue down over a range that does not meet it, or with a `memcpy`
that moves data down across an overlap. -/
theorem isByteQueue_of_memcpyDefined {as : List Act}
    (hr : (machine W cp async).Run (MemcpyDefined cp) .init as s) :
    IsByteQueue W cp async as s := by
  have hstep : ∀ s a s' q, Sim s q → MemcpyDefined cp s a →
      (machine W cp async).step s a = some s' → ∃ q', Sim s' q' ∧
        byteQueue.Move q (fun p => (s.proc p).phase) (observe s a) q'
          (fun p => (s'.proc p).phase) := fun _ _ _ _ h hC hs => h.step hC hs
  obtain ⟨q, log, hsim, ht⟩ := hr.trace (fun s p => (s.proc p).phase) Sim Sim.init
    (fun _ => rfl) hstep
  obtain rfl := hsim.content
  exact ⟨hsim.bound, fun p _ => hsim.noWrap p, log, ht, passed_of_legal ht.legal⟩

end

/-! ## A read that shifts the queue over an overlap -/

/-- A check that implies `MemcpyDefined` in schedules of process `0`. -/
def apartCheck (s : State) (a : Act) : Bool :=
  decide (a.pid = 0) &&
    match (s.proc a.pid).call with
    | .read count _ => (s.proc a.pid).pc ≠ .copy ||
      decide (Apart 0 (readCount s.dev count) (s.dev.currentLen - readCount s.dev count))
    | _ => true

/-- The processes other than `0` are idle. -/
def Alone (s : State) : Prop := ∀ q, q ≠ 0 → (s.proc q).pc = .idle

/-- A step of process `0` leaves the others idle. -/
theorem Alone.step {W : LongWidth} {cp : Copier Byte} {async : Bool} {s s' : State} {a : Act}
    (h : Alone s) (hp : a.pid = 0) (hs : (machine W cp async).step s a = some s') : Alone s' := by
  intro q hq
  rw [step_proc_of_ne hs (by rwa [hp])]
  exact h q hq

theorem memcpyDefined_of_apartCheck {cp : Copier Byte} {s : State} {a : Act}
    (h : apartCheck s a = true) : MemcpyDefined cp s a := by
  cases a with
  | run p limit =>
    intro count nonblock hc hpc _
    have hmatch := (Bool.and_eq_true_iff.1 h).2
    simp only [Act.pid, hc, hpc] at hmatch
    exact .inl (of_decide_eq_true (by simpa using hmatch))
  | call | wakeup | signal => trivial

/-- A write of the bytes `abc` and a read of `n` of them, by process `0`. -/
def writeThenRead (n : Nat) : List Act :=
  .call 0 0 (.write (Mem.ofList 0 [97, 98, 99]) 3 false) :: List.replicate 9 (.run 0 none) ++
    .call 0 0 (.read n false) :: List.replicate 9 (.run 0 none)

/-- A read of two of three bytes leaves one, which moves down by two: any `memcpy` does that. -/
theorem readOfTwo_isByteQueue :
    ∃ s, (machine .w64 Copier.descending true).Run (MemcpyDefined Copier.descending) .init
        (writeThenRead 2) s ∧ s.dev.content = [99] ∧
      IsByteQueue .w64 Copier.descending true (writeThenRead 2) s := by
  have hrun : ((machine .w64 Copier.descending true).runChecked apartCheck .init
      (writeThenRead 2)).map (fun s => s.dev.content) = some [99] := by decide +kernel
  obtain ⟨s, hs, hcontent⟩ := Option.map_eq_some_iff.1 hrun
  obtain ⟨hr, -⟩ := @Machine.Run.of_checked _ _ (machine .w64 Copier.descending true)
    (MemcpyDefined Copier.descending) (fun _ => True) apartCheck
    (fun _ _ _ h => memcpyDefined_of_apartCheck h) (fun _ _ _ _ _ _ => trivial) _ _ _ trivial hs
  exact ⟨s, hr, hcontent, isByteQueue_of_memcpyDefined hr⟩

/-- The calls of the schedule in which one of three bytes is read, with a `memcpy` that runs
downwards. -/
theorem completed_readOfOne :
    completed ((machine .w64 Copier.descending true).events observe .init (writeThenRead 1)) =
      [(0, .write (Mem.ofList 0 [97, 98, 99]) 3 false, ⟨3, []⟩),
        (0, .read 1 false, ⟨1, [97]⟩)] := by
  simp [completed, completedStep, writeThenRead, List.replicate, Machine.events, machine, step,
    procStep, callStep, rwStep, globalfifoRead, globalfifoWrite, readCopy, writeCopy, readCount,
    writeCount, mutexLock, mutexUnlock, State.put, Proc.goto, State.init, Dev.init, observe,
    Call.entry, Dev.addWaitQueue, Dev.removeWaitQueue, GLOBALFIFO_SIZE, usub, uadd, copyFromUser,
    copyToUser, Mem.slice, copied, toSigned, LongWidth.bits, Mem.store, Mem.ofList, List.range,
    List.range.loop, Copier.descending, Copier.descend]

/-- **The driver is not a byte queue under every `memcpy`**: a read of one of three bytes moves two
bytes down by one, and a `memcpy` that runs downwards leaves `cc` of `bc`. -/
theorem readOfOne_not_byteQueue :
    ¬ ∀ cp as s, (machine .w64 cp true).Run Machine.anyStep .init as s →
      IsByteQueue .w64 cp true as s := by
  intro hall
  have hrun : ((machine .w64 Copier.descending true).runChecked (fun _ a => decide (a.pid = 0))
      .init (writeThenRead 1)).map (fun s => (s.dev.content, (s.proc 0).pc)) =
        some ([99, 99], .idle) := by decide +kernel
  obtain ⟨s, hs, hend⟩ := Option.map_eq_some_iff.1 hrun
  obtain ⟨hr, halone⟩ := @Machine.Run.of_checked _ _ (machine .w64 Copier.descending true)
    Machine.anyStep Alone _ (fun _ _ _ _ => trivial)
    (fun _ _ _ h hchk => h.step (of_decide_eq_true hchk)) _ _ _ (fun _ _ => rfl) hs
  obtain ⟨hcontent, hpc⟩ := Prod.mk.inj hend
  obtain ⟨log, ht, -⟩ := (hall Copier.descending (writeThenRead 1) s hr).trace
  have hidle : ∀ p, (s.proc p).phase = .idle := by
    intro p
    rcases eq_or_ne p 0 with rfl | hne
    · simp [Proc.phase, hpc]
    · simp [Proc.phase, halone p hne]
  have hperm := ht.completed_perm hidle
  have hlegal : byteQueue.Legal [] log s.dev.content := ht.legal
  rw [completed_readOfOne] at hperm
  rw [hcontent] at hlegal
  rcases List.perm_pair.1 hperm with rfl | rfl
  · obtain ⟨q, hw, q', hrd, hq'⟩ := hlegal
    have hq := QueueStep.of_write hw (by decide)
    have hdrop := (QueueStep.of_read hrd (by decide)).2
    rw [hq] at hdrop
    cases hq'
    exact absurd hdrop (by decide)
  · obtain ⟨q, hrd, -⟩ := hlegal
    exact (QueueStep.of_read hrd (by decide)).1 rfl

end LinuxTraining.Globalfifo
