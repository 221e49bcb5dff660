import LinuxTraining.Globalfifo.Lock
import LinuxTraining.Globalfifo.Shift

/-!
# `ch9` and `ch12`: who gets `SIGIO`

`async_queue` is kept by `globalfifo_fasync` alone, which `globalfifo_release` calls too. The
history of a run is the list of its `Notice`s; `lastFasync` and `sent` are read off it, for a file
and for a call. `Notified` says of a state and its history that `async_queue` is the set of the open
files whose last `fasync` switched the notification on, and that the writes that succeed send
`SIGIO` to these files, once, and no other call sends any: it holds after every run
(`asyncQueue_notified`).

The files are those of one device. `Vfs` is what the driver relies on: the `release` of a file comes
when no other call on the file is under way.
-/

namespace LinuxTraining.Globalfifo

open Lib

/-! ## Notices -/

/-- What happens in a run that matters to the notification: an open; a call of `fasync_helper`; the
beginning of a call by process `p`; the `SIGIO` of a write by process `p`, to these files. -/
inductive Notice
  | opened (fd : Nat)
  | fasync (fd : Nat) (on : Bool)
  | begins (p : Nat)
  | sigio (p : Nat) (files : List Nat)

/-- What the last `fasync` of a file since its open asked for, after one more notice. -/
def Notice.fasyncAfter (fd : Nat) (last : Option Bool) : Notice → Option Bool
  | .opened fd' => if fd' = fd then none else last
  | .fasync fd' on => if fd' = fd then some on else last
  | .begins _ | .sigio _ _ => last

/-- The number of times that the call of process `p` has sent `SIGIO`, after one more notice. -/
def Notice.sentAfter (p : Nat) (n : Nat) : Notice → Nat
  | .begins q => if q = p then 0 else n
  | .sigio q _ => if q = p then n + 1 else n
  | .opened _ | .fasync _ _ => n

/-- `async_queue` after one more notice. -/
def Notice.queueAfter (queue : List Nat) : Notice → List Nat
  | .fasync fd on => (fasyncHelper queue fd on).1
  | .opened _ | .begins _ | .sigio _ _ => queue

/-- The files that are signalled. -/
def Notice.files : Notice → List Nat
  | .sigio _ files => files
  | .opened _ | .fasync _ _ | .begins _ => []

/-- What the last `fasync` of a file since its open asked for. -/
def lastFasync (fd : Nat) (es : List Notice) : Option Bool :=
  es.foldl (Notice.fasyncAfter fd) none

/-- The number of times that the last call of process `p` has sent `SIGIO`. -/
def sent (p : Nat) (es : List Notice) : Nat :=
  es.foldl (Notice.sentAfter p) 0

/-! ## The notice of a step -/

def Call.writes : Call → Bool
  | .write _ _ _ => true
  | .read _ _ | .ioctl _ | .poll | .fasync _ | .release => false

def Call.releases : Call → Bool
  | .release => true
  | .read _ _ | .write _ _ _ | .ioctl _ | .poll | .fasync _ => false

/-- The notice of the next step of process `p`. A write that finds `async_queue` empty sends `SIGIO`
to no file. -/
def Proc.notice (queue : List Nat) (p : Nat) (x : Proc) : Option Notice :=
  match x.pc with
  | .fasync =>
    match x.call with
    | .fasync mode => some (.fasync x.file mode)
    | .release => some (.fasync x.file false)
    | _ => none
  | .wake => if x.call.writes && queue.isEmpty then some (.sigio p []) else none
  | .killFasync => some (.sigio p queue)
  | _ => none

/-- The number of times that a process has sent `SIGIO` in its call: once, if the call is a write
that has succeeded and is past its signal. -/
def Proc.sent (x : Proc) : Nat :=
  match x.pc with
  | .out | .out2 | .setRunning | .ret => if x.call.writes ∧ 0 ≤ x.res.ret then 1 else 0
  | _ => 0

/-- The program points before a signal. -/
def Pc.signals : Pc → Bool
  | .wake | .killFasync => true
  | .idle | .lock | .addWait | .test | .setState | .unlock1 | .schedule | .sigTest | .relock | .copy
  | .out | .out2 | .setRunning | .ret | .switch | .clear | .pollWait | .mask | .fasync => false

/-- A process that is about to signal is in a write, and succeeds. -/
structure Proc.Fine (x : Proc) : Prop where
  writes : x.pc = .killFasync → x.call.writes = true
  success : x.pc = .wake ∨ x.pc = .killFasync → x.call.writes = true → 0 ≤ x.res.ret

/-- The files that a step signals. -/
def Effect.signalled (e : Effect) : List Nat :=
  match e.also with
  | .killFasync => e.dev.asyncQueue
  | _ => []

/-- A step of process `p` does what its notice says. -/
structure Notices (queue : List Nat) (p : Nat) (x : Proc) (e : Effect) : Prop where
  kept : e.dev.asyncQueue = (x.notice queue p).elim queue (Notice.queueAfter queue)
  signalled : e.signalled = (x.notice queue p).elim [] Notice.files
  sent : e.proc.sent = (x.notice queue p).elim x.sent (Notice.sentAfter p x.sent)
  fine : e.proc.Fine

section
variable {W : LongWidth} {cp : Copier Byte} {c : RwCode} {d : Dev} {p : Nat} {x : Proc}
  {task : TaskState} {sig : Bool} {limit : Option Fault} {e : Effect}

/-- A step without a notice. -/
theorem Notices.quiet {queue : List Nat} (hn : x.notice queue p = none)
    (hq : e.dev.asyncQueue = queue) (ha : e.signalled = []) (hs : e.proc.sent = x.sent)
    (hf : e.proc.Fine) : Notices queue p x e where
  kept := by rw [hn]; exact hq
  signalled := by rw [hn]; exact ha
  sent := by rw [hn]; exact hs
  fine := hf

/-- A process that is not about to signal. -/
theorem Proc.Fine.of_not_signals (h : x.pc.signals = false) : x.Fine where
  writes hpc := by
    rw [hpc] at h
    cases h
  success hpc := by
    rcases hpc with hpc | hpc <;> rw [hpc] at h <;> cases h

theorem Dev.addWaitQueue_asyncQueue (d : Dev) (q : WaitQueue) (p : Nat) :
    (d.addWaitQueue q p).asyncQueue = d.asyncQueue := by
  cases q <;> rfl

theorem Dev.removeWaitQueue_asyncQueue (d : Dev) (q : WaitQueue) (p : Nat) :
    (d.removeWaitQueue q p).asyncQueue = d.asyncQueue := by
  cases q <;> rfl

/-- What the steps of a read or a write need of its copy: it leaves `async_queue` alone, and in a
write its result tells whether it was complete. -/
structure RwCode.Tells (c : RwCode) (d : Dev) (limit : Option Fault) (x : Proc) : Prop where
  kills : c.kills = x.call.writes
  queue : (c.copy d limit).dev.asyncQueue = d.asyncQueue
  ok : x.call.writes = true →
    ((c.copy d limit).ok = true ↔ 0 ≤ (c.copy d limit).res.ret)

theorem rwStep_notices (hf : x.Fine) (hc : c.Tells d limit x)
    (h : rwStep c d p x task sig limit = some e) : Notices d.asyncQueue p x e := by
  cases rwStep_rule h with
  | addWait => exact .quiet rfl (d.addWaitQueue_asyncQueue ..) rfl rfl (.of_not_signals rfl)
  | out2 => exact .quiet rfl (d.removeWaitQueue_asyncQueue ..) rfl rfl (.of_not_signals rfl)
  | lock | relock | setState | unlock1 | out | setRunning | sleep | pass | schedule | retry =>
    exact .quiet rfl rfl rfl rfl (.of_not_signals rfl)
  | again | interrupted =>
    exact .quiet rfl rfl rfl (by simp [Proc.sent, EAGAIN, ERESTARTSYS]) (.of_not_signals rfl)
  | copied hok => exact .quiet rfl hc.queue rfl rfl ⟨Pc.noConfusion, fun _ hw => (hc.ok hw).1 hok⟩
  | @fault call file _ hfault =>
    have hsent : Proc.sent ⟨call, file, .out, (c.copy d limit).res⟩ = 0 := by
      refine if_neg fun hs => ?_
      rw [(hc.ok hs.1).2 hs.2] at hfault
      cases hfault
    exact .quiet rfl hc.queue rfl hsent (.of_not_signals rfl)
  | @wake call file res hkills =>
    rw [hc.kills] at hkills
    cases hw : call.writes with
    | false =>
      have hsent : Proc.sent ⟨call, file, .out, res⟩ = 0 :=
        if_neg fun hs => Bool.false_ne_true (hw.symm.trans hs.1)
      exact .quiet (by simp [Proc.notice, hw]) rfl rfl hsent (.of_not_signals rfl)
    | true =>
      have hres : 0 ≤ res.ret := hf.success (.inl rfl) hw
      have hq : d.asyncQueue.isEmpty = true := by simpa [hw] using hkills
      have hnotice : Proc.notice d.asyncQueue p ⟨call, file, .wake, res⟩ = some (.sigio p []) := by
        simp [Proc.notice, hw, hq]
      have hsent : Proc.sent ⟨call, file, .out, res⟩ = 1 := if_pos ⟨hw, hres⟩
      refine ⟨by rw [hnotice]; rfl, by rw [hnotice]; rfl, ?_, .of_not_signals rfl⟩
      rw [hnotice]
      exact hsent.trans (by simp [Notice.sentAfter, Proc.sent])
  | @wakeKill call file res hkills =>
    rw [hc.kills] at hkills
    have hboth : call.writes = true ∧ d.asyncQueue.isEmpty = false := by simpa using hkills
    exact .quiet (by simp [Proc.notice, hboth.2]) rfl rfl rfl
      ⟨fun _ => hboth.1, fun _ _ => hf.success (.inl rfl) hboth.1⟩
  | @killFasync call file res =>
    have hsent : Proc.sent ⟨call, file, .out, res⟩ = 1 :=
      if_pos ⟨hf.writes rfl, hf.success (.inr rfl) (hf.writes rfl)⟩
    exact ⟨rfl, rfl, hsent.trans (by simp [Proc.notice, Notice.sentAfter, Proc.sent]),
      .of_not_signals rfl⟩

/-- A read tells nothing by its result. -/
theorem globalfifoRead_tells {count : Nat} {nonblock : Bool} (hx : x.call = .read count nonblock) :
    (globalfifoRead W cp count nonblock).Tells d limit x where
  kills := by rw [hx]; rfl
  queue := by
    show (readCopy W cp count d limit).dev.asyncQueue = _
    unfold readCopy
    dsimp only
    split <;> rfl
  ok hw := by
    rw [hx] at hw
    cases hw

/-- A write tells by its result whether it has copied all that it could. -/
theorem globalfifoWrite_tells {buf : Mem Byte} {count : Nat} {nonblock : Bool}
    (hd : d.currentLen ≤ GLOBALFIFO_SIZE) (hx : x.call = .write buf count nonblock) :
    (globalfifoWrite W true buf count nonblock).Tells d limit x where
  kills := by rw [hx]; rfl
  queue := by
    show (writeCopy W buf count d limit).dev.asyncQueue = _
    unfold writeCopy
    dsimp only
    split <;> rfl
  ok _ := by
    have hsize : GLOBALFIFO_SIZE = 4096 := rfl
    have hcount : toSigned 32 (writeCount d count) = writeCount d count := by
      refine toSigned_of_range ?_ ?_ <;> rw [writeCount_eq hd] <;> omega
    show (writeCopy W buf count d limit).ok = true ↔ 0 ≤ (writeCopy W buf count d limit).res.ret
    unfold writeCopy
    dsimp only
    split
    · simp [EFAULT]
    · simp [hcount]

theorem Proc.sent_of_not_writes (hw : x.call.writes = false) : x.sent = 0 := by
  have hno : ¬ (x.call.writes = true ∧ 0 ≤ x.res.ret) :=
    fun h => Bool.false_ne_true (hw.symm.trans h.1)
  unfold Proc.sent
  split <;> first | exact if_neg hno | rfl

/-- A step without a notice, in a call other than a write. -/
theorem Notices.of_not_writes {queue : List Nat} (hw : x.call.writes = false)
    (hw' : e.proc.call.writes = false) (hn : x.notice queue p = none)
    (hq : e.dev.asyncQueue = queue) (ha : e.signalled = [])
    (hpc : e.proc.pc.signals = false) : Notices queue p x e :=
  .quiet hn hq ha ((Proc.sent_of_not_writes hw').trans (Proc.sent_of_not_writes hw).symm)
    (.of_not_signals hpc)

theorem globalfifoIoctl_notices {cmd : Nat} (hw : x.call.writes = false)
    (h : globalfifoIoctl cmd d p x = some e) : Notices d.asyncQueue p x e := by
  obtain ⟨call, file, pc, res⟩ := x
  cases pc with
  | lock =>
    obtain ⟨-, rfl⟩ := mutexLock_eq_some h
    exact .of_not_writes hw hw rfl rfl rfl rfl
  | switch =>
    dsimp only [globalfifoIoctl] at h
    split at h <;> cases h <;> exact .of_not_writes hw hw rfl rfl rfl rfl
  | clear | out =>
    cases h
    exact .of_not_writes hw hw rfl rfl rfl rfl
  | _ => cases h

theorem globalfifoPoll_notices (hw : x.call.writes = false)
    (h : globalfifoPoll d p x = some e) : Notices d.asyncQueue p x e := by
  obtain ⟨call, file, pc, res⟩ := x
  cases pc with
  | lock =>
    obtain ⟨-, rfl⟩ := mutexLock_eq_some h
    exact .of_not_writes hw hw rfl rfl rfl rfl
  | pollWait | mask | out =>
    cases h
    exact .of_not_writes hw hw rfl rfl rfl rfl
  | _ => cases h

theorem globalfifoFasync_notices {mode : Bool} (hx : x.call = .fasync mode)
    (h : globalfifoFasync mode d x = some e) : Notices d.asyncQueue p x e := by
  obtain ⟨call, file, pc, res⟩ := x
  subst hx
  cases pc with
  | fasync =>
    cases h
    exact ⟨rfl, rfl, rfl, .of_not_signals rfl⟩
  | _ => cases h

theorem globalfifoRelease_notices (hx : x.call = .release)
    (h : globalfifoRelease true d x = some e) : Notices d.asyncQueue p x e := by
  obtain ⟨call, file, pc, res⟩ := x
  subst hx
  cases pc with
  | fasync =>
    cases h
    exact ⟨rfl, rfl, rfl, .of_not_signals rfl⟩
  | _ => cases h

/-- **What a step of a process does to the notification**: a step that returns apart, it is what
its notice says. -/
theorem procStep_notices (hd : d.currentLen ≤ GLOBALFIFO_SIZE) (hf : x.Fine) (hret : x.pc ≠ .ret)
    (h : procStep W cp true d p x task sig limit = some e) : Notices d.asyncQueue p x e := by
  have hcall : callStep W cp true d p x task sig limit = some e := by
    unfold procStep at h
    split at h
    · cases h
    · next hpc => exact absurd hpc hret
    · exact h
  unfold callStep at hcall
  split at hcall
  · next hx => exact rwStep_notices hf (globalfifoRead_tells hx) hcall
  · next hx => exact rwStep_notices hf (globalfifoWrite_tells hd hx) hcall
  · next hx => exact globalfifoIoctl_notices (by rw [hx]; rfl) hcall
  · next hx => exact globalfifoPoll_notices (by rw [hx]; rfl) hcall
  · next hx => exact globalfifoFasync_notices hx hcall
  · next hx => exact globalfifoRelease_notices hx hcall

/-- The notice of a step of process `p` is about its file, or it is its signal. -/
theorem Proc.notice_cases {queue : List Nat} {n : Notice} (h : x.notice queue p = some n) :
    (∃ on, n = .fasync x.file on) ∨ ∃ files, n = .sigio p files := by
  unfold Proc.notice at h
  split at h
  · split at h <;> cases h
    · exact .inl ⟨_, rfl⟩
    · exact .inl ⟨_, rfl⟩
  · split at h <;> cases h
    exact .inr ⟨_, rfl⟩
  · cases h
    exact .inr ⟨_, rfl⟩
  · cases h

/-- The step of a release, before it returns, switches the notification of its file off. -/
theorem notice_of_releases (hx : x.call.releases = true) (hret : x.pc ≠ .ret)
    (h : procStep W cp true d p x task sig limit = some e) (queue : List Nat) :
    x.notice queue p = some (.fasync x.file false) := by
  obtain ⟨call, file, pc, res⟩ := x
  cases call with
  | release =>
    cases pc with
    | fasync => rfl
    | ret => exact absurd rfl hret
    | _ => cases h
  | _ => cases hx

/-! ## `fasync_helper` -/

theorem nodup_fasyncHelper {queue : List Nat} (h : queue.Nodup) (fd : Nat) (on : Bool) :
    (fasyncHelper queue fd on).1.Nodup := by
  unfold fasyncHelper
  split <;> split
  · exact h
  · next hmem => exact List.nodup_cons.2 ⟨hmem, h⟩
  · exact h.erase fd
  · exact h

/-- `fasync_helper` switches one file. -/
theorem mem_fasyncHelper {queue : List Nat} (h : queue.Nodup) (fd fd' : Nat) (on : Bool) :
    fd' ∈ (fasyncHelper queue fd on).1 ↔ if fd = fd' then on = true else fd' ∈ queue := by
  unfold fasyncHelper
  rcases eq_or_ne fd fd' with rfl | hne
  · rw [if_pos rfl]
    split <;> split <;> simp_all [h.not_mem_erase]
  · rw [if_neg hne]
    split <;> split <;> simp [hne.symm, List.mem_erase_of_ne hne.symm]

end

/-! ## Histories -/

/-- What is read off a history with a step's notice. -/
theorem lastFasync_append (fd : Nat) (es : List Notice) (o : Option Notice) :
    lastFasync fd (es ++ o.toList) =
      o.elim (lastFasync fd es) (Notice.fasyncAfter fd (lastFasync fd es)) := by
  unfold lastFasync
  rw [List.foldl_append]
  cases o <;> rfl

@[inherit_doc lastFasync_append]
theorem sent_append (p : Nat) (es : List Notice) (o : Option Notice) :
    sent p (es ++ o.toList) = o.elim (sent p es) (Notice.sentAfter p (sent p es)) := by
  unfold sent
  rw [List.foldl_append]
  cases o <;> rfl

@[inherit_doc lastFasync_append]
theorem files_append (es : List Notice) (o : Option Notice) :
    (es ++ o.toList).flatMap Notice.files = es.flatMap Notice.files ++ o.elim [] Notice.files := by
  rw [List.flatMap_append]
  cases o with
  | none => rfl
  | some n => exact congrArg _ (List.append_nil _)

theorem State.put_sigio (s : State) (p : Nat) (e : Effect) :
    (s.put p e).sigio = s.sigio ++ e.signalled := by
  unfold State.put Effect.signalled
  cases e.also <;> simp

namespace Notify

/-! ## The files of a device -/

/-- A file: closed, open, or in the `globalfifo_release` of a process. -/
inductive FileState
  | closed
  | opened
  | closing (p : Nat)
  deriving DecidableEq

/-- The device with its processes, and its files. -/
structure System where
  fifo : State
  file : Nat → FileState

/-- One step of the schedule: an open, or a step of the device. -/
inductive Act
  | openFile (fd : Nat)
  | fifo (a : Globalfifo.Act)

/-- The files after a step of the device: a `release` has closed its file when it returns. -/
def System.fileAfter (s : System) : Globalfifo.Act → Nat → FileState
  | .call p fd c => if c.releases then Function.update s.file fd (.closing p) else s.file
  | .run p _ =>
    let x := s.fifo.proc p
    if x.pc = .ret ∧ x.call.releases then Function.update s.file x.file .closed else s.file
  | .wakeup _ | .signal _ => s.file

/-- One step of the schedule. -/
def step (W : LongWidth) (cp : Copier Byte) (s : System) : Act → Option System
  | .openFile fd =>
    match s.file fd with
    | .closed => some { s with file := Function.update s.file fd .opened }
    | _ => none
  | .fifo a => (Globalfifo.step W cp true s.fifo a).map fun t => ⟨t, s.fileAfter a⟩

/-- The device at rest, with every file closed. -/
def System.init : System := ⟨.init, fun _ => .closed⟩

/-- The driver, its files and the processes that use them. -/
def machine (W : LongWidth) (cp : Copier Byte) : Machine System Act where
  init s := s = .init
  step := step W cp

/-- What the kernel promises the driver: a call is made on an open file, and `release` when no other
call on the file is under way. -/
def Vfs (s : System) : Act → Prop
  | .fifo (.call _ fd c) => s.file fd = .opened ∧
    (c.releases = true → ∀ q, (s.fifo.proc q).pc ≠ .idle → (s.fifo.proc q).file ≠ fd)
  | _ => True

/-- The notices of a run. -/
def observe (s : System) : Act → Option Notice
  | .openFile fd => some (.opened fd)
  | .fifo (.call p _ _) => some (.begins p)
  | .fifo (.run p _) => (s.fifo.proc p).notice s.fifo.dev.asyncQueue p
  | .fifo (.wakeup _) | .fifo (.signal _) => none

/-- The file is open, and its last `fasync` has switched the notification on. -/
def On (es : List Notice) (s : System) (fd : Nat) : Prop :=
  s.file fd ≠ .closed ∧ lastFasync fd es = some true

/-- What holds of a state with its history: `async_queue` has the files that are on, each once; the
files that the next step signals, if it does, are these; a call that returns has sent `SIGIO` once,
if it is a write that succeeds, and never if it is not; and what has been signalled is what the
history says. -/
structure Notified (es : List Notice) (s : System) : Prop where
  nodup : s.fifo.dev.asyncQueue.Nodup
  members : ∀ fd, fd ∈ s.fifo.dev.asyncQueue ↔ On es s fd
  sends : ∀ p files, (s.fifo.proc p).notice s.fifo.dev.asyncQueue p = some (.sigio p files) →
    files.Nodup ∧ ∀ fd, fd ∈ files ↔ On es s fd
  returns : ∀ p, (s.fifo.proc p).pc = .ret →
    sent p es = if (s.fifo.proc p).call.writes ∧ 0 ≤ (s.fifo.proc p).res.ret then 1 else 0
  history : s.fifo.sigio = es.flatMap Notice.files

/-! ## The invariant -/

/-- What a process in a call makes of its file. -/
def holds (p : Nat) (x : Proc) : FileState :=
  if x.call.releases then .closing p else .opened

/-- What holds of a process: in a call it holds its file; the file of a release that is about to
return is out of `async_queue`; and the history has the signals of its call. -/
structure ProcOk (es : List Notice) (s : System) (p : Nat) (x : Proc) : Prop where
  held : x.pc ≠ .idle → s.file x.file = holds p x
  gone : x.pc = .ret → x.call.releases = true → x.file ∉ s.fifo.dev.asyncQueue
  fine : x.Fine
  counted : x.pc ≠ .idle → sent p es = x.sent

/-- The invariant: `async_queue` has the files that are on, and each process is as it should be. -/
structure Inv (es : List Notice) (s : System) : Prop where
  len : s.fifo.dev.currentLen ≤ GLOBALFIFO_SIZE
  nodup : s.fifo.dev.asyncQueue.Nodup
  members : ∀ fd, fd ∈ s.fifo.dev.asyncQueue ↔ On es s fd
  procs : ∀ p, ProcOk es s p (s.fifo.proc p)
  history : s.fifo.sigio = es.flatMap Notice.files

section
variable {W : LongWidth} {cp : Copier Byte} {es es' : List Notice} {s s' : System} {x : Proc}
  {p q fd : Nat} {limit : Option Fault}

theorem holds_ne_closed (p : Nat) (x : Proc) : holds p x ≠ .closed := by
  unfold holds
  split <;> exact nofun

/-- Who holds the file that a process releases is that process. -/
theorem eq_of_holds {y : Proc} (h : holds q y = holds p x) (hx : x.call.releases = true) :
    q = p := by
  unfold holds at h
  rw [if_pos hx] at h
  split at h <;> cases h
  rfl

/-- What a step of another process leaves of a process. -/
theorem ProcOk.congr (h : ProcOk es s p x)
    (hfile : x.pc ≠ .idle → s'.file x.file = s.file x.file)
    (hqueue : x.pc = .ret → x.call.releases = true → x.file ∈ s'.fifo.dev.asyncQueue →
      x.file ∈ s.fifo.dev.asyncQueue)
    (hsent : sent p es' = sent p es) : ProcOk es' s' p x where
  held hx := (hfile hx).trans (h.held hx)
  gone hx hr hmem := h.gone hx hr (hqueue hx hr hmem)
  fine := h.fine
  counted hx := hsent.trans (h.counted hx)

theorem ProcOk.of_idle (hx : x.pc = .idle) : ProcOk es s p x where
  held h := absurd hx h
  gone h := by
    rw [hx] at h
    cases h
  fine := .of_not_signals (by rw [hx]; rfl)
  counted h := absurd hx h

/-- Nobody else is in a call on the file that a process releases. -/
theorem Inv.eq_of_releases (h : Inv es s) (hp : (s.fifo.proc p).pc ≠ .idle)
    (hr : (s.fifo.proc p).call.releases = true) (hq : (s.fifo.proc q).pc ≠ .idle)
    (hf : (s.fifo.proc q).file = (s.fifo.proc p).file) : q = p := by
  have hheld : holds q (s.fifo.proc q) = holds p (s.fifo.proc p) := by
    rw [← (h.procs q).held hq, ← (h.procs p).held hp, hf]
  exact eq_of_holds hheld hr

theorem Inv.openFile (h : Inv es s) (hs : step W cp s (.openFile fd) = some s') :
    Inv (es ++ (observe s (.openFile fd)).toList) s' := by
  dsimp only [step] at hs
  split at hs
  · next hclosed =>
    cases hs
    refine ⟨h.len, h.nodup, fun fd' => ?_, fun p => ?_, ?_⟩
    · rw [h.members fd', On, On, lastFasync_append]
      rcases eq_or_ne fd fd' with rfl | hne
      · simp [observe, hclosed, Notice.fasyncAfter]
      · simp [observe, Notice.fasyncAfter, hne, Function.update_of_ne hne.symm]
    · refine (h.procs p).congr (fun hp => ?_) (fun _ _ => id) (sent_append ..)
      have hne : (s.fifo.proc p).file ≠ fd := by
        rintro rfl
        exact holds_ne_closed _ _ (((h.procs p).held hp).symm.trans hclosed)
      exact Function.update_of_ne hne ..
    · rw [files_append, ← h.history]
      exact (List.append_nil _).symm
  · cases hs

theorem Inv.call (h : Inv es s) {c : Call} (hC : Vfs s (.fifo (.call p fd c)))
    (hs : step W cp s (.fifo (.call p fd c)) = some s') :
    Inv (es ++ (observe s (.fifo (.call p fd c))).toList) s' := by
  obtain ⟨hopen, hfree⟩ := hC
  obtain ⟨t, ht, rfl⟩ := Option.map_eq_some_iff.1 hs
  simp only [Globalfifo.step] at ht
  split at ht
  · cases ht
    have hself : s.fileAfter (.call p fd c) fd = holds p ⟨c, fd, c.entry, ⟨0, []⟩⟩ := by
      unfold System.fileAfter holds
      dsimp only
      split
      · exact Function.update_self ..
      · exact hopen
    have hother : ∀ {fd'}, (c.releases = true → fd' ≠ fd) →
        s.fileAfter (.call p fd c) fd' = s.file fd' := by
      intro fd' hne
      unfold System.fileAfter
      dsimp only
      split
      · next hrel => exact Function.update_of_ne (hne hrel) ..
      · rfl
    refine ⟨h.len, h.nodup, fun fd' => ?_, fun q => ?_, ?_⟩
    · rw [h.members fd', On, On, lastFasync_append]
      rcases eq_or_ne fd' fd with rfl | hne
      · simp [observe, Notice.fasyncAfter, hself, hopen, holds_ne_closed]
      · simp [observe, Notice.fasyncAfter, hother fun _ => hne]
    · change ProcOk _ _ q (Function.update s.fifo.proc p _ q)
      rcases eq_or_ne q p with rfl | hne
      · rw [Function.update_self]
        refine ⟨fun _ => hself, fun hret => ?_, .of_not_signals ?_, fun _ => ?_⟩
        · cases c <;> cases hret
        · cases c <;> rfl
        · rw [sent_append]
          cases c <;> simp [observe, Notice.sentAfter, Proc.sent, Call.entry]
      · rw [Function.update_of_ne hne]
        refine (h.procs q).congr (fun hq => hother fun hrel => hfree hrel q hq) (fun _ _ => id) ?_
        rw [sent_append]
        exact if_neg hne.symm
    · rw [files_append, ← h.history]
      exact (List.append_nil _).symm
  · cases ht

/-- A step of a process that returns. -/
theorem Inv.ret (h : Inv es s) (hpc : (s.fifo.proc p).pc = .ret)
    (hs : step W cp s (.fifo (.run p limit)) = some s') :
    Inv (es ++ (observe s (.fifo (.run p limit))).toList) s' := by
  obtain ⟨t, ht, rfl⟩ := Option.map_eq_some_iff.1 hs
  obtain ⟨e, he, rfl⟩ := Option.map_eq_some_iff.1 ht
  unfold procStep at he
  rw [hpc] at he
  cases he
  have hnone : observe s (.fifo (.run p limit)) = none := by
    simp [observe, Proc.notice, hpc]
  rw [hnone, Option.toList_none, List.append_nil]
  have hbusy : (s.fifo.proc p).pc ≠ .idle := by rw [hpc]; decide
  have hother : ∀ {fd'}, ((s.fifo.proc p).call.releases = true → fd' ≠ (s.fifo.proc p).file) →
      s.fileAfter (.run p limit) fd' = s.file fd' := by
    intro fd' hne
    unfold System.fileAfter
    dsimp only
    split
    · next hrel => exact Function.update_of_ne (hne hrel.2) ..
    · rfl
  refine ⟨h.len, h.nodup, fun fd' => ?_, fun q => ?_, h.history⟩
  · by_cases hrel : (s.fifo.proc p).call.releases = true ∧ fd' = (s.fifo.proc p).file
    · -- the file that is closed now was taken out of `async_queue` before
      obtain ⟨hrel, rfl⟩ := hrel
      have hclosed : s.fileAfter (.run p limit) (s.fifo.proc p).file = .closed := by
        simp [System.fileAfter, hpc, hrel]
      exact iff_of_false ((h.procs p).gone hpc hrel) fun hon => hon.1 hclosed
    · have hsame := hother fun hr hfd => hrel ⟨hr, hfd⟩
      simp only [State.put_dev, h.members fd', On, hsame]
  · change ProcOk _ _ q (Function.update s.fifo.proc p _ q)
    rcases eq_or_ne q p with rfl | hne
    · rw [Function.update_self]
      exact .of_idle rfl
    · rw [Function.update_of_ne hne]
      refine (h.procs q).congr (fun hq => hother fun hrel hfd => hne ?_) (fun _ _ => id) rfl
      exact h.eq_of_releases hbusy hrel hq hfd

/-- What a notice of a process makes of `async_queue`. -/
theorem mem_queueAfter {queue : List Nat} {x : Proc} (hn : queue.Nodup)
    (hmem : ∀ fd, fd ∈ queue ↔ On es s fd) (hopen : s.file x.file ≠ .closed) (fd : Nat) :
    fd ∈ (x.notice queue p).elim queue (Notice.queueAfter queue) ↔
      On (es ++ (x.notice queue p).toList) s fd := by
  rw [On, lastFasync_append]
  cases hnotice : x.notice queue p with
  | none => exact hmem fd
  | some n =>
    rcases Proc.notice_cases hnotice with ⟨on, rfl⟩ | ⟨files, rfl⟩
    · refine (mem_fasyncHelper hn x.file fd on).trans ?_
      rcases eq_or_ne x.file fd with rfl | hne
      · simp [Notice.fasyncAfter, hopen]
      · simp [Notice.fasyncAfter, hne, hmem fd, On]
    · exact hmem fd

theorem nodup_queueAfter {queue : List Nat} {x : Proc} (hn : queue.Nodup) :
    ((x.notice queue p).elim queue (Notice.queueAfter queue)).Nodup := by
  cases hnotice : x.notice queue p with
  | none => exact hn
  | some n =>
    rcases Proc.notice_cases hnotice with ⟨on, rfl⟩ | ⟨files, rfl⟩
    · exact nodup_fasyncHelper hn ..
    · exact hn

/-- The other files stay in `async_queue` or out of it. -/
theorem mem_queueAfter_of_ne {queue : List Nat} {x : Proc} (hn : queue.Nodup) (hne : x.file ≠ fd) :
    fd ∈ (x.notice queue p).elim queue (Notice.queueAfter queue) ↔ fd ∈ queue := by
  cases hnotice : x.notice queue p with
  | none => exact Iff.rfl
  | some n =>
    rcases Proc.notice_cases hnotice with ⟨on, rfl⟩ | ⟨files, rfl⟩
    · exact (mem_fasyncHelper hn x.file fd on).trans (by rw [if_neg hne])
    · exact Iff.rfl

/-- The notice of a process is none of another's. -/
theorem sent_of_ne {queue : List Nat} {x : Proc} (hne : q ≠ p) (n : Nat) :
    (x.notice queue p).elim n (Notice.sentAfter q n) = n := by
  cases hnotice : x.notice queue p with
  | none => rfl
  | some n =>
    rcases Proc.notice_cases hnotice with ⟨on, rfl⟩ | ⟨files, rfl⟩
    · rfl
    · exact if_neg hne.symm

/-- A step of a process within its call. -/
theorem Inv.run (h : Inv es s) (hpc : (s.fifo.proc p).pc ≠ .ret)
    (hs : step W cp s (.fifo (.run p limit)) = some s') :
    Inv (es ++ (observe s (.fifo (.run p limit))).toList) s' := by
  obtain ⟨t, ht, rfl⟩ := Option.map_eq_some_iff.1 hs
  obtain ⟨e, he, rfl⟩ := Option.map_eq_some_iff.1 ht
  have hok := h.procs p
  have hnotices := procStep_notices h.len hok.fine hpc he
  obtain ⟨hcall, hfile⟩ := procStep_call he
  have hfiles : s.fileAfter (.run p limit) = s.file := by
    simp [System.fileAfter, hpc]
  have hbusy : (s.fifo.proc p).pc ≠ .idle := by
    intro hidle
    unfold procStep at he
    rw [hidle] at he
    cases he
  have hopen : s.file (s.fifo.proc p).file ≠ .closed := by
    rw [hok.held hbusy]
    exact holds_ne_closed _ _
  rw [hfiles]
  refine ⟨?_, ?_, fun fd => ?_, fun q => ?_, ?_⟩
  · rw [State.put_dev]
    exact procStep_bound h.len he
  · rw [State.put_dev, hnotices.kept]
    exact nodup_queueAfter h.nodup
  · rw [State.put_dev, hnotices.kept]
    exact mem_queueAfter h.nodup h.members hopen fd
  · rw [State.put_proc]
    rcases eq_or_ne q p with rfl | hne
    · rw [Function.update_self]
      refine ⟨fun _ => ?_, fun _ hr => ?_, hnotices.fine, fun _ => ?_⟩
      · rw [hfile, holds, hcall]
        exact hok.held hbusy
      · rw [hcall] at hr
        rw [State.put_dev, hnotices.kept, notice_of_releases hr hpc he, hfile]
        simp [Notice.queueAfter, mem_fasyncHelper h.nodup]
      · rw [sent_append, hok.counted hbusy]
        exact hnotices.sent.symm
    · rw [Function.update_of_ne hne]
      refine (h.procs q).congr (fun _ => rfl) (fun hq hr hmem => ?_) ?_
      · have hbusy' : (s.fifo.proc q).pc ≠ .idle := by rw [hq]; decide
        have hapart : (s.fifo.proc p).file ≠ (s.fifo.proc q).file := fun hf =>
          hne (h.eq_of_releases hbusy' hr hbusy hf).symm
        rw [State.put_dev, hnotices.kept] at hmem
        exact (mem_queueAfter_of_ne h.nodup hapart).1 hmem
      · rw [sent_append]
        exact sent_of_ne hne _
  · rw [State.put_sigio, hnotices.signalled, files_append, h.history]
    rfl

/-- A wakeup or a signal leaves the device and the calls as they are. -/
theorem Inv.nudge (h : Inv es s) {a : Globalfifo.Act} (ha : a = .wakeup p ∨ a = .signal p)
    (hs : step W cp s (.fifo a) = some s') : Inv (es ++ (observe s (.fifo a)).toList) s' := by
  obtain ⟨t, ht, rfl⟩ := Option.map_eq_some_iff.1 hs
  rcases ha with rfl | rfl <;> cases ht <;> rw [observe, Option.toList_none, List.append_nil]
  · exact ⟨h.len, h.nodup, h.members,
      fun q => (h.procs q).congr (fun _ => rfl) (fun _ _ => id) rfl, h.history⟩
  · exact ⟨h.len, h.nodup, h.members,
      fun q => (h.procs q).congr (fun _ => rfl) (fun _ _ => id) rfl, h.history⟩

theorem Inv.step (h : Inv es s) {a : Act} (hC : Vfs s a) (hs : Notify.step W cp s a = some s') :
    Inv (es ++ (observe s a).toList) s' := by
  cases a with
  | openFile fd => exact h.openFile hs
  | fifo a =>
    cases a with
    | call p fd c => exact h.call hC hs
    | run p limit =>
      by_cases hpc : (s.fifo.proc p).pc = .ret
      · exact h.ret hpc hs
      · exact h.run hpc hs
    | wakeup p => exact h.nudge (.inl rfl) hs
    | signal p => exact h.nudge (.inr rfl) hs

theorem Inv.init : Inv [] .init where
  len := Nat.zero_le _
  nodup := List.nodup_nil
  members _ := iff_of_false List.not_mem_nil fun h => h.1 rfl
  procs _ := .of_idle rfl
  history := rfl

theorem Inv.of_run {as : List Act} (h : (machine W cp).Run Vfs .init as s) :
    Inv ((machine W cp).events observe .init as) s := by
  induction h with
  | nil => exact .init
  | snoc a hr hC hs ih =>
    rw [hr.events_snoc observe hs]
    exact ih.step hC hs

theorem Inv.notified (h : Inv es s) : Notified es s where
  nodup := h.nodup
  members := h.members
  sends p files hnotice := by
    unfold Proc.notice at hnotice
    split at hnotice
    · split at hnotice <;> cases hnotice
    · split at hnotice
      · next hempty =>
        -- the write finds `async_queue` empty
        cases hnotice
        have hmembers := h.members
        rw [List.isEmpty_iff.1 (Bool.and_eq_true_iff.1 hempty).2] at hmembers
        exact ⟨List.nodup_nil, hmembers⟩
      · cases hnotice
    · cases hnotice
      exact ⟨h.nodup, h.members⟩
    · cases hnotice
  returns p hpc := by
    have hbusy : (s.fifo.proc p).pc ≠ .idle := by rw [hpc]; decide
    rw [(h.procs p).counted hbusy, Proc.sent, hpc]
  history := h.history

end

/-- **Who gets `SIGIO`**: after every run of any number of processes and files, `async_queue` is the
set of the files that are open and switched on; a write that succeeds sends `SIGIO` to these files,
once; and a call that fails, or is not a write, sends none. -/
theorem asyncQueue_notified (W : LongWidth) (cp : Copier Byte) {as : List Act} {s : System}
    (h : (machine W cp).Run Vfs .init as s) :
    Notified ((machine W cp).events observe .init as) s :=
  (Inv.of_run h).notified

/-! ## A run of one process -/

/-- Only process `0` is in a call. -/
def Solo (s : System) : Prop :=
  ∀ q, q ≠ 0 → (s.fifo.proc q).pc = .idle

/-- Process `0` steps, and calls on open files. -/
def soloCheck (s : System) : Act → Bool
  | .openFile _ => true
  | .fifo (.call p fd _) =>
    decide (p = 0 ∧ s.file fd = .opened ∧ (s.fifo.proc 0).pc = .idle)
  | .fifo a => decide (a.pid = 0)

theorem Solo.vfs {s : System} {a : Act} (h : Solo s) (hchk : soloCheck s a = true) : Vfs s a := by
  cases a with
  | openFile fd => trivial
  | fifo a =>
    cases a with
    | call p fd c =>
      obtain ⟨-, hopen, hidle⟩ := of_decide_eq_true hchk
      refine ⟨hopen, fun _ q hq => ?_⟩
      rcases eq_or_ne q 0 with rfl | hne
      · exact absurd hidle hq
      · exact absurd (h q hne) hq
    | _ => trivial

theorem Solo.step {W : LongWidth} {cp : Copier Byte} {s s' : System} {a : Act} (h : Solo s)
    (hchk : soloCheck s a = true) (hs : Notify.step W cp s a = some s') : Solo s' := by
  cases a with
  | openFile fd =>
    dsimp only [Notify.step] at hs
    split at hs <;> cases hs
    exact h
  | fifo a =>
    obtain ⟨t, ht, rfl⟩ := Option.map_eq_some_iff.1 hs
    have hpid : a.pid = 0 := by
      cases a with
      | call p fd c => exact (of_decide_eq_true hchk).1
      | _ => exact of_decide_eq_true hchk
    intro q hq
    have hsame : t.proc q = s.fifo.proc q := step_proc_of_ne ht (by rwa [hpid])
    exact (congrArg Proc.pc hsame).trans (h q hq)

/-- Process `0` opens two files, switches the notification of one on, writes to the other, releases
the first, and writes again. -/
def writeReleaseWrite : List Act :=
  [.openFile 0, .openFile 1, .fifo (.call 0 0 (.fasync true))] ++
    List.replicate 2 (Act.fifo (.run 0 none)) ++
    .fifo (.call 0 1 (.write (fun _ => 7) 1 false)) ::
    List.replicate 10 (Act.fifo (.run 0 none)) ++
    .fifo (.call 0 0 .release) :: List.replicate 2 (Act.fifo (.run 0 none)) ++
    .fifo (.call 0 1 (.write (fun _ => 8) 1 false)) ::
    List.replicate 8 (Act.fifo (.run 0 none))

/-- The second write is about to return, and only the first has signalled the file. -/
theorem writeReleaseWrite_notified : ∃ s, (machine .w64 Copier.ascending).Run Vfs .init
      writeReleaseWrite s ∧ s.fifo.sigio = [0] ∧ (s.fifo.proc 0).pc = .ret ∧
      (s.fifo.proc 0).res = ⟨1, []⟩ ∧
      Notified ((machine .w64 Copier.ascending).events observe .init writeReleaseWrite) s := by
  have hrun : ((machine .w64 Copier.ascending).runChecked soloCheck .init writeReleaseWrite).map
      (fun s => (s.fifo.sigio, (s.fifo.proc 0).pc, (s.fifo.proc 0).res)) =
      some ([0], .ret, ⟨1, []⟩) := by
    decide +kernel
  obtain ⟨s, hs, hend⟩ := Option.map_eq_some_iff.1 hrun
  obtain ⟨hr, -⟩ := Machine.Run.of_checked (C := Vfs) (I := Solo) (fun _ _ => Solo.vfs)
    (fun _ _ _ => Solo.step) (fun _ _ => rfl) hs
  simp only [Prod.mk.injEq] at hend
  obtain ⟨hsigio, hpc, hres⟩ := hend
  exact ⟨s, hr, hsigio, hpc, hres, asyncQueue_notified _ _ hr⟩

end Notify

end LinuxTraining.Globalfifo
