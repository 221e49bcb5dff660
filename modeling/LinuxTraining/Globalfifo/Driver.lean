import LinuxTraining.Kernel
import LinuxTraining.Lib.Linearize

/-!
# `globalfifo.c`: the blocking byte queue, as a machine

Any number of processes call `globalfifo_read`, `globalfifo_write`, `globalfifo_ioctl`,
`globalfifo_poll`, `globalfifo_fasync` and `globalfifo_release` on one device. A label moves one
process by one step: `mutex_lock`, `add_wait_queue`, the test of the loop, the task state,
`mutex_unlock`, `schedule`, the copy, the wakeup and so on; or a signal arrives, or a process wakes
for no reason. `globalfifo_read` and `globalfifo_write` have one shape (`rwStep`) and differ in the
values of `RwCode`. The versions of `ch9` and `ch12` have `async_queue`, that of `ch8` has not;
their steps are otherwise the same.

A step computes an `Effect` from the device, the process, its task state and whether a signal is
pending for it; `State.put` makes the effect happen.
-/

namespace LinuxTraining.Globalfifo

open Lib

/-- `GLOBALFIFO_SIZE`. -/
def GLOBALFIFO_SIZE : Nat := 0x1000

/-- `FIFO_CLEAR`. -/
def FIFO_CLEAR : Nat := 0x1

def POLLIN : Nat := 0x1
def POLLOUT : Nat := 0x4
def POLLRDNORM : Nat := 0x40
def POLLWRNORM : Nat := 0x100

/-! ## The device and the calls -/

/-- `TASK_RUNNING` or `TASK_INTERRUPTIBLE`. -/
inductive TaskState
  | running
  | interruptible
  deriving DecidableEq

/-- The wait queues of the device: `r_wait` and `w_wait`. -/
inductive WaitQueue
  | r
  | w
  deriving DecidableEq

/-- `struct globalfifo_dev`: `mutex` is its holder, a wait queue is the list of the processes with
an entry in it, and `async_queue` is a list of files. -/
structure Dev where
  currentLen : Nat
  mem : Mem Byte
  mutex : Option Nat
  rWait : List Nat
  wWait : List Nat
  asyncQueue : List Nat

/-- The entries of a wait queue. -/
def Dev.waiters (d : Dev) : WaitQueue → List Nat
  | .r => d.rWait
  | .w => d.wWait

/-- `add_wait_queue`. -/
def Dev.addWaitQueue (d : Dev) (q : WaitQueue) (p : Nat) : Dev :=
  match q with
  | .r => { d with rWait := p :: d.rWait }
  | .w => { d with wWait := p :: d.wWait }

/-- `remove_wait_queue`: it acts on the queue that it names. -/
def Dev.removeWaitQueue (d : Dev) (q : WaitQueue) (p : Nat) : Dev :=
  match q with
  | .r => { d with rWait := d.rWait.erase p }
  | .w => { d with wWait := d.wWait.erase p }

/-- A call: the file operation and its arguments, with `O_NONBLOCK` of the file. -/
inductive Call
  | read (count : Nat) (nonblock : Bool)
  | write (buf : Mem Byte) (count : Nat) (nonblock : Bool)
  | ioctl (cmd : Nat)
  | poll
  | fasync (mode : Bool)
  | release

/-- What a call gives back: its return value, and the bytes in the user's buffer. -/
structure Result where
  ret : Int
  data : List Byte
  deriving DecidableEq

/-- Where a process is. -/
inductive Pc
  | idle
  /-- The first `mutex_lock`. -/
  | lock
  | addWait
  /-- The condition of the `while`, and the test of `O_NONBLOCK`. -/
  | test
  | setState
  /-- `mutex_unlock` before `schedule`. -/
  | unlock1
  | schedule
  /-- `signal_pending`. -/
  | sigTest
  /-- `mutex_lock` after `schedule`. -/
  | relock
  /-- From the clamp of `count` to the update of `current_len`. -/
  | copy
  /-- `wake_up_interruptible`. -/
  | wake
  | killFasync
  /-- The label `out`: `mutex_unlock`. -/
  | out
  /-- The label `out2`: `remove_wait_queue`. -/
  | out2
  /-- `set_current_state(TASK_RUNNING)`. -/
  | setRunning
  | ret
  /-- The `switch` of `globalfifo_ioctl`. -/
  | switch
  | clear
  | pollWait
  | mask
  | fasync
  deriving DecidableEq

/-- A process: its call, the file it is made on, its program point, and the result so far. -/
structure Proc where
  call : Call
  file : Nat
  pc : Pc
  res : Result

/-! ## The steps of a call -/

/-- What a step does besides changing the device and its process. -/
inductive Also
  | nothing
  | setState (t : TaskState)
  | wakeUp (q : WaitQueue)
  | polled (mask : Nat)
  | killFasync
  | returned

/-- What a step of a process does. -/
structure Effect where
  dev : Dev
  proc : Proc
  also : Also := .nothing

/-- The process moved to another point. -/
def Proc.goto (x : Proc) (pc : Pc) : Proc := { x with pc := pc }

/-- `mutex_lock`: it waits for the mutex to be free. -/
def mutexLock (d : Dev) (p : Nat) (x : Proc) (next : Pc) : Option Effect :=
  match d.mutex with
  | none => some { dev := { d with mutex := some p }, proc := x.goto next }
  | some _ => none

/-- `mutex_unlock`. -/
def mutexUnlock (d : Dev) (x : Proc) (next : Pc) : Option Effect :=
  some { dev := { d with mutex := none }, proc := x.goto next }

/-- What the copy of a read or a write leaves: the device, the result, and whether it was
complete. -/
structure Copied where
  dev : Dev
  res : Result
  ok : Bool

/-- What `globalfifo_read` and `globalfifo_write` fill in of their common shape. -/
structure RwCode where
  nonblock : Bool
  blocked : Dev → Bool
  addsTo : WaitQueue
  removesFrom : WaitQueue
  wakes : WaitQueue
  copy : Dev → Option Fault → Copied
  kills : Bool

/-- `count` of `globalfifo_read` after the clamp. -/
def readCount (d : Dev) (count : Nat) : Nat :=
  if d.currentLen < count then d.currentLen else count

/-- The copy of `globalfifo_read`, from the clamp on. -/
def readCopy (W : LongWidth) (cp : Copier Byte) (size : Nat) (d : Dev) (limit : Option Fault) :
    Copied :=
  let count := readCount d size
  let (data, left) := copyToUser limit (d.mem.slice 0 count)
  if left ≠ 0 then ⟨d, ⟨-EFAULT, data⟩, false⟩
  else
    let mem := cp.copy d.mem 0 count (usub W.bits d.currentLen count)
    let currentLen := usub W.bits d.currentLen count % 2 ^ 32
    ⟨{ d with mem := mem, currentLen := currentLen }, ⟨toSigned 32 count, data⟩, true⟩

/-- `count` of `globalfifo_write` after the clamp. -/
def writeCount (d : Dev) (count : Nat) : Nat :=
  if usub 32 GLOBALFIFO_SIZE d.currentLen < count then usub 32 GLOBALFIFO_SIZE d.currentLen
  else count

/-- The copy of `globalfifo_write`, from the clamp on. -/
def writeCopy (W : LongWidth) (buf : Mem Byte) (size : Nat) (d : Dev) (limit : Option Fault) :
    Copied :=
  let count := writeCount d size
  let (mem, left) := copyFromUser limit d.mem d.currentLen (buf.slice 0 count)
  if left ≠ 0 then ⟨{ d with mem := mem }, ⟨-EFAULT, []⟩, false⟩
  else
    let currentLen := uadd W.bits d.currentLen count % 2 ^ 32
    ⟨{ d with mem := mem, currentLen := currentLen }, ⟨toSigned 32 count, []⟩, true⟩

/-- `globalfifo_read`: it adds its entry to `r_wait`, and takes it from `w_wait`. -/
def globalfifoRead (W : LongWidth) (cp : Copier Byte) (count : Nat) (nonblock : Bool) : RwCode where
  nonblock := nonblock
  blocked d := d.currentLen = 0
  addsTo := .r
  removesFrom := .w
  wakes := .w
  copy := readCopy W cp count
  kills := false

/-- `globalfifo_write`; `async` says whether the version has an `async_queue`. -/
def globalfifoWrite (W : LongWidth) (async : Bool) (buf : Mem Byte) (count : Nat)
    (nonblock : Bool) : RwCode where
  nonblock := nonblock
  blocked d := d.currentLen = GLOBALFIFO_SIZE
  addsTo := .w
  removesFrom := .w
  wakes := .r
  copy := writeCopy W buf count
  kills := async

/-- The shape of `globalfifo_read` and `globalfifo_write`. -/
def rwStep (c : RwCode) (d : Dev) (p : Nat) (x : Proc) (task : TaskState) (sig : Bool)
    (limit : Option Fault) : Option Effect :=
  match x.pc with
  | .lock => mutexLock d p x .addWait
  | .addWait => some { dev := d.addWaitQueue c.addsTo p, proc := x.goto .test }
  | .test =>
    if c.blocked d then
      if c.nonblock then some { dev := d, proc := { x.goto .out with res := ⟨-EAGAIN, []⟩ } }
      else some { dev := d, proc := x.goto .setState }
    else some { dev := d, proc := x.goto .copy }
  | .setState => some { dev := d, proc := x.goto .unlock1, also := .setState .interruptible }
  | .unlock1 => mutexUnlock d x .schedule
  | .schedule =>
    if task = .running ∨ sig then
      some { dev := d, proc := x.goto .sigTest, also := .setState .running }
    else none
  | .sigTest =>
    if sig then some { dev := d, proc := { x.goto .out2 with res := ⟨-ERESTARTSYS, []⟩ } }
    else some { dev := d, proc := x.goto .relock }
  | .relock => mutexLock d p x .test
  | .copy =>
    let r := c.copy d limit
    some { dev := r.dev, proc := { x.goto (if r.ok then .wake else .out) with res := r.res } }
  | .wake =>
    let next := if c.kills && !d.asyncQueue.isEmpty then Pc.killFasync else .out
    some { dev := d, proc := x.goto next, also := .wakeUp c.wakes }
  | .killFasync => some { dev := d, proc := x.goto .out, also := .killFasync }
  | .out => mutexUnlock d x .out2
  | .out2 => some { dev := d.removeWaitQueue c.removesFrom p, proc := x.goto .setRunning }
  | .setRunning => some { dev := d, proc := x.goto .ret, also := .setState .running }
  | _ => none

/-- `globalfifo_ioctl`. -/
def globalfifoIoctl (cmd : Nat) (d : Dev) (p : Nat) (x : Proc) : Option Effect :=
  match x.pc with
  | .switch =>
    if cmd = FIFO_CLEAR then some { dev := d, proc := x.goto .lock }
    else some { dev := d, proc := { x.goto .ret with res := ⟨-EINVAL, []⟩ } }
  | .lock => mutexLock d p x .clear
  | .clear =>
    let mem := d.mem.store 0 (List.replicate GLOBALFIFO_SIZE 0)
    some { dev := { d with currentLen := 0, mem := mem },
           proc := { x.goto .out with res := ⟨0, []⟩ } }
  | .out => mutexUnlock d x .ret
  | _ => none

/-- The mask of `globalfifo_poll`. -/
def pollMask (currentLen : Nat) : Nat :=
  (if currentLen ≠ 0 then POLLIN ||| POLLRDNORM else 0) |||
    (if currentLen ≠ GLOBALFIFO_SIZE then POLLOUT ||| POLLWRNORM else 0)

/-- `globalfifo_poll`; `poll_wait` enters the caller's poll table in both queues, which is the
caller's to remove. -/
def globalfifoPoll (d : Dev) (p : Nat) (x : Proc) : Option Effect :=
  match x.pc with
  | .lock => mutexLock d p x .pollWait
  | .pollWait => some { dev := d, proc := x.goto .mask }
  | .mask =>
    let mask := pollMask d.currentLen
    some { dev := d, proc := { x.goto .out with res := ⟨mask, []⟩ }, also := .polled mask }
  | .out => mutexUnlock d x .ret
  | _ => none

/-- `fasync_helper`: the queue, and whether it changed. -/
def fasyncHelper (queue : List Nat) (file : Nat) (on : Bool) : List Nat × Int :=
  if on then if file ∈ queue then (queue, 0) else (file :: queue, 1)
  else if file ∈ queue then (queue.erase file, 1) else (queue, 0)

/-- `globalfifo_fasync`. -/
def globalfifoFasync (mode : Bool) (d : Dev) (x : Proc) : Option Effect :=
  match x.pc with
  | .fasync =>
    let (queue, ret) := fasyncHelper d.asyncQueue x.file mode
    some { dev := { d with asyncQueue := queue }, proc := { x.goto .ret with res := ⟨ret, []⟩ } }
  | _ => none

/-- `globalfifo_release`: with an `async_queue` it switches the notification off. -/
def globalfifoRelease (async : Bool) (d : Dev) (x : Proc) : Option Effect :=
  match x.pc with
  | .fasync =>
    let queue := if async then (fasyncHelper d.asyncQueue x.file false).1 else d.asyncQueue
    some { dev := { d with asyncQueue := queue }, proc := { x.goto .ret with res := ⟨0, []⟩ } }
  | _ => none

section
variable (W : LongWidth) (cp : Copier Byte) (async : Bool)

/-- A step of a process within its call. -/
def callStep (d : Dev) (p : Nat) (x : Proc) (task : TaskState) (sig : Bool) (limit : Option Fault) :
    Option Effect :=
  match x.call with
  | .read count nonblock => rwStep (globalfifoRead W cp count nonblock) d p x task sig limit
  | .write buf count nonblock =>
    rwStep (globalfifoWrite W async buf count nonblock) d p x task sig limit
  | .ioctl cmd => globalfifoIoctl cmd d p x
  | .poll => globalfifoPoll d p x
  | .fasync mode => globalfifoFasync mode d x
  | .release => globalfifoRelease async d x

/-- A step of a process: within its call, or back to the user. -/
def procStep (d : Dev) (p : Nat) (x : Proc) (task : TaskState) (sig : Bool) (limit : Option Fault) :
    Option Effect :=
  match x.pc with
  | .idle => none
  | .ret => some { dev := d, proc := x.goto .idle, also := .returned }
  | _ => callStep W cp async d p x task sig limit

end

/-! ## The machine -/

/-- What is noted of a process's last poll: its mask, and the wakeups on each queue since. -/
structure Poll where
  mask : Nat
  wokenR : Bool
  wokenW : Bool

/-- A wakeup on a queue noted. -/
def Poll.woken (q : WaitQueue) (r : Poll) : Poll :=
  match q with
  | .r => { r with wokenR := true }
  | .w => { r with wokenW := true }

/-- The device, the processes with their task states and pending signals; `polls` and `sigio` are
history that no step reads. -/
structure State where
  dev : Dev
  proc : Nat → Proc
  task : Nat → TaskState
  sigPending : Nat → Bool
  polls : Nat → Option Poll
  sigio : List Nat

/-- One step of the schedule: a process starts a call on a file, or takes its next step, with
`limit` for its user copy; a process is woken for no reason; a signal arrives. -/
inductive Act
  | call (p : Nat) (file : Nat) (c : Call)
  | run (p : Nat) (limit : Option Fault)
  | wakeup (p : Nat)
  | signal (p : Nat)

/-- `wake_up_interruptible`: the processes with an entry in the queue run. -/
def wakeAll (queue : List Nat) (task : Nat → TaskState) : Nat → TaskState :=
  fun q => if q ∈ queue then .running else task q

/-- The effect of a step of process `p` happens. -/
def State.put (s : State) (p : Nat) (e : Effect) : State :=
  let s' := { s with dev := e.dev, proc := Function.update s.proc p e.proc }
  match e.also with
  | .nothing => s'
  | .setState t => { s' with task := Function.update s.task p t }
  | .wakeUp q =>
    { s' with task := wakeAll (e.dev.waiters q) s.task,
              polls := fun r => (s.polls r).map (.woken q) }
  | .polled mask => { s' with polls := Function.update s.polls p (some ⟨mask, false, false⟩) }
  | .killFasync => { s' with sigio := s.sigio ++ e.dev.asyncQueue }
  | .returned => { s' with sigPending := Function.update s.sigPending p false }

/-- The first program point of a call. -/
def Call.entry : Call → Pc
  | .read _ _ | .write _ _ _ | .poll => .lock
  | .ioctl _ => .switch
  | .fasync _ | .release => .fasync

section
variable (W : LongWidth) (cp : Copier Byte) (async : Bool)

/-- One step of the schedule. -/
def step (s : State) : Act → Option State
  | .call p file c =>
    match (s.proc p).pc with
    | .idle => some { s with proc := Function.update s.proc p ⟨c, file, c.entry, ⟨0, []⟩⟩ }
    | _ => none
  | .run p limit =>
    (procStep W cp async s.dev p (s.proc p) (s.task p) (s.sigPending p) limit).map (s.put p)
  | .wakeup p => some { s with task := Function.update s.task p .running }
  | .signal p =>
    some { s with task := Function.update s.task p .running,
                  sigPending := Function.update s.sigPending p true }

/-- The device after its initialisation. -/
def Dev.init : Dev := ⟨0, fun _ => 0, none, [], [], []⟩

/-- The device at rest, and its callers. -/
def State.init : State :=
  ⟨.init, fun _ => ⟨.poll, 0, .idle, ⟨0, []⟩⟩, fun _ => .running, fun _ => false, fun _ => none, []⟩

/-- The driver and the processes that call it. -/
def machine : Machine State Act where
  init s := s = .init
  step := step W cp async

end

/-- What the callers see of a step. -/
def observe (s : State) : Act → Option (CallEvent Nat Call Result)
  | .call p _ c => some (.call p c)
  | .run p _ => if (s.proc p).pc = .ret then some (.ret p (s.proc p).res) else none
  | .wakeup _ | .signal _ => none

@[simp] theorem State.put_dev (s : State) (p : Nat) (e : Effect) : (s.put p e).dev = e.dev := by
  unfold State.put
  cases e.also <;> rfl

@[simp] theorem State.put_proc (s : State) (p : Nat) (e : Effect) :
    (s.put p e).proc = Function.update s.proc p e.proc := by
  unfold State.put
  cases e.also <;> rfl

/-- The process that a label is about. -/
def Act.pid : Act → Nat
  | .call p _ _ | .run p _ | .wakeup p | .signal p => p

/-- A step moves only the process its label is about. -/
theorem step_proc_of_ne {W : LongWidth} {cp : Copier Byte} {async : Bool} {s s' : State} {a : Act}
    {q : Nat} (hs : step W cp async s a = some s') (hq : q ≠ a.pid) : s'.proc q = s.proc q := by
  cases a with
  | call p file c =>
    simp only [step] at hs
    split at hs
    · cases hs; exact Function.update_of_ne hq ..
    · cases hs
  | run p limit =>
    obtain ⟨e, -, rfl⟩ := Option.map_eq_some_iff.1 hs
    rw [State.put_proc]
    exact Function.update_of_ne hq ..
  | wakeup p => cases hs; rfl
  | signal p => cases hs; rfl

/-! ## The steps of a read or a write -/

/-- A step of a read or a write, by what it does. -/
inductive RwStep (c : RwCode) (d : Dev) (p : Nat) (task : TaskState) (sig : Bool)
    (limit : Option Fault) : Proc → Effect → Prop
  | lock {call file res} (hfree : d.mutex = none) :
    RwStep c d p task sig limit ⟨call, file, .lock, res⟩
      { dev := { d with mutex := some p }, proc := ⟨call, file, .addWait, res⟩ }
  | addWait {call file res} : RwStep c d p task sig limit ⟨call, file, .addWait, res⟩
      { dev := d.addWaitQueue c.addsTo p, proc := ⟨call, file, .test, res⟩ }
  | again {call file res} (hblocked : c.blocked d = true) (hnonblock : c.nonblock = true) :
    RwStep c d p task sig limit ⟨call, file, .test, res⟩
      { dev := d, proc := ⟨call, file, .out, ⟨-EAGAIN, []⟩⟩ }
  | sleep {call file res} (hblocked : c.blocked d = true) (hblock : c.nonblock = false) :
    RwStep c d p task sig limit ⟨call, file, .test, res⟩
      { dev := d, proc := ⟨call, file, .setState, res⟩ }
  | pass {call file res} (hfree : c.blocked d = false) :
    RwStep c d p task sig limit ⟨call, file, .test, res⟩
      { dev := d, proc := ⟨call, file, .copy, res⟩ }
  | setState {call file res} : RwStep c d p task sig limit ⟨call, file, .setState, res⟩
      { dev := d, proc := ⟨call, file, .unlock1, res⟩, also := .setState .interruptible }
  | unlock1 {call file res} : RwStep c d p task sig limit ⟨call, file, .unlock1, res⟩
      { dev := { d with mutex := none }, proc := ⟨call, file, .schedule, res⟩ }
  | schedule {call file res} (hawake : task = .running ∨ sig = true) :
    RwStep c d p task sig limit ⟨call, file, .schedule, res⟩
      { dev := d, proc := ⟨call, file, .sigTest, res⟩, also := .setState .running }
  | interrupted {call file res} (hsig : sig = true) :
    RwStep c d p task sig limit ⟨call, file, .sigTest, res⟩
      { dev := d, proc := ⟨call, file, .out2, ⟨-ERESTARTSYS, []⟩⟩ }
  | retry {call file res} (hsig : sig = false) :
    RwStep c d p task sig limit ⟨call, file, .sigTest, res⟩
      { dev := d, proc := ⟨call, file, .relock, res⟩ }
  | relock {call file res} (hfree : d.mutex = none) :
    RwStep c d p task sig limit ⟨call, file, .relock, res⟩
      { dev := { d with mutex := some p }, proc := ⟨call, file, .test, res⟩ }
  | copied {call file res} (hok : (c.copy d limit).ok = true) :
    RwStep c d p task sig limit ⟨call, file, .copy, res⟩
      { dev := (c.copy d limit).dev, proc := ⟨call, file, .wake, (c.copy d limit).res⟩ }
  | fault {call file res} (hfault : (c.copy d limit).ok = false) :
    RwStep c d p task sig limit ⟨call, file, .copy, res⟩
      { dev := (c.copy d limit).dev, proc := ⟨call, file, .out, (c.copy d limit).res⟩ }
  | wake {call file res} (hkills : (c.kills && !d.asyncQueue.isEmpty) = false) :
    RwStep c d p task sig limit ⟨call, file, .wake, res⟩
      { dev := d, proc := ⟨call, file, .out, res⟩, also := .wakeUp c.wakes }
  | wakeKill {call file res} (hkills : (c.kills && !d.asyncQueue.isEmpty) = true) :
    RwStep c d p task sig limit ⟨call, file, .wake, res⟩
      { dev := d, proc := ⟨call, file, .killFasync, res⟩, also := .wakeUp c.wakes }
  | killFasync {call file res} : RwStep c d p task sig limit ⟨call, file, .killFasync, res⟩
      { dev := d, proc := ⟨call, file, .out, res⟩, also := .killFasync }
  | out {call file res} : RwStep c d p task sig limit ⟨call, file, .out, res⟩
      { dev := { d with mutex := none }, proc := ⟨call, file, .out2, res⟩ }
  | out2 {call file res} : RwStep c d p task sig limit ⟨call, file, .out2, res⟩
      { dev := d.removeWaitQueue c.removesFrom p, proc := ⟨call, file, .setRunning, res⟩ }
  | setRunning {call file res} : RwStep c d p task sig limit ⟨call, file, .setRunning, res⟩
      { dev := d, proc := ⟨call, file, .ret, res⟩, also := .setState .running }

/-- A lock that is taken was free. -/
theorem mutexLock_eq_some {d : Dev} {p : Nat} {x : Proc} {next : Pc} {e : Effect}
    (h : mutexLock d p x next = some e) :
    d.mutex = none ∧ e = { dev := { d with mutex := some p }, proc := x.goto next } := by
  unfold mutexLock at h
  split at h
  · next hfree => exact ⟨hfree, (Option.some.inj h).symm⟩
  · cases h

theorem rwStep_rule {c : RwCode} {d : Dev} {p : Nat} {x : Proc} {task : TaskState} {sig : Bool}
    {limit : Option Fault} {e : Effect} (h : rwStep c d p x task sig limit = some e) :
    RwStep c d p task sig limit x e := by
  obtain ⟨call, file, pc, res⟩ := x
  cases pc with
  | lock =>
    obtain ⟨hfree, rfl⟩ := mutexLock_eq_some h
    exact .lock hfree
  | relock =>
    obtain ⟨hfree, rfl⟩ := mutexLock_eq_some h
    exact .relock hfree
  | addWait => cases h; exact .addWait
  | test =>
    simp only [rwStep] at h
    split at h
    · next hblocked =>
      split at h
      · next hnonblock => cases h; exact .again hblocked hnonblock
      · next hblock => cases h; exact .sleep hblocked (Bool.eq_false_iff.2 hblock)
    · next hfree => cases h; exact .pass (Bool.eq_false_iff.2 hfree)
  | setState => cases h; exact .setState
  | unlock1 => cases h; exact .unlock1
  | schedule =>
    simp only [rwStep] at h
    split at h
    · next hawake => cases h; exact .schedule hawake
    · cases h
  | sigTest =>
    simp only [rwStep] at h
    split at h
    · next hsig => cases h; exact .interrupted hsig
    · next hsig => cases h; exact .retry (Bool.eq_false_iff.2 hsig)
  | copy =>
    simp only [rwStep] at h
    split at h
    · next hok => cases h; exact .copied hok
    · next hfault => cases h; exact .fault (Bool.eq_false_iff.2 hfault)
  | wake =>
    simp only [rwStep] at h
    split at h
    · next hkills => cases h; exact .wakeKill hkills
    · next hkills => cases h; exact .wake (Bool.eq_false_iff.2 hkills)
  | killFasync => cases h; exact .killFasync
  | out => cases h; exact .out
  | out2 => cases h; exact .out2
  | setRunning => cases h; exact .setRunning
  | idle | ret | switch | clear | pollWait | mask | fasync => cases h

end LinuxTraining.Globalfifo
