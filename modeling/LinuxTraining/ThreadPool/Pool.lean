import LinuxTraining.Lib.Machine
import Mathlib.Algebra.Order.Ring.Rat
import Mathlib.Logic.Function.Basic

/-!
# `libthreadpool/src/thread-pool.c`: the pool and the threads on it

The steps of `tp_process_job`, `tp_add_thread`, `tp_get_thread_by_id`, `tp_work_thread`,
`tp_get_tp_status`, `tp_delete_thread` and `tp_manage_thread`, with each lock, unlock, read, write,
signal and wait on the shared pool a step of its own: `submitStep`, `signalStep`, `createStep`,
`workStep` and `manageStep`, scheduled by `step`.

A submission is one call of `tp_process_job`; a thread that calls again is another submission. The
jobs are values of any type, and so are the works, whose `process_job` returns and does not touch
the pool. What `printf` reads is left out, and so is the dead store to `tmpid`.
-/

namespace LinuxTraining.ThreadPool

open Lib

/-- Who runs: a submission, or a worker, numbered as `pthread_create` makes them. -/
inductive Party
  | submit (c : Nat)
  | work (n : Nat)
  deriving DecidableEq

/-- A mutex or a condition variable: uninitialised memory, initialised, or destroyed. -/
inductive Life
  | raw
  | live
  | destroyed
  deriving DecidableEq

/-- The history of the slot since it was last idle: marked busy by a submission; taken up by a
worker, which the submission's signal has woken; or without one, as the signal found no waiter. No
step reads it. -/
inductive Phase
  | free
  | claimed (c : Nat)
  | running (c n : Nat)
  | lost (c : Nat)
  deriving DecidableEq

/-- The submission that holds the slot. -/
def Phase.holder : Phase → Option Nat
  | .free => none
  | .claimed c | .running c _ | .lost c => some c

/-- `tp_thread_info`, with the owner of its lock, the worker that `pthread_create` made for it, and
its history. -/
structure Slot (w : Nat) (ω δ : Type) where
  threadId : BitVec w
  isBusy : Bool
  threadCond : Life
  threadLock : Life
  thWork : ω
  thJob : δ
  owner : Option Party
  worker : Option Nat
  phase : Phase

/-- The program points of `tp_process_job`, with `i` its loop variable: the loop over the slots
(`test` to `unlockBusy`), `tp_add_thread` (`addTest` to `create`, with `n` the index of the new
slot) and what follows it. The flag of `poolUnlock` and `wake` is the result of `tp_add_thread`. -/
inductive SubmitPc
  | idle
  | test (i : Int)
  | lock (i : Int)
  | readBusy (i : Int)
  | setBusy (i : Int)
  | unlockClaimed (i : Int)
  | storeWork (i : Int)
  | storeJob (i : Int)
  | signal (i : Int)
  | unlockBusy (i : Int)
  | poolLock (i : Int)
  | addTest (i : Int)
  | addIndex (i : Int)
  | condInit (i n : Int)
  | lockInit (i n : Int)
  | addBusy (i n : Int)
  | incRead (i n : Int)
  | incWrite (i n v : Int)
  | create (i n : Int)
  | growIndex
  | growWork (i : Int)
  | growJob (i : Int)
  | poolUnlock (grown : Bool) (i : Int)
  | wake (grown : Bool) (i : Int)
  | returned
  deriving DecidableEq

/-- The program points of `tp_work_thread`: its call of `tp_get_thread_by_id` (`find` and `cmp`),
and its loop on slot `k`. -/
inductive WorkPc (ω δ : Type)
  | unborn
  | find (i : Int)
  | cmp (i : Int)
  | lockWait (k : Int)
  | wait (k : Int)
  | waiting (k : Int)
  | relock (k : Int)
  | unlock (k : Int)
  | readWork (k : Int)
  | readJob (k : Int) (work : ω)
  | process (k : Int) (work : ω) (job : δ)
  | lockDone (k : Int)
  | setIdle (k : Int)
  | unlockDone (k : Int)
  | exited
  | killed

/-- The program points of `tp_manage_thread`: `tp_get_tp_status`, with `b` busy slots counted, and
`tp_delete_thread`, which reads `cur_th_num` before each use. -/
inductive ManagePc
  | sleep
  | statTest (i : Int) (b : Nat)
  | statBusy (i : Int) (b : Nat)
  | statEnd (b : Nat)
  | delMin
  | busyIndex
  | delBusy (k : Int)
  | killIndex
  | kill (k : Int)
  | lockIndex
  | destroyLock (k : Int)
  | condIndex
  | destroyCond (k : Int)
  | decRead
  | decWrite (v : Int)
  deriving DecidableEq

/-- A call of a work's `process_job`: by which worker, for which slot, with what. -/
structure Execution (ω δ : Type) where
  worker : Nat
  slot : Int
  work : ω
  job : δ

/-- A submission: its arguments, where it is, and its history, which no step reads: the slot that it
marked busy, the slot that it stored its pair into, the executions while it held a slot, and whether
the slot has been set idle after that. -/
structure Submission (ω δ : Type) where
  worker : ω
  job : δ
  pc : SubmitPc
  claimed : Option Int
  stored : Option Int
  runs : List (Execution ω δ)
  finished : Bool

/-- A thread: what `pthread_self` returns, and where it is. -/
structure Thread (w : Nat) (ω δ : Type) where
  id : BitVec w
  pc : WorkPc ω δ

/-- `tp_thread_pool` with its array of slots, and the threads that run on it. The lists `freed` and
`killed` are the slots that were passed to `free` and to `kill`. -/
structure State (w : Nat) (ω δ : Type) where
  minThNum : Int
  curThNum : Int
  maxThNum : Int
  tpLock : Option Nat
  slot : Int → Slot w ω δ
  call : Nat → Submission ω δ
  created : Nat
  thread : Nat → Thread w ω δ
  manager : ManagePc
  freed : List Int
  killed : List Int

variable {w : Nat} {ω δ : Type}

/-- Part of the slot at an index is changed. -/
def State.setSlot (s : State w ω δ) (i : Int) (f : Slot w ω δ → Slot w ω δ) : State w ω δ :=
  { s with slot := Function.update s.slot i (f (s.slot i)) }

/-- Part of a submission is changed. -/
def State.setCall (s : State w ω δ) (c : Nat) (f : Submission ω δ → Submission ω δ) :
    State w ω δ :=
  { s with call := Function.update s.call c (f (s.call c)) }

/-- A submission goes to a program point. -/
def State.submitTo (s : State w ω δ) (c : Nat) (pc : SubmitPc) : State w ω δ :=
  s.setCall c fun x => { x with pc }

/-- A worker goes to a program point. -/
def State.workTo (s : State w ω δ) (n : Nat) (pc : WorkPc ω δ) : State w ω δ :=
  { s with thread := Function.update s.thread n { s.thread n with pc } }

/-- The manager goes to a program point. -/
def State.manageTo (s : State w ω δ) (pc : ManagePc) : State w ω δ :=
  { s with manager := pc }

theorem State.setSlot_self (s : State w ω δ) (i : Int) (f : Slot w ω δ → Slot w ω δ) :
    (s.setSlot i f).slot i = f (s.slot i) :=
  Function.update_self ..

theorem State.setSlot_of_ne (s : State w ω δ) {i k : Int} (f : Slot w ω δ → Slot w ω δ)
    (hne : k ≠ i) : (s.setSlot i f).slot k = s.slot k :=
  Function.update_of_ne hne ..

theorem State.setCall_self (s : State w ω δ) (c : Nat)
    (f : Submission ω δ → Submission ω δ) : (s.setCall c f).call c = f (s.call c) :=
  Function.update_self ..

theorem State.setCall_of_ne (s : State w ω δ) {c d : Nat}
    (f : Submission ω δ → Submission ω δ) (hne : d ≠ c) : (s.setCall c f).call d = s.call d :=
  Function.update_of_ne hne ..

theorem State.submitTo_pc (s : State w ω δ) (c : Nat) (pc : SubmitPc) :
    ((s.submitTo c pc).call c).pc = pc :=
  congrArg Submission.pc (State.setCall_self ..)

theorem State.workTo_self (s : State w ω δ) (n : Nat) (pc : WorkPc ω δ) :
    (s.workTo n pc).thread n = { s.thread n with pc } :=
  Function.update_self ..

theorem State.workTo_of_ne (s : State w ω δ) {n m : Nat} (pc : WorkPc ω δ) (hne : m ≠ n) :
    (s.workTo n pc).thread m = s.thread m :=
  Function.update_of_ne hne ..

/-- What holds of the changed slot and of all slots before holds of all slots after. -/
theorem State.forall_setSlot (s : State w ω δ) {i : Int} {f : Slot w ω δ → Slot w ω δ}
    {P : Int → Slot w ω δ → Prop} (hi : P i (f (s.slot i))) (hall : ∀ k, P k (s.slot k)) :
    ∀ k, P k ((s.setSlot i f).slot k) :=
  (Function.forall_update_iff s.slot P).2 ⟨hi, fun k _ => hall k⟩

/-- What holds of the changed submission and of all before holds of all after. -/
theorem State.forall_setCall (s : State w ω δ) {c : Nat} {f : Submission ω δ → Submission ω δ}
    {P : Nat → Submission ω δ → Prop} (hc : P c (f (s.call c))) (hall : ∀ d, P d (s.call d)) :
    ∀ d, P d ((s.setCall c f).call d) :=
  (Function.forall_update_iff s.call P).2 ⟨hc, fun d _ => hall d⟩

/-- What holds where the worker goes and where all workers were holds where they are. -/
theorem State.forall_workTo (s : State w ω δ) {n : Nat} {pc : WorkPc ω δ}
    {P : Nat → WorkPc ω δ → Prop} (hn : P n pc) (hall : ∀ m, P m (s.thread m).pc) :
    ∀ m, P m ((s.workTo n pc).thread m).pc :=
  (Function.forall_update_iff s.thread fun m x => P m x.pc).2 ⟨hn, fun m _ => hall m⟩

/-- `pthread_mutex_lock` on a slot, which waits until the lock is free. -/
def State.lockSlot (s : State w ω δ) (i : Int) (p : Party) : Option (State w ω δ) :=
  match (s.slot i).owner with
  | none => some (s.setSlot i fun x => { x with owner := some p })
  | some _ => none

/-- `pthread_mutex_unlock` on a slot. -/
def State.unlockSlot (s : State w ω δ) (i : Int) : State w ω δ :=
  s.setSlot i fun x => { x with owner := none }

/-- A submission marks a slot busy, and holds it from then on. -/
def State.claim (s : State w ω δ) (c : Nat) (i : Int) : State w ω δ :=
  (s.setCall c fun x => { x with claimed := some i }).setSlot i
    fun x => { x with isBusy := true, phase := .claimed c }

/-- `this->thread_info[i].th_work = worker`. -/
def State.putWork (s : State w ω δ) (c : Nat) (i : Int) : State w ω δ :=
  (s.setCall c fun x => { x with stored := some i }).setSlot i
    fun x => { x with thWork := (s.call c).worker }

/-- `this->thread_info[i].th_job = job`. -/
def State.putJob (s : State w ω δ) (c : Nat) (i : Int) : State w ω δ :=
  s.setSlot i fun x => { x with thJob := (s.call c).job }

/-- One step of `tp_process_job` that is neither a signal nor a `pthread_create`. -/
def submitStep (s : State w ω δ) (c : Nat) : Option (State w ω δ) :=
  match (s.call c).pc with
  | .test i => some (s.submitTo c (if i < s.curThNum then .lock i else .poolLock i))
  | .lock i => (s.lockSlot i (.submit c)).map (·.submitTo c (.readBusy i))
  | .readBusy i => some (s.submitTo c (if (s.slot i).isBusy then .unlockBusy i else .setBusy i))
  | .setBusy i => some ((s.claim c i).submitTo c (.unlockClaimed i))
  | .unlockClaimed i => some ((s.unlockSlot i).submitTo c (.storeWork i))
  | .storeWork i => some ((s.putWork c i).submitTo c (.storeJob i))
  | .storeJob i => some ((s.putJob c i).submitTo c (.signal i))
  | .unlockBusy i => some ((s.unlockSlot i).submitTo c (.test (i + 1)))
  | .poolLock i =>
    match s.tpLock with
    | none => some ({ s with tpLock := some c }.submitTo c (.addTest i))
    | some _ => none
  -- `tp_add_thread`
  | .addTest i =>
    some (s.submitTo c (if s.maxThNum ≤ s.curThNum then .poolUnlock false i else .addIndex i))
  | .addIndex i => some (s.submitTo c (.condInit i s.curThNum))
  | .condInit i n =>
    some ((s.setSlot n fun x => { x with threadCond := .live }).submitTo c (.lockInit i n))
  | .lockInit i n =>
    some ((s.setSlot n fun x => { x with threadLock := .live, owner := none }).submitTo c
      (.addBusy i n))
  | .addBusy i n => some ((s.claim c n).submitTo c (.incRead i n))
  | .incRead i n => some (s.submitTo c (.incWrite i n s.curThNum))
  | .incWrite i n v => some ({ s with curThNum := v + 1 }.submitTo c (.create i n))
  -- `tp_add_thread` has returned `TRUE`
  | .growIndex => some (s.submitTo c (.growWork (s.curThNum - 1)))
  | .growWork i => some ((s.putWork c i).submitTo c (.growJob i))
  | .growJob i => some ((s.putJob c i).submitTo c (.poolUnlock true i))
  | .poolUnlock grown i => some ({ s with tpLock := none }.submitTo c (.wake grown i))
  | .idle | .signal _ | .create _ _ | .wake _ _ | .returned => none

/-- The worker is blocked in `pthread_cond_wait` on a slot's condition. -/
def State.waitsOn (s : State w ω δ) (n : Nat) (i : Int) : Bool :=
  match (s.thread n).pc with
  | .waiting k => k == i
  | _ => false

theorem State.waitsOn_iff {s : State w ω δ} {n : Nat} {i : Int} :
    s.waitsOn n i = true ↔ (s.thread n).pc = .waiting i := by
  unfold State.waitsOn
  constructor
  · intro h
    split at h
    · next hpc => rw [hpc, eq_of_beq h]
    · cases h
  · intro h
    rw [h]
    exact beq_self_eq_true i

/-- `pthread_cond_signal`: one of the waiters wakes, and without a waiter nothing happens. -/
def State.condSignal (s : State w ω δ) (i : Int) : Option Nat → Option (State w ω δ)
  | some n => if s.waitsOn n i then some (s.workTo n (.relock i)) else none
  | none => if ∀ n, n < s.created → s.waitsOn n i = false then some s else none

/-- What the signal of the submission that holds the slot makes of the slot's history. -/
def Phase.signalled (c : Nat) : Option Nat → Phase
  | some n => .running c n
  | none => .lost c

/-- One step of `tp_process_job` that signals, and returns. -/
def signalStep (s : State w ω δ) (c : Nat) (woken : Option Nat) : Option (State w ω δ) :=
  match (s.call c).pc with
  | .signal i | .wake true i =>
    (s.condSignal i woken).map fun t =>
      (t.setSlot i fun x => { x with phase := .signalled c woken }).submitTo c .returned
  | .wake false i => (s.condSignal i woken).map (·.submitTo c .returned)
  | _ => none

/-- The thread has been created and still runs. -/
def Thread.alive (t : Thread w ω δ) : Bool :=
  match t.pc with
  | .unborn | .exited | .killed => false
  | _ => true

/-- `pthread_create` in `tp_add_thread`: a new thread under an id that no live thread has, which is
in `thread_id` before the thread runs; or an error, after which `tp_add_thread` frees the slot and
returns `FALSE`. -/
def createStep (s : State w ω δ) (c : Nat) (id : Option (BitVec w)) : Option (State w ω δ) :=
  match (s.call c).pc, id with
  | .create _ n, some id =>
    if ∀ m, m < s.created → (s.thread m).alive = true → (s.thread m).id ≠ id then
      some (({ s with
          created := s.created + 1,
          thread := Function.update s.thread s.created ⟨id, .find 0⟩ }.setSlot n fun x =>
        { x with threadId := id, worker := some s.created }).submitTo c .growIndex)
    else none
  | .create i n, none => some ({ s with freed := n :: s.freed }.submitTo c (.poolUnlock false i))
  | _, _ => none

/-- A thread id passed as `int` and compared with a `pthread_t`. -/
def narrowed (id : BitVec w) : BitVec w := (id.truncate 32).signExtend w

/-- A worker's call of `process_job` is recorded with the submission that holds the slot. -/
def State.record (s : State w ω δ) (n : Nat) (k : Int) (work : ω) (job : δ) : State w ω δ :=
  match (s.slot k).phase.holder with
  | some c => s.setCall c fun x => { x with runs := x.runs ++ [⟨n, k, work, job⟩] }
  | none => s

/-- A worker marks its slot idle, which ends the hold of a submission. -/
def State.release (s : State w ω δ) (k : Int) : State w ω δ :=
  let t := match (s.slot k).phase.holder with
    | some c => s.setCall c fun x => { x with finished := true }
    | none => s
  t.setSlot k fun x => { x with isBusy := false, phase := .free }

/-- One step of `tp_work_thread`. -/
def workStep (s : State w ω δ) (n : Nat) : Option (State w ω δ) :=
  match (s.thread n).pc with
  | .find i => some (s.workTo n (if i < s.curThNum then .cmp i else .exited))
  | .cmp i =>
    some (s.workTo n (if narrowed (s.thread n).id = (s.slot i).threadId then .lockWait i
      else .find (i + 1)))
  | .lockWait k => (s.lockSlot k (.work n)).map (·.workTo n (.wait k))
  | .wait k => some ((s.unlockSlot k).workTo n (.waiting k))
  | .relock k => (s.lockSlot k (.work n)).map (·.workTo n (.unlock k))
  | .unlock k => some ((s.unlockSlot k).workTo n (.readWork k))
  | .readWork k => some (s.workTo n (.readJob k (s.slot k).thWork))
  | .readJob k work => some (s.workTo n (.process k work (s.slot k).thJob))
  | .process k work job => some ((s.record n k work job).workTo n (.lockDone k))
  | .lockDone k => (s.lockSlot k (.work n)).map (·.workTo n (.setIdle k))
  | .setIdle k => some ((s.release k).workTo n (.unlockDone k))
  | .unlockDone k => some ((s.unlockSlot k).workTo n (.lockWait k))
  | .unborn | .waiting _ | .exited | .killed => none

/-- `busy_num/(this->cur_th_num) < BUSY_THRESHOLD`: on an empty pool the quotient is not a number,
and the comparison fails. The comparison of the `float` quotient agrees up to `2 ^ 24` slots. -/
def isIdleStatus (b : Nat) (cur : Int) : Bool :=
  decide (cur ≠ 0 ∧ (b : ℚ) / (cur : ℚ) < 1 / 2)

/-- `kill(this->thread_info[k].thread_id, SIGKILL)` stops the worker of the slot. -/
def State.killWorker (s : State w ω δ) (k : Int) : State w ω δ :=
  let t := { s with killed := k :: s.killed }
  match (s.slot k).worker with
  | some n => t.workTo n .killed
  | none => t

/-- One step of `tp_manage_thread`. -/
def manageStep (s : State w ω δ) : State w ω δ :=
  match s.manager with
  | .sleep => s.manageTo (.statTest 0 0)
  | .statTest i b => s.manageTo (if i < s.curThNum then .statBusy i b else .statEnd b)
  | .statBusy i b => s.manageTo (.statTest (i + 1) (if (s.slot i).isBusy then b + 1 else b))
  | .statEnd b => s.manageTo (if isIdleStatus b s.curThNum then .delMin else .sleep)
  -- `tp_delete_thread`
  | .delMin => s.manageTo (if s.curThNum ≤ s.minThNum then .sleep else .busyIndex)
  | .busyIndex => s.manageTo (.delBusy (s.curThNum - 1))
  | .delBusy k => s.manageTo (if (s.slot k).isBusy then .sleep else .killIndex)
  | .killIndex => s.manageTo (.kill (s.curThNum - 1))
  | .kill k => (s.killWorker k).manageTo .lockIndex
  | .lockIndex => s.manageTo (.destroyLock (s.curThNum - 1))
  | .destroyLock k =>
    (s.setSlot k fun x => { x with threadLock := .destroyed }).manageTo .condIndex
  | .condIndex => s.manageTo (.destroyCond (s.curThNum - 1))
  | .destroyCond k =>
    (s.setSlot k fun x => { x with threadCond := .destroyed }).manageTo .decRead
  | .decRead => s.manageTo (.decWrite s.curThNum)
  | .decWrite v => { s with curThNum := v - 1 }.manageTo .delMin

/-- One step of the schedule: a call of `tp_process_job`; a step of a submission, with the worker
that a signal wakes and the outcome of `pthread_create`; a step of a worker; a spurious wakeup; a
step of the manager. -/
inductive Act (w : Nat) (ω δ : Type)
  | call (c : Nat) (worker : ω) (job : δ)
  | submit (c : Nat)
  | signal (c : Nat) (woken : Option Nat)
  | create (c : Nat) (id : Option (BitVec w))
  | work (n : Nat)
  | spurious (n : Nat)
  | manage

/-- One step of the schedule. -/
def step (s : State w ω δ) : Act w ω δ → Option (State w ω δ)
  | .call c worker job =>
    match (s.call c).pc with
    | .idle => some (s.setCall c fun x => { x with worker, job, pc := .test 0 })
    | _ => none
  | .submit c => submitStep s c
  | .signal c woken => signalStep s c woken
  | .create c id => createStep s c id
  | .work n => workStep s n
  | .spurious n =>
    match (s.thread n).pc with
    | .waiting k => some (s.workTo n (.relock k))
    | _ => none
  | .manage => some (manageStep s)

/-- After `creat_thread_pool` and a successful `tp_init`, with every slot idle: a worker for each
slot, at its start. The rest of the array is uninitialised. -/
structure Initialised (min max : Int) (s : State w ω δ) : Prop where
  range : 0 ≤ min ∧ min ≤ max
  nums : s.minThNum = min ∧ s.curThNum = min ∧ s.maxThNum = max
  tpLock : s.tpLock = none
  slots : ∀ i : Nat, (i : Int) < min → (s.slot i).isBusy = false ∧
    (s.slot i).threadCond = .live ∧ (s.slot i).threadLock = .live ∧ (s.slot i).owner = none ∧
    (s.slot i).worker = some i ∧ (s.slot i).threadId = (s.thread i).id
  beyond : ∀ i, ¬ (0 ≤ i ∧ i < min) →
    (s.slot i).threadCond = .raw ∧ (s.slot i).threadLock = .raw ∧ (s.slot i).worker = none
  phase : ∀ i, (s.slot i).phase = .free
  created : (s.created : Int) = min
  threads : ∀ n, (s.thread n).pc = if n < s.created then .find 0 else .unborn
  ids : ∀ m n, m < n → n < s.created → (s.thread m).id ≠ (s.thread n).id
  calls : ∀ c, (s.call c).pc = .idle ∧ (s.call c).claimed = none ∧ (s.call c).stored = none ∧
    (s.call c).runs = [] ∧ (s.call c).finished = false
  manager : s.manager = .sleep
  lists : s.freed = [] ∧ s.killed = []

/-- The pool, its workers, its manager and any number of submissions. -/
def machine (w : Nat) (ω δ : Type) (min max : Int) : Machine (State w ω δ) (Act w ω δ) where
  init := Initialised min max
  step := step

/-- A pool of works and jobs that are numbers, with ids from `1`. -/
def idlePool (min max : Nat) : State 64 Nat Nat where
  minThNum := min
  curThNum := min
  maxThNum := max
  tpLock := none
  slot i :=
    if 0 ≤ i ∧ i < min then
      ⟨BitVec.ofNat 64 (i.toNat + 1), false, .live, .live, 0, 0, none, some i.toNat, .free⟩
    else ⟨0, false, .raw, .raw, 0, 0, none, none, .free⟩
  call _ := ⟨0, 0, .idle, none, none, [], false⟩
  created := min
  thread n := ⟨BitVec.ofNat 64 (n + 1), if n < min then .find 0 else .unborn⟩
  manager := .sleep
  freed := []
  killed := []

theorem idlePool_initialised {min max : Nat} (h : min ≤ max) (hmax : max < 2 ^ 64) :
    Initialised (min : Int) max (idlePool min max) where
  range := ⟨Int.natCast_nonneg _, Int.ofNat_le.2 h⟩
  nums := ⟨rfl, rfl, rfl⟩
  tpLock := rfl
  slots i hi := by
    have hpos : (0 : Int) ≤ i ∧ (i : Int) < min := ⟨Int.natCast_nonneg _, hi⟩
    have hslot : (idlePool min max).slot i =
        ⟨BitVec.ofNat 64 (i + 1), false, .live, .live, 0, 0, none, some i, .free⟩ := if_pos hpos
    rw [hslot]
    exact ⟨rfl, rfl, rfl, rfl, rfl, rfl⟩
  beyond i hi := by
    have hslot : (idlePool min max).slot i = ⟨0, false, .raw, .raw, 0, 0, none, none, .free⟩ :=
      if_neg hi
    rw [hslot]
    exact ⟨rfl, rfl, rfl⟩
  phase i := by
    simp only [idlePool]
    split <;> rfl
  created := rfl
  threads _ := rfl
  ids m n hmn hn := by
    intro he
    have hn' : n < min := hn
    have hnat := congrArg BitVec.toNat he
    simp only [idlePool, BitVec.toNat_ofNat] at hnat
    omega
  calls _ := ⟨rfl, rfl, rfl, rfl, rfl⟩
  manager := rfl
  lists := ⟨rfl, rfl⟩

end LinuxTraining.ThreadPool
