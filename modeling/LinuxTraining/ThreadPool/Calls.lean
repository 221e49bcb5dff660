import LinuxTraining.Lib.Ledger
import LinuxTraining.ThreadPool.Tail

/-!
# `libthreadpool/src/thread-pool.c`: whole calls

The functions of the pool as functions, for calls that do not overlap: from `creat_thread_pool` and
`tp_init`, with what `malloc` and each `pthread_create` return, over `tp_process_job`, jobs that are
done and passes of the manager, to `tp_close`. What the pool holds (threads, mutexes and condition
variables) is a ledger. That these functions are what the steps of the pool come to when nobody
disturbs them is proved in `ThreadPool.Agree`.
-/

namespace LinuxTraining.ThreadPool

open Lib Ledger

variable {w : Nat} {ω δ : Type}

/-- What a pool creates, and initialises. A `stranger` is a thread that the pool has not created,
under an id that no `pthread_create` has stored. -/
inductive Resource
  | thread (n : Nat)
  | manager
  | stranger
  | lock (i : Int)
  | cond (i : Int)
  | tpLock
  | memory (i : Int)
  deriving DecidableEq

/-- `tp_thread_info`, with the thread whose id `pthread_create` has stored there, and whether that
thread has a job to finish. Its mutex and its condition variable are in the ledger. -/
structure Info (w : Nat) (ω δ : Type) where
  threadId : BitVec w
  isBusy : Bool
  thWork : ω
  thJob : δ
  thread : Option Nat
  hasJob : Bool

/-- `tp_thread_pool`; the workers are numbered as `pthread_create` makes them. -/
structure Pool (w : Nat) (ω δ : Type) where
  minThNum : Int
  curThNum : Int
  maxThNum : Int
  threadInfo : Int → Info w ω δ
  manageThreadId : Option (BitVec w)
  created : Nat
  log : List (Event Resource)

/-- An entry of the ledger. -/
def Pool.note (p : Pool w ω δ) (e : Event Resource) : Pool w ω δ := { p with log := p.log ++ [e] }

/-- Part of a slot is changed. -/
def Pool.setInfo (p : Pool w ω δ) (i : Int) (f : Info w ω δ → Info w ω δ) : Pool w ω δ :=
  { p with threadInfo := Function.update p.threadInfo i (f (p.threadInfo i)) }

/-- `pthread_cond_init` and `pthread_mutex_init` of a slot. -/
def Pool.initSlot (p : Pool w ω δ) (i : Int) : Pool w ω δ :=
  (p.note (.acquire (.cond i))).note (.acquire (.lock i))

/-- A `pthread_create` that succeeds: a new worker, with its id in the slot. -/
def Pool.spawn (p : Pool w ω δ) (i : Int) (id : BitVec w) : Pool w ω δ :=
  { p.setInfo i fun x => { x with threadId := id, thread := some p.created } with
    created := p.created + 1 }.note (.acquire (.thread p.created))

/-- `creat_thread_pool`, where `malloc` returns a block with the contents `raw`. -/
def creatThreadPool (minNum maxNum : Int) (raw : Int → Info w ω δ) : Pool w ω δ where
  minThNum := minNum
  curThNum := minNum
  maxThNum := maxNum
  threadInfo i := { raw i with thread := none, hasJob := false }
  manageThreadId := none
  created := 0
  log := [.acquire .tpLock, .acquire (.memory 0)]

/-- The loop of `tp_init` from slot `i` on, with `k` rounds to go and what `pthread_create` answers:
whether it ends, and the pool. -/
def initFrom (ans : Int → Option (BitVec w)) (p : Pool w ω δ) (i : Int) :
    Nat → Bool × Pool w ω δ
  | 0 => (true, p)
  | k + 1 =>
    match ans i with
    | none => (false, p.initSlot i)
    | some id => initFrom ans ((p.initSlot i).spawn i id) (i + 1) k

/-- `tp_init`, with what `pthread_create` answers for each worker and for the manager. -/
def tpInit (ans : Int → Option (BitVec w)) (manager : Option (BitVec w)) (p : Pool w ω δ) :
    Bool × Pool w ω δ :=
  match initFrom ans p 0 p.minThNum.toNat with
  | (false, p) => (false, p)
  | (true, p) =>
    match manager with
    | none => (false, p)
    | some id => (true, { p with manageThreadId := some id }.note (.acquire .manager))

/-- The loop of `tp_process_job` from slot `i` on, with `k` rounds to go: the first idle slot. -/
def idleFrom (info : Int → Info w ω δ) (i : Int) : Nat → Option Int
  | 0 => none
  | k + 1 => if (info i).isBusy then idleFrom info (i + 1) k else some i

/-- The first idle slot of a pool. -/
def Pool.firstIdle (p : Pool w ω δ) : Option Int := idleFrom p.threadInfo 0 p.curThNum.toNat

/-- What `tp_add_thread` does before its `pthread_create`: the next slot is set up, busy and
counted. -/
def Pool.growSlot (p : Pool w ω δ) : Pool w ω δ :=
  { (p.initSlot p.curThNum).setInfo p.curThNum fun x => { x with isBusy := true } with
    curThNum := p.curThNum + 1 }

/-- `tp_add_thread`, with what `pthread_create` answers. -/
def tpAddThread (p : Pool w ω δ) (create : Option (BitVec w)) : Bool × Pool w ω δ :=
  if p.maxThNum ≤ p.curThNum then (false, p)
  else
    match create with
    | some id => (true, p.growSlot.spawn p.curThNum id)
    | none => (false, p.growSlot.note (.release (.memory p.curThNum)))

/-- `th_work` and `th_job` of a slot are set, and its worker is woken. -/
def Pool.give (p : Pool w ω δ) (i : Int) (worker : ω) (job : δ) : Pool w ω δ :=
  p.setInfo i fun x => { x with thWork := worker, thJob := job, hasJob := true }

/-- `tp_process_job`: the slot that the job is given to, if there is one, and the pool. -/
def tpProcessJob (p : Pool w ω δ) (worker : ω) (job : δ) (create : Option (BitVec w)) :
    Option Int × Pool w ω δ :=
  match p.firstIdle with
  | some i => (some i, (p.setInfo i fun x => { x with isBusy := true }).give i worker job)
  | none =>
    match tpAddThread p create with
    | (true, p) => (some (p.curThNum - 1), p.give (p.curThNum - 1) worker job)
    | (false, p) => (none, p)

/-- The worker of a slot has done its job. -/
def Pool.jobDone (p : Pool w ω δ) (i : Int) : Pool w ω δ :=
  p.setInfo i fun x => { x with isBusy := false, hasJob := false }

/-- The thread that `thread_id` of a slot names. -/
def Info.target (x : Info w ω δ) : Resource :=
  match x.thread with
  | some n => .thread n
  | none => .stranger

/-- The kill of a slot's thread, and the end of its mutex and its condition variable. -/
def Pool.takeDown (p : Pool w ω δ) (i : Int) : List Resource :=
  [(p.threadInfo i).target, .lock i, .cond i]

/-- `tp_delete_thread`. -/
def tpDeleteThread (p : Pool w ω δ) : Bool × Pool w ω δ :=
  if p.curThNum ≤ p.minThNum then (false, p)
  else if (p.threadInfo (p.curThNum - 1)).isBusy then (false, p)
  else
    (true, { p with
      log := p.log ++ (p.takeDown (p.curThNum - 1)).map .release, curThNum := p.curThNum - 1 })

/-- The loop of `tp_get_tp_status` from slot `i` on, with `b` busy slots counted and `k` rounds to
go. -/
def countBusy (info : Int → Info w ω δ) (i : Int) (b : Nat) : Nat → Nat
  | 0 => b
  | k + 1 => countBusy info (i + 1) (if (info i).isBusy then b + 1 else b) k

/-- `tp_get_tp_status`. -/
def tpGetTpStatus (p : Pool w ω δ) : Int :=
  if isIdleStatus (countBusy p.threadInfo 0 0 p.curThNum.toNat) p.curThNum then 0 else 1

/-- The inner loop of `tp_manage_thread`, with at most `k` rounds that delete. -/
def deleteLoop (p : Pool w ω δ) : Nat → Pool w ω δ
  | 0 => p
  | k + 1 =>
    match tpDeleteThread p with
    | (true, p) => deleteLoop p k
    | (false, p) => p

/-- A pass of `tp_manage_thread`: the inner loop ends when `min_th_num` is reached, or before. -/
def managePass (p : Pool w ω δ) : Pool w ω δ :=
  if tpGetTpStatus p = 0 then deleteLoop p (p.curThNum - p.minThNum).toNat else p

/-- The loop of `tp_close` from slot `i` on, with `k` rounds to go: what is killed and destroyed. -/
def closeFrom (p : Pool w ω δ) (i : Int) : Nat → List Resource
  | 0 => []
  | k + 1 => p.takeDown i ++ closeFrom p (i + 1) k

/-- The thread that `manage_thread_id` names. -/
def Pool.managerTarget (p : Pool w ω δ) : Resource :=
  match p.manageThreadId with
  | some _ => .manager
  | none => .stranger

/-- `tp_close`: what is killed, destroyed and freed, in order. -/
def tpClose (p : Pool w ω δ) : List Resource :=
  closeFrom p 0 p.curThNum.toNat ++ [p.managerTarget, .tpLock, .memory 0]

/-- A call, or the end of a job. -/
inductive Call (w : Nat) (ω δ : Type)
  | processJob (worker : ω) (job : δ) (create : Option (BitVec w))
  | jobDone (i : Int)
  | managePass

/-- One call after the other; only a job that has been given can be done. -/
def callStep (p : Pool w ω δ) : Call w ω δ → Option (Pool w ω δ)
  | .processJob worker job create => some (tpProcessJob p worker job create).2
  | .jobDone i => if (p.threadInfo i).hasJob then some (p.jobDone i) else none
  | .managePass => some (ThreadPool.managePass p)

/-- The pool from `tp_init` on, whatever it returned. -/
def callMachine (w : Nat) (ω δ : Type) (minNum maxNum : Int) :
    Machine (Pool w ω δ) (Call w ω δ) where
  init p := ∃ raw ans manager, p = (tpInit ans manager (creatThreadPool minNum maxNum raw)).2
  step := callStep

section
variable {p : Pool w ω δ} {worker : ω} {job : δ} {create : Option (BitVec w)}

theorem setInfo_apply (p : Pool w ω δ) (i : Int) (f : Info w ω δ → Info w ω δ) (k : Int) :
    (p.setInfo i f).threadInfo k = if k = i then f (p.threadInfo k) else p.threadInfo k := by
  show Function.update p.threadInfo i (f (p.threadInfo i)) k = _
  rcases eq_or_ne k i with rfl | hne
  · rw [Function.update_self, if_pos rfl]
  · rw [Function.update_of_ne hne, if_neg hne]

theorem growSlot_apply (p : Pool w ω δ) (k : Int) : p.growSlot.threadInfo k =
    if k = p.curThNum then { p.threadInfo k with isBusy := true } else p.threadInfo k :=
  setInfo_apply (p.initSlot p.curThNum) p.curThNum (fun x => { x with isBusy := true }) k

theorem spawn_apply (p : Pool w ω δ) (i : Int) (id : BitVec w) (k : Int) :
    (p.spawn i id).threadInfo k =
      if k = i then { p.threadInfo k with threadId := id, thread := some p.created }
      else p.threadInfo k :=
  setInfo_apply p i (fun x => { x with threadId := id, thread := some p.created }) k

/-- What is held when a slot has been set up. -/
theorem mem_held_initSlot {i : Int} {r : Resource} :
    r ∈ held (p.initSlot i).log ↔ r = .lock i ∨ r = .cond i ∨ r ∈ held p.log := by
  show r ∈ held ((p.log ++ [.acquire (.cond i)]) ++ [.acquire (.lock i)]) ↔ _
  rw [held_snoc, held_snoc, Event.heldAfter, Event.heldAfter, Finset.mem_insert, Finset.mem_insert]

/-- What is held when a worker has been made. -/
theorem mem_held_spawn {i : Int} {id : BitVec w} {r : Resource} :
    r ∈ held (p.spawn i id).log ↔ r = .thread p.created ∨ r ∈ held p.log := by
  show r ∈ held (p.log ++ [.acquire (.thread p.created)]) ↔ _
  rw [held_snoc, Event.heldAfter, Finset.mem_insert]

/-- What is held when a slot has been given to `free`. -/
theorem mem_held_freed {i : Int} {r : Resource} :
    r ∈ held (p.note (.release (.memory i))).log ↔ r ≠ .memory i ∧ r ∈ held p.log := by
  show r ∈ held (p.log ++ [.release (.memory i)]) ↔ _
  rw [held_snoc, Event.heldAfter, Finset.mem_erase]

/-- A job for an idle slot. -/
theorem tpProcessJob_idle {i : Int} (h : p.firstIdle = some i) :
    tpProcessJob p worker job create =
      (some i, (p.setInfo i fun x => { x with isBusy := true }).give i worker job) := by
  rw [tpProcessJob, h]

/-- A job for a new slot. -/
theorem tpProcessJob_grown (h : p.firstIdle = none) (hmax : p.curThNum < p.maxThNum)
    {id : BitVec w} : tpProcessJob p worker job (some id) =
      (some p.curThNum, (p.growSlot.spawn p.curThNum id).give p.curThNum worker job) := by
  have hnot : ¬ p.maxThNum ≤ p.curThNum := Int.not_le.2 hmax
  have hlast : (p.growSlot.spawn p.curThNum id).curThNum - 1 = p.curThNum :=
    Int.add_sub_cancel p.curThNum 1
  rw [tpProcessJob, h, tpAddThread, if_neg hnot]
  simp only [hlast]

/-- A job for a new slot that has no thread. -/
theorem tpProcessJob_failed (h : p.firstIdle = none) (hmax : p.curThNum < p.maxThNum) :
    tpProcessJob p worker job none =
      (none, p.growSlot.note (.release (.memory p.curThNum))) := by
  have hnot : ¬ p.maxThNum ≤ p.curThNum := Int.not_le.2 hmax
  rw [tpProcessJob, h, tpAddThread, if_neg hnot]

/-- A job that is dropped. -/
theorem tpProcessJob_full (h : p.firstIdle = none) (hmax : p.maxThNum ≤ p.curThNum) :
    tpProcessJob p worker job create = (none, p) := by
  have hadd : tpAddThread p create = (false, p) := if_pos hmax
  rw [tpProcessJob, h, hadd]

end

/-- A block of `thread_info` that is zero. -/
def zeroInfo (_ : Int) : Info 64 Nat Nat where
  threadId := 0
  isBusy := false
  thWork := 0
  thJob := 0
  thread := none
  hasJob := false

end LinuxTraining.ThreadPool
