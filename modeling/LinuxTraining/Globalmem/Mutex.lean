import LinuxTraining.Globalmem.Vfs
import LinuxTraining.Lib.Linearize
import Mathlib.Data.List.Permutation

/-!
# `ch7/globalmem.c`: globalmem with a mutex, as a machine

Any number of processes call `globalmem_read`, `globalmem_write` and `globalmem_ioctl` on one
device. A label moves one process by one step: the range check, `mutex_lock`, one byte of a copy,
`mutex_unlock`, the return. `globalmem_write` and `MEM_CLEAR` lock the mutex before they touch
`mem` and unlock it after; `globalmem_read` goes from its range check straight to the copy, and
only unlocks. The mutex is a flag that `mutex_unlock` clears whoever calls it.
`linearized_of_readsApart` are the runs in which no read overlaps a critical section, and
`tornRead_not_linearized` is one in which a read returns half of a write.
-/

namespace LinuxTraining.Globalmem.Ch7

open Lib

/-- `GLOBALMEM_SIZE`. -/
def GLOBALMEM_SIZE : Nat := 0x1000

/-- A call and its arguments. -/
inductive Call
  | read (size : Nat) (ppos : Int)
  | write (buf : Mem Byte) (size : Nat) (ppos : Int)
  | ioctl (cmd : Nat)

/-- What a call gives back: its return value, the bytes it delivers, and `*ppos`. -/
structure Result where
  ret : Int
  data : List Byte
  ppos : Int
  deriving DecidableEq

/-- Where a process is. In `copy i`, `i` bytes have been moved. -/
inductive Pc
  | idle
  | check
  | lock
  | copy (i : Nat)
  | unlock
  | ret
  deriving DecidableEq

/-- A process: its call, its program point, and the result so far. -/
structure Proc where
  call : Call
  pc : Pc
  res : Result

/-- The device and the processes. -/
structure State where
  mem : Mem Byte
  locked : Bool
  proc : Nat → Proc

/-- One step of the schedule: a process starts a call, or takes its next step; `fault` says
whether a user copy stops at this byte, and what `copy_from_user` then leaves in the place of those
that it does not move. -/
inductive Act
  | call (p : Nat) (c : Call)
  | step (p : Nat) (fault : Option (Mem Byte))

section
variable (W : LongWidth)

/-- `*ppos`, where the call has one. -/
def Call.ppos : Call → Int
  | .read _ ppos | .write _ _ ppos => ppos
  | .ioctl _ => 0

/-- `p`, the address in `mem` at which the call copies. -/
def Call.pos : Call → Nat
  | .read _ ppos | .write _ _ ppos => toUnsigned W.bits ppos
  | .ioctl _ => 0

/-- `count` after the clamp: the number of bytes the call copies. -/
def Call.count : Call → Nat
  | .read size ppos | .write _ size ppos =>
    let p := toUnsigned W.bits ppos
    let count := size % 2 ^ 32
    if usub W.bits GLOBALMEM_SIZE p < count then usub W.bits GLOBALMEM_SIZE p % 2 ^ 32 else count
  | .ioctl _ => GLOBALMEM_SIZE

/-- The bytes the call stores: those of the user's buffer, or zeros. -/
def Call.bytes : Call → List Byte
  | .write buf size ppos => buf.slice 0 ((Call.write buf size ppos).count W)
  | .ioctl _ => List.replicate GLOBALMEM_SIZE 0
  | .read _ _ => []

/-- The step from the range check, or from the `switch` of the `ioctl`: `globalmem_read` does not
lock. -/
def Call.check (c : Call) : Pc × Result :=
  match c with
  | .read _ ppos =>
    if GLOBALMEM_SIZE ≤ c.pos W then (.ret, ⟨0, [], ppos⟩) else (.copy 0, ⟨0, [], ppos⟩)
  | .write _ _ ppos =>
    if GLOBALMEM_SIZE ≤ c.pos W then (.ret, ⟨0, [], ppos⟩) else (.lock, ⟨0, [], ppos⟩)
  | .ioctl cmd => if cmd = MEM_CLEAR then (.lock, ⟨0, [], 0⟩) else (.ret, ⟨-EINVAL, [], 0⟩)

/-- The return value of a call whose copy is complete. -/
def Call.success (data : List Byte) (c : Call) : Result :=
  match c with
  | .read _ ppos | .write _ _ ppos =>
    ⟨toSigned 32 (c.count W), data, toSigned 64 (ppos + c.count W)⟩
  | .ioctl _ => ⟨0, [], 0⟩

/-- Whether the copy of the call is a user copy, which may fault. -/
def Call.userCopy : Call → Bool
  | .ioctl _ => false
  | _ => true

/-- The fault of a copy, if it is a user copy. -/
def Call.stops (c : Call) (fault : Option (Mem Byte)) : Option (Mem Byte) :=
  if c.userCopy then fault else none

@[simp] theorem Call.stops_none (c : Call) : c.stops none = none := ite_self none

/-- A copy that stops is a user copy. -/
theorem Call.userCopy_of_stops {c : Call} {fault : Option (Mem Byte)} {tail : Mem Byte}
    (h : c.stops fault = some tail) : c.userCopy = true := by
  by_contra hu
  rw [Call.stops, if_neg hu] at h
  cases h

/-- The memory where a user copy has stopped before byte `i`: `copy_from_user` overwrites the bytes
from there on. -/
def Call.stopped (c : Call) (i : Nat) (tail mem : Mem Byte) : Mem Byte :=
  match c with
  | .write _ _ _ => mem.store (c.pos W + i) (tail.slice i (c.count W - i))
  | .read _ _ | .ioctl _ => mem

/-- One byte of a copy: the memory, and the bytes delivered. -/
def Call.move (c : Call) (i : Nat) (mem : Mem Byte) (data : List Byte) : Mem Byte × List Byte :=
  match c with
  | .read _ _ => (mem, data ++ [mem (c.pos W + i)])
  | .write _ _ _ | .ioctl _ => (mem.store (c.pos W + i) [(c.bytes W).getD i 0], data)

/-- One process replaced. -/
def State.setProc (s : State) (p : Nat) (x : Proc) : State :=
  { s with proc := Function.update s.proc p x }

/-- A step of process `p`. -/
def procStep (s : State) (p : Nat) (fault : Option (Mem Byte)) : Option State :=
  let x := s.proc p
  match x.pc with
  | .idle => none
  | .check => some (s.setProc p { x with pc := (x.call.check W).1, res := (x.call.check W).2 })
  | .lock =>
    if s.locked then none else some { s.setProc p { x with pc := .copy 0 } with locked := true }
  | .copy i =>
    if i < x.call.count W then
      match x.call.stops fault with
      | some tail =>
        some { s.setProc p { x with pc := .unlock, res := { x.res with ret := -EFAULT } } with
          mem := x.call.stopped W i tail s.mem }
      | none =>
        let m := x.call.move W i s.mem x.res.data
        some { s.setProc p { x with pc := .copy (i + 1), res := { x.res with data := m.2 } } with
          mem := m.1 }
    else some (s.setProc p { x with pc := .unlock, res := x.call.success W x.res.data })
  | .unlock => some { s.setProc p { x with pc := .ret } with locked := false }
  | .ret => some (s.setProc p { x with pc := .idle })

/-- One step of the schedule. -/
def step (s : State) : Act → Option State
  | .call p c =>
    match (s.proc p).pc with
    | .idle => some (s.setProc p ⟨c, .check, ⟨0, [], c.ppos⟩⟩)
    | _ => none
  | .step p fault => procStep W s p fault

/-- The device at rest, and its callers. -/
def State.init : State := ⟨fun _ => 0, false, fun _ => ⟨.ioctl 0, .idle, ⟨0, [], 0⟩⟩⟩

/-- The driver and the processes that call it. -/
def machine : Machine State Act where
  init s := s = .init
  step := step W

end

/-- What the callers see: a call starts at its label and returns, with its result, at its last
step. -/
def observe (s : State) : Act → Option (CallEvent Nat Call Result)
  | .call p c => some (.call p c)
  | .step p _ => if (s.proc p).pc = .ret then some (.ret p (s.proc p).res) else none

/-- `globalmem_read` run alone, without its lock operations. -/
def globalmemRead (W : LongWidth) := memRead W GLOBALMEM_SIZE

/-- `globalmem_write` run alone. -/
def globalmemWrite (W : LongWidth) := memWrite W GLOBALMEM_SIZE

/-- `globalmem_ioctl` run alone. -/
def globalmemIoctl := memIoctl GLOBALMEM_SIZE

/-- `globalmem_llseek`, which takes no lock. -/
def globalmemLlseek := memLlseek GLOBALMEM_SIZE

/-- `globalmem_fops`, of calls that run alone. -/
def globalmemFops (W : LongWidth) : FileOperations where
  llseek := globalmemLlseek
  read := globalmemRead W
  write := globalmemWrite W
  unlockedIoctl := globalmemIoctl

/-- The result of a call that ran alone. -/
def ofRead (r : ReadResult) : Result := ⟨r.ret, r.data, r.ppos⟩

@[inherit_doc ofRead]
def ofWrite (r : WriteResult) : Result := ⟨r.ret, [], r.ppos⟩

/-- What a call does when it runs alone, with its user copy stopped at any byte. -/
inductive SeqStep (W : LongWidth) (m : Mem Byte) : Call → Result → Mem Byte → Prop
  | read (size : Nat) (ppos : Int) (limit : Option Fault) :
      SeqStep W m (.read size ppos) (ofRead (globalmemRead W m size ppos limit)) m
  | write (buf : Mem Byte) (size : Nat) (ppos : Int) (limit : Option Fault) :
      SeqStep W m (.write buf size ppos) (ofWrite (globalmemWrite W m buf size ppos limit))
        (globalmemWrite W m buf size ppos limit).mem
  | ioctl (cmd : Nat) :
      SeqStep W m (.ioctl cmd) ⟨(globalmemIoctl m cmd).1, [], 0⟩ (globalmemIoctl m cmd).2

/-- The device as a sequential object. -/
def device (W : LongWidth) : Obj (Mem Byte) Call Result where
  init _ := 0
  step := SeqStep W

/-- The call of a process as its callers see it: it takes effect at the last step of its copy, or
at the check that refuses it. -/
def Proc.phase (x : Proc) : Phase Call Result :=
  match x.pc with
  | .idle => .idle
  | .check | .lock | .copy _ => .pending x.call
  | .unlock | .ret => .done x.call x.res

/-- The processes are all outside the driver. -/
def Quiet (s : State) : Prop := ∀ p, (s.proc p).pc = .idle

/-- Some sequential order of the calls of a run gives each of them its result, and ends with the
memory the run ends with. -/
def Explained (W : LongWidth) (as : List Act) (s : State) : Prop :=
  ∃ order : List (Nat × Call × Result),
    order.Perm (completed ((machine W).events observe .init as)) ∧
      (device W).Legal (device W).init order s.mem

/-! ## Calls run alone

A call that gets past its check leaves the memory with a prefix of its bytes stored, or delivers a
prefix of what it reads: all of it, or as much as the copy moved before it stopped.
-/

section
variable {W : LongWidth} {m : Mem Byte}

/-- Whether the call reads, and so takes no lock. -/
def Call.Reads : Call → Prop
  | .read _ _ => True
  | .write _ _ _ | .ioctl _ => False

/-- The call gets past its check. -/
def Call.Goes (W : LongWidth) : Call → Prop
  | .ioctl cmd => cmd = MEM_CLEAR
  | c => c.pos W < GLOBALMEM_SIZE

/-- What a call has delivered when `i` of its bytes have moved. -/
def Call.delivered (W : LongWidth) (m : Mem Byte) (i : Nat) : Call → List Byte
  | .read size ppos => m.slice ((Call.read size ppos).pos W) i
  | .write _ _ _ | .ioctl _ => []

/-- What a call has made of the memory when `i` of its bytes have moved. -/
def Call.stored (W : LongWidth) (m : Mem Byte) (i : Nat) : Call → Mem Byte
  | .read _ _ => m
  | c => m.store (c.pos W) ((c.bytes W).take i)

/-- Nothing is stored before the first byte. -/
theorem Call.stored_zero (c : Call) : c.stored W m 0 = m := by
  cases c with
  | read => rfl
  | write => rw [Call.stored, List.take_zero, Mem.store_nil]; nofun
  | ioctl => rw [Call.stored, List.take_zero, Mem.store_nil]; nofun

/-- A call that reads stores nothing. -/
theorem Call.stored_of_reads {c : Call} (h : c.Reads) (i : Nat) : c.stored W m i = m := by
  cases c with
  | read => rfl
  | write => exact absurd h id
  | ioctl => exact absurd h id

/-- A call has as many bytes to store as it counts. -/
theorem Call.length_bytes {c : Call} (h : ¬ c.Reads) : (c.bytes W).length = c.count W := by
  cases c with
  | read => exact absurd trivial h
  | write buf size ppos => exact Mem.length_slice ..
  | ioctl cmd => exact List.length_replicate

/-- One byte of a copy: what is stored and what is delivered grow by it. -/
theorem Call.move_stored {c : Call} {i : Nat} (hi : i < c.count W) :
    c.move W i (c.stored W m i) (c.delivered W m i) =
      (c.stored W m (i + 1), c.delivered W m (i + 1)) := by
  have hstore : ¬ c.Reads → (m.store (c.pos W) ((c.bytes W).take i)).store (c.pos W + i)
      [(c.bytes W).getD i 0] = m.store (c.pos W) ((c.bytes W).take (i + 1)) := by
    intro hr
    have hlt : i < (c.bytes W).length := by rwa [Call.length_bytes hr]
    rw [Mem.store_take_succ m _ hlt, List.getD_eq_getElem _ _ hlt]
  cases c with
  | read size ppos =>
    rw [Call.move, Call.stored, Call.stored, Call.delivered, Call.delivered, Mem.slice_succ]
  | write buf size ppos => exact Prod.ext (hstore id) rfl
  | ioctl cmd => exact Prod.ext (hstore id) rfl

/-- A call that its check refuses returns there, as it does when it runs alone. -/
theorem Call.check_of_not_goes {c : Call} (h : ¬ c.Goes W) :
    (c.check W).1 = .ret ∧ SeqStep W m c (c.check W).2 m := by
  cases c with
  | read size ppos =>
    have hge : GLOBALMEM_SIZE ≤ (Call.read size ppos).pos W := Nat.not_lt.1 h
    have hs : SeqStep W m _ _ _ := .read size ppos none
    rw [globalmemRead, memRead_of_ge hge] at hs
    rw [Call.check, if_pos hge]
    exact ⟨rfl, hs⟩
  | write buf size ppos =>
    have hge : GLOBALMEM_SIZE ≤ (Call.write buf size ppos).pos W := Nat.not_lt.1 h
    have hs : SeqStep W m _ _ _ := .write buf size ppos none
    rw [globalmemWrite, memWrite_of_ge hge] at hs
    rw [Call.check, if_pos hge]
    exact ⟨rfl, hs⟩
  | ioctl cmd =>
    have hne : cmd ≠ MEM_CLEAR := h
    have hs : SeqStep W m _ _ _ := .ioctl cmd
    rw [globalmemIoctl, memIoctl, if_neg hne] at hs
    rw [Call.check, if_neg hne]
    exact ⟨rfl, hs⟩

/-- A call whose user copy stops before its last byte does what it does alone with that limit. -/
theorem Call.seqStep_fault {c : Call} {i : Nat} (tail : Mem Byte) (hgo : c.Goes W)
    (hu : c.userCopy = true) (hi : i < c.count W) :
    SeqStep W m c ⟨-EFAULT, c.delivered W m i, c.ppos⟩ (c.stopped W i tail (c.stored W m i)) := by
  have hlimit : copied (some ⟨i, tail⟩) (c.count W) = i := copied_some_of_lt hi
  cases c with
  | read size ppos =>
    have hr : globalmemRead W m size ppos (some ⟨i, tail⟩) = ⟨-EFAULT, _, ppos⟩ :=
      (@memRead_of_lt W _ m size ((Call.read size ppos).count W) _ _ (Nat.not_le.2 hgo) rfl).trans
        (if_pos (by rw [hlimit]; omega))
    have hs : SeqStep W m _ _ _ := .read size ppos (some ⟨i, tail⟩)
    rw [hr, hlimit] at hs
    exact hs
  | write buf size ppos =>
    have hr : globalmemWrite W m buf size ppos (some ⟨i, tail⟩) = ⟨-EFAULT, _, ppos⟩ :=
      (@memWrite_of_lt W _ m buf size ((Call.write buf size ppos).count W) _ _
        (Nat.not_le.2 hgo) rfl).trans
        (if_pos (by rw [hlimit]; omega))
    have hs : SeqStep W m _ _ _ := .write buf size ppos (some ⟨i, tail⟩)
    rw [hr, leftover, hlimit, Mem.store_append, Mem.length_slice] at hs
    rw [Call.stopped, Call.stored, Call.bytes, Mem.take_slice _ _ (Nat.le_of_lt hi)]
    · exact hs
    · simp
  | ioctl cmd => cases hu

/-- A call whose copy is complete does what it does alone. -/
theorem Call.seqStep_success {c : Call} (hgo : c.Goes W) :
    SeqStep W m c (c.success W (c.delivered W m (c.count W))) (c.stored W m (c.count W)) := by
  have hlimit : copied none (c.count W) = c.count W := copied_none _
  cases c with
  | read size ppos =>
    have hr : globalmemRead W m size ppos none = ⟨_, _, _⟩ :=
      (@memRead_of_lt W _ m size ((Call.read size ppos).count W) _ _ (Nat.not_le.2 hgo) rfl).trans
        (if_neg (by rw [hlimit]; omega))
    have hs : SeqStep W m _ _ _ := .read size ppos none
    rw [hr, hlimit] at hs
    dsimp only [ofRead] at hs
    exact hs
  | write buf size ppos =>
    have hr : globalmemWrite W m buf size ppos none = ⟨_, _, _⟩ :=
      (@memWrite_of_lt W _ m buf size ((Call.write buf size ppos).count W) _ _
        (Nat.not_le.2 hgo) rfl).trans
        (if_neg (by rw [hlimit]; omega))
    have hs : SeqStep W m _ _ _ := .write buf size ppos none
    rw [hr] at hs
    dsimp only [ofWrite] at hs
    rw [Call.stored, Call.bytes, Mem.take_slice _ _ (Nat.le_refl _)]
    · exact hs
    · simp
  | ioctl cmd =>
    have hs : SeqStep W m _ _ _ := .ioctl cmd
    rw [globalmemIoctl, memIoctl, if_pos (show cmd = MEM_CLEAR from hgo)] at hs
    rw [Call.stored, Call.bytes, List.take_of_length_le (by simp [Call.count])]
    · exact hs
    · simp

/-- A call that gets past its check goes on to lock, or, when it reads, to copy. -/
theorem Call.check_of_goes {c : Call} (h : c.Goes W) :
    (c.check W).2 = ⟨0, [], c.ppos⟩ ∧
      (c.Reads ∧ (c.check W).1 = .copy 0 ∨ ¬ c.Reads ∧ (c.check W).1 = .lock) := by
  cases c with
  | read size ppos =>
    rw [Call.check, if_neg (Nat.not_le.2 h)]
    exact ⟨rfl, .inl ⟨trivial, rfl⟩⟩
  | write buf size ppos =>
    rw [Call.check, if_neg (Nat.not_le.2 h)]
    exact ⟨rfl, .inr ⟨id, rfl⟩⟩
  | ioctl cmd =>
    rw [Call.check, if_pos (show cmd = MEM_CLEAR from h)]
    exact ⟨rfl, .inr ⟨id, rfl⟩⟩

end

/-! ## Runs in which the reads keep apart from the critical sections

A process that holds the mutex is between `mutex_lock` and `mutex_unlock` of a write or a clear. As
long as no read is between its check and its unlock meanwhile, the memory is the sequential one
with the holder's bytes stored so far, and each call takes effect at the end of its copy.
-/

section
variable {W : LongWidth} {m : Mem Byte} {s s' : State}

/-- The program points from the first byte of the copy to `mutex_unlock`. -/
def Pc.Inside : Pc → Prop
  | .copy _ | .unlock => True
  | .idle | .check | .lock | .ret => False

/-- The process is copying or about to unlock in `globalmem_read`. -/
def Proc.Reads (x : Proc) : Prop := x.call.Reads ∧ x.pc.Inside

/-- The process holds the mutex. -/
def Proc.Holds (x : Proc) : Prop := ¬ x.call.Reads ∧ x.pc.Inside

/-- The condition on a step: a read that passes its check finds no process that holds the mutex,
and a process that locks finds none between the check and the unlock of a read. -/
def ReadsApart (W : LongWidth) (s : State) : Act → Prop
  | .call _ _ => True
  | .step p _ =>
    match (s.proc p).pc with
    | .check => (s.proc p).call.Reads → (s.proc p).call.Goes W → ∀ q, ¬ (s.proc q).Holds
    | .lock => ∀ q, ¬ (s.proc q).Reads
    | _ => True

/-- What is known of a process inside its call: it passed its check, and it has moved `i` bytes of
the sequential memory `m`. -/
def Proc.Sound (W : LongWidth) (m : Mem Byte) (x : Proc) : Prop :=
  match x.pc with
  | .lock => ¬ x.call.Reads ∧ x.call.Goes W ∧ x.res = ⟨0, [], x.call.ppos⟩
  | .copy i => x.call.Goes W ∧ i ≤ x.call.count W ∧
      x.res = ⟨0, x.call.delivered W m i, x.call.ppos⟩
  | _ => True

/-- What the holder of the mutex has made of the sequential memory. -/
def Proc.dirty (W : LongWidth) (m : Mem Byte) (x : Proc) : Mem Byte :=
  match x.pc with
  | .copy i => x.call.stored W m i
  | _ => m

/-- The state `s` stands for the sequential memory `m`. -/
structure Sim (W : LongWidth) (s : State) (m : Mem Byte) : Prop where
  sound : ∀ p, (s.proc p).Sound W m
  apart : ∀ p q, (s.proc p).Holds → ¬ (s.proc q).Reads
  alone : ∀ p q, (s.proc p).Holds → (s.proc q).Holds → p = q
  locked : ∀ p, (s.proc p).Holds → s.locked = true
  dirty : ∀ p, (s.proc p).Holds → s.mem = (s.proc p).dirty W m
  clean : (∀ p, ¬ (s.proc p).Holds) → s.mem = m

/-- A call that does not read delivers nothing, so what is known of it says nothing of the
memory. -/
theorem Proc.Sound.of_not_reads {x : Proc} {m' : Mem Byte} (h : x.Sound W m) (hr : ¬ x.Reads) :
    x.Sound W m' := by
  obtain ⟨c, pc, r⟩ := x
  cases pc with
  | copy i =>
    cases c with
    | read size ppos => exact absurd ⟨trivial, trivial⟩ hr
    | write buf size ppos => exact h
    | ioctl cmd => exact h
  | idle => trivial
  | check => trivial
  | lock => exact h
  | unlock => trivial
  | ret => trivial

@[simp] theorem State.setProc_proc_self (s : State) (p : Nat) (x : Proc) :
    (s.setProc p x).proc p = x := Function.update_self ..

theorem State.setProc_proc_of_ne (s : State) {p q : Nat} (x : Proc) (h : q ≠ p) :
    (s.setProc p x).proc q = s.proc q := Function.update_of_ne h ..

/-- The phases after one process moved. -/
theorem phase_setProc (s : State) (p : Nat) (x : Proc) :
    (fun q => ((s.setProc p x).proc q).phase) =
      Function.update (fun q => (s.proc q).phase) p x.phase :=
  Function.comp_update Proc.phase s.proc p x

/-- What holds of the changed process and of the others before holds of all after. -/
theorem State.forall_setProc (s : State) {p : Nat} {x : Proc} {P : Nat → Proc → Prop} (hp : P p x)
    (hall : ∀ q, q ≠ p → P q (s.proc q)) : ∀ q, P q ((s.setProc p x).proc q) :=
  (Function.forall_update_iff s.proc P).2 ⟨hp, hall⟩

/-- A process that does not hold the mutex moves, and does not come to hold it: it may begin to
read, or clear the flag, when nobody holds it. -/
theorem Sim.outside (h : Sim W s m) {p : Nat} {x : Proc} {l : Bool} (hx : x.Sound W m)
    (hp : ¬ (s.proc p).Holds) (hxh : ¬ x.Holds) (hxr : x.Reads → ∀ q, ¬ (s.proc q).Holds)
    (hl : l = s.locked ∨ ∀ q, ¬ (s.proc q).Holds) :
    Sim W { s.setProc p x with locked := l } m := by
  have hholds : ∀ q, ((s.setProc p x).proc q).Holds →
      (s.proc q).Holds ∧ (s.setProc p x).proc q = s.proc q :=
    s.forall_setProc (P := fun q y => y.Holds → (s.proc q).Holds ∧ y = s.proc q)
      (fun hq => absurd hq hxh) fun _ _ hq => ⟨hq, rfl⟩
  refine ⟨?_, fun q r hq => ?_, fun q r hq hr => ?_, fun q hq => ?_, fun q hq => ?_,
    fun hn => ?_⟩
  · exact s.forall_setProc (P := fun _ y => y.Sound W m) hx fun q _ => h.sound q
  · have hq' : (s.proc q).Holds := (hholds q hq).1
    exact s.forall_setProc (P := fun _ y => ¬ y.Reads) (fun hr => hxr hr q hq')
      (fun r _ => h.apart q r hq') r
  · exact h.alone q r (hholds q hq).1 (hholds r hr).1
  · have hq' : (s.proc q).Holds := (hholds q hq).1
    rcases hl with rfl | hl
    · exact h.locked q hq'
    · exact absurd hq' (hl q)
  · obtain ⟨hq', he⟩ := hholds q hq
    change s.mem = ((s.setProc p x).proc q).dirty W m
    rw [he]
    exact h.dirty q hq'
  · refine h.clean fun q hq => ?_
    have hne : q ≠ p := fun he => hp (he ▸ hq)
    refine hn q ?_
    change ((s.setProc p x).proc q).Holds
    rwa [State.setProc_proc_of_ne s x hne]

/-- The holder of the mutex moves, or a process becomes it, when no other process holds it or is
reading: it alone says what the memory stands for. -/
theorem Sim.inside (h : Sim W s m) {p : Nat} {x : Proc} {mem m' : Mem Byte} (hx : x.Sound W m')
    (hxh : x.Holds) (hq : ∀ q, q ≠ p → ¬ (s.proc q).Holds) (hr : ∀ q, ¬ (s.proc q).Reads)
    (hmem : mem = x.dirty W m') :
    Sim W { s.setProc p x with mem := mem, locked := true } m' := by
  have hself : ∀ q, ((s.setProc p x).proc q).Holds → q = p := by
    intro q hh
    by_contra hne
    rw [State.setProc_proc_of_ne s x hne] at hh
    exact hq q hne hh
  refine ⟨?_, fun q r _ => ?_, fun q r hh hh' => ?_, fun q _ => rfl, fun q hh => ?_,
    fun hn => ?_⟩
  · exact s.forall_setProc (P := fun _ y => y.Sound W m') hx
      fun q _ => (h.sound q).of_not_reads (hr q)
  · exact s.forall_setProc (P := fun _ y => ¬ y.Reads) (fun hr => hxh.1 hr.1) (fun r _ => hr r) r
  · rw [hself q hh, hself r hh']
  · have he : q = p := hself q hh
    subst he
    change mem = ((s.setProc q x).proc q).dirty W m'
    rwa [State.setProc_proc_self]
  · refine absurd ?_ (hn p)
    change ((s.setProc p x).proc p).Holds
    rwa [State.setProc_proc_self]

/-- The holder of the mutex leaves its critical section. -/
theorem Sim.leave (h : Sim W s m) {p : Nat} {x : Proc} {l : Bool} (hx : x.Sound W m)
    (hp : (s.proc p).Holds) (hxi : ¬ x.pc.Inside) (hmem : s.mem = m) :
    Sim W { s.setProc p x with locked := l } m := by
  have hnone : ∀ q, ¬ ((s.setProc p x).proc q).Holds :=
    s.forall_setProc (P := fun _ y => ¬ y.Holds) (fun hh => hxi hh.2)
      fun q hne hh => hne (h.alone q p hh hp)
  refine ⟨?_, fun q _ hh => absurd hh (hnone q), fun q _ hh => absurd hh (hnone q),
    fun q hh => absurd hh (hnone q), fun q hh => absurd hh (hnone q), fun _ => hmem⟩
  exact s.forall_setProc (P := fun _ y => y.Sound W m) hx fun q _ => h.sound q

/-- A read that is copying sees the sequential memory. -/
theorem Sim.mem_of_reads (h : Sim W s m) {p : Nat} (hp : (s.proc p).Reads) : s.mem = m :=
  h.clean fun q hq => h.apart q p hq hp

/-- The state `s'` stands for a sequential memory that one move of the sequential device, seen by
the callers as `e`, makes of `m`. -/
def Advances (W : LongWidth) (s : State) (m : Mem Byte) (e : Option (CallEvent Nat Call Result))
    (s' : State) : Prop :=
  ∃ m', Sim W s' m' ∧
    (device W).Move m (fun p => (s.proc p).phase) e m' (fun p => (s'.proc p).phase)

/-- A step that the callers do not see and that leaves the phase of its process. -/
theorem Advances.silent {m' : Mem Byte} {p : Nat} {x : Proc} (hs : s'.proc = (s.setProc p x).proc)
    (hph : x.phase = (s.proc p).phase) (hm : m' = m) (h : Sim W s' m') :
    Advances W s m none s' := by
  subst hm
  refine ⟨m', h, ?_⟩
  rw [hs, phase_setProc, hph, Function.update_eq_self]
  exact .silent

/-- A step at which the call of its process takes effect. -/
theorem Advances.apply {m' : Mem Byte} {p : Nat} {c : Call} {r : Result} {x : Proc}
    (hs : s'.proc = (s.setProc p x).proc) (hp : (s.proc p).phase = .pending c)
    (hx : x.phase = .done c r) (hstep : SeqStep W m c r m') (h : Sim W s' m') :
    Advances W s m none s' := by
  refine ⟨m', h, ?_⟩
  rw [hs, phase_setProc, hx]
  exact .apply p c r m' hp hstep

/-- The range check: a refused call takes effect there. -/
theorem Sim.check (h : Sim W s m) {p : Nat} {c : Call} {r : Result} (hx : s.proc p = ⟨c, .check, r⟩)
    (ha : c.Reads → c.Goes W → ∀ q, ¬ (s.proc q).Holds) :
    Advances W s m none (s.setProc p ⟨c, (c.check W).1, (c.check W).2⟩) := by
  have hp : ¬ (s.proc p).Holds := by
    intro hh
    rw [hx] at hh
    exact hh.2
  have hpend : (s.proc p).phase = .pending c := by rw [hx]; rfl
  by_cases hgo : c.Goes W
  · obtain ⟨hres, ⟨hr, hpc⟩ | ⟨hr, hpc⟩⟩ := Call.check_of_goes hgo
    · rw [hpc, hres]
      have hsound : (Proc.mk c (.copy 0) ⟨0, [], c.ppos⟩).Sound W m := by
        refine ⟨hgo, Nat.zero_le _, ?_⟩
        cases c <;> rfl
      exact .silent rfl hpend.symm rfl
        (h.outside hsound hp (fun hh => hh.1 hr) (fun _ => ha hr hgo) (.inl rfl))
    · rw [hpc, hres]
      have hsound : (Proc.mk c .lock ⟨0, [], c.ppos⟩).Sound W m := ⟨hr, hgo, rfl⟩
      exact .silent rfl hpend.symm rfl
        (h.outside hsound hp (fun hh => hh.2) (fun hh => absurd hh.2 id) (.inl rfl))
  · obtain ⟨hpc, hstep⟩ := Call.check_of_not_goes (m := m) hgo
    rw [hpc]
    exact .apply rfl hpend rfl hstep
      (h.outside trivial hp (fun hh => hh.2) (fun hh => absurd hh.2 id) (.inl rfl))

/-- `mutex_lock`: the mutex is free, and the guard keeps the reads away. -/
theorem Sim.lock (h : Sim W s m) {p : Nat} {c : Call} {r : Result} (hx : s.proc p = ⟨c, .lock, r⟩)
    (hfree : s.locked = false) (ha : ∀ q, ¬ (s.proc q).Reads) :
    Advances W s m none { s.setProc p ⟨c, .copy 0, r⟩ with locked := true } := by
  have hpend : (s.proc p).phase = .pending c := by rw [hx]; rfl
  have hnone : ∀ q, ¬ (s.proc q).Holds := by
    intro q hq
    rw [h.locked q hq] at hfree
    cases hfree
  obtain ⟨hr, hgo, hres⟩ : ¬ c.Reads ∧ c.Goes W ∧ r = ⟨0, [], c.ppos⟩ := by
    have hsound := h.sound p
    rwa [hx] at hsound
  have hsound : (Proc.mk c (.copy 0) r).Sound W m := by
    refine ⟨hgo, Nat.zero_le _, hres.trans ?_⟩
    cases c <;> rfl
  have hdirty : s.mem = (Proc.mk c (.copy 0) r).dirty W m := by
    rw [h.clean hnone]
    exact (c.stored_zero).symm
  exact .silent rfl hpend.symm rfl
    (h.inside hsound ⟨hr, trivial⟩ (fun q _ => hnone q) ha hdirty)

/-- A process that is copying has made its part of the memory. -/
theorem Sim.mem_of_copy (h : Sim W s m) {p i : Nat} {c : Call} {r : Result}
    (hx : s.proc p = ⟨c, .copy i, r⟩) : s.mem = c.stored W m i := by
  by_cases hr : c.Reads
  · rw [Call.stored_of_reads hr]
    refine h.mem_of_reads (p := p) ?_
    rw [hx]
    exact ⟨hr, trivial⟩
  · have hh : (s.proc p).Holds := by
      rw [hx]
      exact ⟨hr, trivial⟩
    have hd := h.dirty p hh
    rwa [hx] at hd

/-- A process moves on within its copy, or finishes it. -/
theorem Sim.within (h : Sim W s m) {p : Nat} {x : Proc} {mem m' : Mem Byte}
    (hp : (s.proc p).pc.Inside) (hc : (s.proc p).call = x.call) (hxi : x.pc.Inside)
    (hx : x.Sound W m') (hmem : mem = x.dirty W m') (hm : x.call.Reads → m' = m) :
    Sim W { s.setProc p x with mem := mem } m' := by
  by_cases hr : x.call.Reads
  · have hpr : (s.proc p).Reads := ⟨hc ▸ hr, hp⟩
    have hdirty : x.dirty W m' = m' := by
      obtain ⟨c, pc, r⟩ := x
      cases pc with
      | copy i => exact Call.stored_of_reads hr i
      | _ => rfl
    have hm' := hm hr
    subst hm'
    have he : mem = s.mem := by rw [hmem, hdirty, h.mem_of_reads hpr]
    subst he
    exact h.outside (l := s.locked) hx (fun hh => hh.1 (hc ▸ hr)) (fun hh => hh.1 hr)
      (fun _ q hq => h.apart q p hq hpr) (.inl rfl)
  · have hph : (s.proc p).Holds := ⟨hc ▸ hr, hp⟩
    have hin := h.inside hx ⟨hr, hxi⟩ (fun q hne hq => hne (h.alone q p hq hph))
      (fun q => h.apart p q hph) hmem
    rwa [← h.locked p hph] at hin

/-- A byte of a copy, its end, or the fault that stops it. -/
theorem Sim.copy (h : Sim W s m) {p i : Nat} {c : Call} {r : Result} {fault : Option (Mem Byte)}
    (hx : s.proc p = ⟨c, .copy i, r⟩) (hs : procStep W s p fault = some s') :
    Advances W s m none s' := by
  have hpend : (s.proc p).phase = .pending c := by rw [hx]; rfl
  have hin : (s.proc p).pc.Inside := by rw [hx]; trivial
  have hcall : (s.proc p).call = c := by rw [hx]
  have hmem := h.mem_of_copy hx
  obtain ⟨hgo, hi, hres⟩ : c.Goes W ∧ i ≤ c.count W ∧ r = ⟨0, c.delivered W m i, c.ppos⟩ := by
    have hsound := h.sound p
    rwa [hx] at hsound
  simp only [procStep, hx] at hs
  split at hs
  · next hlt =>
    split at hs
    · next tail hf =>
      cases hs
      have hstep := Call.seqStep_fault (m := m) tail hgo (Call.userCopy_of_stops hf) hlt
      refine .apply rfl hpend ?_ hstep (h.within hin hcall trivial trivial ?_ fun hr => ?_)
      · rw [hres]
        rfl
      · rw [hmem]
        rfl
      · rw [Call.stored_of_reads hr]
        cases c with
        | read => rfl
        | write | ioctl => exact absurd hr id
    · cases hs
      have hmove := Call.move_stored (m := m) hlt
      have hsound : (Proc.mk c (.copy (i + 1)) ⟨0, c.delivered W m (i + 1), c.ppos⟩).Sound W m :=
        ⟨hgo, hlt, rfl⟩
      rw [hres, hmem, hmove]
      exact .silent rfl hpend.symm rfl
        (h.within hin hcall trivial hsound rfl fun _ => rfl)
  · next hge =>
    have hi : i = c.count W := by omega
    cases hs
    have hstep := Call.seqStep_success (m := m) hgo
    rw [hi] at hmem hres
    rw [hres]
    exact .apply rfl hpend rfl hstep
      (h.within hin hcall trivial trivial hmem fun hr => Call.stored_of_reads hr _)

/-- `mutex_unlock`: of the holder, or of a read, which clears a flag that nobody has set. -/
theorem Sim.unlock (h : Sim W s m) {p : Nat} {c : Call} {r : Result}
    (hx : s.proc p = ⟨c, .unlock, r⟩) :
    Advances W s m none { s.setProc p ⟨c, .ret, r⟩ with locked := false } := by
  have hdone : (s.proc p).phase = .done c r := by rw [hx]; rfl
  refine .silent rfl hdone.symm rfl ?_
  by_cases hr : c.Reads
  · have hpr : (s.proc p).Reads := by
      rw [hx]
      exact ⟨hr, trivial⟩
    have hnone : ∀ q, ¬ (s.proc q).Holds := fun q hq => h.apart q p hq hpr
    exact h.outside trivial (hnone p) (fun hh => hh.2) (fun hh => absurd hh.2 id) (.inr hnone)
  · have hph : (s.proc p).Holds := by
      rw [hx]
      exact ⟨hr, trivial⟩
    have hmem : s.mem = m := by
      have hd := h.dirty p hph
      rwa [hx] at hd
    exact h.leave trivial hph id hmem

/-- **One step of the schedule** is one move of the sequential device, or none. -/
theorem Sim.step (h : Sim W s m) {a : Act} (ha : ReadsApart W s a) (hs : step W s a = some s') :
    Advances W s m (observe s a) s' := by
  cases a with
  | call p c =>
    simp only [Ch7.step] at hs
    split at hs
    · next hidle =>
      cases hs
      refine ⟨m, h.outside (l := s.locked) trivial (fun hh => ?_) (fun hh => hh.2)
        (fun hr => absurd hr.2 id) (.inl rfl), ?_⟩
      · rw [Proc.Holds, hidle] at hh
        exact hh.2
      · rw [phase_setProc]
        exact .call p c (by simp [Proc.phase, hidle])
    · cases hs
  | step p fault =>
    generalize hx : s.proc p = x
    obtain ⟨c, pc, r⟩ := x
    have hobs : pc ≠ .ret → observe s (.step p fault) = none := by
      intro hne
      simp [observe, hx, hne]
    simp only [Ch7.step] at hs
    simp only [ReadsApart, hx] at ha
    cases pc with
    | idle =>
      simp only [procStep, hx] at hs
      cases hs
    | check =>
      rw [hobs (by nofun)]
      simp only [procStep, hx] at hs
      cases hs
      exact h.check hx ha
    | lock =>
      rw [hobs (by nofun)]
      simp only [procStep, hx] at hs
      split at hs
      · cases hs
      · next hfree =>
        cases hs
        exact h.lock hx (by simpa using hfree) ha
    | copy i =>
      rw [hobs (by nofun)]
      exact h.copy hx hs
    | unlock =>
      rw [hobs (by nofun)]
      simp only [procStep, hx] at hs
      cases hs
      exact h.unlock hx
    | ret =>
      have hret : observe s (.step p fault) = some (.ret p r) := by simp [observe, hx]
      rw [hret]
      simp only [procStep, hx] at hs
      cases hs
      refine ⟨m, h.outside (l := s.locked) trivial (fun hh => ?_) (fun hh => hh.2)
        (fun hr => absurd hr.2 id) (.inl rfl), ?_⟩
      · rw [hx] at hh
        exact hh.2
      · rw [phase_setProc]
        exact .ret p c r (by rw [hx]; rfl)

/-- The device at rest stands for its initial memory. -/
theorem Sim.init : Sim W .init (device W).init :=
  ⟨fun _ => trivial, fun _ _ h => absurd h.2 id, fun _ _ h => absurd h.2 id,
    fun _ h => absurd h.2 id, fun _ h => absurd h.2 id, fun _ => rfl⟩

/-- The history of a run in which the reads keep apart from the critical sections is one of the
sequential device. -/
theorem ReadsApart.trace {as : List Act} (hr : (machine W).Run (ReadsApart W) .init as s) :
    ∃ m log, Sim W s m ∧
      (device W).Trace ((machine W).events observe .init as)
        ⟨m, fun p => (s.proc p).phase, log⟩ := by
  have hstep : ∀ s a s' m, Sim W s m → ReadsApart W s a → (machine W).step s a = some s' →
      Advances W s m (observe s a) s' := fun _ _ _ _ h hC hs => h.step hC hs
  exact hr.trace (fun s p => (s.proc p).phase) (Sim W) Sim.init (fun _ => rfl) hstep

/-- What linearizability says of a run: its history is one of the sequential device, and once the
calls have returned some sequential order of them gives each its result and leaves the memory. -/
structure Linearized (W : LongWidth) (as : List Act) (s : State) : Prop where
  trace : ∃ m log, (device W).Trace ((machine W).events observe .init as)
    ⟨m, fun p => (s.proc p).phase, log⟩
  explained : Quiet s → Explained W as s

/-- **The mutex version is linearizable where its reads keep apart**: in every run in which no read
is between its check and its unlock while a write or a clear is in its critical section. -/
theorem linearized_of_readsApart {as : List Act}
    (hr : (machine W).Run (ReadsApart W) .init as s) : Linearized W as s := by
  obtain ⟨m, log, hsim, ht⟩ := ReadsApart.trace hr
  refine ⟨⟨m, log, ht⟩, fun hq => ?_⟩
  have hidle : ∀ p, (s.proc p).phase = .idle := by
    intro p
    simp [Proc.phase, hq p]
  have hclean : s.mem = m := hsim.clean fun p hp => by
    rw [Proc.Holds, hq p] at hp
    exact hp.2
  refine ⟨log, ht.completed_perm hidle, ?_⟩
  rw [hclean]
  exact ht.legal

end

section

instance : DecidablePred Call.Reads
  | .read _ _ => .isTrue trivial
  | .write _ _ _ => .isFalse id
  | .ioctl _ => .isFalse id

instance : DecidablePred Pc.Inside
  | .copy _ | .unlock => .isTrue trivial
  | .idle | .check | .lock | .ret => .isFalse id

instance : DecidablePred Proc.Reads := fun _ => inferInstanceAs (Decidable (_ ∧ _))

instance : DecidablePred Proc.Holds := fun _ => inferInstanceAs (Decidable (_ ∧ _))

/-- The process that a label moves. -/
def Act.pid : Act → Nat
  | .call p _ | .step p _ => p

/-- A check that implies `ReadsApart` in schedules of the processes `0` and `1`. -/
def readsApartOfTwo (s : State) (a : Act) : Bool :=
  decide (a.pid < 2) &&
    match (s.proc a.pid).pc with
    | .check => decide (¬ (s.proc 0).Holds ∧ ¬ (s.proc 1).Holds)
    | .lock => decide (¬ (s.proc 0).Reads ∧ ¬ (s.proc 1).Reads)
    | _ => true

/-- The processes other than `0` and `1` are idle. -/
def OfTwo (s : State) : Prop := ∀ q, 2 ≤ q → (s.proc q).pc = .idle

/-- A process that is idle is outside the critical section. -/
theorem OfTwo.not_inside {s : State} (h : OfTwo s) {q : Nat} (hq : (s.proc q).pc.Inside) :
    q = 0 ∨ q = 1 := by
  rcases Nat.lt_or_ge q 2 with hlt | hge
  · omega
  · rw [h q hge] at hq
    exact absurd hq id

/-- The check implies the condition. -/
theorem OfTwo.readsApart {W : LongWidth} {s : State} {a : Act} (h : OfTwo s)
    (hchk : readsApartOfTwo s a = true) : ReadsApart W s a := by
  cases a with
  | call p c => trivial
  | step p fault =>
    have hmatch := (Bool.and_eq_true_iff.1 hchk).2
    rw [ReadsApart]
    simp only [Act.pid] at hmatch
    split at hmatch
    · obtain ⟨h0, h1⟩ := of_decide_eq_true hmatch
      refine fun _ _ q hq => ?_
      rcases h.not_inside hq.2 with rfl | rfl
      · exact h0 hq
      · exact h1 hq
    · obtain ⟨h0, h1⟩ := of_decide_eq_true hmatch
      refine fun q hq => ?_
      rcases h.not_inside hq.2 with rfl | rfl
      · exact h0 hq
      · exact h1 hq
    · trivial

/-- A step of process `0` or `1` leaves the others idle. -/
theorem OfTwo.step {W : LongWidth} {s s' : State} {a : Act} (h : OfTwo s) (hp : a.pid < 2)
    (hs : (machine W).step s a = some s') : OfTwo s' := by
  have key : ∀ x, s'.proc = (s.setProc a.pid x).proc → OfTwo s' := by
    intro x he q hq
    rw [he, State.setProc_proc_of_ne s x (by omega)]
    exact h q hq
  cases a with
  | call p c =>
    simp only [machine, Ch7.step] at hs
    split at hs
    · cases hs
      exact key _ rfl
    · cases hs
  | step p fault =>
    simp only [machine, Ch7.step, procStep] at hs
    split at hs
    · cases hs
    · cases hs
      exact key _ rfl
    · split at hs
      · cases hs
      · cases hs
        exact key _ rfl
    · split at hs
      · split at hs
        · cases hs
          exact key _ rfl
        · cases hs
          exact key _ rfl
      · cases hs
        exact key _ rfl
    · cases hs
      exact key _ rfl
    · cases hs
      exact key _ rfl

/-- A schedule of the processes `0` and `1` that ends with both idle ends quiet. -/
theorem OfTwo.quiet {s : State} (h : OfTwo s) (h0 : (s.proc 0).pc = .idle)
    (h1 : (s.proc 1).pc = .idle) : Quiet s := by
  intro q
  match q with
  | 0 => exact h0
  | 1 => exact h1
  | q + 2 => exact h _ (by omega)

end

/-! ## A read that overlaps a write -/

/-- A read of two bytes, between whose byte copies a whole write runs. -/
def tornRead : List Act :=
  [.call 0 (.read 2 0), .step 0 none, .step 0 none,
    .call 1 (.write (fun _ => 1) 2 0), .step 1 none, .step 1 none, .step 1 none, .step 1 none,
    .step 1 none, .step 1 none, .step 1 none,
    .step 0 none, .step 0 none, .step 0 none, .step 0 none]

/-- A write of two bytes; a read of the same bytes is called before it ends and passes its check
after it has unlocked. -/
def readAfterWrite : List Act :=
  [.call 1 (.write (fun _ => 1) 2 0), .step 1 none, .step 1 none, .step 1 none,
    .call 0 (.read 2 0), .step 1 none, .step 1 none, .step 1 none,
    .step 0 none, .step 0 none, .step 0 none, .step 0 none, .step 0 none, .step 0 none,
    .step 1 none]

/-- The read that waits for the write to unlock is explained: it delivers what was written. -/
theorem readAfterWrite_linearized :
    ∃ s, (machine .w64).Run (ReadsApart .w64) .init readAfterWrite s ∧
    Quiet s ∧ Linearized .w64 readAfterWrite s := by
  have hrun : ((machine .w64).runChecked readsApartOfTwo .init readAfterWrite).map
      (fun s => ((s.proc 0).pc, (s.proc 1).pc)) = some (.idle, .idle) := by decide +kernel
  obtain ⟨s, hs, hpcs⟩ := Option.map_eq_some_iff.1 hrun
  obtain ⟨hr, htwo⟩ := @Machine.Run.of_checked _ _ _ (ReadsApart .w64) OfTwo readsApartOfTwo
    (fun _ _ => OfTwo.readsApart)
    (fun _ _ _ h hchk => h.step (of_decide_eq_true (Bool.and_eq_true_iff.1 hchk).1)) _ _ _
    (fun _ _ => rfl) hs
  obtain ⟨h0, h1⟩ := Prod.mk.inj hpcs
  exact ⟨s, hr, htwo.quiet h0 h1, linearized_of_readsApart hr⟩

/-- The calls of the torn read: the write stored both bytes, and the read, of the same bytes,
delivers the old one and the new one. -/
theorem completed_tornRead :
    completed ((machine .w64).events observe .init tornRead) =
      [(1, .write (fun _ => 1) 2 0, ⟨2, [], 2⟩), (0, .read 2 0, ⟨2, [0, 1], 2⟩)] := by
  have hrc : (Call.read 2 0).check .w64 = (.copy 0, ⟨0, [], 0⟩) := rfl
  have hwc : (Call.write (fun _ => 1) 2 0).check .w64 = (.lock, ⟨0, [], 0⟩) := rfl
  have hrn : (Call.read 2 0).count .w64 = 2 := rfl
  have hwn : (Call.write (fun _ => 1) 2 0).count .w64 = 2 := rfl
  have hwb : (Call.write (fun _ => 1) 2 0).bytes .w64 = [1, 1] := rfl
  have hrp : (Call.read 2 0).pos .w64 = 0 := rfl
  have hwp : (Call.write (fun _ => 1) 2 0).pos .w64 = 0 := rfl
  have hrs : ∀ d, (Call.read 2 0).success .w64 d = ⟨2, d, 2⟩ := fun _ => rfl
  have hws : ∀ d, (Call.write (fun _ => 1) 2 0).success .w64 d = ⟨2, d, 2⟩ := fun _ => rfl
  simp [completed, completedStep, tornRead, Machine.events, machine, step, procStep, State.init,
    State.setProc, observe, Call.move, Call.ppos, Function.update, Mem.store, hrc, hwc, hrn, hwn,
    hwb, hrp, hwp, hrs, hws]

/-- The count of a transfer of two bytes at the start of the device. -/
theorem clamp_two : clamp .w64 GLOBALMEM_SIZE 2 (toUnsigned LongWidth.w64.bits 0) = 2 := by
  decide +kernel

/-- A read of two bytes that runs alone and delivers two has delivered what the memory holds. -/
theorem SeqStep.read_data {m m' : Mem Byte} {r : Result} {a b : Byte}
    (h : SeqStep .w64 m (.read 2 0) r m') (hdata : r.data = [a, b]) :
    m' = m ∧ m 0 = a ∧ m 1 = b := by
  generalize hc : Call.read 2 0 = c at h
  cases h with
  | read size ppos limit =>
    cases hc
    have hread : (globalmemRead .w64 m 2 0 limit).data = m.slice 0 (copied limit 2) := by
      rw [globalmemRead, memRead_of_lt (by decide) clamp_two]
      split <;> rfl
    have hslice : m.slice 0 (copied limit 2) = [a, b] := hread.symm.trans hdata
    have hlen : copied limit 2 = 2 := by
      rw [← Mem.length_slice m 0 (copied limit 2), hslice]
      rfl
    rw [hlen] at hslice
    obtain ⟨h0, h1⟩ := List.cons.inj hslice
    exact ⟨rfl, h0, (List.cons.inj h1).1⟩
  | write buf size ppos limit => cases hc
  | ioctl cmd => cases hc

/-- A write of two ones that runs alone and returns 2 has stored them. -/
theorem SeqStep.write_ret {m m' : Mem Byte} {r : Result}
    (h : SeqStep .w64 m (.write (fun _ => 1) 2 0) r m') (hret : r.ret = 2) : m' 0 = 1 := by
  generalize hc : Call.write (fun _ => 1) 2 0 = c at h
  cases h with
  | read size ppos limit => cases hc
  | write buf size ppos limit =>
    cases hc
    rw [globalmemWrite, memWrite_of_lt (by decide) clamp_two] at hret ⊢
    split at hret
    · cases hret
    · next hleft =>
      rw [if_neg hleft]
      rfl
  | ioctl cmd => cases hc

/-- **The driver is not linearizable**: no order of the two calls of the torn read explains it. -/
theorem tornRead_not_linearized :
    ¬ ∀ as s, (machine .w64).Run Machine.anyStep .init as s → Linearized .w64 as s := by
  intro hall
  have hrun : ((machine .w64).runChecked (fun _ a => decide (a.pid < 2)) .init
      tornRead).map (fun s => ((s.proc 0).pc, (s.proc 1).pc)) = some (.idle, .idle) := by
    decide +kernel
  obtain ⟨s, hs, hpcs⟩ := Option.map_eq_some_iff.1 hrun
  obtain ⟨hr, htwo⟩ := @Machine.Run.of_checked _ _ _ Machine.anyStep OfTwo _
    (fun _ _ _ _ => trivial) (fun _ _ _ h hchk => h.step (of_decide_eq_true hchk)) _ _ _
    (fun _ _ => rfl) hs
  obtain ⟨h0, h1⟩ := Prod.mk.inj hpcs
  obtain ⟨order, hperm, hlegal⟩ := (hall tornRead s hr).explained (htwo.quiet h0 h1)
  rw [completed_tornRead] at hperm
  rcases List.perm_pair.1 hperm with rfl | rfl
  · -- The write first: the read would deliver a one at address 0.
    obtain ⟨m, hw, _, hrd, _⟩ := hlegal
    have hzero : m 0 = 0 := (hrd.read_data rfl).2.1
    have hone : m 0 = 1 := hw.write_ret rfl
    rw [hone] at hzero
    exact absurd hzero (by decide)
  · -- The read first: the memory is still all zeros.
    obtain ⟨_, hrd, _⟩ := hlegal
    have hone : (0 : Byte) = 1 := (hrd.read_data rfl).2.2
    exact absurd hone (by decide)

end LinuxTraining.Globalmem.Ch7
