import LinuxTraining.Globalfifo.Wakeup
import LinuxTraining.Lib.Settle

/-!
# globalfifo comes to rest

A process that nobody wakes takes a bounded number of steps: it returns, or it sleeps in its wait
loop. A wakeup costs each sleeper one more round, and a call wakes once, so the number of steps of
a run is bounded by its calls, its signals and the wakeups for no reason (`comesToRest`). At rest
the mutex is free and whoever has not returned is asleep; where no clear of a full device finds a
writer asleep, the sleepers all wait for the same thing (`rest_oneSided`), as the device cannot be
empty and full at once.
-/

namespace LinuxTraining.Globalfifo

open Lib

/-- A step of a process. -/
def Act.isRun : Act → Bool
  | .run _ _ => true
  | .call _ _ _ | .wakeup _ | .signal _ => false

/-- A call. -/
def Act.isCall : Act → Bool
  | .call _ _ _ => true
  | .run _ _ | .wakeup _ | .signal _ => false

/-- A signal, or a wakeup for no reason. -/
def Act.disturbs : Act → Bool
  | .wakeup _ | .signal _ => true
  | .call _ _ _ | .run _ _ => false

/-! ## The steps that are left -/

/-- The steps of one more round of the wait loop, for a process that has been woken. -/
def TaskState.rounds : TaskState → Nat
  | .running => 6
  | .interruptible => 0

/-- A bound on the steps that a process takes before it rests, and on those that it causes by its
wakeup, with `n` processes around. -/
def Pc.rank (n : Nat) (task : TaskState) (sig : Bool) : Pc → Nat
  | .idle => 0
  | .ret => 1
  | .setRunning | .fasync => 2
  | .out2 => 3
  | .out => 4
  | .killFasync | .mask | .clear => 5
  | .pollWait => 6
  | .wake => 6 + 6 * n
  | .copy => 7 + 6 * n
  | .schedule => 5 + 6 * n + task.rounds
  | .unlock1 => 6 + 6 * n + task.rounds
  | .setState => 7 + 6 * n
  | .test => 8 + 6 * n
  | .relock | .addWait => 9 + 6 * n
  | .sigTest => if sig then 4 else 10 + 6 * n
  | .lock => 10 + 6 * n
  | .switch => 11 + 6 * n

/-- A step of a process leaves it fewer steps, and pays for those it wakes. -/
def Spends (n : Nat) (x : Proc) (task : TaskState) (sig : Bool) (e : Effect) : Prop :=
  match e.also with
  | .wakeUp _ => ∀ task', e.proc.pc.rank n task' sig + (1 + 6 * n) ≤ x.pc.rank n task sig
  | .setState t => e.proc.pc.rank n t sig + 1 ≤ x.pc.rank n task sig
  | .returned => e.proc.pc.rank n task false + 1 ≤ x.pc.rank n task sig
  | .nothing | .polled _ | .killFasync =>
    e.proc.pc.rank n task sig + 1 ≤ x.pc.rank n task sig

section
variable {W : LongWidth} {cp : Copier Byte} {async : Bool} {c : RwCode} {d : Dev} {p : Nat}
  {x : Proc} {task : TaskState} {sig : Bool} {limit : Option Fault} {e : Effect} {n : Nat}

/-- A step of a read or a write. -/
theorem rwStep_spends (h : rwStep c d p x task sig limit = some e) : Spends n x task sig e := by
  cases rwStep_rule h with
  | schedule hawake =>
    show (if sig then 4 else 10 + 6 * n) + 1 ≤ 5 + 6 * n + task.rounds
    rcases hawake with rfl | rfl
    · simp only [TaskState.rounds]
      split <;> omega
    · rw [if_pos rfl]
      omega
  | interrupted hsig =>
    show 3 + 1 ≤ if sig then 4 else 10 + 6 * n
    rw [if_pos hsig]
  | retry hsig =>
    show 9 + 6 * n + 1 ≤ if sig then 4 else 10 + 6 * n
    rw [if_neg (Bool.eq_false_iff.1 hsig)]
    omega
  | wake | wakeKill =>
    intro task'
    simp only [Pc.rank]
    omega
  | setState =>
    show 6 + 6 * n + 0 + 1 ≤ 7 + 6 * n
    omega
  | unlock1 =>
    show 5 + 6 * n + task.rounds + 1 ≤ 6 + 6 * n + task.rounds
    omega
  | again | fault =>
    simp only [Spends, Pc.rank]
    omega
  | lock | addWait | sleep | pass | relock | copied | killFasync | out | out2 | setRunning =>
    simp only [Spends, Pc.rank]
    omega

/-- A step of `globalfifo_ioctl`. -/
theorem globalfifoIoctl_spends {cmd : Nat} (h : globalfifoIoctl cmd d p x = some e) :
    Spends n x task sig e := by
  obtain ⟨call, file, pc, res⟩ := x
  cases pc with
  | switch =>
    simp only [globalfifoIoctl] at h
    split at h <;> cases h <;> simp only [Spends, Proc.goto, Pc.rank] <;> omega
  | lock =>
    obtain ⟨-, rfl⟩ := mutexLock_eq_some h
    simp only [Spends, Proc.goto, Pc.rank]
    omega
  | clear =>
    cases h
    exact le_rfl
  | out =>
    cases h
    show 1 + 1 ≤ 4
    decide
  | _ => cases h

/-- A step of `globalfifo_poll`. -/
theorem globalfifoPoll_spends (h : globalfifoPoll d p x = some e) : Spends n x task sig e := by
  obtain ⟨call, file, pc, res⟩ := x
  cases pc with
  | lock =>
    obtain ⟨-, rfl⟩ := mutexLock_eq_some h
    simp only [Spends, Proc.goto, Pc.rank]
    omega
  | pollWait | mask | out => cases h; simp only [Spends, Proc.goto, Pc.rank]; omega
  | _ => cases h

/-- **A step of a process** brings it nearer to its rest. -/
theorem procStep_spends (h : procStep W cp async d p x task sig limit = some e) :
    Spends n x task sig e := by
  unfold procStep at h
  split at h
  · cases h
  · next hpc =>
    cases h
    simp only [Spends, Proc.goto, hpc, Pc.rank]
    omega
  · unfold callStep at h
    split at h
    · exact rwStep_spends h
    · exact rwStep_spends h
    · exact globalfifoIoctl_spends h
    · exact globalfifoPoll_spends h
    · obtain ⟨call, file, pc, res⟩ := x
      cases pc with
      | fasync => cases h; exact le_rfl
      | _ => cases h
    · obtain ⟨call, file, pc, res⟩ := x
      cases pc with
      | fasync => cases h; exact le_rfl
      | _ => cases h

/-! ## The steps that are left in a state -/

/-- The steps that are left to a process. -/
def State.rank (n : Nat) (s : State) (p : Nat) : Nat :=
  (s.proc p).pc.rank n (s.task p) (s.sigPending p)

/-- The steps that are left to the processes of a set. -/
def State.potential (F : Finset Nat) (s : State) : Nat := ∑ p ∈ F, s.rank F.card p

/-- A call, a wakeup and a signal cost what they may cause. -/
def Act.cost (n : Nat) : Act → Nat
  | .call _ _ _ => 11 + 6 * n
  | .run _ _ => 0
  | .wakeup _ | .signal _ => 6

theorem Pc.rank_running_le (n : Nat) (task : TaskState) (sig : Bool) (pc : Pc) :
    pc.rank n .running sig ≤ pc.rank n task sig + 6 := by
  cases pc <;> simp only [Pc.rank, TaskState.rounds] <;> omega

/-- A signal costs no more than a wakeup. -/
theorem Pc.rank_signal_le (n : Nat) (task : TaskState) (sig : Bool) (pc : Pc) :
    pc.rank n .running true ≤ pc.rank n task sig + 6 := by
  cases pc with
  | sigTest =>
    cases sig with
    | true => exact Nat.le_add_right ..
    | false =>
      simp only [Pc.rank, if_true]
      omega
  | _ => simp only [Pc.rank, TaskState.rounds]; omega

theorem Call.rank_entry_le (n : Nat) (task : TaskState) (sig : Bool) (c : Call) :
    c.entry.rank n task sig ≤ 11 + 6 * n := by
  cases c <;> simp only [Call.entry, Pc.rank] <;> omega

variable {s s' t : State} {F : Finset Nat} {a : Act} {as : List Act}

/-- The effect of a step, on the steps that are left to its process and to the others. -/
theorem Spends.put (h : Spends n (s.proc p) (s.task p) (s.sigPending p) e) :
    ∃ k δ, n * δ + 1 ≤ k ∧ (s.put p e).rank n p + k ≤ s.rank n p ∧
      ∀ q, q ≠ p → (s.put p e).rank n q ≤ s.rank n q + δ := by
  have hproc : ∀ q, q ≠ p → (s.put p e).proc q = s.proc q := fun q hq => by
    rw [State.put_proc, Function.update_of_ne hq]
  unfold Spends at h
  simp only [State.rank, State.put_proc, Function.update_self]
  cases halso : e.also with
  | wakeUp q =>
    rw [halso] at h
    refine ⟨1 + 6 * n, 6, by omega, ?_, fun r hr => ?_⟩
    · simpa only [State.put, halso] using h _
    · rw [Function.update_of_ne hr]
      simp only [State.put, halso, wakeAll]
      split
      · exact Pc.rank_running_le ..
      · exact Nat.le_add_right ..
  | _ =>
    rw [halso] at h
    refine ⟨1, 0, le_rfl, ?_, fun r hr => ?_⟩
    · simpa only [State.put, halso, Function.update_self] using h
    · rw [Function.update_of_ne hr]
      simp only [State.put, halso, Function.update_of_ne hr]
      exact le_rfl

/-- **One step of the schedule**: a process spends, and the environment pays. -/
theorem step_potential (hs : step W cp async s a = some s') (ha : a.pid ∈ F) :
    s'.potential F + (if a.isRun then 1 else 0) ≤ s.potential F + a.cost F.card := by
  cases a with
  | call p file c =>
    simp only [step] at hs
    split at hs
    · cases hs
      refine sum_gain ha ?_ fun q (hq : q ≠ p) => ?_
      · have hentry := Call.rank_entry_le F.card (s.task p) (s.sigPending p) c
        simp only [State.rank, Act.pid, Function.update_self, Act.cost]
        omega
      · simp only [State.rank, Function.update_of_ne hq]
    · cases hs
  | run p limit =>
    obtain ⟨e, he, rfl⟩ := Option.map_eq_some_iff.1 hs
    obtain ⟨k, δ, hk, hself, hrest⟩ := (procStep_spends (n := F.card) he).put
    have hsum := sum_spend ha hself hrest
    simp only [State.potential, Act.isRun, Act.cost, if_true]
    omega
  | wakeup p =>
    cases hs
    refine sum_gain ha ?_ fun q (hq : q ≠ p) => ?_
    · simp only [State.rank, Act.pid, Function.update_self]
      exact Pc.rank_running_le ..
    · simp only [State.rank, Function.update_of_ne hq]
  | signal p =>
    cases hs
    refine sum_gain ha ?_ fun q (hq : q ≠ p) => ?_
    · simp only [State.rank, Act.pid, Function.update_self]
      exact Pc.rank_signal_le ..
    · simp only [State.rank, Function.update_of_ne hq]

/-- What a run costs. -/
theorem sum_cost (n : Nat) (as : List Act) : (as.map (Act.cost n)).sum =
    (11 + 6 * n) * as.countP Act.isCall + 6 * as.countP Act.disturbs := by
  induction as with
  | nil => rfl
  | cons a as ih =>
    rw [List.map_cons, List.sum_cons, ih, List.countP_cons, List.countP_cons]
    cases a with
    | call =>
      simp only [Act.cost, Act.isCall, Act.disturbs, if_true, Bool.false_eq_true, if_false,
        Nat.mul_add]
      omega
    | run => exact Nat.zero_add _
    | wakeup | signal =>
      simp only [Act.cost, Act.isCall, Act.disturbs, if_true, Bool.false_eq_true, if_false,
        Nat.add_zero]
      omega

/-! ## The points of a call -/

/-- The points that a call passes. -/
def Call.Visits (c : Call) : Pc → Prop
  | .idle | .ret => True
  | .lock | .out => (∃ q, c.WaitsOn q) ∨ (∃ cmd, c = .ioctl cmd) ∨ c = .poll
  | .addWait | .test | .setState | .unlock1 | .schedule | .sigTest | .relock | .copy | .wake
  | .killFasync | .out2 | .setRunning => ∃ q, c.WaitsOn q
  | .switch | .clear => ∃ cmd, c = .ioctl cmd
  | .pollWait | .mask => c = .poll
  | .fasync => (∃ mode, c = .fasync mode) ∨ c = .release

/-- A read and a write pass the points of their common shape only. -/
theorem rwStep_visits {call : Call} (hcall : ∃ q, call.WaitsOn q)
    (h : rwStep c d p x task sig limit = some e) : call.Visits e.proc.pc := by
  cases rwStep_rule h with
  | again | fault | killFasync | wake => exact .inl hcall
  | setRunning => exact trivial
  | _ => exact hcall

theorem procStep_visits (hx : x.call.Visits x.pc)
    (h : procStep W cp async d p x task sig limit = some e) : x.call.Visits e.proc.pc := by
  obtain ⟨call, file, pc, res⟩ := x
  unfold procStep at h
  split at h
  · cases h
  · cases h
    exact trivial
  · unfold callStep at h
    cases call with
    | read => exact rwStep_visits ⟨.r, rfl⟩ h
    | write => exact rwStep_visits ⟨.w, rfl⟩ h
    | ioctl cmd =>
      cases pc with
      | switch =>
        simp only [globalfifoIoctl] at h
        split at h <;> cases h
        · exact .inr (.inl ⟨cmd, rfl⟩)
        · exact trivial
      | lock =>
        obtain ⟨-, rfl⟩ := mutexLock_eq_some h
        exact ⟨cmd, rfl⟩
      | clear =>
        cases h
        exact .inr (.inl ⟨cmd, rfl⟩)
      | out =>
        cases h
        exact trivial
      | _ => cases h
    | poll =>
      cases pc with
      | lock =>
        obtain ⟨-, rfl⟩ := mutexLock_eq_some h
        exact rfl
      | pollWait =>
        cases h
        exact rfl
      | mask =>
        cases h
        exact .inr (.inr rfl)
      | out =>
        cases h
        exact trivial
      | _ => cases h
    | fasync | release =>
      cases pc with
      | fasync =>
        cases h
        exact trivial
      | _ => cases h

theorem mutexLock_eq_none {next : Pc} (h : mutexLock d p x next = none) : d.mutex ≠ none := by
  intro hfree
  unfold mutexLock at h
  rw [hfree] at h
  cases h

/-- A read or a write can step, unless it waits for the mutex or sleeps. -/
theorem rwStep_stuck (hcall : ∃ q, x.call.WaitsOn q) (hx : x.call.Visits x.pc)
    (hpc : x.pc ≠ .idle ∧ x.pc ≠ .ret) (h : rwStep c d p x task sig limit = none) :
    ((x.pc = .lock ∨ x.pc = .relock) ∧ d.mutex ≠ none) ∨
      (x.pc = .schedule ∧ task = .interruptible ∧ sig = false) := by
  obtain ⟨call, file, pc, res⟩ := x
  obtain ⟨q, hq⟩ := hcall
  cases pc with
  | lock => exact .inl ⟨.inl rfl, mutexLock_eq_none h⟩
  | relock => exact .inl ⟨.inr rfl, mutexLock_eq_none h⟩
  | schedule =>
    simp only [rwStep] at h
    split at h
    · cases h
    · next hasleep =>
      obtain ⟨htask, hsig⟩ := not_or.1 hasleep
      cases task with
      | running => exact absurd rfl htask
      | interruptible => exact .inr ⟨rfl, rfl, Bool.eq_false_iff.2 hsig⟩
  | test =>
    simp only [rwStep] at h
    split at h
    · split at h <;> cases h
    · cases h
  | sigTest =>
    simp only [rwStep] at h
    split at h <;> cases h
  | switch | clear =>
    obtain ⟨cmd, rfl⟩ := hx
    exact hq.elim
  | pollWait | mask =>
    obtain rfl : call = .poll := hx
    exact hq.elim
  | fasync =>
    rcases hx with ⟨mode, rfl⟩ | rfl
    · exact hq.elim
    · exact hq.elim
  | idle => exact absurd rfl hpc.1
  | ret => exact absurd rfl hpc.2
  | addWait | setState | unlock1 | copy | wake | killFasync | out | out2 | setRunning => cases h

/-- A process in a call can step, unless it waits for the mutex or sleeps in the wait loop. -/
theorem procStep_stuck (hx : x.call.Visits x.pc) (hpc : x.pc ≠ .idle)
    (h : procStep W cp async d p x task sig limit = none) :
    ((x.pc = .lock ∨ x.pc = .relock) ∧ d.mutex ≠ none) ∨
      (x.pc = .schedule ∧ task = .interruptible ∧ sig = false) := by
  obtain ⟨call, file, pc, res⟩ := x
  unfold procStep at h
  split at h
  · next hidle => exact absurd hidle hpc
  · cases h
  · next hret =>
    unfold callStep at h
    cases call with
    | read => exact rwStep_stuck ⟨.r, rfl⟩ hx ⟨hpc, hret⟩ h
    | write => exact rwStep_stuck ⟨.w, rfl⟩ hx ⟨hpc, hret⟩ h
    | ioctl cmd =>
      cases pc with
      | lock => exact .inl ⟨.inl rfl, mutexLock_eq_none h⟩
      | switch =>
        simp only [globalfifoIoctl] at h
        split at h <;> cases h
      | clear | out => cases h
      | idle => exact absurd rfl hpc
      | ret => exact absurd rfl hret
      | pollWait | mask => cases hx
      | fasync => rcases hx with ⟨_, hx⟩ | hx <;> cases hx
      | _ => exact hx.elim fun _ hq => hq.elim
    | poll =>
      cases pc with
      | lock => exact .inl ⟨.inl rfl, mutexLock_eq_none h⟩
      | pollWait | mask | out => cases h
      | idle => exact absurd rfl hpc
      | ret => exact absurd rfl hret
      | switch | clear => exact hx.elim fun _ hcmd => by cases hcmd
      | fasync => rcases hx with ⟨_, hx⟩ | hx <;> cases hx
      | _ => exact hx.elim fun _ hq => hq.elim
    | fasync | release =>
      cases pc with
      | fasync => cases h
      | idle => exact absurd rfl hpc
      | ret => exact absurd rfl hret
      | lock | out =>
        obtain ⟨_, hq⟩ | ⟨_, hcmd⟩ | hpoll := hx
        · exact hq.elim
        · cases hcmd
        · cases hpoll
      | switch | clear => exact hx.elim fun _ hcmd => by cases hcmd
      | pollWait | mask => cases hx
      | _ => exact hx.elim fun _ hq => hq.elim

/-! ## Rest -/

/-- Everybody is where its call passes. -/
def OnPath (s : State) : Prop := ∀ p, (s.proc p).call.Visits (s.proc p).pc

theorem OnPath.step (h : OnPath s) (hs : Globalfifo.step W cp async s a = some s') :
    OnPath s' := by
  intro q
  rcases eq_or_ne q a.pid with rfl | hne
  · cases a with
    | call p file c =>
      simp only [Globalfifo.step] at hs
      split at hs <;> cases hs
      dsimp only [Act.pid]
      rw [Function.update_self]
      cases c with
      | read => exact .inl ⟨.r, rfl⟩
      | write => exact .inl ⟨.w, rfl⟩
      | ioctl cmd => exact ⟨cmd, rfl⟩
      | poll => exact .inr (.inr rfl)
      | fasync mode => exact .inl ⟨mode, rfl⟩
      | release => exact .inr rfl
    | run p limit =>
      obtain ⟨e, he, rfl⟩ := Option.map_eq_some_iff.1 hs
      dsimp only [Act.pid]
      rw [State.put_proc, Function.update_self, (procStep_call he).1]
      exact procStep_visits (h p) he
    | wakeup p => cases hs; exact h p
    | signal p => cases hs; exact h p
  · rw [step_proc_of_ne hs hne]
    exact h q

/-- The process is asleep in the wait loop of a read or a write, and no signal is pending. -/
structure FastAsleep (s : State) (q : WaitQueue) (p : Nat) : Prop where
  asleep : AsleepOn s q p
  schedule : (s.proc p).pc = .schedule
  noSignal : s.sigPending p = false

/-- The mutex is free, and whoever has not returned is asleep. -/
structure AtRest (s : State) : Prop where
  mutex : s.dev.mutex = none
  procs : ∀ p, (s.proc p).pc = .idle ∨ ∃ q, FastAsleep s q p

/-- **What rest is**: no process can step. -/
theorem settled_iff_atRest_of (hex : Exclusive s) (hpath : OnPath s) :
    (machine W cp async).Settled Act.isRun s ↔ AtRest s := by
  constructor
  · intro hset
    have hstuck : ∀ p, (s.proc p).pc ≠ .idle → _ := fun p hpc =>
      procStep_stuck (hpath p) hpc (Option.map_eq_none_iff.1 (hset (.run p none) rfl))
    have hfree : s.dev.mutex = none := by
      by_contra hheld
      obtain ⟨p, hp⟩ := Option.ne_none_iff_exists'.1 hheld
      have hhold := (hex p).2 hp
      rcases hstuck p (fun hpc => by rw [hpc] at hhold; exact hhold) with
        ⟨hpc | hpc, -⟩ | ⟨hpc, -⟩ <;> rw [hpc] at hhold <;> exact hhold
    refine ⟨hfree, fun p => or_iff_not_imp_left.2 fun hpc => ?_⟩
    rcases hstuck p hpc with ⟨-, hheld⟩ | ⟨hpc, htask, hsig⟩
    · exact absurd hfree hheld
    · have hcall := hpath p
      rw [hpc] at hcall
      obtain ⟨q, hq⟩ := hcall
      exact ⟨q, ⟨hq, htask⟩, hpc, hsig⟩
  · intro hrest a ha
    cases a with
    | run p limit =>
      refine Option.map_eq_none_iff.2 ?_
      rcases hrest.procs p with hpc | ⟨q, ⟨hq, htask⟩, hpc, hsig⟩
      · rw [procStep, hpc]
      · have hsleep : ∀ c : RwCode, rwStep c s.dev p (s.proc p) (s.task p) (s.sigPending p) limit =
            none := fun c => by
          rw [rwStep, hpc]
          dsimp only
          rw [htask, hsig, if_neg (by simp)]
        rw [procStep, hpc]
        dsimp only
        unfold callStep
        cases hcall : (s.proc p).call with
        | read => exact hsleep _
        | write => exact hsleep _
        | _ => rw [hcall] at hq; exact hq.elim
    | call | wakeup | signal => cases ha

/-! ## Runs -/

/-- A bound on the steps of the processes in a run: `11 + 6 * n` for each call, where `n` processes
are around, and `6` for each signal and each wakeup for no reason. -/
def stepBound (as : List Act) : Nat :=
  (11 + 6 * (as.map Act.pid).toFinset.card) * as.countP Act.isCall + 6 * as.countP Act.disturbs

/-- The processes outside a set have not called. -/
def IdleOutside (F : Finset Nat) (s : State) : Prop := ∀ p, p ∉ F → (s.proc p).pc = .idle

theorem IdleOutside.step (h : IdleOutside F s) (ha : a.pid ∈ F)
    (hs : Globalfifo.step W cp async s a = some s') : IdleOutside F s' := by
  intro p hp
  have hne : p ≠ a.pid := fun he => hp (he ▸ ha)
  rw [step_proc_of_ne hs hne]
  exact h p hp

/-- Who steps has called. -/
theorem IdleOutside.mem (h : IdleOutside F s) (ha : a.isRun = true)
    (hs : Globalfifo.step W cp async s a = some s') : a.pid ∈ F := by
  cases a with
  | run p limit =>
    by_contra hp
    simp only [Globalfifo.step, procStep, h p hp] at hs
    cases hs
  | call | wakeup | signal => cases ha

/-- Only those of its labels have called in a run. -/
theorem idleOutside_of_run {C : State → Act → Prop} (hr : (machine W cp async).Run C .init as s)
    (hF : (as.map Act.pid).toFinset = F) :
    (machine W cp async).Run (fun _ a => a.pid ∈ F) .init as s ∧ IdleOutside F s := by
  have hlabels : (machine W cp async).Run (fun _ a => a.pid ∈ F) .init as s :=
    hr.of_labels fun a ha => by
      rw [← hF, List.mem_toFinset]
      exact List.mem_map_of_mem ha
  exact ⟨hlabels, hlabels.invariant (fun _ _ => rfl) fun _ _ _ hI ha hs => hI.step ha hs⟩

theorem exclusive_and_onPath {C : State → Act → Prop}
    (hr : (machine W cp async).Run C .init as s) : Exclusive s ∧ OnPath s :=
  hr.invariant (I := fun s => Exclusive s ∧ OnPath s) ⟨.init, fun _ => trivial⟩
    fun _ _ _ hI _ hs => ⟨hI.1.step hs, hI.2.step hs⟩

/-- **globalfifo comes to rest.** In every run, the steps of the processes are bounded by the calls,
the signals and the wakeups for no reason; when these stop, the processes come to rest within what
is left of the bound; and a state is at rest just when the mutex is free and whoever has not
returned is asleep in its wait loop. -/
theorem comesToRest {C : State → Act → Prop} (hr : (machine W cp async).Run C .init as s) :
    (∀ bs t, (machine W cp async).Run (fun _ a => a.isRun = true) s bs t →
      as.countP Act.isRun + bs.length ≤ stepBound as) ∧
    (∃ bs t, (machine W cp async).Run (fun _ a => a.isRun = true) s bs t ∧ AtRest t) ∧
    ((∀ a, a.isRun = true → step W cp async s a = none) ↔ AtRest s) := by
  obtain ⟨hlabels, -⟩ := idleOutside_of_run hr rfl
  obtain ⟨hbound, bs, t, hown, ⟨-, hex, hpath⟩, hset⟩ := hlabels.settles
    (I := fun s => IdleOutside (as.map Act.pid).toFinset s ∧ Exclusive s ∧ OnPath s)
    (P := State.potential _) ⟨fun _ _ => rfl, .init, fun _ => trivial⟩
    (fun _ _ _ h ha hs => ⟨h.1.step (ha.elim id fun ha => h.1.mem ha hs) hs, h.2.1.step hs,
      h.2.2.step hs⟩)
    (fun u a u' h ha hs => by
      have hle := step_potential hs (h.1.mem ha hs)
      cases a with
      | run => exact hle
      | call | wakeup | signal => cases ha)
    fun u a u' _ ha hrun hs => by
      have hle := step_potential hs ha
      rwa [hrun, if_neg Bool.false_ne_true] at hle
  have hzero : State.potential (as.map Act.pid).toFinset .init = 0 :=
    Finset.sum_eq_zero fun _ _ => rfl
  rw [sum_cost, hzero, Nat.zero_add] at hbound
  obtain ⟨hex', hpath'⟩ := exclusive_and_onPath hr
  exact ⟨hbound, ⟨bs, t, hown, (settled_iff_atRest_of hex hpath).1 hset⟩,
    settled_iff_atRest_of hex' hpath'⟩

/-- A reader that sleeps, and a writer that has woken it, come to rest in a bounded time. -/
theorem sleepThenWrite_comesToRest :
    ∃ s bs t, (machine .w64 Copier.ascending true).Run Machine.anyStep .init sleepThenWrite s ∧
      (machine .w64 Copier.ascending true).Run (fun _ a => a.isRun = true) s bs t ∧ AtRest t ∧
      11 + bs.length ≤ 46 := by
  have hrun : ((machine .w64 Copier.ascending true).runFrom .init sleepThenWrite).isSome := by
    decide +kernel
  obtain ⟨s, hs⟩ := Option.isSome_iff_exists.1 hrun
  have hr : (machine .w64 Copier.ascending true).Run Machine.anyStep .init sleepThenWrite s :=
    .of_runFrom (fun _ _ _ => trivial) hs
  obtain ⟨hle, ⟨bs, t, hown, hrest⟩, -⟩ := comesToRest hr
  exact ⟨s, bs, t, hr, hown, hrest, hle bs t hown⟩

/-- **At rest, the sleepers wait for one thing**: in a run in which no `FIFO_CLEAR` empties a full
device while a writer is asleep, a state at rest has every call returned, or is empty with reads
asleep only, or is full with writes asleep only. -/
theorem rest_oneSided (h : (machine W cp async).Reach ClearUnwaited s)
    (hset : ∀ a, a.isRun = true → step W cp async s a = none) :
    (∀ p, (s.proc p).pc = .idle) ∨
      (s.dev.currentLen = 0 ∧ ∀ p, (s.proc p).pc = .idle ∨ FastAsleep s .r p) ∨
      (s.dev.currentLen = GLOBALFIFO_SIZE ∧ ∀ p, (s.proc p).pc = .idle ∨ FastAsleep s .w p) := by
  obtain ⟨s₀, as, rfl, hr⟩ := h
  obtain ⟨hex, hpath⟩ := exclusive_and_onPath hr
  obtain ⟨hfree, hprocs⟩ := (settled_iff_atRest_of hex hpath).1 hset
  obtain ⟨-, hattended⟩ : Queued s ∧ ∀ q, Attended s q :=
    hr.invariant (I := fun s => Queued s ∧ ∀ q, Attended s q) ⟨.init, .init⟩
      fun _ _ _ hI hC hs => ⟨hI.1.step hs, fun q => (hI.2 q).step hI.1 (fun _ => hC) hs⟩
  have hnot : ∀ {q p}, FastAsleep s q p → ¬ s.dev.Ready q := fun hp =>
    (hattended _).not_ready hex hfree hp.asleep
  by_cases hempty : s.dev.currentLen = 0
  · refine .inr (.inl ⟨hempty, fun p => (hprocs p).imp_right ?_⟩)
    rintro ⟨q, hq⟩
    cases q with
    | r => exact hq
    | w => exact absurd (by rw [Dev.Ready, hempty]; decide) (hnot hq)
  · by_cases hfull : s.dev.currentLen = GLOBALFIFO_SIZE
    · refine .inr (.inr ⟨hfull, fun p => (hprocs p).imp_right ?_⟩)
      rintro ⟨q, hq⟩
      cases q with
      | r => exact absurd hempty (hnot hq)
      | w => exact hq
    · refine .inl fun p => (hprocs p).resolve_right ?_
      rintro ⟨q, hq⟩
      cases q with
      | r => exact hnot hq hempty
      | w => exact hnot hq hfull

/-- Process `0` fills the device, process `1` polls it, process `2` clears it, and process `3` reads
and sleeps. -/
def polledThenCleared : List Act :=
  .call 0 0 (.write (fun _ => 7) 4096 false) :: List.replicate 9 (.run 0 none) ++
    .call 1 0 .poll :: List.replicate 5 (.run 1 none) ++
      .call 2 0 (.ioctl FIFO_CLEAR) :: List.replicate 5 (.run 2 none) ++
        .call 3 0 (.read 1 false) :: List.replicate 5 (.run 3 none)

/-- A step of one of the processes `0` to `3`, which clears only while none of them is asleep. -/
def clearsAwake (s : State) (a : Act) : Bool :=
  decide (a.pid ∈ Finset.range 4) &&
    decide ((s.proc a.pid).pc = .clear → ∀ r ∈ Finset.range 4, s.task r = .running)

theorem IdleOutside.clearUnwaited {s : State} {a : Act} (h : IdleOutside (Finset.range 4) s)
    (hqueued : Queued s) (hchk : clearsAwake s a = true) : ClearUnwaited s a := by
  cases a with
  | run p limit =>
    intro hpc _ r hr
    have hclear := of_decide_eq_true (Bool.and_eq_true_iff.1 hchk).2 hpc
    by_cases hmem : r ∈ Finset.range 4
    · cases (hclear r hmem).symm.trans hr.2
    · rcases hqueued.sleeping r hr.2 with hpc | hpc <;> cases (h r hmem).symm.trans hpc
  | call | wakeup | signal => trivial

/-- The reader sleeps on at rest, as the device is empty; the poll of the full device, which nobody
has woken, is no matter. -/
theorem polledThenCleared_oneSided :
    ∃ s, (machine .w64 Copier.ascending true).Reach ClearUnwaited s ∧
      (∀ a, a.isRun = true → step .w64 Copier.ascending true s a = none) ∧
      (∃ rec, s.polls 1 = some rec ∧ rec.Lacks .w ∧ rec.wokenOn .w = false) ∧
      (s.proc 3).pc = .schedule ∧ ∀ p, (s.proc p).pc = .idle ∨ FastAsleep s .r p := by
  have hrun : ((machine .w64 Copier.ascending true).runChecked clearsAwake .init
      polledThenCleared).map (fun s => ((s.dev.mutex, s.dev.currentLen),
        (List.range 4).map fun p => (s.proc p).pc, s.task 3, s.sigPending 3,
        decide ((s.proc 3).call.WaitsOn .r), decide ((s.polls 1).map (fun r => (r.mask, r.wokenW)) =
          some (POLLIN ||| POLLRDNORM, false)))) =
      some ((none, 0), [.idle, .idle, .idle, .schedule], .interruptible, false, true, true) := by
    decide +kernel
  obtain ⟨s, hs, hend⟩ := Option.map_eq_some_iff.1 hrun
  obtain ⟨hdev, hend⟩ := Prod.mk.inj hend
  obtain ⟨hmutex, hlen⟩ := Prod.mk.inj hdev
  obtain ⟨hpcs, hend⟩ := Prod.mk.inj hend
  obtain ⟨htask, hend⟩ := Prod.mk.inj hend
  obtain ⟨hsig, hend⟩ := Prod.mk.inj hend
  obtain ⟨hcall, hpolls⟩ := Prod.mk.inj hend
  obtain ⟨rec, hrec, hmask⟩ := Option.map_eq_some_iff.1 (of_decide_eq_true hpolls)
  obtain ⟨hr, hidle, -⟩ := @Machine.Run.of_checked _ _ (machine .w64 Copier.ascending true)
    ClearUnwaited (fun s => IdleOutside (Finset.range 4) s ∧ Queued s) clearsAwake
    (fun s a hI hchk => hI.1.clearUnwaited hI.2 hchk)
    (fun s a _ hI hchk hs =>
      ⟨hI.1.step (of_decide_eq_true (Bool.and_eq_true_iff.1 hchk).1) hs, hI.2.step hs⟩)
    _ _ _ ⟨fun _ _ => rfl, .init⟩ hs
  obtain ⟨hex, hpath⟩ := exclusive_and_onPath hr
  obtain ⟨hzero, hone, htwo, hpc⟩ : (s.proc 0).pc = .idle ∧ (s.proc 1).pc = .idle ∧
      (s.proc 2).pc = .idle ∧ (s.proc 3).pc = .schedule := by
    simpa [List.range_succ] using hpcs
  have hasleep : FastAsleep s .r 3 := ⟨⟨of_decide_eq_true hcall, htask⟩, hpc, hsig⟩
  have hrest : AtRest s := by
    refine ⟨hmutex, fun p => ?_⟩
    match p with
    | 0 => exact .inl hzero
    | 1 => exact .inl hone
    | 2 => exact .inl htwo
    | 3 => exact .inr ⟨.r, hasleep⟩
    | p + 4 => exact .inl (hidle (p + 4) (by simp))
  have hset : (machine .w64 Copier.ascending true).Settled Act.isRun s :=
    (settled_iff_atRest_of hex hpath).2 hrest
  obtain ⟨hmask, hwoken⟩ := Prod.mk.inj hmask
  refine ⟨s, ⟨_, _, rfl, hr⟩, hset, ⟨rec, hrec, ?_, hwoken⟩, hpc, ?_⟩
  · rw [Poll.Lacks, hmask]
    decide
  · rcases rest_oneSided ⟨_, _, rfl, hr⟩ hset with hall | ⟨-, hreads⟩ | ⟨hfull, -⟩
    · cases (hall 3).symm.trans hasleep.schedule
    · exact hreads
    · exact absurd (hlen.symm.trans hfull) (by decide)

end

end LinuxTraining.Globalfifo
