import LinuxTraining.Globalfifo.Wakeup

/-!
# Lock and task-state discipline

Whoever does not hold `dev->mutex` takes its step without a look at `current_len` and `mem`
(`procStep_blind`), and a process is `TASK_INTERRUPTIBLE` only between the loop's
`__set_current_state` and the end of `schedule` (`Drowsy.step`). With the exclusion of the mutex
this is the discipline of the driver (`disciplined_of_reach`), whatever the schedule and whichever
exits the calls take.
-/

namespace LinuxTraining.Globalfifo

open Lib

/-- The points whose step is a `mutex_unlock`. -/
def Pc.Unlocks (pc : Pc) : Prop := pc = .unlock1 ∨ pc = .out

/-- The points whose step is a `mutex_lock`. -/
def Pc.Locks (pc : Pc) : Prop := pc = .lock ∨ pc = .relock

/-- The device with another `current_len` and other contents of `mem`. -/
def Dev.withData (d : Dev) (n : Nat) (m : Mem Byte) : Dev := { d with currentLen := n, mem := m }

/-- The same effect, on a device with other data. -/
def Effect.withData (n : Nat) (m : Mem Byte) (e : Effect) : Effect :=
  { e with dev := e.dev.withData n m }

/-- The discipline, in one state: `mutex_unlock` is executed by the holder, the data is read and
written by the holder, `schedule` and `mutex_lock` are not called by the holder, and a call returns
without the mutex and as `TASK_RUNNING`. -/
structure Disciplined (W : LongWidth) (cp : Copier Byte) (async : Bool) (s : State) : Prop where
  unlock : ∀ p, (s.proc p).pc.Unlocks → s.dev.mutex = some p
  give : ∀ p a s', s.dev.mutex = some p → step W cp async s a = some s' →
    s'.dev.mutex ≠ some p → a.pid = p
  data : ∀ p, s.dev.mutex ≠ some p → ∀ limit n m,
    procStep W cp async (s.dev.withData n m) p (s.proc p) (s.task p) (s.sigPending p) limit =
      (procStep W cp async s.dev p (s.proc p) (s.task p) (s.sigPending p) limit).map
        (Effect.withData n m)
  schedule : ∀ p, (s.proc p).pc = .schedule → s.dev.mutex ≠ some p
  lock : ∀ p, (s.proc p).pc.Locks → s.dev.mutex ≠ some p
  ret : ∀ p, (s.proc p).pc = .ret → s.dev.mutex ≠ some p ∧ s.task p = .running

section
variable {W : LongWidth} {cp : Copier Byte} {async : Bool} {c : RwCode} {d : Dev} {p : Nat}
  {x : Proc} {task : TaskState} {sig : Bool} {limit : Option Fault} {e : Effect}

/-! ## The data -/

theorem mutexLock_blind (next : Pc) (n : Nat) (m : Mem Byte) :
    mutexLock (d.withData n m) p x next = (mutexLock d p x next).map (Effect.withData n m) := by
  obtain ⟨len, mem, mutex, r, w, queue⟩ := d
  cases mutex <;> rfl

/-- A step of a read or a write by a process that does not hold the mutex. -/
theorem rwStep_blind (hx : ¬ x.pc.Holding) (n : Nat) (m : Mem Byte) :
    rwStep c (d.withData n m) p x task sig limit =
      (rwStep c d p x task sig limit).map (Effect.withData n m) := by
  obtain ⟨call, file, pc, res⟩ := x
  cases pc with
  | lock => exact mutexLock_blind .addWait n m
  | relock => exact mutexLock_blind .test n m
  | schedule =>
    simp only [rwStep]
    split <;> rfl
  | sigTest =>
    simp only [rwStep]
    split <;> rfl
  | out2 =>
    show some _ = some _
    cases c.removesFrom <;> rfl
  | setRunning => rfl
  | addWait | test | setState | unlock1 | copy | wake | killFasync | out | clear | pollWait
  | mask => exact absurd trivial hx
  | idle | ret | switch | fasync => rfl

/-- **Who does not hold the mutex does not touch the data**: the step neither depends on it nor
changes it. -/
theorem procStep_blind (hx : ¬ x.pc.Holding) (n : Nat) (m : Mem Byte) :
    procStep W cp async (d.withData n m) p x task sig limit =
      (procStep W cp async d p x task sig limit).map (Effect.withData n m) := by
  unfold procStep
  split
  · rfl
  · rfl
  · unfold callStep
    split
    · exact rwStep_blind hx n m
    · exact rwStep_blind hx n m
    · obtain ⟨call, file, pc, res⟩ := x
      cases pc with
      | switch =>
        simp only [globalfifoIoctl]
        split <;> rfl
      | lock => exact mutexLock_blind .clear n m
      | clear | out => exact absurd trivial hx
      | _ => rfl
    · obtain ⟨call, file, pc, res⟩ := x
      cases pc with
      | lock => exact mutexLock_blind .pollWait n m
      | pollWait | mask | out => exact absurd trivial hx
      | _ => rfl
    · obtain ⟨call, file, pc, res⟩ := x
      cases pc <;> rfl
    · obtain ⟨call, file, pc, res⟩ := x
      cases pc <;> rfl

/-! ## The task state -/

/-- A process is drowsy only between `__set_current_state` and the end of `schedule`. -/
def Drowsy (s : State) : Prop :=
  ∀ p, s.task p = .interruptible → (s.proc p).pc = .unlock1 ∨ (s.proc p).pc = .schedule

/-- What a step does to the task state of its process: it sets it where the loop does, and a step
out of the two points after that is to `schedule`, or ends the sleep. -/
structure TaskStep (x : Proc) (e : Effect) : Prop where
  sleeps : e.also = .setState .interruptible → e.proc.pc = .unlock1
  unlock1 : x.pc = .unlock1 → e.proc.pc = .schedule
  schedule : x.pc = .schedule → e.also = .setState .running

/-- A step from elsewhere that does not set `TASK_INTERRUPTIBLE`. -/
theorem TaskStep.awake (hx : x.pc ≠ .unlock1 ∧ x.pc ≠ .schedule)
    (he : e.also ≠ .setState .interruptible) : TaskStep x e :=
  ⟨fun h => absurd h he, fun h => absurd h hx.1, fun h => absurd h hx.2⟩

theorem mutexLock_also {next : Pc} (h : mutexLock d p x next = some e) : e.also = .nothing := by
  obtain ⟨-, rfl⟩ := mutexLock_eq_some h
  rfl

/-- A step of a read or a write. -/
theorem rwStep_task (h : rwStep c d p x task sig limit = some e) : TaskStep x e := by
  cases rwStep_rule h with
  | setState => exact ⟨fun _ => rfl, by simp, by simp⟩
  | unlock1 => exact ⟨by simp, fun _ => rfl, by simp⟩
  | schedule => exact ⟨by simp, by simp, fun _ => rfl⟩
  | lock | addWait | again | sleep | pass | interrupted | retry | relock | copied | fault | wake
  | wakeKill | killFasync | out | out2 | setRunning => exact .awake (by simp) (by simp)

/-- The task state at a step of a process. -/
theorem procStep_task (h : procStep W cp async d p x task sig limit = some e) : TaskStep x e := by
  unfold procStep at h
  split at h
  · cases h
  · next hpc =>
    cases h
    exact .awake (by simp [hpc]) (by simp)
  · unfold callStep at h
    split at h
    · exact rwStep_task h
    · exact rwStep_task h
    · unfold globalfifoIoctl at h
      split at h
      · next hpc =>
        split at h
        · cases h; exact .awake (by simp [hpc]) (by simp)
        · cases h; exact .awake (by simp [hpc]) (by simp)
      · next hpc => exact .awake (by simp [hpc]) (by rw [mutexLock_also h]; simp)
      · next hpc => cases h; exact .awake (by simp [hpc]) (by simp)
      · next hpc => cases h; exact .awake (by simp [hpc]) (by simp)
      · cases h
    · unfold globalfifoPoll at h
      split at h
      · next hpc => exact .awake (by simp [hpc]) (by rw [mutexLock_also h]; simp)
      · next hpc => cases h; exact .awake (by simp [hpc]) (by simp)
      · next hpc => cases h; exact .awake (by simp [hpc]) (by simp)
      · next hpc => cases h; exact .awake (by simp [hpc]) (by simp)
      · cases h
    · unfold globalfifoFasync at h
      split at h
      · next hpc => cases h; exact .awake (by simp [hpc]) (by simp)
      · cases h
    · unfold globalfifoRelease at h
      split at h
      · next hpc => cases h; exact .awake (by simp [hpc]) (by simp)
      · cases h

/-! ## Runs -/

variable {s s' : State} {a : Act}

/-- Each step keeps the processes awake outside the loop's sleep. -/
theorem Drowsy.step (h : Drowsy s) (hs : step W cp async s a = some s') : Drowsy s' := by
  cases a with
  | call p file call =>
    simp only [Globalfifo.step] at hs
    split at hs
    · next hidle =>
      cases hs
      intro r hr
      rcases eq_or_ne r p with rfl | hne
      · rcases h r hr with hpc | hpc <;> cases hidle.symm.trans hpc
      · simp only [Function.update_of_ne hne]
        exact h r hr
    · cases hs
  | run p limit =>
    obtain ⟨e, he, rfl⟩ := Option.map_eq_some_iff.1 hs
    have ht := procStep_task he
    intro r hr
    rw [State.put_proc]
    rcases task_put hr with ⟨hold, -, hnot⟩ | ⟨rfl, hset⟩
    · rcases eq_or_ne r p with rfl | hne
      · rw [Function.update_self]
        rcases h r hold with hpc | hpc
        · exact .inr (ht.unlock1 hpc)
        · exact absurd (ht.schedule hpc) (hnot rfl)
      · rw [Function.update_of_ne hne]
        exact h r hold
    · rw [Function.update_self]
      exact .inl (ht.sleeps hset)
  | wakeup p =>
    cases hs
    intro r hr
    rcases eq_or_ne r p with rfl | hne
    · simp at hr
    · exact h r (by simpa [hne] using hr)
  | signal p =>
    cases hs
    intro r hr
    rcases eq_or_ne r p with rfl | hne
    · simp at hr
    · exact h r (by simpa [hne] using hr)

theorem Drowsy.init : Drowsy .init := by
  intro p hp
  cases hp

/-- The mutex passes from a process only at its own step. -/
theorem step_give (hex : Exclusive s) {q : Nat} (hq : s.dev.mutex = some q)
    (hs : step W cp async s a = some s') (hnot : s'.dev.mutex ≠ some q) : a.pid = q := by
  cases a with
  | call p file call =>
    simp only [Globalfifo.step] at hs
    split at hs
    · cases hs; exact absurd hq hnot
    · cases hs
  | run p limit =>
    obtain ⟨e, he, rfl⟩ := Option.map_eq_some_iff.1 hs
    rw [State.put_dev] at hnot
    rcases procStep_mutex he with ⟨-, hfree, -⟩ | ⟨hx, -⟩ | ⟨hsame, -⟩
    · cases hfree.symm.trans hq
    · exact Option.some.inj (((hex p).1 hx).symm.trans hq)
    · exact absurd (hsame.trans hq) hnot
  | wakeup p => cases hs; exact absurd hq hnot
  | signal p => cases hs; exact absurd hq hnot

/-- The discipline in a state whose mutex is exclusive and whose processes are awake. -/
theorem disciplined_of_exclusive (hex : Exclusive s) (hd : Drowsy s) :
    Disciplined W cp async s := by
  have hout : ∀ p, ¬ (s.proc p).pc.Holding → s.dev.mutex ≠ some p :=
    fun p hp hm => hp ((hex p).2 hm)
  refine ⟨?_, ?_, ?_, ?_, ?_, ?_⟩
  · intro p hp
    refine (hex p).1 ?_
    rcases hp with hp | hp
    · rw [hp]; trivial
    · rw [hp]; trivial
  · intro p a s' hp hs hnot
    exact step_give hex hp hs hnot
  · intro p hp limit n m
    exact procStep_blind (fun hx => hp ((hex p).1 hx)) n m
  · intro p hp
    exact hout p (by rw [hp]; exact id)
  · intro p hp
    rcases hp with hp | hp
    · exact hout p (by rw [hp]; exact id)
    · exact hout p (by rw [hp]; exact id)
  · intro p hp
    refine ⟨hout p (by rw [hp]; exact id), ?_⟩
    cases ht : s.task p with
    | running => rfl
    | interruptible =>
      rcases hd p ht with hpc | hpc
      · cases hp.symm.trans hpc
      · cases hp.symm.trans hpc

/-- **The discipline holds in every reachable state**: any number of processes, any calls, any
schedule, signals and wakeups at any time, user copies that fault anywhere. -/
theorem disciplined_of_reach (h : (machine W cp async).Reach Machine.anyStep s) :
    Disciplined W cp async s := by
  obtain ⟨hex, hd⟩ : Exclusive s ∧ Drowsy s := by
    refine h.invariant (I := fun s => Exclusive s ∧ Drowsy s) ?_ ?_
    · rintro s rfl
      exact ⟨.init, .init⟩
    · intro s a s' hI _ hs
      exact ⟨hI.1.step hs, hI.2.step hs⟩
  exact disciplined_of_exclusive hex hd

end

/-- A process gets the mutex, finds no data, sleeps and is interrupted by a signal. -/
def interruptedRead : List Act :=
  .call 0 0 (.read 1 false) :: List.replicate 5 (.run 0 none) ++
    .signal 0 :: List.replicate 4 (.run 0 none)

/-- The interrupted call returns with `-ERESTARTSYS`, without the mutex and running. -/
theorem interruptedRead_disciplined :
    ∃ s, (machine .w64 Copier.ascending true).Reach Machine.anyStep s ∧
      (s.proc 0).pc = .ret ∧ (s.proc 0).res.ret = -ERESTARTSYS ∧
      Disciplined .w64 Copier.ascending true s := by
  have hend : ((machine .w64 Copier.ascending true).runFrom .init interruptedRead).map
      (fun s => ((s.proc 0).pc, (s.proc 0).res.ret)) = some (.ret, -ERESTARTSYS) := by
    decide +kernel
  obtain ⟨s, hs, hend⟩ := Option.map_eq_some_iff.1 hend
  obtain ⟨hpc, hres⟩ := Prod.mk.inj hend
  have hreach : (machine .w64 Copier.ascending true).Reach Machine.anyStep s :=
    ⟨_, _, rfl, .of_runFrom (fun _ _ _ => trivial) hs⟩
  exact ⟨s, hreach, hpc, hres, disciplined_of_reach hreach⟩

end LinuxTraining.Globalfifo
