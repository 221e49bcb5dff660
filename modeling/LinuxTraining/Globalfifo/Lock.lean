import LinuxTraining.Globalfifo.Driver

/-!
# `dev->mutex`

At every step a process takes the mutex, gives it back or leaves it (`procStep_mutex`), so in every
reachable state the mutex names exactly the process that is between a `mutex_lock` and the next
`mutex_unlock` (`Exclusive.step`).
-/

namespace LinuxTraining.Globalfifo

open Lib

/-- The program points between `mutex_lock` and `mutex_unlock`. -/
def Pc.Holding : Pc → Prop
  | .addWait | .test | .setState | .unlock1 | .copy | .wake | .killFasync | .out | .clear
  | .pollWait | .mask => True
  | .idle | .lock | .schedule | .sigTest | .relock | .out2 | .setRunning | .ret | .switch
  | .fasync => False

/-- The mutex names exactly the process that is past its `mutex_lock`. -/
def Exclusive (s : State) : Prop := ∀ p, (s.proc p).pc.Holding ↔ s.dev.mutex = some p

/-- The mutex names at most one process. -/
theorem Exclusive.eq {s : State} (h : Exclusive s) {p q : Nat} (hp : (s.proc p).pc.Holding)
    (hq : (s.proc q).pc.Holding) : p = q :=
  Option.some.inj (((h p).1 hp).symm.trans ((h q).1 hq))

section
variable {W : LongWidth} {cp : Copier Byte} {async : Bool} {c : RwCode} {d : Dev} {p : Nat}
  {x : Proc} {task : TaskState} {sig : Bool} {limit : Option Fault} {e : Effect}

/-- What the step of process `p` at `x` does to the mutex. -/
inductive MutexStep (d : Dev) (p : Nat) (x : Proc) (e : Effect) : Prop
  | take : ¬ x.pc.Holding → d.mutex = none → e.dev.mutex = some p → e.proc.pc.Holding →
      MutexStep d p x e
  | give : x.pc.Holding → e.dev.mutex = none → ¬ e.proc.pc.Holding → MutexStep d p x e
  | leave : e.dev.mutex = d.mutex → (e.proc.pc.Holding ↔ x.pc.Holding) → MutexStep d p x e

theorem mutexLock_mutex {next : Pc} (h : mutexLock d p x next = some e) (hx : ¬ x.pc.Holding)
    (hn : next.Holding) : MutexStep d p x e := by
  obtain ⟨hfree, rfl⟩ := mutexLock_eq_some h
  exact .take hx hfree rfl hn

theorem mutexUnlock_mutex {next : Pc} (h : mutexUnlock d x next = some e) (hx : x.pc.Holding)
    (hn : ¬ next.Holding) : MutexStep d p x e := by
  cases h
  exact .give hx rfl hn

/-- The copy of a read or a write changes the length and the buffer only. -/
def RwCode.Framed (c : RwCode) : Prop :=
  ∀ d limit, ∃ n m, (c.copy d limit).dev = { d with currentLen := n, mem := m }

theorem globalfifoRead_framed {count : Nat} {nonblock : Bool} :
    (globalfifoRead W cp count nonblock).Framed := by
  intro d limit
  change ∃ n m, (readCopy W cp count d limit).dev = _
  unfold readCopy
  dsimp only
  split
  · exact ⟨d.currentLen, d.mem, rfl⟩
  · exact ⟨_, _, rfl⟩

theorem globalfifoWrite_framed {buf : Mem Byte} {count : Nat} {nonblock : Bool} :
    (globalfifoWrite W async buf count nonblock).Framed := by
  intro d limit
  change ∃ n m, (writeCopy W buf count d limit).dev = _
  unfold writeCopy
  dsimp only
  split
  · exact ⟨d.currentLen, _, rfl⟩
  · exact ⟨_, _, rfl⟩

theorem addWaitQueue_mutex (d : Dev) (q : WaitQueue) (p : Nat) :
    (d.addWaitQueue q p).mutex = d.mutex := by cases q <;> rfl

theorem removeWaitQueue_mutex (d : Dev) (q : WaitQueue) (p : Nat) :
    (d.removeWaitQueue q p).mutex = d.mutex := by cases q <;> rfl

/-- A step of a read or a write. -/
theorem rwStep_mutex (hc : c.Framed) (h : rwStep c d p x task sig limit = some e) :
    MutexStep d p x e := by
  cases rwStep_rule h with
  | lock hfree | relock hfree => exact .take id hfree rfl trivial
  | unlock1 | out => exact .give trivial rfl id
  | addWait => exact .leave (addWaitQueue_mutex ..) .rfl
  | out2 => exact .leave (removeWaitQueue_mutex ..) .rfl
  | copied | fault =>
    obtain ⟨n, m, he⟩ := hc d limit
    exact .leave (by rw [he]) .rfl
  | again | sleep | pass | setState | schedule | interrupted | retry | wake | wakeKill | killFasync
  | setRunning => exact .leave rfl .rfl

/-- A step of an `ioctl`. -/
theorem globalfifoIoctl_mutex {cmd : Nat} (h : globalfifoIoctl cmd d p x = some e) :
    MutexStep d p x e := by
  obtain ⟨call, file, pc, res⟩ := x
  cases pc with
  | switch =>
    simp only [globalfifoIoctl] at h
    split at h
    · cases h; exact .leave rfl .rfl
    · cases h; exact .leave rfl .rfl
  | lock => exact mutexLock_mutex h id trivial
  | clear => cases h; exact .leave rfl .rfl
  | out => exact mutexUnlock_mutex h trivial id
  | _ => cases h

/-- A step of a poll. -/
theorem globalfifoPoll_mutex (h : globalfifoPoll d p x = some e) : MutexStep d p x e := by
  obtain ⟨call, file, pc, res⟩ := x
  cases pc with
  | lock => exact mutexLock_mutex h id trivial
  | pollWait => cases h; exact .leave rfl .rfl
  | mask => cases h; exact .leave rfl .rfl
  | out => exact mutexUnlock_mutex h trivial id
  | _ => cases h

/-- **The mutex at a step of a process.** -/
theorem procStep_mutex (h : procStep W cp async d p x task sig limit = some e) :
    MutexStep d p x e := by
  unfold procStep at h
  split at h
  · cases h
  · next hpc =>
    cases h
    exact .leave rfl (by rw [hpc]; exact .rfl)
  · unfold callStep at h
    split at h
    · exact rwStep_mutex globalfifoRead_framed h
    · exact rwStep_mutex globalfifoWrite_framed h
    · exact globalfifoIoctl_mutex h
    · exact globalfifoPoll_mutex h
    · obtain ⟨call, file, pc, res⟩ := x
      cases pc with
      | fasync => cases h; exact .leave rfl .rfl
      | _ => cases h
    · obtain ⟨call, file, pc, res⟩ := x
      cases pc with
      | fasync => cases h; exact .leave rfl .rfl
      | _ => cases h

/-- A step keeps the call and the file of its process. -/
theorem procStep_call (h : procStep W cp async d p x task sig limit = some e) :
    e.proc.call = x.call ∧ e.proc.file = x.file := by
  have hlock : ∀ {next : Pc}, mutexLock d p x next = some e →
      e.proc.call = x.call ∧ e.proc.file = x.file := by
    intro next hl
    obtain ⟨-, rfl⟩ := mutexLock_eq_some hl
    exact ⟨rfl, rfl⟩
  have hrw : ∀ {c : RwCode}, rwStep c d p x task sig limit = some e →
      e.proc.call = x.call ∧ e.proc.file = x.file := by
    intro c hr
    cases rwStep_rule hr <;> exact ⟨rfl, rfl⟩
  unfold procStep at h
  split at h
  · cases h
  · cases h; exact ⟨rfl, rfl⟩
  · unfold callStep at h
    split at h
    · exact hrw h
    · exact hrw h
    · unfold globalfifoIoctl at h
      split at h
      · split at h <;> cases h <;> exact ⟨rfl, rfl⟩
      · exact hlock h
      · cases h; exact ⟨rfl, rfl⟩
      · cases h; exact ⟨rfl, rfl⟩
      · cases h
    · unfold globalfifoPoll at h
      split at h
      · exact hlock h
      · cases h; exact ⟨rfl, rfl⟩
      · cases h; exact ⟨rfl, rfl⟩
      · cases h; exact ⟨rfl, rfl⟩
      · cases h
    · unfold globalfifoFasync at h
      split at h <;> cases h
      exact ⟨rfl, rfl⟩
    · unfold globalfifoRelease at h
      split at h <;> cases h
      exact ⟨rfl, rfl⟩

/-! ## The machine -/

/-- A call starts outside the critical section. -/
theorem Call.entry_not_holding (c : Call) : ¬ c.entry.Holding := by
  cases c <;> exact id

/-- Each step keeps the mutex exclusive. -/
theorem Exclusive.step {s s' : State} {a : Act} (h : Exclusive s)
    (hs : step W cp async s a = some s') : Exclusive s' := by
  intro q
  cases a with
  | call p file c =>
    simp only [Globalfifo.step] at hs
    split at hs
    · next hidle =>
      cases hs
      rcases eq_or_ne q p with rfl | hne
      · have hout : s.dev.mutex ≠ some q := by
          intro hm
          have hh := (h q).2 hm
          rw [hidle] at hh
          exact hh
        simp only [Function.update_self, hout, iff_false]
        exact c.entry_not_holding
      · simp only [Function.update_of_ne hne]
        exact h q
    · cases hs
  | run p limit =>
    obtain ⟨e, he, rfl⟩ := Option.map_eq_some_iff.1 hs
    rw [State.put_dev, State.put_proc]
    rcases procStep_mutex he with ⟨hx, hfree, htake, hhold⟩ | ⟨hx, hgive, hhold⟩ | ⟨hsame, hiff⟩
    · rcases eq_or_ne q p with rfl | hne
      · simp only [Function.update_self, hhold, htake]
      · have hq := h q
        rw [hfree] at hq
        simp only [Function.update_of_ne hne, htake, hq, Option.some.injEq, Ne.symm hne]
        simp
    · rcases eq_or_ne q p with rfl | hne
      · simp only [Function.update_self, hhold, hgive, false_iff]
        simp
      · have hq : ¬ (s.proc q).pc.Holding := fun hh => hne (h.eq hh hx)
        simp only [Function.update_of_ne hne, hq, hgive, false_iff]
        simp
    · rw [hsame]
      rcases eq_or_ne q p with rfl | hne
      · rw [Function.update_self]
        exact hiff.trans (h q)
      · rw [Function.update_of_ne hne]
        exact h q
  | wakeup p => cases hs; exact h q
  | signal p => cases hs; exact h q

/-- The mutex is exclusive when no process is in a call. -/
theorem Exclusive.init : Exclusive .init := fun _ => ⟨fun h => absurd h id, fun h => nomatch h⟩

end

end LinuxTraining.Globalfifo
