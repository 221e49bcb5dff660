import LinuxTraining.Globalfifo.Lock

/-!
# Wakeups

A process that sleeps in `globalfifo_read` waits on `r_wait` for the queue to become readable, and
one that sleeps in `globalfifo_write` waits on `w_wait` for it to become writable. A copy that makes
the device readable or writable is followed by the wakeup before the mutex is given back.
`FIFO_CLEAR` makes a full device writable and wakes nobody: `noMissedWakeup_of_clearSafe` is the
absence of missed wakeups where no clear does so while somebody waits, and
`clear_missesWakeup` is a run in which one does.
-/

namespace LinuxTraining.Globalfifo

open Lib

/-- What the processes on a queue wait for: `r_wait` for data, `w_wait` for room. -/
def Dev.Ready (d : Dev) : WaitQueue → Prop
  | .r => d.currentLen ≠ 0
  | .w => d.currentLen ≠ GLOBALFIFO_SIZE

/-- The call waits on the queue. -/
def Call.WaitsOn : Call → WaitQueue → Prop
  | .read _ _, q => q = .r
  | .write _ _ _, q => q = .w
  | _, _ => False

instance (c : Call) (q : WaitQueue) : Decidable (c.WaitsOn q) :=
  match c with
  | .read _ _ => inferInstanceAs (Decidable (q = .r))
  | .write _ _ _ => inferInstanceAs (Decidable (q = .w))
  | .ioctl _ | .poll | .fasync _ | .release => .isFalse id

/-- The call wakes the queue when its copy is complete. -/
def Call.Wakes : Call → WaitQueue → Prop
  | .read _ _, q => q = .w
  | .write _ _ _, q => q = .r
  | _, _ => False

/-- The mask of a poll lacks the bit of the queue: `POLLIN` for `r_wait`, `POLLOUT` for `w_wait`. -/
def Poll.Lacks (r : Poll) : WaitQueue → Prop
  | .r => r.mask &&& POLLIN = 0
  | .w => r.mask &&& POLLOUT = 0

/-- A wakeup on the queue has happened since the poll. -/
def Poll.wokenOn (r : Poll) : WaitQueue → Bool
  | .r => r.wokenR
  | .w => r.wokenW

/-- The process is asleep in the wait loop of a call that waits on the queue. -/
def AsleepOn (s : State) (q : WaitQueue) (p : Nat) : Prop :=
  (s.proc p).call.WaitsOn q ∧ s.task p = .interruptible

/-- No missed wakeup: while the mutex is free, nobody is asleep on a queue whose condition holds,
and every poller that did not see the condition has been woken if it holds now. -/
structure NoMissedWakeup (s : State) : Prop where
  asleep : s.dev.mutex = none → ∀ q p, AsleepOn s q p → ¬ s.dev.Ready q
  polled : s.dev.mutex = none → ∀ q p r, s.polls p = some r → r.Lacks q →
    ¬ (Poll.mk (pollMask s.dev.currentLen) false false).Lacks q → r.wokenOn q = true

/-- The condition on a step: a clear of a full device finds no writer asleep. -/
def ClearUnwaited (s : State) : Act → Prop
  | .run p _ => (s.proc p).pc = .clear → s.dev.currentLen = GLOBALFIFO_SIZE → ∀ r, ¬ AsleepOn s .w r
  | _ => True

/-- The condition on a step: a clear of a full device finds no writer asleep, and no poller that
lacks `POLLOUT` and has not been woken since. -/
def ClearSafe (s : State) : Act → Prop
  | .run p _ => (s.proc p).pc = .clear → s.dev.currentLen = GLOBALFIFO_SIZE →
      (∀ r, ¬ AsleepOn s .w r) ∧
      ∀ r rec, s.polls r = some rec → rec.Lacks .w → rec.wokenOn .w = true
  | _ => True

/-! ## One step -/

/-- The program points between `add_wait_queue` and `remove_wait_queue`. -/
def Pc.Entered : Pc → Prop
  | .test | .setState | .unlock1 | .schedule | .sigTest | .relock | .copy | .wake | .killFasync
  | .out | .out2 => True
  | .idle | .lock | .addWait | .setRunning | .ret | .switch | .clear | .pollWait | .mask
  | .fasync => False

/-- The points whose step neither wakes a queue nor is part of the sleep. -/
def Pc.Plain : Pc → Prop
  | .wake | .unlock1 | .schedule => False
  | _ => True

/-- A step does nothing to the task states, the queues and the polls. -/
def Also.Silent : Also → Prop
  | .nothing | .killFasync | .returned => True
  | .setState _ | .wakeUp _ | .polled _ => False

/-- What the loop's test has found stays true while the process holds the mutex. -/
def Proc.Steady (d : Dev) (x : Proc) : Prop :=
  match x.pc with
  | .setState => ∀ q, x.call.WaitsOn q → ¬ d.Ready q
  | .copy => ∀ q, x.call.WaitsOn q → d.Ready q
  | _ => True

/-- A process is about to wake the queue. -/
def Pending (s : State) (q : WaitQueue) : Prop :=
  ∃ p, (s.proc p).pc = .wake ∧ (s.proc p).call.Wakes q

/-- What a step of process `p` at `x` does to the conditions, the queues and the task states. -/
structure WakeStep (d : Dev) (p : Nat) (x : Proc) (e : Effect) : Prop where
  call : e.proc.call = x.call
  ready : ∀ q, e.dev.Ready q →
    d.Ready q ∨ (e.proc.pc = .wake ∧ x.call.Wakes q) ∨ (x.pc = .clear ∧ q = .w)
  same : ¬ x.pc.Holding → e.dev.currentLen = d.currentLen
  wake : x.pc = .wake → ∀ q, x.call.Wakes q → e.also = .wakeUp q
  waiters : ∀ q r, r ≠ p → r ∈ d.waiters q → r ∈ e.dev.waiters q
  entered : ∀ q, x.call.WaitsOn q → e.proc.pc.Entered → p ∈ e.dev.waiters q
  steady : e.proc.Steady e.dev
  sleeps : e.also = .setState .interruptible →
    e.proc.pc = .unlock1 ∧ ∀ q, x.call.WaitsOn q → ¬ e.dev.Ready q
  unlock1 : x.pc = .unlock1 → e.proc.pc = .schedule
  schedule : x.pc = .schedule → e.also = .setState .running
  polled : ∀ mask, e.also = .polled mask → mask = pollMask e.dev.currentLen

/-- The values that a read or a write fills into the common shape, in terms of the queues. -/
structure RwCode.Fits (c : RwCode) (call : Call) : Prop where
  framed : c.Framed
  waits : ∀ q, call.WaitsOn q ↔ q = c.addsTo
  wakes : ∀ q, call.Wakes q ↔ q = c.wakes
  queues : ∀ q, q = c.addsTo ∨ q = c.wakes
  blocked : ∀ d, c.blocked d = true ↔ ¬ d.Ready c.addsTo
  fault : ∀ d limit, (c.copy d limit).ok = false → (c.copy d limit).dev.currentLen = d.currentLen

section
variable {W : LongWidth} {cp : Copier Byte} {async : Bool} {c : RwCode} {d : Dev} {p : Nat}
  {x : Proc} {task : TaskState} {sig : Bool} {limit : Option Fault} {e : Effect}

theorem globalfifoRead_fits {count : Nat} {nonblock : Bool} :
    (globalfifoRead W cp count nonblock).Fits (.read count nonblock) where
  framed := globalfifoRead_framed
  waits _ := .rfl
  wakes _ := .rfl
  queues q := by cases q <;> simp [globalfifoRead]
  blocked d := by simp [globalfifoRead, Dev.Ready]
  fault d limit h := by
    change (readCopy W cp count d limit).ok = false at h
    change (readCopy W cp count d limit).dev.currentLen = d.currentLen
    unfold readCopy at h ⊢
    dsimp only at h ⊢
    split at h
    · next hleft => rw [if_pos hleft]
    · cases h

theorem globalfifoWrite_fits {buf : Mem Byte} {count : Nat} {nonblock : Bool} :
    (globalfifoWrite W async buf count nonblock).Fits (.write buf count nonblock) where
  framed := globalfifoWrite_framed
  waits _ := .rfl
  wakes _ := .rfl
  queues q := by cases q <;> simp [globalfifoWrite]
  blocked d := by simp [globalfifoWrite, Dev.Ready]
  fault d limit h := by
    change (writeCopy W buf count d limit).ok = false at h
    change (writeCopy W buf count d limit).dev.currentLen = d.currentLen
    unfold writeCopy at h ⊢
    dsimp only at h ⊢
    split at h
    · next hleft => rw [if_pos hleft]
    · cases h

/-- The queues of a device whose length changes. -/
theorem Dev.Ready.of_eq {d d' : Dev} {q : WaitQueue} (h : d'.Ready q)
    (he : d'.currentLen = d.currentLen) : d.Ready q := by
  cases q with
  | r => exact fun h0 => h (he.trans h0)
  | w => exact fun h0 => h (he.trans h0)

/-! ### Rules for the kinds of steps -/

theorem Pc.Plain.ne {pc : Pc} (h : pc.Plain) : pc ≠ .wake ∧ pc ≠ .unlock1 ∧ pc ≠ .schedule := by
  refine ⟨?_, ?_, ?_⟩ <;> rintro rfl <;> exact h

theorem Also.Silent.ne {a : Also} (h : a.Silent) :
    (∀ t, a ≠ .setState t) ∧ ∀ mask, a ≠ .polled mask := by
  refine ⟨?_, ?_⟩ <;> rintro _ rfl <;> exact h

/-- A step that does nothing to the task states, the queues and the polls. -/
theorem WakeStep.silent (hcall : e.proc.call = x.call)
    (hready : ∀ q, e.dev.Ready q →
      d.Ready q ∨ (e.proc.pc = .wake ∧ x.call.Wakes q) ∨ (x.pc = .clear ∧ q = .w))
    (hsame : ¬ x.pc.Holding → e.dev.currentLen = d.currentLen)
    (hw : ∀ q r, r ≠ p → r ∈ d.waiters q → r ∈ e.dev.waiters q)
    (hent : ∀ q, x.call.WaitsOn q → e.proc.pc.Entered → p ∈ e.dev.waiters q)
    (hsteady : e.proc.Steady e.dev) (halso : e.also.Silent)
    (hpc : x.pc.Plain ∨ x.pc = .unlock1 ∧ e.proc.pc = .schedule) : WakeStep d p x e := by
  refine ⟨hcall, hready, hsame, fun h => ?_, hw, hent, hsteady,
    fun h => absurd h (halso.ne.1 _), fun h => ?_, fun h => ?_,
    fun mask h => absurd h (halso.ne.2 mask)⟩
  · rcases hpc with hpc | ⟨hpc, -⟩
    · exact absurd h hpc.ne.1
    · exact absurd (hpc.symm.trans h) nofun
  · exact (hpc.resolve_left fun hp => hp.ne.2.1 h).2
  · rcases hpc with hpc | ⟨hpc, -⟩
    · exact absurd h hpc.ne.2.2
    · exact absurd (hpc.symm.trans h) nofun

/-- A step that leaves the length and the queues and does nothing else. -/
theorem WakeStep.plain (hcall : e.proc.call = x.call) (hlen : e.dev.currentLen = d.currentLen)
    (hw : ∀ q r, r ≠ p → r ∈ d.waiters q → r ∈ e.dev.waiters q)
    (hent : ∀ q, x.call.WaitsOn q → e.proc.pc.Entered → p ∈ e.dev.waiters q)
    (hsteady : e.proc.Steady e.dev) (halso : e.also.Silent)
    (hpc : x.pc.Plain ∨ x.pc = .unlock1 ∧ e.proc.pc = .schedule) : WakeStep d p x e :=
  .silent hcall (fun _ h => .inl (h.of_eq hlen)) (fun _ => hlen) hw hent hsteady halso hpc

/-- A step that sets the task state: to sleep, when the condition does not hold, or to run. -/
theorem WakeStep.setState (hcall : e.proc.call = x.call) (hdev : e.dev = d)
    (hent : ∀ q, x.call.WaitsOn q → e.proc.pc.Entered → p ∈ d.waiters q)
    (hsteady : e.proc.Steady d) {t : TaskState} (halso : e.also = .setState t)
    (hpc : x.pc.Plain ∨ x.pc = .schedule ∧ t = .running)
    (hsleeps : t = .running ∨ e.proc.pc = .unlock1 ∧ ∀ q, x.call.WaitsOn q → ¬ d.Ready q) :
    WakeStep d p x e := by
  refine ⟨hcall, fun q hr => .inl (hdev ▸ hr), fun _ => by rw [hdev], fun h => ?_,
    fun q r _ hr => hdev ▸ hr, fun q hq he => hdev ▸ hent q hq he, hdev ▸ hsteady,
    fun h => ?_, fun h => ?_, fun h => ?_, fun mask h => absurd (halso.symm.trans h) nofun⟩
  · rcases hpc with hpc | ⟨hpc, -⟩
    · exact absurd h hpc.ne.1
    · exact absurd (hpc.symm.trans h) nofun
  · obtain rfl := Also.setState.inj (halso.symm.trans h)
    exact hdev ▸ hsleeps.resolve_left nofun
  · rcases hpc with hpc | ⟨hpc, -⟩
    · exact absurd h hpc.ne.2.1
    · exact absurd (hpc.symm.trans h) nofun
  · obtain ⟨-, rfl⟩ := hpc.resolve_left fun hp => hp.ne.2.2 h
    exact halso

/-- A step that wakes the queue that the call wakes. -/
theorem WakeStep.wakeUp (hcall : e.proc.call = x.call) (hdev : e.dev = d)
    (hent : ∀ q, x.call.WaitsOn q → e.proc.pc.Entered → p ∈ d.waiters q)
    (hsteady : e.proc.Steady d) {q : WaitQueue} (halso : e.also = .wakeUp q) (hpc : x.pc = .wake)
    (hwakes : ∀ q', x.call.Wakes q' → q' = q) : WakeStep d p x e := by
  refine ⟨hcall, fun q hr => .inl (hdev ▸ hr), fun _ => by rw [hdev], fun _ q' hq' => ?_,
    fun q r _ hr => hdev ▸ hr, fun q hq he => hdev ▸ hent q hq he, hdev ▸ hsteady,
    fun h => absurd (halso.symm.trans h) nofun, fun h => absurd (hpc.symm.trans h) nofun,
    fun h => absurd (hpc.symm.trans h) nofun, fun mask h => absurd (halso.symm.trans h) nofun⟩
  rw [hwakes q' hq', halso]

/-- A step of a call that waits on no queue. -/
theorem WakeStep.of_not_waits (hcall : e.proc.call = x.call) (hno : ∀ q, ¬ x.call.WaitsOn q)
    (hready : ∀ q, e.dev.Ready q → d.Ready q ∨ (x.pc = .clear ∧ q = .w))
    (hsame : ¬ x.pc.Holding → e.dev.currentLen = d.currentLen)
    (hw : ∀ q r, r ∈ d.waiters q → r ∈ e.dev.waiters q)
    (halso : e.also = .nothing ∨ e.also = .polled (pollMask e.dev.currentLen))
    (hpc : x.pc.Plain) : WakeStep d p x e where
  call := hcall
  ready q h := (hready q h).imp_right .inr
  same := hsame
  wake h := absurd h hpc.ne.1
  waiters q r _ := hw q r
  entered q hq := absurd hq (hno q)
  steady := by
    rw [Proc.Steady, hcall]
    split
    · exact fun q hq => absurd hq (hno q)
    · exact fun q hq => absurd hq (hno q)
    · trivial
  sleeps h := by rcases halso with ha | ha <;> exact absurd (ha.symm.trans h) nofun
  unlock1 h := absurd h hpc.ne.2.1
  schedule h := absurd h hpc.ne.2.2
  polled mask h := by
    rcases halso with ha | ha
    · exact absurd (ha.symm.trans h) nofun
    · exact (Also.polled.inj (ha.symm.trans h)).symm

/-- A step of a call that waits on no queue, which leaves the length and the queues and does
nothing else. -/
theorem WakeStep.untouched (hcall : e.proc.call = x.call) (hno : ∀ q, ¬ x.call.WaitsOn q)
    (hlen : e.dev.currentLen = d.currentLen) (hqueues : ∀ q, e.dev.waiters q = d.waiters q)
    (halso : e.also = .nothing) (hpc : x.pc.Plain) : WakeStep d p x e := by
  refine .of_not_waits hcall hno (fun q hr => .inl (hr.of_eq hlen)) (fun _ => hlen)
    (fun q r hr => ?_) (.inl halso) hpc
  rwa [hqueues]

/-! ### The steps of a call -/

theorem addWaitQueue_waiters (d : Dev) (q q' : WaitQueue) (p : Nat) :
    (d.addWaitQueue q p).waiters q' = if q' = q then p :: d.waiters q' else d.waiters q' := by
  cases q <;> cases q' <;> rfl

theorem mem_removeWaitQueue_waiters {q q' : WaitQueue} {r : Nat} (hr : r ≠ p)
    (h : r ∈ d.waiters q') : r ∈ (d.removeWaitQueue q p).waiters q' := by
  have herase : ∀ l : List Nat, r ∈ l → r ∈ l.erase p := fun l hl =>
    (List.mem_erase_of_ne hr).2 hl
  cases q <;> cases q' <;> first | exact h | exact herase _ h

/-- The copy keeps the queues. -/
theorem RwCode.Fits.copy_waiters {call : Call} (hc : c.Fits call) (d : Dev) (limit : Option Fault)
    (q : WaitQueue) (r : Nat) (hr : r ∈ d.waiters q) : r ∈ (c.copy d limit).dev.waiters q := by
  obtain ⟨n, m, hdev⟩ := hc.framed d limit
  rw [hdev]
  cases q <;> exact hr

/-- A step of a read or a write. -/
theorem rwStep_wake (hc : c.Fits x.call) (hx : x.Steady d)
    (hent : ∀ q, x.call.WaitsOn q → x.pc.Entered → p ∈ d.waiters q)
    (h : rwStep c d p x task sig limit = some e) : WakeStep d p x e := by
  have hwait : ∀ q, x.call.WaitsOn q → q = c.addsTo := fun q => (hc.waits q).1
  have hsame : ∀ (m : Option Nat) q r, r ∈ d.waiters q → r ∈ { d with mutex := m }.waiters q :=
    fun m q r hr => by cases q <;> exact hr
  cases rwStep_rule h with
  | lock =>
    exact .plain rfl rfl (fun q r _ => hsame _ q r) (fun _ _ he => absurd he id) trivial
      trivial (.inl trivial)
  | relock | out =>
    exact .plain rfl rfl (fun q r _ => hsame _ q r) (fun q hq _ => hsame _ q p (hent q hq trivial))
      trivial trivial (.inl trivial)
  | unlock1 =>
    exact .plain rfl rfl (fun q r _ => hsame _ q r) (fun q hq _ => hsame _ q p (hent q hq trivial))
      trivial trivial (.inr ⟨rfl, rfl⟩)
  | addWait =>
    refine .plain rfl ?_ (fun q r _ hr => ?_) (fun q hq _ => ?_) trivial trivial (.inl trivial)
    · cases c.addsTo <;> rfl
    · rw [addWaitQueue_waiters]
      split
      · exact List.mem_cons_of_mem _ hr
      · exact hr
    · rw [addWaitQueue_waiters, if_pos (hwait q hq)]
      exact List.mem_cons_self ..
  | again =>
    exact .plain rfl rfl (fun _ _ _ hr => hr) (fun q hq _ => hent q hq trivial) trivial trivial
      (.inl trivial)
  | sleep hblocked =>
    refine .plain rfl rfl (fun _ _ _ hr => hr) (fun q hq _ => hent q hq trivial) (fun q hq => ?_)
      trivial (.inl trivial)
    rw [hwait q hq]
    exact (hc.blocked d).1 hblocked
  | pass hfree =>
    refine .plain rfl rfl (fun _ _ _ hr => hr) (fun q hq _ => hent q hq trivial) (fun q hq => ?_)
      trivial (.inl trivial)
    rw [hwait q hq]
    exact not_not.1 fun hn => Bool.false_ne_true (hfree.symm.trans ((hc.blocked d).2 hn))
  | setState =>
    exact .setState rfl rfl (fun q hq _ => hent q hq trivial) trivial rfl (.inl trivial)
      (.inr ⟨rfl, hx⟩)
  | schedule =>
    exact .setState rfl rfl (fun q hq _ => hent q hq trivial) trivial rfl (.inr ⟨rfl, rfl⟩)
      (.inl rfl)
  | interrupted | retry | killFasync =>
    exact .plain rfl rfl (fun _ _ _ hr => hr) (fun q hq _ => hent q hq trivial) trivial trivial
      (.inl trivial)
  | copied =>
    -- the condition that becomes true is the one that the call wakes
    refine .silent rfl (fun q _ => ?_) (fun hout => absurd trivial hout)
      (fun q r _ => hc.copy_waiters d limit q r)
      (fun q hq _ => hc.copy_waiters d limit q p (hent q hq trivial)) trivial trivial (.inl trivial)
    rcases hc.queues q with hq | hq
    · exact .inl (hx q ((hc.waits q).2 hq))
    · exact .inr (.inl ⟨rfl, (hc.wakes q).2 hq⟩)
  | fault hfault =>
    exact .plain rfl (hc.fault d limit hfault) (fun q r _ => hc.copy_waiters d limit q r)
      (fun q hq _ => hc.copy_waiters d limit q p (hent q hq trivial)) trivial trivial (.inl trivial)
  | wake | wakeKill =>
    exact .wakeUp rfl rfl (fun q hq _ => hent q hq trivial) trivial rfl rfl
      fun q hq => (hc.wakes q).1 hq
  | out2 =>
    refine .plain rfl ?_ (fun q r hne hr => mem_removeWaitQueue_waiters hne hr)
      (fun _ _ he => absurd he id) trivial trivial (.inl trivial)
    cases c.removesFrom <;> rfl
  | setRunning =>
    exact .setState rfl rfl (fun _ _ he => absurd he id) trivial rfl (.inl trivial) (.inl rfl)

/-- `mutex_lock` in a call that waits on no queue. -/
theorem mutexLock_wake {next : Pc} (h : mutexLock d p x next = some e)
    (hno : ∀ q, ¬ x.call.WaitsOn q) (hpc : x.pc = .lock) : WakeStep d p x e := by
  unfold mutexLock at h
  split at h
  · cases h
    refine .untouched rfl hno rfl (fun q => by cases q <;> rfl) rfl ?_
    rw [hpc]
    trivial
  · cases h

/-- `mutex_unlock` in a call that waits on no queue. -/
theorem mutexUnlock_wake {next : Pc} (h : mutexUnlock d x next = some e)
    (hno : ∀ q, ¬ x.call.WaitsOn q) (hpc : x.pc = .out) : WakeStep d p x e := by
  cases h
  refine .untouched rfl hno rfl (fun q => by cases q <;> rfl) rfl ?_
  rw [hpc]
  trivial

/-- A step of an `ioctl`. -/
theorem globalfifoIoctl_wake {cmd : Nat} (hno : ∀ q, ¬ x.call.WaitsOn q)
    (h : globalfifoIoctl cmd d p x = some e) : WakeStep d p x e := by
  obtain ⟨call, file, pc, res⟩ := x
  cases pc with
  | switch =>
    simp only [globalfifoIoctl] at h
    split at h
    · cases h
      exact .untouched rfl hno rfl (fun _ => rfl) rfl trivial
    · cases h
      exact .untouched rfl hno rfl (fun _ => rfl) rfl trivial
  | lock => exact mutexLock_wake h hno rfl
  | clear =>
    cases h
    refine .of_not_waits rfl hno (fun q hr => ?_) (fun hout => absurd trivial hout)
      (fun q r hr => ?_) (.inl rfl) trivial
    · cases q with
      | r => exact absurd rfl hr
      | w => exact .inr ⟨rfl, rfl⟩
    · cases q <;> exact hr
  | out => exact mutexUnlock_wake h hno rfl
  | _ => cases h

/-- A step of a poll. -/
theorem globalfifoPoll_wake (hno : ∀ q, ¬ x.call.WaitsOn q)
    (h : globalfifoPoll d p x = some e) : WakeStep d p x e := by
  obtain ⟨call, file, pc, res⟩ := x
  cases pc with
  | lock => exact mutexLock_wake h hno rfl
  | pollWait =>
    cases h
    exact .untouched rfl hno rfl (fun _ => rfl) rfl trivial
  | mask =>
    cases h
    exact .of_not_waits rfl hno (fun _ => .inl) (fun _ => rfl) (fun _ _ hr => hr) (.inr rfl)
      trivial
  | out => exact mutexUnlock_wake h hno rfl
  | _ => cases h

/-- A step that replaces the notification set. -/
theorem wakeStep_of_asyncQueue {queue : List Nat} {r : Result} (hno : ∀ q, ¬ x.call.WaitsOn q)
    (hpc : x.pc = .fasync)
    (he : e = { dev := { d with asyncQueue := queue }, proc := { x.goto .ret with res := r } }) :
    WakeStep d p x e := by
  subst he
  refine .untouched rfl hno rfl (fun q => by cases q <;> rfl) rfl ?_
  rw [hpc]
  trivial

/-- **A step of a process**: what it does to the conditions, the queues and the task states. -/
theorem procStep_wake (hx : x.Steady d)
    (hent : ∀ q, x.call.WaitsOn q → x.pc.Entered → p ∈ d.waiters q)
    (h : procStep W cp async d p x task sig limit = some e) : WakeStep d p x e := by
  unfold procStep at h
  split at h
  · cases h
  · next hpc =>
    cases h
    obtain ⟨call, file, pc, res⟩ := x
    change pc = .ret at hpc
    subst hpc
    exact ⟨rfl, fun _ hr => .inl hr, fun _ => rfl, nofun, fun _ _ _ hr => hr,
      fun _ _ he => absurd he id, trivial, nofun, nofun, nofun, nofun⟩
  · unfold callStep at h
    split at h
    · next hc => exact rwStep_wake (hc ▸ globalfifoRead_fits) hx hent h
    · next hc => exact rwStep_wake (hc ▸ globalfifoWrite_fits) hx hent h
    · next hc => exact globalfifoIoctl_wake (fun q => by rw [hc]; exact id) h
    · next hc => exact globalfifoPoll_wake (fun q => by rw [hc]; exact id) h
    · next hc =>
      unfold globalfifoFasync at h
      split at h
      · next hpc =>
        cases h
        exact wakeStep_of_asyncQueue (fun q => by rw [hc]; exact id) hpc rfl
      · cases h
    · next hc =>
      unfold globalfifoRelease at h
      split at h
      · next hpc =>
        cases h
        exact wakeStep_of_asyncQueue (fun q => by rw [hc]; exact id) hpc rfl
      · cases h

end

/-! ## Runs -/

/-- The invariant of the wait loops: whoever is in one has its entry in the queue, and sleeps only
after its test. -/
structure Queued (s : State) : Prop where
  exclusive : Exclusive s
  entered : ∀ p q, (s.proc p).call.WaitsOn q → (s.proc p).pc.Entered → p ∈ s.dev.waiters q
  steady : ∀ p, (s.proc p).Steady s.dev
  sleeping : ∀ p, s.task p = .interruptible →
    (s.proc p).pc = .unlock1 ∨ (s.proc p).pc = .schedule

/-- Where the condition of the queue holds, whoever sleeps on it is about to be woken by the process
that holds the mutex. -/
def Attended (s : State) (q : WaitQueue) : Prop :=
  ∀ p, AsleepOn s q p → s.dev.Ready q → Pending s q

/-- The invariant: where the condition of a queue holds, whoever sleeps on the queue or has polled
without seeing it is about to be woken. -/
structure Awake (s : State) : Prop extends Queued s where
  asleep : ∀ q, Attended s q
  polled : ∀ q p r, s.polls p = some r → r.Lacks q → s.dev.Ready q →
    r.wokenOn q = true ∨ Pending s q

section
variable {W : LongWidth} {cp : Copier Byte} {async : Bool} {s s' : State} {p : Nat} {e : Effect}

/-- What the loop's test has found of a length stays true of an equal one. -/
theorem Proc.Steady.of_dev {d d' : Dev} {x : Proc} (h : x.Steady d)
    (hd : x.pc.Holding → d'.currentLen = d.currentLen) : x.Steady d' := by
  obtain ⟨call, file, pc, res⟩ := x
  cases pc with
  | setState => exact fun q hq hr => h q hq (hr.of_eq (hd trivial))
  | copy => exact fun q hq => (h q hq).of_eq (hd trivial).symm
  | _ => trivial

/-- A process asleep after a step slept before it without being woken, or falls asleep. -/
theorem task_put {r : Nat} (h : (s.put p e).task r = .interruptible) :
    (s.task r = .interruptible ∧ (∀ q, e.also = .wakeUp q → r ∉ e.dev.waiters q) ∧
      (r = p → e.also ≠ .setState .running)) ∨ (r = p ∧ e.also = .setState .interruptible) := by
  unfold State.put at h
  cases ha : e.also with
  | setState t =>
    rw [ha] at h
    dsimp only at h
    rcases eq_or_ne r p with rfl | hne
    · rw [Function.update_self] at h
      exact .inr ⟨rfl, by rw [h]⟩
    · rw [Function.update_of_ne hne] at h
      exact .inl ⟨h, nofun, fun he => absurd he hne⟩
  | wakeUp q =>
    rw [ha] at h
    dsimp only [wakeAll] at h
    split at h
    · cases h
    · next hnot =>
      refine .inl ⟨h, fun q' hq' => ?_, nofun⟩
      cases hq'
      exact hnot
  | _ => rw [ha] at h; exact .inl ⟨h, nofun, nofun⟩

/-- What is noted of a poll after a step was noted before it, with the wakeup of the step, or is
the poll's own mask. -/
theorem polls_put {r : Nat} {rec : Poll} (h : (s.put p e).polls r = some rec) :
    (∃ old, s.polls r = some old ∧ rec.mask = old.mask ∧
      (∀ q, old.wokenOn q = true → rec.wokenOn q = true) ∧
      ∀ q, e.also = .wakeUp q → rec.wokenOn q = true) ∨
    ∃ mask, e.also = .polled mask ∧ rec = ⟨mask, false, false⟩ := by
  unfold State.put at h
  cases ha : e.also with
  | wakeUp q =>
    rw [ha] at h
    obtain ⟨old, hold, rfl⟩ := Option.map_eq_some_iff.1 h
    refine .inl ⟨old, hold, by cases q <;> rfl, fun q' hq' => ?_, fun q' hq' => ?_⟩
    · cases q <;> cases q' <;> first | exact hq' | rfl
    · cases hq'
      cases q <;> rfl
  | polled mask =>
    rw [ha] at h
    dsimp only at h
    rcases eq_or_ne r p with rfl | hne
    · rw [Function.update_self] at h
      exact .inr ⟨mask, rfl, (Option.some.inj h).symm⟩
    · rw [Function.update_of_ne hne] at h
      exact .inl ⟨rec, h, rfl, fun _ hw => hw, nofun⟩
  | _ => rw [ha] at h; exact .inl ⟨rec, h, rfl, fun _ hw => hw, nofun⟩

/-- The mask of a poll lacks the bit of a queue only when its condition does not hold. -/
theorem lacks_pollMask {d : Dev} {q : WaitQueue} :
    (Poll.mk (pollMask d.currentLen) false false).Lacks q ↔ ¬ d.Ready q := by
  have hsize : GLOBALFIFO_SIZE = 4096 := rfl
  cases q with
  | r =>
    change pollMask d.currentLen &&& POLLIN = 0 ↔ ¬ d.currentLen ≠ 0
    unfold pollMask
    split <;> split <;> simp_all [POLLIN, POLLOUT, POLLRDNORM, POLLWRNORM]
  | w =>
    change pollMask d.currentLen &&& POLLOUT = 0 ↔ ¬ d.currentLen ≠ GLOBALFIFO_SIZE
    unfold pollMask
    split <;> split <;> simp_all [POLLIN, POLLOUT, POLLRDNORM, POLLWRNORM]

/-- A process about to wake a queue is still about to after a step, or the step wakes it. -/
theorem Pending.put {q : WaitQueue} (h : Pending s q) (hw : WakeStep s.dev p (s.proc p) e) :
    Pending (s.put p e) q ∨ e.also = .wakeUp q := by
  obtain ⟨r, hpc, hwakes⟩ := h
  rcases eq_or_ne r p with rfl | hne
  · exact .inr (hw.wake hpc q hwakes)
  · refine .inl ⟨r, ?_, ?_⟩
    all_goals rwa [State.put_proc, Function.update_of_ne hne]

/-- A condition that holds after a step held before it, or its process is about to wake the queue,
or the step clears a full device. -/
theorem WakeStep.ready_put {q : WaitQueue} (hw : WakeStep s.dev p (s.proc p) e)
    (h : (s.put p e).dev.Ready q) :
    s.dev.Ready q ∨ Pending (s.put p e) q ∨
      ((s.proc p).pc = .clear ∧ q = .w ∧ s.dev.currentLen = GLOBALFIFO_SIZE) := by
  rw [State.put_dev] at h
  rcases hw.ready q h with hr | ⟨hpc, hwakes⟩ | ⟨hpc, rfl⟩
  · exact .inl hr
  · refine .inr (.inl ⟨p, ?_, ?_⟩)
    all_goals rw [State.put_proc, Function.update_self]
    · exact hpc
    · rwa [hw.call]
  · by_cases hfull : s.dev.currentLen = GLOBALFIFO_SIZE
    · exact .inr (.inr ⟨hpc, rfl, hfull⟩)
    · exact .inl hfull

/-- The call of a process after a step of process `p`. -/
theorem WakeStep.call_put (hw : WakeStep s.dev p (s.proc p) e) (r : Nat) :
    ((s.put p e).proc r).call = (s.proc r).call := by
  rw [State.put_proc]
  rcases eq_or_ne r p with rfl | hne
  · rw [Function.update_self, hw.call]
  · rw [Function.update_of_ne hne]

/-- A sleeper that a step does not wake has no entry in the queue that the step wakes. -/
theorem Queued.not_woken (h : Queued s) (hw : WakeStep s.dev p (s.proc p) e) {q : WaitQueue}
    {r : Nat} (hr : AsleepOn s q r) (hself : r = p → e.also ≠ .setState .running)
    (hnot : r ∉ e.dev.waiters q) : False := by
  obtain ⟨hq, ht⟩ := hr
  have hpc := h.sleeping r ht
  rcases eq_or_ne r p with rfl | hne
  · rcases hpc with hpc | hpc
    · refine hnot (hw.entered q hq ?_)
      rw [hw.unlock1 hpc]
      trivial
    · exact hself rfl (hw.schedule hpc)
  · refine hnot (hw.waiters q r hne (h.entered r q hq ?_))
    rcases hpc with hpc | hpc <;> rw [hpc] <;> trivial

/-- A step keeps whoever is in a wait loop in its queue. -/
theorem Queued.put (h : Queued s) (hw : WakeStep s.dev p (s.proc p) e)
    (hex : Exclusive (s.put p e)) : Queued (s.put p e) := by
  refine ⟨hex, fun r q hq hent => ?_, fun r => ?_, fun r ht => ?_⟩
  · rw [hw.call_put] at hq
    rw [State.put_dev]
    rw [State.put_proc] at hent
    rcases eq_or_ne r p with rfl | hne
    · rw [Function.update_self] at hent
      exact hw.entered q hq hent
    · rw [Function.update_of_ne hne] at hent
      exact hw.waiters q r hne (h.entered r q hq hent)
  · rw [State.put_dev, State.put_proc]
    rcases eq_or_ne r p with rfl | hne
    · rw [Function.update_self]
      exact hw.steady
    · rw [Function.update_of_ne hne]
      exact (h.steady r).of_dev fun hr => hw.same fun hp => hne (h.exclusive.eq hr hp)
  · rw [State.put_proc]
    rcases task_put ht with ⟨ht', -, hself⟩ | ⟨rfl, hsleep⟩
    · rcases eq_or_ne r p with rfl | hne
      · rw [Function.update_self]
        rcases h.sleeping r ht' with hpc | hpc
        · exact .inr (hw.unlock1 hpc)
        · exact absurd (hw.schedule hpc) (hself rfl)
      · rw [Function.update_of_ne hne]
        exact h.sleeping r ht'
    · rw [Function.update_self]
      exact .inl (hw.sleeps hsleep).1

/-- Nobody is left asleep after a step, where a clear that makes room finds no writer asleep. -/
theorem Attended.put {q : WaitQueue} (h : Attended s q) (hqueued : Queued s)
    (hw : WakeStep s.dev p (s.proc p) e)
    (hsafe : q = .w → (s.proc p).pc = .clear → s.dev.currentLen = GLOBALFIFO_SIZE →
      ∀ r, ¬ AsleepOn s .w r) : Attended (s.put p e) q := by
  rintro r ⟨hq, ht⟩ hready
  rw [hw.call_put] at hq
  rcases task_put ht with ⟨ht, hnot, hself⟩ | ⟨rfl, hsleep⟩
  · rcases hw.ready_put hready with hr | hpend | ⟨hpc, rfl, hfull⟩
    · rcases (h r ⟨hq, ht⟩ hr).put hw with hpend | hwoken
      · exact hpend
      · exact (hqueued.not_woken hw ⟨hq, ht⟩ hself (hnot q hwoken)).elim
    · exact hpend
    · exact absurd ⟨hq, ht⟩ (hsafe rfl hpc hfull r)
  · rw [State.put_dev] at hready
    exact absurd hready ((hw.sleeps hsleep).2 q hq)

/-- No poller is left without its wakeup after a step. -/
theorem Awake.polled_put (h : Awake s) (hw : WakeStep s.dev p (s.proc p) e)
    (hsafe : (s.proc p).pc = .clear → s.dev.currentLen = GLOBALFIFO_SIZE →
      ∀ r rec, s.polls r = some rec → rec.Lacks .w → rec.wokenOn .w = true)
    {q : WaitQueue} {r : Nat} {rec : Poll} (hr : (s.put p e).polls r = some rec)
    (hlacks : rec.Lacks q)
    (hready : (s.put p e).dev.Ready q) : rec.wokenOn q = true ∨ Pending (s.put p e) q := by
  rcases polls_put hr with ⟨old, hold, hmask, hmono, hwakes⟩ | ⟨mask, hmask, rfl⟩
  · have hlacks' : old.Lacks q := by
      cases q <;> exact (congrArg (· &&& _) hmask).symm.trans hlacks
    rcases hw.ready_put hready with hr | hpend | ⟨hpc, rfl, hfull⟩
    · rcases h.polled q r old hold hlacks' hr with hwoken | hpend
      · exact .inl (hmono q hwoken)
      · rcases hpend.put hw with hpend | hwoken
        · exact .inr hpend
        · exact .inl (hwakes q hwoken)
    · exact .inr hpend
    · exact .inl (hmono _ (hsafe hpc hfull r old hold hlacks'))
  · rw [hw.polled mask hmask] at hlacks
    rw [State.put_dev] at hready
    exact absurd hready (lacks_pollMask.1 hlacks)

/-- What a call, a signal and a wakeup for no reason leave: the device, the polls and whoever has
called. They put nobody to sleep. -/
structure Aside (s s' : State) : Prop where
  dev : s'.dev = s.dev
  polls : s'.polls = s.polls
  task : ∀ r, s'.task r = .interruptible → s.task r = .interruptible
  proc : ∀ r, s'.proc r = s.proc r ∨
    (s.proc r).pc = .idle ∧ ∃ c file, s'.proc r = ⟨c, file, c.entry, ⟨0, []⟩⟩

theorem Aside.of_running (hdev : s'.dev = s.dev) (hpolls : s'.polls = s.polls)
    (hproc : s'.proc = s.proc) (htask : s'.task = Function.update s.task p .running) :
    Aside s s' := by
  refine ⟨hdev, hpolls, fun r hr => ?_, fun r => .inl (congrFun hproc r)⟩
  rw [htask] at hr
  rcases eq_or_ne r p with rfl | hne
  · rw [Function.update_self] at hr
    cases hr
  · rwa [Function.update_of_ne hne] at hr

/-- A step is that of a process, or one of the others. -/
theorem step_cases {a : Act} (hs : Globalfifo.step W cp async s a = some s') :
    (∃ p limit e, a = .run p limit ∧
      procStep W cp async s.dev p (s.proc p) (s.task p) (s.sigPending p) limit = some e ∧
      s' = s.put p e) ∨ Aside s s' := by
  cases a with
  | call p file c =>
    simp only [Globalfifo.step] at hs
    split at hs
    · next hidle =>
      cases hs
      refine .inr ⟨rfl, rfl, fun _ hr => hr, fun r => ?_⟩
      dsimp only
      rcases eq_or_ne r p with rfl | hne
      · exact .inr ⟨hidle, c, file, Function.update_self ..⟩
      · exact .inl (Function.update_of_ne hne ..)
    · cases hs
  | run p limit =>
    obtain ⟨e, he, rfl⟩ := Option.map_eq_some_iff.1 hs
    exact .inl ⟨p, limit, e, rfl, he, rfl⟩
  | wakeup p => cases hs; exact .inr (.of_running rfl rfl rfl rfl)
  | signal p => cases hs; exact .inr (.of_running rfl rfl rfl rfl)

/-- Whoever is asleep was asleep before, in the same call. -/
theorem Aside.asleep (h : Aside s s') (hqueued : Queued s) {r : Nat}
    (hr : s'.task r = .interruptible) :
    s.task r = .interruptible ∧ s'.proc r = s.proc r := by
  have ht := h.task r hr
  refine ⟨ht, (h.proc r).resolve_right ?_⟩
  rintro ⟨hidle, -⟩
  rcases hqueued.sleeping r ht with hpc | hpc <;> cases hidle.symm.trans hpc

/-- Whoever is about to wake a queue still is. -/
theorem Aside.pending (h : Aside s s') {q : WaitQueue} (hp : Pending s q) : Pending s' q := by
  obtain ⟨r, hpc, hwakes⟩ := hp
  rcases h.proc r with hr | ⟨hidle, -⟩
  · exact ⟨r, by rwa [hr], by rwa [hr]⟩
  · cases hidle.symm.trans hpc

theorem Aside.queued (h : Aside s s') (hqueued : Queued s) (hex : Exclusive s') : Queued s' := by
  refine ⟨hex, fun r q hq hent => ?_, fun r => ?_, fun r hr => ?_⟩
  · rw [h.dev]
    rcases h.proc r with hr | ⟨-, c, file, hr⟩
    · rw [hr] at hq hent
      exact hqueued.entered r q hq hent
    · rw [hr] at hent
      cases c <;> exact absurd hent id
  · rw [h.dev]
    rcases h.proc r with hr | ⟨-, c, file, hr⟩
    · rw [hr]
      exact hqueued.steady r
    · rw [hr]
      cases c <;> trivial
  · obtain ⟨ht, hproc⟩ := h.asleep hqueued hr
    rw [hproc]
    exact hqueued.sleeping r ht

theorem Aside.attended (h : Aside s s') (hqueued : Queued s) {q : WaitQueue}
    (hq : Attended s q) : Attended s' q := by
  rintro r ⟨hwaits, hr⟩ hready
  obtain ⟨ht, hproc⟩ := h.asleep hqueued hr
  rw [hproc] at hwaits
  rw [h.dev] at hready
  exact h.pending (hq r ⟨hwaits, ht⟩ hready)

/-- **Each step keeps whoever is in a wait loop in its queue.** -/
theorem Queued.step (h : Queued s) {a : Act}
    (hs : Globalfifo.step W cp async s a = some s') : Queued s' := by
  have hex : Exclusive s' := h.exclusive.step hs
  rcases step_cases hs with ⟨p, limit, e, -, he, rfl⟩ | haside
  · exact h.put (procStep_wake (h.steady p) (h.entered p) he) hex
  · exact haside.queued h hex

/-- **Each step leaves nobody asleep** on the queue, where a clear that makes room finds no writer
asleep. -/
theorem Attended.step {q : WaitQueue} (h : Attended s q) (hqueued : Queued s) {a : Act}
    (ha : q = .w → ClearUnwaited s a)
    (hs : Globalfifo.step W cp async s a = some s') : Attended s' q := by
  rcases step_cases hs with ⟨p, limit, e, rfl, he, rfl⟩ | haside
  · exact h.put hqueued (procStep_wake (hqueued.steady p) (hqueued.entered p) he) ha
  · exact haside.attended hqueued h

theorem ClearSafe.unwaited {a : Act} (h : ClearSafe s a) : ClearUnwaited s a := by
  cases a with
  | run p limit => exact fun hpc hfull => (h hpc hfull).1
  | call | wakeup | signal => trivial

/-- **Each step whose clears are safe keeps the invariant.** -/
theorem Awake.step (h : Awake s) {a : Act} (ha : ClearSafe s a)
    (hs : Globalfifo.step W cp async s a = some s') : Awake s' := by
  refine ⟨h.toQueued.step hs, fun q => (h.asleep q).step h.toQueued (fun _ => ha.unwaited) hs, ?_⟩
  rcases step_cases hs with ⟨p, limit, e, rfl, he, rfl⟩ | haside
  · exact fun q r rec => h.polled_put (procStep_wake (h.steady p) (h.entered p) he)
      fun hpc hfull => (ha hpc hfull).2
  · intro q r rec hr hlacks hready
    rw [haside.polls] at hr
    rw [haside.dev] at hready
    exact (h.polled q r rec hr hlacks hready).imp_right haside.pending

/-- Nobody is in a wait loop at the start. -/
theorem Queued.init : Queued .init :=
  ⟨.init, fun _ _ hq => absurd hq id, fun _ => trivial, nofun⟩

/-- Nobody sleeps at the start. -/
theorem Attended.init (q : WaitQueue) : Attended .init q := fun _ hr => absurd hr.1 id

theorem Awake.init : Awake .init := ⟨.init, .init, nofun⟩

/-- With the mutex free, nobody is about to wake anyone. -/
theorem Exclusive.not_pending (h : Exclusive s) (hfree : s.dev.mutex = none) (q : WaitQueue) :
    ¬ Pending s q := by
  rintro ⟨p, hpc, -⟩
  have hhold := (h p).1 (by rw [hpc]; trivial)
  rw [hfree] at hhold
  cases hhold

/-- With the mutex free, nobody sleeps on a queue whose condition holds. -/
theorem Attended.not_ready {q : WaitQueue} (h : Attended s q) (hex : Exclusive s)
    (hfree : s.dev.mutex = none) (hp : AsleepOn s q p) : ¬ s.dev.Ready q :=
  fun hready => hex.not_pending hfree q (h p hp hready)

/-- With the mutex free, nobody needs a wakeup. -/
theorem Awake.noMissedWakeup (h : Awake s) : NoMissedWakeup s := by
  refine ⟨fun hfree q p hp => (h.asleep q).not_ready h.exclusive hfree hp,
    fun hfree q p r hr hl hready => ?_⟩
  rcases h.polled q p r hr hl (not_not.1 fun hn => hready (lacks_pollMask.2 hn)) with hw | hpend
  · exact hw
  · exact absurd hpend (h.exclusive.not_pending hfree q)

/-- **No missed wakeup where the clears are safe**: in every run in which no `FIFO_CLEAR` empties a
full device while a writer is asleep or a poller that lacks `POLLOUT` has not been woken. -/
theorem noMissedWakeup_of_clearSafe
    (h : (machine W cp async).Reach ClearSafe s) : NoMissedWakeup s := by
  have hawake : Awake s := h.invariant (fun t ht => by rw [show t = .init from ht]; exact .init)
    fun _ _ _ hI hC hs => Awake.step hI hC hs
  exact hawake.noMissedWakeup

/-- Process `0` sleeps in a read; process `1` writes a byte, wakes it and unlocks. -/
def sleepThenWrite : List Act :=
  .call 0 0 (.read 1 false) :: List.replicate 5 (.run 0 none) ++
    .call 1 0 (.write (fun _ => 7) 1 false) :: List.replicate 6 (.run 1 none)

/-- The reader is not asleep when the writer has unlocked. -/
theorem sleepThenWrite_noMissedWakeup :
    ∃ s, (machine .w64 Copier.ascending true).Reach ClearSafe s ∧ s.dev.mutex = none ∧
      s.dev.currentLen = 1 ∧ (s.proc 0).pc = .schedule ∧ NoMissedWakeup s := by
  have hrun : ((machine .w64 Copier.ascending true).runChecked
      (fun s a => decide ((s.proc a.pid).pc ≠ .clear)) .init sleepThenWrite).map
      (fun s => (s.dev.mutex, s.dev.currentLen, (s.proc 0).pc)) = some (none, 1, .schedule) := by
    decide +kernel
  obtain ⟨s, hs, hend⟩ := Option.map_eq_some_iff.1 hrun
  obtain ⟨hr, -⟩ := @Machine.Run.of_checked _ _ (machine .w64 Copier.ascending true) ClearSafe
    (fun _ => True) _ (fun s a _ hchk => by
      cases a with
      | run p limit => exact fun hpc => absurd hpc (of_decide_eq_true hchk)
      | call | wakeup | signal => trivial) (fun _ _ _ _ _ _ => trivial) _ _ _ trivial hs
  obtain ⟨hmutex, hend⟩ := Prod.mk.inj hend
  obtain ⟨hlen, hpc⟩ := Prod.mk.inj hend
  exact ⟨s, ⟨_, _, rfl, hr⟩, hmutex, hlen, hpc, noMissedWakeup_of_clearSafe ⟨_, _, rfl, hr⟩⟩

/-- Process `0` fills the device, process `1` sleeps in a write, process `2` clears the device. -/
def sleepThenClear : List Act :=
  .call 0 0 (.write (fun _ => 7) 4096 false) :: List.replicate 9 (.run 0 none) ++
    .call 1 0 (.write (fun _ => 7) 1 false) :: List.replicate 5 (.run 1 none) ++
      .call 2 0 (.ioctl FIFO_CLEAR) :: List.replicate 4 (.run 2 none)

/-- **`FIFO_CLEAR` misses a wakeup**: the writer sleeps on while the device is empty. -/
theorem clear_missesWakeup :
    ¬ ∀ s, (machine .w64 Copier.ascending true).Reach Machine.anyStep s → NoMissedWakeup s := by
  intro hall
  have hrun : ((machine .w64 Copier.ascending true).runFrom .init sleepThenClear).map
      (fun s => (s.dev.mutex, s.dev.currentLen, s.task 1, decide ((s.proc 1).call.WaitsOn .w))) =
        some (none, 0, .interruptible, true) := by
    decide +kernel
  obtain ⟨s, hs, hend⟩ := Option.map_eq_some_iff.1 hrun
  obtain ⟨hmutex, hend⟩ := Prod.mk.inj hend
  obtain ⟨hlen, hend⟩ := Prod.mk.inj hend
  obtain ⟨htask, hcall⟩ := Prod.mk.inj hend
  have hreach : (machine .w64 Copier.ascending true).Reach Machine.anyStep s :=
    ⟨_, _, rfl, .of_runFrom (fun _ _ _ => trivial) hs⟩
  refine (hall s hreach).asleep hmutex .w 1 ⟨of_decide_eq_true hcall, htask⟩ ?_
  change s.dev.currentLen ≠ GLOBALFIFO_SIZE
  rw [hlen]
  decide

end

end LinuxTraining.Globalfifo
