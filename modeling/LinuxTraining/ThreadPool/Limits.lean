import LinuxTraining.ThreadPool.Frame

/-!
# The thread pool: the number of threads

`tp_add_thread` increments `cur_th_num` under `tp_lock` and `tp_delete_thread` decrements it without
a lock, each in a read and a write with other steps in between. `Limits` says what the parties know
at their program points: between its test and its read, an addition knows that there is room, which
a decrement keeps; between its test and its read, a deletion knows that it is above the minimum,
which an increment keeps; and a value that has been read stays in range, however stale.
`curThNum_in_limits`: no schedule takes the number out of its range.
-/

namespace LinuxTraining.ThreadPool

open Lib

variable {w : Nat} {ω δ : Type}

/-- After `creat_thread_pool(min, max)`: the numbers are set, `tp_lock` is free, no call of
`tp_process_job` has begun, and the manager has not run. The array is what `malloc` returned, and
nothing is said of the threads that `tp_init` has made. -/
structure Created (min max : Int) (s : State w ω δ) : Prop where
  range : 0 ≤ min ∧ min ≤ max
  nums : s.minThNum = min ∧ s.curThNum = min ∧ s.maxThNum = max
  tpLock : s.tpLock = none
  calls : ∀ c, (s.call c).pc = .idle
  manager : s.manager = .sleep

/-- The pool from its creation on. -/
def createdMachine (w : Nat) (ω δ : Type) (min max : Int) :
    Machine (State w ω δ) (Act w ω δ) where
  init := Created min max
  step := step

/-- An initialised pool is one that was created. -/
theorem Initialised.created_pool {min max : Int} {s : State w ω δ} (h : Initialised min max s) :
    Created min max s :=
  ⟨h.range, h.nums, h.tpLock, fun c => (h.calls c).1, h.manager⟩

/-! ## What the parties know -/

/-- The submission is between its lock and its unlock of `tp_lock`. -/
def SubmitPc.Adding : SubmitPc → Prop
  | .addTest _ | .addIndex _ | .condInit _ _ | .lockInit _ _ | .addBusy _ _ | .incRead _ _
  | .incWrite _ _ _ | .create _ _ | .growIndex | .growWork _ | .growJob _ | .poolUnlock _ _ => True
  | .idle | .test _ | .lock _ | .readBusy _ | .setBusy _ | .unlockClaimed _ | .storeWork _
  | .storeJob _ | .signal _ | .unlockBusy _ | .poolLock _ | .wake _ _ | .returned => False

/-- What `tp_add_thread` knows: there is room until it has read `cur_th_num`, and what it has read
left room. -/
def SubmitPc.Room (min max cur : Int) : SubmitPc → Prop
  | .addIndex _ | .condInit _ _ | .lockInit _ _ | .addBusy _ _ | .incRead _ _ => cur < max
  | .incWrite _ _ v => min ≤ v ∧ v < max
  | _ => True

/-- What `tp_delete_thread` knows: the number is above the minimum until it has read it for the
decrement, and what it has read was. -/
def ManagePc.Above (min max cur : Int) : ManagePc → Prop
  | .busyIndex | .delBusy _ | .killIndex | .kill _ | .lockIndex | .destroyLock _ | .condIndex
  | .destroyCond _ | .decRead => min < cur
  | .decWrite v => min < v ∧ v ≤ max
  | .sleep | .statTest _ _ | .statBusy _ _ | .statEnd _ | .delMin => True

/-- The number of threads is in its range, and each party knows what it knows. -/
structure Limits (min max : Int) (s : State w ω δ) : Prop where
  nums : s.minThNum = min ∧ s.maxThNum = max
  range : min ≤ s.curThNum ∧ s.curThNum ≤ max
  adding : ∀ c, (s.call c).pc.Adding → s.tpLock = some c
  room : ∀ c, (s.call c).pc.Room min max s.curThNum
  above : s.manager.Above min max s.curThNum

section
variable {min max : Int} {s s' t : State w ω δ} {c n : Nat} {a : Act w ω δ}

/-- Only an addition knows anything of `cur_th_num`. -/
theorem SubmitPc.room_of_not_adding {pc : SubmitPc} (h : ¬ pc.Adding) (cur : Int) :
    pc.Room min max cur := by
  cases pc with
  | addIndex | condInit | lockInit | addBusy | incRead | incWrite => exact absurd trivial h
  | _ => trivial

/-- What an addition knows stays true when `cur_th_num` becomes another value with room. -/
theorem SubmitPc.Room.of_lt {pc : SubmitPc} {cur cur' : Int} (h : pc.Room min max cur)
    (hcur : cur' < max) : pc.Room min max cur' := by
  cases pc with
  | addIndex | condInit | lockInit | addBusy | incRead => exact hcur
  | incWrite => exact h
  | _ => trivial

/-- What a deletion knows stays true when `cur_th_num` becomes another value above the minimum. -/
theorem ManagePc.Above.of_lt {m : ManagePc} {cur cur' : Int} (h : m.Above min max cur)
    (hcur : min < cur') : m.Above min max cur' := by
  cases m with
  | busyIndex | delBusy | killIndex | kill | lockIndex | destroyLock | condIndex | destroyCond
  | decRead => exact hcur
  | decWrite => exact h
  | _ => trivial

/-- Two additions are never under way at once. -/
theorem Limits.eq_of_adding (h : Limits min max s) {d : Nat} (hc : (s.call c).pc.Adding)
    (hd : (s.call d).pc.Adding) : d = c :=
  Option.some.inj ((h.adding d hd).symm.trans (h.adding c hc))

/-! ## Changes that the numbers do not see -/

theorem Limits.setSlot (h : Limits min max s) (i : Int) (f : Slot w ω δ → Slot w ω δ) :
    Limits min max (s.setSlot i f) :=
  ⟨h.nums, h.range, h.adding, h.room, h.above⟩

theorem Limits.workTo (h : Limits min max s) (n : Nat) (pc : WorkPc ω δ) :
    Limits min max (s.workTo n pc) :=
  ⟨h.nums, h.range, h.adding, h.room, h.above⟩

theorem Limits.setCall (h : Limits min max s) (c : Nat) {f : Submission ω δ → Submission ω δ}
    (ha : (f (s.call c)).pc.Adding → s.tpLock = some c)
    (hr : (f (s.call c)).pc.Room min max s.curThNum) : Limits min max (s.setCall c f) where
  nums := h.nums
  range := h.range
  adding := s.forall_setCall (P := fun d x => x.pc.Adding → s.tpLock = some d) ha h.adding
  room := s.forall_setCall (P := fun _ x => x.pc.Room min max s.curThNum) hr h.room
  above := h.above

/-- A change of a submission that leaves it where it is. -/
theorem Limits.setCall_same (h : Limits min max s) (c : Nat)
    {f : Submission ω δ → Submission ω δ} (hf : (f (s.call c)).pc = (s.call c).pc) :
    Limits min max (s.setCall c f) :=
  h.setCall c (by rw [hf]; exact h.adding c) (by rw [hf]; exact h.room c)

/-- A submission goes to a point outside `tp_add_thread`. -/
theorem Limits.submitTo (h : Limits min max s) (c : Nat) {pc : SubmitPc} (hpc : ¬ pc.Adding) :
    Limits min max (s.submitTo c pc) :=
  h.setCall c (fun ha => absurd ha hpc) (SubmitPc.room_of_not_adding hpc _)

/-- A submission that holds `tp_lock` goes to another point of `tp_add_thread`. -/
theorem Limits.addTo (h : Limits min max s) (hc : (s.call c).pc.Adding) {pc : SubmitPc}
    (hr : pc.Room min max s.curThNum) : Limits min max (s.submitTo c pc) :=
  h.setCall c (fun _ => h.adding c hc) hr

theorem Limits.claim (h : Limits min max s) (c : Nat) (i : Int) :
    Limits min max (s.claim c i) :=
  (h.setCall_same c (by rfl)).setSlot i _

theorem Limits.lockSlot (h : Limits min max s) {i : Int} {p : Party}
    (ht : s.lockSlot i p = some t) : Limits min max t := by
  obtain rfl := lockSlot_eq ht
  exact h.setSlot i _

theorem Limits.condSignal (h : Limits min max s) {i : Int} {woken : Option Nat}
    (ht : s.condSignal i woken = some t) : Limits min max t := by
  rcases condSignal_eq ht with ⟨-, rfl⟩ | ⟨n, -, -, rfl⟩
  · exact h
  · exact h.workTo n _

/-! ## The steps -/

/-- The addition that holds `tp_lock` writes `cur_th_num`. -/
theorem Limits.increment (h : Limits min max s) {i n v : Int}
    (hpc : (s.call c).pc = .incWrite i n v) :
    Limits min max ({ s with curThNum := v + 1 }.submitTo c (.create i n)) := by
  have hadd : (s.call c).pc.Adding := by rw [hpc]; trivial
  have hv : min ≤ v ∧ v < max := by
    have hroom := h.room c
    rwa [hpc] at hroom
  have hmin : min < v + 1 := by omega
  refine ⟨h.nums, ⟨Int.le_of_lt hmin, hv.2⟩, ?_, ?_, h.above.of_lt hmin⟩
  · exact s.forall_setCall (f := fun x => { x with pc := .create i n })
      (P := fun d x => x.pc.Adding → s.tpLock = some d) (fun _ => h.adding c hadd) h.adding
  · -- no other addition is under way, so nobody else relies on there being room
    intro d
    rcases eq_or_ne d c with rfl | hne
    · rw [State.submitTo_pc]
      trivial
    · rw [State.submitTo, State.setCall_of_ne _ _ hne]
      exact SubmitPc.room_of_not_adding (fun hd => hne (h.eq_of_adding hadd hd)) _

/-- A submission takes `tp_lock`, or gives it back. -/
theorem Limits.setPoolLock (h : Limits min max s) {o : Option Nat} {pc : SubmitPc}
    (hothers : ∀ d, d ≠ c → ¬ (s.call d).pc.Adding) (ha : pc.Adding → o = some c)
    (hr : pc.Room min max s.curThNum) :
    Limits min max ({ s with tpLock := o }.submitTo c pc) := by
  refine ⟨h.nums, h.range, fun d hd => ?_, ?_, h.above⟩
  · rcases eq_or_ne d c with rfl | hne
    · rw [State.submitTo_pc] at hd
      exact ha hd
    · rw [State.submitTo, State.setCall_of_ne _ _ hne] at hd
      exact absurd hd (hothers d hne)
  · exact s.forall_setCall (f := fun x => { x with pc })
      (P := fun _ x => x.pc.Room min max s.curThNum) hr h.room

/-- A step of `tp_process_job` between its signals. -/
theorem Limits.submitStep (h : Limits min max s) (hs : submitStep s c = some s') :
    Limits min max s' := by
  have hroom := h.room c
  cases submitStep_rule hs with
  | test | past | busy | idle => exact h.submitTo c id
  | lock _ _ _ ht => exact (h.lockSlot ht).submitTo c id
  | setBusy i => exact (h.claim c i).submitTo c id
  | unlockClaimed i | unlockBusy i | storeJob i => exact (h.setSlot i _).submitTo c id
  | storeWork i => exact ((h.setCall_same c (by rfl)).setSlot i _).submitTo c id
  | poolLock _ _ hfree =>
    refine h.setPoolLock (fun d _ hd => ?_) (fun _ => rfl) trivial
    exact absurd ((h.adding d hd).symm.trans hfree) (by simp)
  | refused _ hpc => exact h.addTo (by rw [hpc]; trivial) trivial
  | addTest _ hpc hlt => exact h.addTo (by rw [hpc]; trivial) (h.nums.2 ▸ hlt)
  | addIndex _ hpc =>
    rw [hpc] at hroom
    exact h.addTo (by rw [hpc]; trivial) hroom
  | condInit _ n hpc | lockInit _ n hpc =>
    have hadd : (s.call c).pc.Adding := by rw [hpc]; trivial
    rw [hpc] at hroom
    exact (h.setSlot n _).addTo hadd hroom
  | addBusy _ n hpc =>
    rw [hpc] at hroom
    refine (h.claim c n).addTo ?_ hroom
    show ((s.setCall c fun x => { x with claimed := some n }).call c).pc.Adding
    rw [State.setCall_self, hpc]
    trivial
  | incRead _ _ hpc =>
    rw [hpc] at hroom
    exact h.addTo (by rw [hpc]; trivial) ⟨h.range.1, hroom⟩
  | incWrite _ _ _ hpc => exact h.increment hpc
  | growIndex hpc => exact h.addTo (by rw [hpc]; trivial) trivial
  | growWork i hpc =>
    refine ((h.setCall_same c (by rfl)).setSlot i _).addTo ?_ trivial
    show ((s.setCall c fun x => { x with stored := some i }).call c).pc.Adding
    rw [State.setCall_self, hpc]
    trivial
  | growJob i hpc =>
    have hadd : (s.call c).pc.Adding := by rw [hpc]; trivial
    exact (h.setSlot i _).addTo hadd trivial
  | poolUnlock _ _ hpc =>
    have hadd : (s.call c).pc.Adding := by rw [hpc]; trivial
    exact h.setPoolLock (fun d hne hd => hne (h.eq_of_adding hadd hd)) (fun hd => hd.elim) trivial

/-- A signal, or the outcome of `pthread_create`. -/
theorem Limits.signalStep (h : Limits min max s) {woken : Option Nat}
    (hs : signalStep s c woken = some s') : Limits min max s' := by
  unfold ThreadPool.signalStep at hs
  cases hpc : (s.call c).pc with
  | signal i =>
    rw [hpc] at hs
    obtain ⟨t, ht, rfl⟩ := Option.map_eq_some_iff.1 hs
    exact ((h.condSignal ht).setSlot i _).submitTo c id
  | wake grown i =>
    rw [hpc] at hs
    cases grown with
    | false =>
      obtain ⟨t, ht, rfl⟩ := Option.map_eq_some_iff.1 hs
      exact (h.condSignal ht).submitTo c id
    | true =>
      obtain ⟨t, ht, rfl⟩ := Option.map_eq_some_iff.1 hs
      exact ((h.condSignal ht).setSlot i _).submitTo c id
  | _ => rw [hpc] at hs; cases hs

/-- Whether `pthread_create` succeeds makes no difference to the numbers. -/
theorem Limits.createStep (h : Limits min max s) {id : Option (BitVec w)}
    (hs : createStep s c id = some s') : Limits min max s' := by
  unfold ThreadPool.createStep at hs
  cases hpc : (s.call c).pc with
  | create i n =>
    have hadd : (s.call c).pc.Adding := by rw [hpc]; trivial
    rw [hpc] at hs
    cases id with
    | none =>
      cases hs
      have hfreed : Limits min max { s with freed := n :: s.freed } :=
        ⟨h.nums, h.range, h.adding, h.room, h.above⟩
      exact hfreed.addTo hadd trivial
    | some id =>
      dsimp only at hs
      split at hs
      · cases hs
        have hmade : Limits min max { s with
            created := s.created + 1,
            thread := Function.update s.thread s.created ⟨id, .find 0⟩ } :=
          ⟨h.nums, h.range, h.adding, h.room, h.above⟩
        exact (hmade.setSlot n _).addTo hadd trivial
      · cases hs
  | _ => rw [hpc] at hs; cases hs

/-- A worker does not touch the numbers. -/
theorem Limits.workStep (h : Limits min max s) (hs : workStep s n = some s') :
    Limits min max s' := by
  cases workStep_rule hs with
  | find | missing | found | other | readWork | readJob => exact h.workTo n _
  | lockWait _ _ _ ht | relock _ _ _ ht | lockDone _ _ _ ht => exact (h.lockSlot ht).workTo n _
  | wait k | unlock k | unlockDone k => exact (h.setSlot k _).workTo n _
  | process k work job =>
    refine Limits.workTo ?_ n _
    unfold State.record
    split
    · exact h.setCall_same _ (by rfl)
    · exact h
  | setIdle k =>
    refine Limits.workTo ?_ n _
    unfold State.release
    refine Limits.setSlot ?_ k _
    split
    · exact h.setCall_same _ (by rfl)
    · exact h

/-! ## The manager -/

/-- The manager goes where it knows what it must. -/
theorem Limits.manageTo (h : Limits min max s) {m : ManagePc}
    (hm : m.Above min max s.curThNum) : Limits min max (s.manageTo m) :=
  ⟨h.nums, h.range, h.adding, h.room, hm⟩

theorem Limits.manageStep (h : Limits min max s) : Limits min max (manageStep s) := by
  have habove := h.above
  unfold ThreadPool.manageStep
  cases hpc : s.manager with
  | sleep => exact h.manageTo trivial
  | statTest i b => refine h.manageTo ?_; split <;> trivial
  | statBusy i b => exact h.manageTo trivial
  | statEnd b => refine h.manageTo ?_; split <;> trivial
  | delMin =>
    refine h.manageTo ?_
    split
    · trivial
    · next hlt =>
      rw [h.nums.1] at hlt
      exact Int.not_le.1 hlt
  | delBusy k =>
    rw [hpc] at habove
    refine h.manageTo ?_
    split
    · trivial
    · exact habove
  | busyIndex | killIndex | lockIndex | condIndex =>
    rw [hpc] at habove
    exact h.manageTo habove
  | kill k =>
    rw [hpc] at habove
    have hkilled : Limits min max { s with killed := k :: s.killed } :=
      ⟨h.nums, h.range, h.adding, h.room, h.above⟩
    unfold State.killWorker
    dsimp only
    split
    · exact (hkilled.workTo _ _).manageTo habove
    · exact hkilled.manageTo habove
  | destroyLock k | destroyCond k =>
    rw [hpc] at habove
    exact (h.setSlot k _).manageTo habove
  | decRead =>
    rw [hpc] at habove
    exact h.manageTo ⟨habove, h.range.2⟩
  | decWrite v =>
    -- every addition that relies on there being room finds more of it
    rw [hpc] at habove
    have hmax : v - 1 < max := Int.lt_of_lt_of_le (Int.sub_one_lt_of_le (Int.le_refl v)) habove.2
    exact ⟨h.nums, ⟨Int.le_sub_one_of_lt habove.1, Int.le_of_lt hmax⟩, h.adding,
      fun c => (h.room c).of_lt hmax, trivial⟩

/-! ## Every run -/

/-- Every step keeps the number of threads in its range, with what the parties know. -/
theorem Limits.step (h : Limits min max s) (hs : step s a = some s') : Limits min max s' := by
  cases a with
  | call c worker job =>
    obtain ⟨-, rfl⟩ := step_call hs
    exact h.setCall c (fun ha => ha.elim) trivial
  | submit c => exact h.submitStep hs
  | signal c woken => exact h.signalStep hs
  | create c id => exact h.createStep hs
  | work n => exact h.workStep hs
  | spurious n =>
    obtain ⟨k, -, rfl⟩ := step_spurious hs
    exact h.workTo n _
  | manage =>
    cases hs
    exact h.manageStep

theorem Limits.init (h : Created min max s) : Limits min max s := by
  obtain ⟨hmin, hcur, hmax⟩ := h.nums
  refine ⟨⟨hmin, hmax⟩, ?_, fun c hc => ?_, fun c => ?_, ?_⟩
  · rw [hcur]
    exact ⟨Int.le_refl _, h.range.2⟩
  · rw [h.calls c] at hc
    exact hc.elim
  · rw [h.calls c]
    trivial
  · rw [h.manager]
    trivial

/-- **The number of threads stays within its limits**, whatever the schedule, and however often
`pthread_create` fails. -/
theorem curThNum_in_limits {min max : Int}
    (hr : (createdMachine w ω δ min max).Reach Machine.anyStep s) :
    min ≤ s.curThNum ∧ s.curThNum ≤ max :=
  (hr.invariant (fun _ => Limits.init) fun _ _ _ h _ hs => h.step hs).range

end

/-- Submission `0` adds a slot, and `pthread_create` fails. -/
def failedCreate : List (Act 64 Nat Nat) :=
  .call 0 10 20 :: List.replicate 9 (Act.submit 0) ++ [.create 0 none, .submit 0]

theorem failedCreate_in_limits : ∃ s : State 64 Nat Nat,
    (createdMachine 64 Nat Nat 0 1).Reach Machine.anyStep s ∧ s.curThNum = 1 ∧
      (0 ≤ s.curThNum ∧ s.curThNum ≤ 1) := by
  have hrun : ((createdMachine 64 Nat Nat 0 1).runFrom (idlePool 0 1) failedCreate).map
      (fun s => s.curThNum) = some 1 := by
    decide +kernel
  obtain ⟨s, hs, hcur⟩ := Option.map_eq_some_iff.1 hrun
  have hreach : (createdMachine 64 Nat Nat 0 1).Reach Machine.anyStep s :=
    ⟨_, _, (idlePool_initialised (by decide) (by decide)).created_pool,
      .of_runFrom (fun _ _ _ => trivial) hs⟩
  exact ⟨s, hreach, hcur, curThNum_in_limits hreach⟩

end LinuxTraining.ThreadPool
