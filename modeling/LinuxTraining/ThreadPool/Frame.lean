import LinuxTraining.ThreadPool.Pool

/-!
# The thread pool: what a step does, and what it leaves alone

`submitStep_rule` and `workStep_rule` say what a step of a submission and of a worker can be, with
the tests it has passed. From them, one frame for each kind of step: `submitStep_frame`,
`workStep_frame`, `signalStep_frame`, `createStep_frame` and `manageStep_frame` say which
submissions and workers it leaves alone, and how it changes the history of a slot. `Alone` are the
runs of one submission and one worker.
-/

namespace LinuxTraining.ThreadPool

variable {w : Nat} {ω δ : Type}

/-- The submission that takes a step. -/
def Act.submission : Act w ω δ → Option Nat
  | .call c _ _ | .submit c | .signal c _ | .create c _ => some c
  | .work _ | .spurious _ | .manage => none

/-! ## What a step does -/

/-- A step of `tp_process_job` that is neither a signal nor a `pthread_create`, by its program
point. -/
inductive SubmitRule (s : State w ω δ) (c : Nat) : State w ω δ → Prop
  | test (i) (hpc : (s.call c).pc = .test i) (hlt : i < s.curThNum) :
    SubmitRule s c (s.submitTo c (.lock i))
  | past (i) (hpc : (s.call c).pc = .test i) (hge : ¬ i < s.curThNum) :
    SubmitRule s c (s.submitTo c (.poolLock i))
  | lock (i t) (hpc : (s.call c).pc = .lock i) (ht : s.lockSlot i (.submit c) = some t) :
    SubmitRule s c (t.submitTo c (.readBusy i))
  | busy (i) (hpc : (s.call c).pc = .readBusy i) (hb : (s.slot i).isBusy = true) :
    SubmitRule s c (s.submitTo c (.unlockBusy i))
  | idle (i) (hpc : (s.call c).pc = .readBusy i) (hb : (s.slot i).isBusy = false) :
    SubmitRule s c (s.submitTo c (.setBusy i))
  | setBusy (i) (hpc : (s.call c).pc = .setBusy i) :
    SubmitRule s c ((s.claim c i).submitTo c (.unlockClaimed i))
  | unlockClaimed (i) (hpc : (s.call c).pc = .unlockClaimed i) :
    SubmitRule s c ((s.unlockSlot i).submitTo c (.storeWork i))
  | storeWork (i) (hpc : (s.call c).pc = .storeWork i) :
    SubmitRule s c ((s.putWork c i).submitTo c (.storeJob i))
  | storeJob (i) (hpc : (s.call c).pc = .storeJob i) :
    SubmitRule s c ((s.putJob c i).submitTo c (.signal i))
  | unlockBusy (i) (hpc : (s.call c).pc = .unlockBusy i) :
    SubmitRule s c ((s.unlockSlot i).submitTo c (.test (i + 1)))
  | poolLock (i) (hpc : (s.call c).pc = .poolLock i) (hfree : s.tpLock = none) :
    SubmitRule s c ({ s with tpLock := some c }.submitTo c (.addTest i))
  | refused (i) (hpc : (s.call c).pc = .addTest i) (hmax : s.maxThNum ≤ s.curThNum) :
    SubmitRule s c (s.submitTo c (.poolUnlock false i))
  | addTest (i) (hpc : (s.call c).pc = .addTest i) (hroom : s.curThNum < s.maxThNum) :
    SubmitRule s c (s.submitTo c (.addIndex i))
  | addIndex (i) (hpc : (s.call c).pc = .addIndex i) :
    SubmitRule s c (s.submitTo c (.condInit i s.curThNum))
  | condInit (i n) (hpc : (s.call c).pc = .condInit i n) :
    SubmitRule s c ((s.setSlot n fun x => { x with threadCond := .live }).submitTo c
      (.lockInit i n))
  | lockInit (i n) (hpc : (s.call c).pc = .lockInit i n) :
    SubmitRule s c ((s.setSlot n fun x => { x with threadLock := .live, owner := none }).submitTo c
      (.addBusy i n))
  | addBusy (i n) (hpc : (s.call c).pc = .addBusy i n) :
    SubmitRule s c ((s.claim c n).submitTo c (.incRead i n))
  | incRead (i n) (hpc : (s.call c).pc = .incRead i n) :
    SubmitRule s c (s.submitTo c (.incWrite i n s.curThNum))
  | incWrite (i n v) (hpc : (s.call c).pc = .incWrite i n v) :
    SubmitRule s c ({ s with curThNum := v + 1 }.submitTo c (.create i n))
  | growIndex (hpc : (s.call c).pc = .growIndex) :
    SubmitRule s c (s.submitTo c (.growWork (s.curThNum - 1)))
  | growWork (i) (hpc : (s.call c).pc = .growWork i) :
    SubmitRule s c ((s.putWork c i).submitTo c (.growJob i))
  | growJob (i) (hpc : (s.call c).pc = .growJob i) :
    SubmitRule s c ((s.putJob c i).submitTo c (.poolUnlock true i))
  | poolUnlock (grown i) (hpc : (s.call c).pc = .poolUnlock grown i) :
    SubmitRule s c ({ s with tpLock := none }.submitTo c (.wake grown i))

theorem submitStep_rule {s s' : State w ω δ} {c : Nat} (h : submitStep s c = some s') :
    SubmitRule s c s' := by
  unfold submitStep at h
  cases hpc : (s.call c).pc with
  | idle | signal | create | wake | returned => rw [hpc] at h; cases h
  | test i =>
    rw [hpc] at h
    cases h
    split
    · next hlt => exact .test i hpc hlt
    · next hge => exact .past i hpc hge
  | lock i =>
    rw [hpc] at h
    obtain ⟨t, ht, rfl⟩ := Option.map_eq_some_iff.1 h
    exact .lock i t hpc ht
  | readBusy i =>
    rw [hpc] at h
    cases h
    split
    · next hb => exact .busy i hpc hb
    · next hb => exact .idle i hpc (Bool.eq_false_iff.2 hb)
  | poolLock i =>
    rw [hpc] at h
    dsimp only at h
    split at h <;> cases h
    next hfree => exact .poolLock i hpc hfree
  | addTest i =>
    rw [hpc] at h
    cases h
    split
    · next hmax => exact .refused i hpc hmax
    · next hroom => exact .addTest i hpc (not_le.1 hroom)
  | setBusy => rw [hpc] at h; cases h; exact .setBusy _ hpc
  | unlockClaimed => rw [hpc] at h; cases h; exact .unlockClaimed _ hpc
  | storeWork => rw [hpc] at h; cases h; exact .storeWork _ hpc
  | storeJob => rw [hpc] at h; cases h; exact .storeJob _ hpc
  | unlockBusy => rw [hpc] at h; cases h; exact .unlockBusy _ hpc
  | addIndex => rw [hpc] at h; cases h; exact .addIndex _ hpc
  | condInit => rw [hpc] at h; cases h; exact .condInit _ _ hpc
  | lockInit => rw [hpc] at h; cases h; exact .lockInit _ _ hpc
  | addBusy => rw [hpc] at h; cases h; exact .addBusy _ _ hpc
  | incRead => rw [hpc] at h; cases h; exact .incRead _ _ hpc
  | incWrite => rw [hpc] at h; cases h; exact .incWrite _ _ _ hpc
  | growIndex => rw [hpc] at h; cases h; exact .growIndex hpc
  | growWork => rw [hpc] at h; cases h; exact .growWork _ hpc
  | growJob => rw [hpc] at h; cases h; exact .growJob _ hpc
  | poolUnlock => rw [hpc] at h; cases h; exact .poolUnlock _ _ hpc

/-- A step of `tp_work_thread`, by its program point. -/
inductive WorkRule (s : State w ω δ) (n : Nat) : State w ω δ → Prop
  | find (i) (hpc : (s.thread n).pc = .find i) (hlt : i < s.curThNum) :
    WorkRule s n (s.workTo n (.cmp i))
  | missing (i) (hpc : (s.thread n).pc = .find i) (hge : ¬ i < s.curThNum) :
    WorkRule s n (s.workTo n .exited)
  | found (i) (hpc : (s.thread n).pc = .cmp i)
      (hid : narrowed (s.thread n).id = (s.slot i).threadId) :
    WorkRule s n (s.workTo n (.lockWait i))
  | other (i) (hpc : (s.thread n).pc = .cmp i)
      (hid : narrowed (s.thread n).id ≠ (s.slot i).threadId) :
    WorkRule s n (s.workTo n (.find (i + 1)))
  | lockWait (k t) (hpc : (s.thread n).pc = .lockWait k) (ht : s.lockSlot k (.work n) = some t) :
    WorkRule s n (t.workTo n (.wait k))
  | wait (k) (hpc : (s.thread n).pc = .wait k) :
    WorkRule s n ((s.unlockSlot k).workTo n (.waiting k))
  | relock (k t) (hpc : (s.thread n).pc = .relock k) (ht : s.lockSlot k (.work n) = some t) :
    WorkRule s n (t.workTo n (.unlock k))
  | unlock (k) (hpc : (s.thread n).pc = .unlock k) :
    WorkRule s n ((s.unlockSlot k).workTo n (.readWork k))
  | readWork (k) (hpc : (s.thread n).pc = .readWork k) :
    WorkRule s n (s.workTo n (.readJob k (s.slot k).thWork))
  | readJob (k work) (hpc : (s.thread n).pc = .readJob k work) :
    WorkRule s n (s.workTo n (.process k work (s.slot k).thJob))
  | process (k work job) (hpc : (s.thread n).pc = .process k work job) :
    WorkRule s n ((s.record n k work job).workTo n (.lockDone k))
  | lockDone (k t) (hpc : (s.thread n).pc = .lockDone k) (ht : s.lockSlot k (.work n) = some t) :
    WorkRule s n (t.workTo n (.setIdle k))
  | setIdle (k) (hpc : (s.thread n).pc = .setIdle k) :
    WorkRule s n ((s.release k).workTo n (.unlockDone k))
  | unlockDone (k) (hpc : (s.thread n).pc = .unlockDone k) :
    WorkRule s n ((s.unlockSlot k).workTo n (.lockWait k))

theorem workStep_rule {s s' : State w ω δ} {n : Nat} (h : workStep s n = some s') :
    WorkRule s n s' := by
  unfold workStep at h
  cases hpc : (s.thread n).pc with
  | unborn | waiting | exited | killed => rw [hpc] at h; cases h
  | find i =>
    rw [hpc] at h
    cases h
    split
    · next hlt => exact .find i hpc hlt
    · next hge => exact .missing i hpc hge
  | cmp i =>
    rw [hpc] at h
    cases h
    split
    · next hid => exact .found i hpc hid
    · next hid => exact .other i hpc hid
  | lockWait k =>
    rw [hpc] at h
    obtain ⟨t, ht, rfl⟩ := Option.map_eq_some_iff.1 h
    exact .lockWait k t hpc ht
  | relock k =>
    rw [hpc] at h
    obtain ⟨t, ht, rfl⟩ := Option.map_eq_some_iff.1 h
    exact .relock k t hpc ht
  | lockDone k =>
    rw [hpc] at h
    obtain ⟨t, ht, rfl⟩ := Option.map_eq_some_iff.1 h
    exact .lockDone k t hpc ht
  | wait => rw [hpc] at h; cases h; exact .wait _ hpc
  | unlock => rw [hpc] at h; cases h; exact .unlock _ hpc
  | readWork => rw [hpc] at h; cases h; exact .readWork _ hpc
  | readJob => rw [hpc] at h; cases h; exact .readJob _ _ hpc
  | process => rw [hpc] at h; cases h; exact .process _ _ _ hpc
  | setIdle => rw [hpc] at h; cases h; exact .setIdle _ hpc
  | unlockDone => rw [hpc] at h; cases h; exact .unlockDone _ hpc

section
variable {s s' t : State w ω δ} {c n : Nat} {i k : Int} {a : Act w ω δ}

/-- A change of a slot that keeps its history. -/
theorem update_phase {slot : Int → Slot w ω δ} {y : Slot w ω δ} (k : Int)
    (hy : y.phase = (slot i).phase) :
    ((Function.update slot i y) k).phase = (slot k).phase := by
  rcases eq_or_ne k i with rfl | hne
  · rw [Function.update_self, hy]
  · rw [Function.update_of_ne hne]

/-- A lock of a slot changes its owner only. -/
theorem lockSlot_eq {p : Party} (h : s.lockSlot i p = some t) :
    t = s.setSlot i fun x => { x with owner := some p } := by
  unfold State.lockSlot at h
  split at h <;> cases h
  rfl

/-- A signal moves the woken worker only. -/
theorem condSignal_eq {woken : Option Nat} (h : s.condSignal i woken = some t) :
    woken = none ∧ t = s ∨
      ∃ n, woken = some n ∧ (s.thread n).pc = .waiting i ∧ t = s.workTo n (.relock i) := by
  cases woken with
  | none =>
    simp only [State.condSignal] at h
    split at h <;> cases h
    exact .inl ⟨rfl, rfl⟩
  | some n =>
    simp only [State.condSignal] at h
    split at h
    · next hwaits =>
      cases h
      exact .inr ⟨n, rfl, State.waitsOn_iff.1 hwaits, rfl⟩
    · cases h

/-! ## Submissions -/

/-- What a step of `tp_process_job` between its signals leaves alone. -/
structure SubmitFrame (s t : State w ω δ) (c : Nat) : Prop where
  thread : t.thread = s.thread
  created : t.created = s.created
  manager : t.manager = s.manager
  killed : t.killed = s.killed
  call : ∀ d, d ≠ c → t.call d = s.call d
  phase : ∀ k, (t.slot k).phase = (s.slot k).phase ∨ (t.slot k).phase = .claimed c

theorem SubmitFrame.refl : SubmitFrame s s c :=
  ⟨rfl, rfl, rfl, rfl, fun _ _ => rfl, fun _ => .inl rfl⟩

theorem SubmitFrame.pool (s : State w ω δ) (c : Nat) (o : Option Nat) (v : Int) :
    SubmitFrame s { s with tpLock := o, curThNum := v } c :=
  ⟨rfl, rfl, rfl, rfl, fun _ _ => rfl, fun _ => .inl rfl⟩

theorem SubmitFrame.setCall (h : SubmitFrame s t c) (f : Submission ω δ → Submission ω δ) :
    SubmitFrame s (t.setCall c f) c :=
  ⟨h.thread, h.created, h.manager, h.killed,
    fun d hd => (Function.update_of_ne hd ..).trans (h.call d hd), h.phase⟩

theorem SubmitFrame.setSlot (h : SubmitFrame s t c) (i : Int) {f : Slot w ω δ → Slot w ω δ}
    (hf : (f (t.slot i)).phase = (t.slot i).phase ∨ (f (t.slot i)).phase = .claimed c) :
    SubmitFrame s (t.setSlot i f) c := by
  refine ⟨h.thread, h.created, h.manager, h.killed, h.call, fun k => ?_⟩
  change ((Function.update t.slot i (f (t.slot i))) k).phase = _ ∨
    ((Function.update t.slot i (f (t.slot i))) k).phase = _
  rcases eq_or_ne k i with rfl | hne
  · rw [Function.update_self]
    rcases hf with hf | hf
    · rw [hf]
      exact h.phase k
    · exact .inr hf
  · rw [Function.update_of_ne hne]
    exact h.phase k

theorem submitStep_frame (h : submitStep s c = some s') : SubmitFrame s s' c := by
  cases submitStep_rule h with
  | test | past | busy | idle | refused | addTest | addIndex | incRead | growIndex =>
    exact SubmitFrame.refl.setCall _
  | incWrite i n v => exact (SubmitFrame.pool s c s.tpLock (v + 1)).setCall _
  | poolUnlock => exact (SubmitFrame.pool s c none s.curThNum).setCall _
  | poolLock => exact (SubmitFrame.pool s c (some c) s.curThNum).setCall _
  | lock i _ _ ht =>
    obtain rfl := lockSlot_eq ht
    exact (SubmitFrame.refl.setSlot i (.inl rfl)).setCall _
  | setBusy i | addBusy _ i => exact ((SubmitFrame.refl.setCall _).setSlot i (.inr rfl)).setCall _
  | storeWork i | growWork i => exact ((SubmitFrame.refl.setCall _).setSlot i (.inl rfl)).setCall _
  | unlockClaimed i | unlockBusy i | storeJob i | growJob i | condInit _ i | lockInit _ i =>
    exact (SubmitFrame.refl.setSlot i (.inl rfl)).setCall _

/-! ## Workers -/

/-- What a step of `tp_work_thread` leaves alone. -/
structure WorkFrame (s t : State w ω δ) (n : Nat) : Prop where
  created : t.created = s.created
  manager : t.manager = s.manager
  killed : t.killed = s.killed
  pc : ∀ c, (t.call c).pc = (s.call c).pc
  thread : ∀ m, m ≠ n → t.thread m = s.thread m
  phase : ∀ k, (t.slot k).phase = (s.slot k).phase ∨
    (t.slot k).phase = .free ∧ (s.thread n).pc = .setIdle k

theorem WorkFrame.refl : WorkFrame s s n :=
  ⟨rfl, rfl, rfl, fun _ => rfl, fun _ _ => rfl, fun _ => .inl rfl⟩

theorem WorkFrame.workTo (h : WorkFrame s t n) (pc : WorkPc ω δ) :
    WorkFrame s (t.workTo n pc) n :=
  ⟨h.created, h.manager, h.killed, h.pc,
    fun m hm => (Function.update_of_ne hm ..).trans (h.thread m hm), h.phase⟩

theorem WorkFrame.setCall (h : WorkFrame s t n) (c : Nat)
    {f : Submission ω δ → Submission ω δ} (hf : (f (t.call c)).pc = (t.call c).pc) :
    WorkFrame s (t.setCall c f) n := by
  refine ⟨h.created, h.manager, h.killed, fun d => ?_, h.thread, h.phase⟩
  change ((Function.update t.call c (f (t.call c))) d).pc = _
  rcases eq_or_ne d c with rfl | hne
  · rw [Function.update_self, hf]
    exact h.pc d
  · rw [Function.update_of_ne hne]
    exact h.pc d

theorem WorkFrame.setSlot (h : WorkFrame s t n) (i : Int) {f : Slot w ω δ → Slot w ω δ}
    (hf : (f (t.slot i)).phase = (t.slot i).phase ∨
      (f (t.slot i)).phase = .free ∧ (s.thread n).pc = .setIdle i) :
    WorkFrame s (t.setSlot i f) n := by
  refine ⟨h.created, h.manager, h.killed, h.pc, h.thread, fun k => ?_⟩
  change ((Function.update t.slot i (f (t.slot i))) k).phase = _ ∨
    ((Function.update t.slot i (f (t.slot i))) k).phase = _ ∧ _
  rcases eq_or_ne k i with rfl | hne
  · rw [Function.update_self]
    rcases hf with hf | hf
    · rw [hf]
      exact h.phase k
    · exact .inr hf
  · rw [Function.update_of_ne hne]
    exact h.phase k

theorem workStep_frame (h : workStep s n = some s') : WorkFrame s s' n := by
  cases workStep_rule h with
  | find | missing | found | other | readWork | readJob => exact WorkFrame.refl.workTo _
  | lockWait k _ _ ht | relock k _ _ ht | lockDone k _ _ ht =>
    obtain rfl := lockSlot_eq ht
    exact (WorkFrame.refl.setSlot k (.inl rfl)).workTo _
  | wait k | unlock k | unlockDone k => exact (WorkFrame.refl.setSlot k (.inl rfl)).workTo _
  | process k work job =>
    refine WorkFrame.workTo ?_ _
    unfold State.record
    split
    · exact WorkFrame.refl.setCall _ rfl
    · exact .refl
  | setIdle k hpc =>
    refine WorkFrame.workTo ?_ _
    unfold State.release
    refine WorkFrame.setSlot ?_ k (.inr ⟨rfl, hpc⟩)
    split
    · exact WorkFrame.refl.setCall _ rfl
    · exact .refl

/-! ## Signals -/

/-- What the signal of a submission leaves alone. -/
structure SignalFrame (s t : State w ω δ) (c : Nat) (woken : Option Nat) : Prop where
  created : t.created = s.created
  manager : t.manager = s.manager
  killed : t.killed = s.killed
  call : ∀ d, d ≠ c → t.call d = s.call d
  thread : ∀ n, (t.thread n).pc = (s.thread n).pc ∨
    ∃ k, (s.thread n).pc = .waiting k ∧ (t.thread n).pc = .relock k
  phase : ∀ k, (t.slot k).phase = (s.slot k).phase ∨
    ((s.call c).pc = .signal k ∨ (s.call c).pc = .wake true k) ∧
      (t.slot k).phase = .signalled c woken ∧
      ∀ n, woken = some n → (t.thread n).pc = .relock k

theorem condSignal_frame {woken : Option Nat} (h : s.condSignal i woken = some t) :
    SignalFrame s t c woken ∧ ∀ n, woken = some n → (t.thread n).pc = .relock i := by
  rcases condSignal_eq h with ⟨rfl, rfl⟩ | ⟨n, rfl, hpc, rfl⟩
  · exact ⟨⟨rfl, rfl, rfl, fun _ _ => rfl, fun _ => .inl rfl, fun _ => .inl rfl⟩, nofun⟩
  · have hself : ((s.workTo n (.relock i)).thread n).pc = .relock i :=
      congrArg Thread.pc (State.workTo_self ..)
    refine ⟨⟨rfl, rfl, rfl, fun _ _ => rfl, fun m => ?_, fun _ => .inl rfl⟩, fun m hm => ?_⟩
    · rcases eq_or_ne m n with rfl | hne
      · exact .inr ⟨i, hpc, hself⟩
      · exact .inl (congrArg Thread.pc (State.workTo_of_ne _ _ hne))
    · cases hm
      exact hself

theorem SignalFrame.returned {woken : Option Nat} (h : SignalFrame s t c woken) :
    SignalFrame s (t.submitTo c .returned) c woken :=
  ⟨h.created, h.manager, h.killed,
    fun d hd => (Function.update_of_ne hd ..).trans (h.call d hd), h.thread, h.phase⟩

theorem SignalFrame.signalled {woken : Option Nat} (h : SignalFrame s t c woken)
    (hpc : (s.call c).pc = .signal i ∨ (s.call c).pc = .wake true i)
    (hwoken : ∀ n, woken = some n → (t.thread n).pc = .relock i) :
    SignalFrame s (t.setSlot i fun x => { x with phase := .signalled c woken }) c woken := by
  refine ⟨h.created, h.manager, h.killed, h.call, h.thread, fun k => ?_⟩
  rcases eq_or_ne k i with rfl | hne
  · exact .inr ⟨hpc, congrArg Slot.phase (State.setSlot_self ..), hwoken⟩
  · have hsame := congrArg Slot.phase (State.setSlot_of_ne t
      (fun x => { x with phase := .signalled c woken }) hne)
    rcases h.phase k with hk | ⟨hk, hk', hk''⟩
    · exact .inl (hsame.trans hk)
    · exact .inr ⟨hk, hsame.trans hk', hk''⟩

theorem signalStep_frame {woken : Option Nat} (h : signalStep s c woken = some s') :
    SignalFrame s s' c woken := by
  unfold signalStep at h
  cases hpc : (s.call c).pc with
  | signal i =>
    rw [hpc] at h
    obtain ⟨t, ht, rfl⟩ := Option.map_eq_some_iff.1 h
    obtain ⟨hframe, hwoken⟩ := condSignal_frame ht
    exact (hframe.signalled (.inl hpc) hwoken).returned
  | wake grown i =>
    rw [hpc] at h
    cases grown with
    | false =>
      obtain ⟨t, ht, rfl⟩ := Option.map_eq_some_iff.1 h
      exact (condSignal_frame ht).1.returned
    | true =>
      obtain ⟨t, ht, rfl⟩ := Option.map_eq_some_iff.1 h
      obtain ⟨hframe, hwoken⟩ := condSignal_frame ht
      exact (hframe.signalled (.inr hpc) hwoken).returned
  | _ => rw [hpc] at h; cases h

/-! ## Calls and spurious wakeups -/

/-- A call of `tp_process_job` is made by a submission that has not begun. -/
theorem step_call {worker : ω} {job : δ} (h : step s (.call c worker job) = some s') :
    (s.call c).pc = .idle ∧ s' = s.setCall c fun x => { x with worker, job, pc := .test 0 } := by
  simp only [step] at h
  split at h <;> cases h
  next hpc => exact ⟨hpc, rfl⟩

/-- A spurious wakeup is of a worker that is blocked in `pthread_cond_wait`. -/
theorem step_spurious (h : step s (.spurious n) = some s') :
    ∃ k, (s.thread n).pc = .waiting k ∧ s' = s.workTo n (.relock k) := by
  simp only [step] at h
  split at h <;> cases h
  next k hk => exact ⟨k, hk, rfl⟩

/-! ## Creation and deletion -/

/-- What `pthread_create` leaves alone. -/
theorem createStep_frame {id : Option (BitVec w)} (h : createStep s c id = some s') :
    s'.manager = s.manager ∧ s'.killed = s.killed ∧ (∀ d, d ≠ c → s'.call d = s.call d) ∧
      (∀ n, n ≠ s.created → s'.thread n = s.thread n) ∧
      (s'.created = s.created ∨ s'.created = s.created + 1) ∧
      ∀ k, (s'.slot k).phase = (s.slot k).phase := by
  unfold createStep at h
  cases hpc : (s.call c).pc with
  | create i n =>
    rw [hpc] at h
    cases id with
    | none =>
      cases h
      exact ⟨rfl, rfl, fun d hd => Function.update_of_ne hd .., fun _ _ => rfl, .inl rfl,
        fun _ => rfl⟩
    | some id =>
      dsimp only at h
      split at h <;> cases h
      exact ⟨rfl, rfl, fun d hd => Function.update_of_ne hd ..,
        fun m hm => Function.update_of_ne hm .., .inr rfl, fun k => update_phase k (by rfl)⟩
  | _ => rw [hpc] at h; cases h

/-- What the manager leaves alone. -/
theorem manageStep_frame (s : State w ω δ) :
    (manageStep s).call = s.call ∧ (manageStep s).created = s.created ∧
      (∀ n, (manageStep s).thread n = s.thread n ∨
        ∃ k, s.manager = .kill k ∧ (s.slot k).worker = some n ∧
          ((manageStep s).thread n).pc = .killed) ∧
      ((∀ k, s.manager ≠ .kill k) → (manageStep s).killed = s.killed) ∧
      ∀ k, ((manageStep s).slot k).phase = (s.slot k).phase := by
  unfold manageStep
  cases hpc : s.manager with
  | kill k =>
    unfold State.killWorker
    dsimp only
    split
    · next n hn =>
      refine ⟨rfl, rfl, fun m => ?_, fun hk => absurd rfl (hk k), fun _ => rfl⟩
      rcases eq_or_ne m n with rfl | hne
      · exact .inr ⟨k, rfl, hn, congrArg Thread.pc (State.workTo_self ..)⟩
      · exact .inl (Function.update_of_ne hne ..)
    · exact ⟨rfl, rfl, fun _ => .inl rfl, fun hk => absurd rfl (hk k), fun _ => rfl⟩
  | destroyLock i | destroyCond i =>
    exact ⟨rfl, rfl, fun _ => .inl rfl, fun _ => rfl, fun k => update_phase k (by rfl)⟩
  | _ => exact ⟨rfl, rfl, fun _ => .inl rfl, fun _ => rfl, fun _ => rfl⟩

/-! ## Runs of one submission and one worker -/

/-- Nobody but submission `0` and worker `0` has taken a step. -/
def Alone (s : State w ω δ) : Prop :=
  (∀ c, c ≠ 0 → (s.call c).pc = .idle) ∧ ∀ n, n ≠ 0 → (s.thread n).pc = .unborn

/-- Nobody else begins, when the steps are those of submission `0`, no worker but `0` is made, and
none but `0` is killed. -/
theorem Alone.step (h : Alone s) (hs : step s a = some s')
    (hc : ∀ c, a.submission = some c → c = 0)
    (hmade : ∀ c id, a = .create c id → s.created = 0)
    (hkill : a = .manage → ∀ k, s.manager = .kill k → (s.slot k).worker = some 0) :
    Alone s' := by
  obtain ⟨hcalls, hthreads⟩ := h
  cases a with
  | call d worker job =>
    obtain rfl := hc d rfl
    obtain ⟨-, rfl⟩ := step_call hs
    refine ⟨fun c hne => ?_, hthreads⟩
    rw [State.setCall_of_ne _ _ hne]
    exact hcalls c hne
  | submit d =>
    obtain rfl := hc d rfl
    have hframe := submitStep_frame hs
    refine ⟨fun c hne => ?_, fun n hne => ?_⟩
    · rw [hframe.call c hne]
      exact hcalls c hne
    · rw [hframe.thread]
      exact hthreads n hne
  | signal d woken =>
    obtain rfl := hc d rfl
    have hframe := signalStep_frame hs
    refine ⟨fun c hne => ?_, fun n hne => ?_⟩
    · rw [hframe.call c hne]
      exact hcalls c hne
    · rcases hframe.thread n with hsame | ⟨k, hk, -⟩
      · exact hsame.trans (hthreads n hne)
      · exact absurd ((hthreads n hne).symm.trans hk) nofun
  | create d id =>
    obtain rfl := hc d rfl
    obtain ⟨-, -, hcall, hthread, -⟩ := createStep_frame hs
    rw [hmade _ _ rfl] at hthread
    refine ⟨fun c hne => ?_, fun n hne => ?_⟩
    · rw [hcall c hne]
      exact hcalls c hne
    · rw [hthread n hne]
      exact hthreads n hne
  | work m =>
    have hframe := workStep_frame hs
    refine ⟨fun c hne => (hframe.pc c).trans (hcalls c hne), fun n hne => ?_⟩
    have hnm : n ≠ m := by
      rintro rfl
      simp only [ThreadPool.step, workStep, hthreads n hne] at hs
      cases hs
    rw [hframe.thread n hnm]
    exact hthreads n hne
  | spurious m =>
    obtain ⟨k, hk, rfl⟩ := step_spurious hs
    refine ⟨hcalls, fun n hne => ?_⟩
    have hnm : n ≠ m := by
      rintro rfl
      exact absurd ((hthreads n hne).symm.trans hk) nofun
    rw [State.workTo_of_ne _ _ hnm]
    exact hthreads n hne
  | manage =>
    cases hs
    obtain ⟨hcall, -, hthread, -⟩ := manageStep_frame s
    refine ⟨fun c hne => ?_, fun n hne => ?_⟩
    · rw [hcall]
      exact hcalls c hne
    · rcases hthread n with hsame | ⟨k, hk, hn, -⟩
      · rw [hsame]
        exact hthreads n hne
      · exact absurd (Option.some.inj (hn.symm.trans (hkill rfl k hk))) hne

/-- Nobody has taken a step in an initialised pool of at most one worker. -/
theorem alone_idlePool {min max : Nat} (h : min ≤ 1) : Alone (idlePool min max) := by
  refine ⟨fun _ _ => rfl, fun n hn => ?_⟩
  have hge : ¬ n < min := by omega
  exact if_neg hge

end

end LinuxTraining.ThreadPool
