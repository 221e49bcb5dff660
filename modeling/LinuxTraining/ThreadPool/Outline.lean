import LinuxTraining.ThreadPool.Pool

/-!
# The thread pool: what holds at each program point

`SubmitOk`, `WorkOk` and `ManageOk` annotate the program points of `tp_process_job`,
`tp_work_thread` and `tp_manage_thread`; `Global` holds between all steps; `Inv` is their
conjunction. An annotation reads the shared pool and its own party only: `SubmitSteady` and
`WorkSteady` are what it needs of a step of another party, and `Others` are the annotations of the
parties that do not step.
-/

namespace LinuxTraining.ThreadPool

variable {w : Nat} {ω δ : Type}

/-! ## Annotations -/

/-- The slot that a worker serves. -/
def WorkPc.serves : WorkPc ω δ → Option Int
  | .lockWait k | .wait k | .waiting k | .relock k | .unlock k | .readWork k | .readJob k _
  | .process k _ _ | .lockDone k | .setIdle k | .unlockDone k => some k
  | .unborn | .find _ | .cmp _ | .exited | .killed => none

/-- A submission at this point may lock slot `k` next, is about to signal it after a refused
growth, or is within `tp_add_thread`. -/
def SubmitPc.Threatens : SubmitPc → Int → Prop
  | .lock i, k | .readBusy i, k | .setBusy i, k | .unlockBusy i, k => i = k
  | .poolUnlock false i, k | .wake false i, k => i = k
  | .addTest _, _ | .addIndex _, _ | .condInit _ _, _ | .lockInit _ _, _ | .addBusy _ _, _
  | .incRead _ _, _ | .incWrite _ _ _, _ | .create _ _, _ | .growIndex, _ => True
  | .idle, _ | .test _, _ | .unlockClaimed _, _ | .storeWork _, _ | .storeJob _, _ | .signal _, _
  | .poolLock _, _ | .growWork _, _ | .growJob _, _ | .poolUnlock true _, _ | .wake true _, _
  | .returned, _ => False

/-- `tp_delete_thread` has found its slot idle, and has not decremented `cur_th_num`. -/
def ManagePc.Deleting : ManagePc → Prop
  | .killIndex | .kill _ | .lockIndex | .destroyLock _ | .condIndex | .destroyCond _ | .decRead
  | .decWrite _ => True
  | .sleep | .statTest _ _ | .statBusy _ _ | .statEnd _ | .delMin | .busyIndex | .delBusy _ => False

/-- The lock or the condition variable of the slot is destroyed. -/
def Slot.Destroyed (x : Slot w ω δ) : Prop :=
  x.threadLock = .destroyed ∨ x.threadCond = .destroyed

/-- The submission has not marked a slot busy. -/
def Fresh (s : State w ω δ) (c : Nat) : Prop :=
  (s.call c).claimed = none ∧ (s.call c).stored = none ∧ (s.call c).runs = [] ∧
    (s.call c).finished = false

/-- The submission has marked slot `i` busy, and has not signalled. -/
def Claims (s : State w ω δ) (c : Nat) (i : Int) : Prop :=
  (s.slot i).phase = .claimed c ∧ (s.call c).claimed = some i ∧ (s.call c).runs = [] ∧
    (s.call c).finished = false

/-- The submission has stored its work in slot `i`. -/
def HasWork (s : State w ω δ) (c : Nat) (i : Int) : Prop :=
  (s.slot i).thWork = (s.call c).worker ∧ (s.call c).stored = some i

/-- The submission has stored its job in slot `i`. -/
def HasJob (s : State w ω δ) (c : Nat) (i : Int) : Prop :=
  (s.slot i).thJob = (s.call c).job

/-- Index `n` is that of the slot after the last. -/
def Next (s : State w ω δ) (n : Int) : Prop :=
  n = s.curThNum ∧ s.curThNum < s.maxThNum

/-- What holds where a submission is. -/
def SubmitOk (s : State w ω δ) (c : Nat) : SubmitPc → Prop
  | .idle => Fresh s c
  | .test i | .poolLock i => Fresh s c ∧ i ≤ s.maxThNum
  | .lock i => Fresh s c ∧ i < s.curThNum
  | .readBusy i | .unlockBusy i =>
    Fresh s c ∧ i < s.curThNum ∧ (s.slot i).owner = some (.submit c)
  | .setBusy i =>
    Fresh s c ∧ i < s.curThNum ∧ (s.slot i).owner = some (.submit c) ∧ (s.slot i).isBusy = false
  | .unlockClaimed i =>
    Claims s c i ∧ i < s.curThNum ∧ (s.call c).stored = none ∧ (s.slot i).owner = some (.submit c)
  | .storeWork i => Claims s c i ∧ i < s.curThNum ∧ (s.call c).stored = none
  | .storeJob i => Claims s c i ∧ i < s.curThNum ∧ HasWork s c i
  | .signal i | .wake true i => Claims s c i ∧ i < s.curThNum ∧ HasWork s c i ∧ HasJob s c i
  | .addTest i => Fresh s c ∧ s.tpLock = some c ∧ i ≤ s.maxThNum
  | .addIndex _ => Fresh s c ∧ s.tpLock = some c ∧ s.curThNum < s.maxThNum
  | .condInit _ n => Fresh s c ∧ s.tpLock = some c ∧ Next s n
  | .lockInit _ n =>
    Fresh s c ∧ s.tpLock = some c ∧ Next s n ∧ (s.slot n).threadCond = .live
  | .addBusy _ n =>
    Fresh s c ∧ s.tpLock = some c ∧ Next s n ∧ (s.slot n).threadCond = .live ∧
      (s.slot n).threadLock = .live
  | .incRead _ n =>
    Claims s c n ∧ (s.call c).stored = none ∧ s.tpLock = some c ∧ Next s n ∧
      (s.slot n).threadCond = .live ∧ (s.slot n).threadLock = .live
  | .incWrite _ n v =>
    Claims s c n ∧ (s.call c).stored = none ∧ s.tpLock = some c ∧ Next s n ∧
      (s.slot n).threadCond = .live ∧ (s.slot n).threadLock = .live ∧ v = n
  | .create _ n =>
    Claims s c n ∧ (s.call c).stored = none ∧ s.tpLock = some c ∧ s.curThNum = n + 1
  | .growIndex =>
    Claims s c (s.curThNum - 1) ∧ (s.call c).stored = none ∧ s.tpLock = some c
  | .growWork i =>
    Claims s c i ∧ i < s.curThNum ∧ (s.call c).stored = none ∧ s.tpLock = some c
  | .growJob i => Claims s c i ∧ i < s.curThNum ∧ HasWork s c i ∧ s.tpLock = some c
  | .poolUnlock true i =>
    Claims s c i ∧ i < s.curThNum ∧ HasWork s c i ∧ HasJob s c i ∧ s.tpLock = some c
  | .poolUnlock false i => Fresh s c ∧ ¬ (s.slot i).Destroyed ∧ s.tpLock = some c
  | .wake false i => Fresh s c ∧ ¬ (s.slot i).Destroyed
  | .returned => ∀ k, (s.slot k).phase ≠ .claimed c

/-- Worker `n` has been woken for submission `c`, whose pair is in slot `k`. -/
def RunsFor (s : State w ω δ) (n : Nat) (k : Int) (c : Nat) : Prop :=
  k < s.curThNum ∧ (s.slot k).phase = .running c n ∧ (s.slot k).thWork = (s.call c).worker ∧
    (s.slot k).thJob = (s.call c).job ∧ (s.call c).stored = some k ∧ (s.call c).finished = false

/-- Worker `n` is to run the pair of slot `k`, which no worker has run for the submission. -/
def ToRun (s : State w ω δ) (n : Nat) (k : Int) : Prop :=
  ∃ c, RunsFor s n k c ∧ (s.call c).runs = []

/-- Worker `n` has run the pair of slot `k`. -/
def HasRun (s : State w ω δ) (n : Nat) (k : Int) : Prop :=
  ∃ c, RunsFor s n k c ∧ (s.call c).runs = [⟨n, k, (s.call c).worker, (s.call c).job⟩]

/-- What holds where a worker is. -/
def WorkOk (s : State w ω δ) (n : Nat) : WorkPc ω δ → Prop
  | .unborn | .find _ | .exited | .killed => True
  | .cmp i => i < s.curThNum ∨ s.killed ≠ []
  | .lockWait k | .waiting k => k < s.curThNum
  | .wait k | .unlockDone k => k < s.curThNum ∧ (s.slot k).owner = some (.work n)
  | .relock k | .readWork k => ToRun s n k
  | .unlock k => ToRun s n k ∧ (s.slot k).owner = some (.work n)
  | .readJob k work => ToRun s n k ∧ work = (s.slot k).thWork
  | .process k work job => ToRun s n k ∧ work = (s.slot k).thWork ∧ job = (s.slot k).thJob
  | .lockDone k => HasRun s n k
  | .setIdle k => HasRun s n k ∧ (s.slot k).owner = some (.work n)

/-- The last slot is idle and no longer in use, and its worker is the only one on it. -/
def Closing (s : State w ω δ) : Prop :=
  s.minThNum < s.curThNum ∧ (s.slot (s.curThNum - 1)).isBusy = false ∧
    (∀ c, ¬ (s.call c).pc.Threatens (s.curThNum - 1)) ∧
    ∀ n, (s.thread n).pc.serves = some (s.curThNum - 1) →
      (s.slot (s.curThNum - 1)).worker = some n

/-- The worker of the last slot has been killed. -/
def Closed (s : State w ω δ) : Prop :=
  Closing s ∧ s.killed.head? = some (s.curThNum - 1) ∧
    ∀ n, (s.slot (s.curThNum - 1)).worker = some n → (s.thread n).pc = .killed

/-- What holds where the manager is. -/
def ManageOk (s : State w ω δ) : ManagePc → Prop
  | .sleep | .statTest _ _ | .statBusy _ _ | .statEnd _ | .delMin => True
  | .busyIndex | .delBusy _ => s.minThNum < s.curThNum
  | .killIndex => Closing s
  | .kill k => Closing s ∧ k = s.curThNum - 1
  | .lockIndex | .condIndex | .decRead => Closed s
  | .destroyLock k | .destroyCond k => Closed s ∧ k = s.curThNum - 1
  | .decWrite v => Closed s ∧ v = s.curThNum

/-- What holds between all steps. -/
structure Global (s : State w ω δ) : Prop where
  range : 0 ≤ s.minThNum ∧ s.minThNum ≤ s.curThNum ∧ s.curThNum ≤ s.maxThNum
  busy : ∀ k, (s.slot k).phase ≠ .free → (s.slot k).isBusy = true
  idle : ∀ k, 0 ≤ k → k < s.curThNum → (s.slot k).phase = .free → (s.slot k).isBusy = false
  above : ∀ k, s.curThNum ≤ k → (s.slot k).phase = .free ∨ ∃ c, (s.slot k).phase = .claimed c
  holder : ∀ k c, (s.slot k).phase.holder = some c → (s.call c).claimed = some k
  stored : ∀ c k, (s.call c).stored = some k →
    (s.call c).finished = true ∨ (s.slot k).phase.holder = some c
  finished : ∀ c, (s.call c).finished = true → ∃ n k, (s.call c).stored = some k ∧
    (s.call c).runs = [⟨n, k, (s.call c).worker, (s.call c).job⟩] ∧
      (s.killed = [] → (s.thread n).pc.serves = some k)
  born : ∀ n, s.created ≤ n → (s.thread n).pc = .unborn
  made : ∀ k n, (s.slot k).worker = some n → n < s.created
  dead : ∀ k, s.curThNum ≤ k → ∀ n, (s.slot k).worker = some n → (s.thread n).pc = .killed
  destroyed : ∀ k, (s.slot k).Destroyed →
    k < s.maxThNum ∧ (s.curThNum ≤ k ∨ s.manager.Deleting ∧ k = s.curThNum - 1)

/-- The annotations of all parties but one: a submission, a worker, or (`none`) the manager. -/
structure Others (s : State w ω δ) (p : Option Party) : Prop extends Global s where
  submit : ∀ c, p ≠ some (.submit c) → SubmitOk s c (s.call c).pc
  work : ∀ n, p ≠ some (.work n) → WorkOk s n (s.thread n).pc
  manage : p ≠ none → ManageOk s s.manager

/-- The annotations of all parties. -/
structure Inv (s : State w ω δ) : Prop extends Global s where
  submit : ∀ c, SubmitOk s c (s.call c).pc
  work : ∀ n, WorkOk s n (s.thread n).pc
  manage : ManageOk s s.manager

/-- A step starts where all annotations hold. -/
theorem Inv.others {s : State w ω δ} (h : Inv s) (p : Option Party) : Others s p :=
  ⟨h.toGlobal, fun c _ => h.submit c, fun n _ => h.work n, fun _ => h.manage⟩

/-! ## What a step of another party leaves alone -/

/-- What the annotation of a submission needs of a step of another party. -/
structure SubmitSteady (s s' : State w ω δ) (c : Nat) : Prop where
  call : s'.call c = s.call c
  max : s'.maxThNum = s.maxThNum
  cur : s.curThNum ≤ s'.curThNum
  pool : s.tpLock = some c → s'.tpLock = some c ∧ s'.curThNum = s.curThNum
  owner : ∀ i, i < s.curThNum → (s.slot i).owner = some (.submit c) →
    (s'.slot i).owner = some (.submit c) ∧ (s'.slot i).isBusy = (s.slot i).isBusy
  claimed : ∀ i, (s.slot i).phase = .claimed c → (s'.slot i).phase = .claimed c ∧
    (s'.slot i).thWork = (s.slot i).thWork ∧ (s'.slot i).thJob = (s.slot i).thJob
  unclaimed : ∀ i, (s'.slot i).phase = .claimed c → (s.slot i).phase = .claimed c
  life : ∀ i, (s.call c).pc.Threatens i →
    ((s.slot i).threadCond = .live → (s'.slot i).threadCond = .live) ∧
      ((s.slot i).threadLock = .live → (s'.slot i).threadLock = .live) ∧
      ((s'.slot i).Destroyed → (s.slot i).Destroyed)

section
variable {s s' : State w ω δ} {c n : Nat} {i : Int}

/-- A change that leaves the slots and the submission alone. -/
theorem SubmitSteady.of_slot (hcall : s'.call c = s.call c) (hslot : s'.slot = s.slot)
    (hmax : s'.maxThNum = s.maxThNum) (hcur : s.curThNum ≤ s'.curThNum)
    (hpool : s.tpLock = some c → s'.tpLock = some c ∧ s'.curThNum = s.curThNum) :
    SubmitSteady s s' c := by
  refine ⟨hcall, hmax, hcur, hpool, fun i _ ho => ?_, fun i hph => ?_, fun i hph => ?_,
    fun i _ => ?_⟩
  · rw [hslot]
    exact ⟨ho, rfl⟩
  · rw [hslot]
    exact ⟨hph, rfl, rfl⟩
  · rwa [hslot] at hph
  · rw [hslot]
    exact ⟨id, id, id⟩

theorem SubmitSteady.fresh (hs : SubmitSteady s s' c) (h : Fresh s c) : Fresh s' c := by
  unfold Fresh
  rwa [hs.call]

theorem SubmitSteady.claims (hs : SubmitSteady s s' c) (h : Claims s c i) : Claims s' c i := by
  obtain ⟨hphase, hcall⟩ := h
  refine ⟨(hs.claimed i hphase).1, ?_⟩
  rwa [hs.call]

theorem SubmitSteady.hasWork (hs : SubmitSteady s s' c) (hc : Claims s c i) (h : HasWork s c i) :
    HasWork s' c i := by
  unfold HasWork
  rwa [(hs.claimed i hc.1).2.1, hs.call]

theorem SubmitSteady.hasJob (hs : SubmitSteady s s' c) (hc : Claims s c i) (h : HasJob s c i) :
    HasJob s' c i := by
  unfold HasJob
  rwa [(hs.claimed i hc.1).2.2, hs.call]

theorem SubmitSteady.next (hs : SubmitSteady s s' c) (hl : s.tpLock = some c) (h : Next s i) :
    Next s' i := by
  unfold Next
  rwa [(hs.pool hl).2, hs.max]

/-- The annotation of a submission survives the steps of the others. -/
theorem SubmitOk.steady (h : SubmitOk s c (s.call c).pc) (hs : SubmitSteady s s' c) :
    SubmitOk s' c (s'.call c).pc := by
  rw [hs.call]
  have hlife := hs.life
  have hstored : (s.call c).stored = none → (s'.call c).stored = none := by
    rw [hs.call]
    exact id
  generalize (s.call c).pc = pc at h hlife ⊢
  cases pc with
  | idle => exact hs.fresh h
  | test i | poolLock i => exact ⟨hs.fresh h.1, h.2.trans_eq hs.max.symm⟩
  | lock i => exact ⟨hs.fresh h.1, h.2.trans_le hs.cur⟩
  | readBusy i | unlockBusy i =>
    obtain ⟨hf, hi, ho⟩ := h
    exact ⟨hs.fresh hf, hi.trans_le hs.cur, (hs.owner i hi ho).1⟩
  | setBusy i =>
    obtain ⟨hf, hi, ho, hb⟩ := h
    obtain ⟨ho', hb'⟩ := hs.owner i hi ho
    exact ⟨hs.fresh hf, hi.trans_le hs.cur, ho', hb'.trans hb⟩
  | unlockClaimed i =>
    obtain ⟨hc, hi, hst, ho⟩ := h
    exact ⟨hs.claims hc, hi.trans_le hs.cur, hstored hst, (hs.owner i hi ho).1⟩
  | storeWork i => exact ⟨hs.claims h.1, h.2.1.trans_le hs.cur, hstored h.2.2⟩
  | storeJob i => exact ⟨hs.claims h.1, h.2.1.trans_le hs.cur, hs.hasWork h.1 h.2.2⟩
  | signal i =>
    obtain ⟨hc, hi, hw, hj⟩ := h
    exact ⟨hs.claims hc, hi.trans_le hs.cur, hs.hasWork hc hw, hs.hasJob hc hj⟩
  | addTest i => exact ⟨hs.fresh h.1, (hs.pool h.2.1).1, h.2.2.trans_eq hs.max.symm⟩
  | addIndex i =>
    obtain ⟨hf, hl, hcur⟩ := h
    refine ⟨hs.fresh hf, (hs.pool hl).1, ?_⟩
    rwa [(hs.pool hl).2, hs.max]
  | condInit i n => exact ⟨hs.fresh h.1, (hs.pool h.2.1).1, hs.next h.2.1 h.2.2⟩
  | lockInit i n =>
    obtain ⟨hf, hl, hn, hcond⟩ := h
    exact ⟨hs.fresh hf, (hs.pool hl).1, hs.next hl hn, (hlife n trivial).1 hcond⟩
  | addBusy i n =>
    obtain ⟨hf, hl, hn, hcond, hlock⟩ := h
    exact ⟨hs.fresh hf, (hs.pool hl).1, hs.next hl hn, (hlife n trivial).1 hcond,
      (hlife n trivial).2.1 hlock⟩
  | incRead i n =>
    obtain ⟨hc, hst, hl, hn, hcond, hlock⟩ := h
    exact ⟨hs.claims hc, hstored hst, (hs.pool hl).1, hs.next hl hn, (hlife n trivial).1 hcond,
      (hlife n trivial).2.1 hlock⟩
  | incWrite i n v =>
    obtain ⟨hc, hst, hl, hn, hcond, hlock, hv⟩ := h
    exact ⟨hs.claims hc, hstored hst, (hs.pool hl).1, hs.next hl hn, (hlife n trivial).1 hcond,
      (hlife n trivial).2.1 hlock, hv⟩
  | create i n =>
    obtain ⟨hc, hst, hl, hn⟩ := h
    exact ⟨hs.claims hc, hstored hst, (hs.pool hl).1, (hs.pool hl).2.trans hn⟩
  | growIndex =>
    obtain ⟨hc, hst, hl⟩ := h
    refine ⟨?_, hstored hst, (hs.pool hl).1⟩
    rw [(hs.pool hl).2]
    exact hs.claims hc
  | growWork i =>
    obtain ⟨hc, hi, hst, hl⟩ := h
    exact ⟨hs.claims hc, hi.trans_le hs.cur, hstored hst, (hs.pool hl).1⟩
  | growJob i =>
    obtain ⟨hc, hi, hw, hl⟩ := h
    exact ⟨hs.claims hc, hi.trans_le hs.cur, hs.hasWork hc hw, (hs.pool hl).1⟩
  | poolUnlock grown i =>
    cases grown with
    | false =>
      obtain ⟨hf, hd, hl⟩ := h
      exact ⟨hs.fresh hf, fun hd' => hd ((hlife i rfl).2.2 hd'), (hs.pool hl).1⟩
    | true =>
      obtain ⟨hc, hi, hw, hj, hl⟩ := h
      exact ⟨hs.claims hc, hi.trans_le hs.cur, hs.hasWork hc hw, hs.hasJob hc hj,
        (hs.pool hl).1⟩
  | wake grown i =>
    cases grown with
    | false => exact ⟨hs.fresh h.1, fun hd' => h.2 ((hlife i rfl).2.2 hd')⟩
    | true =>
      obtain ⟨hc, hi, hw, hj⟩ := h
      exact ⟨hs.claims hc, hi.trans_le hs.cur, hs.hasWork hc hw, hs.hasJob hc hj⟩
  | returned => exact fun k hk => h k (hs.unclaimed k hk)

/-- What the annotation of a worker needs of a step of another party. -/
structure WorkSteady (s s' : State w ω δ) (n : Nat) : Prop where
  thread : (s'.thread n).pc = (s.thread n).pc
  cur : s.curThNum ≤ s'.curThNum
  killed : s.killed ≠ [] → s'.killed ≠ []
  owner : ∀ k, k < s.curThNum → (s.slot k).owner = some (.work n) →
    (s'.slot k).owner = some (.work n)
  running : ∀ k c, (s.slot k).phase = .running c n → (s'.slot k).phase = .running c n ∧
    (s'.slot k).thWork = (s.slot k).thWork ∧ (s'.slot k).thJob = (s.slot k).thJob ∧
    (s'.call c).worker = (s.call c).worker ∧ (s'.call c).job = (s.call c).job ∧
    (s'.call c).stored = (s.call c).stored ∧ (s'.call c).finished = (s.call c).finished ∧
    (s'.call c).runs = (s.call c).runs

/-- A change that leaves the slots, the submissions and the worker alone. -/
theorem WorkSteady.of_slot (hthread : (s'.thread n).pc = (s.thread n).pc)
    (hslot : s'.slot = s.slot) (hcall : s'.call = s.call) (hcur : s.curThNum ≤ s'.curThNum)
    (hkilled : s.killed ≠ [] → s'.killed ≠ []) : WorkSteady s s' n := by
  refine ⟨hthread, hcur, hkilled, fun k _ ho => ?_, fun k c hph => ?_⟩
  · rwa [hslot]
  · rw [hslot, hcall]
    exact ⟨hph, rfl, rfl, rfl, rfl, rfl, rfl, rfl⟩

theorem WorkSteady.runsFor (hs : WorkSteady s s' n) (h : RunsFor s n i c) :
    RunsFor s' n i c := by
  obtain ⟨hi, hphase, hcall⟩ := h
  obtain ⟨hphase', hw, hj, hw', hj', hst, hfin, -⟩ := hs.running i c hphase
  refine ⟨hi.trans_le hs.cur, hphase', ?_⟩
  rwa [hw, hj, hw', hj', hst, hfin]

theorem WorkSteady.toRun (hs : WorkSteady s s' n) (h : ToRun s n i) : ToRun s' n i := by
  obtain ⟨c, hfor, hruns⟩ := h
  obtain ⟨-, -, -, -, -, -, -, hruns'⟩ := hs.running i c hfor.2.1
  exact ⟨c, hs.runsFor hfor, hruns'.trans hruns⟩

theorem WorkSteady.hasRun (hs : WorkSteady s s' n) (h : HasRun s n i) : HasRun s' n i := by
  obtain ⟨c, hfor, hruns⟩ := h
  obtain ⟨-, -, -, hw', hj', -, -, hruns'⟩ := hs.running i c hfor.2.1
  refine ⟨c, hs.runsFor hfor, ?_⟩
  rw [hruns', hruns, hw', hj']

/-- The annotation of a worker survives the steps of the others. -/
theorem WorkOk.steady (h : WorkOk s n (s.thread n).pc) (hs : WorkSteady s s' n) :
    WorkOk s' n (s'.thread n).pc := by
  rw [hs.thread]
  have hwork : ∀ {k}, ToRun s n k → (s'.slot k).thWork = (s.slot k).thWork ∧
      (s'.slot k).thJob = (s.slot k).thJob := fun {k} ⟨c, hfor, _⟩ =>
    ⟨(hs.running k c hfor.2.1).2.1, (hs.running k c hfor.2.1).2.2.1⟩
  generalize (s.thread n).pc = pc at h ⊢
  cases pc with
  | unborn | find i | exited | killed => trivial
  | cmp i => exact h.imp (fun hi => hi.trans_le hs.cur) hs.killed
  | lockWait k | waiting k => exact lt_of_lt_of_le h hs.cur
  | wait k | unlockDone k => exact ⟨h.1.trans_le hs.cur, hs.owner k h.1 h.2⟩
  | relock k | readWork k => exact hs.toRun h
  | unlock k =>
    obtain ⟨hrun, ho⟩ := h
    have hk : k < s.curThNum := by
      obtain ⟨_, hfor, _⟩ := hrun
      exact hfor.1
    exact ⟨hs.toRun hrun, hs.owner k hk ho⟩
  | readJob k work => exact ⟨hs.toRun h.1, h.2.trans (hwork h.1).1.symm⟩
  | process k work job =>
    exact ⟨hs.toRun h.1, h.2.1.trans (hwork h.1).1.symm, h.2.2.trans (hwork h.1).2.symm⟩
  | lockDone k => exact hs.hasRun h
  | setIdle k =>
    obtain ⟨hrun, ho⟩ := h
    have hk : k < s.curThNum := by
      obtain ⟨_, hfor, _⟩ := hrun
      exact hfor.1
    exact ⟨hs.hasRun hrun, hs.owner k hk ho⟩

end

end LinuxTraining.ThreadPool
