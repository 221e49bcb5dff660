import LinuxTraining.Lib.Locks
import LinuxTraining.ThreadPool.Jobs
import LinuxTraining.ThreadPool.ProcessJob
import LinuxTraining.ThreadPool.Settle

/-!
# The thread pool: no deadlock

While `tp_delete_thread` deletes nothing, the owner of a slot's lock is the party between its lock
and its unlock, and `tp_lock` is owned by the submission in `tp_add_thread` (`Mutexes`): this holds
whatever the signals wake, with wakeups without a signal and failures of `pthread_create`. Who holds
a lock can step, so when no submission and no worker can, every call has returned and every worker
waits for a signal (`comesToQuiet`).
-/

namespace LinuxTraining.ThreadPool

open Lib Function

variable {w : Nat} {ω δ : Type}

/-! ## Who holds what -/

/-- The slot whose lock the submission holds. -/
def SubmitPc.holds : SubmitPc → Option Int
  | .readBusy i | .setBusy i | .unlockClaimed i | .unlockBusy i => some i
  | _ => none

/-- The slot whose lock the worker holds. -/
def WorkPc.holds : WorkPc ω δ → Option Int
  | .wait k | .unlock k | .setIdle k | .unlockDone k => some k
  | _ => none

/-- The slot whose lock the party holds. -/
def State.holds (s : State w ω δ) : Party → Option Int
  | .submit c => (s.call c).pc.holds
  | .work n => (s.thread n).pc.holds

/-- The owners of the locks of the slots. -/
def State.owner (s : State w ω δ) (i : Int) : Option Party := (s.slot i).owner

/-- The slots of a pool of `cur` threads. -/
def inUse (cur : Int) : Set Int := {i | 0 ≤ i ∧ i < cur}

/-- The slots that a submission is about to lock or has locked are in use, and `tp_add_thread` works
on the slot after the last, whose lock is owned by `next`. -/
def SubmitPc.Placed (cur : Int) (next : Option Party) : SubmitPc → Prop
  | .test i => 0 ≤ i
  | .lock i | .readBusy i | .setBusy i | .unlockClaimed i | .unlockBusy i => i ∈ inUse cur
  | .condInit _ n | .lockInit _ n => n = cur
  | .addBusy _ n | .incRead _ n => n = cur ∧ next = none
  | .incWrite _ n v => n = cur ∧ next = none ∧ v = cur
  | _ => True

/-- The slot of a worker is in use. -/
def WorkPc.Placed (cur : Int) : WorkPc ω δ → Prop
  | .find i => 0 ≤ i
  | .cmp k | .lockWait k | .wait k | .waiting k | .relock k | .unlock k | .readWork k
  | .readJob k _ | .process k _ _ | .lockDone k | .setIdle k | .unlockDone k => k ∈ inUse cur
  | .unborn | .exited | .killed => True

/-- **Every lock is owned by who is between its lock and its unlock.** -/
structure Mutexes (s : State w ω δ) : Prop where
  manager : ¬ s.manager.Deleting
  range : 0 ≤ s.curThNum
  born : ∀ n, s.created ≤ n → (s.thread n).pc = .unborn
  adding : ∀ c, (s.call c).pc.Adding ↔ s.tpLock = some c
  held : Held (inUse s.curThNum) s.owner s.holds
  submit : ∀ c, (s.call c).pc.Placed s.curThNum (s.owner s.curThNum)
  work : ∀ n, (s.thread n).pc.Placed s.curThNum

/-- A step that moves nobody, and changes no lock but that of a slot in use. -/
structure Beside (s t : State w ω δ) : Prop where
  manager : t.manager = s.manager
  cur : t.curThNum = s.curThNum
  created : t.created = s.created
  tpLock : t.tpLock = s.tpLock
  next : t.owner s.curThNum = s.owner s.curThNum
  submit : ∀ c, (t.call c).pc = (s.call c).pc
  work : ∀ n, (t.thread n).pc = (s.thread n).pc

section
variable {s s' t : State w ω δ} {c n : Nat} {i k : Int} {a : Act w ω δ}

theorem State.owner_setSlot (s : State w ω δ) (i : Int) (f : Slot w ω δ → Slot w ω δ) :
    (s.setSlot i f).owner = update s.owner i (f (s.slot i)).owner := by
  funext k
  rcases eq_or_ne k i with rfl | hne
  · rw [update_self, State.owner, State.setSlot_self]
  · rw [update_of_ne hne, State.owner, State.setSlot_of_ne _ _ hne, State.owner]

/-- A change of a slot that keeps the owner of its lock. -/
theorem State.owner_setSlot_same (s : State w ω δ) {i : Int} {f : Slot w ω δ → Slot w ω δ}
    (hf : (f (s.slot i)).owner = (s.slot i).owner) : (s.setSlot i f).owner = s.owner := by
  rw [State.owner_setSlot, hf]
  exact update_eq_self ..

theorem State.holds_submitTo (s : State w ω δ) (c : Nat) (pc : SubmitPc) :
    (s.submitTo c pc).holds = update s.holds (.submit c) pc.holds := by
  funext p
  rcases eq_or_ne p (.submit c) with rfl | hne
  · rw [update_self, State.holds, State.submitTo_pc]
  · rw [update_of_ne hne]
    cases p with
    | submit d =>
      have hd : d ≠ c := fun he => hne (congrArg Party.submit he)
      rw [State.holds, State.submitTo, State.setCall_of_ne _ _ hd, State.holds]
    | work n => rfl

theorem State.holds_workTo (s : State w ω δ) (n : Nat) (pc : WorkPc ω δ) :
    (s.workTo n pc).holds = update s.holds (.work n) pc.holds := by
  funext p
  rcases eq_or_ne p (.work n) with rfl | hne
  · rw [update_self, State.holds, State.workTo_self]
  · rw [update_of_ne hne]
    cases p with
    | submit d => rfl
    | work l =>
      have hl : l ≠ n := fun he => hne (congrArg Party.work he)
      rw [State.holds, State.workTo_of_ne _ _ hl, State.holds]

/-! ## What the placements need -/

/-- Outside `tp_add_thread`, more slots do no harm. -/
theorem SubmitPc.Placed.mono {pc : SubmitPc} {cur cur' : Int} {next next' : Option Party}
    (h : pc.Placed cur next) (hpc : ¬ pc.Adding) (hcur : cur ≤ cur') : pc.Placed cur' next' := by
  cases pc with
  | test => exact h
  | lock | readBusy | setBusy | unlockClaimed | unlockBusy => exact ⟨h.1, h.2.trans_le hcur⟩
  | condInit | lockInit | addBusy | incRead | incWrite => exact absurd trivial hpc
  | _ => trivial

/-- The slot after the last may become free. -/
theorem SubmitPc.Placed.free {pc : SubmitPc} {cur : Int} {next : Option Party}
    (h : pc.Placed cur next) : pc.Placed cur none := by
  cases pc with
  | addBusy | incRead => exact ⟨h.1, rfl⟩
  | incWrite => exact ⟨h.1, rfl, h.2.2⟩
  | test | lock | readBusy | setBusy | unlockClaimed | unlockBusy | condInit | lockInit => exact h
  | _ => trivial

theorem WorkPc.Placed.mono {pc : WorkPc ω δ} {cur cur' : Int} (h : pc.Placed cur)
    (hcur : cur ≤ cur') : pc.Placed cur' := by
  cases pc with
  | find => exact h
  | unborn | exited | killed => trivial
  | _ => exact ⟨h.1, h.2.trans_le hcur⟩

theorem SubmitPc.Placed.of_holds {pc : SubmitPc} {cur : Int} {next : Option Party}
    (h : pc.Placed cur next) (hi : pc.holds = some i) : i ∈ inUse cur := by
  cases pc with
  | readBusy | setBusy | unlockClaimed | unlockBusy =>
    cases hi
    exact h
  | _ => cases hi

theorem WorkPc.Placed.of_holds {pc : WorkPc ω δ} {cur : Int} (h : pc.Placed cur)
    (hi : pc.holds = some i) : i ∈ inUse cur := by
  cases pc with
  | wait | unlock | setIdle | unlockDone =>
    cases hi
    exact h
  | _ => cases hi

/-- Who holds the lock of a slot holds one in use. -/
theorem Mutexes.of_holds (h : Mutexes s) {p : Party} (hi : s.holds p = some i) :
    i ∈ inUse s.curThNum := by
  cases p with
  | submit c => exact (h.submit c).of_holds hi
  | work n => exact (h.work n).of_holds hi

/-- A submission in `tp_add_thread` is alone there. -/
theorem Mutexes.eq_of_adding (h : Mutexes s) {d : Nat} (hc : (s.call c).pc.Adding)
    (hd : (s.call d).pc.Adding) : d = c :=
  Option.some.inj (((h.adding d).1 hd).symm.trans ((h.adding c).1 hc))

/-! ## Moves -/

theorem Beside.refl : Beside s s :=
  ⟨rfl, rfl, rfl, rfl, rfl, fun _ => rfl, fun _ => rfl⟩

theorem Beside.setCall (h : Beside s t) (c : Nat) {f : Submission ω δ → Submission ω δ}
    (hf : (f (t.call c)).pc = (t.call c).pc) : Beside s (t.setCall c f) := by
  refine ⟨h.manager, h.cur, h.created, h.tpLock, h.next, ?_, h.work⟩
  exact t.forall_setCall (P := fun d x => x.pc = (s.call d).pc) (hf.trans (h.submit c)) h.submit

theorem Beside.setSlot (h : Beside s t) {f : Slot w ω δ → Slot w ω δ}
    (hf : i < s.curThNum ∨ (f (t.slot i)).owner = (t.slot i).owner) :
    Beside s (t.setSlot i f) := by
  refine ⟨h.manager, h.cur, h.created, h.tpLock, ?_, h.submit, h.work⟩
  rcases hf with hi | hf
  · rw [State.owner_setSlot, update_of_ne hi.ne']
    exact h.next
  · rw [State.owner_setSlot_same _ hf]
    exact h.next

/-- A submission moves. -/
theorem Mutexes.submitTo (h : Mutexes s) (ht : Beside s t) {pc : SubmitPc}
    (hheld : Held (inUse s.curThNum) t.owner (update s.holds (.submit c) pc.holds))
    (hadd : pc.Adding ↔ (s.call c).pc.Adding)
    (hpl : pc.Placed s.curThNum (s.owner s.curThNum)) : Mutexes (t.submitTo c pc) := by
  have hmoved : ∀ d, (((t.submitTo c pc).call d).pc.Adding ↔ s.tpLock = some d) ∧
      ((t.submitTo c pc).call d).pc.Placed s.curThNum (s.owner s.curThNum) :=
    t.forall_setCall (P := fun d x => (x.pc.Adding ↔ s.tpLock = some d) ∧
        x.pc.Placed s.curThNum (s.owner s.curThNum)) ⟨hadd.trans (h.adding c), hpl⟩ fun d => by
      rw [ht.submit d]
      exact ⟨h.adding d, h.submit d⟩
  have hholds : t.holds = s.holds := funext fun p => by
    cases p with
    | submit d => exact congrArg SubmitPc.holds (ht.submit d)
    | work n => exact congrArg WorkPc.holds (ht.work n)
  have hcur : (t.submitTo c pc).curThNum = s.curThNum := ht.cur
  refine ⟨?_, ?_, fun n hn => ?_, fun d => ?_, ?_, fun d => ?_, fun n => ?_⟩
  · rw [State.submitTo, State.setCall, ht.manager]
    exact h.manager
  · rw [hcur]
    exact h.range
  · exact (ht.work n).trans (h.born n (ht.created.symm.trans_le hn))
  · exact (hmoved d).1.trans (by rw [← ht.tpLock]; rfl)
  · rw [hcur, State.holds_submitTo, hholds]
    exact hheld
  · rw [hcur]
    have hnext : (t.submitTo c pc).owner s.curThNum = s.owner s.curThNum := ht.next
    rw [hnext]
    exact (hmoved d).2
  · rw [hcur]
    exact (congrArg (WorkPc.Placed s.curThNum) (ht.work n)).mpr (h.work n)

/-- A worker moves. -/
theorem Mutexes.workTo (h : Mutexes s) (ht : Beside s t) (hn : n < s.created) {pc : WorkPc ω δ}
    (hheld : Held (inUse s.curThNum) t.owner (update s.holds (.work n) pc.holds))
    (hpl : pc.Placed s.curThNum) : Mutexes (t.workTo n pc) := by
  have hholds : t.holds = s.holds := funext fun p => by
    cases p with
    | submit d => exact congrArg SubmitPc.holds (ht.submit d)
    | work n => exact congrArg WorkPc.holds (ht.work n)
  have hcur : (t.workTo n pc).curThNum = s.curThNum := ht.cur
  have hnext : (t.workTo n pc).owner s.curThNum = s.owner s.curThNum := ht.next
  refine ⟨?_, ?_, ?_, fun d => ?_, ?_, fun d => ?_, ?_⟩
  · rw [State.workTo, ht.manager]
    exact h.manager
  · rw [hcur]
    exact h.range
  · refine t.forall_workTo (P := fun l x => t.created ≤ l → x = .unborn) (fun hl => ?_)
      fun l hl => (ht.work l).trans (h.born l (ht.created.symm.trans_le hl))
    exact absurd (ht.created.symm.trans_le hl) (not_le.2 hn)
  · exact (congrArg SubmitPc.Adding (ht.submit d)).to_iff.trans
      ((h.adding d).trans (by rw [← ht.tpLock]; rfl))
  · rw [hcur, State.holds_workTo, hholds]
    exact hheld
  · rw [hcur, hnext]
    exact (congrArg (SubmitPc.Placed s.curThNum _) (ht.submit d)).mpr (h.submit d)
  · rw [hcur]
    refine t.forall_workTo (P := fun _ x => x.Placed s.curThNum) hpl fun l => ?_
    rw [ht.work l]
    exact h.work l

/-- A lock changes the owner of a slot in use. -/
theorem Mutexes.lock (h : Mutexes s) {p : Party} (ht : s.lockSlot i p = some t)
    (hi : i ∈ inUse s.curThNum) (hp : s.holds p = none) :
    Beside s t ∧ Held (inUse s.curThNum) t.owner (update s.holds p (some i)) := by
  have hfree : s.owner i = none := by
    unfold State.lockSlot at ht
    split at ht <;> cases ht
    next ho => exact ho
  obtain rfl := lockSlot_eq ht
  refine ⟨Beside.refl.setSlot (.inl hi.2), ?_⟩
  rw [State.owner_setSlot]
  exact h.held.lock hi hfree hp

/-- An unlock by the holder. -/
theorem Mutexes.unlock (h : Mutexes s) {p : Party} (hp : s.holds p = some i) :
    Beside s (s.unlockSlot i) ∧
      Held (inUse s.curThNum) (s.unlockSlot i).owner (update s.holds p none) := by
  have hi := h.of_holds hp
  refine ⟨Beside.refl.setSlot (.inl hi.2), ?_⟩
  rw [State.unlockSlot, State.owner_setSlot]
  exact h.held.unlock hi hp

/-- A submission moves, and holds what it held. -/
theorem Mutexes.submitOn (h : Mutexes s) (ht : Beside s t) (ho : t.owner = s.owner) {pc : SubmitPc}
    (hholds : pc.holds = (s.call c).pc.holds) (hadd : pc.Adding ↔ (s.call c).pc.Adding)
    (hpl : pc.Placed s.curThNum (s.owner s.curThNum)) : Mutexes (t.submitTo c pc) := by
  refine h.submitTo ht ?_ hadd hpl
  rw [ho, hholds]
  exact (congrArg (Held _ _) (update_eq_self ..)).mpr h.held

/-- A worker moves, and holds what it held. -/
theorem Mutexes.workOn (h : Mutexes s) (ht : Beside s t) (ho : t.owner = s.owner)
    (hn : n < s.created) {pc : WorkPc ω δ} (hholds : pc.holds = (s.thread n).pc.holds)
    (hpl : pc.Placed s.curThNum) : Mutexes (t.workTo n pc) := by
  refine h.workTo ht hn ?_ hpl
  rw [ho, hholds]
  exact (congrArg (Held _ _) (update_eq_self ..)).mpr h.held

/-! ## The steps -/

/-- A claim, a store, and the history of a slot are not about its lock. -/
theorem State.owner_claim (s : State w ω δ) (c : Nat) (i : Int) : (s.claim c i).owner = s.owner :=
  State.owner_setSlot_same (s.setCall c fun x => { x with claimed := some i }) rfl

theorem State.owner_putWork (s : State w ω δ) (c : Nat) (i : Int) :
    (s.putWork c i).owner = s.owner :=
  State.owner_setSlot_same (s.setCall c fun x => { x with stored := some i }) rfl

theorem State.owner_putJob (s : State w ω δ) (c : Nat) (i : Int) :
    (s.putJob c i).owner = s.owner :=
  State.owner_setSlot_same s rfl

theorem Beside.claim (c : Nat) (i : Int) : Beside s (s.claim c i) :=
  (Beside.refl.setCall c rfl).setSlot (.inr rfl)

theorem Beside.putWork (c : Nat) (i : Int) : Beside s (s.putWork c i) :=
  (Beside.refl.setCall c rfl).setSlot (.inr rfl)

theorem Beside.putJob (c : Nat) (i : Int) : Beside s (s.putJob c i) :=
  Beside.refl.setSlot (.inr rfl)

/-- `tp_lock` changes hands. -/
theorem Mutexes.poolLock (h : Mutexes s) {o : Option Nat} {pc : SubmitPc}
    (hothers : ∀ d, d ≠ c → ¬ (s.call d).pc.Adding ∧ o ≠ some d) (hadd : pc.Adding ↔ o = some c)
    (hholds : pc.holds = (s.call c).pc.holds) (hpl : pc.Placed s.curThNum (s.owner s.curThNum)) :
    Mutexes ({ s with tpLock := o }.submitTo c pc) := by
  refine ⟨h.manager, h.range, h.born, fun d => ?_, ?_, ?_, h.work⟩
  · rcases eq_or_ne d c with rfl | hne
    · rw [State.submitTo_pc]
      exact hadd
    · rw [State.submitTo, State.setCall_of_ne _ _ hne]
      exact ⟨fun hd => absurd hd (hothers d hne).1, fun hd => absurd hd (hothers d hne).2⟩
  · rw [State.holds_submitTo, hholds]
    exact (congrArg (Held _ _) (update_eq_self ..)).mpr h.held
  · exact s.forall_setCall (f := fun x => { x with pc })
      (P := fun _ x => x.pc.Placed s.curThNum (s.owner s.curThNum)) hpl h.submit

/-- `pthread_mutex_init` on the slot after the last. -/
theorem Mutexes.initLock (h : Mutexes s) (hpc : (s.call c).pc = .lockInit i s.curThNum) :
    Mutexes ((s.setSlot s.curThNum fun x => { x with threadLock := .live, owner := none }).submitTo
      c (.addBusy i s.curThNum)) := by
  have hnext : (s.setSlot s.curThNum fun x => { x with threadLock := .live, owner := none }).owner
      s.curThNum = none := by
    rw [State.owner_setSlot, update_self]
  have hset : Mutexes (s.setSlot s.curThNum
      fun x => { x with threadLock := .live, owner := none }) := by
    refine ⟨h.manager, h.range, h.born, h.adding, h.held.congr fun k hk => ?_, fun d => ?_, h.work⟩
    · rw [State.owner_setSlot, update_of_ne hk.2.ne]
    · have hfree := (h.submit d).free
      rwa [← hnext] at hfree
  exact hset.submitOn .refl rfl (congrArg SubmitPc.holds hpc).symm
    (congrArg SubmitPc.Adding hpc).symm.to_iff ⟨rfl, hnext⟩

/-- The slot after the last comes into use. -/
theorem Mutexes.increment (h : Mutexes s)
    (hpc : (s.call c).pc = .incWrite i s.curThNum s.curThNum) :
    Mutexes ({ s with curThNum := s.curThNum + 1 }.submitTo c (.create i s.curThNum)) := by
  have hle : s.curThNum ≤ s.curThNum + 1 := (lt_add_one _).le
  have hadd : (s.call c).pc.Adding := by rw [hpc]; trivial
  have hnext : s.owner s.curThNum = none := by
    have hpl := h.submit c
    rw [hpc] at hpl
    exact hpl.2.1
  have huse : inUse (s.curThNum + 1) = insert s.curThNum (inUse s.curThNum) := by
    ext k
    have hrange := h.range
    simp only [inUse, Set.mem_insert_iff, Set.mem_ofPred_eq]
    omega
  refine ⟨h.manager, h.range.trans hle, h.born, ?_, ?_, fun d => ?_, fun n => (h.work n).mono hle⟩
  · exact s.forall_setCall (f := fun x => { x with pc := .create i s.curThNum })
      (P := fun d x => x.pc.Adding ↔ s.tpLock = some d)
      ⟨fun _ => (h.adding c).1 hadd, fun _ => trivial⟩ h.adding
  · rw [State.holds_submitTo]
    have hholds : (SubmitPc.create i s.curThNum).holds = s.holds (.submit c) :=
      (congrArg SubmitPc.holds hpc).symm
    rw [hholds, show State.holds { s with curThNum := s.curThNum + 1 } = s.holds from rfl,
      update_eq_self]
    show Held (inUse (s.curThNum + 1)) s.owner s.holds
    rw [huse]
    exact h.held.insert hnext fun p hp => absurd (h.of_holds hp).2 (lt_irrefl _)
  · rcases eq_or_ne d c with rfl | hne
    · rw [State.submitTo_pc]
      trivial
    · rw [State.submitTo, State.setCall_of_ne _ _ hne]
      exact (h.submit d).mono (fun hd => hne (h.eq_of_adding hadd hd)) hle

/-- A step of `tp_process_job` between its signals. -/
theorem Mutexes.submitStep (h : Mutexes s) (hs : submitStep s c = some s') : Mutexes s' := by
  have hpl := h.submit c
  have hholds : s.holds (.submit c) = (s.call c).pc.holds := rfl
  -- a move within or outside `tp_add_thread` that touches no lock
  have hstay : ∀ {u : State w ω δ} {pc pc' : SubmitPc}, (s.call c).pc = pc → Beside s u →
      u.owner = s.owner → pc'.holds = pc.holds → (pc'.Adding ↔ pc.Adding) →
      pc'.Placed s.curThNum (s.owner s.curThNum) → Mutexes (u.submitTo c pc') :=
    fun hpc hu ho hh ha hp => h.submitOn hu ho (by rw [hh, hpc]) (by rw [ha, hpc]) hp
  cases submitStep_rule hs with
  | test i hpc hlt =>
    rw [hpc] at hpl
    exact hstay hpc .refl rfl rfl .rfl ⟨hpl, hlt⟩
  | past i hpc => exact hstay hpc .refl rfl rfl .rfl trivial
  | lock i t hpc ht =>
    rw [hpc] at hpl hholds
    obtain ⟨hbeside, hheld⟩ := h.lock ht hpl hholds
    exact h.submitTo hbeside hheld (by rw [hpc]; exact .rfl) hpl
  | busy i hpc =>
    rw [hpc] at hpl
    exact hstay hpc .refl rfl rfl .rfl hpl
  | idle i hpc =>
    rw [hpc] at hpl
    exact hstay hpc .refl rfl rfl .rfl hpl
  | setBusy i hpc =>
    rw [hpc] at hpl
    exact hstay hpc (.claim c i) (s.owner_claim c i) rfl .rfl hpl
  | unlockClaimed i hpc =>
    rw [hpc] at hholds
    obtain ⟨hbeside, hheld⟩ := h.unlock hholds
    exact h.submitTo hbeside hheld (by rw [hpc]; exact .rfl) trivial
  | storeWork i hpc => exact hstay hpc (.putWork c i) (s.owner_putWork c i) rfl .rfl trivial
  | storeJob i hpc => exact hstay hpc (.putJob c i) (s.owner_putJob c i) rfl .rfl trivial
  | unlockBusy i hpc =>
    rw [hpc] at hpl hholds
    obtain ⟨hbeside, hheld⟩ := h.unlock hholds
    exact h.submitTo hbeside hheld (by rw [hpc]; exact .rfl) (Int.le_add_one hpl.1)
  | poolLock i hpc hfree =>
    refine h.poolLock (fun d hne => ⟨fun hd => ?_, fun he => ?_⟩) ⟨fun _ => rfl, fun _ => trivial⟩
      (by rw [hpc]; rfl) trivial
    · cases ((h.adding d).1 hd).symm.trans hfree
    · exact hne (Option.some.inj he).symm
  | refused i hpc | addTest i hpc => exact hstay hpc .refl rfl rfl .rfl trivial
  | addIndex i hpc => exact hstay hpc .refl rfl rfl .rfl rfl
  | condInit i n hpc =>
    rw [hpc] at hpl
    exact hstay hpc (Beside.refl.setSlot (.inr rfl)) (s.owner_setSlot_same rfl) rfl .rfl hpl
  | lockInit i n hpc =>
    rw [hpc] at hpl
    obtain rfl : n = s.curThNum := hpl
    exact h.initLock hpc
  | addBusy i n hpc =>
    rw [hpc] at hpl
    exact hstay hpc (.claim c n) (s.owner_claim c n) rfl .rfl hpl
  | incRead i n hpc =>
    rw [hpc] at hpl
    exact hstay hpc .refl rfl rfl .rfl ⟨hpl.1, hpl.2, rfl⟩
  | incWrite i n v hpc =>
    rw [hpc] at hpl
    obtain ⟨rfl, -, rfl⟩ := hpl
    exact h.increment hpc
  | growIndex hpc => exact hstay hpc .refl rfl rfl .rfl trivial
  | growWork i hpc => exact hstay hpc (.putWork c i) (s.owner_putWork c i) rfl .rfl trivial
  | growJob i hpc => exact hstay hpc (.putJob c i) (s.owner_putJob c i) rfl .rfl trivial
  | poolUnlock grown i hpc =>
    have hadd : (s.call c).pc.Adding := by rw [hpc]; trivial
    exact h.poolLock (fun d hne => ⟨fun hd => hne (h.eq_of_adding hadd hd), nofun⟩)
      ⟨fun hf => hf.elim, nofun⟩ (by rw [hpc]; rfl) trivial

/-- A signal that wakes a worker, or nobody. -/
theorem Mutexes.condSignal (h : Mutexes s) {woken : Option Nat}
    (ht : s.condSignal i woken = some t) : Mutexes t ∧ t.call = s.call := by
  rcases condSignal_eq ht with ⟨-, rfl⟩ | ⟨n, -, hpc, rfl⟩
  · exact ⟨h, rfl⟩
  · have hpl := h.work n
    rw [hpc] at hpl
    have hn : n < s.created := by
      by_contra hn
      cases hpc.symm.trans (h.born n (not_lt.1 hn))
    exact ⟨h.workOn .refl rfl hn (by rw [hpc]; rfl) hpl, rfl⟩

theorem Mutexes.signalStep (h : Mutexes s) {woken : Option Nat}
    (hs : signalStep s c woken = some s') : Mutexes s' := by
  cases signalStep_rule hs with
  | held i t hpc ht =>
    obtain ⟨hsig, hcall⟩ := h.condSignal ht
    refine hsig.submitOn (Beside.refl.setSlot (.inr rfl)) (t.owner_setSlot_same rfl) ?_ ?_ trivial
    · rw [hcall]
      rcases hpc with hpc | hpc <;> rw [hpc] <;> rfl
    · rw [hcall]
      rcases hpc with hpc | hpc <;> rw [hpc] <;> exact .rfl
  | refused i t hpc ht =>
    obtain ⟨hsig, hcall⟩ := h.condSignal ht
    exact hsig.submitOn .refl rfl (by rw [hcall, hpc]; rfl) (by rw [hcall, hpc]; exact .rfl) trivial

/-- `pthread_create`, whether it succeeds or not. -/
theorem Mutexes.createStep (h : Mutexes s) {id : Option (BitVec w)}
    (hs : createStep s c id = some s') : Mutexes s' := by
  cases createStep_rule hs with
  | failed i n hpc =>
    have hfreed : Mutexes { s with freed := n :: s.freed } :=
      ⟨h.manager, h.range, h.born, h.adding, h.held, h.submit, h.work⟩
    exact hfreed.submitOn .refl rfl (congrArg SubmitPc.holds hpc).symm
      (congrArg SubmitPc.Adding hpc).symm.to_iff trivial
  | made i n id hpc =>
    have hmade : Mutexes { s with
        created := s.created + 1,
        thread := update s.thread s.created ⟨id, .find 0⟩ } := by
      have hunborn := h.born s.created le_rfl
      refine ⟨h.manager, h.range, fun l hl => ?_, h.adding, ?_, h.submit, ?_⟩
      · have hl' : s.created + 1 ≤ l := hl
        show (update s.thread s.created _ l).pc = .unborn
        rw [update_of_ne (by omega)]
        exact h.born l (by omega)
      · have hsame : State.holds { s with
            created := s.created + 1,
            thread := update s.thread s.created ⟨id, .find 0⟩ } = s.holds := by
          funext p
          cases p with
          | submit d => rfl
          | work l =>
            show (update s.thread s.created ⟨id, .find 0⟩ l).pc.holds = (s.thread l).pc.holds
            rcases eq_or_ne l s.created with rfl | hne
            · rw [update_self, hunborn]
              rfl
            · rw [update_of_ne hne]
        rw [hsame]
        exact h.held
      · exact (forall_update_iff s.thread fun _ x => x.pc.Placed s.curThNum).2
          ⟨le_rfl, fun l _ => h.work l⟩
    exact hmade.submitOn (Beside.refl.setSlot (.inr rfl)) (State.owner_setSlot_same _ rfl)
      (congrArg SubmitPc.holds hpc).symm (congrArg SubmitPc.Adding hpc).symm.to_iff trivial

/-- A step of `tp_work_thread`. -/
theorem Mutexes.workStep (h : Mutexes s) (hs : workStep s n = some s') : Mutexes s' := by
  have hpl := h.work n
  have hholds : s.holds (.work n) = (s.thread n).pc.holds := rfl
  have hn : n < s.created := by
    by_contra hn
    rw [ThreadPool.workStep, h.born n (not_lt.1 hn)] at hs
    cases hs
  cases workStep_rule hs with
  | find i hpc hlt =>
    rw [hpc] at hpl
    exact h.workOn .refl rfl hn (by rw [hpc]; rfl) ⟨hpl, hlt⟩
  | missing i hpc => exact h.workOn .refl rfl hn (by rw [hpc]; rfl) trivial
  | other i hpc =>
    rw [hpc] at hpl
    exact h.workOn .refl rfl hn (by rw [hpc]; rfl) (Int.le_add_one hpl.1)
  | found k hpc | readWork k hpc | readJob k work hpc =>
    rw [hpc] at hpl
    exact h.workOn .refl rfl hn (by rw [hpc]; rfl) hpl
  | lockWait k t hpc ht | relock k t hpc ht | lockDone k t hpc ht =>
    rw [hpc] at hpl hholds
    obtain ⟨hbeside, hheld⟩ := h.lock ht hpl hholds
    exact h.workTo hbeside hn hheld hpl
  | wait k hpc | unlock k hpc | unlockDone k hpc =>
    rw [hpc] at hpl hholds
    obtain ⟨hbeside, hheld⟩ := h.unlock hholds
    exact h.workTo hbeside hn hheld hpl
  | process k work job hpc =>
    rw [hpc] at hpl
    have hrecord : Beside s (s.record n k work job) ∧ (s.record n k work job).owner = s.owner := by
      unfold State.record
      split
      · exact ⟨Beside.refl.setCall _ rfl, rfl⟩
      · exact ⟨.refl, rfl⟩
    exact h.workOn hrecord.1 hrecord.2 hn (by rw [hpc]; rfl) hpl
  | setIdle k hpc =>
    rw [hpc] at hpl
    have hrelease : Beside s (s.release k) ∧ (s.release k).owner = s.owner := by
      unfold State.release
      dsimp only
      split
      · exact ⟨(Beside.refl.setCall _ rfl).setSlot (.inr rfl), State.owner_setSlot_same _ rfl⟩
      · exact ⟨Beside.refl.setSlot (.inr rfl), State.owner_setSlot_same _ rfl⟩
    exact h.workOn hrelease.1 hrelease.2 hn (by rw [hpc]; rfl) hpl

/-- The manager looks at the slots, and deletes none. -/
theorem manageStep_looks (hdel : ¬ s.manager.Deleting) (hnever : NeverDeletes s .manage) :
    ∃ m : ManagePc, ¬ m.Deleting ∧ manageStep s = s.manageTo m := by
  unfold manageStep
  cases hpc : s.manager with
  | sleep | statBusy | busyIndex => exact ⟨_, id, rfl⟩
  | statTest | statEnd | delMin =>
    refine ⟨_, ?_, rfl⟩
    split <;> exact id
  | delBusy k =>
    refine ⟨_, ?_, rfl⟩
    rw [hnever k hpc]
    exact id
  | _ =>
    rw [hpc] at hdel
    exact absurd trivial hdel

/-- Every step of a pool that does not shrink keeps the owners. -/
theorem Mutexes.step (h : Mutexes s) (hnever : NeverDeletes s a)
    (hs : ThreadPool.step s a = some s') : Mutexes s' := by
  cases a with
  | call c worker job =>
    obtain ⟨hpc, rfl⟩ := step_call hs
    have hargs : Mutexes (s.setCall c fun x => { x with worker, job }) := by
      have hsame := (Beside.refl (s := s)).setCall c (f := fun x => { x with worker, job }) rfl
      have hto := h.submitOn (c := c) hsame rfl rfl .rfl (h.submit c)
      have heq : (s.setCall c fun x => { x with worker, job }).submitTo c (s.call c).pc =
          s.setCall c fun x => { x with worker, job } := by
        simp [State.submitTo, State.setCall]
      rwa [heq] at hto
    have hcalled : (s.setCall c fun x => { x with worker, job, pc := .test 0 }) =
        (s.setCall c fun x => { x with worker, job }).submitTo c (.test 0) := by
      simp [State.submitTo, State.setCall]
    have hidle : ((s.setCall c fun x => { x with worker, job }).call c).pc = .idle := by
      rw [State.setCall_self]
      exact hpc
    rw [hcalled]
    exact hargs.submitOn .refl rfl (congrArg SubmitPc.holds hidle).symm
      (congrArg SubmitPc.Adding hidle).symm.to_iff le_rfl
  | submit c => exact h.submitStep hs
  | signal c woken => exact h.signalStep hs
  | create c id => exact h.createStep hs
  | work n => exact h.workStep hs
  | spurious n =>
    obtain ⟨k, hpc, rfl⟩ := step_spurious hs
    have hpl := h.work n
    rw [hpc] at hpl
    have hn : n < s.created := by
      by_contra hn
      cases hpc.symm.trans (h.born n (not_lt.1 hn))
    exact h.workOn .refl rfl hn (by rw [hpc]; rfl) hpl
  | manage =>
    cases hs
    obtain ⟨m, hm, heq⟩ := manageStep_looks h.manager hnever
    rw [heq]
    exact ⟨hm, h.range, h.born, h.adding, h.held, h.submit, h.work⟩

/-- In an initialised pool nobody holds a lock. -/
theorem Mutexes.init {min max : Int} (h : Initialised min max s) : Mutexes s := by
  obtain ⟨-, hcur, -⟩ := h.nums
  have hthread : ∀ n, (s.thread n).pc = .find 0 ∨ (s.thread n).pc = .unborn := by
    intro n
    rw [h.threads]
    split
    · exact .inl rfl
    · exact .inr rfl
  have hnone : ∀ p, s.holds p = none := fun p => by
    cases p with
    | submit c => exact congrArg SubmitPc.holds (h.calls c).1
    | work n => rcases hthread n with hpc | hpc <;> exact congrArg WorkPc.holds hpc
  refine ⟨by rw [h.manager]; exact id, hcur ▸ h.range.1, fun n hn => ?_, fun c => ?_,
    fun i hi p => ?_, fun c => ?_, fun n => ?_⟩
  · rw [h.threads, if_neg (not_lt.2 hn)]
  · rw [(h.calls c).1, h.tpLock]
    exact ⟨fun hf => hf.elim, nofun⟩
  · obtain ⟨j, rfl⟩ := Int.eq_ofNat_of_zero_le hi.1
    have hfree : s.owner j = none := (h.slots j (hi.2.trans_eq hcur)).2.2.2.1
    rw [hfree, hnone]
    exact ⟨nofun, nofun⟩
  · rw [(h.calls c).1]
    trivial
  · rcases hthread n with hpc | hpc <;> rw [hpc]
    · exact le_rfl
    · trivial

/-! ## Rest -/

/-- Where a submission cannot step by itself: it has not called or has returned, is about to signal
or to create a worker, or waits for a lock. -/
theorem submitStep_stuck (h : submitStep s c = none) :
    ((s.call c).pc = .idle ∨ (s.call c).pc = .returned) ∨
      (∃ i, (s.call c).pc = .signal i ∨ ∃ grown, (s.call c).pc = .wake grown i) ∨
      (∃ i n, (s.call c).pc = .create i n) ∨
      (∃ i, (s.call c).pc = .lock i ∧ s.owner i ≠ none) ∨
      (∃ i, (s.call c).pc = .poolLock i ∧ s.tpLock ≠ none) := by
  unfold submitStep at h
  cases hpc : (s.call c).pc with
  | idle => exact .inl (.inl rfl)
  | returned => exact .inl (.inr rfl)
  | signal i => exact .inr (.inl ⟨i, .inl rfl⟩)
  | wake grown i => exact .inr (.inl ⟨i, .inr ⟨grown, rfl⟩⟩)
  | create i n => exact .inr (.inr (.inl ⟨i, n, rfl⟩))
  | lock i =>
    rw [hpc] at h
    have hlock := Option.map_eq_none_iff.1 h
    refine .inr (.inr (.inr (.inl ⟨i, rfl, fun hfree => ?_⟩)))
    rw [State.lockSlot, show (s.slot i).owner = none from hfree] at hlock
    cases hlock
  | poolLock i =>
    rw [hpc] at h
    refine .inr (.inr (.inr (.inr ⟨i, rfl, fun hfree => ?_⟩)))
    dsimp only at h
    rw [hfree] at h
    cases h
  | _ => rw [hpc] at h; cases h

/-- Where a worker cannot step by itself. -/
theorem workStep_stuck (h : workStep s n = none) (halive : (s.thread n).alive = true) :
    (∃ k, (s.thread n).pc = .waiting k) ∨
      (∃ k, ((s.thread n).pc = .lockWait k ∨ (s.thread n).pc = .relock k ∨
        (s.thread n).pc = .lockDone k) ∧ s.owner k ≠ none) := by
  have hlock : ∀ {k pc}, (s.lockSlot k (.work n)).map (·.workTo n pc) = none → s.owner k ≠ none :=
    fun {k pc} hnone hfree => by
      have hlock := Option.map_eq_none_iff.1 hnone
      rw [State.lockSlot, show (s.slot k).owner = none from hfree] at hlock
      cases hlock
  unfold workStep at h
  unfold Thread.alive at halive
  cases hpc : (s.thread n).pc with
  | unborn | exited | killed => rw [hpc] at halive; cases halive
  | waiting k => exact .inl ⟨k, rfl⟩
  | lockWait k => rw [hpc] at h; exact .inr ⟨k, .inl rfl, hlock h⟩
  | relock k => rw [hpc] at h; exact .inr ⟨k, .inr (.inl rfl), hlock h⟩
  | lockDone k => rw [hpc] at h; exact .inr ⟨k, .inr (.inr rfl), hlock h⟩
  | _ => rw [hpc] at h; cases h

/-- A submission that is about to signal or to create a worker can step. -/
theorem settled_submit (hset : ∀ a, a.isOwn = true → ThreadPool.step s a = none) (c : Nat) :
    ((s.call c).pc = .idle ∨ (s.call c).pc = .returned) ∨
      (∃ i, (s.call c).pc = .lock i ∧ s.owner i ≠ none) ∨
      (∃ i, (s.call c).pc = .poolLock i ∧ s.tpLock ≠ none) := by
  rcases submitStep_stuck (hset (.submit c) rfl) with hpc | ⟨i, hpc⟩ | ⟨i, n, hpc⟩ | hrest
  · exact .inl hpc
  · exfalso
    obtain ⟨woken, t, hsome⟩ := exists_signalStep hpc
    cases (hset (.signal c woken) rfl).symm.trans hsome
  · have hnone : createStep s c none = none := hset (.create c none) rfl
    unfold ThreadPool.createStep at hnone
    rw [hpc] at hnone
    cases hnone
  · exact .inr hrest

/-- **What rest is**: no submission and no worker can step. -/
theorem Mutexes.settled_iff_quiet (h : Mutexes s) :
    (∀ a, a.isOwn = true → ThreadPool.step s a = none) ↔ Quiet s := by
  constructor
  · intro hset
    have hsubmit := settled_submit hset
    -- who holds the lock of a slot can step
    have hslots : ∀ i, i ∈ inUse s.curThNum → s.owner i = none := fun i hi => by
      by_contra howned
      obtain ⟨p, hp⟩ := Option.ne_none_iff_exists'.1 howned
      have hholds := (h.held i hi p).1 hp
      cases p with
      | submit c =>
        have hc : (s.call c).pc.holds = some i := hholds
        rcases hsubmit c with (hpc | hpc) | ⟨j, hpc, -⟩ | ⟨j, hpc, -⟩ <;> rw [hpc] at hc <;>
          cases hc
      | work n =>
        have hn : (s.thread n).pc.holds = some i := hholds
        have halive : (s.thread n).alive = true := by
          unfold Thread.alive
          split
          · next hpc => rw [hpc] at hn; cases hn
          · next hpc => rw [hpc] at hn; cases hn
          · next hpc => rw [hpc] at hn; cases hn
          · rfl
        rcases workStep_stuck (hset (.work n) rfl) halive with
          ⟨k, hpc⟩ | ⟨k, hpc | hpc | hpc, -⟩ <;> rw [hpc] at hn <;> cases hn
    have hpool : s.tpLock = none := by
      by_contra howned
      obtain ⟨c, hc⟩ := Option.ne_none_iff_exists'.1 howned
      have hadd := (h.adding c).2 hc
      rcases hsubmit c with (hpc | hpc) | ⟨j, hpc, -⟩ | ⟨j, hpc, -⟩ <;> rw [hpc] at hadd <;>
        exact hadd
    refine ⟨fun c => ?_, fun n halive => ?_⟩
    · rcases hsubmit c with hpc | ⟨i, hpc, howned⟩ | ⟨i, -, howned⟩
      · exact hpc
      · have hi := h.submit c
        rw [hpc] at hi
        exact absurd (hslots i hi) howned
      · exact absurd hpool howned
    · rcases workStep_stuck (hset (.work n) rfl) halive with hpc | ⟨k, hpc, howned⟩
      · exact hpc
      · have hk := h.work n
        refine absurd (hslots k ?_) howned
        rcases hpc with hpc | hpc | hpc <;> rw [hpc] at hk <;> exact hk
  · rintro ⟨hcalls, hthreads⟩ a ha
    cases a with
    | submit c =>
      rcases hcalls c with hpc | hpc <;> rw [ThreadPool.step, ThreadPool.submitStep, hpc]
    | signal c woken =>
      rcases hcalls c with hpc | hpc <;> rw [ThreadPool.step, ThreadPool.signalStep, hpc]
    | create c id =>
      show ThreadPool.createStep s c id = none
      unfold ThreadPool.createStep
      rcases hcalls c with hpc | hpc <;> rw [hpc]
    | work n =>
      by_cases halive : (s.thread n).alive = true
      · obtain ⟨k, hpc⟩ := hthreads n halive
        rw [ThreadPool.step, ThreadPool.workStep, hpc]
      · unfold Thread.alive at halive
        split at halive
        · next hpc => rw [ThreadPool.step, ThreadPool.workStep, hpc]
        · next hpc => rw [ThreadPool.step, ThreadPool.workStep, hpc]
        · next hpc => rw [ThreadPool.step, ThreadPool.workStep, hpc]
        · exact absurd rfl halive
    | call | spurious | manage => cases ha

/-- Who steps has called. -/
theorem Around.mem_of_own {min max : Int} {F : Finset Nat} (h : Around min max F s)
    (ha : a.isOwn = true) (hs : ThreadPool.step s a = some s') (c : Nat)
    (hc : a.submission = some c) : c ∈ F := by
  refine h.submit_mem fun hpc => ?_
  cases a with
  | submit d =>
    cases hc
    rw [ThreadPool.step, ThreadPool.submitStep, hpc] at hs
    cases hs
  | signal d woken =>
    cases hc
    rw [ThreadPool.step, ThreadPool.signalStep, hpc] at hs
    cases hs
  | create d id =>
    cases hc
    cases createStep_rule hs with
    | made _ _ _ hcreate | failed _ _ hcreate => cases hpc.symm.trans hcreate
  | work => cases hc
  | call | spurious | manage => cases ha

/-- The submissions and the workers come to rest by themselves. -/
theorem exists_quiet {min max : Int} (hr : (machine w ω δ min max).Reach NeverDeletes s) :
    Mutexes s ∧ ∃ as t, (machine w ω δ min max).Run (fun _ a => a.isOwn = true) s as t ∧
      Quiet t := by
  obtain ⟨s₀, as, h₀, hr⟩ := hr
  have hmutexes : Mutexes s := hr.invariant (.init h₀) fun _ _ _ hI hC hs => hI.step hC hs
  refine ⟨hmutexes, ?_⟩
  obtain ⟨F, hcalls, haround⟩ := exists_calls h₀ hr
  obtain ⟨bs, t, hown, hset⟩ := Machine.exists_settled (M := machine w ω δ min max)
    (I := Around min max F) (P := State.potential F max.toNat)
    (hcalls.invariant haround fun _ _ _ hI ha hs => hI.step ha hs)
    (fun _ _ _ hI ha hs => hI.step (hI.mem_of_own ha hs) hs) fun u a u' hI ha hs => by
      have hle := step_potential hI (hI.mem_of_own ha hs) hs
      cases a with
      | submit | signal | create | work => exact hle
      | call | spurious | manage => cases ha
  have hmutexes' : Mutexes t := hown.invariant hmutexes fun _ a _ hI ha hs => hI.step (by
    cases a with
    | manage => cases ha
    | _ => trivial) hs
  exact ⟨bs, t, hown, hmutexes'.settled_iff_quiet.1 hset⟩

/-- **No deadlock.** In every run from an initialised pool whose slots are all idle, in which
`tp_delete_thread` deletes nothing, whatever the signals wake, the workers that wake without one and
the outcomes of `pthread_create`: the submissions and the workers by themselves come to where every
call has returned and every worker waits for a signal, and there only can none of them step. -/
theorem comesToQuiet {min max : Int} (hr : (machine w ω δ min max).Reach NeverDeletes s) :
    ((∀ a, a.isOwn = true → ThreadPool.step s a = none) ↔ Quiet s) ∧
      ∃ as t, (machine w ω δ min max).Run (fun _ a => a.isOwn = true) s as t ∧ Quiet t := by
  obtain ⟨hmutexes, hquiet⟩ := exists_quiet hr
  exact ⟨hmutexes.settled_iff_quiet, hquiet⟩

end

/-- Worker `0` is about to wait, and submission `0` waits for the lock of its slot. -/
def lockedOut : List (Act 64 Nat Nat) :=
  List.replicate 3 (.work 0) ++ [.call 0 10 20, .submit 0]

/-- They come to where the call has returned and the worker waits. -/
theorem lockedOut_comesToQuiet : ∃ s as t, (machine 64 Nat Nat 1 1).Reach NeverDeletes s ∧
    ((s.call 0).pc, s.owner 0) = (.lock 0, some (.work 0)) ∧
    (machine 64 Nat Nat 1 1).Run (fun _ a => a.isOwn = true) s as t ∧ Quiet t := by
  have hrun : ((machine 64 Nat Nat 1 1).runFrom (idlePool 1 1) lockedOut).map
      (fun s => ((s.call 0).pc, s.owner 0)) = some (.lock 0, some (.work 0)) := by
    decide +kernel
  obtain ⟨s, hs, hend⟩ := Option.map_eq_some_iff.1 hrun
  have hreach : (machine 64 Nat Nat 1 1).Reach NeverDeletes s := by
    refine ⟨_, _, idlePool_initialised (by decide) (by decide), .of_runFrom (fun a ha u => ?_) hs⟩
    have hkeeps : lockedOut.all fun a => a.isOwn || a.isCall := by decide
    cases a with
    | manage => exact absurd (List.all_eq_true.1 hkeeps _ ha) (by decide)
    | _ => trivial
  obtain ⟨-, as, t, hown, hquiet⟩ := comesToQuiet hreach
  exact ⟨s, as, t, hreach, hend, hown, hquiet⟩

end LinuxTraining.ThreadPool
