import LinuxTraining.ThreadPool.Work

/-!
# The thread pool: the steps of the manager, and every run

Each step of `tp_manage_thread` keeps the annotations, `Inv.manageStep`, and so does each step of
the pool that meets `Calm` and `ShrinksApart`, `Inv.step`: they hold in every state of a run of such
steps, `Inv.of_reach`.
-/

namespace LinuxTraining.ThreadPool

open Lib

variable {w : Nat} {ω δ : Type}

section
variable {s s' : State w ω δ} {c n : Nat} {k : Int}

/-- The manager moves, and destroyed memory is where it was. -/
theorem Others.manageTo (h : Others s none) {m : ManagePc} (hm : ManageOk s m)
    (hdel : s.manager.Deleting → m.Deleting) : Inv (s.manageTo m) := by
  have hmoved : Others (s.manageTo m) none := by
    refine ⟨⟨h.range, h.busy, h.idle, h.above, h.holder, h.stored, h.finished, h.born, h.made,
      h.dead, fun k hk => ⟨(h.destroyed k hk).1, (h.destroyed k hk).2.imp_right fun hd =>
        ⟨hdel hd.1, hd.2⟩⟩⟩, fun c hc => ?_, fun n hn => ?_, fun hp => absurd rfl hp⟩
    · exact (h.submit c hc).steady (.of_slot rfl rfl rfl le_rfl fun hl => ⟨hl, rfl⟩)
    · exact (h.work n hn).steady (.of_slot rfl rfl rfl le_rfl id)
  refine hmoved.inv_manage ?_
  change ManageOk (s.manageTo m) m
  cases m <;> exact hm

/-- The kill of the worker of the last slot. -/
theorem Others.killWorker (h : Others s none) (hcl : Closing s) :
    Others (s.killWorker (s.curThNum - 1)) none ∧ Closed (s.killWorker (s.curThNum - 1)) := by
  have hlisted : Others { s with killed := (s.curThNum - 1) :: s.killed } none := by
    refine ⟨⟨h.range, h.busy, h.idle, h.above, h.holder, h.stored, fun c hc => ?_, h.born, h.made,
      h.dead, h.destroyed⟩, fun c hc => ?_, fun n hn => ?_, fun hp => absurd rfl hp⟩
    · obtain ⟨m, k, hst, hruns, -⟩ := h.finished c hc
      exact ⟨m, k, hst, hruns, fun hk => absurd hk (List.cons_ne_nil _ _)⟩
    · exact (h.submit c hc).steady (.of_slot rfl rfl rfl le_rfl fun hl => ⟨hl, rfl⟩)
    · exact (h.work n hn).steady (.of_slot rfl rfl rfl le_rfl fun _ => List.cons_ne_nil _ _)
  unfold State.killWorker
  cases hw : (s.slot (s.curThNum - 1)).worker with
  | none => exact ⟨hlisted, hcl, rfl, fun n hn => absurd (hw.symm.trans hn) nofun⟩
  | some n =>
    refine ⟨⟨⟨h.range, h.busy, h.idle, h.above, h.holder, h.stored, fun c hc => ?_, ?_, h.made,
      fun k hk => ?_, h.destroyed⟩, fun c hc => ?_, fun m hm => ?_, fun hp => absurd rfl hp⟩,
      ⟨hcl.1, hcl.2.1, hcl.2.2.1, ?_⟩, rfl, ?_⟩
    · obtain ⟨m, k, hst, hruns, -⟩ := h.finished c hc
      exact ⟨m, k, hst, hruns, fun hk => absurd hk (List.cons_ne_nil _ _)⟩
    · exact s.forall_workTo (P := fun m x => s.created ≤ m → x = .unborn)
        (fun hc => absurd (h.made _ n hw) (not_lt.2 hc)) h.born
    · exact s.forall_workTo (P := fun m x => (s.slot k).worker = some m → x = .killed)
        (fun _ => rfl) (h.dead k hk)
    · exact submitOk_workTo.2 (hlisted.submit c hc)
    · rcases eq_or_ne m n with rfl | hne
      · rw [State.workTo_self]
        trivial
      · rw [State.workTo_of_ne _ _ hne]
        exact workOk_workTo.2 (hlisted.work m hm)
    · exact s.forall_workTo (P := fun m x => x.serves = some (s.curThNum - 1) →
        (s.slot (s.curThNum - 1)).worker = some m) nofun hcl.2.2.2
    · intro m hm
      obtain rfl : n = m := Option.some.inj (hw.symm.trans hm)
      exact congrArg Thread.pc (State.workTo_self ..)

/-- The destruction of the lock or of the condition variable of the last slot. -/
theorem Others.destroy (h : Others s none) (hcl : Closed s) (hdel : s.manager.Deleting)
    {cond lock : Life} :
    Others (s.setSlot (s.curThNum - 1) fun x => { x with threadCond := cond, threadLock := lock })
        none ∧
      Closed (s.setSlot (s.curThNum - 1)
        fun x => { x with threadCond := cond, threadLock := lock }) := by
  obtain ⟨⟨hmin, hbusy, hno, hserve⟩, hkilled, hdead⟩ := hcl
  have hself := State.setSlot_self s (s.curThNum - 1)
    fun x => { x with threadCond := cond, threadLock := lock }
  have hmax := h.range.2.2
  refine ⟨h.setSlot
    { h.same _ with
      life := fun c _ ht => absurd ht (hno c)
      destroyed := fun _ => ⟨by omega, .inr ⟨hdel, rfl⟩⟩ },
    ⟨hmin, ?_, hno, fun n hn => ?_⟩, hkilled, fun n hn => hdead n ?_⟩
  · exact (congrArg Slot.isBusy hself).trans hbusy
  · exact (congrArg Slot.worker hself).trans (hserve n hn)
  · exact (congrArg Slot.worker hself).symm.trans hn

/-- The annotation of a submission that does not threaten the last slot, when it goes. -/
theorem SubmitOk.shrink {pc : SubmitPc} (h : SubmitOk s c pc)
    (hfree : (s.slot (s.curThNum - 1)).phase = .free)
    (hpc : ¬ pc.Threatens (s.curThNum - 1)) :
    SubmitOk { s with curThNum := s.curThNum - 1 } c pc := by
  have hlt : ∀ {i}, i < s.curThNum → i ≠ s.curThNum - 1 → i < s.curThNum - 1 :=
    fun {i} _ _ => by omega
  have hclaims : ∀ {i}, Claims s c i → i < s.curThNum → i < s.curThNum - 1 := fun {i} hc hi =>
    hlt hi fun he => absurd ((he ▸ hc.1).symm.trans hfree) nofun
  cases pc with
  | idle | test | poolLock | returned => exact h
  | lock i => exact ⟨h.1, hlt h.2 hpc⟩
  | readBusy i | unlockBusy i => exact ⟨h.1, hlt h.2.1 hpc, h.2.2⟩
  | setBusy i => exact ⟨h.1, hlt h.2.1 hpc, h.2.2⟩
  | unlockClaimed | storeWork | storeJob | signal | growWork | growJob =>
    exact ⟨h.1, hclaims h.1 h.2.1, h.2.2⟩
  | addTest | addIndex | condInit | lockInit | addBusy | incRead | incWrite | create
  | growIndex => exact absurd trivial hpc
  | poolUnlock grown i | wake grown i =>
    cases grown with
    | false => exact h
    | true => exact ⟨h.1, hclaims h.1 h.2.1, h.2.2⟩

/-- The annotation of a worker that is not on the last slot, when it goes. -/
theorem WorkOk.shrink {pc : WorkPc ω δ} (h : WorkOk s n pc) (hkilled : s.killed ≠ [])
    (hpc : pc.serves ≠ some (s.curThNum - 1)) :
    WorkOk { s with curThNum := s.curThNum - 1 } n pc := by
  have hlt : ∀ {k : Int}, some k ≠ some (s.curThNum - 1) → k < s.curThNum →
      k < s.curThNum - 1 := by
    intro k hne hk
    have hne' : k ≠ s.curThNum - 1 := fun he => hne (congrArg some he)
    omega
  have hfor : ∀ {k : Int} {c}, some k ≠ some (s.curThNum - 1) → RunsFor s n k c →
      RunsFor { s with curThNum := s.curThNum - 1 } n k c :=
    fun hne hk => ⟨hlt hne hk.1, hk.2⟩
  cases pc with
  | unborn | find | exited | killed => trivial
  | cmp => exact .inr hkilled
  | lockWait | waiting => exact hlt hpc h
  | wait | unlockDone => exact ⟨hlt hpc h.1, h.2⟩
  | relock | readWork | lockDone =>
    obtain ⟨c, hc, hruns⟩ := h
    exact ⟨c, hfor hpc hc, hruns⟩
  | unlock | readJob | process | setIdle =>
    obtain ⟨⟨c, hc, hruns⟩, hrest⟩ := h
    exact ⟨⟨c, hfor hpc hc, hruns⟩, hrest⟩

/-- `cur_th_num--`, which ends the last slot. -/
theorem Inv.shrink (h : Inv s) (hcl : Closed s) :
    Inv ({ s with curThNum := s.curThNum - 1 }.manageTo .delMin) := by
  obtain ⟨⟨hmin, hbusy, hno, hserve⟩, hkilled, hdead⟩ := hcl
  have hfree : (s.slot (s.curThNum - 1)).phase = .free := by
    by_contra hne
    exact absurd ((h.busy _ hne).symm.trans hbusy) nofun
  have hne : s.killed ≠ [] := by
    intro he
    rw [he] at hkilled
    cases hkilled
  -- each slot from the one that goes on
  have hfrom : ∀ {k}, s.curThNum - 1 ≤ k → k = s.curThNum - 1 ∨ s.curThNum ≤ k :=
    fun {k} _ => by omega
  have hmax := h.range.2.2
  refine ⟨⟨⟨h.range.1, Int.le_sub_one_of_lt hmin, (sub_one_lt _).le.trans hmax⟩, h.busy,
    fun k hk hlt => h.idle k hk (hlt.trans (sub_one_lt _)), fun k hk => ?_,
    h.holder, h.stored, h.finished, h.born, h.made, fun k hk n hn => ?_,
    fun k hk => ⟨(h.destroyed k hk).1, .inl ?_⟩⟩, fun c => (h.submit c).shrink hfree (hno c),
    fun n => WorkOk.shrink (h.work n) hne fun hs => ?_, trivial⟩
  · rcases hfrom hk with rfl | hk'
    · exact .inl hfree
    · exact h.above k hk'
  · rcases hfrom hk with rfl | hk'
    · exact hdead n hn
    · exact h.dead k hk' n hn
  · rcases (h.destroyed k hk).2 with hge | ⟨-, hk'⟩
    · exact (sub_one_lt _).le.trans hge
    · exact hk'.ge
  · exact absurd ((congrArg WorkPc.serves (hdead n (hserve n hs))).symm.trans hs) nofun

/-- A step of `tp_manage_thread`. -/
theorem Inv.manageStep (h : Inv s) (hC : ShrinksApart s .manage) : Inv (manageStep s) := by
  have hok := h.manage
  have ho := h.others none
  unfold ThreadPool.manageStep
  cases hpc : s.manager with
  | sleep | statBusy =>
    exact ho.manageTo trivial fun hm => by rw [hpc] at hm; exact hm
  | statTest i b =>
    refine ho.manageTo ?_ fun hm => by rw [hpc] at hm; exact hm.elim
    split <;> trivial
  | statEnd b =>
    refine ho.manageTo ?_ fun hm => by rw [hpc] at hm; exact hm.elim
    split <;> trivial
  | delMin =>
    refine ho.manageTo ?_ fun hm => by rw [hpc] at hm; exact hm.elim
    split
    · trivial
    · next hlt => exact not_le.1 hlt
  | busyIndex =>
    rw [hpc] at hok
    exact ho.manageTo hok fun hm => by rw [hpc] at hm; exact hm.elim
  | delBusy k =>
    rw [hpc] at hok
    refine ho.manageTo ?_ fun hm => by rw [hpc] at hm; exact hm.elim
    split
    · trivial
    · next hb =>
      have hidle := Bool.eq_false_iff.2 hb
      obtain ⟨hcur, hno, hserve⟩ := hC k hpc hidle
      obtain rfl : s.curThNum - 1 = k := by omega
      exact ⟨hok, hidle, hno, hserve⟩
  | killIndex =>
    rw [hpc] at hok
    exact ho.manageTo ⟨hok, rfl⟩ fun _ => trivial
  | kill k =>
    rw [hpc] at hok
    obtain ⟨hcl, rfl⟩ := hok
    obtain ⟨hkill, hclosed⟩ := ho.killWorker hcl
    exact hkill.manageTo hclosed fun _ => trivial
  | lockIndex | condIndex | decRead =>
    rw [hpc] at hok
    exact ho.manageTo ⟨hok, rfl⟩ fun _ => trivial
  | destroyLock k | destroyCond k =>
    rw [hpc] at hok
    obtain ⟨hcl, rfl⟩ := hok
    obtain ⟨hdes, hclosed⟩ := ho.destroy hcl (by rw [hpc]; trivial)
    exact hdes.manageTo hclosed fun _ => trivial
  | decWrite v =>
    rw [hpc] at hok
    obtain ⟨hcl, rfl⟩ := hok
    exact h.shrink hcl

/-! ## Every run -/

/-- A call of `tp_process_job`. -/
theorem Inv.call (h : Inv s) {worker : ω} {job : δ}
    (hs : step s (.call c worker job) = some s') : Inv s' := by
  obtain ⟨hpc, rfl⟩ := step_call hs
  have hok := h.submit c
  rw [hpc] at hok
  have hnone : ∀ k, (s.slot k).phase.holder ≠ some c := h.not_holder hok.1
  have hset : Others (s.setCall c fun x => { x with worker, job, pc := .test 0 })
      (some (.submit c)) :=
    (h.others _).setCall (.inl rfl)
      (fun k m _ hk => absurd (by rw [hk]; rfl) (hnone k))
      (fun k hk => absurd hk (hnone k)) (h.stored c)
      (fun hfin => absurd (hok.2.2.2.symm.trans hfin) nofun) fun _ => id
  refine hset.inv_submit ?_
  rw [State.setCall_self]
  refine ⟨?_, ?_⟩
  · unfold Fresh
    rwa [State.setCall_self]
  · exact h.range.1.trans (h.range.2.1.trans h.range.2.2)

/-- Each step of the pool keeps the annotations. -/
theorem Inv.step (h : Inv s) {a : Act w ω δ} (hcalm : Calm s a) (hC : ShrinksApart s a)
    (hs : ThreadPool.step s a = some s') : Inv s' := by
  cases a with
  | call c worker job => exact h.call hs
  | submit c => exact h.submitStep hC hs
  | signal c woken => exact h.signalStep hcalm hs
  | create c id => exact h.createStep hcalm hs
  | work n => exact h.workStep hC hs
  | spurious n => exact hcalm.elim
  | manage =>
    cases hs
    exact h.manageStep hC

/-- Nothing is destroyed in an initialised pool. -/
theorem Initialised.not_destroyed {min max : Int} (h : Initialised min max s) (k : Int) :
    ¬ (s.slot k).Destroyed := by
  by_cases hk : 0 ≤ k ∧ k < min
  · obtain ⟨i, rfl⟩ := Int.eq_ofNat_of_zero_le hk.1
    obtain ⟨-, hcond, hlock, -⟩ := h.slots i hk.2
    exact fun hd => hd.elim (fun he => absurd (hlock.symm.trans he) nofun)
      fun he => absurd (hcond.symm.trans he) nofun
  · obtain ⟨hcond, hlock, -⟩ := h.beyond k hk
    exact fun hd => hd.elim (fun he => absurd (hlock.symm.trans he) nofun)
      fun he => absurd (hcond.symm.trans he) nofun

/-- In an initialised pool a slot is uninitialised, or that of the worker with its number. -/
theorem Initialised.worker {min max : Int} (h : Initialised min max s)
    (hn : (s.slot k).worker = some n) : (n : Int) = k ∧ k < min := by
  by_cases hk : 0 ≤ k ∧ k < min
  · obtain ⟨i, rfl⟩ := Int.eq_ofNat_of_zero_le hk.1
    obtain ⟨-, -, -, -, hworker, -⟩ := h.slots i hk.2
    obtain rfl : i = n := Option.some.inj (hworker.symm.trans hn)
    exact ⟨rfl, hk.2⟩
  · exact absurd ((h.beyond k hk).2.2.symm.trans hn) nofun

/-- The annotations hold of an initialised pool. -/
theorem Inv.init {min max : Int} (h : Initialised min max s) : Inv s := by
  obtain ⟨hmin, hcur, hmax⟩ := h.nums
  have hcreated := h.created
  have hphase : ∀ k, (s.slot k).phase.holder = none := by
    intro k
    rw [h.phase]
    rfl
  have hthread : ∀ n, (s.thread n).pc = .find 0 ∨ (s.thread n).pc = .unborn := by
    intro n
    rw [h.threads]
    split
    · exact .inl rfl
    · exact .inr rfl
  refine ⟨⟨?_, fun k hk => absurd (h.phase k) hk, fun k hk hlt _ => ?_,
    fun k _ => .inl (h.phase k),
    fun k c hc => absurd ((hphase k).symm.trans hc) nofun,
    fun c k hk => absurd ((h.calls c).2.2.1.symm.trans hk) nofun,
    fun c hc => absurd ((h.calls c).2.2.2.2.symm.trans hc) nofun, fun n hn => ?_,
    fun k n hn => ?_, fun k hk n hn => ?_, fun k hk => (h.not_destroyed k hk).elim⟩,
    fun c => ?_, fun n => ?_, ?_⟩
  · rw [hmin, hcur, hmax]
    exact ⟨h.range.1, le_rfl, h.range.2⟩
  · obtain ⟨i, rfl⟩ := Int.eq_ofNat_of_zero_le hk
    exact (h.slots i (hlt.trans_eq hcur)).1
  · rw [h.threads, if_neg (not_lt.2 hn)]
  · have hk := h.worker hn
    omega
  · have hk' := h.worker hn
    omega
  · rw [(h.calls c).1]
    exact (h.calls c).2
  · rcases hthread n with hpc | hpc <;> rw [hpc] <;> trivial
  · rw [h.manager]
    trivial

/-- **The annotations hold throughout**: in every state that the pool reaches from an initialised
one by steps that meet the conditions. -/
theorem Inv.of_reach {min max : Int}
    (h : (machine w ω δ min max).Reach (fun s a => Calm s a ∧ ShrinksApart s a) s) : Inv s :=
  h.invariant (fun _ hinit => .init hinit) fun _ _ _ hI hC hs => hI.step hC.1 hC.2 hs

end

end LinuxTraining.ThreadPool
