import LinuxTraining.ThreadPool.Outline

/-!
# The thread pool: rules for the changes that a step makes

Each rule keeps the annotations of the parties that do not step, `Others`, through one change of
the pool. `Others.submitTo`, `Others.workTo` and `Others.manageTo` end a step: the party that has
stepped arrives at a program point whose annotation holds.
-/

namespace LinuxTraining.ThreadPool

variable {w : Nat} {ω δ : Type}

section
variable {s : State w ω δ} {p : Option Party} {c n : Nat} {i k : Int}

/-! ## What the annotations say of a submission -/

/-- A submission holds no slot, or one that it has not signalled, or has returned. -/
theorem SubmitOk.cases {pc : SubmitPc} (h : SubmitOk s c pc) :
    Fresh s c ∨ (∃ i, Claims s c i) ∨ pc = .returned := by
  cases pc with
  | idle => exact .inl h
  | test | lock | readBusy | setBusy | unlockBusy | poolLock | addTest | addIndex | condInit
  | lockInit | addBusy => exact .inl h.1
  | unlockClaimed | storeWork | storeJob | signal | incRead | incWrite | create | growIndex
  | growWork | growJob => exact .inr (.inl ⟨_, h.1⟩)
  | poolUnlock grown i | wake grown i =>
    cases grown with
    | false => exact .inl h.1
    | true => exact .inr (.inl ⟨_, h.1⟩)
  | returned => exact .inr (.inr rfl)

/-- A submission that has marked no slot busy holds none. -/
theorem Global.not_holder (h : Global s) (hf : (s.call c).claimed = none) (k : Int) :
    (s.slot k).phase.holder ≠ some c := by
  intro hk
  have hclaimed := h.holder k c hk
  rw [hf] at hclaimed
  cases hclaimed

/-- A submission holds only the slot that it has marked busy. -/
theorem Global.eq_of_holder (h : Global s) (hc : (s.call c).claimed = some i)
    (hk : (s.slot k).phase.holder = some c) : k = i :=
  Option.some.inj ((h.holder k c hk).symm.trans hc)

/-- A submission whose job a worker has taken up has returned. -/
theorem Global.returned_of_running (h : Global s) (hsub : SubmitOk s c (s.call c).pc)
    (hk : (s.slot k).phase = .running c n) : (s.call c).pc = .returned := by
  have hholder : (s.slot k).phase.holder = some c := by rw [hk]; rfl
  rcases hsub.cases with hf | ⟨i, hc⟩ | hr
  · exact absurd hholder (h.not_holder hf.1 k)
  · have hki := h.eq_of_holder hc.2.1 hholder
    subst hki
    exact absurd (hk.symm.trans hc.1) nofun
  · exact hr

/-- While the last slot is closed down, no submission is in `tp_add_thread`. -/
theorem ManageOk.closing {m : ManagePc} (h : ManageOk s m) (hm : m.Deleting) : Closing s := by
  cases m with
  | sleep | statTest | statBusy | statEnd | delMin | busyIndex | delBusy => exact hm.elim
  | killIndex => exact h
  | kill k => exact h.1
  | lockIndex | condIndex | decRead => exact h.1
  | destroyLock k | destroyCond k | decWrite k => exact h.1.1

/-- The annotations are those of the others and that of the party which steps. -/
theorem Others.inv_submit (h : Others s (some (.submit c))) (hc : SubmitOk s c (s.call c).pc) :
    Inv s := by
  refine ⟨h.toGlobal, fun d => ?_, fun n => h.work n nofun, h.manage nofun⟩
  rcases eq_or_ne d c with rfl | hne
  · exact hc
  · exact h.submit d fun he => hne (Party.submit.inj (Option.some.inj he)).symm

theorem Others.inv_work (h : Others s (some (.work n))) (hn : WorkOk s n (s.thread n).pc) :
    Inv s := by
  refine ⟨h.toGlobal, fun c => h.submit c nofun, fun m => ?_, h.manage nofun⟩
  rcases eq_or_ne m n with rfl | hne
  · exact hn
  · exact h.work m fun he => hne (Party.work.inj (Option.some.inj he)).symm

theorem Others.inv_manage (h : Others s none) (hm : ManageOk s s.manager) : Inv s :=
  ⟨h.toGlobal, fun c => h.submit c nofun, fun n => h.work n nofun, hm⟩

/-- A manager that is annotated in one state is in another that agrees on what it reads. -/
theorem ManageOk.congr {s s' : State w ω δ} {m : ManagePc} (h : ManageOk s m)
    (hmin : s'.minThNum = s.minThNum) (hcur : s.curThNum ≤ s'.curThNum)
    (hdel : m.Deleting → s'.curThNum = s.curThNum)
    (hclosing : m.Deleting → Closing s → Closing s')
    (hclosed : m.Deleting → Closed s → Closed s') : ManageOk s' m := by
  cases m with
  | sleep | statTest | statBusy | statEnd | delMin => trivial
  | busyIndex | delBusy => exact lt_of_eq_of_lt hmin (lt_of_lt_of_le h hcur)
  | killIndex => exact hclosing trivial h
  | kill k =>
    refine ⟨hclosing trivial h.1, ?_⟩
    rw [hdel trivial]
    exact h.2
  | lockIndex | condIndex | decRead => exact hclosed trivial h
  | destroyLock k | destroyCond k | decWrite k =>
    refine ⟨hclosed trivial h.1, ?_⟩
    rw [hdel trivial]
    exact h.2

/-! ## Changes of a slot -/

/-- A change of slot `i` by party `p`: what the others rely on there stays. -/
structure SlotChange (s : State w ω δ) (p : Option Party) (i : Int) (y : Slot w ω δ) : Prop where
  worker : y.worker = (s.slot i).worker ∨ i < s.curThNum ∧ ¬ s.manager.Deleting ∧
    ∀ n, y.worker = some n → n < s.created
  owner : i < s.curThNum → ∀ q, p ≠ some q → (s.slot i).owner = some q →
    y.owner = some q ∧ ((∃ c, q = .submit c) → y.isBusy = (s.slot i).isBusy)
  claimed : ∀ c, p ≠ some (.submit c) → (s.slot i).phase = .claimed c →
    y.phase = .claimed c ∧ y.thWork = (s.slot i).thWork ∧ y.thJob = (s.slot i).thJob
  unclaimed : ∀ c, p ≠ some (.submit c) → y.phase = .claimed c → (s.slot i).phase = .claimed c
  running : ∀ c n, p ≠ some (.work n) → (s.slot i).phase = .running c n →
    y.phase = .running c n ∧ y.thWork = (s.slot i).thWork ∧ y.thJob = (s.slot i).thJob
  life : ∀ c, p ≠ some (.submit c) → (s.call c).pc.Threatens i →
    ((s.slot i).threadCond = .live → y.threadCond = .live) ∧
      ((s.slot i).threadLock = .live → y.threadLock = .live) ∧
      (y.Destroyed → (s.slot i).Destroyed)
  destroyed : y.Destroyed → i < s.maxThNum ∧
    (s.curThNum ≤ i ∨ s.manager.Deleting ∧ i = s.curThNum - 1)
  busy : y.phase ≠ .free → y.isBusy = true
  idle : 0 ≤ i → i < s.curThNum → y.phase = .free → y.isBusy = false
  above : s.curThNum ≤ i → y.phase = .free ∨ ∃ c, y.phase = .claimed c
  holder : ∀ c, y.phase.holder = some c → (s.call c).claimed = some i
  stored : ∀ c, (s.call c).stored = some i →
    (s.call c).finished = true ∨ y.phase.holder = some c
  closing : p ≠ none → s.manager.Deleting → i = s.curThNum - 1 → y.isBusy = false

/-- The rule for a change of a slot. -/
theorem Others.setSlot (h : Others s p) {f : Slot w ω δ → Slot w ω δ}
    (hf : SlotChange s p i (f (s.slot i))) : Others (s.setSlot i f) p := by
  have hworker : ∀ k, s.curThNum ≤ k ∨ s.manager.Deleting →
      ((s.setSlot i f).slot k).worker = (s.slot k).worker :=
    s.forall_setSlot
      (P := fun k y => s.curThNum ≤ k ∨ s.manager.Deleting → y.worker = (s.slot k).worker)
      (fun hk => hf.worker.resolve_right fun hn => hk.elim (not_le.2 hn.1) hn.2.1) fun _ _ => rfl
  have hclosing : p ≠ none → s.manager.Deleting → Closing s → Closing (s.setSlot i f) := by
    rintro hp hm ⟨hmin, hbusy, hthreat, hserve⟩
    refine ⟨hmin, ?_, hthreat, fun n hn => (hworker _ (.inr hm)).trans (hserve n hn)⟩
    change ((s.setSlot i f).slot (s.curThNum - 1)).isBusy = false
    rcases eq_or_ne (s.curThNum - 1) i with he | hne
    · rw [he, State.setSlot_self]
      exact hf.closing hp hm he.symm
    · rwa [State.setSlot_of_ne _ _ hne]
  refine ⟨⟨h.range, ?_, ?_, ?_, ?_, fun c => ?_, h.finished, h.born, ?_, fun k hk n hn => ?_, ?_⟩,
    fun c hc => ?_, fun n hn => ?_, fun hp => ?_⟩
  · exact s.forall_setSlot (P := fun _ y => y.phase ≠ .free → y.isBusy = true) hf.busy h.busy
  · exact s.forall_setSlot
      (P := fun k y => 0 ≤ k → k < s.curThNum → y.phase = .free → y.isBusy = false) hf.idle h.idle
  · exact s.forall_setSlot
      (P := fun k y => s.curThNum ≤ k → y.phase = .free ∨ ∃ c, y.phase = .claimed c)
      hf.above h.above
  · exact s.forall_setSlot
      (P := fun k y => ∀ c, y.phase.holder = some c → (s.call c).claimed = some k)
      hf.holder h.holder
  · exact s.forall_setSlot
      (P := fun k y => (s.call c).stored = some k → (s.call c).finished = true ∨
        y.phase.holder = some c) (hf.stored c) (h.stored c)
  · exact s.forall_setSlot (P := fun _ y => ∀ n, y.worker = some n → n < s.created)
      (fun n hn => hf.worker.elim (fun he => h.made i n (he.symm.trans hn)) fun hw => hw.2.2 n hn)
      h.made
  · exact h.dead k hk n ((hworker k (.inl hk)).symm.trans hn)
  · exact s.forall_setSlot (P := fun k y => y.Destroyed → k < s.maxThNum ∧
      (s.curThNum ≤ k ∨ s.manager.Deleting ∧ k = s.curThNum - 1)) hf.destroyed h.destroyed
  · refine SubmitOk.steady (h.submit c hc) ⟨rfl, rfl, le_rfl, fun hl => ⟨hl, rfl⟩, ?_, ?_, ?_, ?_⟩
    · exact s.forall_setSlot (P := fun k y => k < s.curThNum → (s.slot k).owner = some (.submit c) →
          y.owner = some (.submit c) ∧ y.isBusy = (s.slot k).isBusy)
        (fun hi ho => (hf.owner hi _ hc ho).imp_right fun hb => hb ⟨c, rfl⟩)
        fun _ _ ho => ⟨ho, rfl⟩
    · exact s.forall_setSlot (P := fun k y => (s.slot k).phase = .claimed c → y.phase = .claimed c ∧
          y.thWork = (s.slot k).thWork ∧ y.thJob = (s.slot k).thJob)
        (hf.claimed c hc) fun _ ho => ⟨ho, rfl, rfl⟩
    · exact s.forall_setSlot (P := fun k y => y.phase = .claimed c → (s.slot k).phase = .claimed c)
        (hf.unclaimed c hc) fun _ => id
    · exact s.forall_setSlot (P := fun k y => (s.call c).pc.Threatens k →
          ((s.slot k).threadCond = .live → y.threadCond = .live) ∧
            ((s.slot k).threadLock = .live → y.threadLock = .live) ∧
            (y.Destroyed → (s.slot k).Destroyed))
        (hf.life c hc) fun _ _ => ⟨id, id, id⟩
  · refine WorkOk.steady (h.work n hn) ⟨rfl, le_rfl, id, ?_, ?_⟩
    · exact s.forall_setSlot (P := fun k y => k < s.curThNum → (s.slot k).owner = some (.work n) →
          y.owner = some (.work n))
        (fun hi ho => (hf.owner hi _ hn ho).1) fun _ _ ho => ho
    · intro k c hph
      obtain ⟨hph', hw, hj⟩ := s.forall_setSlot
        (P := fun k y => ∀ c, (s.slot k).phase = .running c n → y.phase = .running c n ∧
          y.thWork = (s.slot k).thWork ∧ y.thJob = (s.slot k).thJob)
        (fun c => hf.running c n hn) (fun _ _ hph => ⟨hph, rfl, rfl⟩) k c hph
      exact ⟨hph', hw, hj, rfl, rfl, rfl, rfl, rfl⟩
  · exact (h.manage hp).congr rfl le_rfl (fun _ => rfl) (hclosing hp) fun hm hcl =>
      ⟨hclosing hp hm hcl.1, hcl.2.1,
        fun n hn => hcl.2.2 n ((hworker _ (.inr hm)).symm.trans hn)⟩

/-- A slot that stays as it is. -/
theorem Others.same (h : Others s p) (i : Int) : SlotChange s p i (s.slot i) where
  worker := .inl rfl
  owner _ _ _ hx := ⟨hx, fun _ => rfl⟩
  claimed _ _ hx := ⟨hx, rfl, rfl⟩
  unclaimed _ _ hx := hx
  running _ _ _ hx := ⟨hx, rfl, rfl⟩
  life _ _ _ := ⟨id, id, id⟩
  destroyed := h.destroyed i
  busy := h.busy i
  idle := h.idle i
  above := h.above i
  holder := h.holder i
  stored c := h.stored c i
  closing hp hm hi := hi ▸ ((h.manage hp).closing hm).2.1

/-- A lock or an unlock. -/
theorem Others.setOwner (h : Others s p) {o : Option Party}
    (ho : i < s.curThNum → ∀ q, p ≠ some q → (s.slot i).owner = some q → o = some q) :
    Others (s.setSlot i fun x => { x with owner := o }) p :=
  h.setSlot
    { h.same i with owner := fun hi q hq hx => ⟨ho hi q hq hx, fun _ => rfl⟩ }

/-- `pthread_mutex_lock` on a slot. -/
theorem Others.lockSlot (h : Others s p) {q : Party} {t : State w ω δ}
    (ht : s.lockSlot i q = some t) :
    t = s.setSlot i (fun x => { x with owner := some q }) ∧ Others t p ∧
      (t.slot i).owner = some q := by
  unfold State.lockSlot at ht
  split at ht
  · next hfree =>
    cases ht
    refine ⟨rfl, h.setOwner fun _ q' _ hq' => absurd (hfree.symm.trans hq') nofun, ?_⟩
    rw [State.setSlot_self]
  · cases ht

/-- `pthread_mutex_unlock` on a slot by its owner. -/
theorem Others.unlockSlot {q : Party} (h : Others s (some q)) (hq : (s.slot i).owner = some q) :
    Others (s.unlockSlot i) (some q) :=
  h.setOwner fun _ _ hne hq' => absurd (hq.symm.trans hq') hne

/-- The submission that claims a slot writes its pair. -/
theorem Others.setPair (h : Others s (some (.submit c))) (hc : (s.slot i).phase = .claimed c)
    {work : ω} {job : δ} :
    Others (s.setSlot i fun x => { x with thWork := work, thJob := job }) (some (.submit c)) :=
  h.setSlot
    { h.same i with
      claimed := fun d hd hx => absurd (Phase.claimed.inj (hc.symm.trans hx)) fun he =>
        hd (by rw [he])
      running := fun _ _ _ hx => absurd (hc.symm.trans hx) nofun }

/-- An initialisation of the slot after the last, by the submission that adds it. -/
theorem Others.initSlot (h : Others s (some (.submit c))) (hi : i = s.curThNum)
    {cond lock : Life} {o : Option Party}
    (hcond : cond = (s.slot i).threadCond ∨ cond = .live)
    (hlock : lock = (s.slot i).threadLock ∨ lock = .live) :
    Others (s.setSlot i fun x => { x with threadCond := cond, threadLock := lock, owner := o })
      (some (.submit c)) := by
  have hdestroyed : lock = .destroyed ∨ cond = .destroyed → (s.slot i).Destroyed := by
    rintro (hl | hl)
    · exact .inl (hlock.elim (fun he => he.symm.trans hl) fun he => absurd (he.symm.trans hl) nofun)
    · exact .inr (hcond.elim (fun he => he.symm.trans hl) fun he => absurd (he.symm.trans hl) nofun)
  exact h.setSlot
    { h.same i with
      owner := fun hlt => absurd hi hlt.ne
      life := fun _ _ _ => ⟨fun hl => hcond.elim (fun he => he.trans hl) id,
        fun hl => hlock.elim (fun he => he.trans hl) id, hdestroyed⟩
      destroyed := fun hd => h.destroyed i (hdestroyed hd) }

/-- The signal of the submission that claims a slot. -/
theorem Others.signalled (h : Others s (some (.submit c))) (hc : (s.slot i).phase = .claimed c)
    (hi : i < s.curThNum) (woken : Option Nat) :
    Others (s.setSlot i fun x => { x with phase := .signalled c woken })
      (some (.submit c)) := by
  have hholder : (Phase.signalled c woken).holder = some c := by cases woken <;> rfl
  have hclaimed : ∀ d, Phase.signalled c woken ≠ .claimed d := by
    intro d
    cases woken <;> nofun
  exact h.setSlot
    { h.same i with
      claimed := fun d hd hx => absurd (Phase.claimed.inj (hc.symm.trans hx)) fun he =>
        hd (by rw [he])
      unclaimed := fun d _ hx => absurd hx (hclaimed d)
      running := fun _ _ _ hx => absurd (hc.symm.trans hx) nofun
      busy := fun _ => h.busy i (by rw [hc]; nofun)
      idle := fun _ _ hx => absurd ((congrArg Phase.holder hx).symm.trans hholder) nofun
      above := fun hle => absurd hi (not_lt.2 hle)
      holder := fun d hd => h.holder i d (by rw [hc, ← hd, hholder]; rfl)
      stored := fun d hd => (h.stored d i hd).imp_right fun hx => by
        rw [hc] at hx
        rw [← hx, hholder]
        rfl }

/-! ## Changes of a submission -/

/-- The rule for a change of a submission, by itself or, once it has returned, by the worker that
runs its job. -/
theorem Others.setCall (h : Others s p) {f : Submission ω δ → Submission ω δ}
    (hsub : p = some (.submit c) ∨
      (s.call c).pc = .returned ∧ (f (s.call c)).pc = .returned)
    (hrun : ∀ k m, p ≠ some (.work m) → (s.slot k).phase = .running c m →
      (f (s.call c)).worker = (s.call c).worker ∧ (f (s.call c)).job = (s.call c).job ∧
      (f (s.call c)).stored = (s.call c).stored ∧
      (f (s.call c)).finished = (s.call c).finished ∧ (f (s.call c)).runs = (s.call c).runs)
    (hholder : ∀ k, (s.slot k).phase.holder = some c → (f (s.call c)).claimed = some k)
    (hstored : ∀ k, (f (s.call c)).stored = some k →
      (f (s.call c)).finished = true ∨ (s.slot k).phase.holder = some c)
    (hfinished : (f (s.call c)).finished = true → ∃ n k, (f (s.call c)).stored = some k ∧
      (f (s.call c)).runs = [⟨n, k, (f (s.call c)).worker, (f (s.call c)).job⟩] ∧
        (s.killed = [] → (s.thread n).pc.serves = some k))
    (hthreat : s.manager.Deleting → ¬ (f (s.call c)).pc.Threatens (s.curThNum - 1)) :
    Others (s.setCall c f) p := by
  have hclosing : s.manager.Deleting → Closing s → Closing (s.setCall c f) :=
    fun hm ⟨hmin, hbusy, hno, hserve⟩ => ⟨hmin, hbusy, s.forall_setCall
      (P := fun _ x => ¬ x.pc.Threatens (s.curThNum - 1)) (hthreat hm) hno, hserve⟩
  refine ⟨⟨h.range, h.busy, h.idle, h.above, fun k => ?_, ?_, ?_, h.born, h.made, h.dead,
    h.destroyed⟩, fun d hd => ?_, fun m hm => ?_, fun hp => ?_⟩
  · exact s.forall_setCall (P := fun d x => (s.slot k).phase.holder = some d → x.claimed = some k)
      (hholder k) (fun d => h.holder k d)
  · exact s.forall_setCall (P := fun d x => ∀ k, x.stored = some k →
      x.finished = true ∨ (s.slot k).phase.holder = some d) hstored h.stored
  · exact s.forall_setCall (P := fun _ x => x.finished = true → ∃ n k, x.stored = some k ∧
      x.runs = [⟨n, k, x.worker, x.job⟩] ∧ (s.killed = [] → (s.thread n).pc.serves = some k))
      hfinished h.finished
  · rcases eq_or_ne d c with rfl | hne
    · obtain ⟨hpc, hpc'⟩ := hsub.resolve_left hd
      have hret := h.submit d hd
      rw [State.setCall_self, hpc']
      rw [hpc] at hret
      exact hret
    · exact (h.submit d hd).steady
        (.of_slot (State.setCall_of_ne s f hne) rfl rfl le_rfl fun hl => ⟨hl, rfl⟩)
  · refine WorkOk.steady (h.work m hm) ⟨rfl, le_rfl, id, fun _ _ => id, fun k d hph => ?_⟩
    refine ⟨hph, rfl, rfl, ?_⟩
    rcases eq_or_ne d c with rfl | hne
    · rw [State.setCall_self]
      exact hrun k m hm hph
    · rw [State.setCall_of_ne s f hne]
      exact ⟨rfl, rfl, rfl, rfl, rfl⟩
  · exact (h.manage hp).congr rfl le_rfl (fun _ => rfl) hclosing
      fun hm hcl => ⟨hclosing hm hcl.1, hcl.2⟩

/-- The annotations of a submission do not read where it is. -/
theorem SubmitOk.submitTo {pc pc' : SubmitPc} (h : SubmitOk s c pc) :
    SubmitOk (s.submitTo c pc') c pc := by
  have hcall : (s.submitTo c pc').call c = { s.call c with pc := pc' } := State.setCall_self ..
  have hfresh : Fresh s c → Fresh (s.submitTo c pc') c := by
    intro hf
    unfold Fresh
    rwa [hcall]
  have hclaims : ∀ {i}, Claims s c i → Claims (s.submitTo c pc') c i := by
    intro i hf
    unfold Claims
    rwa [hcall]
  have hwork : ∀ {i}, HasWork s c i → HasWork (s.submitTo c pc') c i := by
    intro i hf
    unfold HasWork
    rwa [hcall]
  have hjob : ∀ {i}, HasJob s c i → HasJob (s.submitTo c pc') c i := by
    intro i hf
    unfold HasJob
    rwa [hcall]
  have hstored : (s.call c).stored = none → ((s.submitTo c pc').call c).stored = none :=
    fun hf => by rwa [hcall]
  cases pc with
  | idle => exact hfresh h
  | test | lock | readBusy | setBusy | unlockBusy | poolLock | addTest | addIndex | condInit
  | lockInit | addBusy => exact ⟨hfresh h.1, h.2⟩
  | unlockClaimed => exact ⟨hclaims h.1, h.2.1, hstored h.2.2.1, h.2.2.2⟩
  | storeWork => exact ⟨hclaims h.1, h.2.1, hstored h.2.2⟩
  | storeJob => exact ⟨hclaims h.1, h.2.1, hwork h.2.2⟩
  | signal => exact ⟨hclaims h.1, h.2.1, hwork h.2.2.1, hjob h.2.2.2⟩
  | incRead | incWrite | create | growIndex => exact ⟨hclaims h.1, hstored h.2.1, h.2.2⟩
  | growWork => exact ⟨hclaims h.1, h.2.1, hstored h.2.2.1, h.2.2.2⟩
  | growJob => exact ⟨hclaims h.1, h.2.1, hwork h.2.2.1, h.2.2.2⟩
  | poolUnlock grown i =>
    cases grown with
    | false => exact ⟨hfresh h.1, h.2⟩
    | true => exact ⟨hclaims h.1, h.2.1, hwork h.2.2.1, hjob h.2.2.2.1, h.2.2.2.2⟩
  | wake grown i =>
    cases grown with
    | false => exact ⟨hfresh h.1, h.2⟩
    | true => exact ⟨hclaims h.1, h.2.1, hwork h.2.2.1, hjob h.2.2.2⟩
  | returned => exact h

/-- A step of a submission ends where its annotation holds. -/
theorem Others.submitTo (h : Others s (some (.submit c))) {pc : SubmitPc} (hc : SubmitOk s c pc)
    (hthreat : s.manager.Deleting → ¬ pc.Threatens (s.curThNum - 1)) :
    Inv (s.submitTo c pc) := by
  have hmoved : Others (s.submitTo c pc) (some (.submit c)) :=
    h.setCall (.inl rfl) (fun _ _ _ _ => ⟨rfl, rfl, rfl, rfl, rfl⟩) (fun k hk => h.holder k c hk)
      (h.stored c) (h.finished c) hthreat
  refine hmoved.inv_submit ?_
  rw [State.submitTo_pc]
  exact hc.submitTo

/-- A submission marks a free slot busy: one whose lock it holds, or the one that it adds. -/
theorem Others.claim (h : Others s (some (.submit c))) (hf : Fresh s c)
    (hfree : (s.slot i).phase = .free)
    (howner : i < s.curThNum → (s.slot i).owner = some (.submit c))
    (hdel : s.manager.Deleting →
      i ≠ s.curThNum - 1 ∧ ¬ (s.call c).pc.Threatens (s.curThNum - 1)) :
    Others (s.claim c i) (some (.submit c)) := by
  have hmarked : Others (s.setCall c fun x => { x with claimed := some i })
      (some (.submit c)) :=
    h.setCall (.inl rfl) (fun _ _ _ _ => ⟨rfl, rfl, rfl, rfl, rfl⟩)
      (fun k hk => absurd hk (h.not_holder hf.1 k)) (h.stored c) (h.finished c)
      fun hm => (hdel hm).2
  refine hmarked.setSlot
    { hmarked.same i with
      owner := fun hi q hq hx => absurd ((howner hi).symm.trans hx) hq
      claimed := fun _ _ hx => absurd (hfree.symm.trans hx) nofun
      unclaimed := fun d hd hx => absurd (Phase.claimed.inj hx) fun he => hd (by rw [he])
      running := fun _ _ _ hx => absurd (hfree.symm.trans hx) nofun
      busy := fun _ => rfl
      idle := fun _ _ => nofun
      above := fun _ => .inr ⟨c, rfl⟩
      holder := fun d hd => ?_
      stored := fun d hd => ?_
      closing := fun _ hm hi => absurd hi (hdel hm).1 }
  · obtain rfl : c = d := Option.some.inj hd
    rw [State.setCall_self]
  · rcases hmarked.stored d i hd with hfin | hholder
    · exact .inl hfin
    · exact absurd ((congrArg Phase.holder hfree).symm.trans hholder) nofun

/-! ## Changes of a thread -/

/-- The annotations of a worker do not read where it is. -/
theorem workOk_workTo {pc pc' : WorkPc ω δ} {m : Nat} :
    WorkOk (s.workTo n pc') m pc ↔ WorkOk s m pc := by
  cases pc <;> exact Iff.rfl

/-- The annotations of a submission do not read where the workers are. -/
theorem submitOk_workTo {pc : SubmitPc} {pc' : WorkPc ω δ} :
    SubmitOk (s.workTo n pc') c pc ↔ SubmitOk s c pc := by
  cases pc with
  | poolUnlock grown | wake grown => cases grown <;> exact Iff.rfl
  | _ => exact Iff.rfl

/-- The rule for a move of a worker, by itself or by a signal. -/
theorem Others.setThread (h : Others s p) {pc : WorkPc ω δ}
    (hlive : (s.thread n).pc ≠ .unborn ∧ (s.thread n).pc ≠ .killed)
    (hn : p ≠ some (.work n) → WorkOk s n pc)
    (hstay : ∀ k, (s.thread n).pc.serves = some k → pc.serves = some k)
    (hserve : s.manager.Deleting → pc.serves = some (s.curThNum - 1) →
      (s.slot (s.curThNum - 1)).worker = some n) : Others (s.workTo n pc) p := by
  have hclosing : s.manager.Deleting → Closing s → Closing (s.workTo n pc) :=
    fun hm ⟨hmin, hbusy, hno, hs⟩ =>
      ⟨hmin, hbusy, hno, s.forall_workTo (P := fun m x => x.serves = some (s.curThNum - 1) →
        (s.slot (s.curThNum - 1)).worker = some m) (hserve hm) hs⟩
  refine ⟨⟨h.range, h.busy, h.idle, h.above, h.holder, h.stored, fun c hc => ?_, ?_, h.made,
    fun k hk => ?_, h.destroyed⟩, fun d hd => ?_, fun m hm => ?_, fun hp => ?_⟩
  · obtain ⟨m, k, hst, hruns, hm⟩ := h.finished c hc
    refine ⟨m, k, hst, hruns, fun hk => ?_⟩
    exact s.forall_workTo (P := fun m x => (s.thread m).pc.serves = some k → x.serves = some k)
      (hstay k) (fun _ => id) m (hm hk)
  · exact s.forall_workTo (P := fun m x => s.created ≤ m → x = .unborn)
      (fun hc => absurd (h.born n hc) hlive.1) h.born
  · exact s.forall_workTo (P := fun m x => (s.slot k).worker = some m → x = .killed)
      (fun hc => absurd (h.dead k hk n hc) hlive.2) (h.dead k hk)
  · exact submitOk_workTo.2 (h.submit d hd)
  · rcases eq_or_ne m n with rfl | hne
    · rw [State.workTo_self]
      exact workOk_workTo.2 (hn hm)
    · rw [State.workTo_of_ne _ _ hne]
      exact workOk_workTo.2 (h.work m hm)
  · refine (h.manage hp).congr rfl le_rfl (fun _ => rfl) hclosing fun hm ⟨hcl, hk, hdead⟩ =>
      ⟨hclosing hm hcl, hk, ?_⟩
    exact s.forall_workTo (P := fun m x => (s.slot (s.curThNum - 1)).worker = some m → x = .killed)
      (fun hc => absurd (hdead n hc) hlive.2) hdead

/-- A step of a worker ends where its annotation holds. -/
theorem Others.workTo (h : Others s (some (.work n))) {pc : WorkPc ω δ} (hn : WorkOk s n pc)
    (hlive : (s.thread n).pc ≠ .unborn ∧ (s.thread n).pc ≠ .killed)
    (hstay : ∀ k, (s.thread n).pc.serves = some k → pc.serves = some k)
    (hserve : s.manager.Deleting → pc.serves = some (s.curThNum - 1) →
      (s.slot (s.curThNum - 1)).worker = some n) : Inv (s.workTo n pc) := by
  refine (h.setThread hlive (fun hne => absurd rfl hne) hstay hserve).inv_work ?_
  rw [State.workTo_self]
  exact workOk_workTo.2 hn

/-- A step of a worker that stays at its slot. -/
theorem Others.workOn (h : Others s (some (.work n))) {pc : WorkPc ω δ} (hn : WorkOk s n pc)
    (hlive : (s.thread n).pc ≠ .unborn ∧ (s.thread n).pc ≠ .killed)
    (hpc : (s.thread n).pc.serves = pc.serves) : Inv (s.workTo n pc) :=
  h.workTo hn hlive (fun _ => hpc.symm.trans)
    fun hm hi => ((h.manage nofun).closing hm).2.2.2 n (hpc.trans hi)

/-- The rule for a new worker. -/
theorem Others.spawn (h : Others s p) (id : BitVec w) :
    Others { s with created := s.created + 1,
                    thread := Function.update s.thread s.created ⟨id, .find 0⟩ } p := by
  have hunborn := h.born s.created le_rfl
  have hthread : ∀ {P : Nat → WorkPc ω δ → Prop}, P s.created (.find 0) →
      (∀ m, m ≠ s.created → P m (s.thread m).pc) →
      ∀ m, P m ((Function.update s.thread s.created ⟨id, .find 0⟩) m).pc :=
    fun {P} hc hall => (Function.forall_update_iff s.thread fun m x => P m x.pc).2 ⟨hc, hall⟩
  have hclosing : Closing s → Closing { s with
      created := s.created + 1,
      thread := Function.update s.thread s.created ⟨id, .find 0⟩ } :=
    fun ⟨hmin, hbusy, hno, hs⟩ =>
      ⟨hmin, hbusy, hno, hthread (P := fun m x => x.serves = some (s.curThNum - 1) →
        (s.slot (s.curThNum - 1)).worker = some m) nofun fun m _ => hs m⟩
  refine ⟨⟨h.range, h.busy, h.idle, h.above, h.holder, h.stored, fun c hc => ?_, ?_,
    fun k n hn => Nat.lt_succ_of_lt (h.made k n hn), fun k hk => ?_, h.destroyed⟩,
    fun d hd => ?_, ?_, fun hp => ?_⟩
  · obtain ⟨m, k, hst, hruns, hm⟩ := h.finished c hc
    refine ⟨m, k, hst, hruns, fun hk => ?_⟩
    exact hthread (P := fun m x => (s.thread m).pc.serves = some k → x.serves = some k)
      (fun hs => absurd ((congrArg WorkPc.serves hunborn).symm.trans hs) nofun)
      (fun _ _ hs => hs) m (hm hk)
  · exact hthread (P := fun m x => s.created + 1 ≤ m → x = .unborn)
      (fun hc => absurd hc (Nat.not_succ_le_self _)) fun m _ hm => h.born m (Nat.le_of_succ_le hm)
  · exact hthread (P := fun m x => (s.slot k).worker = some m → x = .killed)
      (fun hc => absurd (h.made k _ hc) (lt_irrefl _)) fun m _ => h.dead k hk m
  · have hsub := h.submit d hd
    change SubmitOk _ d (s.call d).pc
    generalize (s.call d).pc = pc at hsub ⊢
    cases pc with
    | poolUnlock grown | wake grown => cases grown <;> exact hsub
    | _ => exact hsub
  · refine hthread (P := fun m x => p ≠ some (.work m) → WorkOk _ m x) (fun _ => trivial)
      fun m _ hm => ?_
    have hwork := h.work m hm
    generalize (s.thread m).pc = pc at hwork ⊢
    cases pc <;> exact hwork
  · refine (h.manage hp).congr rfl le_rfl (fun _ => rfl) (fun _ => hclosing)
      fun _ ⟨hcl, hk, hdead⟩ => ⟨hclosing hcl, hk, ?_⟩
    exact hthread (P := fun m x => (s.slot (s.curThNum - 1)).worker = some m → x = .killed)
      (fun hc => absurd (h.made _ _ hc) (lt_irrefl _)) fun m _ => hdead m

/-! ## Changes of the pool -/

/-- The rule for `tp_lock`. -/
theorem Others.setPoolLock (h : Others s (some (.submit c))) {o : Option Nat}
    (ho : ∀ d, d ≠ c → s.tpLock = some d → o = some d) :
    Others { s with tpLock := o } (some (.submit c)) := by
  refine ⟨⟨h.range, h.busy, h.idle, h.above, h.holder, h.stored, h.finished, h.born, h.made, h.dead,
    h.destroyed⟩, fun d hd => ?_, fun m hm => ?_, fun hp => ?_⟩
  · have hne : d ≠ c := fun he => hd (by rw [he])
    exact (h.submit d hd).steady (.of_slot rfl rfl rfl le_rfl fun hl => ⟨ho d hne hl, rfl⟩)
  · exact (h.work m hm).steady (.of_slot rfl rfl rfl le_rfl id)
  · exact (h.manage hp).congr rfl le_rfl (fun _ => rfl) (fun _ => id) fun _ => id

/-- The rule for `cur_th_num++`, under `tp_lock`. -/
theorem Others.grow (h : Others s (some (.submit c))) (hl : s.tpLock = some c) {n : Int}
    (hn : Next s n) (hheld : (s.slot n).phase ≠ .free) (hlive : ¬ (s.slot n).Destroyed)
    (hdel : ¬ s.manager.Deleting) :
    Others { s with curThNum := n + 1 } (some (.submit c)) := by
  obtain ⟨rfl, hmax⟩ := hn
  have hle : s.curThNum ≤ s.curThNum + 1 := by omega
  refine ⟨⟨⟨h.range.1, h.range.2.1.trans hle, hmax⟩, h.busy, fun k hk hlt hph => ?_,
    fun k hk => h.above k (hle.trans hk), h.holder, h.stored, h.finished, h.born, h.made,
    fun k hk => h.dead k (hle.trans hk), fun k hk => ?_⟩, fun d hd => ?_, fun m hm => ?_,
    fun hp => ?_⟩
  · refine h.idle k hk (lt_of_le_of_ne (Int.lt_add_one_iff.1 hlt) ?_) hph
    rintro rfl
    exact hheld hph
  · obtain ⟨hkmax, hk' | hk'⟩ := h.destroyed k hk
    · refine ⟨hkmax, .inl (lt_of_le_of_ne hk' ?_)⟩
      rintro rfl
      exact hlive hk
    · exact absurd hk'.1 hdel
  · have hne : s.tpLock ≠ some d := fun he => hd (by rw [Option.some.inj (hl.symm.trans he)])
    exact (h.submit d hd).steady (.of_slot rfl rfl rfl hle fun hl' => absurd hl' hne)
  · exact (h.work m hm).steady (.of_slot rfl rfl rfl hle id)
  · exact (h.manage hp).congr rfl hle (fun hm => absurd hm hdel) (fun hm => absurd hm hdel)
      fun hm => absurd hm hdel

end

end LinuxTraining.ThreadPool
