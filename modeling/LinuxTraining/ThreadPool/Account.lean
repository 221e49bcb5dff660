import LinuxTraining.ThreadPool.Leak

/-!
# The thread pool: every call is accounted for

A call of `tp_process_job` that is refused a new slot returns without a word, and its job is gone.
It has looked at each slot before, and `tp_add_thread` has found `cur_th_num` at its limit: so each
of the `max_th_num` slots has been busy while the call was under way (`State.scanned`,
`Inv.scanned_step`). A job that has been stored is run, or its signal was lost. This is all that
happens: once the pool can go no further, a job has been run once, or keeps its slot busy for ever,
or has been dropped by a call that saw the pool full (`allAccounted`).
-/

namespace LinuxTraining.ThreadPool

open Lib

variable {w : Nat} {ω δ : Type}

/-- The call of the submission is under way. -/
def State.inCall (s : State w ω δ) (c : Nat) : Prop :=
  (s.call c).pc ≠ .idle ∧ (s.call c).pc ≠ .returned

/-- The slots below this one have been busy in the call of a submission that is here without having
placed its job. -/
def SubmitPc.scanned (cur max : Int) : SubmitPc → Int
  | .test i | .lock i | .readBusy i => i
  | .unlockBusy i => i + 1
  | .poolLock _ | .addTest _ => cur
  | .poolUnlock false _ | .wake false _ | .returned => max
  | .idle | .setBusy _ | .unlockClaimed _ | .storeWork _ | .storeJob _ | .signal _ | .addIndex _
  | .condInit _ _ | .lockInit _ _ | .addBusy _ _ | .incRead _ _ | .incWrite _ _ _ | .create _ _
  | .growIndex | .growWork _ | .growJob _ | .poolUnlock true _ | .wake true _ => 0

@[inherit_doc SubmitPc.scanned]
def State.scanned (max : Int) (s : State w ω δ) (c : Nat) : Int :=
  if (s.call c).stored = none then (s.call c).pc.scanned s.curThNum max else 0

/-- A job that has not been stored when its call has returned has been dropped: no slot has been
marked for it, and it has not been run. -/
def Dropped (s : State w ω δ) : Prop :=
  ∀ c, (s.call c).pc = .returned → (s.call c).stored = none → Fresh s c

section
variable {s s' : State w ω δ} {a : Act w ω δ} {c n : Nat} {k min max : Int}

/-! ## Slots that are added -/

/-- **A slot that is added is busy.** -/
theorem Inv.busy_of_added (h : Inv s) (hs : ThreadPool.step s a = some s')
    (hk : k < s'.curThNum) : k < s.curThNum ∨ (s.slot k).isBusy = true := by
  rcases step_curThNum hs with hcur | ⟨d, i, n, v, hpc, hcur⟩ | ⟨v, hpc, hcur⟩
  · exact .inl (hcur ▸ hk)
  · have hok := h.submit d
    rw [hpc] at hok
    obtain ⟨⟨hphase, -⟩, -, -, ⟨hn, -⟩, -, -, rfl⟩ := hok
    rw [hcur] at hk
    rcases lt_or_eq_of_le (Int.lt_add_one_iff.1 hk) with hlt | rfl
    · exact .inl (hn ▸ hlt)
    · exact .inr (h.busy k (by rw [hphase]; exact Phase.noConfusion))
  · have hok := h.manage
    rw [hpc] at hok
    obtain ⟨-, rfl⟩ := hok
    omega

/-! ## One step of a call -/

/-- What a submission has seen at a program point, in a state that goes there. -/
theorem lt_scanned {t : State w ω δ} {pc : SubmitPc} (h0 : 0 ≤ k) (hpc : (t.call c).pc = pc) :
    k < t.scanned max c ↔ (t.call c).stored = none ∧ k < pc.scanned t.curThNum max := by
  unfold State.scanned
  rw [hpc]
  split
  · next hnone => exact (and_iff_right hnone).symm
  · next hsome => exact iff_of_false (not_lt.2 h0) fun h => hsome h.1

theorem submitStep_scanned (hmax : s.maxThNum = max) (h0 : 0 ≤ k)
    (hs : submitStep s c = some s') : k < s'.scanned max c →
      k < s.scanned max c ∨ s.inCall c ∧ (s.slot k).isBusy = true := by
  have hgo : ∀ {t : State w ω δ} {pc : SubmitPc}, k < (t.submitTo c pc).scanned max c →
      (t.call c).stored = (s.call c).stored →
      (s.call c).stored = none ∧ k < pc.scanned t.curThNum max := by
    intro t pc hk hstored
    obtain ⟨hnone, hlt⟩ := (lt_scanned h0 (State.submitTo_pc t c pc)).1 hk
    rw [State.submitTo, State.setCall_self] at hnone
    exact ⟨hstored.symm.trans hnone, hlt⟩
  have hkeep : ∀ {t : State w ω δ} {pc pc' : SubmitPc}, k < (t.submitTo c pc).scanned max c →
      (t.call c).stored = (s.call c).stored → (s.call c).pc = pc' →
      pc.scanned t.curThNum max ≤ pc'.scanned s.curThNum max → k < s.scanned max c := by
    intro t pc pc' hk hstored hpc hle
    obtain ⟨hnone, hlt⟩ := hgo hk hstored
    exact (lt_scanned h0 hpc).2 ⟨hnone, hlt.trans_le hle⟩
  have hzero : ∀ {t : State w ω δ} {pc : SubmitPc}, pc.scanned t.curThNum max = 0 →
      ¬ k < (t.submitTo c pc).scanned max c := by
    intro t pc hpc hk
    have hlt := ((lt_scanned h0 (State.submitTo_pc t c pc)).1 hk).2
    exact absurd (hpc ▸ hlt) (not_lt.2 h0)
  cases submitStep_rule hs with
  | test i hpc | poolLock i hpc | unlockBusy i hpc =>
    exact fun hk => .inl (hkeep hk rfl hpc le_rfl)
  | lock i t hpc ht =>
    obtain rfl := lockSlot_eq ht
    exact fun hk => .inl (hkeep hk rfl hpc le_rfl)
  | past i hpc hge => exact fun hk => .inl (hkeep hk rfl hpc (not_lt.1 hge))
  | refused i hpc hfull => exact fun hk => .inl (hkeep hk rfl hpc (hmax ▸ hfull))
  | busy i hpc hb =>
    intro hk
    obtain ⟨hnone, hlt⟩ := hgo hk rfl
    rcases lt_or_eq_of_le (Int.lt_add_one_iff.1 hlt) with hlt | rfl
    · exact .inl ((lt_scanned h0 hpc).2 ⟨hnone, hlt⟩)
    · refine .inr ⟨⟨?_, ?_⟩, hb⟩ <;> rw [hpc] <;> exact SubmitPc.noConfusion
  | poolUnlock grown i hpc =>
    cases grown with
    | false => exact fun hk => .inl (hkeep hk rfl hpc le_rfl)
    | true => exact fun hk => absurd hk (hzero rfl)
  | _ => exact fun hk => absurd hk (hzero rfl)

/-- **One step of the pool**: a slot counts as seen where it did before, or where it is busy. -/
theorem Inv.scanned_step (h : Inv s) (hmax : s.maxThNum = max) (hcalm : Calm s a) (h0 : 0 ≤ k)
    (hs : ThreadPool.step s a = some s') (hk : k < s'.scanned max c) :
    k < s.scanned max c ∨ s.inCall c ∧ (s.slot k).isBusy = true := by
  by_cases ha : a.submission = some c
  · cases a with
    | call d worker job =>
      obtain rfl := Option.some.inj ha
      obtain ⟨-, rfl⟩ := step_call hs
      have hpc := congrArg Submission.pc (State.setCall_self s d
        fun x => { x with worker, job, pc := .test 0 })
      exact absurd ((lt_scanned h0 hpc).1 hk).2 (not_lt.2 h0)
    | submit d =>
      obtain rfl := Option.some.inj ha
      exact submitStep_scanned hmax h0 hs hk
    | signal d woken =>
      obtain rfl := Option.some.inj ha
      revert hk
      have hok := h.submit d
      cases signalStep_rule hs with
      | held i t hpc ht =>
        have hstored : (s.call d).stored = some i := by
          rcases hpc with hpc | hpc <;> rw [hpc] at hok <;> exact hok.2.2.1.2
        intro hk
        have hnone := ((lt_scanned h0 (State.submitTo_pc _ d .returned)).1 hk).1
        rw [State.submitTo, State.setCall_self] at hnone
        have hcall : (t.call d).stored = (s.call d).stored := by
          rcases condSignal_eq ht with ⟨-, rfl⟩ | ⟨-, -, -, rfl⟩ <;> rfl
        exact absurd ((hcall.trans hstored).symm.trans hnone) (Option.some_ne_none i)
      | refused i t hpc ht =>
        intro hk
        obtain ⟨hnone, hlt⟩ := (lt_scanned h0 (State.submitTo_pc _ d .returned)).1 hk
        rw [State.submitTo, State.setCall_self] at hnone
        have hcall : (t.call d).stored = (s.call d).stored := by
          rcases condSignal_eq ht with ⟨-, rfl⟩ | ⟨-, -, -, rfl⟩ <;> rfl
        exact .inl ((lt_scanned h0 hpc).2 ⟨hcall.symm.trans hnone, hlt⟩)
    | create d id =>
      obtain rfl := Option.some.inj ha
      revert hk
      cases createStep_rule hs with
      | made i n id hpc =>
        intro hk
        exact absurd ((lt_scanned h0 (State.submitTo_pc _ d .growIndex)).1 hk).2 (not_lt.2 h0)
      | failed => exact hcalm.elim
    | work | spurious | manage => cases ha
  · obtain ⟨hpc, hstored, -⟩ := step_call_other hs ha
    obtain ⟨hnone, hlt⟩ := (lt_scanned h0 hpc).1 hk
    rw [hstored] at hnone
    have hold : k < s.scanned max c ↔
        (s.call c).stored = none ∧ k < (s.call c).pc.scanned s.curThNum max := lt_scanned h0 rfl
    cases hp : (s.call c).pc with
    | poolLock i | addTest i =>
      rw [hp] at hlt hold
      rcases h.busy_of_added hs hlt with hlt | hbusy
      · exact .inl (hold.2 ⟨hnone, hlt⟩)
      · refine .inr ⟨⟨?_, ?_⟩, hbusy⟩ <;> rw [hp] <;> exact SubmitPc.noConfusion
    | poolUnlock grown | wake grown =>
      rw [hp] at hlt hold
      cases grown <;> exact .inl (hold.2 ⟨hnone, hlt⟩)
    | _ =>
      rw [hp] at hlt hold
      exact .inl (hold.2 ⟨hnone, hlt⟩)

/-! ## Runs -/

/-- What has been dropped stays dropped. -/
theorem Dropped.step (hdropped : Dropped s) (h : Inv s) (hs : ThreadPool.step s a = some s') :
    Dropped s' := by
  intro c hret hnone
  by_cases ha : a.submission = some c
  · cases a with
    | call d worker job =>
      obtain rfl := Option.some.inj ha
      obtain ⟨-, rfl⟩ := step_call hs
      rw [State.setCall_self] at hret
      cases hret
    | submit d =>
      obtain rfl := Option.some.inj ha
      revert hret
      cases submitStep_rule hs with
      | test | past | lock | busy | idle | setBusy | unlockClaimed | storeWork | storeJob
      | unlockBusy | poolLock | refused | addTest | addIndex | condInit | lockInit | addBusy
      | incRead | incWrite | growIndex | growWork | growJob | poolUnlock =>
        intro hret
        rw [State.submitTo_pc] at hret
        cases hret
    | signal d woken =>
      obtain rfl := Option.some.inj ha
      revert hnone
      have hok := h.submit d
      have hcall : ∀ {i t}, s.condSignal i woken = some t → t.call = s.call := by
        intro i t ht
        rcases condSignal_eq ht with ⟨-, rfl⟩ | ⟨-, -, -, rfl⟩ <;> rfl
      cases signalStep_rule hs with
      | held i t hpc ht =>
        have hstored : (s.call d).stored = some i := by
          rcases hpc with hpc | hpc <;> rw [hpc] at hok <;> exact hok.2.2.1.2
        intro hnone
        rw [State.submitTo, State.setCall_self] at hnone
        have hnone' : (t.call d).stored = none := hnone
        rw [hcall ht, hstored] at hnone'
        cases hnone'
      | refused i t hpc ht =>
        rw [hpc] at hok
        intro _
        unfold Fresh
        rw [State.submitTo, State.setCall_self, hcall ht]
        exact hok.1
    | create d id =>
      obtain rfl := Option.some.inj ha
      revert hret
      cases createStep_rule hs with
      | made | failed =>
        intro hret
        rw [State.submitTo_pc] at hret
        cases hret
    | work | spurious | manage => cases ha
  · obtain ⟨hpc, hstored, hcall⟩ := step_call_other hs ha
    have hfresh := hdropped c (hpc.symm.trans hret) (hstored.symm.trans hnone)
    rcases hcall with hcall | ⟨n, k, hk, -⟩
    · unfold Fresh
      rwa [hcall]
    · exact absurd hk (h.not_holder hfresh.1 k)

/-- **A dropped job has seen the pool full**: each of the `max_th_num` slots has been busy while its
call was under way. -/
theorem busy_of_dropped {s₀ : State w ω δ} {as : List (Act w ω δ)} (h₀ : Initialised min max s₀)
    (hr : (machine w ω δ min max).Run (fun s a => Calm s a ∧ ShrinksApart s a) s₀ as s)
    (hret : (s.call c).pc = .returned) (hnone : (s.call c).stored = none) (h0 : 0 ≤ k)
    (hk : k < max) : (machine w ω δ min max).Visits s₀ as
      fun t => t.inCall c ∧ (t.slot k).isBusy = true := by
  have hinit : (s₀.call c).pc = .idle := (h₀.calls c).1
  refine hr.visits_of (I := fun t => Inv t ∧ Limits min max t) (Q := fun t => k < t.scanned max c)
    ⟨.init h₀, .init h₀.created_pool⟩ (fun _ _ _ hI hC hs => ⟨hI.1.step hC.1 hC.2 hs, hI.2.step hs⟩)
    (fun hlt => ?_) (fun _ _ _ hI hC hs => hI.1.scanned_step hI.2.nums.2 hC.1 h0 hs) ?_
  · exact absurd ((lt_scanned h0 hinit).1 hlt).2 (not_lt.2 h0)
  · exact (lt_scanned h0 hret).2 ⟨hnone, hk⟩

/-- A job that has been stored has been run at rest, if its signal was not lost. -/
theorem Leaking.ran {l : List Nat} (h : Leaking l s) (hq : Quiet s) (hc : c ∉ l)
    (hstored : (s.call c).stored = some k) : ∃ n, (s.thread n).pc = .waiting k ∧
      (s.call c).runs = [⟨n, k, (s.call c).worker, (s.call c).job⟩] := by
  rcases h.stored c k hstored with hfin | hholder
  · obtain ⟨n, i, hi, hruns, hserves⟩ := h.finished c hfin
    obtain rfl : k = i := Option.some.inj (hstored.symm.trans hi)
    exact ⟨n, hq.waiting (hserves h.killed), hruns⟩
  · rcases h.free_or_lost hq k with hfree | ⟨d, hd⟩
    · rw [hfree] at hholder
      cases hholder
    · rw [hd] at hholder
      obtain rfl := Option.some.inj hholder
      exact absurd (h.listed k d hd) hc

/-- **Every call is accounted for.** In every run from an initialised pool whose slots are all idle,
in which `pthread_create` succeeds, workers wake on signals only, the signals after a refused growth
find no waiter and the pool does not shrink, once no submission and no worker can step:
`tp_get_tp_status` counts as many busy slots as there were signals of stored jobs that found no
worker waiting; and every call that was made has returned, and its job has been run once, with its
own pair, by the worker that waits on its slot, and its signal was not lost; or its signal was lost,
it has not been run, and its slot is busy; or it has not been run and no slot has been marked for
it, and then each of the `max_th_num` slots has been busy while the call was under way. -/
theorem allAccounted {s₀ : State w ω δ} {as : List (Act w ω δ)} (h₀ : Initialised min max s₀)
    (hr : (machine w ω δ min max).Run (fun s a => Calm s a ∧ NeverDeletes s a) s₀ as s)
    (hset : ∀ a, a.isOwn = true → ThreadPool.step s a = none) :
    busyFrom s.slot 0 0 s.curThNum.toNat = (lostSignals min max s₀ as).length ∧
    ∀ c, (s.call c).pc ≠ .idle → (s.call c).pc = .returned ∧
      ((c ∉ lostSignals min max s₀ as ∧ ∃ n k, (s.thread n).pc = .waiting k ∧
          (s.call c).stored = some k ∧
          (s.call c).runs = [⟨n, k, (s.call c).worker, (s.call c).job⟩]) ∨
        (c ∈ lostSignals min max s₀ as ∧ (s.call c).runs = [] ∧
          ∃ k, (s.call c).stored = some k ∧ (s.slot k).isBusy = true) ∨
        ((s.call c).claimed = none ∧ (s.call c).runs = [] ∧
          ∀ k, 0 ≤ k → k < max → (machine w ω δ min max).Visits s₀ as
            fun t => t.inCall c ∧ (t.slot k).isBusy = true)) := by
  obtain ⟨hrun, hkept, hdropped⟩ :
      (machine w ω δ min max).Run (fun s a => Calm s a ∧ ShrinksApart s a) s₀ as s ∧
        Kept s ∧ Dropped s :=
    hr.guarded (I := fun t => Kept t ∧ Dropped t)
      ⟨.init h₀, fun d hret => absurd ((h₀.calls d).1.symm.trans hret) SubmitPc.noConfusion⟩
      (fun _ _ _ hI hC hs => ⟨hI.1.step hC.1 hC.2 hs, hI.2.step hI.1.toInv hs⟩)
      (fun _ _ _ hI hC _ => ⟨hC.1, hI.1.shrinksApart hC.2⟩)
  obtain ⟨hleaking, hmutexes⟩ := leaking_of_run h₀ hr
  have hquiet := hmutexes.settled_iff_quiet.1 hset
  refine ⟨hleaking.busyFrom_eq hquiet, fun c hc => ?_⟩
  have hret := (hquiet.1 c).resolve_left hc
  refine ⟨hret, ?_⟩
  by_cases hlost : c ∈ lostSignals min max s₀ as
  · obtain ⟨k, hk⟩ := hleaking.lost c hlost
    have hbusy := hleaking.busy k (by rw [hk.phase]; exact Phase.noConfusion)
    exact .inr (.inl ⟨hlost, hk.runs, k, hk.stored, hbusy⟩)
  · cases hstored : (s.call c).stored with
    | some k =>
      obtain ⟨n, hwait, hruns⟩ := hleaking.ran hquiet hlost hstored
      exact .inl ⟨hlost, n, k, hwait, rfl, hruns⟩
    | none =>
      obtain ⟨hclaimed, -, hruns, -⟩ := hdropped c hret hstored
      exact .inr (.inr ⟨hclaimed, hruns, fun k h0 hk => busy_of_dropped h₀ hrun hret hstored h0 hk⟩)

end

/-- Submission `0` signals before worker `0` waits; submission `1` has worker `1` take up its job;
submission `2` finds both slots busy and is refused another one; the workers come to wait. -/
def oneOfThree : List (Act 64 Nat Nat) :=
  .call 0 10 20 :: List.replicate 7 (.submit 0) ++ .signal 0 none ::
    List.replicate 6 (.work 1) ++
    .call 1 30 40 :: List.replicate 11 (.submit 1) ++ .signal 1 (some 1) ::
    .call 2 50 60 :: List.replicate 12 (.submit 2) ++ .signal 2 none ::
    List.replicate 10 (.work 1) ++ List.replicate 4 (.work 0)

/-- The first job is lost, the second has been run, and the third has been dropped. -/
theorem oneOfThree_allAccounted : ∃ s : State 64 Nat Nat,
    (machine 64 Nat Nat 2 2).Run (fun s a => Calm s a ∧ NeverDeletes s a) (idlePool 2 2)
        oneOfThree s ∧
      busyFrom s.slot 0 0 s.curThNum.toNat = 1 ∧ (s.call 0).runs = [] ∧
      (∃ n k, (s.call 1).runs = [⟨n, k, (s.call 1).worker, (s.call 1).job⟩]) ∧
      (s.call 2).runs = [] ∧
      (machine 64 Nat Nat 2 2).Visits (idlePool 2 2) oneOfThree
        fun t => t.inCall 2 ∧ (t.slot 0).isBusy = true := by
  have hrun : ((machine 64 Nat Nat 2 2).runChecked calmStep (idlePool 2 2) oneOfThree).map
      (fun s => (((s.call 0).pc, (s.call 1).pc, (s.call 2).pc), s.waitsOn 0 0 && s.waitsOn 1 1,
        s.created, (s.call 1).claimed, (s.call 2).stored)) =
        some ((.returned, .returned, .returned), true, 2, some 1, none) := by
    decide +kernel
  have hlost : lostSignals (2 : Nat) (2 : Nat) (idlePool 2 2) oneOfThree = [0] := by
    decide +kernel
  obtain ⟨s, hs, hend⟩ := Option.map_eq_some_iff.1 hrun
  obtain ⟨hpcs, hend⟩ := Prod.mk.inj hend
  obtain ⟨hwaits, hend⟩ := Prod.mk.inj hend
  obtain ⟨hwaits, hwaits'⟩ := Bool.and_eq_true_iff.1 hwaits
  obtain ⟨hcreated, hend⟩ := Prod.mk.inj hend
  obtain ⟨hclaimed, hstored⟩ := Prod.mk.inj hend
  obtain ⟨hzero, hpcs⟩ := Prod.mk.inj hpcs
  obtain ⟨hone, htwo⟩ := Prod.mk.inj hpcs
  have h₀ : Initialised (2 : Nat) (2 : Nat) (idlePool 2 2) :=
    idlePool_initialised le_rfl (by decide)
  have hr := run_of_calmStep hs
  have hothers : ∀ c, 3 ≤ c → (s.call c).pc = .idle := by
    have hlabels : ∀ a ∈ oneOfThree, ∀ c, a.submission = some c → c < 3 := by
      have hall : oneOfThree.all fun a => a.submission.all (· < 3) := by decide
      intro a ha c hc
      have hlt := List.all_eq_true.1 hall a ha
      rw [hc] at hlt
      exact of_decide_eq_true hlt
    exact (hr.of_labels hlabels).invariant (I := fun u => ∀ c, 3 ≤ c → (u.call c).pc = .idle)
      (fun c _ => (h₀.calls c).1) fun u a u' hI ha hs c hc =>
        (step_call_other hs fun he => absurd (ha c he) (not_lt.2 hc)).1.trans (hI c hc)
  obtain ⟨hleaking, hmutexes⟩ := leaking_of_run h₀ hr
  have hset : ∀ a, a.isOwn = true → step s a = none := by
    refine hmutexes.settled_iff_quiet.2 ⟨fun c => ?_, fun n halive => ?_⟩
    · match c with
      | 0 => exact .inr hzero
      | 1 => exact .inr hone
      | 2 => exact .inr htwo
      | c + 3 => exact .inl (hothers _ (by omega))
    · match n with
      | 0 => exact ⟨0, State.waitsOn_iff.1 hwaits⟩
      | 1 => exact ⟨1, State.waitsOn_iff.1 hwaits'⟩
      | n + 2 =>
        rw [Thread.alive, hleaking.born (n + 2) (by omega)] at halive
        cases halive
  obtain ⟨hbusy, hall⟩ := allAccounted h₀ hr hset
  rw [hlost] at hbusy hall
  have hfirst : (s.call 0).runs = [] := by
    rcases (hall 0 (by rw [hzero]; exact SubmitPc.noConfusion)).2 with ⟨hnot, -⟩ | ⟨-, hruns, -⟩ |
      ⟨-, hruns, -⟩
    · exact absurd (List.mem_singleton_self 0) hnot
    · exact hruns
    · exact hruns
  have hsecond : ∃ n k, (s.call 1).runs = [⟨n, k, (s.call 1).worker, (s.call 1).job⟩] := by
    rcases (hall 1 (by rw [hone]; exact SubmitPc.noConfusion)).2 with ⟨-, n, k, -, -, hruns⟩ |
      ⟨hmem, -⟩ | ⟨hnone, -⟩
    · exact ⟨n, k, hruns⟩
    · cases List.mem_singleton.1 hmem
    · cases hclaimed.symm.trans hnone
  rcases (hall 2 (by rw [htwo]; exact SubmitPc.noConfusion)).2 with ⟨-, n, k, -, hsome, -⟩ |
    ⟨hmem, -⟩ | ⟨-, hruns, hvisits⟩
  · cases hstored.symm.trans hsome
  · cases List.mem_singleton.1 hmem
  · exact ⟨s, hr, hbusy, hfirst, hsecond, hruns, hvisits 0 le_rfl (by decide)⟩

end LinuxTraining.ThreadPool
