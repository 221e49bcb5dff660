import LinuxTraining.ThreadPool.Jobs
import LinuxTraining.ThreadPool.Limits
import LinuxTraining.ThreadPool.Mutexes
import LinuxTraining.ThreadPool.Tail

/-!
# The thread pool: what a lost signal costs

`tp_process_job` marks a slot busy, stores the pair and signals; the worker may not be waiting yet.
Then nobody will run the pair, and as only the worker that runs it sets the slot idle, the slot is
busy for ever (`Lost.step`). These slots are all that a pool at rest has busy: `tp_get_tp_status`
counts there as many as there have been signals without a waiter (`Leaking.busyFrom_eq`). When there
have been `max_th_num` of them, the pool never takes up a job again (`neverServes`).
-/

namespace LinuxTraining.ThreadPool

open Lib

variable {w : Nat} {ω δ : Type}

/-- The submission that signals with its pair stored, and finds no worker waiting. -/
def lostSignal (s : State w ω δ) : Act w ω δ → Option Nat
  | .signal c none =>
    match (s.call c).pc with
    | .signal _ | .wake true _ => some c
    | _ => none
  | .signal _ (some _) | .call _ _ _ | .submit _ | .create _ _ | .work _ | .spurious _
  | .manage => none

/-- The submissions whose signals have found no worker. -/
def lostSignals (min max : Int) (s₀ : State w ω δ) (as : List (Act w ω δ)) : List Nat :=
  (machine w ω δ min max).events lostSignal s₀ as

/-- How a step changes the history of a slot. -/
inductive PhaseRule (s : State w ω δ) (k : Int) (s' : State w ω δ) : Act w ω δ → Prop
  | same (a) (h : (s'.slot k).phase = (s.slot k).phase) : PhaseRule s k s' a
  | claimed (c) (hpc : (s.call c).pc = .setBusy k ∨ ∃ i, (s.call c).pc = .addBusy i k)
      (h : (s'.slot k).phase = .claimed c) : PhaseRule s k s' (.submit c)
  | signalled (c woken) (hpc : (s.call c).pc = .signal k ∨ (s.call c).pc = .wake true k)
      (h : (s'.slot k).phase = .signalled c woken)
      (hwoken : ∀ n, woken = some n → (s'.thread n).pc = .relock k) :
      PhaseRule s k s' (.signal c woken)
  | freed (n) (hpc : (s.thread n).pc = .setIdle k) (h : (s'.slot k).phase = .free) :
      PhaseRule s k s' (.work n)

/-- The pair of the submission is in the slot, and nobody will run it. -/
structure Lost (s : State w ω δ) (c : Nat) (k : Int) : Prop where
  phase : (s.slot k).phase = .lost c
  stored : (s.call c).stored = some k
  runs : (s.call c).runs = []

/-- A pool that has not shrunk, in which the submissions of the list have lost their signals, and
each other one that has signalled has its worker. -/
structure Leaking (l : List Nat) (s : State w ω δ) : Prop extends Kept s where
  nonneg : ∀ k, (s.slot k).phase ≠ .free → 0 ≤ k
  awake : ∀ k c n, (s.slot k).phase = .running c n → (s.thread n).pc.RunsOn k
  nodup : l.Nodup
  lost : ∀ c ∈ l, ∃ k, Lost s c k
  listed : ∀ k c, (s.slot k).phase = .lost c → c ∈ l

section
variable {s s' t : State w ω δ} {a : Act w ω δ} {c d n : Nat} {i k min max : Int} {l : List Nat}

/-! ## What a step leaves of a submission -/

/-- A step of a worker touches the submission whose slot it runs on, and there its history only. -/
theorem workStep_call (h : workStep s n = some s') (c : Nat) :
    (s'.call c).pc = (s.call c).pc ∧ (s'.call c).stored = (s.call c).stored ∧
      (s'.call c = s.call c ∨
        ∃ k, (s.slot k).phase.holder = some c ∧ (s.thread n).pc.RunsOn k) := by
  have hhistory : ∀ {k d} {f : Submission ω δ → Submission ω δ},
      (s.slot k).phase.holder = some d → (s.thread n).pc.RunsOn k →
      (f (s.call d)).pc = (s.call d).pc → (f (s.call d)).stored = (s.call d).stored →
      ((s.setCall d f).call c).pc = (s.call c).pc ∧
        ((s.setCall d f).call c).stored = (s.call c).stored ∧
        ((s.setCall d f).call c = s.call c ∨
          ∃ k, (s.slot k).phase.holder = some c ∧ (s.thread n).pc.RunsOn k) := by
    intro k d f hk hruns hpc hstored
    rcases eq_or_ne c d with rfl | hne
    · rw [State.setCall_self]
      exact ⟨hpc, hstored, .inr ⟨k, hk, hruns⟩⟩
    · rw [State.setCall_of_ne _ _ hne]
      exact ⟨rfl, rfl, .inl rfl⟩
  cases workStep_rule h with
  | find | missing | found | other | readWork | readJob | wait | unlock | unlockDone =>
    exact ⟨rfl, rfl, .inl rfl⟩
  | lockWait k _ _ ht | relock k _ _ ht | lockDone k _ _ ht =>
    obtain rfl := lockSlot_eq ht
    exact ⟨rfl, rfl, .inl rfl⟩
  | process k work job hpc =>
    have hruns : (s.thread n).pc.RunsOn k := by rw [hpc]; rfl
    simp only [State.workTo, State.record]
    split
    · next d hd => exact hhistory hd hruns rfl rfl
    · exact ⟨rfl, rfl, .inl rfl⟩
  | setIdle k hpc =>
    have hruns : (s.thread n).pc.RunsOn k := by rw [hpc]; rfl
    simp only [State.workTo, State.release, State.setSlot]
    split
    · next d hd => exact hhistory (f := fun x => { x with finished := true }) hd hruns rfl rfl
    · exact ⟨rfl, rfl, .inl rfl⟩

/-- A step that is not of the submission. -/
theorem step_call_other (hs : step s a = some s') (ha : a.submission ≠ some c) :
    (s'.call c).pc = (s.call c).pc ∧ (s'.call c).stored = (s.call c).stored ∧
      (s'.call c = s.call c ∨
        ∃ n k, (s.slot k).phase.holder = some c ∧ (s.thread n).pc.RunsOn k) := by
  have hsame : s'.call c = s.call c → _ := fun he =>
    (⟨congrArg _ he, congrArg _ he, .inl he⟩ : (s'.call c).pc = (s.call c).pc ∧
      (s'.call c).stored = (s.call c).stored ∧
        (s'.call c = s.call c ∨
          ∃ n k, (s.slot k).phase.holder = some c ∧ (s.thread n).pc.RunsOn k))
  have hne : ∀ {d}, a.submission = some d → c ≠ d := by
    rintro d hd rfl
    exact ha hd
  cases a with
  | call d worker job =>
    obtain ⟨-, rfl⟩ := step_call hs
    exact hsame (State.setCall_of_ne _ _ (hne rfl))
  | submit d => exact hsame ((submitStep_frame hs).call c (hne rfl))
  | signal d woken => exact hsame ((signalStep_frame hs).call c (hne rfl))
  | create d id => exact hsame ((createStep_frame hs).2.2.1 c (hne rfl))
  | work n =>
    obtain ⟨hpc, hstored, hcall⟩ := workStep_call hs c
    exact ⟨hpc, hstored, hcall.imp_right fun hk => ⟨n, hk⟩⟩
  | spurious n =>
    obtain ⟨k, -, rfl⟩ := step_spurious hs
    exact hsame rfl
  | manage =>
    cases hs
    exact hsame (congrFun (manageStep_frame s).1 c)

/-- `cur_th_num` is written in two places. -/
theorem step_curThNum (hs : step s a = some s') : s'.curThNum = s.curThNum ∨
    (∃ d i n v, (s.call d).pc = .incWrite i n v ∧ s'.curThNum = v + 1) ∨
    ∃ v, s.manager = .decWrite v ∧ s'.curThNum = v - 1 := by
  cases a with
  | call d worker job =>
    obtain ⟨-, rfl⟩ := step_call hs
    exact .inl rfl
  | submit d =>
    cases submitStep_rule hs with
    | incWrite i n v hpc => exact .inr (.inl ⟨d, i, n, v, hpc, rfl⟩)
    | lock i _ _ ht =>
      obtain rfl := lockSlot_eq ht
      exact .inl rfl
    | _ => exact .inl rfl
  | signal d woken =>
    cases signalStep_rule hs with
    | held i t _ ht | refused i t _ ht =>
      rcases condSignal_eq ht with ⟨-, rfl⟩ | ⟨-, -, -, rfl⟩
      · exact .inl rfl
      · exact .inl rfl
  | create d id =>
    cases createStep_rule hs with
    | made | failed => exact .inl rfl
  | work n =>
    cases workStep_rule hs with
    | lockWait _ _ _ ht | relock _ _ _ ht | lockDone _ _ _ ht =>
      obtain rfl := lockSlot_eq ht
      exact .inl rfl
    | process k work job =>
      simp only [State.workTo, State.record]
      split <;> exact .inl rfl
    | setIdle k =>
      simp only [State.workTo, State.release, State.setSlot]
      split <;> exact .inl rfl
    | _ => exact .inl rfl
  | spurious n =>
    obtain ⟨-, -, rfl⟩ := step_spurious hs
    exact .inl rfl
  | manage =>
    cases hs
    unfold manageStep
    cases hpc : s.manager with
    | decWrite v => exact .inr (.inr ⟨v, rfl, rfl⟩)
    | kill k =>
      simp only [State.manageTo, State.killWorker]
      split <;> exact .inl rfl
    | _ => exact .inl rfl

/-! ## The history of a slot -/

theorem submitStep_phase (hs : submitStep s c = some s') (k : Int) :
    PhaseRule s k s' (.submit c) := by
  have hclaim : ∀ {i pc}, ((s.call c).pc = .setBusy i ∨ ∃ j, (s.call c).pc = .addBusy j i) →
      PhaseRule s k ((s.claim c i).submitTo c pc) (.submit c) := by
    intro i pc hpc
    rcases eq_or_ne k i with rfl | hne
    · have hself : ((s.claim c k).slot k).phase = .claimed c :=
        congrArg Slot.phase (State.setSlot_self ..)
      exact .claimed c hpc hself
    · have hother : ((s.claim c i).slot k).phase = (s.slot k).phase :=
        congrArg Slot.phase (State.setSlot_of_ne _ _ hne)
      exact .same _ hother
  cases submitStep_rule hs with
  | setBusy i hpc => exact hclaim (.inl hpc)
  | addBusy i n hpc => exact hclaim (.inr ⟨i, hpc⟩)
  | lock i _ _ ht =>
    obtain rfl := lockSlot_eq ht
    exact .same _ (update_phase k rfl)
  | unlockClaimed | storeWork | storeJob | unlockBusy | condInit | lockInit | growWork | growJob =>
    exact .same _ (update_phase k rfl)
  | test | past | busy | idle | poolLock | refused | addTest | addIndex | incRead | incWrite
  | growIndex | poolUnlock => exact .same _ rfl

theorem step_phase (hs : step s a = some s') (k : Int) : PhaseRule s k s' a := by
  cases a with
  | call d worker job =>
    obtain ⟨-, rfl⟩ := step_call hs
    exact .same _ rfl
  | submit d => exact submitStep_phase hs k
  | signal d woken =>
    rcases (signalStep_frame hs).phase k with hsame | ⟨hpc, hsig, hwoken⟩
    · exact .same _ hsame
    · exact .signalled d woken hpc hsig hwoken
  | create d id => exact .same _ ((createStep_frame hs).2.2.2.2.2 k)
  | work n =>
    rcases (workStep_frame hs).phase k with hsame | ⟨hfree, hpc⟩
    · exact .same _ hsame
    · exact .freed n hpc hfree
  | spurious n =>
    obtain ⟨-, -, rfl⟩ := step_spurious hs
    exact .same _ rfl
  | manage =>
    cases hs
    exact .same _ ((manageStep_frame s).2.2.2.2 k)

/-- A slot that is marked busy is free. -/
theorem Inv.free_of_claim (h : Inv s)
    (hpc : (s.call c).pc = .setBusy k ∨ ∃ i, (s.call c).pc = .addBusy i k) :
    (s.slot k).phase = .free := by
  have hok := h.submit c
  rcases hpc with hpc | ⟨i, hpc⟩
  · rw [hpc] at hok
    by_contra hne
    cases (h.busy k hne).symm.trans hok.2.2.2
  · rw [hpc] at hok
    exact h.free_next hok.1 hok.2.1 hok.2.2.1

/-- A submission that signals with its pair stored has claimed the slot. -/
theorem Inv.stored_of_signal (h : Inv s)
    (hpc : (s.call c).pc = .signal k ∨ (s.call c).pc = .wake true k) :
    Claims s c k ∧ (s.call c).stored = some k := by
  have hok := h.submit c
  rcases hpc with hpc | hpc
  · rw [hpc] at hok
    exact ⟨hok.1, hok.2.2.1.2⟩
  · rw [hpc] at hok
    exact ⟨hok.1, hok.2.2.1.2⟩

/-- A worker that runs on a slot has been woken for it. -/
theorem Inv.running_of_runsOn (h : Inv s) (hn : (s.thread n).pc.RunsOn k) :
    ∃ c, (s.slot k).phase = .running c n := by
  have hok := h.work n
  generalize (s.thread n).pc = pc at hok hn
  cases pc with
  | relock | readWork | lockDone =>
    obtain rfl := hn
    obtain ⟨c, hfor, -⟩ := hok
    exact ⟨c, hfor.2.1⟩
  | unlock | readJob | process | setIdle =>
    obtain rfl := hn
    obtain ⟨c, hfor, -⟩ := hok.1
    exact ⟨c, hfor.2.1⟩
  | unborn | find | cmp | lockWait | wait | waiting | unlockDone | exited | killed => exact hn.elim

/-! ## What is lost stays lost -/

/-- A submission that has lost its signal has returned. -/
theorem Inv.returned_of_lost (h : Inv s) (hk : (s.slot k).phase = .lost c) :
    (s.call c).pc = .returned := by
  have hholder : (s.slot k).phase.holder = some c := by rw [hk]; rfl
  rcases (h.submit c).cases with hf | ⟨i, hc⟩ | hr
  · exact absurd hholder (h.not_holder hf.1 k)
  · obtain rfl := h.eq_of_holder hc.2.1 hholder
    cases hk.symm.trans hc.1
  · exact hr

/-- No step is taken by a submission that has returned. -/
theorem submission_ne_of_returned (hs : step s a = some s') (hc : (s.call c).pc = .returned) :
    a.submission ≠ some c := by
  cases a with
  | call d worker job =>
    rintro ⟨⟩
    cases hc.symm.trans (step_call hs).1
  | submit d =>
    rintro ⟨⟩
    rw [step, submitStep, hc] at hs
    cases hs
  | signal d woken =>
    rintro ⟨⟩
    rw [step, signalStep, hc] at hs
    cases hs
  | create d id =>
    rintro ⟨⟩
    cases createStep_rule hs with
    | made _ _ _ hpc | failed _ _ hpc => cases hc.symm.trans hpc
  | work | spurious | manage => rintro ⟨⟩

/-- A step leaves alone a submission that has lost its signal. -/
theorem Inv.call_of_lost (h : Inv s) (hk : (s.slot k).phase = .lost c)
    (hs : ThreadPool.step s a = some s') : s'.call c = s.call c := by
  have ha := submission_ne_of_returned hs (h.returned_of_lost hk)
  refine (step_call_other hs ha).2.2.resolve_right ?_
  rintro ⟨n, i, hi, hruns⟩
  obtain ⟨d, hd⟩ := h.running_of_runsOn hruns
  obtain rfl := h.eq_of_holder (h.holder k c (by rw [hk]; rfl)) hi
  cases hk.symm.trans hd

/-- **A slot whose signal was lost is never free again.** -/
theorem Lost.step (hlost : Lost s c k) (h : Inv s) (hs : ThreadPool.step s a = some s') :
    Lost s' c k := by
  have hcall := h.call_of_lost hlost.phase hs
  refine ⟨?_, by rw [hcall]; exact hlost.stored, by rw [hcall]; exact hlost.runs⟩
  cases step_phase hs k with
  | same _ hsame => exact hsame.trans hlost.phase
  | claimed d hpc => cases hlost.phase.symm.trans (h.free_of_claim hpc)
  | signalled d woken hpc => cases hlost.phase.symm.trans (h.stored_of_signal hpc).1.1
  | freed n hpc =>
    obtain ⟨d, hd⟩ := h.running_of_runsOn (k := k) (by rw [hpc]; rfl)
    cases hlost.phase.symm.trans hd

/-- A step by which a slot is lost is a signal that finds no worker. -/
theorem lost_of_step (hs : step s a = some s') (hk : (s'.slot k).phase = .lost c) :
    (s.slot k).phase = .lost c ∨ lostSignal s a = some c := by
  cases step_phase hs k with
  | same _ hsame => exact .inl (hsame.symm.trans hk)
  | claimed d _ hclaim => cases hclaim.symm.trans hk
  | freed n _ hfree => cases hfree.symm.trans hk
  | signalled d woken hpc hsig =>
    cases woken with
    | some n => cases hsig.symm.trans hk
    | none =>
      obtain rfl := Phase.lost.inj (hsig.symm.trans hk)
      refine .inr ?_
      rcases hpc with hpc | hpc
      · rw [lostSignal, hpc]
      · rw [lostSignal, hpc]

/-- A submission whose signal is lost is about to signal with its pair stored. -/
theorem of_lostSignal (ha : lostSignal s a = some c) :
    a = .signal c none ∧ ∃ i, (s.call c).pc = .signal i ∨ (s.call c).pc = .wake true i := by
  cases a with
  | signal d woken =>
    cases woken with
    | some n => cases ha
    | none =>
      dsimp only [lostSignal] at ha
      split at ha
      · next i hpc =>
        obtain rfl := Option.some.inj ha
        exact ⟨rfl, i, .inl hpc⟩
      · next i hpc =>
        obtain rfl := Option.some.inj ha
        exact ⟨rfl, i, .inr hpc⟩
      · cases ha
  | call | submit | create | work | spurious | manage => cases ha

/-- A signal that finds no worker loses its slot. -/
theorem Inv.lost_of_signal (h : Inv s) (ha : lostSignal s a = some c)
    (hs : ThreadPool.step s a = some s') : ∃ k, Lost s' c k := by
  obtain ⟨rfl, i, hpc⟩ := of_lostSignal ha
  obtain ⟨⟨-, -, hruns, -⟩, hstored⟩ := h.stored_of_signal hpc
  refine ⟨i, ?_⟩
  cases signalStep_rule hs with
  | held k t hpc' ht =>
    obtain rfl : k = i := by
      rcases hpc with hpc | hpc <;> rcases hpc' with hpc' | hpc' <;> cases hpc.symm.trans hpc' <;>
        rfl
    rcases condSignal_eq ht with ⟨-, rfl⟩ | ⟨n, hn, -⟩
    · have hphase : ((t.setSlot k fun x => { x with phase := .signalled c none }).slot k).phase =
          .lost c := congrArg Slot.phase (State.setSlot_self ..)
      refine ⟨hphase, ?_, ?_⟩
      · rw [State.submitTo, State.setCall_self]
        exact hstored
      · rw [State.submitTo, State.setCall_self]
        exact hruns
    · cases hn
  | refused k t hpc' =>
    rcases hpc with hpc | hpc <;> cases hpc.symm.trans hpc'

/-! ## Runs -/

/-- A worker that runs on a slot does so until it sets it idle. -/
theorem Kept.runsOn_step (h : Kept s) (hcalm : Calm s a) (hs : ThreadPool.step s a = some s')
    (hn : (s.thread n).pc.RunsOn k) :
    (s'.thread n).pc.RunsOn k ∨ (s'.slot k).phase = .free := by
  cases a with
  | call d worker job =>
    obtain ⟨-, rfl⟩ := step_call hs
    exact .inl hn
  | submit d => exact .inl (by rwa [(submitStep_frame hs).thread])
  | signal d woken =>
    rcases (signalStep_frame hs).thread n with hpc | ⟨i, hpc, -⟩
    · exact .inl (by rwa [hpc])
    · rw [hpc] at hn
      exact hn.elim
  | create d id =>
    have hne : n ≠ s.created := by
      rintro rfl
      rw [h.born s.created le_rfl] at hn
      exact hn
    exact .inl (by rwa [(createStep_frame hs).2.2.2.1 n hne])
  | work m =>
    rcases eq_or_ne n m with rfl | hne
    · exact workStep_runsOn hs hn
    · exact .inl (by rwa [(workStep_frame hs).thread n hne])
  | spurious m => exact hcalm.elim
  | manage =>
    cases hs
    rcases (manageStep_frame s).2.2.1 n with hsame | ⟨i, hi, -⟩
    · exact .inl (by rwa [hsame])
    · exact absurd (by rw [hi]; trivial) h.deleting

theorem Leaking.step (h : Leaking l s) (hmutexes : Mutexes s) (hcalm : Calm s a)
    (hnever : NeverDeletes s a) (hs : ThreadPool.step s a = some s') :
    Leaking (l ++ (lostSignal s a).toList) s' where
  toKept := h.toKept.step hcalm hnever hs
  nonneg k hk := by
    cases step_phase hs k with
    | same _ hsame => exact h.nonneg k (hsame ▸ hk)
    | claimed d hpc =>
      have hplaced := hmutexes.submit d
      rcases hpc with hpc | ⟨i, hpc⟩
      · rw [hpc] at hplaced
        exact hplaced.1
      · rw [hpc] at hplaced
        exact hmutexes.range.trans_eq hplaced.1.symm
    | signalled d woken hpc =>
      refine h.nonneg k ?_
      rw [(h.stored_of_signal hpc).1.1]
      exact Phase.noConfusion
    | freed n _ hfree => exact absurd hfree hk
  awake k c n hk := by
    cases step_phase hs k with
    | same _ hsame =>
      refine (h.runsOn_step hcalm hs (h.awake k c n (hsame.symm.trans hk))).resolve_right
        fun hfree => ?_
      cases hfree.symm.trans hk
    | claimed d _ hclaim => cases hclaim.symm.trans hk
    | freed m _ hfree => cases hfree.symm.trans hk
    | signalled d woken _ hsig hwoken =>
      cases woken with
      | none => cases hsig.symm.trans hk
      | some m =>
        obtain rfl : m = n := (Phase.running.inj (hsig.symm.trans hk)).2
        rw [hwoken m rfl]
        rfl
  nodup := by
    refine h.nodup.append (Option.toList_nodup _) fun c hc hlost => ?_
    obtain ⟨k, hk⟩ := h.lost c hc
    obtain ⟨-, i, hpc⟩ := of_lostSignal (Option.mem_toList.1 hlost)
    have hret := h.returned_of_lost hk.phase
    rcases hpc with hpc | hpc <;> cases hret.symm.trans hpc
  lost c hc := by
    rcases List.mem_append.1 hc with hc | hc
    · obtain ⟨k, hk⟩ := h.lost c hc
      exact ⟨k, hk.step h.toInv hs⟩
    · exact h.lost_of_signal (Option.mem_toList.1 hc) hs
  listed k c hk := by
    rcases lost_of_step hs hk with hold | hlost
    · exact List.mem_append_left _ (h.listed k c hold)
    · exact List.mem_append_right _ (Option.mem_toList.2 hlost)

/-- No signal is lost at the start. -/
theorem Leaking.init (h : Initialised min max s) : Leaking [] s where
  toKept := .init h
  nonneg k hk := absurd (h.phase k) hk
  awake k c n hk := by cases (h.phase k).symm.trans hk
  nodup := .nil
  lost c hc := absurd hc List.not_mem_nil
  listed k c hk := by cases (h.phase k).symm.trans hk

/-- The run rule: the signals that were lost are those of the slots that are. -/
theorem leaking_of_run {s₀ : State w ω δ} {as : List (Act w ω δ)} (h₀ : Initialised min max s₀)
    (hr : (machine w ω δ min max).Run (fun s a => Calm s a ∧ NeverDeletes s a) s₀ as s) :
    Leaking (lostSignals min max s₀ as) s ∧ Mutexes s :=
  hr.events_invariant (J := fun l u => Leaking l u ∧ Mutexes u) ⟨.init h₀, .init h₀⟩
    fun _ _ _ _ hJ hC hs => ⟨hJ.1.step hJ.2 hC.1 hC.2 hs, hJ.2.step hC.2 hs⟩

/-! ## At rest -/

/-- A slot of a pool at rest is free or lost. -/
theorem Leaking.free_or_lost (h : Leaking l s) (hq : Quiet s) (k : Int) :
    (s.slot k).phase = .free ∨ ∃ c, (s.slot k).phase = .lost c := by
  cases hk : (s.slot k).phase with
  | free => exact .inl rfl
  | lost c => exact .inr ⟨c, rfl⟩
  | claimed c =>
    have hok := h.submit c
    rcases hq.1 c with hpc | hpc
    · rw [hpc] at hok
      exact absurd (by rw [hk]; rfl) (h.not_holder hok.1 k)
    · rw [hpc] at hok
      exact absurd hk (hok k)
  | running c n =>
    have hruns := h.awake k c n hk
    rw [hq.waiting hruns.serves] at hruns
    exact hruns.elim

/-- A slot is busy at rest exactly if its signal was lost. -/
theorem Leaking.busy_iff (h : Leaking l s) (hq : Quiet s) (h0 : 0 ≤ k) (hk : k < s.curThNum) :
    (s.slot k).isBusy = true ↔ ∃ c ∈ l, (s.slot k).phase = .lost c := by
  refine ⟨fun hb => ?_, fun ⟨c, _, hc⟩ => h.busy k (by rw [hc]; exact Phase.noConfusion)⟩
  rcases h.free_or_lost hq k with hfree | ⟨c, hc⟩
  · cases (h.idle k h0 hk hfree).symm.trans hb
  · exact ⟨c, h.listed k c hc, hc⟩

/-- A lost slot is in use. -/
theorem Leaking.lost_mem (h : Leaking l s) (hc : (s.slot k).phase = .lost c) :
    0 ≤ k ∧ k < s.curThNum := by
  refine ⟨h.nonneg k (by rw [hc]; exact Phase.noConfusion), ?_⟩
  by_contra hge
  rcases h.above k (not_lt.1 hge) with hfree | ⟨d, hd⟩
  · cases hfree.symm.trans hc
  · cases hd.symm.trans hc

/-- The history of the slot says which submission has lost its signal. -/
theorem Leaking.of_phase (h : Leaking l s) (hc : (s.slot k).phase = .lost c) : Lost s c k := by
  obtain ⟨i, hi⟩ := h.lost c (h.listed k c hc)
  have hclaimed := h.holder i c (by rw [hi.phase]; rfl)
  obtain rfl : k = i := h.eq_of_holder hclaimed (by rw [hc]; rfl)
  exact hi

/-- `tp_get_tp_status` counts the busy slots. -/
theorem busyFrom_eq_countP (slot : Int → Slot w ω δ) (i : Int) (b n : Nat) :
    busyFrom slot i b n = b + (List.range n).countP fun j : Nat => (slot (i + j)).isBusy := by
  induction n generalizing i b with
  | zero => rfl
  | succ n ih =>
    have hnext : ∀ j : Nat, i + 1 + (j : Int) = i + ((j + 1 : Nat) : Int) := fun j => by omega
    rw [busyFrom, ih, List.range_succ_eq_map, List.countP_cons, List.countP_map]
    simp only [hnext, Function.comp_def, Nat.succ_eq_add_one, Nat.cast_zero, add_zero]
    split <;> omega

/-- The slot that the submission has stored its pair into. -/
def lostSlot (s : State w ω δ) (c : Nat) : Int := (s.call c).stored.getD 0

theorem Lost.lostSlot_eq (h : Lost s c k) : lostSlot s c = k := by
  rw [lostSlot, h.stored]
  rfl

/-- The slots of the submissions that have lost their signals are different ones. -/
theorem Leaking.nodup_slots (h : Leaking l s) : (l.map (lostSlot s)).Nodup := by
  refine h.nodup.map_on fun c hc d hd he => ?_
  obtain ⟨i, hi⟩ := h.lost c hc
  obtain ⟨j, hj⟩ := h.lost d hd
  obtain rfl : i = j := hi.lostSlot_eq.symm.trans (he.trans hj.lostSlot_eq)
  exact Phase.lost.inj (hi.phase.symm.trans hj.phase)

theorem Leaking.mem_slots (h : Leaking l s) :
    k ∈ l.map (lostSlot s) ↔ ∃ c, (s.slot k).phase = .lost c := by
  refine List.mem_map.trans ⟨?_, fun ⟨c, hc⟩ => ?_⟩
  · rintro ⟨c, hc, rfl⟩
    obtain ⟨i, hi⟩ := h.lost c hc
    exact ⟨c, by rw [hi.lostSlot_eq, hi.phase]⟩
  · exact ⟨c, h.listed k c hc, (h.of_phase hc).lostSlot_eq⟩

/-- **At rest `tp_get_tp_status` counts the lost signals.** -/
theorem Leaking.busyFrom_eq (h : Leaking l s) (hq : Quiet s) :
    busyFrom s.slot 0 0 s.curThNum.toNat = l.length := by
  have hperm : (((List.range s.curThNum.toNat).filter fun j : Nat => (s.slot j).isBusy).map
      fun j : Nat => (j : Int)).Perm (l.map (lostSlot s)) := by
    refine (List.perm_ext_iff_of_nodup ?_ h.nodup_slots).2 fun k => ?_
    · exact (List.nodup_range.filter _).map Int.ofNat_injective
    · rw [h.mem_slots, List.mem_map]
      constructor
      · rintro ⟨j, hj, rfl⟩
        obtain ⟨hlt, hb⟩ := List.mem_filter.1 hj
        have hlt := List.mem_range.1 hlt
        obtain ⟨c, -, hc⟩ := (h.busy_iff hq (Int.natCast_nonneg j) (by omega)).1 hb
        exact ⟨c, hc⟩
      · rintro ⟨c, hc⟩
        obtain ⟨h0, hlt⟩ := h.lost_mem hc
        obtain ⟨j, rfl⟩ := Int.eq_ofNat_of_zero_le h0
        have hb := h.busy j (by rw [hc]; exact Phase.noConfusion)
        exact ⟨j, List.mem_filter.2 ⟨List.mem_range.2 (by omega), hb⟩, rfl⟩
  have hlength := hperm.length_eq
  rw [List.length_map, List.length_map, ← List.countP_eq_length_filter] at hlength
  rw [busyFrom_eq_countP, Nat.zero_add]
  simpa only [Int.zero_add] using hlength

/-! ## No slot left -/

/-- Every slot that the pool can have has lost a signal. -/
def Exhausted (max : Int) (s : State w ω δ) : Prop :=
  s.curThNum = max ∧ ∀ k, 0 ≤ k → k < max → ∃ c, (s.slot k).phase = .lost c

/-- The slots are exhausted once there are `max_th_num` lost signals. -/
theorem Leaking.exhausted (h : Leaking l s) (hmax : s.maxThNum = max)
    (hl : (l.length : Int) = max) : Exhausted max s := by
  have hsub : l.map (lostSlot s) ⊆ (List.range s.curThNum.toNat).map fun j : Nat => (j : Int) := by
    intro k hk
    obtain ⟨c, hc⟩ := h.mem_slots.1 hk
    obtain ⟨h0, hlt⟩ := h.lost_mem hc
    obtain ⟨j, rfl⟩ := Int.eq_ofNat_of_zero_le h0
    exact List.mem_map.2 ⟨j, List.mem_range.2 (by omega), rfl⟩
  have hsubperm := h.nodup_slots.subperm hsub
  have hlength := hsubperm.length_le
  have hrange := h.range
  rw [List.length_map, List.length_map, List.length_range] at hlength
  have hcur : s.curThNum = max := by omega
  have hperm := hsubperm.perm_of_length_le (by
    rw [List.length_map, List.length_map, List.length_range]
    omega)
  refine ⟨hcur, fun k h0 hk => h.mem_slots.1 (hperm.mem_iff.2 (List.mem_map.2 ⟨k.toNat, ?_, ?_⟩))⟩
  · exact List.mem_range.2 (by omega)
  · exact Int.toNat_of_nonneg h0

/-- No slot is left to mark busy, or to add. -/
theorem Exhausted.not_claim (hex : Exhausted max s) (h : Inv s) (hmutexes : Mutexes s)
    (hmax : s.maxThNum = max) :
    ¬ ((s.call c).pc = .setBusy k ∨ ∃ i, (s.call c).pc = .addBusy i k) := by
  intro hpc
  have hfree := h.free_of_claim hpc
  have hplaced := hmutexes.submit c
  have hok := h.submit c
  rcases hpc with hpc | ⟨i, hpc⟩
  · rw [hpc] at hplaced
    obtain ⟨d, hd⟩ := hex.2 k hplaced.1 (hplaced.2.trans_eq hex.1)
    cases hfree.symm.trans hd
  · rw [hpc] at hok
    have hroom := hok.2.2.1.2
    rw [hmax, hex.1] at hroom
    exact absurd hroom (lt_irrefl max)

theorem Exhausted.step (hex : Exhausted max s) (h : Kept s) (hmutexes : Mutexes s)
    (hmax : s.maxThNum = max) (hs : ThreadPool.step s a = some s') : Exhausted max s' := by
  refine ⟨?_, fun k h0 hk => ?_⟩
  · rcases step_curThNum hs with hcur | ⟨d, i, n, v, hpc, -⟩ | ⟨v, hpc, -⟩
    · exact hcur.trans hex.1
    · have hok := h.submit d
      rw [hpc] at hok
      have hroom := hok.2.2.2.1.2
      rw [hmax, hex.1] at hroom
      exact absurd hroom (lt_irrefl max)
    · exact absurd (by rw [hpc]; trivial) h.deleting
  · obtain ⟨c, hc⟩ := hex.2 k h0 hk
    refine ⟨c, ?_⟩
    cases step_phase hs k with
    | same _ hsame => exact hsame.trans hc
    | claimed d hpc => exact absurd hpc (hex.not_claim h.toInv hmutexes hmax)
    | signalled d woken hpc => cases hc.symm.trans (h.stored_of_signal hpc).1.1
    | freed n hpc =>
      obtain ⟨d, hd⟩ := h.running_of_runsOn (k := k) (by rw [hpc]; rfl)
      cases hc.symm.trans hd

theorem fresh_submitTo {pc : SubmitPc} : Fresh (s.submitTo c pc) c ↔ Fresh s c := by
  unfold Fresh
  rw [State.submitTo, State.setCall_self]

/-- A submission of an exhausted pool marks no slot. -/
theorem Fresh.step (hf : Fresh s c) (h : Inv s)
    (hno : ∀ k, ¬ ((s.call c).pc = .setBusy k ∨ ∃ i, (s.call c).pc = .addBusy i k))
    (hs : ThreadPool.step s a = some s') : Fresh s' c := by
  have hnot : ∀ {i}, ¬ Claims s c i := fun hc => by cases hf.1.symm.trans hc.2.1
  by_cases ha : a.submission = some c
  · cases a with
    | call d worker job =>
      obtain rfl := Option.some.inj ha
      obtain ⟨-, rfl⟩ := step_call hs
      unfold Fresh
      rw [State.setCall_self]
      exact hf
    | submit d =>
      obtain rfl := Option.some.inj ha
      have hok := h.submit d
      cases submitStep_rule hs with
      | setBusy k hpc => exact absurd (.inl hpc) (hno k)
      | addBusy i k hpc => exact absurd (.inr ⟨i, hpc⟩) (hno k)
      | storeWork i hpc | growWork i hpc =>
        rw [hpc] at hok
        exact absurd hok.1 hnot
      | lock i _ _ ht =>
        obtain rfl := lockSlot_eq ht
        exact fresh_submitTo.2 hf
      | test | past | busy | idle | unlockClaimed | storeJob | unlockBusy | poolLock | refused
      | addTest | addIndex | condInit | lockInit | incRead | incWrite | growIndex | growJob
      | poolUnlock => exact fresh_submitTo.2 hf
    | signal d woken =>
      obtain rfl := Option.some.inj ha
      cases signalStep_rule hs with
      | held i t hpc => exact absurd (h.stored_of_signal hpc).1 hnot
      | refused i t _ ht =>
        rcases condSignal_eq ht with ⟨-, rfl⟩ | ⟨n, -, -, rfl⟩
        · exact fresh_submitTo.2 hf
        · exact fresh_submitTo.2 hf
    | create d id =>
      obtain rfl := Option.some.inj ha
      cases createStep_rule hs with
      | made | failed => exact fresh_submitTo.2 hf
    | work | spurious | manage => cases ha
  · rcases (step_call_other hs ha).2.2 with hcall | ⟨n, k, hk, -⟩
    · unfold Fresh
      rwa [hcall]
    · exact absurd hk (h.not_holder hf.1 k)

/-- **A pool that has lost `max_th_num` signals runs no job again**, in every run from a pool
initialised with every slot idle, and in every continuation of it, in which `pthread_create`
succeeds, workers wake on signals only, the signals after a refused growth find no waiter and the
pool does not shrink. Whatever is submitted later, in whatever order of the steps: no slot is marked
for it, and it is not run. -/
theorem neverServes {s₀ : State w ω δ} {as bs : List (Act w ω δ)} (h₀ : Initialised min max s₀)
    (hr : (machine w ω δ min max).Run (fun s a => Calm s a ∧ NeverDeletes s a) s₀ as s)
    (hl : ((lostSignals min max s₀ as).length : Int) = max)
    (hr' : (machine w ω δ min max).Run (fun s a => Calm s a ∧ NeverDeletes s a) s bs t)
    (hc : (s.call c).pc = .idle) : (t.call c).claimed = none ∧ (t.call c).runs = [] := by
  obtain ⟨hleaking, hmutexes⟩ := leaking_of_run h₀ hr
  have hlimits : Limits min max s := hr.invariant (.init h₀.created_pool)
    fun _ _ _ hI _ hs => hI.step hs
  have hidle := hleaking.submit c
  rw [hc] at hidle
  obtain ⟨-, -, -, -, hf⟩ := hr'.invariant
    (I := fun u => Kept u ∧ Mutexes u ∧ Limits min max u ∧ Exhausted max u ∧ Fresh u c)
    ⟨hleaking.toKept, hmutexes, hlimits, hleaking.exhausted hlimits.nums.2 hl, hidle⟩
    fun u a u' hI hC hs => ⟨hI.1.step hC.1 hC.2 hs, hI.2.1.step hC.2 hs, hI.2.2.1.step hs,
      hI.2.2.2.1.step hI.1 hI.2.1 hI.2.2.1.nums.2 hs,
      hI.2.2.2.2.step hI.1.toInv
        (fun k => hI.2.2.2.1.not_claim hI.1.toInv hI.2.1 hI.2.2.1.nums.2) hs⟩
  exact ⟨hf.1, hf.2.2.1⟩

end

/-- A step that keeps the conditions, also a signal that wakes nobody. -/
def calmStep (s : State w ω δ) (a : Act w ω δ) : Bool :=
  plainStep s a || match a with
    | .signal _ none => true
    | .signal _ (some _) | .call _ _ _ | .submit _ | .create _ _ | .work _ | .spurious _
    | .manage => false

theorem of_calmStep {s : State w ω δ} {a : Act w ω δ} (h : calmStep s a = true) :
    Calm s a ∧ NeverDeletes s a := by
  rcases Bool.or_eq_true_iff.1 h with hplain | hnone
  · exact ⟨(of_plainStep hplain).1, (of_plainStep hplain).2.1⟩
  · cases a with
    | signal c woken =>
      cases woken with
      | none => exact ⟨trivial, trivial⟩
      | some n => cases hnone
    | call | submit | create | work | spurious | manage => cases hnone

/-- A run whose steps have been checked keeps the conditions. -/
theorem run_of_calmStep {min max : Int} {s t : State w ω δ} {as : List (Act w ω δ)}
    (h : (machine w ω δ min max).runChecked calmStep s as = some t) :
    (machine w ω δ min max).Run (fun s a => Calm s a ∧ NeverDeletes s a) s as t :=
  (@Machine.Run.of_checked _ _ (machine w ω δ min max) (fun s a => Calm s a ∧ NeverDeletes s a)
    (fun _ => True) calmStep (fun _ _ _ hchk => of_calmStep hchk) (fun _ _ _ _ _ _ => trivial)
    _ _ _ trivial h).1

/-- Submission `1` comes when the only slot has lost a signal. -/
def tooLate : List (Act 64 Nat Nat) :=
  .call 1 30 40 :: List.replicate 8 (.submit 1) ++ [.signal 1 none]

/-- It returns, and its job is not run. -/
theorem tooLate_neverServes : ∃ s t : State 64 Nat Nat,
    (machine 64 Nat Nat 1 1).Run (fun s a => Calm s a ∧ NeverDeletes s a) (idlePool 1 1)
        earlySignal s ∧
      (machine 64 Nat Nat 1 1).Run (fun s a => Calm s a ∧ NeverDeletes s a) s tooLate t ∧
      (t.call 1).pc = .returned ∧ (t.call 1).claimed = none ∧ (t.call 1).runs = [] := by
  have hrun : ((machine 64 Nat Nat 1 1).runChecked calmStep (idlePool 1 1) earlySignal).map
      (fun s => ((s.call 1).pc, ((machine 64 Nat Nat 1 1).runChecked calmStep s tooLate).map
        fun t => (t.call 1).pc)) = some (.idle, some .returned) := by
    decide +kernel
  obtain ⟨s, hs, hend⟩ := Option.map_eq_some_iff.1 hrun
  obtain ⟨hidle, hend⟩ := Prod.mk.inj hend
  obtain ⟨t, ht, hret⟩ := Option.map_eq_some_iff.1 hend
  have h₀ : Initialised (1 : Nat) (1 : Nat) (idlePool 1 1) :=
    idlePool_initialised le_rfl (by decide)
  have hlost : lostSignals 1 1 (idlePool 1 1) earlySignal = [0] := by decide +kernel
  exact ⟨s, t, run_of_calmStep hs, run_of_calmStep ht, hret,
    neverServes h₀ (run_of_calmStep hs) (by rw [Nat.cast_one, hlost]; rfl) (run_of_calmStep ht)
      hidle⟩

end LinuxTraining.ThreadPool
