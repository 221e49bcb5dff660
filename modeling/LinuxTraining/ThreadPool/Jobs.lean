import LinuxTraining.ThreadPool.Frame
import LinuxTraining.ThreadPool.Manage

/-!
# The thread pool: the jobs

With the manager not deleting, `NeverWrong` says that a worker runs the pair of the submission that
holds its slot, for the first time, and that no pair is overwritten before it has been run;
`NoneLost` that all stored jobs have been run once the pool is quiet. The code keeps neither:

* a signal after a refused growth may wake a worker that has no job (`refusedGrowth_runsTwice`);
* a signal may come before the worker waits (`earlySignal_losesJob`).

`neverWrong_of_calm` and `noneLost_of_signalsWaiting` are the runs without such signals.
-/

namespace LinuxTraining.ThreadPool

open Lib

variable {w : Nat} {ω δ : Type}

/-- The manager never finds the last slot idle. -/
def NeverDeletes (s : State w ω δ) : Act w ω δ → Prop
  | .manage => ∀ k, s.manager = .delBusy k → (s.slot k).isBusy = true
  | _ => True

/-- The annotations of a pool that has not shrunk. -/
structure Kept (s : State w ω δ) : Prop extends Inv s where
  killed : s.killed = []
  deleting : ¬ s.manager.Deleting

section
variable {s s' : State w ω δ} {a : Act w ω δ}

/-- Only the manager moves the manager. -/
theorem step_manager (hs : step s a = some s') (ha : a ≠ .manage) :
    s'.manager = s.manager ∧ s'.killed = s.killed := by
  cases a with
  | call c worker job =>
    obtain ⟨-, rfl⟩ := step_call hs
    exact ⟨rfl, rfl⟩
  | submit c => exact ⟨(submitStep_frame hs).manager, (submitStep_frame hs).killed⟩
  | signal c woken => exact ⟨(signalStep_frame hs).manager, (signalStep_frame hs).killed⟩
  | create c id => exact ⟨(createStep_frame hs).1, (createStep_frame hs).2.1⟩
  | work n => exact ⟨(workStep_frame hs).manager, (workStep_frame hs).killed⟩
  | spurious n =>
    obtain ⟨k, -, rfl⟩ := step_spurious hs
    exact ⟨rfl, rfl⟩
  | manage => exact absurd rfl ha

/-- A pool that does not shrink meets the condition on shrinking. -/
theorem Kept.shrinksApart (h : Kept s) (hnever : NeverDeletes s a) : ShrinksApart s a := by
  cases a with
  | manage => exact fun k hk hidle => absurd ((hnever k hk).symm.trans hidle) nofun
  | submit => exact fun hm => absurd hm h.deleting
  | work => exact fun hm => (hm.elim (absurd h.killed) fun hm => absurd hm h.deleting)
  | _ => trivial

/-- The annotations of a pool that does not shrink survive a step. -/
theorem Kept.step (h : Kept s) (hcalm : Calm s a) (hnever : NeverDeletes s a)
    (hs : ThreadPool.step s a = some s') : Kept s' := by
  suffices hrest : s'.killed = [] ∧ ¬ s'.manager.Deleting from
    ⟨h.toInv.step hcalm (h.shrinksApart hnever) hs, hrest.1, hrest.2⟩
  by_cases ha : a = .manage
  · subst ha
    cases hs
    have hkill : ∀ k, s.manager ≠ .kill k := fun k hk =>
      h.deleting (by rw [hk]; trivial)
    refine ⟨((manageStep_frame s).2.2.2.1 hkill).trans h.killed, ?_⟩
    have hdel := h.deleting
    unfold manageStep
    cases hpc : s.manager with
    | sleep | statBusy | busyIndex => exact id
    | statTest | statEnd | delMin =>
      dsimp only [State.manageTo]
      split <;> exact id
    | delBusy k =>
      dsimp only [State.manageTo]
      rw [hnever k hpc]
      exact id
    | _ =>
      rw [hpc] at hdel
      exact absurd trivial hdel
  · obtain ⟨hm, hk⟩ := step_manager hs ha
    exact ⟨hk.trans h.killed, by rw [hm]; exact h.deleting⟩

/-- An initialised pool has not shrunk. -/
theorem Kept.init {min max : Int} (h : Initialised min max s) : Kept s :=
  ⟨.init h, h.lists.2, by rw [h.manager]; exact id⟩

end

/-! ## No job twice or wrong -/

/-- The submission is about to store into slot `k`. -/
def SubmitPc.StoresAt : SubmitPc → Int → Prop
  | .storeWork i, k | .storeJob i, k | .growWork i, k | .growJob i, k => i = k
  | _, _ => False

/-- A worker that calls `process_job` does so for a busy slot, with the pair of the submission that
holds it, which has not been run before; and a submission does not store into a slot while a job
that another has stored there is unfinished. -/
structure NeverWrong (s : State w ω δ) : Prop where
  runs : ∀ n k work job, (s.thread n).pc = .process k work job → (s.slot k).isBusy = true ∧
    ∃ c, (s.slot k).phase.holder = some c ∧ (s.call c).stored = some k ∧
      ((s.slot k).thWork = (s.call c).worker ∧ (s.slot k).thJob = (s.call c).job) ∧
      (work = (s.call c).worker ∧ job = (s.call c).job) ∧ (s.call c).runs = []
  stores : ∀ c k, (s.call c).pc.StoresAt k → ∀ d, d ≠ c → (s.call d).stored = some k →
    (s.call d).finished = true

section
variable {s : State w ω δ}

/-- The annotations say that no job is run twice or wrong. -/
theorem Inv.neverWrong (h : Inv s) : NeverWrong s := by
  refine ⟨fun n k work job hpc => ?_, fun c k hk d hd hst => ?_⟩
  · have hok := h.work n
    rw [hpc] at hok
    obtain ⟨⟨c, hfor, hruns⟩, rfl, rfl⟩ := hok
    obtain ⟨-, hph, hw, hj, hst, -⟩ := hfor
    exact ⟨h.busy k (by rw [hph]; nofun), c, by rw [hph]; rfl, hst, ⟨hw, hj⟩, ⟨hw, hj⟩, hruns⟩
  · have hclaims : Claims s c k := by
      have hok := h.submit c
      generalize (s.call c).pc = pc at hok hk
      cases pc with
      | storeWork | storeJob | growWork | growJob =>
        obtain rfl := hk
        exact hok.1
      | _ => exact hk.elim
    refine (h.stored d k hst).resolve_right fun hholder => hd ?_
    rw [hclaims.1] at hholder
    exact (Option.some.inj hholder).symm

/-- **No job twice or wrong**, in every run in which `pthread_create` succeeds, workers wake on
signals only, and the signals after a refused growth find no waiter. -/
theorem neverWrong_of_calm {min max : Int}
    (h : (machine w ω δ min max).Reach (fun s a => Calm s a ∧ NeverDeletes s a) s) :
    NeverWrong s := by
  have hkept : Kept s := h.invariant (fun _ hinit => .init hinit)
    fun _ _ _ hI hC hs => hI.step hC.1 hC.2 hs
  exact hkept.toInv.neverWrong

end

/-- What a worker is about to run. -/
def WorkPc.pair : WorkPc ω δ → Option (Int × ω × δ)
  | .process k work job => some (k, work, job)
  | _ => none

theorem WorkPc.eq_of_pair {pc : WorkPc ω δ} {k : Int} {work : ω} {job : δ}
    (h : pc.pair = some (k, work, job)) : pc = .process k work job := by
  cases pc <;> cases h
  rfl

/-- A step that keeps all the conditions whatever the pool: it is not of the manager, no worker is
made, and each signal is in the loop over the slots and wakes a worker. -/
def plainStep (s : State w ω δ) : Act w ω δ → Bool
  | .call _ _ _ | .submit _ | .work _ => true
  | .signal c (some _) =>
    match (s.call c).pc with
    | .signal _ => true
    | _ => false
  | .signal _ none | .create _ _ | .spurious _ | .manage => false

/-- The signal of a submission that has stored a pair finds a worker waiting on the slot. -/
def SignalsWaiting (s : State w ω δ) : Act w ω δ → Prop
  | .signal c none => ∀ i, (s.call c).pc ≠ .signal i ∧ (s.call c).pc ≠ .wake true i
  | _ => True

theorem of_plainStep {s : State w ω δ} {a : Act w ω δ} (h : plainStep s a) :
    Calm s a ∧ NeverDeletes s a ∧ SignalsWaiting s a := by
  cases a with
  | call | submit | work => exact ⟨trivial, trivial, trivial⟩
  | signal c woken =>
    cases woken with
    | none => cases h
    | some n =>
      refine ⟨fun i hpc => ?_, trivial, trivial⟩
      dsimp only [plainStep] at h
      rw [hpc] at h
      cases h
  | create | spurious | manage => cases h

/-- Worker `0` waits, and submission `0` has it take up a job. -/
def oneJob : List (Act 64 Nat Nat) :=
  List.replicate 4 (Act.work 0) ++
    .call 0 10 20 :: List.replicate 7 (Act.submit 0) ++ .signal 0 (some 0) ::
    List.replicate 4 (Act.work 0)

/-- A worker is about to run the job. -/
theorem oneJob_neverWrong :
    ∃ s, (machine 64 Nat Nat 1 2).Reach (fun s a => Calm s a ∧ NeverDeletes s a) s ∧
      (s.thread 0).pc = .process 0 10 20 ∧ NeverWrong s := by
  have hrun : ((machine 64 Nat Nat 1 2).runChecked plainStep (idlePool 1 2) oneJob).map
      (fun s => (s.thread 0).pc.pair) = some (some (0, 10, 20)) := by
    decide +kernel
  obtain ⟨s, hs, hpair⟩ := Option.map_eq_some_iff.1 hrun
  obtain ⟨hr, -⟩ := @Machine.Run.of_checked _ _ (machine 64 Nat Nat 1 2)
    (fun s a => Calm s a ∧ NeverDeletes s a) (fun _ => True) _
    (fun _ _ _ hchk => ⟨(of_plainStep hchk).1, (of_plainStep hchk).2.1⟩)
    (fun _ _ _ _ _ _ => trivial) _ _ _ trivial hs
  have hreach : (machine 64 Nat Nat 1 2).Reach (fun s a => Calm s a ∧ NeverDeletes s a) s :=
    ⟨_, _, idlePool_initialised (by decide) (by decide), hr⟩
  exact ⟨s, hreach, WorkPc.eq_of_pair hpair, neverWrong_of_calm hreach⟩

/-- Worker `0` waits; submission `0` has it run a job; submissions `1` and `2` find slot `0` busy,
and `2` adds slot `1` and has worker `1` run its job. Then `1` is refused growth, and signals slot
`1`. -/
def refusedGrowth : List (Act 64 Nat Nat) :=
  List.replicate 4 (Act.work 0) ++
    .call 0 10 20 :: List.replicate 7 (Act.submit 0) ++ .signal 0 (some 0) ::
    .call 1 11 21 :: List.replicate 5 (Act.submit 1) ++
    .call 2 12 22 :: List.replicate 13 (Act.submit 2) ++ .create 2 (some 9) ::
    List.replicate 4 (Act.submit 2) ++ List.replicate 6 (Act.work 1) ++ .signal 2 (some 1) ::
    List.replicate 10 (Act.work 1) ++ List.replicate 3 (Act.submit 1) ++ .signal 1 (some 1) ::
    List.replicate 4 (Act.work 1)

/-- **A refused growth runs a job twice**: worker `1` is about to run the job of submission `2`
again, and its slot is idle. -/
theorem refusedGrowth_runsTwice :
    ¬ ∀ s, (machine 64 Nat Nat 1 2).Reach
      (fun s a => NeverDeletes s a ∧ ∀ n, a ≠ .spurious n) s → NeverWrong s := by
  intro hall
  have hrun : ((machine 64 Nat Nat 1 2).runChecked
      (fun _ a => match a with
        | .spurious _ | .manage => false
        | _ => true) (idlePool 1 2) refusedGrowth).map
      (fun s => ((s.thread 1).pc.pair, (s.slot 1).isBusy)) = some (some (1, 12, 22), false) := by
    decide +kernel
  obtain ⟨s, hs, hend⟩ := Option.map_eq_some_iff.1 hrun
  obtain ⟨hpair, hidle⟩ := Prod.mk.inj hend
  obtain ⟨hr, -⟩ := @Machine.Run.of_checked _ _ (machine 64 Nat Nat 1 2)
    (fun s a => NeverDeletes s a ∧ ∀ n, a ≠ .spurious n) (fun _ => True) _
    (fun s a _ hchk => by
      cases a with
      | spurious | manage => cases hchk
      | _ => exact ⟨trivial, nofun⟩) (fun _ _ _ _ _ _ => trivial) _ _ _ trivial hs
  have hreach : (machine 64 Nat Nat 1 2).Reach
      (fun s a => NeverDeletes s a ∧ ∀ n, a ≠ .spurious n) s :=
    ⟨_, _, idlePool_initialised (by decide) (by decide), hr⟩
  have hbusy := ((hall s hreach).runs 1 1 12 22 (WorkPc.eq_of_pair hpair)).1
  exact absurd (hidle.symm.trans hbusy) nofun

/-! ## No job lost -/

/-- Every submission has returned, and every worker is blocked in `pthread_cond_wait`. -/
def Quiet (s : State w ω δ) : Prop :=
  (∀ c, (s.call c).pc = .idle ∨ (s.call c).pc = .returned) ∧
    ∀ n, (s.thread n).alive = true → ∃ k, (s.thread n).pc = .waiting k

/-- Once the pool is quiet, a job that is stored in a slot has been run, by the worker that waits on
the slot, and every slot is idle. -/
def NoneLost (s : State w ω δ) : Prop :=
  Quiet s → (∀ c k, (s.call c).stored = some k →
      ∃ n, (s.thread n).pc = .waiting k ∧
        (s.call c).runs = [⟨n, k, (s.call c).worker, (s.call c).job⟩]) ∧
    ∀ k, 0 ≤ k → k < s.curThNum → (s.slot k).isBusy = false

/-- A worker at this point has been woken for slot `k`, and has not set it idle. -/
def WorkPc.RunsOn : WorkPc ω δ → Int → Prop
  | .relock i, k | .unlock i, k | .readWork i, k | .readJob i _, k | .process i _ _, k
  | .lockDone i, k | .setIdle i, k => i = k
  | _, _ => False

/-- A pool that has not shrunk, in which each submission that has signalled has its worker. -/
structure Served (s : State w ω δ) : Prop extends Kept s where
  found : ∀ k c, (s.slot k).phase ≠ .lost c
  awake : ∀ k c n, (s.slot k).phase = .running c n → (s.thread n).pc.RunsOn k

section
variable {s s' : State w ω δ} {a : Act w ω δ} {k : Int} {c n : Nat}

/-- A worker that has been woken for a slot stays on it until it sets it idle. -/
theorem workStep_runsOn (hs : workStep s n = some s') (hn : (s.thread n).pc.RunsOn k) :
    (s'.thread n).pc.RunsOn k ∨ (s'.slot k).phase = .free := by
  have hself : ∀ (t : State w ω δ) pc, ((t.workTo n pc).thread n).pc = pc := fun t pc =>
    congrArg Thread.pc (State.workTo_self ..)
  cases workStep_rule hs with
  | find _ hpc | missing _ hpc | found _ hpc | other _ hpc | lockWait _ _ hpc | wait _ hpc
  | unlockDone _ hpc =>
    rw [hpc] at hn
    exact hn.elim
  | relock _ _ hpc | unlock _ hpc | readWork _ hpc | readJob _ _ hpc | process _ _ _ hpc
  | lockDone _ _ hpc =>
    rw [hpc] at hn
    rw [hself]
    exact .inl hn
  | setIdle i hpc =>
    rw [hpc] at hn
    obtain rfl := hn
    refine .inr ?_
    change ((s.release i).slot i).phase = .free
    unfold State.release
    rw [State.setSlot_self]

/-- A step after which each submission that has signalled has its worker. -/
theorem Served.step (h : Served s) (hcalm : Calm s a) (hnever : NeverDeletes s a)
    (hwaiting : SignalsWaiting s a) (hs : ThreadPool.step s a = some s') : Served s' := by
  refine ⟨h.toKept.step hcalm hnever hs, fun k c hk => ?_, fun k c n hk => ?_⟩
  · cases a with
    | call d worker job =>
      obtain ⟨-, rfl⟩ := step_call hs
      exact h.found k c hk
    | submit d =>
      rcases (submitStep_frame hs).phase k with hsame | hclaim
      · exact h.found k c (hsame.symm.trans hk)
      · exact absurd (hclaim.symm.trans hk) nofun
    | signal d woken =>
      rcases (signalStep_frame hs).phase k with hsame | ⟨hpc, hsig, -⟩
      · exact h.found k c (hsame.symm.trans hk)
      · cases woken with
        | none => exact hpc.elim (hwaiting k).1 (hwaiting k).2
        | some m => exact absurd (hsig.symm.trans hk) nofun
    | create d id =>
      obtain ⟨-, -, -, -, -, hphase⟩ := createStep_frame hs
      exact h.found k c ((hphase k).symm.trans hk)
    | work m =>
      rcases (workStep_frame hs).phase k with hsame | ⟨hfree, -⟩
      · exact h.found k c (hsame.symm.trans hk)
      · exact absurd (hfree.symm.trans hk) nofun
    | spurious m => exact hcalm.elim
    | manage =>
      cases hs
      obtain ⟨-, -, -, -, hphase⟩ := manageStep_frame s
      exact h.found k c ((hphase k).symm.trans hk)
  · cases a with
    | call d worker job =>
      obtain ⟨-, rfl⟩ := step_call hs
      exact h.awake k c n hk
    | submit d =>
      have hframe := submitStep_frame hs
      rw [hframe.thread]
      rcases hframe.phase k with hsame | hclaim
      · exact h.awake k c n (hsame.symm.trans hk)
      · exact absurd (hclaim.symm.trans hk) nofun
    | signal d woken =>
      have hframe := signalStep_frame hs
      rcases hframe.phase k with hsame | ⟨-, hsig, hwoken⟩
      · have hruns := h.awake k c n (hsame.symm.trans hk)
        rcases hframe.thread n with hpc | ⟨i, hpc, -⟩
        · rwa [hpc]
        · rw [hpc] at hruns
          exact hruns.elim
      · cases woken with
        | none => exact absurd (hsig.symm.trans hk) nofun
        | some m =>
          obtain rfl : m = n := (Phase.running.inj (hsig.symm.trans hk)).2
          rw [hwoken m rfl]
          rfl
    | create d id =>
      obtain ⟨-, -, -, hthread, -, hphase⟩ := createStep_frame hs
      have hruns := h.awake k c n ((hphase k).symm.trans hk)
      have hne : n ≠ s.created := by
        rintro rfl
        rw [h.born s.created le_rfl] at hruns
        exact hruns
      rwa [hthread n hne]
    | work m =>
      have hframe := workStep_frame hs
      rcases hframe.phase k with hsame | ⟨hfree, -⟩
      · have hruns := h.awake k c n (hsame.symm.trans hk)
        rcases eq_or_ne n m with rfl | hne
        · exact (workStep_runsOn hs hruns).resolve_right fun hfree =>
            absurd (hfree.symm.trans hk) nofun
        · rwa [hframe.thread n hne]
      · exact absurd (hfree.symm.trans hk) nofun
    | spurious m => exact hcalm.elim
    | manage =>
      cases hs
      obtain ⟨-, -, hthread, -, hphase⟩ := manageStep_frame s
      have hruns := h.awake k c n ((hphase k).symm.trans hk)
      rcases hthread n with hsame | ⟨i, hi, -⟩
      · rwa [hsame]
      · exact absurd (by rw [hi]; trivial) h.deleting

/-- No submission has signalled at the start. -/
theorem Served.init {min max : Int} (h : Initialised min max s) : Served s :=
  ⟨.init h, fun k _ hk => absurd ((h.phase k).symm.trans hk) nofun,
    fun k _ _ hk => absurd ((h.phase k).symm.trans hk) nofun⟩

/-- A worker that serves a slot is waiting on it when the pool is quiet. -/
theorem Quiet.waiting (h : Quiet s) (hn : (s.thread n).pc.serves = some k) :
    (s.thread n).pc = .waiting k := by
  have halive : (s.thread n).alive = true := by
    unfold Thread.alive
    split
    · next hpc => rw [hpc] at hn; cases hn
    · next hpc => rw [hpc] at hn; cases hn
    · next hpc => rw [hpc] at hn; cases hn
    · rfl
  obtain ⟨i, hi⟩ := h.2 n halive
  rw [hi] at hn
  cases hn
  exact hi

/-- A worker that runs on a slot serves it. -/
theorem WorkPc.RunsOn.serves {pc : WorkPc ω δ} (h : pc.RunsOn k) : pc.serves = some k := by
  cases pc with
  | relock | unlock | readWork | readJob | process | lockDone | setIdle =>
    exact congrArg some h
  | _ => exact h.elim

/-- In a quiet pool each slot is free. -/
theorem Served.free (h : Served s) (hq : Quiet s) (k : Int) : (s.slot k).phase = .free := by
  cases hk : (s.slot k).phase with
  | free => rfl
  | claimed c =>
    have hok := h.submit c
    rcases hq.1 c with hpc | hpc <;> rw [hpc] at hok
    · exact absurd (by rw [hk]; rfl) (h.not_holder hok.1 k)
    · exact absurd hk (hok k)
  | running c n =>
    have hruns := h.awake k c n hk
    rw [hq.waiting hruns.serves] at hruns
    exact hruns.elim
  | lost c => exact absurd hk (h.found k c)

/-- Each submission that has stored a pair has been served when the pool is quiet. -/
theorem Served.noneLost (h : Served s) : NoneLost s := by
  intro hq
  refine ⟨fun c k hst => ?_, fun k hk hlt => h.idle k hk hlt (h.free hq k)⟩
  rcases h.stored c k hst with hfin | hholder
  · obtain ⟨n, i, hi, hruns, hserves⟩ := h.finished c hfin
    obtain rfl : k = i := Option.some.inj (hst.symm.trans hi)
    exact ⟨n, hq.waiting (hserves h.killed), hruns⟩
  · rw [h.free hq k] at hholder
    cases hholder

/-- **No job lost**, in every run that also has each submission that has stored a pair find a worker
waiting on its slot when it signals. -/
theorem noneLost_of_signalsWaiting {min max : Int}
    (h : (machine w ω δ min max).Reach
      (fun s a => Calm s a ∧ NeverDeletes s a ∧ SignalsWaiting s a) s) : NoneLost s := by
  have hserved : Served s := h.invariant (fun _ hinit => .init hinit)
    fun _ _ _ hI hC hs => hI.step hC.1 hC.2.1 hC.2.2 hs
  exact hserved.noneLost

end

/-- A pool is quiet when its one submission has returned and its one worker waits. -/
theorem Alone.quiet {s : State w ω δ} {k : Int} (h : Alone s) (hc : (s.call 0).pc = .returned)
    (hn : s.waitsOn 0 k = true) : Quiet s := by
  refine ⟨fun c => ?_, fun n halive => ?_⟩
  · rcases eq_or_ne c 0 with rfl | hne
    · exact .inr hc
    · exact .inl (h.1 c hne)
  · rcases eq_or_ne n 0 with rfl | hne
    · exact ⟨k, State.waitsOn_iff.1 hn⟩
    · unfold Thread.alive at halive
      rw [h.2 n hne] at halive
      cases halive

/-- A step of submission `0` other than a `pthread_create`, or of a worker. -/
def soloStep : Act w ω δ → Bool
  | .call c _ _ | .submit c | .signal c _ => c == 0
  | .work _ => true
  | .create _ _ | .spurious _ | .manage => false

theorem Alone.step_of_solo {s s' : State w ω δ} {a : Act w ω δ} (h : Alone s)
    (ha : soloStep a = true) (hs : ThreadPool.step s a = some s') : Alone s' := by
  refine h.step hs (fun c hc => ?_) (fun c id he => ?_) fun he => ?_
  · cases a with
    | call | submit | signal =>
      cases hc
      exact eq_of_beq ha
    | create => cases ha
    | work | spurious | manage => cases hc
  · subst he
    cases ha
  · subst he
    cases ha

/-- Worker `0` waits, runs the job of submission `0` and waits again. -/
def jobDone : List (Act 64 Nat Nat) :=
  List.replicate 4 (Act.work 0) ++
    .call 0 10 20 :: List.replicate 7 (Act.submit 0) ++ .signal 0 (some 0) ::
    List.replicate 10 (Act.work 0)

/-- The pool is quiet, and the job has been run. -/
theorem jobDone_noneLost :
    ∃ s, (machine 64 Nat Nat 1 1).Reach
        (fun s a => Calm s a ∧ NeverDeletes s a ∧ SignalsWaiting s a) s ∧
      Quiet s ∧ (s.call 0).stored = some 0 ∧ NoneLost s := by
  have hrun : ((machine 64 Nat Nat 1 1).runChecked (fun s a => plainStep s a && soloStep a)
      (idlePool 1 1) jobDone).map
      (fun s => ((s.call 0).pc, s.waitsOn 0 0, (s.call 0).stored)) =
        some (.returned, true, some 0) := by
    decide +kernel
  obtain ⟨s, hs, hend⟩ := Option.map_eq_some_iff.1 hrun
  obtain ⟨hpc, hend⟩ := Prod.mk.inj hend
  obtain ⟨hwaits, hstored⟩ := Prod.mk.inj hend
  obtain ⟨hr, halone⟩ := @Machine.Run.of_checked _ _ (machine 64 Nat Nat 1 1)
    (fun s a => Calm s a ∧ NeverDeletes s a ∧ SignalsWaiting s a) Alone _
    (fun _ _ _ hchk => of_plainStep (Bool.and_eq_true_iff.1 hchk).1)
    (fun _ _ _ hI hchk => hI.step_of_solo (Bool.and_eq_true_iff.1 hchk).2) _ _ _
    (alone_idlePool le_rfl) hs
  have hreach : (machine 64 Nat Nat 1 1).Reach
      (fun s a => Calm s a ∧ NeverDeletes s a ∧ SignalsWaiting s a) s :=
    ⟨_, _, idlePool_initialised (by decide) (by decide), hr⟩
  exact ⟨s, hreach, halone.quiet hpc hwaits, hstored, noneLost_of_signalsWaiting hreach⟩

/-- Submission `0` signals before worker `0` waits. -/
def earlySignal : List (Act 64 Nat Nat) :=
  .call 0 10 20 :: List.replicate 7 (.submit 0) ++ .signal 0 none :: List.replicate 4 (.work 0)

/-- **An early signal loses a job**: the pool is quiet, and its slot is busy. -/
theorem earlySignal_losesJob :
    ¬ ∀ s, (machine 64 Nat Nat 1 1).Reach
      (fun s a => NeverDeletes s a ∧ ∀ n, a ≠ .spurious n) s → NoneLost s := by
  intro hall
  have hrun : ((machine 64 Nat Nat 1 1).runChecked (fun _ a => soloStep a) (idlePool 1 1)
      earlySignal).map (fun s => ((s.call 0).pc, s.waitsOn 0 0, (s.slot 0).isBusy, s.curThNum)) =
        some (.returned, true, true, 1) := by
    decide +kernel
  obtain ⟨s, hs, hend⟩ := Option.map_eq_some_iff.1 hrun
  obtain ⟨hpc, hend⟩ := Prod.mk.inj hend
  obtain ⟨hwaits, hend⟩ := Prod.mk.inj hend
  obtain ⟨hbusy, hcur⟩ := Prod.mk.inj hend
  obtain ⟨hr, halone⟩ := @Machine.Run.of_checked _ _ (machine 64 Nat Nat 1 1)
    (fun s a => NeverDeletes s a ∧ ∀ n, a ≠ .spurious n) Alone _
    (fun _ a _ hchk => by
      cases a with
      | spurious | manage => cases hchk
      | _ => exact ⟨trivial, nofun⟩)
    (fun _ _ _ hI hchk => hI.step_of_solo hchk) _ _ _ (alone_idlePool le_rfl) hs
  have hreach : (machine 64 Nat Nat 1 1).Reach
      (fun s a => NeverDeletes s a ∧ ∀ n, a ≠ .spurious n) s :=
    ⟨_, _, idlePool_initialised (by decide) (by decide), hr⟩
  have hidle := (hall s hreach (halone.quiet hpc hwaits)).2 0 le_rfl (by rw [hcur]; decide)
  exact absurd (hbusy.symm.trans hidle) nofun

end LinuxTraining.ThreadPool
