import LinuxTraining.ThreadPool.Frame
import LinuxTraining.ThreadPool.Manage

/-!
# The thread pool: `tp_delete_thread`

`ShrinksIdle` says that `tp_delete_thread` kills the worker and destroys the lock and the condition
variable of an idle slot without a job, the one that its decrement removes, and that no submission
locks or signals a slot that is destroyed. `shrinksIdle_of_shrinksApart` are the runs in which
submissions keep away from the slot that goes; `claimDuringDelete_killsBusy` is a run in which one
does not.
-/

namespace LinuxTraining.ThreadPool

open Lib

variable {w : Nat} {ω δ : Type}

/-- The slot is idle, nobody holds it, and all jobs that were stored in it are finished. -/
def Unused (s : State w ω δ) (k : Int) : Prop :=
  (s.slot k).isBusy = false ∧ (s.slot k).phase.holder = none ∧
    ∀ c, (s.call c).stored = some k → (s.call c).finished = true

/-- The kill and the destroys of `tp_delete_thread` are of one unused slot, which the decrement
removes; and no submission is about to lock or to signal a destroyed slot. -/
structure ShrinksIdle (s : State w ω δ) : Prop where
  kill : ∀ k, s.manager = .kill k → Unused s k
  destroyLock : ∀ k, s.manager = .destroyLock k → Unused s k ∧ s.killed.head? = some k
  destroyCond : ∀ k, s.manager = .destroyCond k → Unused s k ∧ s.killed.head? = some k
  decrement : ∀ v, s.manager = .decWrite v → s.curThNum = v ∧ s.killed.head? = some (v - 1)
  lock : ∀ c i, (s.call c).pc = .lock i → ¬ (s.slot i).Destroyed
  signal : ∀ c i, (s.call c).pc = .signal i ∨ (∃ grown, (s.call c).pc = .wake grown i) →
    ¬ (s.slot i).Destroyed

section
variable {s : State w ω δ} {i : Int}

/-- The slot that goes is unused. -/
theorem Inv.unused (h : Inv s) (hcl : Closing s) : Unused s (s.curThNum - 1) := by
  have hfree : (s.slot (s.curThNum - 1)).phase = .free := by
    by_contra hne
    exact absurd ((h.busy _ hne).symm.trans hcl.2.1) nofun
  refine ⟨hcl.2.1, by rw [hfree]; rfl, fun c hc => (h.stored c _ hc).resolve_right ?_⟩
  rw [hfree]
  nofun

/-- A slot below `cur_th_num` is destroyed while it goes only. -/
theorem Inv.not_destroyed (h : Inv s) (hi : i < s.curThNum)
    (hno : Closing s → i ≠ s.curThNum - 1) : ¬ (s.slot i).Destroyed := by
  intro hd
  rcases (h.destroyed i hd).2 with hge | ⟨hm, he⟩
  · exact absurd hi (not_lt.2 hge)
  · exact hno (h.manage.closing hm) he

/-- A slot that a submission holds is not the one that goes. -/
theorem Claims.not_destroyed {c : Nat} (hc : Claims s c i) (h : Inv s) (hi : i < s.curThNum) :
    ¬ (s.slot i).Destroyed := by
  refine h.not_destroyed hi fun hcl he => ?_
  have hbusy := h.busy i (by rw [hc.1]; nofun)
  rw [he] at hbusy
  exact absurd (hbusy.symm.trans hcl.2.1) nofun

/-- The annotations say that the pool shrinks by idle slots. -/
theorem Inv.shrinksIdle (h : Inv s) : ShrinksIdle s := by
  have hman := h.manage
  refine ⟨fun k hpc => ?_, fun k hpc => ?_, fun k hpc => ?_, fun v hpc => ?_, fun c i hpc => ?_,
    fun c i hpc => ?_⟩
  · rw [hpc] at hman
    obtain ⟨hcl, rfl⟩ := hman
    exact h.unused hcl
  · rw [hpc] at hman
    obtain ⟨hcl, rfl⟩ := hman
    exact ⟨h.unused hcl.1, hcl.2.1⟩
  · rw [hpc] at hman
    obtain ⟨hcl, rfl⟩ := hman
    exact ⟨h.unused hcl.1, hcl.2.1⟩
  · rw [hpc] at hman
    obtain ⟨hcl, rfl⟩ := hman
    exact ⟨rfl, hcl.2.1⟩
  · have hok := h.submit c
    rw [hpc] at hok
    refine h.not_destroyed hok.2 fun hcl he => hcl.2.2.1 c ?_
    rw [hpc]
    exact he
  · have hok := h.submit c
    rcases hpc with hpc | ⟨grown, hpc⟩ <;> rw [hpc] at hok
    · exact hok.1.not_destroyed h hok.2.1
    · cases grown with
      | false => exact hok.2
      | true => exact Claims.not_destroyed hok.1 h hok.2.1

/-- **The pool shrinks by idle slots**, in every run that meets the conditions. -/
theorem shrinksIdle_of_shrinksApart {min max : Int}
    (h : (machine w ω δ min max).Reach (fun s a => Calm s a ∧ ShrinksApart s a) s) :
    ShrinksIdle s :=
  (Inv.of_reach h).shrinksIdle

end

/-- Submission `0` adds slot `0`, and worker `0` runs its job and waits again. -/
def growAndRun : List (Act 64 Nat Nat) :=
  .call 0 10 20 :: List.replicate 9 (Act.submit 0) ++ .create 0 (some 1) ::
    List.replicate 4 (Act.submit 0) ++ List.replicate 4 (Act.work 0) ++ .signal 0 (some 0) ::
    List.replicate 10 (Act.work 0)

/-- A step that keeps the conditions in a pool of submission `0` and worker `0`: the others are done
before the manager begins. -/
def inTurn (s : State w ω δ) : Act w ω δ → Bool
  | .call c _ _ => c == 0
  | .submit c => c == 0 && decide (s.manager = .sleep)
  | .signal c (some _) => c == 0 &&
    match (s.call c).pc with
    | .wake true _ => true
    | _ => false
  | .create c (some _) => c == 0 && s.created == 0
  | .work _ => s.killed.isEmpty && decide (s.manager = .sleep)
  | .manage =>
    match s.manager with
    | .delBusy k => decide ((s.call 0).pc = .returned ∧ s.curThNum = k + 1 ∧
      (s.slot k).worker = some 0)
    | .kill k => decide ((s.slot k).worker = some 0)
    | _ => true
  | .signal _ none | .create _ none | .spurious _ => false

theorem Alone.of_inTurn {s : State w ω δ} {a : Act w ω δ} (h : Alone s) (ha : inTurn s a) :
    Calm s a ∧ ShrinksApart s a := by
  cases a with
  | call => exact ⟨trivial, trivial⟩
  | submit c =>
    refine ⟨trivial, fun hm => ?_⟩
    rw [of_decide_eq_true (Bool.and_eq_true_iff.1 ha).2] at hm
    exact hm.elim
  | signal c woken =>
    cases woken with
    | none => cases ha
    | some n =>
      refine ⟨fun i hpc => ?_, trivial⟩
      have hwake := (Bool.and_eq_true_iff.1 ha).2
      rw [hpc] at hwake
      cases hwake
  | create c id =>
    cases id with
    | none => cases ha
    | some id => exact ⟨trivial, trivial⟩
  | work n =>
    obtain ⟨hkilled, hm⟩ := Bool.and_eq_true_iff.1 ha
    refine ⟨trivial, fun hs => ?_⟩
    rcases hs with hne | hdel
    · exact absurd (List.isEmpty_iff.1 hkilled) hne
    · rw [of_decide_eq_true hm] at hdel
      exact hdel.elim
  | spurious => cases ha
  | manage =>
    refine ⟨trivial, fun k hk _ => ?_⟩
    dsimp only [inTurn] at ha
    rw [hk] at ha
    obtain ⟨hpc, hcur, hworker⟩ := of_decide_eq_true ha
    refine ⟨hcur, fun c => ?_, fun n hn => ?_⟩
    · rcases eq_or_ne c 0 with rfl | hne
      · rw [hpc]
        exact id
      · rw [h.1 c hne]
        exact id
    · rcases eq_or_ne n 0 with rfl | hne
      · exact hworker
      · rw [h.2 n hne] at hn
        cases hn

theorem Alone.step_of_inTurn {s s' : State w ω δ} {a : Act w ω δ} (h : Alone s)
    (ha : inTurn s a = true) (hs : ThreadPool.step s a = some s') : Alone s' := by
  refine h.step hs (fun c hc => ?_) (fun c id he => ?_) fun he k hk => ?_
  · cases a with
    | call =>
      cases hc
      exact eq_of_beq ha
    | submit =>
      cases hc
      exact eq_of_beq (Bool.and_eq_true_iff.1 ha).1
    | signal c woken =>
      cases hc
      cases woken with
      | none => cases ha
      | some => exact eq_of_beq (Bool.and_eq_true_iff.1 ha).1
    | create c id =>
      cases hc
      cases id with
      | none => cases ha
      | some => exact eq_of_beq (Bool.and_eq_true_iff.1 ha).1
    | work | spurious | manage => cases hc
  · subst he
    cases id with
    | none => cases ha
    | some => exact eq_of_beq (Bool.and_eq_true_iff.1 ha).2
  · subst he
    dsimp only [inTurn] at ha
    rw [hk] at ha
    exact of_decide_eq_true ha

/-- The manager is about to decrement `cur_th_num` after the job. -/
theorem growAndRun_shrinksIdle :
    ∃ s, (machine 64 Nat Nat 0 1).Reach (fun s a => Calm s a ∧ ShrinksApart s a) s ∧
      s.manager = .decWrite 1 ∧ (s.slot 0).Destroyed ∧ ShrinksIdle s := by
  have hrun : ((machine 64 Nat Nat 0 1).runChecked inTurn (idlePool 0 1)
      (growAndRun ++ List.replicate 15 .manage)).map
      (fun s => (s.manager, (s.slot 0).threadLock)) = some (.decWrite 1, .destroyed) := by
    decide +kernel
  obtain ⟨s, hs, hend⟩ := Option.map_eq_some_iff.1 hrun
  obtain ⟨hmanager, hlock⟩ := Prod.mk.inj hend
  obtain ⟨hr, -⟩ := @Machine.Run.of_checked _ _ (machine 64 Nat Nat 0 1)
    (fun s a => Calm s a ∧ ShrinksApart s a) Alone _ (fun _ _ hI => hI.of_inTurn)
    (fun _ _ _ hI => hI.step_of_inTurn) _ _ _ (alone_idlePool zero_le_one) hs
  have hreach : (machine 64 Nat Nat 0 1).Reach (fun s a => Calm s a ∧ ShrinksApart s a) s :=
    ⟨_, _, idlePool_initialised (by decide) (by decide), hr⟩
  exact ⟨s, hreach, hmanager, .inl hlock, shrinksIdle_of_shrinksApart hreach⟩

/-- The manager finds slot `0` idle; submission `1` marks it busy; the manager goes on. -/
def claimDuringDelete : List (Act 64 Nat Nat) :=
  growAndRun ++ List.replicate 8 .manage ++ .call 1 11 21 :: List.replicate 4 (.submit 1) ++
    [.manage]

/-- **A claim during a deletion has the worker of a busy slot killed**. -/
theorem claimDuringDelete_killsBusy :
    ¬ ∀ s, (machine 64 Nat Nat 0 1).Reach Machine.anyStep s → ShrinksIdle s := by
  intro hall
  have hrun : ((machine 64 Nat Nat 0 1).runFrom (idlePool 0 1) claimDuringDelete).map
      (fun s => (s.manager, (s.slot 0).isBusy)) = some (.kill 0, true) := by
    decide +kernel
  obtain ⟨s, hs, hend⟩ := Option.map_eq_some_iff.1 hrun
  obtain ⟨hmanager, hbusy⟩ := Prod.mk.inj hend
  have hreach : (machine 64 Nat Nat 0 1).Reach Machine.anyStep s :=
    ⟨_, _, idlePool_initialised (by decide) (by decide), .of_runFrom (fun _ _ _ => trivial) hs⟩
  have hidle := ((hall s hreach).kill 0 hmanager).1
  exact absurd (hbusy.symm.trans hidle) nofun

end LinuxTraining.ThreadPool
