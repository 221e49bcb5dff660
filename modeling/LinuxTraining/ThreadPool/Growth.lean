import LinuxTraining.ThreadPool.Limits

/-!
# The thread pool: a growth that fails

`tp_add_thread` marks the new slot busy and increments `cur_th_num` before it calls
`pthread_create`. When that fails it passes the slot, which lies within the array, to `free`, and
returns `FALSE`: nothing that it has done is undone. `failedGrowth_never`: whatever the state of the
pool, and whatever happens besides, a failed growth does not leave the pool as it was.
-/

namespace LinuxTraining.ThreadPool

open Lib

variable {w : Nat} {ω δ : Type}

/-- `tp_add_thread` by submission `c`, from its test to the failure of `pthread_create`. -/
def failedGrowth (c : Nat) : List (Act w ω δ) :=
  List.replicate 7 (Act.submit c) ++ [.create c none]

/-- The pool when `tp_add_thread`, by submission `c`, is about to call `pthread_create` for slot
`n`. -/
def State.growing (s : State w ω δ) (c : Nat) (i n : Int) : State w ω δ :=
  { (s.setSlot n fun x => { x with
      isBusy := true, threadCond := .live, threadLock := .live, owner := none,
      phase := .claimed c }).setCall c fun x => { x with claimed := some n, pc := .create i n } with
    curThNum := n + 1 }

/-- The pool is as it was: as many slots, with what they held, and nothing more given to `free`. -/
structure AsItWas (s t : State w ω δ) : Prop where
  curThNum : t.curThNum = s.curThNum
  slots : ∀ i, i < s.curThNum → t.slot i = s.slot i
  freed : t.freed = s.freed

/-- What a failed growth leaves: one more slot, which is busy, is given to `free` within the array,
and has no worker that it did not have; the slots below it are as they were. -/
structure LeftBehind (s t : State w ω δ) : Prop where
  counted : t.curThNum = s.curThNum + 1
  busy : (t.slot s.curThNum).isBusy = true
  workerless : (t.slot s.curThNum).worker = (s.slot s.curThNum).worker ∧ t.created = s.created
  freed : t.freed = s.curThNum :: s.freed
  below : ∀ i, i < s.curThNum → t.slot i = s.slot i

section
variable {min max : Int} {s s' t : State w ω δ} {c : Nat} {i : Int} {a : Act w ω δ}
  {as : List (Act w ω δ)}

theorem State.growing_pc (s : State w ω δ) (c : Nat) (i n : Int) :
    ((s.growing c i n).call c).pc = .create i n := by
  simp [State.growing, State.setCall]

/-- The new slot. -/
theorem State.growing_self (s : State w ω δ) (c : Nat) (i n : Int) :
    (s.growing c i n).slot n = { s.slot n with
      isBusy := true, threadCond := .live, threadLock := .live, owner := none,
      phase := .claimed c } := by
  simp [State.growing, State.setCall, State.setSlot]

/-- The other slots. -/
theorem State.growing_of_ne (s : State w ω δ) (c : Nat) (i : Int) {n k : Int} (hne : k ≠ n) :
    (s.growing c i n).slot k = s.slot k := by
  simp [State.growing, State.setCall, State.setSlot, hne]

/-- `tp_add_thread` up to its `pthread_create`, when there is room. -/
theorem run_growing (hpc : (s.call c).pc = .addTest i) (hroom : s.curThNum < s.maxThNum) :
    (machine w ω δ min max).runFrom s (List.replicate 7 (.submit c)) =
      some (s.growing c i s.curThNum) := by
  have hnot : ¬ s.maxThNum ≤ s.curThNum := Int.not_le.2 hroom
  simp [Machine.runFrom, List.replicate, machine, step, submitStep, hpc, hnot, State.submitTo,
    State.setCall, State.setSlot, State.claim, State.growing]

/-- `tp_add_thread` fails. -/
theorem run_failedGrowth (hpc : (s.call c).pc = .addTest i) (hroom : s.curThNum < s.maxThNum) :
    ∃ t, (machine w ω δ min max).runFrom s (failedGrowth c) = some t ∧
      (t.call c).pc = .poolUnlock false i ∧ LeftBehind s t := by
  have hrun : (machine w ω δ min max).runFrom s (failedGrowth c) =
      some ({ s.growing c i s.curThNum with freed := s.curThNum :: s.freed }.submitTo c
        (.poolUnlock false i)) := by
    rw [failedGrowth, Machine.runFrom_append, run_growing hpc hroom, Option.bind_some,
      Machine.runFrom_singleton]
    show createStep _ c none = _
    simp only [createStep, State.growing_pc]
    rfl
  refine ⟨_, hrun, ?_, rfl, ?_, ⟨?_, rfl⟩, rfl, fun k hk => ?_⟩
  · exact State.submitTo_pc ..
  · show ((s.growing c i s.curThNum).slot s.curThNum).isBusy = true
    rw [State.growing_self]
  · show ((s.growing c i s.curThNum).slot s.curThNum).worker = _
    rw [State.growing_self]
  · exact s.growing_of_ne c i (Int.ne_of_lt hk)

/-! ## Whole runs -/

/-- Only a failed `pthread_create` gives a slot to `free`. -/
theorem submitStep_freed (h : submitStep s c = some s') : s'.freed = s.freed := by
  cases submitStep_rule h with
  | lock _ _ _ ht =>
    obtain rfl := lockSlot_eq ht
    rfl
  | _ => rfl

@[inherit_doc submitStep_freed]
theorem signalStep_freed {woken : Option Nat} (h : signalStep s c woken = some s') :
    s'.freed = s.freed := by
  have hsignal : ∀ {k t}, s.condSignal k woken = some t → t.freed = s.freed := by
    intro k t ht
    rcases condSignal_eq ht with ⟨-, rfl⟩ | ⟨n, -, -, rfl⟩ <;> rfl
  unfold signalStep at h
  split at h
  · obtain ⟨t, ht, rfl⟩ := Option.map_eq_some_iff.1 h
    show t.freed = s.freed
    exact hsignal ht
  · obtain ⟨t, ht, rfl⟩ := Option.map_eq_some_iff.1 h
    show t.freed = s.freed
    exact hsignal ht
  · obtain ⟨t, ht, rfl⟩ := Option.map_eq_some_iff.1 h
    show t.freed = s.freed
    exact hsignal ht
  · cases h

@[inherit_doc submitStep_freed]
theorem workStep_freed {n : Nat} (h : workStep s n = some s') : s'.freed = s.freed := by
  cases workStep_rule h with
  | lockWait _ _ _ ht | relock _ _ _ ht | lockDone _ _ _ ht =>
    obtain rfl := lockSlot_eq ht
    rfl
  | process k work job =>
    show (s.record n k work job).freed = s.freed
    unfold State.record
    split <;> rfl
  | setIdle k =>
    show (s.release k).freed = s.freed
    unfold State.release
    dsimp only
    split <;> rfl
  | _ => rfl

@[inherit_doc submitStep_freed]
theorem manageStep_freed (s : State w ω δ) : (manageStep s).freed = s.freed := by
  unfold manageStep
  cases hpc : s.manager with
  | kill k =>
    show (s.killWorker k).freed = s.freed
    unfold State.killWorker
    dsimp only
    split <;> rfl
  | _ => rfl

/-- A failing `pthread_create`. -/
def Act.failsCreate : Act w ω δ → Bool
  | .create _ none => true
  | _ => false

/-- Each failing `pthread_create` gives one more slot to `free`, and no other step gives any. -/
theorem step_freed (h : step s a = some s') :
    s'.freed.length = s.freed.length + if a.failsCreate then 1 else 0 := by
  cases a with
  | call c worker job =>
    obtain ⟨-, rfl⟩ := step_call h
    rfl
  | submit c => exact congrArg List.length (submitStep_freed h)
  | signal c woken => exact congrArg List.length (signalStep_freed h)
  | work n => exact congrArg List.length (workStep_freed h)
  | manage =>
    cases h
    exact congrArg List.length (manageStep_freed s)
  | spurious n =>
    obtain ⟨k, -, rfl⟩ := step_spurious h
    rfl
  | create c id =>
    change createStep s c id = some s' at h
    unfold createStep at h
    split at h
    · split at h <;> cases h
      rfl
    · cases h
      rfl
    · cases h

/-- In a run, as many slots are given to `free` as growths fail. -/
theorem freed_of_run (hr : (machine w ω δ min max).Run Machine.anyStep s as t) :
    t.freed.length = s.freed.length + as.countP Act.failsCreate := by
  induction hr with
  | nil => rfl
  | snoc a _ _ hs ih =>
    rw [step_freed hs, ih, List.countP_append, List.countP_singleton, Nat.add_assoc]

/-- **A failed growth never leaves the pool as it was**: run alone, it returns `FALSE` with a slot
more, which is busy, without a worker, and given to `free`; and in every run, whatever else happens,
something is given to `free`. -/
theorem failedGrowth_never (hpc : (s.call c).pc = .addTest i) (hroom : s.curThNum < s.maxThNum) :
    (∃ t, (machine w ω δ min max).runFrom s (failedGrowth c) = some t ∧
      (t.call c).pc = .poolUnlock false i ∧ LeftBehind s t) ∧
    ∀ as t, (machine w ω δ min max).Run Machine.anyStep s as t → .create c none ∈ as →
      ¬ AsItWas s t := by
  refine ⟨run_failedGrowth hpc hroom, fun as t hr hmem hkept => ?_⟩
  have hfreed := freed_of_run hr
  have hpos : 0 < as.countP Act.failsCreate := List.countP_pos_iff.2 ⟨_, hmem, rfl⟩
  rw [hkept.freed] at hfreed
  omega

end

/-- Submission `0` finds a pool without slots, and is about to add one. -/
def aboutToGrow : List (Act 64 Nat Nat) := .call 0 10 20 :: List.replicate 2 (Act.submit 0)

theorem aboutToGrow_never : ∃ s : State 64 Nat Nat,
    (machine 64 Nat Nat 0 1).runFrom (idlePool 0 1) aboutToGrow = some s ∧
      ∀ as t, (machine 64 Nat Nat 0 1).Run Machine.anyStep s as t → .create 0 none ∈ as →
        ¬ AsItWas s t := by
  have hrun : ((machine 64 Nat Nat 0 1).runFrom (idlePool 0 1) aboutToGrow).map
      (fun s => ((s.call 0).pc, s.curThNum, s.maxThNum)) = some (.addTest 0, 0, 1) := by
    decide +kernel
  obtain ⟨s, hs, heq⟩ := Option.map_eq_some_iff.1 hrun
  simp only [Prod.mk.injEq] at heq
  obtain ⟨hpc, hcur, hmax⟩ := heq
  exact ⟨s, hs, (failedGrowth_never hpc (by rw [hcur, hmax]; decide)).2⟩

/-- In a pool of at most one slot, a failed growth uses up the slot. -/
theorem aboutToGrow_notAsItWas :
    ∃ s t : State 64 Nat Nat,
      (machine 64 Nat Nat 0 1).runFrom (idlePool 0 1) aboutToGrow = some s ∧
      (machine 64 Nat Nat 0 1).runFrom s (failedGrowth 0) = some t ∧
      s.curThNum = 0 ∧ t.curThNum = 1 ∧ t.maxThNum = 1 ∧ t.freed = [0] ∧
      (t.slot 0).isBusy = true ∧ (t.slot 0).worker = none ∧ ¬ AsItWas s t := by
  have hrun : ((machine 64 Nat Nat 0 1).runFrom (idlePool 0 1) aboutToGrow).map
      (fun s => s.curThNum) = some 0 := by
    decide +kernel
  have hrun' : ((machine 64 Nat Nat 0 1).runFrom (idlePool 0 1)
      (aboutToGrow ++ failedGrowth 0)).map
      (fun t => (t.curThNum, t.maxThNum, t.freed, (t.slot 0).isBusy, (t.slot 0).worker)) =
      some (1, 1, [0], true, none) := by
    decide +kernel
  obtain ⟨s, hs, hcur⟩ := Option.map_eq_some_iff.1 hrun
  obtain ⟨t, ht, heq⟩ := Option.map_eq_some_iff.1 hrun'
  rw [Machine.runFrom_append, hs, Option.bind_some] at ht
  simp only [Prod.mk.injEq] at heq
  obtain ⟨hcur', hmax, hfreed, hbusy, hworker⟩ := heq
  refine ⟨s, t, hs, ht, hcur, hcur', hmax, hfreed, hbusy, hworker, fun h => ?_⟩
  have hsame := h.curThNum
  rw [hcur, hcur'] at hsame
  exact absurd hsame (by decide)

end LinuxTraining.ThreadPool
