import LinuxTraining.ThreadPool.Growth
import Mathlib.Data.Nat.Find

/-!
# The thread pool: `tp_process_job` run alone

A call of `tp_process_job` that nobody disturbs. Its steps are forced (`Owned.submits`), so the
call is followed through its loop over the busy slots (`moves_scan`), and then to the idle slot that
it finds (`moves_claim`), through a growth (`moves_grow`), or past the end of a pool that is full of
busy slots (`moves_refused`). In the last case the loop variable is `max_th_num`, and the signal is
sent to a slot that does not exist: `processJob_picksRight_iff` says that this is the only one in
which the call does not do what it should.
-/

namespace LinuxTraining.ThreadPool

open Lib

variable {w : Nat} {ω δ : Type}

/-- The index in `thread_info` of the slot that a step of `tp_process_job` reads, writes or
signals. -/
def SubmitPc.index : SubmitPc → Option Int
  | .lock i | .readBusy i | .setBusy i | .unlockClaimed i | .storeWork i | .storeJob i | .signal i
  | .unlockBusy i | .condInit _ i | .lockInit _ i | .addBusy _ i | .create _ i | .growWork i
  | .growJob i | .wake _ i => some i
  | .idle | .test _ | .poolLock _ | .addTest _ | .addIndex _ | .incRead _ _ | .incWrite _ _ _
  | .growIndex | .poolUnlock _ _ | .returned => none

/-- The slots that the steps of submissions touch. -/
def touches (s : State w ω δ) : Act w ω δ → Option Int
  | .submit c | .signal c _ | .create c _ => (s.call c).pc.index
  | .call _ _ _ | .work _ | .spurious _ | .manage => none

/-- The slots that submissions signal. -/
def signals (s : State w ω δ) : Act w ω δ → Option Int
  | .signal c _ => (s.call c).pc.index
  | _ => none

/-- A step of submission `c`, whose `pthread_create` succeeds. -/
def Owned (c : Nat) (_ : State w ω δ) : Act w ω δ → Prop
  | .submit d | .signal d _ => d = c
  | .create d id => d = c ∧ id ≠ none
  | .call _ _ _ | .work _ | .spurious _ | .manage => False

/-- The system has an id for one more thread. -/
def HasFreshId (s : State w ω δ) : Prop :=
  ∃ id, ∀ m, m < s.created → (s.thread m).alive = true → (s.thread m).id ≠ id

/-- Nobody holds a lock that the call waits for. -/
structure Unlocked (s : State w ω δ) : Prop where
  pool : s.tpLock = none
  slots : ∀ i, 0 ≤ i → i < s.curThNum → (s.slot i).owner = none

/-- Slot `i` is the first idle one. -/
structure FirstIdle (s : State w ω δ) (i : Int) : Prop where
  range : 0 ≤ i ∧ i < s.curThNum
  idle : (s.slot i).isBusy = false
  below : ∀ j, 0 ≤ j → j < i → (s.slot j).isBusy = true

/-- Every slot is busy. -/
def AllBusy (s : State w ω δ) : Prop :=
  ∀ j, 0 ≤ j → j < s.curThNum → (s.slot j).isBusy = true

/-- Slot `i` has become busy with the job of submission `c`, and no other slot has changed. -/
structure Given (s t : State w ω δ) (c : Nat) (i : Int) : Prop where
  busy : (t.slot i).isBusy = true
  work : (t.slot i).thWork = (s.call c).worker
  job : (t.slot i).thJob = (s.call c).job
  others : ∀ k, k ≠ i → t.slot k = s.slot k

/-- The call of submission `c`, which took the pool from `s` to `t` and touched and signalled these
slots, has given its job to the right slot, and has stayed inside the array. -/
structure PicksRight (s t : State w ω δ) (c : Nat) (touched signalled : List Int) : Prop where
  reuses : ∀ i, FirstIdle s i → Given s t c i ∧ t.curThNum = s.curThNum ∧ signalled = [i]
  grows : AllBusy s → s.curThNum < s.maxThNum →
    Given s t c s.curThNum ∧ t.curThNum = s.curThNum + 1 ∧ signalled = [s.curThNum]
  inside : ∀ k ∈ touched, 0 ≤ k ∧ k < t.curThNum ∧ t.curThNum ≤ s.maxThNum

/-! ## The steps of one submission are forced -/

section
variable {min max : Int} {s s' t u v : State w ω δ} {a : Act w ω δ} {c n m : Nat} {i : Int}
  {as : List (Act w ω δ)} {l l' : List Int} {Q : State w ω δ → Prop} {F : Prop}

/-- A step of submission `c`, whose `pthread_create` succeeds, by its kind. -/
inductive CallStep (s : State w ω δ) (c : Nat) : Act w ω δ → State w ω δ → Prop
  | submit {t : State w ω δ} (h : submitStep s c = some t) : CallStep s c (.submit c) t
  | signal {t : State w ω δ} (woken : Option Nat) (h : signalStep s c woken = some t) :
      CallStep s c (.signal c woken) t
  | create {t : State w ω δ} (id : BitVec w) (h : createStep s c (some id) = some t) :
      CallStep s c (.create c (some id)) t

theorem Owned.callStep (h : Owned c s a) (ha : step s a = some t) : CallStep s c a t := by
  cases a with
  | submit d =>
    cases h
    exact .submit ha
  | signal d woken =>
    cases h
    exact .signal woken ha
  | create d id =>
    obtain ⟨rfl, hid⟩ := h
    obtain ⟨id, rfl⟩ := Option.ne_none_iff_exists'.1 hid
    exact .create id ha
  | call | work | spurious | manage => exact h.elim

/-- The first step of a call that has not returned, and returns. -/
theorem Owned.first (hr : (machine w ω δ min max).Run (Owned c) s as t)
    (hs : (s.call c).pc ≠ .returned) (ht : (t.call c).pc = .returned) :
    ∃ a u bs, as = a :: bs ∧ CallStep s c a u ∧ (machine w ω δ min max).Run (Owned c) u bs t := by
  cases as with
  | nil =>
    cases hr.unique (.nil : (machine w ω δ min max).Run (Owned c) s [] s)
    exact absurd ht hs
  | cons a as =>
    obtain ⟨u, hown, hstep, hr'⟩ := hr.uncons
    exact ⟨a, u, as, rfl, hown.callStep hstep, hr'⟩

/-- A submission that can step neither signals nor creates. -/
theorem submitStep_exclusive (hs : submitStep s c = some s') (woken : Option Nat)
    (id : Option (BitVec w)) : signalStep s c woken = none ∧ createStep s c id = none := by
  unfold submitStep at hs
  unfold signalStep createStep
  cases hpc : (s.call c).pc with
  | idle | signal | create | wake | returned => rw [hpc] at hs; cases hs
  | _ => exact ⟨rfl, rfl⟩

/-- What a signal to slot `i` leaves of the pool. -/
structure Signalled (s t : State w ω δ) (c : Nat) (i : Int) : Prop where
  returned : (t.call c).pc = .returned
  curThNum : t.curThNum = s.curThNum
  pair : (t.slot i).isBusy = (s.slot i).isBusy ∧ (t.slot i).thWork = (s.slot i).thWork ∧
    (t.slot i).thJob = (s.slot i).thJob
  others : ∀ k, k ≠ i → t.slot k = s.slot k

/-- A submission that is about to signal slot `i` signals it and returns. -/
theorem signalStep_signalled {woken : Option Nat} (h : signalStep s c woken = some t)
    (hs : (s.call c).pc = .signal i ∨ ∃ grown, (s.call c).pc = .wake grown i) :
    Signalled s t c i := by
  have hpool : ∀ u : State w ω δ, s.condSignal i woken = some u →
      u.slot = s.slot ∧ u.curThNum = s.curThNum := by
    intro u hu
    rcases condSignal_eq hu with ⟨-, rfl⟩ | ⟨n, -, -, rfl⟩ <;> exact ⟨rfl, rfl⟩
  -- the signal of a submission that holds the slot notes it in the history of the slot
  have hheld : ∀ u : State w ω δ, s.condSignal i woken = some u →
      Signalled s ((u.setSlot i fun x => { x with phase := .signalled c woken }).submitTo c
        .returned) c i := by
    intro u hu
    obtain ⟨hslot, hcur⟩ := hpool u hu
    refine ⟨State.submitTo_pc .., hcur, ?_, fun k hk => ?_⟩
    · rw [← hslot, State.submitTo, State.setCall, State.setSlot_self]
      exact ⟨rfl, rfl, rfl⟩
    · have hset := State.setSlot_of_ne u (fun x => { x with phase := .signalled c woken }) hk
      exact hset.trans (congrFun hslot k)
  unfold signalStep at h
  rcases hs with hs | ⟨grown, hs⟩ <;> rw [hs] at h
  · obtain ⟨u, hu, rfl⟩ := Option.map_eq_some_iff.1 h
    exact hheld u hu
  · cases grown with
    | true =>
      obtain ⟨u, hu, rfl⟩ := Option.map_eq_some_iff.1 h
      exact hheld u hu
    | false =>
      obtain ⟨u, hu, rfl⟩ := Option.map_eq_some_iff.1 h
      obtain ⟨hslot, hcur⟩ := hpool u hu
      refine ⟨State.submitTo_pc .., hcur, ?_, fun k hk => congrFun hslot k⟩
      rw [← hslot]
      exact ⟨rfl, rfl, rfl⟩

/-- Steps that a call takes without a signal or a creation are taken by each of its runs. -/
theorem Owned.submits (hs : (machine w ω δ min max).runFrom s (List.replicate n (.submit c)) =
      some t) (hr : (machine w ω δ min max).Run (Owned c) s as u)
    (hu : (u.call c).pc = .returned) :
    ∃ bs, as = List.replicate n (.submit c) ++ bs ∧
      (machine w ω δ min max).Run (Owned c) t bs u := by
  induction n generalizing s as with
  | zero =>
    cases hs
    exact ⟨as, rfl, hr⟩
  | succ n ih =>
    obtain ⟨s', hone, hrest⟩ := Option.bind_eq_some_iff.1 hs
    replace hone : submitStep s c = some s' := hone
    have hpc : (s.call c).pc ≠ .returned := by
      intro hpc
      rw [submitStep, hpc] at hone
      cases hone
    obtain ⟨a, t', bs, rfl, hstep, hr'⟩ := Owned.first hr hpc hu
    cases hstep with
    | submit h =>
      cases h.symm.trans hone
      obtain ⟨bs, rfl, hbs⟩ := ih hrest hr'
      exact ⟨bs, rfl, hbs⟩
    | signal woken h =>
      rw [(submitStep_exclusive hone woken none).1] at h
      cases h
    | create id h =>
      rw [(submitStep_exclusive hone none (some id)).2] at h
      cases h

/-- A call that has returned takes no more steps. -/
theorem Owned.returned (hr : (machine w ω δ min max).Run (Owned c) s as t)
    (hs : (s.call c).pc = .returned) : as = [] := by
  cases as with
  | nil => rfl
  | cons a as =>
    obtain ⟨t', hown, hstep, -⟩ := hr.uncons
    cases hown.callStep hstep with
    | submit h =>
      rw [submitStep, hs] at h
      cases h
    | signal woken h =>
      rw [signalStep, hs] at h
      cases h
    | create id h =>
      unfold createStep at h
      rw [hs] at h
      cases h

/-- A call that is about to signal does so and has returned. -/
theorem Owned.signals (hr : (machine w ω δ min max).Run (Owned c) s as t)
    (hs : (s.call c).pc = .signal i ∨ ∃ grown, (s.call c).pc = .wake grown i)
    (ht : (t.call c).pc = .returned) :
    ∃ woken, as = [.signal c woken] ∧ signalStep s c woken = some t := by
  have hpc : (s.call c).pc ≠ .returned := by
    rcases hs with hs | ⟨grown, hs⟩ <;> rw [hs] <;> exact SubmitPc.noConfusion
  obtain ⟨a, u, bs, rfl, hstep, hr'⟩ := Owned.first hr hpc ht
  cases hstep with
  | submit h =>
    unfold submitStep at h
    rcases hs with hs | ⟨grown, hs⟩ <;> rw [hs] at h <;> cases h
  | signal woken h =>
    obtain rfl := Owned.returned hr' (signalStep_signalled h hs).returned
    cases hr'.unique (.nil : (machine w ω δ min max).Run (Owned c) u [] u)
    exact ⟨woken, rfl, h⟩
  | create id h =>
    unfold createStep at h
    rcases hs with hs | ⟨grown, hs⟩ <;> rw [hs] at h <;> cases h

/-- A call that is about to create a worker does so. -/
theorem Owned.creates (hr : (machine w ω δ min max).Run (Owned c) s as t) {k : Int}
    (hs : (s.call c).pc = .create i k) (ht : (t.call c).pc = .returned) :
    ∃ id u bs, as = .create c (some id) :: bs ∧ createStep s c (some id) = some u ∧
      (machine w ω δ min max).Run (Owned c) u bs t := by
  have hpc : (s.call c).pc ≠ .returned := by
    rw [hs]
    exact SubmitPc.noConfusion
  obtain ⟨a, u, bs, rfl, hstep, hr'⟩ := Owned.first hr hpc ht
  cases hstep with
  | submit h =>
    rw [submitStep, hs] at h
    cases h
  | signal woken h =>
    rw [signalStep, hs] at h
    cases h
  | create id h => exact ⟨id, u, bs, rfl, h, hr'⟩

/-! ## The parts of a call -/

/-- From `s`, submission `c` takes `n` steps to `t` and touches the slots `l`. -/
structure Moves (min max : Int) (s t : State w ω δ) (c n : Nat) (l : List Int) : Prop where
  run : (machine w ω δ min max).runFrom s (List.replicate n (.submit c)) = some t
  touched : (machine w ω δ min max).events touches s (List.replicate n (.submit c)) = l

theorem Moves.trans (h : Moves min max s t c n l) (h' : Moves min max t u c m l') :
    Moves min max s u c (n + m) (l ++ l') := by
  refine ⟨?_, ?_⟩
  · rw [← List.replicate_append_replicate, Machine.runFrom_append, h.run, Option.bind_some, h'.run]
  · rw [← List.replicate_append_replicate, Machine.events_append _ h.run, h.touched, h'.touched]

@[simp] theorem State.submitTo_submitTo (s : State w ω δ) (c : Nat) (pc pc' : SubmitPc) :
    (s.submitTo c pc).submitTo c pc' = s.submitTo c pc' := by
  simp [State.submitTo, State.setCall]

theorem State.submitTo_withLock (s : State w ω δ) (c : Nat) (o : Option Nat) (pc pc' : SubmitPc) :
    State.submitTo { s.submitTo c pc with tpLock := o } c pc' =
      { s with tpLock := o }.submitTo c pc' := by
  simp [State.submitTo, State.setCall]

theorem State.submitTo_self {pc : SubmitPc} (h : (s.call c).pc = pc) : s.submitTo c pc = s := by
  subst h
  simp [State.submitTo, State.setCall]

/-- One round of the loop, at a busy slot. -/
theorem moves_round (hpc : (s.call c).pc = .test i) (hi : i < s.curThNum)
    (hbusy : (s.slot i).isBusy = true) (hfree : (s.slot i).owner = none) :
    Moves min max s (s.submitTo c (.test (i + 1))) c 4 [i, i, i] := by
  -- the lock of the slot is free again, as it was
  have hslot : (⟨(s.slot i).threadId, true, (s.slot i).threadCond, (s.slot i).threadLock,
      (s.slot i).thWork, (s.slot i).thJob, none, (s.slot i).worker, (s.slot i).phase⟩ :
      Slot w ω δ) = s.slot i := by
    rw [← hbusy, ← hfree]
  constructor
  · simp [Machine.runFrom, List.replicate, machine, step, submitStep, hpc, hi, hbusy, hfree,
      State.submitTo, State.setCall, State.lockSlot, State.unlockSlot, State.setSlot, hslot]
  · simp [Machine.events, List.replicate, machine, step, submitStep, touches, SubmitPc.index, hpc,
      hi, hbusy, hfree, State.submitTo, State.setCall, State.lockSlot, State.unlockSlot,
      State.setSlot]

/-- The loop over busy slots. -/
theorem moves_scan {k : Nat} (hpc : (s.call c).pc = .test 0) (hk : (k : Int) ≤ s.curThNum)
    (hbusy : ∀ j, 0 ≤ j → j < (k : Int) → (s.slot j).isBusy = true)
    (hfree : ∀ j, 0 ≤ j → j < (k : Int) → (s.slot j).owner = none) :
    ∃ l, Moves min max s (s.submitTo c (.test k)) c (4 * k) l ∧ ∀ j ∈ l, 0 ≤ j ∧ j < (k : Int) := by
  induction k with
  | zero =>
    refine ⟨[], ⟨?_, rfl⟩, nofun⟩
    exact congrArg some (State.submitTo_self hpc).symm
  | succ k ih =>
    push_cast at hk hbusy hfree ⊢
    obtain ⟨l, hmoves, hl⟩ := ih (by omega) (fun j h0 hj => hbusy j h0 (by omega))
      (fun j h0 hj => hfree j h0 (by omega))
    have hround : Moves min max (s.submitTo c (.test k)) _ c 4 [(k : Int), k, k] :=
      moves_round (State.submitTo_pc ..) (show (k : Int) < s.curThNum by omega)
        (hbusy k (by omega) (by omega)) (hfree k (by omega) (by omega))
    rw [State.submitTo_submitTo] at hround
    refine ⟨_, hmoves.trans hround, fun j hj => ?_⟩
    rcases List.mem_append.1 hj with hj | hj
    · have := hl j hj
      omega
    · have : j = k := by simpa using hj
      omega

/-- The pool when the call of submission `c` has stored its job into the idle slot `i`, and is about
to signal it. -/
def State.given (s : State w ω δ) (c : Nat) (i : Int) : State w ω δ :=
  (s.setSlot i fun x => { x with
    isBusy := true, owner := none, thWork := (s.call c).worker, thJob := (s.call c).job,
    phase := .claimed c }).setCall c fun x => { x with
      claimed := some i, stored := some i, pc := .signal i }

/-- The round of the loop at an idle slot. -/
theorem moves_given (hpc : (s.call c).pc = .test i) (hi : i < s.curThNum)
    (hidle : (s.slot i).isBusy = false) (hfree : (s.slot i).owner = none) :
    Moves min max s (s.given c i) c 7 (List.replicate 6 i) := by
  constructor
  · simp [Machine.runFrom, List.replicate, machine, step, submitStep, hpc, hi, hidle, hfree,
      State.submitTo, State.setCall, State.lockSlot, State.unlockSlot, State.setSlot, State.claim,
      State.putWork, State.putJob, State.given]
  · simp [Machine.events, List.replicate, machine, step, submitStep, touches, SubmitPc.index, hpc,
      hi, hidle, hfree, State.submitTo, State.setCall, State.lockSlot, State.unlockSlot,
      State.setSlot, State.claim, State.putWork, State.putJob]

/-- The end of the loop, and the lock of the pool. -/
theorem moves_poolLock (hpc : (s.call c).pc = .test i) (hi : s.curThNum ≤ i)
    (hfree : s.tpLock = none) :
    Moves min max s ({ s with tpLock := some c }.submitTo c (.addTest i)) c 2 [] := by
  have hnot : ¬ i < s.curThNum := Int.not_lt.2 hi
  constructor
  · simp [Machine.runFrom, List.replicate, machine, step, submitStep, hpc, hnot, hfree,
      State.submitTo, State.setCall]
  · simp [Machine.events, List.replicate, machine, step, submitStep, touches, SubmitPc.index, hpc,
      hnot, hfree, State.submitTo, State.setCall]

/-- A growth that is refused, and the unlock of the pool. -/
theorem moves_refused (hpc : (s.call c).pc = .addTest i) (hfull : s.maxThNum ≤ s.curThNum) :
    Moves min max s ({ s with tpLock := none }.submitTo c (.wake false i)) c 2 [] := by
  constructor
  · simp [Machine.runFrom, List.replicate, machine, step, submitStep, hpc, hfull, State.submitTo,
      State.setCall]
  · simp [Machine.events, List.replicate, machine, step, submitStep, touches, SubmitPc.index, hpc,
      hfull, State.submitTo, State.setCall]

/-- A growth up to its `pthread_create`. -/
theorem moves_growing (hpc : (s.call c).pc = .addTest i) (hroom : s.curThNum < s.maxThNum) :
    Moves min max s (s.growing c i s.curThNum) c 7 (List.replicate 3 s.curThNum) := by
  have hnot : ¬ s.maxThNum ≤ s.curThNum := Int.not_le.2 hroom
  refine ⟨run_growing hpc hroom, ?_⟩
  simp [Machine.events, List.replicate, machine, step, submitStep, touches, SubmitPc.index, hpc,
    hnot, State.submitTo, State.setCall, State.setSlot, State.claim]

/-- The pool when the call of submission `c` has stored its job into the last slot, and is about to
signal it. -/
def State.grown (s : State w ω δ) (c : Nat) (n : Int) : State w ω δ :=
  { (s.setSlot n fun x => { x with
      thWork := (s.call c).worker, thJob := (s.call c).job }).setCall c fun x => { x with
        stored := some n, pc := .wake true n } with
    tpLock := none }

/-- What follows a `pthread_create`, up to the unlock of the pool. -/
theorem moves_grown (hpc : (s.call c).pc = .growIndex) :
    Moves min max s (s.grown c (s.curThNum - 1)) c 4
      [s.curThNum - 1, s.curThNum - 1] := by
  constructor
  · simp [Machine.runFrom, List.replicate, machine, step, submitStep, hpc, State.submitTo,
      State.setCall, State.setSlot, State.putWork, State.putJob, State.grown]
  · simp [Machine.events, List.replicate, machine, step, submitStep, touches, SubmitPc.index, hpc,
      State.submitTo, State.setCall, State.setSlot, State.putWork, State.putJob]

/-! ## The end of a call -/

/-- A signal can be sent, whether or not a worker waits. -/
theorem exists_condSignal (s : State w ω δ) (i : Int) :
    ∃ woken t, s.condSignal i woken = some t := by
  by_cases hwaits : ∃ n, s.waitsOn n i = true
  · obtain ⟨n, hn⟩ := hwaits
    exact ⟨some n, _, if_pos hn⟩
  · refine ⟨none, _, if_pos fun n _ => ?_⟩
    exact Bool.eq_false_iff.2 fun hn => hwaits ⟨n, hn⟩

/-- A submission that is about to signal can do so. -/
theorem exists_signalStep
    (hs : (s.call c).pc = .signal i ∨ ∃ grown, (s.call c).pc = .wake grown i) :
    ∃ woken t, signalStep s c woken = some t := by
  obtain ⟨woken, u, hu⟩ := exists_condSignal s i
  refine ⟨woken, ?_⟩
  unfold signalStep
  rcases hs with hs | ⟨grown, hs⟩ <;> rw [hs]
  · exact ⟨_, Option.map_eq_some_iff.2 ⟨u, hu, rfl⟩⟩
  · cases grown with
    | true => exact ⟨_, Option.map_eq_some_iff.2 ⟨u, hu, rfl⟩⟩
    | false => exact ⟨_, Option.map_eq_some_iff.2 ⟨u, hu, rfl⟩⟩

/-- The steps of a submission other than its signal signal nothing. -/
theorem events_signals (hs : (machine w ω δ min max).runFrom s (List.replicate n (.submit c)) =
    some t) : (machine w ω δ min max).events signals s (List.replicate n (.submit c)) = [] := by
  induction n generalizing s with
  | zero => rfl
  | succ n ih =>
    obtain ⟨s', hone, hrest⟩ := Option.bind_eq_some_iff.1 hs
    rw [List.replicate_succ, Machine.events, hone]
    exact ih hrest

/-- What the rest of the call of submission `c` comes to from `s`: every run of it touches `l`, then
signals slot `i`, and ends in a state of `Q`; and if `F` holds, there is such a run. -/
structure Ends (min max : Int) (F : Prop) (s : State w ω δ) (c : Nat) (Q : State w ω δ → Prop)
    (l : List Int) (i : Int) : Prop where
  all : ∀ as t, (machine w ω δ min max).Run (Owned c) s as t → (t.call c).pc = .returned →
    Q t ∧ (machine w ω δ min max).events touches s as = l ++ [i] ∧
      (machine w ω δ min max).events signals s as = [i]
  one : F → ∃ as t, (machine w ω δ min max).Run (Owned c) s as t ∧ (t.call c).pc = .returned

/-- A call that is about to signal ends with its signal. -/
theorem ends_signal (hs : (s.call c).pc = .signal i ∨ ∃ grown, (s.call c).pc = .wake grown i) :
    Ends min max F s c (Signalled s · c i) [] i := by
  have hindex : (s.call c).pc.index = some i := by
    rcases hs with hs | ⟨grown, hs⟩ <;> rw [hs] <;> rfl
  refine ⟨fun as t hr ht => ?_, ?_⟩
  · obtain ⟨woken, rfl, hstep⟩ := Owned.signals hr hs ht
    have htouches : touches s (.signal c woken) = some i := hindex
    have hsignals : signals s (.signal c woken) = some i := hindex
    have hrun : (machine w ω δ min max).step s (.signal c woken) = some t := hstep
    refine ⟨signalStep_signalled hstep hs, ?_, ?_⟩
    · rw [Machine.events_cons _ hrun, htouches]
      rfl
    · rw [Machine.events_cons _ hrun, hsignals]
      rfl
  · obtain ⟨woken, t, hstep⟩ := exists_signalStep hs
    exact fun _ => ⟨[.signal c woken], t, .cons _ rfl hstep .nil,
      (signalStep_signalled hstep hs).returned⟩

/-- A call that takes forced steps first. -/
theorem Ends.moves (h : Ends min max F u c Q l' i) (hm : Moves min max s u c n l) :
    Ends min max F s c Q (l ++ l') i := by
  refine ⟨fun as t hr ht => ?_, fun hf => ?_⟩
  · obtain ⟨bs, rfl, hbs⟩ := Owned.submits hm.run hr ht
    obtain ⟨hq, htouches, hsignals⟩ := h.all bs t hbs ht
    refine ⟨hq, ?_, ?_⟩
    · rw [Machine.events_append _ hm.run, hm.touched, htouches, List.append_assoc]
    · rw [Machine.events_append _ hm.run, events_signals hm.run, hsignals, List.nil_append]
  · obtain ⟨as, t, hr, ht⟩ := h.one hf
    refine ⟨_, t, .trans (.of_runFrom (fun a ha _ => ?_) hm.run) hr, ht⟩
    rw [List.eq_of_mem_replicate ha]
    exact rfl

/-- A call that creates a worker first, when the system has an id for it. -/
theorem Ends.create {j k : Int} (hs : (s.call c).pc = .create i k) (hfresh : F → HasFreshId s)
    (h : ∀ id u, createStep s c (some id) = some u → Ends min max F u c Q l j) :
    Ends min max F s c Q (k :: l) j := by
  have hindex : ∀ id, touches s (.create c id) = some k := by
    intro id
    rw [touches, hs, SubmitPc.index]
  refine ⟨fun as t hr ht => ?_, fun hf => ?_⟩
  · obtain ⟨id, u, bs, rfl, hstep, hbs⟩ := Owned.creates hr hs ht
    obtain ⟨hq, htouches, hsignals⟩ := (h id u hstep).all bs t hbs ht
    have hrun : (machine w ω δ min max).step s (.create c (some id)) = some u := hstep
    refine ⟨hq, ?_, ?_⟩
    · rw [Machine.events_cons _ hrun, hindex, htouches]
      rfl
    · rw [Machine.events_cons _ hrun, hsignals]
      rfl
  · obtain ⟨id, hid⟩ := hfresh hf
    have hstep : ∃ u, createStep s c (some id) = some u := by
      unfold createStep
      rw [hs]
      exact ⟨_, if_pos hid⟩
    obtain ⟨u, hu⟩ := hstep
    obtain ⟨as, t, hr, ht⟩ := (h id u hu).one hf
    have hown : Owned c s (.create c (some id)) := ⟨rfl, nofun⟩
    exact ⟨_, t, .cons _ hown hu hr, ht⟩

theorem Ends.imp {Q' : State w ω δ → Prop} (h : Ends min max F s c Q l i) (hQ : ∀ t, Q t → Q' t) :
    Ends min max F s c Q' l i := by
  refine ⟨fun as t hr ht => ?_, h.one⟩
  obtain ⟨hq, hevents⟩ := h.all as t hr ht
  exact ⟨hQ t hq, hevents⟩

/-! ## The three calls -/

/-- A signal keeps what the slot has been given. -/
theorem Given.signalled (h : Given s u c i) (h' : Signalled u t c i) : Given s t c i where
  busy := h'.pair.1.trans h.busy
  work := h'.pair.2.1.trans h.work
  job := h'.pair.2.2.trans h.job
  others k hk := (h'.others k hk).trans (h.others k hk)

/-- Where the submission was before makes no difference. -/
theorem Given.of_submitTo {pc : SubmitPc} (h : Given (s.submitTo c pc) t c i) : Given s t c i where
  busy := h.busy
  work := by rw [h.work, State.submitTo, State.setCall_self]
  job := by rw [h.job, State.submitTo, State.setCall_self]
  others := h.others

/-- A call that has come to an idle slot. -/
theorem ends_given (hpc : (s.call c).pc = .test i) (hi : i < s.curThNum)
    (hidle : (s.slot i).isBusy = false) (hfree : (s.slot i).owner = none) :
    Ends min max F s c (fun t => Given s t c i ∧ t.curThNum = s.curThNum) (List.replicate 6 i)
      i := by
  have hsignal : ((s.given c i).call c).pc = .signal i := by simp [State.given, State.setCall]
  have hgiven : Given s (s.given c i) c i := by
    constructor <;> simp +contextual [State.given, State.setSlot, State.setCall]
  have hend : Ends min max F s c _ _ i :=
    (ends_signal (.inl hsignal)).moves (moves_given hpc hi hidle hfree)
  rw [List.append_nil] at hend
  exact hend.imp fun t ht => ⟨hgiven.signalled ht, ht.curThNum⟩

/-- A call that finds an idle slot. -/
theorem ends_reuse (hpc : (s.call c).pc = .test 0) (hfree : Unlocked s) (hi : FirstIdle s i) :
    ∃ l, Ends min max F s c (fun t => Given s t c i ∧ t.curThNum = s.curThNum) l i ∧
      ∀ j ∈ l, 0 ≤ j ∧ j ≤ i := by
  obtain ⟨⟨hpos, hlt⟩, hidle, hbelow⟩ := hi
  obtain ⟨k, rfl⟩ := Int.eq_ofNat_of_zero_le hpos
  obtain ⟨l, hscan, hl⟩ := moves_scan hpc (Int.le_of_lt hlt) hbelow
    fun j h0 hj => hfree.slots j h0 (Int.lt_trans hj hlt)
  have hend : Ends min max F _ c _ _ k :=
    ends_given (State.submitTo_pc s c (.test k)) hlt hidle (hfree.slots k hpos hlt)
  refine ⟨_, (hend.moves hscan).imp fun t ht => ⟨ht.1.of_submitTo, ht.2⟩, fun j hj => ?_⟩
  rcases List.mem_append.1 hj with hj | hj
  · have := hl j hj
    omega
  · obtain rfl := List.eq_of_mem_replicate hj
    omega

/-- A call that has passed the end of the pool with the lock of the pool, when there is no room. -/
theorem ends_refused (hpc : (s.call c).pc = .addTest i) (hfull : s.maxThNum ≤ s.curThNum) :
    Ends min max F s c (·.curThNum = s.curThNum) [] i := by
  have hend : Ends min max F s c _ _ i :=
    (ends_signal (.inr ⟨false, State.submitTo_pc ..⟩)).moves (moves_refused hpc hfull)
  exact hend.imp fun t ht => ht.curThNum

/-- What `pthread_create` for slot `n` leaves of the pool. -/
structure Started (s t : State w ω δ) (c : Nat) (n : Int) : Prop where
  pc : (t.call c).pc = .growIndex
  curThNum : t.curThNum = s.curThNum
  pair : (t.call c).worker = (s.call c).worker ∧ (t.call c).job = (s.call c).job
  busy : (t.slot n).isBusy = (s.slot n).isBusy
  others : ∀ k, k ≠ n → t.slot k = s.slot k

theorem createStep_started {id : BitVec w} (h : createStep s c (some id) = some t) {j : Int}
    (hs : (s.call c).pc = .create i j) : Started s t c j := by
  unfold createStep at h
  rw [hs] at h
  dsimp only at h
  split at h <;> cases h
  constructor <;> simp +contextual [State.submitTo, State.setSlot, State.setCall]

/-- A call that has passed the end of the pool with the lock of the pool, when there is room. -/
theorem ends_growing (hpc : (s.call c).pc = .addTest i) (hroom : s.curThNum < s.maxThNum)
    (hfresh : F → HasFreshId s) :
    Ends min max F s c (fun t => Given s t c s.curThNum ∧ t.curThNum = s.curThNum + 1)
      (List.replicate 6 s.curThNum) s.curThNum := by
  have hcreate : Ends min max F (s.growing c i s.curThNum) c
      (fun t => Given s t c s.curThNum ∧ t.curThNum = s.curThNum + 1)
      (List.replicate 3 s.curThNum) s.curThNum := by
    refine Ends.create (s.growing_pc c i _) hfresh fun id u hu => ?_
    have hmade := createStep_started hu (s.growing_pc c i _)
    have hlast : u.curThNum - 1 = s.curThNum := by
      rw [hmade.curThNum]
      exact Int.add_sub_cancel ..
    have hwake : ((u.grown c s.curThNum).call c).pc = .wake true s.curThNum := by
      simp [State.grown, State.setCall]
    have hmoves : Moves min max u (u.grown c (u.curThNum - 1)) c 4 _ := moves_grown hmade.pc
    rw [hlast] at hmoves
    refine ((ends_signal (.inr ⟨true, hwake⟩)).moves hmoves).imp fun t ht => ⟨.signalled ?_ ht, ?_⟩
    · have hself := s.growing_self c i s.curThNum
      have hcall : ((s.growing c i s.curThNum).call c).worker = (s.call c).worker ∧
          ((s.growing c i s.curThNum).call c).job = (s.call c).job := by
        simp [State.growing, State.setCall, State.setSlot]
      constructor
      · simp [State.grown, State.setSlot, State.setCall, hmade.busy, hself]
      · simp [State.grown, State.setSlot, State.setCall, hmade.pair, hcall]
      · simp [State.grown, State.setSlot, State.setCall, hmade.pair, hcall]
      · intro k hk
        have hother := (hmade.others k hk).trans (s.growing_of_ne c i hk)
        simp [State.grown, State.setSlot, State.setCall, hk, hother]
    · exact ht.curThNum.trans hmade.curThNum
  exact hcreate.moves (moves_growing hpc hroom)

/-- A call that finds every slot busy comes to the lock of the pool. -/
theorem moves_full (hpc : (s.call c).pc = .test 0) (hfree : Unlocked s) (hall : AllBusy s)
    (hpos : 0 ≤ s.curThNum) :
    ∃ n l, Moves min max s ({ s with tpLock := some c }.submitTo c (.addTest s.curThNum)) c n l ∧
      ∀ j ∈ l, 0 ≤ j ∧ j < s.curThNum := by
  obtain ⟨k, hk⟩ := Int.eq_ofNat_of_zero_le hpos
  rw [AllBusy, hk] at hall
  obtain ⟨l, hscan, hl⟩ := moves_scan hpc (Int.le_of_eq hk.symm) hall
    fun j h0 hj => hfree.slots j h0 (hk ▸ hj)
  have hlock : Moves min max _ _ c 2 [] :=
    moves_poolLock (State.submitTo_pc s c (.test k)) (Int.le_of_eq hk) hfree.pool
  have hmoves := hscan.trans hlock
  rw [State.submitTo_withLock, List.append_nil, ← hk] at hmoves
  rw [← hk] at hl
  exact ⟨_, l, hmoves, hl⟩

/-- A call that finds every slot busy, and adds one. -/
theorem ends_grow (hpc : (s.call c).pc = .test 0) (hfree : Unlocked s) (hall : AllBusy s)
    (hpos : 0 ≤ s.curThNum) (hroom : s.curThNum < s.maxThNum) (hfresh : F → HasFreshId s) :
    ∃ l, Ends min max F s c (fun t => Given s t c s.curThNum ∧ t.curThNum = s.curThNum + 1) l
        s.curThNum ∧ ∀ j ∈ l, 0 ≤ j ∧ j ≤ s.curThNum := by
  obtain ⟨n, l, hmoves, hl⟩ := moves_full hpc hfree hall hpos
  have hlocked := State.submitTo_pc { s with tpLock := some c } c (.addTest s.curThNum)
  have hend : Ends min max F _ c _ _ _ := ends_growing hlocked hroom hfresh
  refine ⟨_, (hend.moves hmoves).imp fun t ht => ⟨?_, ht.2⟩, fun j hj => ?_⟩
  · have hgiven := ht.1.of_submitTo
    exact ⟨hgiven.busy, hgiven.work, hgiven.job, hgiven.others⟩
  · rcases List.mem_append.1 hj with hj | hj
    · have := hl j hj
      omega
    · obtain rfl := List.eq_of_mem_replicate hj
      exact ⟨hpos, Int.le_refl _⟩

/-- A call that finds every slot busy and no room for one more: it signals the slot after the
last. -/
theorem ends_full (hpc : (s.call c).pc = .test 0) (hfree : Unlocked s) (hall : AllBusy s)
    (hpos : 0 ≤ s.curThNum) (hfull : s.maxThNum ≤ s.curThNum) :
    ∃ l, Ends min max F s c (·.curThNum = s.curThNum) l s.curThNum := by
  obtain ⟨n, l, hmoves, -⟩ := moves_full hpc hfree hall hpos
  have hlocked := State.submitTo_pc { s with tpLock := some c } c (.addTest s.curThNum)
  have hend : Ends min max F _ c _ _ _ := ends_refused hlocked hfull
  exact ⟨_, hend.moves hmoves⟩

/-! ## The right slot -/

/-- Either some slot is the first idle one, or every slot is busy. -/
theorem firstIdle_or_allBusy (s : State w ω δ) : (∃ i, FirstIdle s i) ∨ AllBusy s := by
  by_cases hall : AllBusy s
  · exact .inr hall
  · have hidle : ∃ n : Nat, (n : Int) < s.curThNum ∧ (s.slot n).isBusy = false := by
      simp only [AllBusy, not_forall] at hall
      obtain ⟨j, h0, hj, hidle⟩ := hall
      obtain ⟨n, rfl⟩ := Int.eq_ofNat_of_zero_le h0
      exact ⟨n, hj, Bool.eq_false_iff.2 hidle⟩
    classical
    obtain ⟨hlt, hfirst⟩ := Nat.find_spec hidle
    refine .inl ⟨Nat.find hidle, ⟨Int.natCast_nonneg _, hlt⟩, hfirst, fun j h0 hj => ?_⟩
    obtain ⟨n, rfl⟩ := Int.eq_ofNat_of_zero_le h0
    have hn := Nat.find_min hidle (Int.ofNat_lt.1 hj)
    by_contra hbusy
    exact hn ⟨Int.lt_trans hj hlt, Bool.eq_false_iff.2 hbusy⟩

/-- There is one first idle slot. -/
theorem FirstIdle.unique {j : Int} (hi : FirstIdle s i) (hj : FirstIdle s j) : i = j := by
  rcases Int.lt_trichotomy i j with hlt | heq | hlt
  · exact absurd (hj.below i hi.range.1 hlt) (Bool.eq_false_iff.1 hi.idle)
  · exact heq
  · exact absurd (hi.below j hj.range.1 hlt) (Bool.eq_false_iff.1 hj.idle)

/-- A pool has no idle slot if all are busy. -/
theorem AllBusy.not_firstIdle (hall : AllBusy s) (hi : FirstIdle s i) : False :=
  absurd (hall i hi.range.1 hi.range.2) (Bool.eq_false_iff.1 hi.idle)

theorem FirstIdle.picksRight (hi : FirstIdle s i) (hmax : s.curThNum ≤ s.maxThNum)
    (hgiven : Given s t c i ∧ t.curThNum = s.curThNum) (hl : ∀ j ∈ l, 0 ≤ j ∧ j ≤ i) :
    PicksRight s t c (l ++ [i]) [i] where
  reuses j hj := by
    obtain rfl := hi.unique hj
    exact ⟨hgiven.1, hgiven.2, rfl⟩
  grows hall _ := (hall.not_firstIdle hi).elim
  inside k hk := by
    have hrange := hi.range
    have hsame := hgiven.2
    have hle : 0 ≤ k ∧ k ≤ i := by
      rcases List.mem_append.1 hk with hk | hk
      · exact hl k hk
      · obtain rfl := List.mem_singleton.1 hk
        exact ⟨hrange.1, Int.le_refl _⟩
    omega

theorem AllBusy.picksRight (hall : AllBusy s) (hpos : 0 ≤ s.curThNum)
    (hroom : s.curThNum < s.maxThNum)
    (hgiven : Given s t c s.curThNum ∧ t.curThNum = s.curThNum + 1)
    (hl : ∀ j ∈ l, 0 ≤ j ∧ j ≤ s.curThNum) : PicksRight s t c (l ++ [s.curThNum]) [s.curThNum] where
  reuses _ hj := (hall.not_firstIdle hj).elim
  grows _ _ := ⟨hgiven.1, hgiven.2, rfl⟩
  inside k hk := by
    have hmore := hgiven.2
    have hle : 0 ≤ k ∧ k ≤ s.curThNum := by
      rcases List.mem_append.1 hk with hk | hk
      · exact hl k hk
      · obtain rfl := List.mem_singleton.1 hk
        exact ⟨hpos, Int.le_refl _⟩
    omega

/-- **Which calls of `tp_process_job` pick the right slot**: run alone in a pool whose locks are
free, a call does what it should, and stays inside the array, if and only if there is an idle slot
or room for one more; and it returns. -/
theorem processJob_picksRight_iff (hmin : 0 ≤ s.minThNum) (hcur : s.minThNum ≤ s.curThNum)
    (hmax : s.curThNum ≤ s.maxThNum) (hpc : (s.call c).pc = .test 0) (hfree : Unlocked s) :
    (∀ as t, (machine w ω δ min max).Run (Owned c) s as t → (t.call c).pc = .returned →
      (PicksRight s t c ((machine w ω δ min max).events touches s as)
          ((machine w ω δ min max).events signals s as) ↔
        (∃ i, 0 ≤ i ∧ i < s.curThNum ∧ (s.slot i).isBusy = false) ∨ s.curThNum < s.maxThNum)) ∧
      (HasFreshId s →
        ∃ as t, (machine w ω δ min max).Run (Owned c) s as t ∧ (t.call c).pc = .returned) := by
  rcases firstIdle_or_allBusy s with ⟨i, hi⟩ | hall
  · obtain ⟨l, hend, hl⟩ := ends_reuse hpc hfree hi
    refine ⟨fun as t hr ht => ⟨fun _ => .inl ⟨i, hi.range.1, hi.range.2, hi.idle⟩, fun _ => ?_⟩,
      hend.one⟩
    obtain ⟨hgiven, htouched, hsignalled⟩ := hend.all as t hr ht
    rw [htouched, hsignalled]
    exact hi.picksRight hmax hgiven hl
  have hpos : 0 ≤ s.curThNum := Int.le_trans hmin hcur
  by_cases hroom : s.curThNum < s.maxThNum
  · obtain ⟨l, hend, hl⟩ := ends_grow hpc hfree hall hpos hroom id
    refine ⟨fun as t hr ht => ⟨fun _ => .inr hroom, fun _ => ?_⟩, hend.one⟩
    obtain ⟨hgiven, htouched, hsignalled⟩ := hend.all as t hr ht
    rw [htouched, hsignalled]
    exact hall.picksRight hpos hroom hgiven hl
  · obtain ⟨l, hend⟩ := ends_full (F := HasFreshId s) hpc hfree hall hpos (Int.not_lt.1 hroom)
    refine ⟨fun as t hr ht => ⟨fun hpicks => ?_, fun hor => ?_⟩, hend.one⟩
    · obtain ⟨hsame, htouched, -⟩ := hend.all as t hr ht
      have hlast := hpicks.inside s.curThNum (by simp [htouched])
      rw [hsame] at hlast
      omega
    · rcases hor with ⟨i, h0, hi, hidle⟩ | hor
      · exact absurd (hall i h0 hi) (Bool.eq_false_iff.1 hidle)
      · exact absurd hor hroom

end

/-- A pool with an idle slot. -/
theorem idlePool_picksRight : ∃ s : State 64 Nat Nat,
    (machine 64 Nat Nat 1 2).runFrom (idlePool 1 2) [.call 0 10 20] = some s ∧
      (∀ as t, (machine 64 Nat Nat 1 2).Run (Owned 0) s as t → (t.call 0).pc = .returned →
        PicksRight s t 0 ((machine 64 Nat Nat 1 2).events touches s as)
          ((machine 64 Nat Nat 1 2).events signals s as)) ∧
      ∃ as t, (machine 64 Nat Nat 1 2).Run (Owned 0) s as t ∧ (t.call 0).pc = .returned := by
  refine ⟨_, rfl, ?_⟩
  have hfree : ∀ i : Int, ((idlePool 1 2).slot i).owner = none := by
    intro i
    simp only [idlePool]
    split <;> rfl
  have hfresh : ∀ m, m < 1 → ((idlePool 1 2).thread m).alive = true →
      ((idlePool 1 2).thread m).id ≠ 2 := by
    decide
  obtain ⟨hall, hone⟩ := processJob_picksRight_iff (c := 0)
    (s := (idlePool 1 2).setCall 0 fun x => { x with worker := 10, job := 20, pc := .test 0 })
    (show (0 : Int) ≤ 1 by decide) (Int.le_refl 1) (show (1 : Int) ≤ 2 by decide) rfl
    ⟨rfl, fun i _ _ => hfree i⟩
  exact ⟨fun as t hr ht => (hall as t hr ht).2 (.inr (show (1 : Int) < 2 by decide)),
    hone ⟨2, hfresh⟩⟩

/-- Submission `0` takes the only slot of the pool, and submission `1` calls. -/
def saturated : List (Act 64 Nat Nat) :=
  .call 0 10 20 :: List.replicate 7 (Act.submit 0) ++ [.signal 0 none, .call 1 30 40]

/-- In a pool that is full of busy slots, a call signals the slot after the last. -/
theorem saturated_not_picksRight :
    ∃ s t : State 64 Nat Nat, ∃ as,
      (machine 64 Nat Nat 1 1).runFrom (idlePool 1 1) saturated = some s ∧
      (machine 64 Nat Nat 1 1).Run (Owned 1) s as t ∧ (t.call 1).pc = .returned ∧
      s.curThNum = 1 ∧ s.maxThNum = 1 ∧ t.curThNum = 1 ∧ Unlocked s ∧ AllBusy s ∧
      (machine 64 Nat Nat 1 1).events touches s as = [0, 0, 0, 1] ∧
      (machine 64 Nat Nat 1 1).events signals s as = [1] ∧
      ¬ PicksRight s t 1 ((machine 64 Nat Nat 1 1).events touches s as)
        ((machine 64 Nat Nat 1 1).events signals s as) := by
  have hrun : ((machine 64 Nat Nat 1 1).runFrom (idlePool 1 1) saturated).map
      (fun s => (s.curThNum, s.maxThNum, s.tpLock, (s.slot 0).owner, (s.slot 0).isBusy)) =
      some (1, 1, none, none, true) := by
    decide +kernel
  have hcall : ((machine 64 Nat Nat 1 1).runFrom (idlePool 1 1)
      (saturated ++ (List.replicate 8 (Act.submit 1) ++ [.signal 1 none]))).map
      (fun t => ((t.call 1).pc, t.curThNum)) = some (.returned, 1) := by
    decide +kernel
  have hevents : ((machine 64 Nat Nat 1 1).runFrom (idlePool 1 1) saturated).map
      (fun s => ((machine 64 Nat Nat 1 1).events touches s
        (List.replicate 8 (Act.submit 1) ++ [.signal 1 none]),
        (machine 64 Nat Nat 1 1).events signals s
        (List.replicate 8 (Act.submit 1) ++ [.signal 1 none]))) = some ([0, 0, 0, 1], [1]) := by
    decide +kernel
  obtain ⟨s, hs, heq⟩ := Option.map_eq_some_iff.1 hrun
  obtain ⟨t, ht, heq'⟩ := Option.map_eq_some_iff.1 hcall
  rw [Machine.runFrom_append, hs, Option.bind_some] at ht
  rw [hs, Option.map_some, Option.some_inj] at hevents
  simp only [Prod.mk.injEq] at heq heq' hevents
  obtain ⟨hcur, hmax, hlock, howner, hbusy⟩ := heq
  obtain ⟨hpc, hcur'⟩ := heq'
  obtain ⟨htouched, hsignalled⟩ := hevents
  have hzero : ∀ i : Int, 0 ≤ i → i < s.curThNum → i = 0 := by omega
  refine ⟨s, t, _, hs, .of_runFrom (fun a ha _ => ?_) ht, hpc, hcur, hmax, hcur',
    ⟨hlock, fun i h0 hi => ?_⟩, fun i h0 hi => ?_, htouched, hsignalled, fun h => ?_⟩
  · rcases List.mem_append.1 ha with ha | ha
    · rw [List.eq_of_mem_replicate ha]
      exact rfl
    · rw [List.mem_singleton.1 ha]
      exact rfl
  · rw [hzero i h0 hi, howner]
  · rw [hzero i h0 hi, hbusy]
  · rw [htouched] at h
    have hlast := h.inside 1 (by decide)
    omega

end LinuxTraining.ThreadPool
