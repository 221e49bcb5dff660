import LinuxTraining.ThreadPool.Close
import LinuxTraining.ThreadPool.Malloc
import LinuxTraining.ThreadPool.ProcessJob

/-!
# The thread pool: the calls as runs

The functions on pools are what the steps of the pool come to when nobody disturbs them. A state and
a pool agree (`Agrees`) on the numbers, on the slots, and on what is in the ledger: a mutex or a
condition variable that is held is live, and a thread that runs is held. An initialised state agrees
with what `tp_init` makes (`init_agrees`), and a call of `tp_process_job`, the end of a job, and a
pass of the manager each lead from agreement to agreement (`processJob_agrees`, `jobDone_agrees`,
`managePass_agrees`).
-/

namespace LinuxTraining.ThreadPool

open Lib Ledger

variable {w : Nat} {ω δ : Type}

/-- A slot, as it is written in `thread_info`. -/
def Slot.info (x : Slot w ω δ) (hasJob : Bool) : Info w ω δ where
  threadId := x.threadId
  isBusy := x.isBusy
  thWork := x.thWork
  thJob := x.thJob
  thread := x.worker
  hasJob := hasJob

/-- A state of the pool and a pool agree. -/
structure Agrees (s : State w ω δ) (p : Pool w ω δ) : Prop where
  minThNum : s.minThNum = p.minThNum
  curThNum : s.curThNum = p.curThNum
  maxThNum : s.maxThNum = p.maxThNum
  created : s.created = p.created
  slots : ∀ i, p.threadInfo i = (s.slot i).info (p.threadInfo i).hasJob
  conds : ∀ i, .cond i ∈ held p.log ↔ (s.slot i).threadCond = .live
  locks : ∀ i, .lock i ∈ held p.log ↔ (s.slot i).threadLock = .live
  threads : ∀ n, (s.thread n).alive = true → .thread n ∈ held p.log

/-- A step of submission `c`, whose `pthread_create` answers this. -/
def Submits (c : Nat) (create : Option (BitVec w)) (_ : State w ω δ) : Act w ω δ → Prop
  | .submit d | .signal d _ => d = c
  | .create d id => d = c ∧ id = create
  | .call _ _ _ | .work _ | .spurious _ | .manage => False

/-- The call of submission `c` ends, and leaves what agrees with `q`. -/
def Leaves (min max : Int) (c : Nat) (create : Option (BitVec w)) (s : State w ω δ)
    (q : Pool w ω δ) : Prop :=
  ∃ as t, (machine w ω δ min max).Run (Submits c create) s as t ∧ (t.call c).pc = .returned ∧
    Agrees t q

section
variable {min max : Int} {s t u : State w ω δ} {p q : Pool w ω δ} {c n m : Nat} {i k : Int}
  {l : List Int} {create : Option (BitVec w)}

theorem Agrees.busy (h : Agrees s p) (i : Int) : (p.threadInfo i).isBusy = (s.slot i).isBusy := by
  rw [h.slots i]
  rfl

/-- A slot is changed in both. -/
theorem Agrees.setSlot (h : Agrees s p) (i : Int) {f : Slot w ω δ → Slot w ω δ}
    {g : Info w ω δ → Info w ω δ} (hinfo : ∀ x b, ∃ b', g (x.info b) = (f x).info b')
    (hcond : ∀ x, (f x).threadCond = x.threadCond) (hlock : ∀ x, (f x).threadLock = x.threadLock) :
    Agrees (s.setSlot i f) (p.setInfo i g) := by
  have hkept : ∀ k, ((s.setSlot i f).slot k).threadCond = (s.slot k).threadCond ∧
      ((s.setSlot i f).slot k).threadLock = (s.slot k).threadLock := by
    intro k
    rcases eq_or_ne k i with rfl | hne
    · rw [State.setSlot_self]
      exact ⟨hcond _, hlock _⟩
    · rw [State.setSlot_of_ne _ _ hne]
      exact ⟨rfl, rfl⟩
  refine ⟨h.minThNum, h.curThNum, h.maxThNum, h.created, fun k => ?_, fun k => ?_, fun k => ?_,
    h.threads⟩
  · rw [setInfo_apply]
    rcases eq_or_ne k i with rfl | hne
    · rw [State.setSlot_self, if_pos rfl, h.slots k]
      obtain ⟨b, hb⟩ := hinfo (s.slot k) (p.threadInfo k).hasJob
      rw [hb]
      rfl
    · rw [State.setSlot_of_ne _ _ hne, if_neg hne]
      exact h.slots k
  · rw [(hkept k).1]
    exact h.conds k
  · rw [(hkept k).2]
    exact h.locks k

/-- What a submission does to its own record. -/
theorem Agrees.setCall (h : Agrees s p) (c : Nat) (f : Submission ω δ → Submission ω δ) :
    Agrees (s.setCall c f) p :=
  ⟨h.minThNum, h.curThNum, h.maxThNum, h.created, h.slots, h.conds, h.locks, h.threads⟩

/-- A slot is changed in what the pool does not show. -/
theorem Agrees.setHidden (h : Agrees s p) (i : Int) {f : Slot w ω δ → Slot w ω δ}
    (hinfo : ∀ x b, (f x).info b = x.info b) (hcond : ∀ x, (f x).threadCond = x.threadCond)
    (hlock : ∀ x, (f x).threadLock = x.threadLock) : Agrees (s.setSlot i f) p := by
  have hsame : p.setInfo i (fun x => x) = p := by simp [Pool.setInfo]
  have hset : Agrees (s.setSlot i f) (p.setInfo i fun x => x) :=
    h.setSlot i (fun x b => ⟨b, (hinfo x b).symm⟩) hcond hlock
  rwa [hsame] at hset

/-- A worker moves on that has been made. -/
theorem Agrees.workTo (h : Agrees s p) (halive : (s.thread n).alive = true) (pc : WorkPc ω δ) :
    Agrees (s.workTo n pc) p := by
  refine ⟨h.minThNum, h.curThNum, h.maxThNum, h.created, h.slots, h.conds, h.locks, fun m hm => ?_⟩
  rcases eq_or_ne m n with rfl | hne
  · exact h.threads m halive
  · rw [State.workTo_of_ne _ _ hne] at hm
    exact h.threads m hm

/-- A signal changes nothing that the pool shows. -/
theorem Agrees.signal (h : Agrees s p) {woken : Option Nat} (hs : signalStep s c woken = some t) :
    Agrees t p := by
  have hwoken : ∀ {i u}, s.condSignal i woken = some u → Agrees u p := by
    intro i u hu
    rcases condSignal_eq hu with ⟨-, rfl⟩ | ⟨n, -, hwait, rfl⟩
    · exact h
    · exact h.workTo (by rw [Thread.alive, hwait]) _
  have hnoted : ∀ {i u} {phase : Phase}, Agrees u p →
      Agrees ((u.setSlot i fun x => { x with phase }).submitTo c .returned) p := by
    intro i u phase hu
    have hset : Agrees (u.setSlot i fun x => { x with phase }) p :=
      hu.setHidden i (fun _ _ => rfl) (fun _ => rfl) fun _ => rfl
    exact hset.setCall c _
  unfold signalStep at hs
  split at hs
  · obtain ⟨u, hu, rfl⟩ := Option.map_eq_some_iff.1 hs
    exact hnoted (hwoken hu)
  · obtain ⟨u, hu, rfl⟩ := Option.map_eq_some_iff.1 hs
    exact hnoted (hwoken hu)
  · obtain ⟨u, hu, rfl⟩ := Option.map_eq_some_iff.1 hs
    exact (hwoken hu).setCall c _
  · cases hs

/-! ## After `tp_init` -/

/-- The loop of `tp_init`, where every `pthread_create` succeeds. -/
theorem initFrom_apply (id : Int → BitVec w) (p : Pool w ω δ) (i : Int) (k : Nat) :
    (initFrom (fun j => some (id j)) p i k).1 = true ∧
    (initFrom (fun j => some (id j)) p i k).2.created = p.created + k ∧
    ∀ j, (initFrom (fun j => some (id j)) p i k).2.threadInfo j =
      if i ≤ j ∧ j < i + k then
        { p.threadInfo j with threadId := id j, thread := some (p.created + (j - i).toNat) }
      else p.threadInfo j := by
  induction k generalizing p i with
  | zero =>
    refine ⟨rfl, rfl, fun j => ?_⟩
    rw [if_neg (by push_cast; omega)]
    rfl
  | succ k ih =>
    obtain ⟨hok, hcreated, hinfo⟩ := ih ((p.initSlot i).spawn i (id i)) (i + 1)
    rw [initFrom]
    refine ⟨hok, ?_, fun j => ?_⟩
    · rw [hcreated]
      show p.created + 1 + k = _
      omega
    · rw [hinfo, spawn_apply]
      push_cast
      rcases eq_or_ne j i with rfl | hne
      · rw [if_neg (by omega), if_pos rfl, if_pos (by omega), Int.sub_self]
        rfl
      · rw [if_neg hne]
        by_cases hj : i ≤ j ∧ j < i + (k + 1)
        · have hthread : p.created + 1 + (j - (i + 1)).toNat = p.created + (j - i).toNat := by omega
          rw [if_pos hj, if_pos (by omega), ← hthread]
          rfl
        · rw [if_neg hj, if_neg (by omega)]
          rfl

/-- What `tp_init` makes of a new pool, where every `pthread_create` succeeds: the first slots have
their workers. -/
theorem tpInit_created (id : Int → BitVec w) (manager : BitVec w) (minNum maxNum : Int)
    (raw : Int → Info w ω δ) {r : Bool × Pool w ω δ}
    (hr : tpInit (fun j => some (id j)) (some manager) (creatThreadPool minNum maxNum raw) = r) :
    r.1 = true ∧ r.2.created = minNum.toNat ∧
    (∀ n : Nat, (n : Int) < minNum →
      r.2.threadInfo n = { raw n with threadId := id n, thread := some n, hasJob := false }) ∧
    ∀ i, ¬ (0 ≤ i ∧ i < minNum) →
      r.2.threadInfo i = { raw i with thread := none, hasJob := false } := by
  have hloop := initFrom_apply id (creatThreadPool minNum maxNum raw) 0
    (creatThreadPool minNum maxNum raw).minThNum.toNat
  rw [tpInit] at hr
  generalize initFrom (fun j => some (id j)) (creatThreadPool minNum maxNum raw) 0
    (creatThreadPool minNum maxNum raw).minThNum.toNat = made at *
  obtain ⟨ok, q⟩ := made
  obtain ⟨hok, hcreated, hinfo⟩ := hloop
  obtain rfl : ok = true := hok
  subst hr
  refine ⟨rfl, hcreated.trans (Nat.zero_add _), fun n hn => (hinfo n).trans ?_,
    fun i hi => (hinfo i).trans (if_neg fun h => hi ⟨h.1, ?_⟩)⟩
  · have hin : (0 : Int) ≤ n ∧ (n : Int) < 0 + (minNum.toNat : Int) := by omega
    have hnum : 0 + ((n : Int) - 0).toNat = n := by omega
    refine (if_pos hin).trans ?_
    show Info.mk _ _ _ _ (some (0 + ((n : Int) - 0).toNat)) _ = _
    rw [hnum]
    rfl
  · have hlt : i < 0 + (minNum.toNat : Int) := h.2
    omega

/-- The pool that `creat_thread_pool` and `tp_init` make, with the ids of a state, and with what is
in its slots from the start. -/
def State.initPool (s : State w ω δ) (min max : Int) (manager : BitVec w) : Bool × Pool w ω δ :=
  tpInit (fun i => some (s.slot i).threadId) (some manager)
    (creatThreadPool min max fun i => (s.slot i).info false)

/-- **After `tp_init`**: an initialised state is what a `tp_init` makes in which every
`pthread_create` succeeds. -/
theorem init_agrees (h : Initialised min max s) (manager : BitVec w) :
    (s.initPool min max manager).1 = true ∧ Agrees s (s.initPool min max manager).2 := by
  obtain ⟨hmin, hcur, hmax⟩ := h.nums
  obtain ⟨hok, hcreated, hslots, hbeyond⟩ := tpInit_created (fun i => (s.slot i).threadId) manager
    min max (fun i => (s.slot i).info false) rfl
  have hframe := tpInit_alike (fun i => some (s.slot i).threadId) (some manager)
    (creatThreadPool min max fun i => (s.slot i).info false)
  have howned := (tpInit_closable hok).tidy.owned
  rw [hframe.curThNum] at howned
  have hnum := h.created
  have hrange := h.range
  have hlive : ∀ i, (0 ≤ i ∧ i < min ↔ (s.slot i).threadCond = .live) ∧
      (0 ≤ i ∧ i < min ↔ (s.slot i).threadLock = .live) := by
    intro i
    by_cases hi : 0 ≤ i ∧ i < min
    · obtain ⟨n, rfl⟩ := Int.eq_ofNat_of_zero_le hi.1
      obtain ⟨-, hcond, hlock, -⟩ := h.slots n hi.2
      exact ⟨iff_of_true hi hcond, iff_of_true hi hlock⟩
    · obtain ⟨hcond, hlock, -⟩ := h.beyond i hi
      refine ⟨iff_of_false hi ?_, iff_of_false hi ?_⟩
      · rw [hcond]
        exact Life.noConfusion
      · rw [hlock]
        exact Life.noConfusion
  refine ⟨hok, hmin.trans hframe.minThNum.symm, hcur.trans hframe.curThNum.symm,
    hmax.trans hframe.maxThNum.symm, ?_, fun i => ?_, fun i => (howned _).trans (hlive i).1,
    fun i => (howned _).trans (hlive i).2, fun n hn => (howned _).2 ?_⟩
  · refine Eq.trans ?_ hcreated.symm
    omega
  · by_cases hi : 0 ≤ i ∧ i < min
    · obtain ⟨n, rfl⟩ := Int.eq_ofNat_of_zero_le hi.1
      obtain ⟨-, -, -, -, hworker, -⟩ := h.slots n hi.2
      rw [State.initPool, hslots n hi.2]
      show Info.mk _ _ _ _ (some n) _ = Info.mk _ _ _ _ (s.slot n).worker _
      rw [hworker]
      rfl
    · obtain ⟨-, -, hworker⟩ := h.beyond i hi
      rw [State.initPool, hbeyond i hi]
      show Info.mk _ _ _ _ none _ = Info.mk _ _ _ _ (s.slot i).worker _
      rw [hworker]
      rfl
  · have hlt : n < s.created := by
      by_contra hge
      rw [Thread.alive, h.threads, if_neg hge] at hn
      cases hn
    have hmade : (n : Int) < min := by omega
    exact ⟨n, Int.natCast_nonneg n, hmade, congrArg Info.thread (hslots n hmade)⟩

/-! ## `tp_process_job` -/

/-- A call that is about to signal. -/
theorem leaves_signal (h : Agrees s q)
    (hs : (s.call c).pc = .signal i ∨ ∃ grown, (s.call c).pc = .wake grown i) :
    Leaves min max c create s q := by
  obtain ⟨woken, t, hstep⟩ := exists_signalStep hs
  exact ⟨[.signal c woken], t, .cons _ rfl hstep .nil, (signalStep_signalled hstep hs).returned,
    h.signal hstep⟩

/-- A call that takes other steps first. -/
theorem Leaves.moves (h : Leaves min max c create u q) (hm : Moves min max s u c n l) :
    Leaves min max c create s q := by
  obtain ⟨as, t, hr, hend⟩ := h
  refine ⟨_, t, .trans (.of_runFrom (fun a ha _ => ?_) hm.run) hr, hend⟩
  rw [List.eq_of_mem_replicate ha]
  exact rfl

/-- A call that comes back from its `pthread_create` first. -/
theorem Leaves.afterCreate (h : Leaves min max c create u q)
    (hstep : createStep s c create = some u) : Leaves min max c create s q := by
  obtain ⟨as, t, hr, hend⟩ := h
  have hone : (machine w ω δ min max).Run (Submits c create) s [.create c create] u :=
    .cons _ ⟨rfl, rfl⟩ hstep .nil
  exact ⟨_, t, hone.trans hr, hend⟩

/-- The job of the call is given to an idle slot. -/
theorem Agrees.given (h : Agrees s p) (c : Nat) (i : Int) : Agrees (s.given c i)
    ((p.setInfo i fun x => { x with isBusy := true }).give i (s.call c).worker (s.call c).job) := by
  have hpool : (p.setInfo i fun x => { x with isBusy := true }).give i (s.call c).worker
      (s.call c).job = p.setInfo i fun x => { x with
        isBusy := true, thWork := (s.call c).worker, thJob := (s.call c).job, hasJob := true } := by
    simp [Pool.give, Pool.setInfo]
  have hset : Agrees (s.setSlot i fun x => { x with
      isBusy := true, owner := none, thWork := (s.call c).worker, thJob := (s.call c).job,
      phase := .claimed c }) (p.setInfo i fun x => { x with
        isBusy := true, thWork := (s.call c).worker, thJob := (s.call c).job, hasJob := true }) :=
    h.setSlot i (fun _ _ => ⟨true, rfl⟩) (fun _ => rfl) fun _ => rfl
  rw [hpool]
  exact hset.setCall c _

/-- The job of the call is given to the slot that it has added. -/
theorem Agrees.grown (h : Agrees s p) (c : Nat) (i : Int) :
    Agrees (s.grown c i) (p.give i (s.call c).worker (s.call c).job) := by
  have hset : Agrees (s.setSlot i fun x => { x with
      thWork := (s.call c).worker, thJob := (s.call c).job }) (p.setInfo i fun x => { x with
        thWork := (s.call c).worker, thJob := (s.call c).job, hasJob := true }) :=
    h.setSlot i (fun _ _ => ⟨true, rfl⟩) (fun _ => rfl) fun _ => rfl
  exact ⟨h.minThNum, h.curThNum, h.maxThNum, h.created, hset.slots, hset.conds, hset.locks,
    h.threads⟩

/-- The next slot is set up. -/
theorem Agrees.growing (h : Agrees s p) (c : Nat) (i : Int) :
    Agrees (s.growing c i s.curThNum) p.growSlot := by
  have hcur := h.curThNum
  refine ⟨h.minThNum, congrArg (· + 1) hcur, h.maxThNum, h.created, fun k => ?_, fun k => ?_,
    fun k => ?_, fun n hn => mem_held_initSlot.2 (.inr (.inr (h.threads n hn)))⟩
  · rw [growSlot_apply, ← hcur]
    rcases eq_or_ne k s.curThNum with rfl | hne
    · rw [s.growing_self, if_pos rfl, h.slots s.curThNum]
      rfl
    · rw [s.growing_of_ne c i hne, if_neg hne]
      exact h.slots k
  · have hheld : .cond k ∈ held p.growSlot.log ↔ _ := mem_held_initSlot
    rw [hheld, h.conds, ← hcur]
    rcases eq_or_ne k s.curThNum with rfl | hne
    · simp [s.growing_self]
    · simp [s.growing_of_ne c i hne, hne]
  · have hheld : .lock k ∈ held p.growSlot.log ↔ _ := mem_held_initSlot
    rw [hheld, h.locks, ← hcur]
    rcases eq_or_ne k s.curThNum with rfl | hne
    · simp [s.growing_self]
    · simp [s.growing_of_ne c i hne, hne]

/-- The state after a `pthread_create` for slot `n`. -/
def State.spawned (s : State w ω δ) (c : Nat) (n : Int) (id : BitVec w) : State w ω δ :=
  ({ s with
      created := s.created + 1,
      thread := Function.update s.thread s.created ⟨id, .find 0⟩ }.setSlot n fun x =>
    { x with threadId := id, worker := some s.created }).submitTo c .growIndex

/-- A worker is made for a slot. -/
theorem Agrees.spawned (h : Agrees s p) (c : Nat) (n : Int) (id : BitVec w) :
    Agrees (s.spawned c n id) (p.spawn n id) := by
  have hset : Agrees (s.setSlot n fun x => { x with threadId := id, worker := some s.created })
      (p.setInfo n fun x => { x with threadId := id, thread := some s.created }) :=
    h.setSlot n (fun _ b => ⟨b, rfl⟩) (fun _ => rfl) fun _ => rfl
  have hslots := hset.slots
  rw [h.created] at hslots
  refine ⟨h.minThNum, h.curThNum, h.maxThNum, congrArg (· + 1) h.created, ?_, fun k => ?_,
    fun k => ?_, fun m hm => mem_held_spawn.2 ?_⟩
  · have hinfo : (s.spawned c n id).slot = (s.setSlot n fun x => { x with
        threadId := id, worker := some p.created }).slot := by rw [← h.created]; rfl
    rw [hinfo]
    exact hslots
  · rw [mem_held_spawn, or_iff_right Resource.noConfusion]
    exact hset.conds k
  · rw [mem_held_spawn, or_iff_right Resource.noConfusion]
    exact hset.locks k
  · rcases eq_or_ne m s.created with rfl | hne
    · exact .inl (congrArg Resource.thread h.created)
    · have hthread : (s.spawned c n id).thread m = s.thread m := Function.update_of_ne hne ..
      rw [hthread] at hm
      exact .inr (h.threads m hm)

/-- The search ends at the first idle slot, or past all of them. -/
theorem idleFrom_cases (info : Int → Info w ω δ) (i : Int) (k : Nat) :
    (idleFrom info i k = none ∧ ∀ j, i ≤ j → j < i + k → (info j).isBusy = true) ∨
      ∃ j, idleFrom info i k = some j ∧ i ≤ j ∧ j < i + k ∧ (info j).isBusy = false ∧
        ∀ j', i ≤ j' → j' < j → (info j').isBusy = true := by
  induction k generalizing i with
  | zero => exact .inl ⟨rfl, fun j h1 h2 => absurd h1 (by omega)⟩
  | succ k ih =>
    push_cast
    rw [idleFrom]
    cases hbusy : (info i).isBusy with
    | false =>
      exact .inr ⟨i, rfl, le_rfl, by omega, hbusy, fun j h1 h2 => absurd h1 (not_le.2 h2)⟩
    | true =>
      have hnext : ∀ j, i ≤ j → i + 1 ≤ j ∨ j = i := by omega
      rcases ih (i + 1) with ⟨hnone, hall⟩ | ⟨j, hsome, hle, hlt, hidle, hbelow⟩
      · refine .inl ⟨hnone, fun j h1 h2 => ?_⟩
        rcases hnext j h1 with hj | rfl
        · exact hall j hj (by omega)
        · exact hbusy
      · refine .inr ⟨j, hsome, by omega, by omega, hidle, fun j' h1 h2 => ?_⟩
        rcases hnext j' h1 with hj | rfl
        · exact hbelow j' hj h2
        · exact hbusy

/-- The first idle slot of both. -/
theorem Agrees.firstIdle (h : Agrees s p) :
    (p.firstIdle = none ∧ AllBusy s) ∨ ∃ i, p.firstIdle = some i ∧ FirstIdle s i := by
  rw [Pool.firstIdle, ← h.curThNum]
  rcases idleFrom_cases p.threadInfo 0 s.curThNum.toNat with
    ⟨hnone, hall⟩ | ⟨i, hsome, h0, hi, hidle, hbelow⟩
  · exact .inl ⟨hnone, fun j h0 hj => (h.busy j).symm.trans (hall j h0 (by omega))⟩
  · exact .inr ⟨i, hsome, ⟨h0, by omega⟩, (h.busy i).symm.trans hidle,
      fun j h0 hj => (h.busy j).symm.trans (hbelow j h0 hj)⟩

/-- A call that has set up a slot, and whose `pthread_create` succeeds. -/
theorem leaves_created {id : BitVec w} (h : Agrees s p) (hpc : (s.call c).pc = .create i k)
    (hk : s.curThNum - 1 = k)
    (hfresh : ∀ m, m < s.created → (s.thread m).alive = true → (s.thread m).id ≠ id) :
    Leaves min max c (some id) s
      ((p.spawn k id).give k (s.call c).worker (s.call c).job) := by
  have hstep : createStep s c (some id) = some (s.spawned c k id) := by
    unfold createStep
    rw [hpc]
    exact if_pos hfresh
  have hmade : ((s.spawned c k id).call c).pc = .growIndex := State.submitTo_pc ..
  have hcall : ((s.spawned c k id).call c).worker = (s.call c).worker ∧
      ((s.spawned c k id).call c).job = (s.call c).job := by
    simp [State.spawned, State.submitTo, State.setCall, State.setSlot]
  have hwake : (((s.spawned c k id).grown c k).call c).pc = .wake true k := by
    simp [State.grown, State.setCall]
  have hmoves : Moves min max _ ((s.spawned c k id).grown c ((s.spawned c k id).curThNum - 1)) c
    4 _ := moves_grown hmade
  have hlast : (s.spawned c k id).curThNum - 1 = k := hk
  rw [hlast] at hmoves
  have hgrown := (h.spawned c k id).grown c k
  rw [hcall.1, hcall.2] at hgrown
  exact ((leaves_signal hgrown (.inr ⟨true, hwake⟩)).moves hmoves).afterCreate hstep

/-- A call that has set up a slot, and whose `pthread_create` fails. -/
theorem leaves_failed (h : Agrees s p) (hpc : (s.call c).pc = .create i k) :
    Leaves min max c none s (p.note (.release (.memory k))) := by
  let freed : State w ω δ := { s with freed := k :: s.freed }.submitTo c (.poolUnlock false i)
  have hstep : createStep s c none = some freed := by
    unfold createStep
    rw [hpc]
  have hpc' : (freed.call c).pc = .poolUnlock false i := State.submitTo_pc ..
  have hunlock : Moves min max freed ({ freed with tpLock := none }.submitTo c (.wake false i)) c
      1 [] := by
    constructor
    · simp [List.replicate, machine, step, submitStep, hpc']
    · simp [Machine.events, List.replicate, machine, step, submitStep, touches, SubmitPc.index,
        hpc']
  have hagrees : Agrees ({ freed with tpLock := none }.submitTo c (.wake false i))
      (p.note (.release (.memory k))) := by
    have hheld : ∀ r, r ≠ .memory k → (r ∈ held (p.note (.release (.memory k))).log ↔
        r ∈ held p.log) := by
      intro r hr
      rw [mem_held_freed, and_iff_right hr]
    exact ⟨h.minThNum, h.curThNum, h.maxThNum, h.created, h.slots,
      fun j => (hheld _ Resource.noConfusion).trans (h.conds j),
      fun j => (hheld _ Resource.noConfusion).trans (h.locks j),
      fun n hn => (hheld _ Resource.noConfusion).2 (h.threads n hn)⟩
  have hwake : Leaves min max c none _ _ :=
    leaves_signal hagrees (.inr ⟨false, State.submitTo_pc ..⟩)
  exact (hwake.moves hunlock).afterCreate hstep

/-- A call that has found no idle slot, with the lock of the pool. -/
theorem leaves_adding (h : Agrees s p) (hpc : (s.call c).pc = .addTest i)
    (hnone : p.firstIdle = none)
    (hfresh : ∀ id, create = some id →
      ∀ m, m < s.created → (s.thread m).alive = true → (s.thread m).id ≠ id) :
    Leaves min max c create s (tpProcessJob p (s.call c).worker (s.call c).job create).2 := by
  have hcur := h.curThNum
  have hmax := h.maxThNum
  rcases le_or_gt s.maxThNum s.curThNum with hfull | hroom
  · rw [tpProcessJob_full hnone (by omega)]
    have hrefused : Agrees ({ s with tpLock := none }.submitTo c (.wake false i)) p :=
      ⟨h.minThNum, hcur, hmax, h.created, h.slots, h.conds, h.locks, h.threads⟩
    exact (leaves_signal hrefused (.inr ⟨false, State.submitTo_pc ..⟩)).moves
      (moves_refused hpc hfull)
  · have hgrowing := h.growing c i
    have hpc' := s.growing_pc c i s.curThNum
    have hcall : ((s.growing c i s.curThNum).call c).worker = (s.call c).worker ∧
        ((s.growing c i s.curThNum).call c).job = (s.call c).job := by
      simp [State.growing, State.setCall, State.setSlot]
    refine Leaves.moves ?_ (moves_growing hpc hroom)
    cases create with
    | some id =>
      rw [tpProcessJob_grown hnone (by omega), ← hcall.1, ← hcall.2, ← hcur]
      exact leaves_created hgrowing hpc' (Int.add_sub_cancel ..) (hfresh id rfl)
    | none =>
      rw [tpProcessJob_failed hnone (by omega), ← hcur]
      exact leaves_failed hgrowing hpc'

variable (min max) in
/-- A call that has found no idle slot comes to the lock of the pool, also in a pool of a negative
number of threads. -/
theorem moves_allBusy (hpc : (s.call c).pc = .test 0) (hfree : Unlocked s) (hall : AllBusy s) :
    ∃ i n l, Moves min max s ({ s with tpLock := some c }.submitTo c (.addTest i)) c n l := by
  rcases le_or_gt 0 s.curThNum with hpos | hneg
  · obtain ⟨n, l, hmoves, -⟩ : ∃ n l, Moves min max s _ c n l ∧ _ :=
      moves_full hpc hfree hall hpos
    exact ⟨_, n, l, hmoves⟩
  · exact ⟨0, 2, [], moves_poolLock hpc hneg.le hfree.pool⟩

/-- **A call of `tp_process_job`** that nobody disturbs does what the function does, whatever
`pthread_create` answers; an id that it gives is that of no thread that runs. -/
theorem processJob_agrees (h : Agrees s p) (hpc : (s.call c).pc = .test 0) (hfree : Unlocked s)
    (hfresh : ∀ id, create = some id →
      ∀ m, m < s.created → (s.thread m).alive = true → (s.thread m).id ≠ id) :
    Leaves min max c create s (tpProcessJob p (s.call c).worker (s.call c).job create).2 := by
  rcases h.firstIdle with ⟨hnone, hall⟩ | ⟨i, hsome, ⟨h0, hi⟩, hidle, hbelow⟩
  · obtain ⟨i, n, l, hmoves⟩ := moves_allBusy min max hpc hfree hall
    have hpc' := State.submitTo_pc { s with tpLock := some c } c (.addTest i)
    have hcall : (({ s with tpLock := some c }.submitTo c (.addTest i)).call c).worker =
        (s.call c).worker ∧ (({ s with tpLock := some c }.submitTo c (.addTest i)).call c).job =
        (s.call c).job := by
      simp [State.submitTo, State.setCall]
    have hlocked : Agrees ({ s with tpLock := some c }.submitTo c (.addTest i)) p :=
      ⟨h.minThNum, h.curThNum, h.maxThNum, h.created, h.slots, h.conds, h.locks, h.threads⟩
    refine Leaves.moves ?_ hmoves
    rw [← hcall.1, ← hcall.2]
    exact leaves_adding hlocked hpc' hnone hfresh
  · obtain ⟨k, rfl⟩ := Int.eq_ofNat_of_zero_le h0
    obtain ⟨l, hscan, -⟩ : ∃ l, Moves min max s _ c _ l ∧ _ :=
      moves_scan hpc hi.le hbelow fun j h0 hj => hfree.slots j h0 (hj.trans hi)
    have hpc' := State.submitTo_pc s c (.test k)
    have hgiven := (h.setCall c fun x => { x with pc := .test k }).given c k
    rw [State.setCall_self] at hgiven
    rw [tpProcessJob_idle hsome]
    have hsignal : ((State.given (s.submitTo c (.test k)) c k).call c).pc = .signal k := by
      simp [State.given, State.setCall]
    exact ((leaves_signal hgiven (.inl hsignal)).moves
      (moves_given hpc' hi hidle (hfree.slots k h0 hi))).moves hscan

/-- A pool whose only slot is busy grows by one. -/
theorem busyPool_processJob_agrees :
    let p := ((idlePool 1 2).initPool 1 2 9).2.setInfo 0 fun x => { x with isBusy := true }
    Leaves 1 2 0 (some 7)
      (((idlePool 1 2).setSlot 0 fun x => { x with isBusy := true }).setCall 0 fun x =>
        { x with worker := 10, job := 20, pc := .test 0 })
      (tpProcessJob p 10 20 (some 7)).2 ∧
      (tpProcessJob p 10 20 (some 7)).2.curThNum = 2 := by
  have hinit := (init_agrees (idlePool_initialised (show 1 ≤ 2 by decide) (by decide)) 9).2
  have hbusy := hinit.setSlot 0 (f := fun x => { x with isBusy := true })
    (g := fun x => { x with isBusy := true }) (fun _ b => ⟨b, rfl⟩) (fun _ => rfl) fun _ => rfl
  refine ⟨processJob_agrees (hbusy.setCall 0 _) rfl ⟨rfl, fun i h0 hi => ?_⟩ ?_, by decide +kernel⟩
  · have hlt : i < 1 := hi
    obtain rfl : i = 0 := by omega
    rfl
  · intro id hid m hm _
    obtain rfl := Option.some.inj hid
    obtain rfl : m = 0 := Nat.lt_one_iff.1 hm
    decide +kernel

/-! ## The end of a job -/

theorem State.release_thread (s : State w ω δ) (k : Int) : (s.release k).thread = s.thread := by
  unfold State.release
  split <;> rfl

/-- The slot becomes idle. -/
theorem Agrees.release (h : Agrees s p) (k : Int) : Agrees (s.release k) (p.jobDone k) := by
  have hset : ∀ {u}, Agrees u p →
      Agrees (u.setSlot k fun x => { x with isBusy := false, phase := .free }) (p.jobDone k) :=
    fun hu => hu.setSlot k (fun _ _ => ⟨false, rfl⟩) (fun _ => rfl) fun _ => rfl
  unfold State.release
  split
  · exact hset (h.setCall _ _)
  · exact hset h

/-- **The end of a job**: a worker that has done its job, and that nobody disturbs, sets its slot
idle. -/
theorem jobDone_agrees (h : Agrees s p) (hpc : (s.thread n).pc = .lockDone k)
    (hfree : (s.slot k).owner = none) :
    ∃ t, (machine w ω δ min max).runFrom s (List.replicate 3 (.work n)) = some t ∧
      (t.thread n).pc = .lockWait k ∧ Agrees t (p.jobDone k) := by
  let locked := (s.setSlot k fun x => { x with owner := some (.work n) }).workTo n (.setIdle k)
  let idle := (locked.release k).workTo n (.unlockDone k)
  have hlock : workStep s n = some locked := by
    unfold workStep
    rw [hpc]
    show (State.lockSlot s k (.work n)).map _ = _
    rw [State.lockSlot, hfree]
    rfl
  have hlocked : (locked.thread n).pc = .setIdle k := congrArg Thread.pc (State.workTo_self ..)
  have hidle : (idle.thread n).pc = .unlockDone k := congrArg Thread.pc (State.workTo_self ..)
  have hset : workStep locked n = some idle := by
    unfold workStep
    rw [hlocked]
  have hunlock : workStep idle n = some ((idle.unlockSlot k).workTo n (.lockWait k)) := by
    unfold workStep
    rw [hidle]
  refine ⟨(idle.unlockSlot k).workTo n (.lockWait k), ?_,
    congrArg Thread.pc (State.workTo_self ..), ?_⟩
  · simp [Machine.runFrom, List.replicate, machine, step, hlock, hset, hunlock]
  · have howner : Agrees (s.setSlot k fun x => { x with owner := some (.work n) }) p :=
      h.setHidden k (fun _ _ => rfl) (fun _ => rfl) fun _ => rfl
    have hrunning : (s.thread n).alive = true := by rw [Thread.alive, hpc]
    have hreleased : ((locked.release k).thread n).alive = true := by
      rw [State.release_thread, Thread.alive, hlocked]
    have hdone : Agrees idle (p.jobDone k) :=
      ((howner.workTo hrunning _).release k).workTo hreleased _
    have hfreed : Agrees (idle.unlockSlot k) (p.jobDone k) :=
      hdone.setHidden k (fun _ _ => rfl) (fun _ => rfl) fun _ => rfl
    exact hfreed.workTo (show (idle.thread n).alive = true by rw [Thread.alive, hidle]) _

/-! ## A pass of the manager -/

theorem busyFrom_eq (h : Agrees s p) (i : Int) (b k : Nat) :
    busyFrom s.slot i b k = countBusy p.threadInfo i b k := by
  induction k generalizing i b with
  | zero => rfl
  | succ k ih => rw [busyFrom, countBusy, ih, h.busy]

/-- Where the manager is makes no difference. -/
theorem Agrees.manageTo (h : Agrees s p) (pc : ManagePc) : Agrees (s.manageTo pc) p :=
  ⟨h.minThNum, h.curThNum, h.maxThNum, h.created, h.slots, h.conds, h.locks, h.threads⟩

/-- The status of both. -/
theorem Agrees.status (h : Agrees s p) : s.tpGetTpStatus = tpGetTpStatus p := by
  rw [State.tpGetTpStatus, tpGetTpStatus, busyFrom_eq h, h.curThNum]

/-- What is killed is neither a mutex nor a condition variable. -/
theorem Info.target_ne (x : Info w ω δ) (k : Int) : .lock k ≠ x.target ∧ .cond k ≠ x.target := by
  unfold Info.target
  split <;> exact ⟨Resource.noConfusion, Resource.noConfusion⟩

/-- The worker of the last slot, its mutex and its condition variable go. -/
theorem Agrees.deleted (h : Agrees s p) : Agrees s.deleted { p with
    log := p.log ++ (p.takeDown (p.curThNum - 1)).map .release, curThNum := p.curThNum - 1 } := by
  obtain ⟨hmin, hmax, -, -, hcreated, -, -⟩ := s.deleted_others
  have hslot := s.deleted_slot
  have hcur := h.curThNum
  rw [← hcur]
  refine ⟨hmin.trans h.minThNum, rfl, hmax.trans h.maxThNum, hcreated.trans h.created, fun k => ?_,
    fun k => ?_, fun k => ?_, fun n hn => mem_held_release.2 ?_⟩
  · rw [hslot]
    rcases eq_or_ne k (s.curThNum - 1) with rfl | hne
    · rw [Function.update_self]
      exact h.slots _
    · rw [Function.update_of_ne hne]
      exact h.slots k
  · rw [mem_held_release, mem_takeDown, hslot, h.conds]
    rcases eq_or_ne k (s.curThNum - 1) with rfl | hne
    · simp
    · simp [hne, Info.target_ne]
  · rw [mem_held_release, mem_takeDown, hslot, h.locks]
    rcases eq_or_ne k (s.curThNum - 1) with rfl | hne
    · simp
    · simp [hne, Info.target_ne]
  · have hworker : (s.slot (s.curThNum - 1)).worker ≠ some n := by
      intro hself
      rw [State.deleted_thread_self hself] at hn
      cases hn
    rw [State.deleted_thread_of_ne hworker] at hn
    refine ⟨fun hdown => ?_, h.threads n hn⟩
    rcases mem_takeDown.1 hdown with htarget | hlock | hcond
    · have hthread : (p.threadInfo (s.curThNum - 1)).thread = some n := by
        unfold Info.target at htarget
        split at htarget
        · next hthread => rw [hthread, Resource.thread.inj htarget]
        · cases htarget
      rw [h.slots] at hthread
      exact hworker hthread
    · cases hlock
    · cases hcond

variable (min max) in
/-- The loop over `tp_delete_thread`. -/
theorem deleteLoop_agrees (h : Agrees s p) (hmin : s.minThNum ≤ s.curThNum) :
    ∃ t, Manages min max (s.manageTo .delMin) t ∧ t.manager = .sleep ∧
      Agrees t (deleteLoop p (p.curThNum - p.minThNum).toNat) := by
  have hpmin := h.minThNum
  have hpcur := h.curThNum
  generalize hk : (p.curThNum - p.minThNum).toNat = k
  induction k generalizing s p with
  | zero =>
    have hfull : s.curThNum ≤ s.minThNum := by omega
    exact ⟨_, manages_refused (.inl hfull), rfl, h.manageTo _⟩
  | succ k ih =>
    have hnot : ¬ p.curThNum ≤ p.minThNum := by omega
    rw [deleteLoop, tpDeleteThread, if_neg hnot]
    cases hbusy : (p.threadInfo (p.curThNum - 1)).isBusy with
    | true =>
      rw [h.busy, ← hpcur] at hbusy
      exact ⟨_, manages_refused (.inr hbusy), rfl, h.manageTo _⟩
    | false =>
      rw [h.busy, ← hpcur] at hbusy
      obtain ⟨hsmin, -⟩ := s.deleted_others
      have hsmax : s.deleted.curThNum = s.curThNum - 1 := rfl
      obtain ⟨t, hrun, hsleep, hagrees⟩ := ih h.deleted (by omega) (by rw [hsmin, hpmin])
        (by rw [hsmax, hpcur]) (by dsimp only; omega)
      exact ⟨t, (manages_deleted (by omega) hbusy).trans hrun, hsleep, hagrees⟩

/-- **A pass of the manager** that nobody disturbs ends, and does what the function does. -/
theorem managePass_agrees (h : Agrees s p) (hmin : s.minThNum ≤ s.curThNum)
    (hpc : s.manager = .statTest 0 0) :
    ∃ t, Manages min max s t ∧ t.manager = .sleep ∧ Agrees t (managePass p) := by
  have hself : s.manageTo (.statTest 0 0) = s := by
    rw [← hpc]
    rfl
  have hcount : Manages min max s _ := hself ▸ manages_status s (by rw [Int.sub_zero]) 0
  rw [managePass, ← h.status]
  by_cases hidle : isIdleStatus (busyFrom s.slot 0 0 s.curThNum.toNat) s.curThNum = true
  · have hzero : s.tpGetTpStatus = 0 := if_pos hidle
    obtain ⟨t, hrun, hsleep, hagrees⟩ := deleteLoop_agrees min max h hmin
    have hdelete := hcount.trans
      (.one _ ManagePc.noConfusion (congrArg s.manageTo (if_pos hidle)))
    rw [if_pos hzero]
    exact ⟨t, hdelete.trans hrun, hsleep, hagrees⟩
  · have hone : s.tpGetTpStatus ≠ 0 := by
      rw [State.tpGetTpStatus, if_neg hidle]
      decide
    have hend := hcount.trans
      (.one _ ManagePc.noConfusion (congrArg s.manageTo (if_neg hidle)))
    rw [if_neg hone]
    exact ⟨_, hend, rfl, h.manageTo _⟩

/-- The manager of a pool that may shrink by one, with both slots idle. -/
theorem idlePool_managePass_agrees :
    let p := { ((idlePool 2 2).initPool 2 2 9).2 with minThNum := 1 }
    (∃ t, Manages 1 2 { idlePool 2 2 with minThNum := 1, manager := .statTest 0 0 } t ∧
      t.manager = .sleep ∧ Agrees t (managePass p)) ∧ (managePass p).curThNum = 1 := by
  have hinit := (init_agrees (idlePool_initialised (le_refl 2) (by decide)) 9).2
  exact ⟨managePass_agrees ⟨rfl, hinit.curThNum, hinit.maxThNum, hinit.created, hinit.slots,
    hinit.conds, hinit.locks, hinit.threads⟩ (by decide) rfl, by decide +kernel⟩

end

end LinuxTraining.ThreadPool
