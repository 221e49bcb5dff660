import LinuxTraining.ThreadPool.Lookup
import LinuxTraining.ThreadPool.Mutexes

/-!
# The thread pool: how it comes up

Once `tp_init` has filled in the slots, and before the first job, the workers look themselves up, in
any order and beside the manager, which has nothing to delete. Where the search of a worker will end
is known at each of its steps (`WorkPc.Looks`), so in whatever order they go, they come to rest
where `tp_get_thread_by_id` says (`Up`): a worker waits on the slot that it has found, or has
exited. The pool is whole exactly if every id goes through an `int` unchanged (`comesUp`).
-/

namespace LinuxTraining.ThreadPool

open Lib

variable {w : Nat} {ω δ : Type}

/-- A step of a worker or of the manager. -/
def Act.isStart : Act w ω δ → Bool
  | .work _ | .manage => true
  | .call _ _ _ | .submit _ | .signal _ _ | .create _ _ | .spurious _ => false

/-- A worker at this point of its start is on the way to where the search in `s₀` ends. -/
def WorkPc.Looks (s₀ : State w ω δ) (id : BitVec w) : WorkPc ω δ → Prop
  | .find i => 0 ≤ i ∧ i ≤ s₀.curThNum ∧
      getThreadById s₀ id = findFrom s₀.slot id i (s₀.curThNum - i).toNat
  | .cmp i => 0 ≤ i ∧ i < s₀.curThNum ∧
      getThreadById s₀ id = findFrom s₀.slot id i (s₀.curThNum - i).toNat
  | .lockWait k | .wait k | .waiting k => 0 ≤ k ∧ getThreadById s₀ id = k
  | .exited => getThreadById s₀ id = -1
  | .unborn | .relock _ | .unlock _ | .readWork _ | .readJob _ _ | .process _ _ _ | .lockDone _
  | .setIdle _ | .unlockDone _ | .killed => False

/-- The manager has not got past `if( this->cur_th_num <= this->min_th_num )`. -/
def ManagePc.Watches : ManagePc → Prop
  | .sleep | .statTest _ _ | .statBusy _ _ | .statEnd _ | .delMin => True
  | .busyIndex | .delBusy _ | .killIndex | .kill _ | .lockIndex | .destroyLock _ | .condIndex
  | .destroyCond _ | .decRead | .decWrite _ => False

/-- A pool that has been initialised as `s₀`, before its first job. -/
structure Starting (s₀ s : State w ω δ) : Prop where
  nums : s.curThNum = s₀.curThNum ∧ s.curThNum ≤ s.minThNum
  slots : ∀ i, (s.slot i).threadId = (s₀.slot i).threadId
  ids : ∀ n, (s.thread n).id = (s₀.thread n).id
  calls : ∀ c, (s.call c).pc = .idle
  manager : s.manager.Watches
  workers : ∀ n, n < s₀.created → (s.thread n).pc.Looks s₀ (s₀.thread n).id
  born : ∀ n, s₀.created ≤ n → (s.thread n).pc = .unborn

/-- Each worker is where its search has ended. -/
def Up (s₀ s : State w ω δ) : Prop :=
  ∀ n, n < s₀.created → (s.thread n).pc =
    if getThreadById s₀ (s₀.thread n).id = -1 then .exited
    else .waiting (getThreadById s₀ (s₀.thread n).id)

section
variable {s₀ s s' t : State w ω δ} {a : Act w ω δ} {n : Nat} {i min max : Int} {id : BitVec w}

/-- The search goes on at the next slot. -/
theorem findFrom_of_lt (hi : i < s₀.curThNum) :
    findFrom s₀.slot id i (s₀.curThNum - i).toNat =
      if narrowed id = (s₀.slot i).threadId then i
      else findFrom s₀.slot id (i + 1) (s₀.curThNum - (i + 1)).toNat := by
  have hsucc : (s₀.curThNum - i).toNat = (s₀.curThNum - (i + 1)).toNat + 1 := by omega
  rw [hsucc, findFrom]

/-- A worker that has stepped, with no more changed than the owner of a lock. -/
theorem Starting.workTo (h : Starting s₀ s) {pc : WorkPc ω δ} (hpc : pc.Looks s₀ (s₀.thread n).id)
    (hn : n < s₀.created) (hslot : ∀ i, (t.slot i).threadId = (s.slot i).threadId)
    (hframe : t.curThNum = s.curThNum ∧ t.minThNum = s.minThNum ∧ t.call = s.call ∧
      t.manager = s.manager ∧ t.thread = s.thread) : Starting s₀ (t.workTo n pc) := by
  obtain ⟨hcur, hmin, hcall, hmanager, hthread⟩ := hframe
  refine ⟨?_, fun i => (hslot i).trans (h.slots i), fun m => ?_, fun c => ?_, ?_, fun m hm => ?_,
    fun m hm => ?_⟩
  · show t.curThNum = _ ∧ t.curThNum ≤ t.minThNum
    rw [hcur, hmin]
    exact h.nums
  · rcases eq_or_ne m n with rfl | hne
    · rw [State.workTo_self, hthread]
      exact h.ids m
    · rw [State.workTo_of_ne _ _ hne, hthread]
      exact h.ids m
  · show (t.call c).pc = _
    rw [hcall]
    exact h.calls c
  · show t.manager.Watches
    rw [hmanager]
    exact h.manager
  · rcases eq_or_ne m n with rfl | hne
    · rwa [State.workTo_self]
    · rw [State.workTo_of_ne _ _ hne, hthread]
      exact h.workers m hm
  · have hne : m ≠ n := by omega
    rw [State.workTo_of_ne _ _ hne, hthread]
    exact h.born m hm

/-- A worker goes on with its search, or waits on what it has found. -/
theorem Starting.work (h : Starting s₀ s) (hs : workStep s n = some s') : Starting s₀ s' := by
  have hn : n < s₀.created := by
    by_contra hn
    rw [workStep, h.born n (not_lt.1 hn)] at hs
    cases hs
  have hlooks := h.workers n hn
  have hcur := h.nums.1
  have hlock : ∀ {k u}, s.lockSlot k (.work n) = some u →
      (∀ i, (u.slot i).threadId = (s.slot i).threadId) ∧ u.curThNum = s.curThNum ∧
        u.minThNum = s.minThNum ∧ u.call = s.call ∧ u.manager = s.manager ∧
        u.thread = s.thread := by
    intro k u hu
    obtain rfl := lockSlot_eq hu
    exact ⟨s.forall_setSlot (P := fun i y => y.threadId = (s.slot i).threadId) rfl fun _ => rfl,
      rfl, rfl, rfl, rfl, rfl⟩
  cases workStep_rule hs with
  | find i hpc hlt =>
    rw [hpc] at hlooks
    exact h.workTo ⟨hlooks.1, hcur ▸ hlt, hlooks.2.2⟩ hn (fun _ => rfl) ⟨rfl, rfl, rfl, rfl, rfl⟩
  | missing i hpc hge =>
    rw [hpc] at hlooks
    obtain ⟨-, hle, hget⟩ := hlooks
    have hzero : (s₀.curThNum - i).toNat = 0 := by omega
    rw [hzero] at hget
    exact h.workTo hget hn (fun _ => rfl) ⟨rfl, rfl, rfl, rfl, rfl⟩
  | found i hpc hid =>
    rw [hpc] at hlooks
    obtain ⟨h0, hlt, hget⟩ := hlooks
    rw [h.ids, h.slots] at hid
    rw [findFrom_of_lt hlt, if_pos hid] at hget
    exact h.workTo ⟨h0, hget⟩ hn (fun _ => rfl) ⟨rfl, rfl, rfl, rfl, rfl⟩
  | other i hpc hid =>
    rw [hpc] at hlooks
    obtain ⟨h0, hlt, hget⟩ := hlooks
    rw [h.ids, h.slots] at hid
    rw [findFrom_of_lt hlt, if_neg hid] at hget
    exact h.workTo ⟨by omega, by omega, hget⟩ hn (fun _ => rfl) ⟨rfl, rfl, rfl, rfl, rfl⟩
  | lockWait k u hpc hu =>
    rw [hpc] at hlooks
    obtain ⟨hslot, hframe⟩ := hlock hu
    exact h.workTo hlooks hn hslot hframe
  | wait k hpc =>
    rw [hpc] at hlooks
    exact h.workTo hlooks hn
      (s.forall_setSlot (P := fun i y => y.threadId = (s.slot i).threadId) rfl fun _ => rfl)
      ⟨rfl, rfl, rfl, rfl, rfl⟩
  | relock k u hpc | unlock k hpc | readWork k hpc | readJob k work hpc | process k work job hpc
  | lockDone k u hpc | setIdle k hpc | unlockDone k hpc =>
    rw [hpc] at hlooks
    exact hlooks.elim

/-- The manager has nothing to delete. -/
theorem Starting.manage (h : Starting s₀ s) :
    ∃ m : ManagePc, m.Watches ∧ manageStep s = s.manageTo m := by
  have hwatches := h.manager
  unfold manageStep
  cases hpc : s.manager with
  | sleep | statBusy =>
    refine ⟨_, ?_, rfl⟩
    trivial
  | statTest | statEnd =>
    refine ⟨_, ?_, rfl⟩
    split <;> trivial
  | delMin =>
    refine ⟨_, ?_, rfl⟩
    rw [if_pos h.nums.2]
    trivial
  | _ =>
    rw [hpc] at hwatches
    exact hwatches.elim

theorem Starting.step (h : Starting s₀ s) (ha : a.isStart = true)
    (hs : ThreadPool.step s a = some s') : Starting s₀ s' := by
  cases a with
  | work n => exact h.work hs
  | manage =>
    cases hs
    obtain ⟨m, hm, heq⟩ := h.manage
    rw [heq]
    exact ⟨h.nums, h.slots, h.ids, h.calls, hm, h.workers, h.born⟩
  | call | submit | signal | create | spurious => cases ha

/-- The pool before its first step. -/
theorem Starting.init (h : Initialised min max s₀) : Starting s₀ s₀ where
  nums := ⟨rfl, (h.nums.2.1.trans h.nums.1.symm).le⟩
  slots _ := rfl
  ids _ := rfl
  calls c := (h.calls c).1
  manager := by
    rw [h.manager]
    trivial
  workers n hn := by
    rw [h.threads, if_pos hn]
    exact ⟨le_rfl, h.nums.2.1.symm ▸ h.range.1, by rw [Int.sub_zero]; rfl⟩
  born n hn := by rw [h.threads, if_neg (not_lt.2 hn)]

/-- A pool that starts does not shrink. -/
theorem Starting.neverDeletes (h : Starting s₀ s) : NeverDeletes s a := by
  cases a with
  | manage =>
    intro k hk
    have hwatches := h.manager
    rw [hk] at hwatches
    exact hwatches.elim
  | _ => trivial

/-- A step that is its own is one of a worker. -/
theorem Starting.isStart_of_own (h : Starting s₀ s) (ha : a.isOwn = true)
    (hs : ThreadPool.step s a = some s') : a.isStart = true := by
  cases a with
  | work n => rfl
  | submit c =>
    rw [ThreadPool.step, ThreadPool.submitStep, h.calls c] at hs
    cases hs
  | signal c woken =>
    rw [ThreadPool.step, ThreadPool.signalStep, h.calls c] at hs
    cases hs
  | create c id =>
    cases createStep_rule hs with
    | made _ _ _ hpc | failed _ _ hpc => cases (h.calls c).symm.trans hpc
  | call | spurious | manage => cases ha

/-- A worker that has come to rest is where its search has ended. -/
theorem Starting.up_of_quiet (h : Starting s₀ s) (hquiet : Quiet s) : Up s₀ s := by
  intro n hn
  have hlooks := h.workers n hn
  by_cases halive : (s.thread n).alive = true
  · obtain ⟨k, hk⟩ := hquiet.2 n halive
    rw [hk] at hlooks
    rw [hk, hlooks.2, if_neg (by have := hlooks.1; omega)]
  · unfold Thread.alive at halive
    split at halive
    · next hpc => rw [hpc] at hlooks; exact hlooks.elim
    · next hpc =>
      rw [hpc] at hlooks
      have hmissed : getThreadById s₀ (s₀.thread n).id = -1 := hlooks
      rw [hpc, if_pos hmissed]
    · next hpc => rw [hpc] at hlooks; exact hlooks.elim
    · exact absurd rfl halive

/-- Where each worker has ended its search, none can step. -/
theorem Starting.stuck_of_up (h : Starting s₀ s) (hup : Up s₀ s) (n : Nat) :
    workStep s n = none := by
  rcases lt_or_ge n s₀.created with hn | hn
  · have hpc := hup n hn
    split at hpc
    · rw [workStep, hpc]
    · rw [workStep, hpc]
  · rw [workStep, h.born n hn]

/-- **What rest is, at the start.** -/
theorem Starting.settled_iff_up (h : Starting s₀ s) (hmutexes : Mutexes s) :
    (∀ n, workStep s n = none) ↔ Up s₀ s := by
  refine ⟨fun hset => h.up_of_quiet (hmutexes.settled_iff_quiet.1 fun a ha => ?_), h.stuck_of_up⟩
  cases hs : ThreadPool.step s a with
  | none => rfl
  | some s' =>
    have hstart := h.isStart_of_own ha hs
    cases a with
    | work n => exact hs.symm.trans (hset n)
    | call | submit | signal | create | spurious | manage => cases ha <;> cases hstart

/-- A worker finds its own slot exactly if its id goes through an `int` unchanged. -/
theorem Initialised.finds_own_iff (h : Initialised min max s₀) (hn : n < s₀.created) :
    getThreadById s₀ (s₀.thread n).id = n ↔ narrowed (s₀.thread n).id = (s₀.thread n).id := by
  have hcur := h.nums.2.1
  have hcreated := h.created
  have hslot : ∀ m : Nat, (m : Int) < min → (s₀.slot m).threadId = (s₀.thread m).id :=
    fun m hm => (h.slots m hm).2.2.2.2.2
  have hids : DistinctIds s₀ := by
    intro i j h0 hij hj
    obtain ⟨i, rfl⟩ := Int.eq_ofNat_of_zero_le h0
    obtain ⟨j, rfl⟩ := Int.eq_ofNat_of_zero_le (h0.trans hij.le)
    rw [hslot i (by omega), hslot j (by omega)]
    exact h.ids i j (by omega) (by omega)
  rw [← hslot n (by omega)]
  exact getThreadById_own_iff hids (Int.natCast_nonneg n) (by omega)

/-- **How the pool comes up**, from its initialisation with every slot idle. Whatever the order of
the workers and of the manager beside them, the workers come to rest; no worker can step exactly
where each one waits on the slot that `tp_get_thread_by_id` finds for it, or has exited as it finds
none; and then each waits on its own slot if and only if every id of the pool goes through an `int`
unchanged. -/
theorem comesUp {as : List (Act w ω δ)} (h₀ : Initialised min max s₀)
    (hr : (machine w ω δ min max).Run (fun _ a => a.isStart = true) s₀ as s) :
    ((∀ n, workStep s n = none) ↔ Up s₀ s) ∧
      (∃ bs t, (machine w ω δ min max).Run (fun _ a => a.isOwn = true) s bs t ∧ Up s₀ t) ∧
      (Up s₀ s → ((∀ n, n < s₀.created → (s.thread n).pc = .waiting n) ↔
        ∀ n, n < s₀.created → narrowed (s₀.thread n).id = (s₀.thread n).id)) := by
  obtain ⟨hkept, hstarting⟩ : (machine w ω δ min max).Run NeverDeletes s₀ as s ∧ Starting s₀ s :=
    hr.guarded (.init h₀) (fun _ _ _ hI ha hs => hI.step ha hs) fun _ _ _ hI _ _ => hI.neverDeletes
  obtain ⟨hmutexes, bs, t, hown, hquiet⟩ := exists_quiet ⟨s₀, as, h₀, hkept⟩
  have hend : Starting s₀ t := hown.invariant hstarting fun _ _ _ hI ha hs =>
    hI.step (hI.isStart_of_own ha hs) hs
  refine ⟨hstarting.settled_iff_up hmutexes, ⟨bs, t, hown, hend.up_of_quiet hquiet⟩, fun hup => ?_⟩
  refine forall_congr' fun n => forall_congr' fun hn => ?_
  rw [hup n hn, ← h₀.finds_own_iff hn]
  split
  · next hmissed => exact iff_of_false (fun he => (by cases he)) (by omega)
  · exact ⟨WorkPc.waiting.inj, congrArg WorkPc.waiting⟩

end

/-- The workers of a pool of two look for their slots in turn, the manager beside them. -/
def bothLook : List (Act 64 Nat Nat) :=
  [.work 1, .work 0, .manage, .work 1, .work 1, .work 0, .work 1, .manage, .work 0, .work 1,
    .work 0, .work 1]

/-- Both wait on their own slots. -/
theorem bothLook_comesUp : ∃ s, (machine 64 Nat Nat 2 2).Run (fun _ a => a.isStart = true)
    (idlePool 2 2) bothLook s ∧ Up (idlePool 2 2) s ∧
      ∀ n, n < 2 → (s.thread n).pc = .waiting n := by
  have hrun : ((machine 64 Nat Nat 2 2).runFrom (idlePool 2 2) bothLook).map
      (fun s => (s.waitsOn 0 0, s.waitsOn 1 1)) = some (true, true) := by
    decide +kernel
  obtain ⟨s, hs, hwaits⟩ := Option.map_eq_some_iff.1 hrun
  obtain ⟨hzero, hone⟩ := Prod.mk.inj hwaits
  have hall : bothLook.all Act.isStart = true := by decide
  have hr : (machine 64 Nat Nat 2 2).Run (fun _ a => a.isStart = true) (idlePool 2 2) bothLook s :=
    .of_runFrom (fun a ha _ => List.all_eq_true.1 hall a ha) hs
  have h₀ : Initialised (2 : Nat) (2 : Nat) (idlePool 2 2) :=
    idlePool_initialised le_rfl (by decide)
  have hpcs : ∀ n, n < 2 → (s.thread n).pc = .waiting n
    | 0, _ => State.waitsOn_iff.1 hzero
    | 1, _ => State.waitsOn_iff.1 hone
  obtain ⟨hset, -, hwhole⟩ := comesUp h₀ hr
  have hstarting : Starting (idlePool 2 2) s := hr.invariant (.init h₀)
    fun _ _ _ hI ha hs => hI.step ha hs
  have hup : Up (idlePool 2 2) s := hset.1 fun n => by
    rcases lt_or_ge n 2 with hn | hn
    · rw [workStep, hpcs n hn]
    · rw [workStep, hstarting.born n hn]
  exact ⟨s, hr, hup, (hwhole hup).2 (by decide)⟩

end LinuxTraining.ThreadPool
