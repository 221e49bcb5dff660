import LinuxTraining.Lib.Settle
import LinuxTraining.ThreadPool.Limits

/-!
# The thread pool: no call and no worker runs on

`tp_process_job` looks at each slot once, and what it does after its loop has no loop. A worker
looks for its slot once, and goes round its loop once for each wakeup. So whatever the schedule, the
submissions and the workers take a number of steps that is bounded by the calls of `tp_process_job`
and the wakeups without a signal (`steps_le`). The manager is not counted: it never ends.
-/

namespace LinuxTraining.ThreadPool

open Lib

variable {w : Nat} {ω δ : Type}

/-- A step of a submission or a worker. -/
def Act.isOwn : Act w ω δ → Bool
  | .submit _ | .signal _ _ | .create _ _ | .work _ => true
  | .call _ _ _ | .spurious _ | .manage => false

/-- A call of `tp_process_job`. -/
def Act.isCall : Act w ω δ → Bool
  | .call _ _ _ => true
  | _ => false

/-- A wakeup without a signal. -/
def Act.isSpurious : Act w ω δ → Bool
  | .spurious _ => true
  | _ => false

/-! ## The steps that are left -/

/-- A bound on the steps that a submission takes, and on those of the worker that it creates or
wakes, in a pool of `m` slots at most. -/
def SubmitPc.rank (m : Nat) : SubmitPc → Nat
  | .idle | .returned => 0
  | .signal _ | .wake _ _ => 11
  | .storeJob _ | .poolUnlock _ _ => 12
  | .storeWork _ | .growJob _ => 13
  | .unlockClaimed _ | .growWork _ => 14
  | .setBusy _ | .growIndex => 15
  | .create _ _ => 20 + 2 * m
  | .incWrite _ _ _ => 21 + 2 * m
  | .incRead _ _ => 22 + 2 * m
  | .addBusy _ _ => 23 + 2 * m
  | .lockInit _ _ => 24 + 2 * m
  | .condInit _ _ => 25 + 2 * m
  | .addIndex _ => 26 + 2 * m
  | .addTest _ => 27 + 2 * m
  | .poolLock _ => 28 + 2 * m
  | .test i => 29 + 2 * m + 4 * (m - i).toNat
  | .unlockBusy i => 30 + 2 * m + 4 * (m - (i + 1)).toNat
  | .readBusy i => 31 + 2 * m + 4 * (m - (i + 1)).toNat
  | .lock i => 32 + 2 * m + 4 * (m - (i + 1)).toNat

/-- A bound on the steps that a worker takes before it waits or exits. -/
def WorkPc.rank (m : Nat) : WorkPc ω δ → Nat
  | .unborn | .waiting _ | .exited | .killed => 0
  | .wait _ => 1
  | .lockWait _ => 2
  | .unlockDone _ => 3
  | .setIdle _ => 4
  | .lockDone _ => 5
  | .process _ _ _ => 6
  | .readJob _ _ => 7
  | .readWork _ => 8
  | .unlock _ => 9
  | .relock _ => 10
  | .find i => 4 + 2 * (m - i).toNat
  | .cmp i => 5 + 2 * (m - (i + 1)).toNat

/-- What a call and a wakeup may cause. -/
def Act.cost (m : Nat) : Act w ω δ → Nat
  | .call _ _ _ => 29 + 6 * m
  | .spurious _ => 10
  | .submit _ | .signal _ _ | .create _ _ | .work _ | .manage => 0

section
variable {s s' t : State w ω δ} {c n m : Nat} {a : Act w ω δ} {as : List (Act w ω δ)}
  {F : Finset Nat} {min max : Int}

/-! ## One step -/

/-- A step that signals, by its program point. -/
inductive SignalRule (s : State w ω δ) (c : Nat) (woken : Option Nat) : State w ω δ → Prop
  | held (i t) (hpc : (s.call c).pc = .signal i ∨ (s.call c).pc = .wake true i)
      (ht : s.condSignal i woken = some t) :
    SignalRule s c woken
      ((t.setSlot i fun x => { x with phase := .signalled c woken }).submitTo c .returned)
  | refused (i t) (hpc : (s.call c).pc = .wake false i) (ht : s.condSignal i woken = some t) :
    SignalRule s c woken (t.submitTo c .returned)

theorem signalStep_rule {s s' : State w ω δ} {c : Nat} {woken : Option Nat}
    (h : signalStep s c woken = some s') : SignalRule s c woken s' := by
  unfold signalStep at h
  split at h
  · next i hpc =>
    obtain ⟨t, ht, rfl⟩ := Option.map_eq_some_iff.1 h
    exact .held i t (.inl hpc) ht
  · next i hpc =>
    obtain ⟨t, ht, rfl⟩ := Option.map_eq_some_iff.1 h
    exact .held i t (.inr hpc) ht
  · next i hpc =>
    obtain ⟨t, ht, rfl⟩ := Option.map_eq_some_iff.1 h
    exact .refused i t hpc ht
  · cases h

/-- A step that creates a worker, or fails to. -/
inductive CreateRule (s : State w ω δ) (c : Nat) : Option (BitVec w) → State w ω δ → Prop
  | made (i n id) (hpc : (s.call c).pc = .create i n) :
    CreateRule s c (some id) (({ s with
        created := s.created + 1,
        thread := Function.update s.thread s.created ⟨id, .find 0⟩ }.setSlot n fun x =>
      { x with threadId := id, worker := some s.created }).submitTo c .growIndex)
  | failed (i n) (hpc : (s.call c).pc = .create i n) :
    CreateRule s c none ({ s with freed := n :: s.freed }.submitTo c (.poolUnlock false i))

theorem createStep_rule {s s' : State w ω δ} {c : Nat} {id : Option (BitVec w)}
    (h : createStep s c id = some s') : CreateRule s c id s' := by
  unfold createStep at h
  split at h
  · next i n id hpc =>
    split at h <;> cases h
    exact .made i n id hpc
  · next i n hpc =>
    cases h
    exact .failed i n hpc
  · cases h

/-- A step of a submission leaves it fewer steps, and touches no worker. -/
theorem submitStep_rank (hm : s.curThNum ≤ m) (h : submitStep s c = some s') :
    (s'.call c).pc.rank m < (s.call c).pc.rank m := by
  have hto : ∀ (u : State w ω δ) pc, pc.rank m < (s.call c).pc.rank m →
      ((u.submitTo c pc).call c).pc.rank m < (s.call c).pc.rank m := fun u pc hlt => by
    rwa [State.submitTo_pc]
  cases submitStep_rule h with
  | test i hpc | past i hpc | lock i t hpc | busy i hpc | idle i hpc | setBusy i hpc
  | unlockClaimed i hpc | storeWork i hpc | storeJob i hpc | unlockBusy i hpc | poolLock i hpc
  | refused i hpc | addTest i hpc | addIndex i hpc | condInit i n hpc | lockInit i n hpc
  | addBusy i n hpc | incRead i n hpc | incWrite i n v hpc | growIndex hpc | growWork i hpc
  | growJob i hpc | poolUnlock grown i hpc =>
    refine hto _ _ ?_
    rw [hpc]
    simp only [SubmitPc.rank]
    omega

/-- A step of a worker leaves it fewer steps. -/
theorem workStep_rank (hm : s.curThNum ≤ m) (h : workStep s n = some s') :
    (s'.thread n).pc.rank m < (s.thread n).pc.rank m := by
  have hto : ∀ (u : State w ω δ) (pc : WorkPc ω δ), pc.rank m < (s.thread n).pc.rank m →
      ((u.workTo n pc).thread n).pc.rank m < (s.thread n).pc.rank m := fun u pc hlt => by
    rwa [State.workTo_self]
  cases workStep_rule h with
  | find i hpc | missing i hpc | found i hpc | other i hpc | lockWait k t hpc | wait k hpc
  | relock k t hpc | unlock k hpc | readWork k hpc | readJob k work hpc | process k work job hpc
  | lockDone k t hpc | setIdle k hpc | unlockDone k hpc =>
    refine hto _ _ ?_
    rw [hpc]
    simp only [WorkPc.rank]
    omega

/-- The steps that are left to the submissions of a set and to the workers. -/
def State.potential (F : Finset Nat) (m : Nat) (s : State w ω δ) : Nat :=
  ∑ c ∈ F, (s.call c).pc.rank m + ∑ n ∈ Finset.range s.created, (s.thread n).pc.rank m

/-- Nobody steps who has not been created, nobody calls who is not in the set, and the number of
threads is within its limits. -/
structure Around (min max : Int) (F : Finset Nat) (s : State w ω δ) : Prop
    extends Limits min max s where
  born : ∀ n, s.created ≤ n → (s.thread n).pc = .unborn ∨ (s.thread n).pc = .killed
  called : ∀ c, c ∉ F → (s.call c).pc = .idle

theorem Around.cur (h : Around min max F s) : s.curThNum ≤ max.toNat :=
  h.range.2.trans (Int.self_le_toNat max)

theorem Around.submit_mem (h : Around min max F s) (hpc : (s.call c).pc ≠ .idle) : c ∈ F := by
  by_contra hc
  exact hpc (h.called c hc)

/-- A thread that has a step to take has been created. -/
theorem Around.lt_created (h : Around min max F s)
    (hpc : (s.thread n).pc ≠ .unborn ∧ (s.thread n).pc ≠ .killed) : n < s.created := by
  by_contra hn
  exact (h.born n (not_lt.1 hn)).elim hpc.1 hpc.2

theorem Around.lt_created_of_waiting (h : Around min max F s) {i : Int}
    (hpc : (s.thread n).pc = .waiting i) : n < s.created :=
  h.lt_created ⟨fun hp => (by cases hpc.symm.trans hp), fun hp => (by cases hpc.symm.trans hp)⟩

/-- A submission spends `k`, and the workers gain no more than `j`. -/
theorem potential_of_call (hc : c ∈ F) {k j : Nat}
    (hself : (s'.call c).pc.rank m + k ≤ (s.call c).pc.rank m)
    (hothers : ∀ d, d ≠ c → s'.call d = s.call d)
    (hthreads : ∑ n ∈ Finset.range s'.created, (s'.thread n).pc.rank m ≤
      ∑ n ∈ Finset.range s.created, (s.thread n).pc.rank m + j) :
    s'.potential F m + k ≤ s.potential F m + j := by
  have hcalls : ∑ d ∈ F, (s'.call d).pc.rank m + k ≤ ∑ d ∈ F, (s.call d).pc.rank m := by
    have hle : _ ≤ _ + F.card * 0 := sum_spend (f := fun d => (s.call d).pc.rank m)
      (g := fun d => (s'.call d).pc.rank m) hc hself
      fun d hd => (congrArg (fun x => x.pc.rank m) (hothers d hd)).le
    rwa [Nat.mul_zero, Nat.add_zero] at hle
  unfold State.potential
  omega

/-- A worker goes where it has `k` steps fewer, or `j` more. -/
theorem potential_of_work (hn : n < s.created) {k j : Nat}
    (hself : (s'.thread n).pc.rank m + k ≤ (s.thread n).pc.rank m + j)
    (hothers : ∀ l, l ≠ n → s'.thread l = s.thread l) (hcreated : s'.created = s.created)
    (hcalls : ∀ c, (s'.call c).pc = (s.call c).pc) :
    s'.potential F m + k ≤ s.potential F m + j := by
  have hsame : ∑ c ∈ F, (s'.call c).pc.rank m = ∑ c ∈ F, (s.call c).pc.rank m :=
    Finset.sum_congr rfl fun c _ => by rw [hcalls]
  have hmem : n ∈ Finset.range s.created := Finset.mem_range.2 hn
  have hold := Finset.add_sum_erase _ (fun l => (s.thread l).pc.rank m) hmem
  have hnew := Finset.add_sum_erase _ (fun l => (s'.thread l).pc.rank m) hmem
  have hrest : ∑ l ∈ (Finset.range s.created).erase n, (s'.thread l).pc.rank m =
      ∑ l ∈ (Finset.range s.created).erase n, (s.thread l).pc.rank m :=
    Finset.sum_congr rfl fun l hl => by rw [hothers l (Finset.ne_of_mem_erase hl)]
  unfold State.potential
  rw [hcreated]
  omega

/-- A signal gives the worker that it wakes another round. -/
theorem condSignal_rank {woken : Option Nat} {i : Int} (h : Around min max F s)
    (ht : s.condSignal i woken = some t) : t.call = s.call ∧
      ∑ n ∈ Finset.range t.created, (t.thread n).pc.rank m ≤
        ∑ n ∈ Finset.range s.created, (s.thread n).pc.rank m + 10 := by
  rcases condSignal_eq ht with ⟨-, rfl⟩ | ⟨n, -, hpc, rfl⟩
  · exact ⟨rfl, Nat.le_add_right ..⟩
  · have hn : n < s.created := h.lt_created_of_waiting hpc
    refine ⟨rfl, sum_gain (f := fun l => (s.thread l).pc.rank m)
      (g := fun l => ((s.workTo n (.relock i)).thread l).pc.rank m) (Finset.mem_range.2 hn) ?_
      fun l hl => ?_⟩
    · rw [State.workTo_self, hpc]
      exact le_rfl
    · rw [State.workTo_of_ne _ _ hl]

/-- A worker that is created has its slot to find. -/
theorem born_rank (id : BitVec w) :
    ∑ n ∈ Finset.range (s.created + 1),
        (Function.update s.thread s.created ⟨id, .find 0⟩ n).pc.rank m ≤
      ∑ n ∈ Finset.range s.created, (s.thread n).pc.rank m + (4 + 2 * m) := by
  rw [Finset.sum_range_succ, Function.update_self]
  refine Nat.add_le_add (Finset.sum_le_sum fun n hn => ?_) (by simp only [WorkPc.rank]; omega)
  rw [Function.update_of_ne (Finset.mem_range.1 hn).ne]

/-- A signal ends the submission, and may start a round of a worker. -/
theorem signal_potential {woken : Option Nat} {i : Int} (h : Around min max F s) (hc : c ∈ F)
    (hpc : (s.call c).pc.rank m = 11) (ht : s.condSignal i woken = some t)
    (f : Slot w ω δ → Slot w ω δ) :
    ((t.setSlot i f).submitTo c .returned).potential F m + 1 ≤ s.potential F m := by
  obtain ⟨hcall, hthreads⟩ := condSignal_rank h ht
  have hself : (((t.setSlot i f).submitTo c .returned).call c).pc.rank m + 11 ≤
      (s.call c).pc.rank m := by
    rw [State.submitTo_pc, hpc]
    exact le_rfl
  have hle : ((t.setSlot i f).submitTo c .returned).potential F m + 11 ≤ _ :=
    potential_of_call hc hself
      (fun d hd => (State.setCall_of_ne _ _ hd).trans (congrFun hcall d)) hthreads
  exact Nat.le_of_add_le_add_right (b := 10) hle

/-- **One step of the schedule**: the pool's own steps spend, and the environment pays. -/
theorem step_potential (h : Around min max F s) (ha : ∀ c, a.submission = some c → c ∈ F)
    (hs : step s a = some s') :
    s'.potential F max.toNat + (if a.isOwn then 1 else 0) ≤
      s.potential F max.toNat + a.cost max.toNat := by
  generalize hm : max.toNat = m
  have hcur : s.curThNum ≤ m := hm ▸ h.cur
  cases a with
  | call c worker job =>
    obtain ⟨hpc, rfl⟩ := step_call hs
    let t := s.setCall c fun x => { x with worker, job, pc := .test 0 }
    have hself : (t.call c).pc.rank m ≤ (s.call c).pc.rank m + (29 + 6 * m) := by
      simp only [t, State.setCall_self, hpc, SubmitPc.rank]
      omega
    have hsum := sum_gain (f := fun d => (s.call d).pc.rank m)
      (g := fun d => (t.call d).pc.rank m) (ha c rfl) hself
      fun d hd => by rw [State.setCall_of_ne _ _ hd]
    have hle := Nat.add_le_add_right hsum (∑ n ∈ Finset.range s.created, (s.thread n).pc.rank m)
    rwa [Nat.add_right_comm] at hle
  | submit c =>
    have hframe := submitStep_frame hs
    refine potential_of_call (j := 0) (ha c rfl) (submitStep_rank hcur hs) hframe.call ?_
    rw [hframe.created, hframe.thread]
    exact le_rfl
  | signal c woken =>
    cases signalStep_rule hs with
    | held i t hpc ht =>
      refine signal_potential h (ha c rfl) ?_ ht _
      rcases hpc with hpc | hpc <;> rw [hpc] <;> rfl
    | refused i t hpc ht =>
      have hle := signal_potential (m := m) h (ha c rfl) (by rw [hpc]; rfl) ht id
      rwa [State.setSlot, id, Function.update_eq_self] at hle
  | create c id =>
    cases createStep_rule hs with
    | made i n id hpc =>
      have hspend : ∀ x y : Nat, x + (5 + 2 * m) ≤ y + (4 + 2 * m) → x + 1 ≤ y := by omega
      refine hspend _ _
        (potential_of_call (ha c rfl) ?_ (fun d hd => State.setCall_of_ne _ _ hd) ?_)
      · rw [State.submitTo_pc, hpc]
        simp only [SubmitPc.rank]
        omega
      · exact born_rank id
    | failed i n hpc =>
      refine potential_of_call (k := 1) (j := 0) (ha c rfl) ?_
        (fun d hd => State.setCall_of_ne _ _ hd) le_rfl
      rw [State.submitTo_pc, hpc]
      simp only [SubmitPc.rank]
      omega
  | work n =>
    have hframe := workStep_frame hs
    have hlive : (s.thread n).pc ≠ .unborn ∧ (s.thread n).pc ≠ .killed := by
      constructor <;> intro hpc <;> rw [ThreadPool.step, workStep, hpc] at hs <;> cases hs
    exact potential_of_work (j := 0) (h.lt_created hlive) (workStep_rank hcur hs) hframe.thread
      hframe.created hframe.pc
  | spurious n =>
    obtain ⟨k, hpc, rfl⟩ := step_spurious hs
    have hn : n < s.created := h.lt_created_of_waiting hpc
    refine potential_of_work (k := 0) hn ?_ (fun l hl => State.workTo_of_ne _ _ hl) rfl
      fun _ => rfl
    rw [State.workTo_self, hpc]
    exact le_rfl
  | manage =>
    cases hs
    obtain ⟨hcall, hcreated, hthread, -⟩ := manageStep_frame s
    unfold State.potential
    rw [hcall, hcreated]
    refine Nat.add_le_add_left (Finset.sum_le_sum fun n _ => ?_) _
    rcases hthread n with hsame | ⟨_, _, _, hkilled⟩
    · rw [hsame]
    · rw [hkilled]
      exact Nat.zero_le _

/-! ## Runs -/

/-- A thread that moves keeps the others unborn. -/
theorem Around.born_of_thread (h : Around min max F s) (hn : n < s.created)
    (hothers : ∀ l, l ≠ n → s'.thread l = s.thread l) (hcreated : s'.created = s.created) (l : Nat)
    (hl : s'.created ≤ l) : (s'.thread l).pc = .unborn ∨ (s'.thread l).pc = .killed := by
  rw [hcreated] at hl
  rw [hothers l (by omega)]
  exact h.born l hl

theorem Around.step (h : Around min max F s) (ha : ∀ c, a.submission = some c → c ∈ F)
    (hs : step s a = some s') : Around min max F s' := by
  have hcur := h.toLimits.step hs
  have hcalled : (∀ d, a.submission ≠ some d → (s'.call d).pc = (s.call d).pc) →
      ∀ d, d ∉ F → (s'.call d).pc = .idle := fun hsame d hd => by
    rw [hsame d fun he => hd (ha d he)]
    exact h.called d hd
  cases a with
  | call c worker job =>
    obtain ⟨-, rfl⟩ := step_call hs
    exact ⟨hcur, h.born, hcalled fun d hd => by
      rw [State.setCall_of_ne _ _ fun he => hd (congrArg some he.symm)]⟩
  | submit c =>
    have hframe := submitStep_frame hs
    refine ⟨hcur, ?_, hcalled fun d hd => by
      rw [hframe.call d fun he => hd (congrArg some he.symm)]⟩
    rw [hframe.created, hframe.thread]
    exact h.born
  | signal c woken =>
    have hframe := signalStep_frame hs
    refine ⟨hcur, fun l hl => ?_, hcalled fun d hd => by
      rw [hframe.call d fun he => hd (congrArg some he.symm)]⟩
    rw [hframe.created] at hl
    rcases hframe.thread l with hsame | ⟨k, hwaiting, -⟩
    · rw [hsame]
      exact h.born l hl
    · rcases h.born l hl with hpc | hpc <;> cases hpc.symm.trans hwaiting
  | create c id =>
    obtain ⟨-, -, hcall, hthread, hcreated, -⟩ := createStep_frame hs
    refine ⟨hcur, fun l hl => ?_, hcalled fun d hd => by
      rw [hcall d fun he => hd (congrArg some he.symm)]⟩
    cases createStep_rule hs with
    | made i n id hpc =>
      have hl' : s.created + 1 ≤ l := hl
      rw [hthread l (by omega)]
      exact h.born l (by omega)
    | failed i n hpc => exact h.born l hl
  | work n =>
    have hframe := workStep_frame hs
    have hlive : (s.thread n).pc ≠ .unborn ∧ (s.thread n).pc ≠ .killed := by
      constructor <;> intro hpc <;> rw [ThreadPool.step, workStep, hpc] at hs <;> cases hs
    exact ⟨hcur, h.born_of_thread (h.lt_created hlive) hframe.thread hframe.created,
      hcalled fun d _ => hframe.pc d⟩
  | spurious n =>
    obtain ⟨k, hpc, rfl⟩ := step_spurious hs
    have hn : n < s.created := h.lt_created_of_waiting hpc
    exact ⟨hcur, h.born_of_thread hn (fun l hl => State.workTo_of_ne _ _ hl) rfl,
      hcalled fun _ _ => rfl⟩
  | manage =>
    cases hs
    obtain ⟨hcall, hcreated, hthread, -⟩ := manageStep_frame s
    refine ⟨hcur, fun l hl => ?_, hcalled fun d _ => by rw [hcall]⟩
    rw [hcreated] at hl
    rcases hthread l with hsame | ⟨_, _, _, hkilled⟩
    · rw [hsame]
      exact h.born l hl
    · exact .inr hkilled

/-- The costs of a run. -/
theorem sum_cost (m : Nat) (as : List (Act w ω δ)) : (as.map (Act.cost m)).sum =
    (29 + 6 * m) * as.countP Act.isCall + 10 * as.countP Act.isSpurious := by
  induction as with
  | nil => rfl
  | cons a as ih =>
    rw [List.map_cons, List.sum_cons, ih, List.countP_cons, List.countP_cons]
    cases a with
    | call =>
      simp only [Act.cost, Act.isCall, Act.isSpurious, if_true, Bool.false_eq_true, if_false,
        Nat.mul_succ]
      omega
    | spurious =>
      simp only [Act.cost, Act.isCall, Act.isSpurious, if_true, Bool.false_eq_true, if_false,
        Nat.add_zero]
      omega
    | submit | signal | create | work | manage =>
      simp only [Act.cost, Act.isCall, Act.isSpurious, Bool.false_eq_true, if_false,
        Nat.add_zero]
      omega

/-- Each worker of an initialised pool has its slot to find. -/
theorem Initialised.potential_eq (h : Initialised min max s) :
    s.potential F m = (4 + 2 * m) * min.toNat := by
  have hcalls : ∑ c ∈ F, (s.call c).pc.rank m = 0 :=
    Finset.sum_eq_zero fun c _ => by rw [(h.calls c).1]; rfl
  have hthreads : ∀ n ∈ Finset.range s.created, (s.thread n).pc.rank m = 4 + 2 * m :=
    fun n hn => by
      rw [h.threads, if_pos (Finset.mem_range.1 hn)]
      simp only [WorkPc.rank]
      omega
  have hcreated : s.created = min.toNat := by
    rw [← h.created]
    rfl
  unfold State.potential
  rw [hcalls, Finset.sum_congr rfl hthreads, Finset.sum_const, Finset.card_range, smul_eq_mul,
    hcreated, Nat.zero_add, Nat.mul_comm]

/-- The submissions of a run. -/
theorem exists_calls {C : State w ω δ → Act w ω δ → Prop} {s₀ : State w ω δ}
    (h₀ : Initialised min max s₀) (hr : (machine w ω δ min max).Run C s₀ as s) :
    ∃ F : Finset Nat, (machine w ω δ min max).Run
      (fun _ a => ∀ c, a.submission = some c → c ∈ F) s₀ as s ∧ Around min max F s₀ := by
  refine ⟨(as.filterMap Act.submission).toFinset, hr.of_labels fun a ha c hc => ?_,
    ⟨.init h₀.created_pool, fun n hn => .inl ?_, fun c _ => (h₀.calls c).1⟩⟩
  · exact List.mem_toFinset.2 (List.mem_filterMap.2 ⟨a, ha, hc⟩)
  · rw [h₀.threads, if_neg (not_lt.2 hn)]

/-- **No call and no worker runs on.** In every run from an initialised pool whose slots are all
idle, with its manager at work and whatever the signals wake and `pthread_create` returns, the
submissions and the workers take at most `29 + 6 * max` steps for each call of `tp_process_job`,
`10` for each wakeup without a signal, and `4 + 2 * max` for each worker that the pool has from the
start. -/
theorem steps_le {s₀ : State w ω δ} (h₀ : Initialised min max s₀)
    (hr : (machine w ω δ min max).Run Machine.anyStep s₀ as s) :
    as.countP Act.isOwn ≤ (29 + 6 * max.toNat) * as.countP Act.isCall +
      10 * as.countP Act.isSpurious + (4 + 2 * max.toNat) * min.toNat := by
  obtain ⟨F, hrun, haround⟩ := exists_calls h₀ hr
  have hle : as.countP Act.isOwn + s.potential F max.toNat ≤ _ :=
    hrun.own_le haround (fun _ _ _ hI ha hs => hI.step ha hs)
      fun _ _ _ hI ha hs => step_potential hI ha hs
  rw [sum_cost, h₀.potential_eq] at hle
  omega

end

/-- A call that finds the only slot and signals before the worker waits for it. -/
def lostBeforeWait : List (Act 64 Nat Nat) :=
  .call 0 10 20 :: List.replicate 7 (Act.submit 0) ++ [.signal 0 none] ++
    List.replicate 4 (Act.work 0)

theorem lostBeforeWait_steps : ∃ s,
    (machine 64 Nat Nat 1 1).Run Machine.anyStep (idlePool 1 1) lostBeforeWait s ∧
      lostBeforeWait.countP Act.isOwn = 12 ∧ lostBeforeWait.countP Act.isOwn ≤ 41 := by
  have hrun : ((machine 64 Nat Nat 1 1).runFrom (idlePool 1 1) lostBeforeWait).isSome := by
    decide +kernel
  obtain ⟨s, hs⟩ := Option.isSome_iff_exists.1 hrun
  have hr : (machine 64 Nat Nat 1 1).Run Machine.anyStep (idlePool 1 1) lostBeforeWait s :=
    .of_runFrom (fun _ _ _ => trivial) hs
  exact ⟨s, hr, by decide, steps_le (idlePool_initialised (by decide) (by decide)) hr⟩

end LinuxTraining.ThreadPool
