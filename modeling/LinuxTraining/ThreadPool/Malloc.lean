import LinuxTraining.ThreadPool.Calls

/-!
# The thread pool: what `malloc` returns

The block of `thread_info` is not cleared, and `tp_init` sets up mutex, condition variable and
thread of the first slots, but not `is_busy`; only a growth sets it. So the calls that follow see
what `malloc` has returned in `is_busy` of the first `min_th_num` slots, and nothing else of it:
pools that are `Alike` answer alike (`Alike.trace`), and a pool shows its idle slots one by one to
whoever submits jobs (`trace_busy`).
-/

namespace LinuxTraining.ThreadPool

open Lib

variable {w : Nat} {ω δ : Type}

/-- The slot that a call gives its job to: none, if the job is dropped or the call has no job. -/
def assigned (p : Pool w ω δ) : Call w ω δ → Option Int
  | .processJob worker job create => (tpProcessJob p worker job create).1
  | .jobDone _ | .managePass => none

/-- What is seen of calls one after the other: for each one the slot that it gives its job to, and
the number of threads after it; `none` if they cannot be made. -/
def trace (p : Pool w ω δ) : List (Call w ω δ) → Option (List (Option Int × Int))
  | [] => some []
  | a :: as =>
    (callStep p a).bind fun q => (trace q as).map fun seen => (assigned p a, q.curThNum) :: seen

/-- What calls read of a pool is the same in both. -/
structure Alike (p q : Pool w ω δ) : Prop where
  minThNum : p.minThNum = q.minThNum
  curThNum : p.curThNum = q.curThNum
  maxThNum : p.maxThNum = q.maxThNum
  busy : ∀ i, min p.minThNum 0 ≤ i → i < p.curThNum →
    (p.threadInfo i).isBusy = (q.threadInfo i).isBusy
  jobs : ∀ i, (p.threadInfo i).hasJob = (q.threadInfo i).hasJob

section
variable {p q p' q' : Pool w ω δ} {i : Int}

/-- A slot is changed in both. -/
theorem Alike.setInfo (h : Alike p q) (i : Int) {f g : Info w ω δ → Info w ω δ}
    (hbusy : ∀ x y, x.isBusy = y.isBusy → (f x).isBusy = (g y).isBusy)
    (hjobs : ∀ x y, x.hasJob = y.hasJob → (f x).hasJob = (g y).hasJob) :
    Alike (p.setInfo i f) (q.setInfo i g) where
  minThNum := h.minThNum
  curThNum := h.curThNum
  maxThNum := h.maxThNum
  busy k h0 hk := by
    rw [setInfo_apply, setInfo_apply]
    split
    · exact hbusy _ _ (h.busy k h0 hk)
    · exact h.busy k h0 hk
  jobs k := by
    rw [setInfo_apply, setInfo_apply]
    split
    · exact hjobs _ _ (h.jobs k)
    · exact h.jobs k

/-- What is not read is changed. -/
theorem Alike.note (h : Alike p q) (e e' : Ledger.Event Resource) :
    Alike (p.note e) (q.note e') :=
  ⟨h.minThNum, h.curThNum, h.maxThNum, h.busy, h.jobs⟩

/-! ## The loops -/

theorem idleFrom_congr {info info' : Int → Info w ω δ} {k : Nat}
    (h : ∀ j, i ≤ j → j < i + k → (info j).isBusy = (info' j).isBusy) :
    idleFrom info i k = idleFrom info' i k := by
  induction k generalizing i with
  | zero => rfl
  | succ k ih =>
    push_cast at h
    rw [idleFrom, idleFrom, h i le_rfl (by omega), ih fun j h1 h2 => h j (by omega) (by omega)]

theorem countBusy_congr {info info' : Int → Info w ω δ} {k b : Nat}
    (h : ∀ j, i ≤ j → j < i + k → (info j).isBusy = (info' j).isBusy) :
    countBusy info i b k = countBusy info' i b k := by
  induction k generalizing i b with
  | zero => rfl
  | succ k ih =>
    push_cast at h
    rw [countBusy, countBusy, h i le_rfl (by omega), ih fun j h1 h2 => h j (by omega) (by omega)]

/-- The slots that the loops over the pool visit. -/
theorem Alike.visited (h : Alike p q) {j : Int} (h0 : 0 ≤ j)
    (hj : j < 0 + (p.curThNum.toNat : Int)) :
    (p.threadInfo j).isBusy = (q.threadInfo j).isBusy :=
  h.busy j ((min_le_right _ _).trans h0) (by omega)

theorem Alike.firstIdle (h : Alike p q) : p.firstIdle = q.firstIdle := by
  rw [Pool.firstIdle, Pool.firstIdle, ← h.curThNum]
  exact idleFrom_congr fun j => h.visited

theorem Alike.status (h : Alike p q) : tpGetTpStatus p = tpGetTpStatus q := by
  rw [tpGetTpStatus, tpGetTpStatus, ← h.curThNum, countBusy_congr fun j => h.visited]

/-! ## The calls -/

/-- The next slot is busy in both. -/
theorem Alike.growSlot (h : Alike p q) : Alike p.growSlot q.growSlot where
  minThNum := h.minThNum
  curThNum := congrArg (· + 1) h.curThNum
  maxThNum := h.maxThNum
  busy k h0 hk := by
    have hlt : k < p.curThNum + 1 := hk
    rw [growSlot_apply, growSlot_apply, ← h.curThNum]
    split
    · rfl
    · exact h.busy k h0 (by omega)
  jobs k := by
    rw [growSlot_apply, growSlot_apply, ← h.curThNum]
    split
    · exact h.jobs k
    · exact h.jobs k

/-- Threads are created in both. -/
theorem Alike.spawn (h : Alike p q) (i : Int) (id id' : BitVec w) :
    Alike (p.spawn i id) (q.spawn i id') := by
  have hset := h.setInfo i (f := fun x => { x with threadId := id, thread := some p.created })
    (g := fun x => { x with threadId := id', thread := some q.created })
    (fun _ _ h => h) fun _ _ h => h
  exact ⟨hset.minThNum, hset.curThNum, hset.maxThNum, hset.busy, hset.jobs⟩

theorem Alike.give (h : Alike p q) (i : Int) (worker : ω) (job : δ) :
    Alike (p.give i worker job) (q.give i worker job) :=
  h.setInfo i (fun _ _ h => h) fun _ _ _ => rfl

/-- A job is given to the same slot. -/
theorem Alike.processJob (h : Alike p q) (worker : ω) (job : δ) (create : Option (BitVec w)) :
    (tpProcessJob p worker job create).1 = (tpProcessJob q worker job create).1 ∧
      Alike (tpProcessJob p worker job create).2 (tpProcessJob q worker job create).2 := by
  have hfirst := h.firstIdle
  cases hidle : p.firstIdle with
  | some i =>
    rw [hidle] at hfirst
    rw [tpProcessJob_idle hidle, tpProcessJob_idle hfirst.symm]
    refine ⟨rfl, Alike.give ?_ i worker job⟩
    exact h.setInfo i (fun _ _ _ => rfl) fun _ _ h => h
  | none =>
    rw [hidle] at hfirst
    rcases Int.lt_or_le p.curThNum p.maxThNum with hmax | hmax
    · have hmax' : q.curThNum < q.maxThNum := h.curThNum ▸ h.maxThNum ▸ hmax
      cases create with
      | none =>
        rw [tpProcessJob_failed hidle hmax, tpProcessJob_failed hfirst.symm hmax']
        exact ⟨rfl, h.growSlot.note ..⟩
      | some id =>
        rw [tpProcessJob_grown hidle hmax, tpProcessJob_grown hfirst.symm hmax', ← h.curThNum]
        exact ⟨rfl, (h.growSlot.spawn p.curThNum id id).give p.curThNum worker job⟩
    · have hmax' : q.maxThNum ≤ q.curThNum := h.curThNum ▸ h.maxThNum ▸ hmax
      rw [tpProcessJob_full hidle hmax, tpProcessJob_full hfirst.symm hmax']
      exact ⟨rfl, h⟩

/-- The last slot is removed from both, or from neither. -/
theorem Alike.deleteThread (h : Alike p q) :
    (tpDeleteThread p).1 = (tpDeleteThread q).1 ∧
      Alike (tpDeleteThread p).2 (tpDeleteThread q).2 := by
  rw [tpDeleteThread, tpDeleteThread, ← h.curThNum, ← h.minThNum]
  split
  · exact ⟨rfl, h⟩
  · next hmin =>
    rw [← h.busy (p.curThNum - 1) (by omega) (by omega)]
    split
    · exact ⟨rfl, h⟩
    · refine ⟨rfl, rfl, rfl, h.maxThNum, fun i h0 hi => ?_, h.jobs⟩
      exact h.busy i h0 (hi.trans (Int.sub_one_lt_iff.2 le_rfl))

theorem Alike.deleteLoop (k : Nat) (h : Alike p q) :
    Alike (ThreadPool.deleteLoop p k) (ThreadPool.deleteLoop q k) := by
  induction k generalizing p q with
  | zero => exact h
  | succ k ih =>
    obtain ⟨hok, hdelete⟩ := h.deleteThread
    rw [ThreadPool.deleteLoop, ThreadPool.deleteLoop]
    generalize tpDeleteThread p = r at *
    generalize tpDeleteThread q = r' at *
    obtain ⟨ok, p⟩ := r
    obtain ⟨ok', q⟩ := r'
    obtain rfl : ok = ok' := hok
    cases ok with
    | false => exact hdelete
    | true => exact ih hdelete

theorem Alike.managePass (h : Alike p q) :
    Alike (ThreadPool.managePass p) (ThreadPool.managePass q) := by
  rw [ThreadPool.managePass, ThreadPool.managePass, h.status, ← h.curThNum, ← h.minThNum]
  split
  · exact h.deleteLoop _
  · exact h

/-- A call can be made in both or in neither, is answered alike, and leaves them alike. -/
theorem Alike.callStep (h : Alike p q) (a : Call w ω δ) :
    assigned p a = assigned q a ∧
      (callStep p a = none ∧ callStep q a = none ∨
        ∃ p' q', callStep p a = some p' ∧ callStep q a = some q' ∧ Alike p' q') := by
  cases a with
  | processJob worker job create =>
    obtain ⟨hgiven, halike⟩ := h.processJob worker job create
    exact ⟨hgiven, .inr ⟨_, _, rfl, rfl, halike⟩⟩
  | jobDone i =>
    refine ⟨rfl, ?_⟩
    cases hjob : (p.threadInfo i).hasJob with
    | false =>
      have hjob' : (q.threadInfo i).hasJob = false := (h.jobs i).symm.trans hjob
      exact .inl ⟨if_neg (Bool.eq_false_iff.1 hjob), if_neg (Bool.eq_false_iff.1 hjob')⟩
    | true =>
      have hjob' : (q.threadInfo i).hasJob = true := (h.jobs i).symm.trans hjob
      refine .inr ⟨_, _, if_pos hjob, if_pos hjob', ?_⟩
      exact h.setInfo i (fun _ _ _ => rfl) fun _ _ _ => rfl
  | managePass => exact ⟨rfl, .inr ⟨_, _, rfl, rfl, h.managePass⟩⟩

/-- Pools that are alike answer alike. -/
theorem Alike.trace (h : Alike p q) (as : List (Call w ω δ)) :
    ThreadPool.trace p as = ThreadPool.trace q as := by
  induction as generalizing p q with
  | nil => rfl
  | cons a as ih =>
    obtain ⟨hassigned, ⟨hp, hq⟩ | ⟨p', q', hp, hq, halike⟩⟩ := h.callStep a
    · rw [ThreadPool.trace, ThreadPool.trace, hp, hq]
      rfl
    · rw [ThreadPool.trace, ThreadPool.trace, hp, hq, Option.bind_some, Option.bind_some,
        hassigned, halike.curThNum, ih halike]

/-! ## From the block that `malloc` returns -/

theorem Alike.refl (p : Pool w ω δ) : Alike p p :=
  ⟨rfl, rfl, rfl, fun _ _ _ => rfl, fun _ => rfl⟩

theorem Alike.symm (h : Alike p q) : Alike q p where
  minThNum := h.minThNum.symm
  curThNum := h.curThNum.symm
  maxThNum := h.maxThNum.symm
  busy i h0 hi := (h.busy i (h.minThNum ▸ h0) (h.curThNum ▸ hi)).symm
  jobs i := (h.jobs i).symm

theorem Alike.trans (h : Alike p q) (h' : Alike q p') : Alike p p' where
  minThNum := h.minThNum.trans h'.minThNum
  curThNum := h.curThNum.trans h'.curThNum
  maxThNum := h.maxThNum.trans h'.maxThNum
  busy i h0 hi :=
    (h.busy i h0 hi).trans (h'.busy i (h.minThNum ▸ h0) (h.curThNum ▸ hi))
  jobs i := (h.jobs i).trans (h'.jobs i)

/-- `pthread_create` writes what no call reads. -/
theorem spawn_alike (p : Pool w ω δ) (i : Int) (id : BitVec w) :
    Alike ((p.initSlot i).spawn i id) p := by
  have hthread : ∀ k, (((p.initSlot i).spawn i id).threadInfo k).isBusy =
      (p.threadInfo k).isBusy ∧ (((p.initSlot i).spawn i id).threadInfo k).hasJob =
        (p.threadInfo k).hasJob := by
    intro k
    show (((p.initSlot i).setInfo i fun x =>
        { x with threadId := id, thread := some (p.initSlot i).created }).threadInfo k).isBusy = _ ∧
      (((p.initSlot i).setInfo i fun x =>
        { x with threadId := id, thread := some (p.initSlot i).created }).threadInfo k).hasJob = _
    rw [setInfo_apply]
    split <;> exact ⟨rfl, rfl⟩
  exact ⟨rfl, rfl, rfl, fun k _ _ => (hthread k).1, fun k => (hthread k).2⟩

theorem initFrom_alike (ans : Int → Option (BitVec w)) (p : Pool w ω δ) (i : Int) (k : Nat) :
    Alike (initFrom ans p i k).2 p := by
  induction k generalizing p i with
  | zero => exact .refl p
  | succ k ih =>
    rw [initFrom]
    split
    · exact ⟨rfl, rfl, rfl, fun _ _ _ => rfl, fun _ => rfl⟩
    · exact (ih _ _).trans (spawn_alike p i _)

theorem tpInit_alike (ans : Int → Option (BitVec w)) (manager : Option (BitVec w))
    (p : Pool w ω δ) : Alike (tpInit ans manager p).2 p := by
  have hinit := initFrom_alike ans p 0 p.minThNum.toNat
  rw [tpInit]
  generalize initFrom ans p 0 p.minThNum.toNat = r at *
  obtain ⟨ok, q⟩ := r
  cases ok with
  | false => exact hinit
  | true =>
    cases manager with
    | none => exact hinit
    | some id => exact ⟨hinit.minThNum, hinit.curThNum, hinit.maxThNum, hinit.busy, hinit.jobs⟩

/-- What calls read of a fresh pool. -/
theorem creatThreadPool_alike {minNum maxNum : Int} {raw raw' : Int → Info w ω δ} :
    Alike (creatThreadPool minNum maxNum raw) (creatThreadPool minNum maxNum raw') ↔
      ∀ i, 0 ≤ i → i < minNum → (raw i).isBusy = (raw' i).isBusy := by
  constructor
  · intro h i h0 hi
    exact h.busy i ((min_le_right _ _).trans h0) hi
  · intro h
    refine ⟨rfl, rfl, rfl, fun i h0 hi => ?_, fun _ => rfl⟩
    have h0 : min minNum 0 ≤ i := h0
    have hi : i < minNum := hi
    exact h i (by omega) hi

/-! ## What a submitter sees -/

theorem idleFrom_some {info : Int → Info w ω δ} {k : Nat} {j : Int} (hj : i ≤ j)
    (hk : j < i + k) (hbusy : ∀ l, i ≤ l → l < j → (info l).isBusy = true)
    (hidle : (info j).isBusy = false) : idleFrom info i k = some j := by
  induction k generalizing i with
  | zero =>
    push_cast at hk
    omega
  | succ k ih =>
    rw [idleFrom]
    rcases eq_or_ne i j with rfl | hne
    · rw [if_neg (Bool.eq_false_iff.1 hidle)]
    · rw [if_pos (hbusy i le_rfl (by omega))]
      push_cast at hk
      exact ih (by omega) (by omega) fun l h1 h2 => hbusy l (by omega) h2

theorem idleFrom_spec {info : Int → Info w ω δ} {k : Nat} {j : Int}
    (h : idleFrom info i k = some j) : (info j).isBusy = false := by
  induction k generalizing i with
  | zero => cases h
  | succ k ih =>
    rw [idleFrom] at h
    split at h
    · exact ih h
    · next hidle =>
      obtain rfl := Option.some.inj h
      exact Bool.eq_false_iff.2 hidle

/-- The first idle slot, seen by a job that cannot make the pool grow. -/
theorem processJob_none_assigned (p : Pool w ω δ) (worker : ω) (job : δ) :
    (tpProcessJob p worker job none).1 = p.firstIdle := by
  cases hidle : p.firstIdle with
  | some i => rw [tpProcessJob_idle hidle]
  | none =>
    rcases Int.lt_or_le p.curThNum p.maxThNum with hmax | hmax
    · rw [tpProcessJob_failed hidle hmax]
    · rw [tpProcessJob_full hidle hmax]

theorem given_isBusy (p : Pool w ω δ) (j : Int) (worker : ω) (job : δ) (i : Int) :
    (((p.setInfo j fun x => { x with isBusy := true }).give j worker job).threadInfo i).isBusy =
      if i = j then true else (p.threadInfo i).isBusy := by
  rw [Pool.give, setInfo_apply, setInfo_apply]
  split <;> rfl

/-- What is seen to be the same in every run is the same in the first call, and after it. -/
theorem trace_processJob (worker : ω) (job : δ) (create : Option (BitVec w))
    (h : ∀ as, trace p as = trace q as) :
    (tpProcessJob p worker job create).1 = (tpProcessJob q worker job create).1 ∧
      ∀ as, trace (tpProcessJob p worker job create).2 as =
        trace (tpProcessJob q worker job create).2 as := by
  have hhead : ((tpProcessJob p worker job create).1,
        (tpProcessJob p worker job create).2.curThNum) =
      ((tpProcessJob q worker job create).1, (tpProcessJob q worker job create).2.curThNum) :=
    List.head_eq_of_cons_eq (Option.some.inj (h [.processJob worker job create]))
  refine ⟨(Prod.mk.inj hhead).1, fun as => ?_⟩
  have hcons : (trace (tpProcessJob p worker job create).2 as).map
        (((tpProcessJob p worker job create).1,
          (tpProcessJob p worker job create).2.curThNum) :: ·) =
      (trace (tpProcessJob q worker job create).2 as).map
        (((tpProcessJob q worker job create).1,
          (tpProcessJob q worker job create).2.curThNum) :: ·) :=
    h (.processJob worker job create :: as)
  rw [hhead] at hcons
  exact Option.map_injective List.cons_injective hcons

/-- Pools that are seen to do the same have the same idle slots: the first one is where a job goes,
and then it is the next one's turn. -/
theorem trace_busy (worker : ω) (job : δ) (k : Nat) (hcur : p.curThNum = q.curThNum)
    (hbusy : ∀ i, 0 ≤ i → i < p.curThNum - k →
      (p.threadInfo i).isBusy = true ∧ (q.threadInfo i).isBusy = true)
    (h : ∀ as, trace p as = trace q as) :
    ∀ i, 0 ≤ i → i < p.curThNum → (p.threadInfo i).isBusy = (q.threadInfo i).isBusy := by
  induction k generalizing p q with
  | zero =>
    intro i h0 hi
    obtain ⟨hp, hq⟩ := hbusy i h0 (by omega)
    rw [hp, hq]
  | succ k ih =>
    push_cast at hbusy
    obtain ⟨hassigned, hlater⟩ := trace_processJob worker job none h
    rw [processJob_none_assigned, processJob_none_assigned] at hassigned
    -- the slot whose turn it is
    obtain ⟨j, hj⟩ : ∃ j, j = p.curThNum - k - 1 := ⟨_, rfl⟩
    have hfirst : 0 ≤ j → (p.threadInfo j).isBusy = false → p.firstIdle = some j := fun h0 hidle =>
      idleFrom_some h0 (by omega) (fun l h1 h2 => (hbusy l h1 (by omega)).1) hidle
    have hfirst' : 0 ≤ j → (q.threadInfo j).isBusy = false → q.firstIdle = some j := fun h0 hidle =>
      idleFrom_some h0 (by omega) (fun l h1 h2 => (hbusy l h1 (by omega)).2) hidle
    by_cases hidle : 0 ≤ j ∧ ((p.threadInfo j).isBusy = false ∨ (q.threadInfo j).isBusy = false)
    · obtain ⟨h0, hidle⟩ := hidle
      have hp : p.firstIdle = some j := hidle.elim (hfirst h0) fun hq =>
        hassigned.trans (hfirst' h0 hq)
      have hq : q.firstIdle = some j := hassigned.symm.trans hp
      rw [tpProcessJob_idle hp, tpProcessJob_idle hq] at hlater
      have hall := ih (p := (p.setInfo j fun x => { x with isBusy := true }).give j worker job)
        (q := (q.setInfo j fun x => { x with isBusy := true }).give j worker job) hcur ?_ hlater
      · intro i hi0 hi
        rcases eq_or_ne i j with rfl | hne
        · rw [idleFrom_spec hp, idleFrom_spec hq]
        · have hi := hall i hi0 hi
          rwa [given_isBusy, given_isBusy, if_neg hne, if_neg hne] at hi
      · intro i hi0 hi
        have hi : i < p.curThNum - k := hi
        rw [given_isBusy, given_isBusy]
        split
        · exact ⟨rfl, rfl⟩
        · exact hbusy i hi0 (by omega)
    · refine ih hcur (fun i hi0 hi => ?_) h
      rcases eq_or_ne i j with rfl | hne
      · have hnot := fun hor => hidle ⟨hi0, hor⟩
        exact ⟨Bool.not_eq_false _ |>.mp fun hp => hnot (.inl hp),
          Bool.not_eq_false _ |>.mp fun hq => hnot (.inr hq)⟩
      · exact hbusy i hi0 (by omega)

/-- **What the pool does depends on what `malloc` returns** in `is_busy` of the first `min_th_num`
slots, and in nothing else. -/
theorem trace_iff (worker : ω) (job : δ) (minNum maxNum : Int) (raw raw' : Int → Info w ω δ)
    (ans ans' : Int → Option (BitVec w)) (manager manager' : Option (BitVec w)) :
    (∀ as, trace (tpInit ans manager (creatThreadPool minNum maxNum raw)).2 as =
      trace (tpInit ans' manager' (creatThreadPool minNum maxNum raw')).2 as) ↔
      ∀ i, 0 ≤ i → i < minNum → (raw i).isBusy = (raw' i).isBusy := by
  have hp := tpInit_alike ans manager (creatThreadPool minNum maxNum raw)
  have hq := tpInit_alike ans' manager' (creatThreadPool minNum maxNum raw')
  constructor
  · intro h i h0 hi
    have hcur : (tpInit ans manager (creatThreadPool minNum maxNum raw)).2.curThNum = minNum :=
      hp.curThNum
    have hcur' : (tpInit ans' manager' (creatThreadPool minNum maxNum raw')).2.curThNum = minNum :=
      hq.curThNum
    have hmin : min minNum 0 ≤ i := (min_le_right _ _).trans h0
    have hall := trace_busy worker job minNum.toNat (hcur.trans hcur'.symm)
      (fun j hj0 hj => by omega) h i h0 (by omega)
    exact ((hp.symm.busy i hmin hi).trans hall).trans (hq.symm.busy i hmin hi).symm
  · intro h
    exact ((hp.trans (creatThreadPool_alike.2 h)).trans hq.symm).trace

end

/-- One worker; its slot is idle where the block is zero, and looks busy where `is_busy` is not, and
then the first job is dropped or makes the pool grow. -/
theorem zeroInfo_trace :
    (tpInit (fun _ => some 7) (some 8) (creatThreadPool 1 2 zeroInfo)).1 = true ∧
      (tpInit (fun _ => some 7) (some 8)
        (creatThreadPool 1 2 fun i => { zeroInfo i with isBusy := true })).1 = true ∧
      trace (tpInit (fun _ => some 7) (some 8) (creatThreadPool 1 2 zeroInfo)).2
        [.processJob 0 0 (some 9)] = some [(some 0, 1)] ∧
      trace (tpInit (fun _ => some 7) (some 8)
        (creatThreadPool 1 2 fun i => { zeroInfo i with isBusy := true })).2
        [.processJob 0 0 (some 9)] = some [(some 1, 2)] := by
  decide

end LinuxTraining.ThreadPool
