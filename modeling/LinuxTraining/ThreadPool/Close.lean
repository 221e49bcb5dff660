import LinuxTraining.ThreadPool.Calls

/-!
# The thread pool: `tp_close`

`tp_close` takes down the first `cur_th_num` slots. `Tidy` says that these are the slots that have
been set up, each with a thread of its own: `tp_init` leaves the pool so when it returns `TRUE`,
and a growth keeps it so if its `pthread_create` succeeds (`callStep_closable`). `tpClose_matches`:
these are the runs after which `tp_close` ends what the pool has created, each thing once;
`cur_th_num` is set before the threads exist, and no failure takes it back.
-/

namespace LinuxTraining.ThreadPool

open Lib Ledger

variable {w : Nat} {ω δ : Type}

/-- What the pool owns, with its first `m` slots set up. -/
def Pool.Owns (p : Pool w ω δ) (m : Int) : Resource → Prop
  | .thread n => ∃ i, 0 ≤ i ∧ i < m ∧ (p.threadInfo i).thread = some n
  | .manager => p.manageThreadId ≠ none
  | .stranger => False
  | .lock i | .cond i => 0 ≤ i ∧ i < m
  | .tpLock => True
  | .memory i => i = 0

/-- The first `m` slots are set up, each with a thread of its own, and nothing else is held. -/
structure Tidy (p : Pool w ω δ) (m : Int) : Prop where
  named : ∀ i, 0 ≤ i → i < m → ∃ n, (p.threadInfo i).thread = some n
  known : ∀ i n, (p.threadInfo i).thread = some n → n < p.created
  distinct : ∀ i j n, (p.threadInfo i).thread = some n → (p.threadInfo j).thread = some n → i = j
  owned : ∀ r, r ∈ held p.log ↔ p.Owns m r

/-- What `tp_close` takes down is what is held, each once: the threads that were created and not
deleted, and the mutexes and condition variables that were initialised and not destroyed. -/
structure ClosesRight (p : Pool w ω δ) : Prop where
  once : (tpClose p).Nodup
  all : ∀ r, r ∈ tpClose p ↔ r ∈ held p.log

/-- A growth by this call starts at the end of the pool, and its `pthread_create` succeeds. -/
def Grows (p : Pool w ω δ) : Call w ω δ → Prop
  | .processJob _ _ create =>
    p.firstIdle = none → p.curThNum < p.maxThNum → 0 ≤ p.curThNum ∧ create ≠ none
  | .jobDone _ | .managePass => True

section
variable {p q : Pool w ω δ} {m i : Int} {n : Nat} {r : Resource}

/-- What is read of a pool here. -/
theorem Tidy.congr (h : Tidy p m) (hthread : ∀ i, (q.threadInfo i).thread = (p.threadInfo i).thread)
    (hcreated : q.created = p.created) (hmanager : q.manageThreadId = p.manageThreadId)
    (hlog : q.log = p.log) : Tidy q m where
  named i h0 hi := by
    rw [hthread]
    exact h.named i h0 hi
  known i n hn := by
    rw [hcreated]
    exact h.known i n ((hthread i).symm.trans hn)
  distinct i j n hi hj := h.distinct i j n ((hthread i).symm.trans hi) ((hthread j).symm.trans hj)
  owned r := by
    rw [hlog, h.owned]
    cases r <;> simp only [Pool.Owns, hthread, hmanager]

/-- A change of a slot that keeps its thread. -/
theorem setInfo_thread (p : Pool w ω δ) (i : Int) {f : Info w ω δ → Info w ω δ}
    (hf : ∀ x, (f x).thread = x.thread) (k : Int) :
    ((p.setInfo i f).threadInfo k).thread = (p.threadInfo k).thread := by
  rw [setInfo_apply]
  split
  · exact hf _
  · rfl

theorem Tidy.setInfo (h : Tidy p m) (i : Int) {f : Info w ω δ → Info w ω δ}
    (hf : ∀ x, (f x).thread = x.thread) : Tidy (p.setInfo i f) m :=
  h.congr (setInfo_thread p i hf) rfl rfl rfl

theorem spawn_thread (p : Pool w ω δ) (m : Int) (id : BitVec w) (i : Int) :
    ((p.spawn m id).threadInfo i).thread =
      if i = m then some p.created else (p.threadInfo i).thread := by
  rw [spawn_apply]
  split <;> rfl

/-- One more slot with its thread. -/
theorem Tidy.spawn (h : Tidy p m) (hm : 0 ≤ m) (id : BitVec w) :
    Tidy ((p.initSlot m).spawn m id) (m + 1) := by
  have hthread : ∀ i, (((p.initSlot m).spawn m id).threadInfo i).thread =
      if i = m then some p.created else (p.threadInfo i).thread :=
    fun i => spawn_thread (p.initSlot m) m id i
  have hcases : ∀ i n, (((p.initSlot m).spawn m id).threadInfo i).thread = some n →
      i = m ∧ n = p.created ∨ i ≠ m ∧ (p.threadInfo i).thread = some n := by
    intro i n hn
    rw [hthread] at hn
    split at hn
    · next heq => exact .inl ⟨heq, (Option.some.inj hn).symm⟩
    · next hne => exact .inr ⟨hne, hn⟩
  constructor
  · intro i h0 hi
    rw [hthread]
    split
    · exact ⟨_, rfl⟩
    · exact h.named i h0 (by omega)
  · intro i n hn
    show n < p.created + 1
    rcases hcases i n hn with ⟨-, rfl⟩ | ⟨-, hold⟩
    · exact Nat.lt_succ_self _
    · exact Nat.lt_succ_of_lt (h.known i n hold)
  · intro i j n hi hj
    rcases hcases i n hi with ⟨rfl, rfl⟩ | ⟨-, hold⟩ <;>
      rcases hcases j _ hj with ⟨rfl, hn⟩ | ⟨-, hold'⟩
    · rfl
    · exact absurd (h.known j _ hold') (lt_irrefl _)
    · exact absurd (hn ▸ h.known i _ hold) (lt_irrefl _)
    · exact h.distinct i j n hold hold'
  · intro r
    have hheld : r ∈ held ((p.initSlot m).spawn m id).log ↔
        r = .thread p.created ∨ r = .lock m ∨ r = .cond m ∨ r ∈ held p.log := by
      rw [mem_held_spawn, mem_held_initSlot]
      rfl
    have hrange : ∀ i, 0 ≤ i ∧ i < m + 1 ↔ i = m ∨ 0 ≤ i ∧ i < m := fun i => by omega
    rw [hheld, h.owned]
    cases r with
    | thread n =>
      simp only [Pool.Owns, Resource.thread.injEq, reduceCtorEq, false_or, hthread]
      constructor
      · rintro (rfl | ⟨i, h0, hi, hn⟩)
        · exact ⟨m, hm, by omega, if_pos rfl⟩
        · exact ⟨i, h0, by omega, by rwa [if_neg (by omega)]⟩
      · rintro ⟨i, h0, hi, hn⟩
        split at hn
        · exact .inl (Option.some.inj hn).symm
        · exact .inr ⟨i, h0, by omega, hn⟩
    | lock i | cond i =>
      simp only [Pool.Owns, Resource.lock.injEq, Resource.cond.injEq, reduceCtorEq, false_or,
        hrange]
    | manager | stranger | tpLock | memory => simp [Pool.Owns, Pool.spawn, Pool.initSlot,
        Pool.note, Pool.setInfo]

/-- The last slot with its thread is taken down. -/
theorem Tidy.delete (h : Tidy p m) (hm : 0 < m) :
    Tidy { p with
      log := p.log ++ (p.takeDown (m - 1)).map .release, curThNum := m - 1 } (m - 1) := by
  obtain ⟨n, hn⟩ := h.named (m - 1) (by omega) (by omega)
  have htarget : (p.threadInfo (m - 1)).target = .thread n := by rw [Info.target, hn]
  refine ⟨fun i h0 hi => h.named i h0 (by omega), h.known, h.distinct, fun r => ?_⟩
  have hheld : r ∈ held (p.log ++ (p.takeDown (m - 1)).map .release) ↔
      r ≠ .thread n ∧ r ≠ .lock (m - 1) ∧ r ≠ .cond (m - 1) ∧ r ∈ held p.log := by
    rw [mem_held_release, Pool.takeDown, htarget]
    simp [and_assoc]
  have hrange : ∀ i, 0 ≤ i ∧ i < m - 1 ↔ i ≠ m - 1 ∧ 0 ≤ i ∧ i < m := fun i => by omega
  rw [hheld, h.owned]
  cases r with
  | thread k =>
    simp only [Pool.Owns, ne_eq, Resource.thread.injEq, reduceCtorEq, not_false_eq_true, true_and]
    constructor
    · rintro ⟨hk, i, h0, hi, hik⟩
      refine ⟨i, h0, ?_, hik⟩
      by_contra hlast
      obtain rfl : i = m - 1 := by omega
      exact hk (Option.some.inj (hik.symm.trans hn))
    · rintro ⟨i, h0, hi, hik⟩
      refine ⟨?_, i, h0, by omega, hik⟩
      rintro rfl
      have := h.distinct i (m - 1) k hik hn
      omega
  | lock i | cond i =>
    simp only [Pool.Owns, ne_eq, Resource.lock.injEq, Resource.cond.injEq, reduceCtorEq,
      not_false_eq_true, true_and, hrange]
  | manager | stranger | tpLock | memory => simp [Pool.Owns]

/-- Below zero there are no slots. -/
theorem Tidy.negative (h : Tidy p 0) (hm : m ≤ 0) : Tidy p m where
  named i h0 hi := absurd (h0.trans_lt hi) (not_lt.2 hm)
  known := h.known
  distinct := h.distinct
  owned r := by
    have hnone : ∀ i, ¬ (0 ≤ i ∧ i < m) ∧ ¬ (0 ≤ i ∧ i < (0 : Int)) := fun i => by omega
    rw [h.owned]
    cases r with
    | thread n =>
      constructor
      · rintro ⟨i, h0, hi, -⟩
        exact absurd ⟨h0, hi⟩ (hnone i).2
      · rintro ⟨i, h0, hi, -⟩
        exact absurd ⟨h0, hi⟩ (hnone i).1
    | lock i | cond i => exact iff_of_false (hnone i).2 (hnone i).1
    | manager | stranger | tpLock | memory => exact Iff.rfl

/-! ## What `tp_close` takes down -/

theorem mem_takeDown {j : Int} :
    r ∈ p.takeDown j ↔ r = (p.threadInfo j).target ∨ r = .lock j ∨ r = .cond j := by
  simp [Pool.takeDown]

theorem mem_closeFrom {k : Nat} :
    r ∈ closeFrom p i k ↔ ∃ j, i ≤ j ∧ j < i + k ∧ r ∈ p.takeDown j := by
  induction k generalizing i with
  | zero =>
    refine iff_of_false List.not_mem_nil ?_
    rintro ⟨j, h1, h2, -⟩
    push_cast at h2
    omega
  | succ k ih =>
    rw [closeFrom, List.mem_append, ih]
    constructor
    · rintro (hr | ⟨j, h1, h2, hr⟩)
      · exact ⟨i, le_rfl, by push_cast; omega, hr⟩
      · exact ⟨j, by omega, by push_cast; omega, hr⟩
    · rintro ⟨j, h1, h2, hr⟩
      rcases eq_or_ne j i with rfl | hne
      · exact .inl hr
      · exact .inr ⟨j, by omega, by push_cast at h2; omega, hr⟩

theorem Tidy.target (h : Tidy p m) {j : Int} (h0 : 0 ≤ j) (hj : j < m) :
    ∃ n, (p.threadInfo j).thread = some n ∧ (p.threadInfo j).target = .thread n := by
  obtain ⟨n, hn⟩ := h.named j h0 hj
  exact ⟨n, hn, by rw [Info.target, hn]⟩

/-- Nothing is taken down with two slots. -/
theorem Tidy.takeDown_disjoint (h : Tidy p m) {j : Int} (h0 : 0 ≤ i) (hi : i < m) (hj0 : 0 ≤ j)
    (hj : j < m) (hr : r ∈ p.takeDown i) (hr' : r ∈ p.takeDown j) : i = j := by
  obtain ⟨n, hn, htarget⟩ := h.target h0 hi
  obtain ⟨n', hn', htarget'⟩ := h.target hj0 hj
  rw [mem_takeDown, htarget] at hr
  rw [mem_takeDown, htarget'] at hr'
  rcases hr with rfl | rfl | rfl
  · obtain heq : n = n' := by simpa using hr'
    exact h.distinct i j n hn (heq ▸ hn')
  · simpa using hr'
  · simpa using hr'

theorem Tidy.closeFrom_nodup (h : Tidy p m) {k : Nat} (h0 : 0 ≤ i) (hk : i + k ≤ m) :
    (closeFrom p i k).Nodup := by
  induction k generalizing i with
  | zero => exact List.nodup_nil
  | succ k ih =>
    push_cast at hk
    refine List.nodup_append.2 ⟨?_, ih (by omega) (by omega), ?_⟩
    · obtain ⟨n, -, htarget⟩ := h.target h0 (by omega)
      simp [Pool.takeDown, htarget]
    · rintro r hr _ hr' rfl
      obtain ⟨j, h1, h2, hr'⟩ := mem_closeFrom.1 hr'
      have := h.takeDown_disjoint h0 (by omega) (by omega) (by omega) hr hr'
      omega

/-- `tp_close` takes down what a pool owns whose slots are set up up to `cur_th_num`. -/
theorem Tidy.mem_tpClose (h : Tidy p p.curThNum) (hmanager : p.manageThreadId ≠ none) :
    r ∈ tpClose p ↔ p.Owns p.curThNum r := by
  have htarget : p.managerTarget = .manager := by
    obtain ⟨id, hid⟩ := Option.ne_none_iff_exists'.1 hmanager
    rw [Pool.managerTarget, hid]
  have hslots : r ∈ closeFrom p 0 p.curThNum.toNat ↔
      ∃ j, (0 ≤ j ∧ j < p.curThNum) ∧ r ∈ p.takeDown j := by
    rw [mem_closeFrom]
    refine exists_congr fun j => ?_
    rw [← and_assoc]
    refine and_congr_left fun _ => ?_
    omega
  rw [tpClose, List.mem_append, hslots, htarget]
  cases r with
  | thread n =>
    simp only [Pool.Owns, List.mem_cons, reduceCtorEq, List.not_mem_nil, or_false]
    refine exists_congr fun j => ?_
    rw [and_assoc]
    refine and_congr_right fun h0 => and_congr_right fun hj => ?_
    obtain ⟨n', hn', htarget'⟩ := h.target h0 hj
    rw [mem_takeDown, htarget', hn']
    simp [eq_comm]
  | lock i | cond i =>
    simp only [Pool.Owns, List.mem_cons, reduceCtorEq, List.not_mem_nil, or_false]
    constructor
    · rintro ⟨j, ⟨h0, hj⟩, hr⟩
      obtain ⟨n', -, htarget'⟩ := h.target h0 hj
      obtain rfl : i = j := by simpa [mem_takeDown, htarget'] using hr
      exact ⟨h0, hj⟩
    · intro hi
      exact ⟨i, hi, by simp [mem_takeDown]⟩
  | manager => simp [Pool.Owns, hmanager]
  | stranger =>
    simp only [Pool.Owns, List.mem_cons, reduceCtorEq, List.not_mem_nil, or_false, iff_false]
    rintro ⟨j, ⟨h0, hj⟩, hr⟩
    obtain ⟨n', -, htarget'⟩ := h.target h0 hj
    simp [mem_takeDown, htarget'] at hr
  | tpLock => simp [Pool.Owns]
  | memory i =>
    simp only [Pool.Owns, List.mem_cons, reduceCtorEq, List.not_mem_nil, or_false, false_or,
      Resource.memory.injEq, or_iff_right_iff_imp]
    rintro ⟨j, ⟨h0, hj⟩, hr⟩
    obtain ⟨n', -, htarget'⟩ := h.target h0 hj
    simp [mem_takeDown, htarget'] at hr

theorem Tidy.closesRight (h : Tidy p p.curThNum) (hmanager : p.manageThreadId ≠ none) :
    ClosesRight p where
  once := by
    have htarget : p.managerTarget = .manager := by
      obtain ⟨id, hid⟩ := Option.ne_none_iff_exists'.1 hmanager
      rw [Pool.managerTarget, hid]
    rw [tpClose, htarget]
    rcases Int.le_total 0 p.curThNum with h0 | h0
    · refine List.nodup_append.2 ⟨h.closeFrom_nodup le_rfl (by omega), by simp, ?_⟩
      rintro r hr r' hr' rfl
      obtain ⟨j, h1, h2, hr⟩ := mem_closeFrom.1 hr
      obtain ⟨n', -, htarget'⟩ := h.target h1 (by omega)
      rw [mem_takeDown, htarget'] at hr
      rcases hr with rfl | rfl | rfl <;> simp at hr'
    · rw [Int.toNat_eq_zero.2 h0]
      simp [closeFrom]
  all r := (h.mem_tpClose hmanager).trans (h.owned r).symm

/-! ## `tp_init` -/

/-- What `creat_thread_pool` leaves: no slot is set up. -/
theorem creatThreadPool_tidy (minNum maxNum : Int) (raw : Int → Info w ω δ) :
    Tidy (creatThreadPool minNum maxNum raw) 0 where
  named i h0 hi := absurd h0 (not_le.2 hi)
  known _ n hn := absurd hn.symm (Option.some_ne_none n)
  distinct _ _ n hi _ := absurd hi.symm (Option.some_ne_none n)
  owned r := by
    have hnone : ∀ i, ¬ (0 ≤ i ∧ i < (0 : Int)) := fun i => by omega
    have hheld : r ∈ held (creatThreadPool minNum maxNum raw).log ↔
        r = .memory 0 ∨ r = .tpLock := by
      show r ∈ held (([] ++ [.acquire .tpLock]) ++ [.acquire (.memory 0)]) ↔ _
      simp only [held_snoc, held_nil, Event.heldAfter, Finset.mem_insert, Finset.notMem_empty,
        or_false]
    rw [hheld]
    cases r with
    | thread n => simp [Pool.Owns, creatThreadPool]
    | lock i | cond i => simp [Pool.Owns, hnone]
    | manager | stranger | tpLock | memory => simp [Pool.Owns, creatThreadPool]

/-- What the loop of `tp_init` leaves alone. -/
theorem initFrom_frame (ans : Int → Option (BitVec w)) (p : Pool w ω δ) (i : Int) (k : Nat) :
    (initFrom ans p i k).2.minThNum = p.minThNum ∧ (initFrom ans p i k).2.curThNum = p.curThNum ∧
      (initFrom ans p i k).2.manageThreadId = p.manageThreadId := by
  induction k generalizing p i with
  | zero => exact ⟨rfl, rfl, rfl⟩
  | succ k ih =>
    rw [initFrom]
    split
    · exact ⟨rfl, rfl, rfl⟩
    · exact ih ..

/-- The loop of `tp_init` sets up one slot after the other, as long as `pthread_create` succeeds; it
starts no thread under a name of its own. -/
theorem Tidy.initFrom (ans : Int → Option (BitVec w)) (h : Tidy p i) (hi : 0 ≤ i) (k : Nat) :
    ((ThreadPool.initFrom ans p i k).1 = true →
      Tidy (ThreadPool.initFrom ans p i k).2 (i + k)) ∧
    .stranger ∉ held (ThreadPool.initFrom ans p i k).2.log := by
  induction k generalizing p i with
  | zero =>
    refine ⟨fun _ => ?_, fun hs => (h.owned _).1 hs⟩
    rw [Nat.cast_zero, Int.add_zero]
    exact h
  | succ k ih =>
    rw [ThreadPool.initFrom]
    cases ans i with
    | none =>
      refine ⟨Bool.noConfusion, fun hs => ?_⟩
      have hlog : Resource.stranger ∈
          held ((p.log ++ [.acquire (.cond i)]) ++ [.acquire (.lock i)]) := hs
      simp only [held_snoc, Event.heldAfter, Finset.mem_insert, reduceCtorEq, false_or] at hlog
      exact (h.owned _).1 hlog
    | some id =>
      obtain ⟨htidy, hstranger⟩ := ih (h.spawn hi id) (by omega)
      refine ⟨fun hok => ?_, hstranger⟩
      have heq : i + ((k + 1 : Nat) : Int) = i + 1 + k := by
        push_cast
        omega
      rw [heq]
      exact htidy hok

/-- The manager is created. -/
theorem Tidy.manager (h : Tidy p m) (id : BitVec w) :
    Tidy ({ p with manageThreadId := some id }.note (.acquire .manager)) m where
  named := h.named
  known := h.known
  distinct := h.distinct
  owned r := by
    show r ∈ held (p.log ++ [.acquire .manager]) ↔ _
    rw [held_snoc, Event.heldAfter, Finset.mem_insert, h.owned]
    cases r <;> simp [Pool.Owns, Pool.note]

/-- What holds of the pool from a successful `tp_init` on, as long as growths succeed. -/
structure Closable (p : Pool w ω δ) : Prop where
  tidy : Tidy p p.curThNum
  manager : p.manageThreadId ≠ none
  range : p.minThNum ≤ p.curThNum
  room : 0 ≤ p.minThNum ∨ p.curThNum ≤ p.minThNum

/-- Where `tp_init` returns `TRUE`, every thread has been created. -/
theorem tpInit_closable {ans : Int → Option (BitVec w)} {manager : Option (BitVec w)}
    {minNum maxNum : Int} {raw : Int → Info w ω δ}
    (h : (tpInit ans manager (creatThreadPool minNum maxNum raw)).1 = true) :
    Closable (tpInit ans manager (creatThreadPool minNum maxNum raw)).2 := by
  obtain ⟨htidy, -⟩ := (creatThreadPool_tidy minNum maxNum raw).initFrom ans le_rfl
    (creatThreadPool minNum maxNum raw).minThNum.toNat
  obtain ⟨hmin, hcur, -⟩ := initFrom_frame ans (creatThreadPool minNum maxNum raw) 0
    (creatThreadPool minNum maxNum raw).minThNum.toNat
  rw [tpInit] at h ⊢
  generalize initFrom ans (creatThreadPool minNum maxNum raw) 0
    (creatThreadPool minNum maxNum raw).minThNum.toNat = r at *
  obtain ⟨ok, q⟩ := r
  have hqmin : q.minThNum = minNum := hmin
  have hqcur : q.curThNum = minNum := hcur
  cases ok with
  | false => exact Bool.noConfusion h
  | true =>
    cases manager with
    | none => exact Bool.noConfusion h
    | some id =>
      have hq : Tidy q minNum := by
        have hq : Tidy q (0 + (minNum.toNat : Int)) := htidy rfl
        rcases Int.le_total 0 minNum with h0 | h0
        · rwa [Int.zero_add, Int.toNat_of_nonneg h0] at hq
        · rw [Int.toNat_eq_zero.2 h0] at hq
          exact hq.negative h0
      have hroom : q.curThNum = q.minThNum := hqcur.trans hqmin.symm
      refine ⟨?_, Option.some_ne_none id, hroom.ge, .inr hroom.le⟩
      show Tidy _ q.curThNum
      rw [hqcur]
      exact hq.manager id

/-- Where `tp_init` returns `FALSE`, `tp_close` kills a thread that is not the pool's: the manager's
id has not been set. -/
theorem tpInit_false {ans : Int → Option (BitVec w)} {manager : Option (BitVec w)}
    {minNum maxNum : Int} {raw : Int → Info w ω δ}
    (h : (tpInit ans manager (creatThreadPool minNum maxNum raw)).1 = false) :
    ¬ ClosesRight (tpInit ans manager (creatThreadPool minNum maxNum raw)).2 := by
  obtain ⟨-, hstranger⟩ := (creatThreadPool_tidy minNum maxNum raw).initFrom ans le_rfl
    (creatThreadPool minNum maxNum raw).minThNum.toNat
  obtain ⟨-, -, hmanager⟩ := initFrom_frame ans (creatThreadPool minNum maxNum raw) 0
    (creatThreadPool minNum maxNum raw).minThNum.toNat
  rw [tpInit] at h ⊢
  generalize initFrom ans (creatThreadPool minNum maxNum raw) 0
    (creatThreadPool minNum maxNum raw).minThNum.toNat = r at *
  obtain ⟨ok, q⟩ := r
  have hunset : q.managerTarget = .stranger := by
    have hnone : q.manageThreadId = none := hmanager
    rw [Pool.managerTarget, hnone]
  have hwrong : ¬ ClosesRight q := by
    intro hright
    refine hstranger ((hright.all .stranger).1 ?_)
    rw [tpClose, hunset]
    simp
  cases ok with
  | false => exact hwrong
  | true =>
    cases manager with
    | none => exact hwrong
    | some id => exact Bool.noConfusion h

/-! ## Later calls -/

/-- What is left alone by a change of slots. -/
theorem Closable.setInfo (h : Closable p) (i : Int) {f : Info w ω δ → Info w ω δ}
    (hf : ∀ x, (f x).thread = x.thread) : Closable (p.setInfo i f) :=
  ⟨h.tidy.setInfo i hf, h.manager, h.range, h.room⟩

theorem tpDeleteThread_closable (h : Closable p) : Closable (tpDeleteThread p).2 := by
  rw [tpDeleteThread]
  split
  · exact h
  · next hmin =>
    split
    · exact h
    · have h0 : 0 < p.curThNum := by
        have := h.room
        omega
      refine ⟨h.tidy.delete h0, h.manager, ?_, ?_⟩
      · show p.minThNum ≤ p.curThNum - 1
        omega
      · show 0 ≤ p.minThNum ∨ p.curThNum - 1 ≤ p.minThNum
        exact h.room.imp_right (by omega)

theorem deleteLoop_closable (k : Nat) (h : Closable p) : Closable (deleteLoop p k) := by
  induction k generalizing p with
  | zero => exact h
  | succ k ih =>
    have hdelete := tpDeleteThread_closable h
    rw [deleteLoop]
    generalize tpDeleteThread p = r at *
    obtain ⟨ok, q⟩ := r
    cases ok with
    | false => exact hdelete
    | true => exact ih hdelete

theorem managePass_closable (h : Closable p) : Closable (managePass p) := by
  rw [managePass]
  split
  · exact deleteLoop_closable _ h
  · exact h

theorem growSlot_thread (p : Pool w ω δ) (i : Int) :
    (p.growSlot.threadInfo i).thread = (p.threadInfo i).thread :=
  setInfo_thread (p.initSlot p.curThNum) p.curThNum (f := fun x => { x with isBusy := true })
    (fun _ => rfl) i

/-- A growth whose `pthread_create` succeeds. -/
theorem Closable.grow (h : Closable p) (h0 : 0 ≤ p.curThNum) (id : BitVec w) :
    Closable (p.growSlot.spawn p.curThNum id) := by
  have hmin : 0 ≤ p.minThNum := h.room.elim (fun h => h) fun hle => h0.trans hle
  refine ⟨(h.tidy.spawn h0 id).congr (fun i => ?_) rfl rfl rfl, h.manager, ?_, .inl hmin⟩
  · rw [spawn_thread, spawn_thread, growSlot_thread]
    rfl
  · show p.minThNum ≤ p.curThNum + 1
    exact h.range.trans (Int.le_add_one le_rfl)

/-- A job is given to a slot. -/
theorem Closable.give (h : Closable p) (i : Int) (worker : ω) (job : δ) :
    Closable (p.give i worker job) :=
  h.setInfo i (f := fun x => { x with thWork := worker, thJob := job, hasJob := true }) fun _ => rfl

theorem callStep_closable {a : Call w ω δ} (h : Closable p) (hgrows : Grows p a)
    (hs : callStep p a = some q) : Closable q := by
  cases a with
  | processJob worker job create =>
    obtain rfl := Option.some.inj hs
    cases hidle : p.firstIdle with
    | some i =>
      rw [tpProcessJob_idle hidle]
      exact (h.setInfo i (f := fun x => { x with isBusy := true }) fun _ => rfl).give i worker job
    | none =>
      rcases Int.lt_or_le p.curThNum p.maxThNum with hmax | hmax
      · obtain ⟨h0, hcreate⟩ := hgrows hidle hmax
        obtain ⟨id, rfl⟩ := Option.ne_none_iff_exists'.1 hcreate
        rw [tpProcessJob_grown hidle hmax]
        exact (h.grow h0 id).give p.curThNum worker job
      · rw [tpProcessJob_full hidle hmax]
        exact h
  | jobDone i =>
    obtain ⟨-, hq⟩ := Option.ite_none_right_eq_some.1 hs
    obtain rfl := Option.some.inj hq
    exact h.setInfo i (f := fun x => { x with isBusy := false, hasJob := false }) fun _ => rfl
  | managePass =>
    obtain rfl := Option.some.inj hs
    exact managePass_closable h

/-- A growth at the wrong end of the block: its mutex and its condition variable are not among
those that `tp_close` destroys. -/
theorem grow_negative (h0 : p.curThNum < 0) (hmax : p.curThNum < p.maxThNum) (worker : ω) (job : δ)
    (create : Option (BitVec w)) (hidle : p.firstIdle = none) :
    ¬ ClosesRight (tpProcessJob p worker job create).2 := by
  have hlog : (tpProcessJob p worker job create).2.curThNum = p.curThNum + 1 ∧
      .lock p.curThNum ∈ held (tpProcessJob p worker job create).2.log := by
    cases create with
    | some id =>
      rw [tpProcessJob_grown hidle hmax]
      exact ⟨rfl, mem_held_spawn.2 (.inr (mem_held_initSlot.2 (.inl rfl)))⟩
    | none =>
      rw [tpProcessJob_failed hidle hmax]
      exact ⟨rfl, mem_held_freed.2 ⟨Resource.noConfusion, mem_held_initSlot.2 (.inl rfl)⟩⟩
  generalize (tpProcessJob p worker job create).2 = q at hlog
  obtain ⟨hcur, hheld⟩ := hlog
  intro hright
  have hmem := (hright.all _).2 hheld
  have hnone : q.curThNum.toNat = 0 := by omega
  rw [tpClose, hnone, closeFrom, List.nil_append] at hmem
  have htarget : q.managerTarget = .manager ∨ q.managerTarget = .stranger := by
    rw [Pool.managerTarget]
    split
    · exact .inl rfl
    · exact .inr rfl
  rcases htarget with htarget | htarget <;> simp [htarget] at hmem

/-- A growth whose `pthread_create` fails: `tp_close` kills what the new slot names, and that is no
thread of the pool. -/
theorem Closable.grow_failed (h : Closable p) (h0 : 0 ≤ p.curThNum) (hmax : p.curThNum < p.maxThNum)
    (worker : ω) (job : δ) (hidle : p.firstIdle = none) :
    ¬ ClosesRight (tpProcessJob p worker job none).2 := by
  rw [tpProcessJob_failed hidle hmax]
  intro hright
  have hheld : (p.threadInfo p.curThNum).target ∈
      held (p.growSlot.note (.release (.memory p.curThNum))).log := by
    refine (hright.all _).1 (List.mem_append_left _ (mem_closeFrom.2 ⟨p.curThNum, h0, ?_, ?_⟩))
    · show p.curThNum < 0 + ((p.curThNum + 1).toNat : Int)
      omega
    · refine mem_takeDown.2 (.inl ?_)
      rw [Info.target, Info.target]
      congr 1
      exact (growSlot_thread p p.curThNum).symm
  replace hheld := mem_held_initSlot.1 (mem_held_freed.1 hheld).2
  cases hthread : (p.threadInfo p.curThNum).thread with
  | none =>
    have hmem : Resource.stranger ∈ held p.log := by simpa [Info.target, hthread] using hheld
    exact (h.tidy.owned _).1 hmem
  | some n =>
    have hmem : Resource.thread n ∈ held p.log := by simpa [Info.target, hthread] using hheld
    obtain ⟨i, -, hi, hn⟩ := (h.tidy.owned _).1 hmem
    exact hi.ne (h.tidy.distinct i _ n hn hthread)

/-- **`tp_close` matches what was created** where every `pthread_create` succeeds and no growth
starts below zero, and where one does not, it no longer does. -/
theorem tpClose_matches (ans : Int → Option (BitVec w)) (manager : Option (BitVec w))
    (minNum maxNum : Int) (raw : Int → Info w ω δ) :
    (ClosesRight (tpInit ans manager (creatThreadPool minNum maxNum raw)).2 ↔
      (tpInit ans manager (creatThreadPool minNum maxNum raw)).1 = true) ∧
    ((tpInit ans manager (creatThreadPool minNum maxNum raw)).1 = true →
      ∀ as t, (callMachine w ω δ minNum maxNum).Run Grows
          (tpInit ans manager (creatThreadPool minNum maxNum raw)).2 as t →
        ClosesRight t ∧ ∀ a u, callStep t a = some u → (ClosesRight u ↔ Grows t a)) := by
  constructor
  · constructor
    · intro hright
      by_contra hfalse
      exact tpInit_false (Bool.eq_false_iff.2 hfalse) hright
    · intro hok
      exact (tpInit_closable hok).tidy.closesRight (tpInit_closable hok).manager
  · intro hok as t hr
    have ht : Closable t := by
      induction hr with
      | nil => exact tpInit_closable hok
      | snoc a _ hgrows hs ih => exact callStep_closable ih hgrows hs
    refine ⟨ht.tidy.closesRight ht.manager, fun a u hs => ⟨fun hright => ?_, fun hgrows => ?_⟩⟩
    · cases a with
      | processJob worker job create =>
        obtain rfl := Option.some.inj hs
        intro hidle hmax
        by_contra hbad
        rcases Int.lt_or_le t.curThNum 0 with h0 | h0
        · exact grow_negative h0 hmax worker job create hidle hright
        · have hcreate : create = none := by
            by_contra hcreate
            exact hbad ⟨h0, hcreate⟩
          rw [hcreate] at hright
          exact ht.grow_failed h0 hmax worker job hidle hright
      | jobDone | managePass => trivial
    · have hu := callStep_closable ht hgrows hs
      exact hu.tidy.closesRight hu.manager

end

/-- A pool of one worker, after `tp_init`. -/
def oneWorker : Bool × Pool 64 Nat Nat :=
  tpInit (fun _ => some 7) (some 8) (creatThreadPool 1 2 zeroInfo)

/-- It grows, and `tp_close` matches. -/
theorem oneWorker_closesRight :
    ∃ t, (callMachine 64 Nat Nat 1 2).Run Grows oneWorker.2
        [.processJob 0 0 none, .processJob 0 0 (some 9)] t ∧
      t.curThNum = 2 ∧ ClosesRight t := by
  have hfirst : Grows oneWorker.2 (.processJob 0 0 none) := by
    intro hidle
    cases hidle
  have hsecond : Grows (tpProcessJob oneWorker.2 0 0 none).2 (.processJob 0 0 (some 9)) :=
    fun _ _ => ⟨by decide, Option.some_ne_none _⟩
  have hr : (callMachine 64 Nat Nat 1 2).Run Grows oneWorker.2
      [.processJob 0 0 none, .processJob 0 0 (some 9)]
      (tpProcessJob (tpProcessJob oneWorker.2 0 0 none).2 0 0 (some 9)).2 :=
    .cons _ hfirst rfl (.cons _ hsecond rfl .nil)
  exact ⟨_, hr, by decide,
    ((tpClose_matches (fun _ => some 7) (some 8) 1 2 zeroInfo).2 (by decide) _ _ hr).1⟩

/-- The first worker is not created: `tp_close` kills a thread that the pool has not created. -/
theorem noWorker_not_closesRight :
    (1 : Int) ≤ 1 ∧
      ¬ ClosesRight (tpInit (fun _ => none) none (creatThreadPool 1 1 zeroInfo)).2 := by
  refine ⟨le_rfl, fun hright => ?_⟩
  have hmem : Resource.stranger ∈
      held (tpInit (fun _ => none) none (creatThreadPool 1 1 zeroInfo)).2.log :=
    (hright.all .stranger).1 (by decide)
  exact absurd hmem (by decide)

end LinuxTraining.ThreadPool
