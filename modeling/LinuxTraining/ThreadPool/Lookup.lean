import LinuxTraining.Lib.CInt
import LinuxTraining.ThreadPool.Pool

/-!
# The thread pool: `tp_get_thread_by_id`

The id is passed as an `int` and compared with a `pthread_t`, so what is looked up is `narrowed id`:
the id cut to its low 32 bits and extended by its sign. `getThreadById_iff`: where `unsigned long`
has 32 bits every worker finds its own slot, and where it has 64 no pool with a slot is searched
rightly. `run_find` connects the function with the steps of a worker.
-/

namespace LinuxTraining.ThreadPool

open Lib

variable {w : Nat} {ω δ : Type}

/-- The loop of `tp_get_thread_by_id` from `i` on, with `k` rounds to go. -/
def findFrom (slot : Int → Slot w ω δ) (id : BitVec w) (i : Int) : Nat → Int
  | 0 => -1
  | k + 1 => if narrowed id = (slot i).threadId then i else findFrom slot id (i + 1) k

/-- `tp_get_thread_by_id`. -/
def getThreadById (s : State w ω δ) (id : BitVec w) : Int := findFrom s.slot id 0 s.curThNum.toNat

/-- Where a worker goes that has looked itself up. -/
def WorkPc.entered (nseq : Int) : WorkPc ω δ := if nseq < 0 then .exited else .lockWait nseq

/-- The ids of the pool are pairwise distinct. -/
def DistinctIds (s : State w ω δ) : Prop :=
  ∀ i j, 0 ≤ i → i < j → j < s.curThNum → (s.slot i).threadId ≠ (s.slot j).threadId

/-- Each id of the pool is found at its slot, and no other id is found; so a worker that was started
for a slot serves it. -/
structure FindsOwn (s : State w ω δ) : Prop where
  own : ∀ i, 0 ≤ i → i < s.curThNum → getThreadById s (s.slot i).threadId = i
  other : ∀ id, (∀ i, 0 ≤ i → i < s.curThNum → (s.slot i).threadId ≠ id) →
    getThreadById s id = -1
  serves : ∀ n i, 0 ≤ i → i < s.curThNum → s.thread n = ⟨(s.slot i).threadId, .find 0⟩ →
    ∃ k, (machine w ω δ s.minThNum s.maxThNum).runFrom s (List.replicate k (.work n)) =
      some (s.workTo n (.lockWait i))

section
variable {s : State w ω δ} {slot : Int → Slot w ω δ} {id : BitVec w} {n : Nat} {i : Int}

/-- The search ends at the first slot that has the narrowed id, or past all of them. -/
theorem findFrom_cases (slot : Int → Slot w ω δ) (id : BitVec w) (i : Int) (k : Nat) :
    (findFrom slot id i k = -1 ∧ ∀ j, i ≤ j → j < i + k → (slot j).threadId ≠ narrowed id) ∨
      (i ≤ findFrom slot id i k ∧ findFrom slot id i k < i + k ∧
        (slot (findFrom slot id i k)).threadId = narrowed id ∧
        ∀ j, i ≤ j → j < findFrom slot id i k → (slot j).threadId ≠ narrowed id) := by
  induction k generalizing i with
  | zero => exact .inl ⟨rfl, fun j h1 h2 => absurd h1 (by omega)⟩
  | succ k ih =>
    rw [findFrom]
    split
    · next hhere =>
      exact .inr ⟨Int.le_refl i, by omega, hhere.symm, fun j h1 h2 => absurd h1 (by omega)⟩
    · next hhere =>
      have hnext : ∀ j, i ≤ j → i + 1 ≤ j ∨ j = i := by omega
      rcases ih (i + 1) with ⟨hnone, hall⟩ | ⟨hle, hlt, hfound, hbefore⟩
      · refine .inl ⟨hnone, fun j h1 h2 => ?_⟩
        rcases hnext j h1 with hj | rfl
        · exact hall j hj (by push_cast at h2; omega)
        · exact fun he => hhere he.symm
      · refine .inr ⟨by omega, by push_cast; omega, hfound, fun j h1 h2 => ?_⟩
        rcases hnext j h1 with hj | rfl
        · exact hbefore j hj h2
        · exact fun he => hhere he.symm

/-- The answer for an id: a slot that has the narrowed id, or that there is none. -/
theorem getThreadById_cases (s : State w ω δ) (id : BitVec w) :
    (getThreadById s id = -1 ∧
      ∀ j, 0 ≤ j → j < s.curThNum → (s.slot j).threadId ≠ narrowed id) ∨
    (0 ≤ getThreadById s id ∧ getThreadById s id < s.curThNum ∧
      (s.slot (getThreadById s id)).threadId = narrowed id) := by
  rcases findFrom_cases s.slot id 0 s.curThNum.toNat with ⟨hnone, hall⟩ | ⟨hle, hlt, hfound, -⟩
  · exact .inl ⟨hnone, fun j h0 hj => hall j h0 (by omega)⟩
  · exact .inr ⟨hle, by rw [getThreadById]; omega, hfound⟩

/-- No slot is found for an id just where no slot has the narrowed one. -/
theorem getThreadById_eq_neg_one_iff (s : State w ω δ) (id : BitVec w) :
    getThreadById s id = -1 ↔
      ∀ j, 0 ≤ j → j < s.curThNum → (s.slot j).threadId ≠ narrowed id := by
  rcases getThreadById_cases s id with ⟨hnone, hall⟩ | ⟨hle, hlt, hfound⟩
  · exact iff_of_true hnone hall
  · exact iff_of_false (by omega) fun hall => hall _ hle hlt hfound

/-- The id of a slot is found there if narrowing keeps it, and only then. -/
theorem getThreadById_own_iff (hids : DistinctIds s) (h0 : 0 ≤ i) (hi : i < s.curThNum) :
    getThreadById s (s.slot i).threadId = i ↔
      narrowed (s.slot i).threadId = (s.slot i).threadId := by
  rcases getThreadById_cases s (s.slot i).threadId with ⟨hnone, hall⟩ | ⟨hle, hlt, hfound⟩
  · exact iff_of_false (by omega) fun hkept => hall i h0 hi hkept.symm
  · constructor
    · intro he
      rw [he] at hfound
      exact hfound.symm
    · intro hkept
      rw [hkept] at hfound
      rcases Int.lt_trichotomy (getThreadById s (s.slot i).threadId) i with hlt' | he | hgt
      · exact absurd hfound (hids _ _ hle hlt' hi)
      · exact he
      · exact absurd hfound.symm (hids _ _ h0 hgt hlt)

@[simp] theorem State.workTo_workTo (s : State w ω δ) (n : Nat) (pc pc' : WorkPc ω δ) :
    (s.workTo n pc).workTo n pc' = s.workTo n pc' := by
  simp [State.workTo]

/-- The test of the loop. -/
theorem workStep_find (s : State w ω δ) (n : Nat) (i : Int) :
    workStep (s.workTo n (.find i)) n =
      some (s.workTo n (if i < s.curThNum then .cmp i else .exited)) := by
  rw [workStep, State.workTo_self]
  dsimp only
  rw [State.workTo_workTo]
  rfl

/-- The comparison at a slot. -/
theorem workStep_cmp (s : State w ω δ) (n : Nat) (i : Int) :
    workStep (s.workTo n (.cmp i)) n =
      some (s.workTo n (if narrowed (s.thread n).id = (s.slot i).threadId then .lockWait i
        else .find (i + 1))) := by
  rw [workStep, State.workTo_self]
  dsimp only
  rw [State.workTo_workTo]
  rfl

/-- A worker at its start arrives where the search says. -/
theorem run_find (min max : Int) (s : State w ω δ) (n : Nat) {k : Nat} (h0 : 0 ≤ i)
    (hi : s.curThNum.toNat = i + k) :
    ∃ m, (machine w ω δ min max).runFrom (s.workTo n (.find i)) (List.replicate m (.work n)) =
      some (s.workTo n (.entered (findFrom s.slot (s.thread n).id i k))) := by
  induction k generalizing i with
  | zero =>
    refine ⟨1, ?_⟩
    have hstep := workStep_find s n i
    rw [if_neg (by omega)] at hstep
    show (machine w ω δ min max).runFrom _ [.work n] = _
    rw [Machine.runFrom_singleton]
    exact hstep
  | succ k ih =>
    have hfind := workStep_find s n i
    rw [if_pos (by omega)] at hfind
    have hcmp := workStep_cmp s n i
    rw [findFrom]
    by_cases hhere : narrowed (s.thread n).id = (s.slot i).threadId
    · rw [if_pos hhere] at hcmp ⊢
      refine ⟨2, ?_⟩
      have htwo : ((machine w ω δ min max).step _ (.work n)).bind
          ((machine w ω δ min max).runFrom · [.work n]) = _ :=
        congrArg (Option.bind · _) hfind
      refine htwo.trans ?_
      rw [Option.bind_some, Machine.runFrom_singleton, WorkPc.entered, if_neg (by omega)]
      exact hcmp
    · rw [if_neg hhere] at hcmp ⊢
      obtain ⟨m, hm⟩ := ih (i := i + 1) (by omega) (by push_cast at hi; omega)
      refine ⟨m + 2, ?_⟩
      rw [List.replicate_succ, List.replicate_succ]
      show ((machine w ω δ min max).step _ (.work n)).bind _ = _
      rw [show (machine w ω δ min max).step _ (.work n) = _ from hfind, Option.bind_some]
      show ((machine w ω δ min max).step _ (.work n)).bind _ = _
      rw [show (machine w ω δ min max).step _ (.work n) = _ from hcmp, Option.bind_some, hm]

/-- A worker that is found at its slot serves it, and one that is not found exits. -/
theorem run_lookup (min max : Int) (h : (s.thread n).pc = .find 0) :
    ∃ m, (machine w ω δ min max).runFrom s (List.replicate m (.work n)) =
      some (s.workTo n (.entered (getThreadById s (s.thread n).id))) := by
  have hs : s.workTo n (.find 0) = s := by
    have hthread : ({ s.thread n with pc := .find 0 } : Thread w ω δ) = s.thread n := by rw [← h]
    rw [State.workTo, hthread, Function.update_eq_self]
  obtain ⟨m, hm⟩ := run_find (i := 0) (k := s.curThNum.toNat) min max s n le_rfl
    (Int.zero_add _).symm
  rw [hs] at hm
  exact ⟨m, hm⟩

/-! ## Widths -/

/-- An `unsigned long` of 32 bits goes through an `int` unchanged. -/
theorem narrowed_w32 (id : BitVec 32) : narrowed id = id := by
  rw [narrowed, BitVec.truncate_eq_setWidth, BitVec.setWidth_eq, BitVec.signExtend_eq]

/-- In 64 bits there is another id with the same low half. -/
theorem exists_narrowed_w64 (id : BitVec 64) : ∃ id', id' ≠ id ∧ narrowed id' = narrowed id := by
  refine ⟨id + 0x100000000#64, fun h => ?_, ?_⟩
  · have hnat := congrArg BitVec.toNat h
    rw [BitVec.toNat_add, BitVec.toNat_ofNat] at hnat
    omega
  · have hhalf : (id + 0x100000000#64).setWidth 32 = id.setWidth 32 := by
      rw [BitVec.setWidth_add _ _ (by decide)]
      exact BitVec.add_zero _
    rw [narrowed, narrowed, BitVec.truncate_eq_setWidth, hhalf]

/-- A slot whose id narrowing keeps is found by its worker. -/
theorem serves_of_own (hown : getThreadById s (s.slot i).threadId = i) (h0 : 0 ≤ i)
    (hn : s.thread n = ⟨(s.slot i).threadId, .find 0⟩) :
    ∃ k, (machine w ω δ s.minThNum s.maxThNum).runFrom s (List.replicate k (.work n)) =
      some (s.workTo n (.lockWait i)) := by
  obtain ⟨k, hk⟩ := run_lookup s.minThNum s.maxThNum (s := s) (n := n) (by rw [hn])
  refine ⟨k, hk.trans ?_⟩
  rw [hn, hown, WorkPc.entered, if_neg (Int.not_lt.2 h0)]

end

/-- **Which pools find their workers**: those of a 32-bit `unsigned long`, and those without a slot.
In the others each slot is found exactly if its id is the extension of its low 32 bits, and no slot
is found for an id exactly if the extension of its low 32 bits is not in the pool. -/
theorem getThreadById_iff (W : LongWidth) (s : State W.bits ω δ) (hids : DistinctIds s) :
    (FindsOwn s ↔ W = .w32 ∨ s.curThNum ≤ 0) ∧
      (∀ i, 0 ≤ i → i < s.curThNum → (getThreadById s (s.slot i).threadId = i ↔
        narrowed (s.slot i).threadId = (s.slot i).threadId)) ∧
      ∀ id, getThreadById s id = -1 ↔
        ∀ j, 0 ≤ j → j < s.curThNum → (s.slot j).threadId ≠ narrowed id := by
  refine ⟨⟨fun h => ?_, fun h => ?_⟩, fun i => getThreadById_own_iff hids,
    getThreadById_eq_neg_one_iff s⟩
  · cases W with
    | w32 => exact .inl rfl
    | w64 =>
      refine .inr (Int.not_lt.1 fun hpos => ?_)
      have hkept : ∀ i, 0 ≤ i → i < s.curThNum →
          narrowed (s.slot i).threadId = (s.slot i).threadId :=
        fun i h0 hi => (getThreadById_own_iff hids h0 hi).1 (h.own i h0 hi)
      -- an id that shares its low half with that of slot `0` is not in the pool, but is found
      obtain ⟨id, hne, hsame⟩ : ∃ id : BitVec LongWidth.w64.bits, id ≠ (s.slot 0).threadId ∧
          narrowed id = narrowed (s.slot 0).threadId := exists_narrowed_w64 _
      have hid : narrowed id = (s.slot 0).threadId := hsame.trans (hkept 0 le_rfl hpos)
      have hnone := h.other id fun i h0 hi he => by
        have hfixed := hkept i h0 hi
        rw [he, hid] at hfixed
        exact hne hfixed.symm
      exact (getThreadById_eq_neg_one_iff s id).1 hnone 0 le_rfl hpos hid.symm
  · have hkept : ∀ id : BitVec W.bits, 0 < s.curThNum → narrowed id = id := by
      intro id hpos
      rcases h with rfl | hempty
      · exact narrowed_w32 id
      · omega
    have hown : ∀ i, 0 ≤ i → i < s.curThNum → getThreadById s (s.slot i).threadId = i :=
      fun i h0 hi => (getThreadById_own_iff hids h0 hi).2 (hkept _ (by omega))
    refine ⟨hown, fun id hid => ?_, fun n i h0 hi hn => serves_of_own (hown i h0 hi) h0 hn⟩
    refine (getThreadById_eq_neg_one_iff s id).2 fun j h0 hj => ?_
    rw [hkept id (by omega)]
    exact hid j h0 hj

/-- The pool of two slots and a 32-bit `unsigned long`. -/
theorem twoSlots_findsOwn : ∃ s : State LongWidth.w32.bits Nat Nat,
    s.curThNum = 2 ∧ getThreadById s 2 = 1 ∧ FindsOwn s := by
  let s : State LongWidth.w32.bits Nat Nat :=
    { minThNum := 2, curThNum := 2, maxThNum := 2, tpLock := none,
      slot := fun i => ⟨BitVec.ofInt _ (i + 1), false, .live, .live, 0, 0, none, none, .free⟩,
      call := fun _ => ⟨0, 0, .idle, none, none, [], false⟩, created := 0,
      thread := fun _ => ⟨0, .unborn⟩, manager := .sleep, freed := [], killed := [] }
  have hids : DistinctIds s := by
    intro i j h0 hij hj
    have hj' : j < 2 := hj
    obtain rfl : i = 0 := by omega
    obtain rfl : j = 1 := by omega
    decide
  exact ⟨s, rfl, by decide, (getThreadById_iff .w32 s hids).1.2 (.inl rfl)⟩

/-- A pool of one worker with an id as the 64-bit library gives them: the worker does not find its
slot, and exits. -/
theorem highId_not_findsOwn :
    ∃ s : State LongWidth.w64.bits Nat Nat, s.curThNum = 1 ∧
      (s.slot 0).threadId = 0x7f5e3c000700#64 ∧ getThreadById s 0x7f5e3c000700#64 = -1 ∧
      ¬ FindsOwn s ∧
      ((machine 64 Nat Nat 1 1).runFrom s (List.replicate 3 (.work 0))).map
        (fun t => decide ((t.thread 0).alive = true)) = some false := by
  let s : State LongWidth.w64.bits Nat Nat :=
    { (idlePool 1 1).setSlot 0 fun x => { x with threadId := 0x7f5e3c000700#64 } with
      thread := fun _ => ⟨0x7f5e3c000700#64, .find 0⟩ }
  have hmissed : getThreadById s 0x7f5e3c000700#64 = -1 := by decide
  refine ⟨s, rfl, rfl, hmissed, fun h => ?_, by decide +kernel⟩
  have hown := h.own 0 le_rfl (by decide : (0 : Int) < 1)
  exact absurd (hmissed.symm.trans hown) (by decide)

end LinuxTraining.ThreadPool
