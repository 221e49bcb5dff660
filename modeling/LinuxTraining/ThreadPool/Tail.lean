import LinuxTraining.ThreadPool.Pool

/-!
# The thread pool: one pass of the manager

A pass of `tp_manage_thread` that nobody disturbs: `tp_get_tp_status` counts the busy slots
(`manages_status`), and if the pool is idle, `tp_delete_thread` is called until it refuses
(`manages_deleted`, `manages_refused`). `managePass_removesTail`: the pass ends, and it removes the
idle slots at the end of the pool, down to `min_th_num` and no further than to the last busy one.
-/

namespace LinuxTraining.ThreadPool

open Lib

variable {w : Nat} {ω δ : Type}

/-- The manager takes a step of a pass. -/
def Managing (s : State w ω δ) (a : Act w ω δ) : Prop := a = .manage ∧ s.manager ≠ .sleep

/-- The loop of `tp_get_tp_status` from slot `i` on, with `b` busy slots counted and `k` rounds to
go. -/
def busyFrom (slot : Int → Slot w ω δ) (i : Int) (b : Nat) : Nat → Nat
  | 0 => b
  | k + 1 => busyFrom slot (i + 1) (if (slot i).isBusy then b + 1 else b) k

/-- `tp_get_tp_status`. -/
def State.tpGetTpStatus (s : State w ω δ) : Int :=
  if isIdleStatus (busyFrom s.slot 0 0 s.curThNum.toNat) s.curThNum then 0 else 1

/-- A `tp_delete_thread` that does not refuse. -/
def State.deleted (s : State w ω δ) : State w ω δ :=
  { (s.killWorker (s.curThNum - 1)).setSlot (s.curThNum - 1) fun x =>
      { x with threadLock := .destroyed, threadCond := .destroyed } with
    curThNum := s.curThNum - 1 }

/-- One plus the index of the last busy slot of the first `k`, and zero if none is busy. -/
def busyEnd (slot : Int → Slot w ω δ) : Nat → Nat
  | 0 => 0
  | k + 1 => if (slot k).isBusy then k + 1 else busyEnd slot k

/-- From `s` to `t` the slots from `t.curThNum` on have been removed: they were idle, and the one
below them is busy or `min_th_num` is reached. Their workers have been killed, each once and from
the top down, and nothing else has changed. -/
structure Shrunk (s t : State w ω δ) : Prop where
  range : s.minThNum ≤ t.curThNum ∧ t.curThNum ≤ s.curThNum
  idle : ∀ i, t.curThNum ≤ i → i < s.curThNum → (s.slot i).isBusy = false
  stop : t.curThNum = s.minThNum ∨ (s.slot (t.curThNum - 1)).isBusy = true
  killed : t.killed =
    (List.range (s.curThNum - t.curThNum).toNat).map (fun j : Nat => t.curThNum + j) ++ s.killed
  removed : ∀ i, t.curThNum ≤ i → i < s.curThNum →
    t.slot i = { s.slot i with threadLock := .destroyed, threadCond := .destroyed }
  slots : ∀ i, i < t.curThNum ∨ s.curThNum ≤ i → t.slot i = s.slot i
  stopped : ∀ n i, t.curThNum ≤ i → i < s.curThNum → (s.slot i).worker = some n →
    t.thread n = { s.thread n with pc := .killed }
  threads : ∀ n, (∀ i, t.curThNum ≤ i → i < s.curThNum → (s.slot i).worker ≠ some n) →
    t.thread n = s.thread n
  others : t.minThNum = s.minThNum ∧ t.maxThNum = s.maxThNum ∧ t.tpLock = s.tpLock ∧
    t.call = s.call ∧ t.created = s.created ∧ t.freed = s.freed

/-- What a pass from `s` to `t` does: if the pool is idle, the idle tail is removed, which leaves
the busy slots and at least `min_th_num`; and if it is not, nothing. -/
structure RemovesTail (s t : State w ω δ) : Prop where
  idle : s.tpGetTpStatus = 0 → Shrunk s t
  closed : s.tpGetTpStatus = 0 → 0 ≤ s.minThNum →
    t.curThNum = max s.minThNum (busyEnd s.slot s.curThNum.toNat)
  busy : s.tpGetTpStatus ≠ 0 → t = s.manageTo .sleep

/-! ## The steps of a pass -/

section
variable {min max : Int} {s t u : State w ω δ} {as bs : List (Act w ω δ)} {pc pc' : ManagePc}

/-- The manager comes from `s` to `t` without a sleep in between. -/
def Manages (min max : Int) (s t : State w ω δ) : Prop :=
  ∃ as, (machine w ω δ min max).Run Managing s as t

theorem Manages.trans (h : Manages min max s t) (h' : Manages min max t u) :
    Manages min max s u := by
  obtain ⟨as, h⟩ := h
  obtain ⟨bs, h'⟩ := h'
  exact ⟨_, h.trans h'⟩

theorem Manages.one (pc : ManagePc) (hpc : pc ≠ .sleep) (h : manageStep (s.manageTo pc) = t) :
    Manages min max (s.manageTo pc) t :=
  ⟨[.manage], .cons _ ⟨rfl, hpc⟩ (congrArg some h) .nil⟩

theorem Managing.labels (h : (machine w ω δ min max).Run Managing s as t) :
    as = List.replicate as.length .manage := by
  refine List.eq_replicate_iff.2 ⟨rfl, ?_⟩
  induction h with
  | nil => exact fun _ hb => absurd hb List.not_mem_nil
  | snoc a _ ha _ ih =>
    intro b hb
    rcases List.mem_append.1 hb with hb | hb
    · exact ih b hb
    · exact (List.mem_singleton.1 hb).trans ha.1

/-- A pass that sleeps is over. -/
theorem Managing.not_longer (h : (machine w ω δ min max).Run Managing s as t)
    (h' : (machine w ω δ min max).Run Managing s bs u) (ht : t.manager = .sleep) :
    bs.length ≤ as.length := by
  refine Nat.le_of_not_lt fun hlt => ?_
  obtain ⟨k, hk⟩ := Nat.exists_eq_add_of_lt hlt
  have hbs : bs = as ++ .manage :: List.replicate k .manage := by
    rw [← List.replicate_succ]
    calc bs = List.replicate bs.length .manage := Managing.labels h'
      _ = List.replicate as.length .manage ++ List.replicate (k + 1) .manage := by
        rw [hk, Nat.add_assoc, List.replicate_append_replicate]
      _ = as ++ List.replicate (k + 1) .manage := by rw [← Managing.labels h]
  rw [hbs] at h'
  exact (h'.guard h).2 ht

/-- Two passes from one state end in the same. -/
theorem Managing.unique (h : (machine w ω δ min max).Run Managing s as t)
    (h' : (machine w ω δ min max).Run Managing s bs u) (ht : t.manager = .sleep)
    (hu : u.manager = .sleep) : t = u := by
  have hlen := Nat.le_antisymm (Managing.not_longer h' h hu) (Managing.not_longer h h' ht)
  have hlabels : as = bs := by rw [Managing.labels h, Managing.labels h', hlen]
  subst hlabels
  exact h.unique h'

@[simp] theorem State.manageTo_manageTo (s : State w ω δ) :
    (s.manageTo pc).manageTo pc' = s.manageTo pc' := rfl

/-- The count of the busy slots. -/
theorem manages_status (s : State w ω δ) {i : Int} {k : Nat} (hk : k = (s.curThNum - i).toNat)
    (b : Nat) : Manages min max (s.manageTo (.statTest i b))
      (s.manageTo (.statEnd (busyFrom s.slot i b k))) := by
  induction k generalizing i b with
  | zero =>
    have hend : ¬ i < s.curThNum := by omega
    exact .one _ ManagePc.noConfusion (congrArg s.manageTo (if_neg hend))
  | succ k ih =>
    have hin : i < s.curThNum := by omega
    have htest : Manages min max (s.manageTo (.statTest i b)) (s.manageTo (.statBusy i b)) :=
      .one _ ManagePc.noConfusion (congrArg s.manageTo (if_pos hin))
    have hbusy : Manages min max (s.manageTo (.statBusy i b))
        (s.manageTo (.statTest (i + 1) (if (s.slot i).isBusy then b + 1 else b))) :=
      .one _ ManagePc.noConfusion rfl
    exact (htest.trans hbusy).trans (ih (by omega) _)

/-- A `tp_delete_thread` that refuses. -/
theorem manages_refused (h : s.curThNum ≤ s.minThNum ∨ (s.slot (s.curThNum - 1)).isBusy = true) :
    Manages min max (s.manageTo .delMin) (s.manageTo .sleep) := by
  by_cases hmin : s.curThNum ≤ s.minThNum
  · exact .one _ ManagePc.noConfusion (congrArg s.manageTo (if_pos hmin))
  · have hbusy := h.resolve_left hmin
    have htest : Manages min max (s.manageTo .delMin) (s.manageTo .busyIndex) :=
      .one _ ManagePc.noConfusion (congrArg s.manageTo (if_neg hmin))
    have hindex : Manages min max (s.manageTo .busyIndex)
        (s.manageTo (.delBusy (s.curThNum - 1))) :=
      .one _ ManagePc.noConfusion rfl
    exact (htest.trans hindex).trans
      (.one _ ManagePc.noConfusion (congrArg s.manageTo (if_pos hbusy)))

/-- What a kill reads and writes is not where the manager is. -/
theorem State.killWorker_manageTo (s : State w ω δ) (k : Int) (pc : ManagePc) :
    (s.manageTo pc).killWorker k = (s.killWorker k).manageTo pc := by
  have hworker : ((s.manageTo pc).slot k).worker = (s.slot k).worker := rfl
  unfold State.killWorker
  rw [hworker]
  cases (s.slot k).worker <;> rfl

theorem State.killWorker_curThNum (s : State w ω δ) (k : Int) :
    (s.killWorker k).curThNum = s.curThNum := by
  unfold State.killWorker
  dsimp only
  split <;> rfl

variable (min max) in
/-- The end of `tp_delete_thread`, after its kill. -/
theorem manages_destroyed (s : State w ω δ) : Manages min max (s.manageTo .lockIndex)
    (State.manageTo { s.setSlot (s.curThNum - 1) fun x =>
      { x with threadLock := .destroyed, threadCond := .destroyed } with
        curThNum := s.curThNum - 1 } .delMin) := by
  let lockGone := s.setSlot (s.curThNum - 1) fun x => { x with threadLock := .destroyed }
  let gone := lockGone.setSlot (s.curThNum - 1) fun x => { x with threadCond := .destroyed }
  have hgone : gone = s.setSlot (s.curThNum - 1) fun x =>
      { x with threadLock := .destroyed, threadCond := .destroyed } := by
    simp [gone, lockGone, State.setSlot]
  rw [← hgone]
  have hlock : Manages min max (s.manageTo .lockIndex) (lockGone.manageTo .condIndex) :=
    .trans (.one _ ManagePc.noConfusion rfl)
      (.one (.destroyLock (s.curThNum - 1)) ManagePc.noConfusion rfl)
  have hcond : Manages min max (lockGone.manageTo .condIndex) (gone.manageTo .decRead) :=
    .trans (.one _ ManagePc.noConfusion rfl)
      (.one (.destroyCond (s.curThNum - 1)) ManagePc.noConfusion rfl)
  have hdec : Manages min max (gone.manageTo .decRead)
      (State.manageTo { gone with curThNum := s.curThNum - 1 } .delMin) :=
    .trans (.one _ ManagePc.noConfusion rfl)
      (.one (.decWrite s.curThNum) ManagePc.noConfusion rfl)
  exact (hlock.trans hcond).trans hdec

/-- A `tp_delete_thread` that does not refuse. -/
theorem manages_deleted (hmin : s.minThNum < s.curThNum)
    (hidle : (s.slot (s.curThNum - 1)).isBusy = false) :
    Manages min max (s.manageTo .delMin) (s.deleted.manageTo .delMin) := by
  have hnot : ¬ s.curThNum ≤ s.minThNum := Int.not_le.2 hmin
  have htest : Manages min max (s.manageTo .delMin) (s.manageTo .busyIndex) :=
    .one _ ManagePc.noConfusion (congrArg s.manageTo (if_neg hnot))
  have hbusy : Manages min max (s.manageTo .busyIndex) (s.manageTo .killIndex) :=
    .trans (.one _ ManagePc.noConfusion rfl) (.one (.delBusy (s.curThNum - 1))
      ManagePc.noConfusion (congrArg s.manageTo (if_neg (Bool.eq_false_iff.1 hidle))))
  have hkill : Manages min max (s.manageTo .killIndex)
      ((s.killWorker (s.curThNum - 1)).manageTo .lockIndex) := by
    refine .trans (.one _ ManagePc.noConfusion rfl)
      (.one (.kill (s.curThNum - 1)) ManagePc.noConfusion ?_)
    show ((s.manageTo _).killWorker (s.curThNum - 1)).manageTo .lockIndex = _
    rw [State.killWorker_manageTo, State.manageTo_manageTo]
  have hdestroy := manages_destroyed min max (s.killWorker (s.curThNum - 1))
  rw [State.killWorker_curThNum] at hdestroy
  exact ((htest.trans hbusy).trans hkill).trans hdestroy

/-! ## The loop of `tp_delete_thread` -/

/-- What is left of the other fields. -/
theorem State.deleted_others (s : State w ω δ) :
    s.deleted.minThNum = s.minThNum ∧ s.deleted.maxThNum = s.maxThNum ∧
      s.deleted.tpLock = s.tpLock ∧ s.deleted.call = s.call ∧ s.deleted.created = s.created ∧
      s.deleted.freed = s.freed ∧ s.deleted.killed = (s.curThNum - 1) :: s.killed := by
  simp only [State.deleted, State.setSlot, State.killWorker]
  split <;> exact ⟨rfl, rfl, rfl, rfl, rfl, rfl, rfl⟩

theorem State.deleted_slot (s : State w ω δ) : s.deleted.slot = Function.update s.slot
    (s.curThNum - 1) { s.slot (s.curThNum - 1) with
      threadLock := .destroyed, threadCond := .destroyed } := by
  simp only [State.deleted, State.setSlot, State.killWorker]
  split <;> rfl

/-- A kill stops the worker of the last slot. -/
theorem State.deleted_thread_self {n : Nat} (h : (s.slot (s.curThNum - 1)).worker = some n) :
    s.deleted.thread n = { s.thread n with pc := .killed } := by
  simp only [State.deleted, State.setSlot, State.killWorker, h]
  exact Function.update_self ..

/-- A kill leaves the other workers alone. -/
theorem State.deleted_thread_of_ne {n : Nat} (h : (s.slot (s.curThNum - 1)).worker ≠ some n) :
    s.deleted.thread n = s.thread n := by
  simp only [State.deleted, State.setSlot, State.killWorker]
  split
  · next m hm =>
    refine Function.update_of_ne ?_ ..
    rintro rfl
    exact h hm
  · rfl

/-- No slot is removed. -/
theorem Shrunk.refused (hmin : s.minThNum ≤ s.curThNum)
    (h : s.curThNum ≤ s.minThNum ∨ (s.slot (s.curThNum - 1)).isBusy = true) :
    Shrunk s (s.manageTo .sleep) where
  range := ⟨hmin, le_rfl⟩
  idle _ h1 h2 := absurd h1 (not_le.2 h2)
  stop := h.imp_left fun hle => le_antisymm hle hmin
  killed := by
    show s.killed = (List.range (s.curThNum - s.curThNum).toNat).map _ ++ s.killed
    rw [Int.sub_self]
    rfl
  removed _ h1 h2 := absurd h1 (not_le.2 h2)
  slots _ _ := rfl
  stopped _ _ h1 h2 := absurd h1 (not_le.2 h2)
  threads _ _ := rfl
  others := ⟨rfl, rfl, rfl, rfl, rfl, rfl⟩

/-- The last slot is removed, and then others. -/
theorem Shrunk.deleted (hidle : (s.slot (s.curThNum - 1)).isBusy = false)
    (h : Shrunk s.deleted t) : Shrunk s t := by
  obtain ⟨hsmin, hsmax, hslock, hscall, hscreated, hsfreed, hskilled⟩ := s.deleted_others
  have hcur : s.deleted.curThNum = s.curThNum - 1 := rfl
  have hslot : ∀ i, i ≠ s.curThNum - 1 → s.deleted.slot i = s.slot i := by
    intro i hi
    rw [s.deleted_slot]
    exact Function.update_of_ne hi ..
  have hworker : ∀ i, (s.deleted.slot i).worker = (s.slot i).worker := by
    intro i
    rcases eq_or_ne i (s.curThNum - 1) with rfl | hne
    · rw [s.deleted_slot, Function.update_self]
    · rw [hslot i hne]
  -- the slots that are removed: those below the last, and the last
  have hcases : ∀ i, t.curThNum ≤ i → i < s.curThNum →
      i < s.deleted.curThNum ∧ i ≠ s.curThNum - 1 ∨ i = s.curThNum - 1 := by
    intro i _ hi
    rw [hcur]
    omega
  have hrange := h.range
  rw [hsmin, hcur] at hrange
  constructor
  · omega
  · intro i h1 h2
    rcases hcases i h1 h2 with ⟨hlt, hne⟩ | rfl
    · rw [← hslot i hne]
      exact h.idle i h1 hlt
    · exact hidle
  · refine h.stop.imp (·.trans hsmin) fun hbusy => ?_
    rwa [hslot _ (by omega)] at hbusy
  · rw [h.killed, hskilled, hcur]
    have hone : (s.curThNum - t.curThNum).toNat =
        (s.curThNum - 1 - t.curThNum).toNat + 1 := by omega
    have hlast : t.curThNum + ((s.curThNum - 1 - t.curThNum).toNat : Int) = s.curThNum - 1 := by
      omega
    rw [hone, List.range_succ, List.map_append, List.map_singleton, hlast, List.append_assoc]
    rfl
  · intro i h1 h2
    rcases hcases i h1 h2 with ⟨hlt, hne⟩ | rfl
    · rw [h.removed i h1 hlt, hslot i hne]
    · rw [h.slots _ (.inr (le_of_eq hcur)), s.deleted_slot, Function.update_self]
  · intro i hi
    have hne : i ≠ s.curThNum - 1 := by omega
    rw [h.slots i (by omega), hslot i hne]
  · intro n i h1 h2 hn
    -- stopped in this round or in a later one
    have hlater : ∀ j, t.curThNum ≤ j → j < s.deleted.curThNum → (s.slot j).worker = some n →
        t.thread n = { s.thread n with pc := .killed } := by
      intro j hj1 hj2 hj
      rw [h.stopped n j hj1 hj2 ((hworker j).trans hj)]
      by_cases hself : (s.slot (s.curThNum - 1)).worker = some n
      · rw [State.deleted_thread_self hself]
      · rw [State.deleted_thread_of_ne hself]
    rcases hcases i h1 h2 with ⟨hlt, -⟩ | rfl
    · exact hlater i h1 hlt hn
    · by_cases hagain : ∃ j, t.curThNum ≤ j ∧ j < s.deleted.curThNum ∧ (s.slot j).worker = some n
      · obtain ⟨j, hj1, hj2, hj⟩ := hagain
        exact hlater j hj1 hj2 hj
      · rw [h.threads n fun j hj1 hj2 hj => hagain ⟨j, hj1, hj2, (hworker j).symm.trans hj⟩,
          State.deleted_thread_self hn]
  · intro n hn
    have hlast : (s.slot (s.curThNum - 1)).worker ≠ some n := hn _ (by omega) (by omega)
    rw [h.threads n fun j hj1 hj2 => (hworker j).symm ▸ hn j hj1 (by omega),
      State.deleted_thread_of_ne hlast]
  · rw [← hsmin, ← hsmax, ← hslock, ← hscall, ← hscreated, ← hsfreed]
    exact h.others

variable (min max) in
/-- The loop over `tp_delete_thread` ends, and has removed the idle tail. -/
theorem manages_loop (s : State w ω δ) (hmin : s.minThNum ≤ s.curThNum) :
    ∃ t, Manages min max (s.manageTo .delMin) t ∧ t.manager = .sleep ∧ Shrunk s t := by
  generalize hk : (s.curThNum - s.minThNum).toNat = k
  induction k generalizing s with
  | zero =>
    have hfull : s.curThNum ≤ s.minThNum := by omega
    exact ⟨_, manages_refused (.inl hfull), rfl, .refused hmin (.inl hfull)⟩
  | succ k ih =>
    cases hidle : (s.slot (s.curThNum - 1)).isBusy with
    | true => exact ⟨_, manages_refused (.inr hidle), rfl, .refused hmin (.inr hidle)⟩
    | false =>
      have hcur : s.deleted.curThNum = s.curThNum - 1 := rfl
      have hsmin : s.deleted.minThNum = s.minThNum := s.deleted_others.1
      obtain ⟨t, hrun, hsleep, hshrunk⟩ := ih s.deleted (by omega) (by omega)
      exact ⟨t, (manages_deleted (by omega) hidle).trans hrun, hsleep, hshrunk.deleted hidle⟩

/-- What `busyEnd` is. -/
theorem busyEnd_spec (slot : Int → Slot w ω δ) (k : Nat) :
    busyEnd slot k ≤ k ∧ (∀ i : Int, busyEnd slot k ≤ i → i < k → (slot i).isBusy = false) ∧
      (busyEnd slot k = 0 ∨ (slot ((busyEnd slot k : Int) - 1)).isBusy = true) := by
  induction k with
  | zero => exact ⟨le_rfl, fun i h1 h2 => absurd h1 (not_le.2 h2), .inl rfl⟩
  | succ k ih =>
    obtain ⟨hle, hidle, hlast⟩ := ih
    rw [busyEnd]
    split
    · next hbusy =>
      refine ⟨le_rfl, fun i h1 h2 => absurd h1 (not_le.2 h2), .inr ?_⟩
      rwa [Nat.cast_succ, Int.add_sub_cancel]
    · next hbusy =>
      refine ⟨hle.trans k.le_succ, fun i h1 h2 => ?_, hlast⟩
      rcases eq_or_ne i k with rfl | hne
      · exact Bool.eq_false_iff.2 hbusy
      · exact hidle i h1 (by push_cast at h2; omega)

/-- What is left is given by the last busy slot and the minimum. -/
theorem Shrunk.curThNum_eq (h : Shrunk s t) (hpos : 0 ≤ s.minThNum) :
    t.curThNum = Max.max s.minThNum (busyEnd s.slot s.curThNum.toNat) := by
  obtain ⟨hle, hidle, hlast⟩ := busyEnd_spec s.slot s.curThNum.toNat
  generalize busyEnd s.slot s.curThNum.toNat = e at *
  have hrange := h.range
  -- a busy slot is not removed, so the last one stays
  have hkept : (e : Int) ≤ t.curThNum := by
    rcases hlast with rfl | hlast
    · exact_mod_cast hpos.trans hrange.1
    · by_contra hgt
      have hgone := h.idle (e - 1) (by omega) (by omega)
      rw [hlast] at hgone
      cases hgone
  rcases h.stop with hstop | hstop
  · rw [hstop] at hkept ⊢
    exact (max_eq_left hkept).symm
  · have hbusy : t.curThNum ≤ e := by
      by_contra hgt
      have hgone := hidle (t.curThNum - 1) (by omega) (by omega)
      rw [hstop] at hgone
      cases hgone
    rw [max_eq_right (hrange.1.trans hbusy)]
    exact le_antisymm hbusy hkept

variable (min max) in
/-- A pass ends, and has done what it should. -/
theorem manages_pass (s : State w ω δ) (hmin : s.minThNum ≤ s.curThNum)
    (hpc : s.manager = .statTest 0 0) :
    ∃ t, Manages min max s t ∧ t.manager = .sleep ∧ RemovesTail s t := by
  have hself : s.manageTo (.statTest 0 0) = s := by
    rw [← hpc]
    rfl
  have hstatus : Manages min max s _ := hself ▸ manages_status s (by rw [Int.sub_zero]) 0
  by_cases hidle : isIdleStatus (busyFrom s.slot 0 0 s.curThNum.toNat) s.curThNum = true
  · have hzero : s.tpGetTpStatus = 0 := if_pos hidle
    obtain ⟨t, hrun, hsleep, hshrunk⟩ := manages_loop min max s hmin
    have hdelete := hstatus.trans
      (.one _ ManagePc.noConfusion (congrArg s.manageTo (if_pos hidle)))
    exact ⟨t, hdelete.trans hrun, hsleep, fun _ => hshrunk, fun _ => hshrunk.curThNum_eq,
      fun hne => absurd hzero hne⟩
  · have hone : s.tpGetTpStatus = 1 := if_neg hidle
    have hend := hstatus.trans
      (.one _ ManagePc.noConfusion (congrArg s.manageTo (if_neg hidle)))
    refine ⟨_, hend, rfl, fun hzero => ?_, fun hzero => ?_, fun _ => rfl⟩
    · rw [hone] at hzero
      cases hzero
    · rw [hone] at hzero
      cases hzero

/-- **A pass of the manager removes exactly the idle tail**, and it ends. -/
theorem managePass_removesTail (hmin : s.minThNum ≤ s.curThNum) (hpc : s.manager = .statTest 0 0) :
    (∀ as t, (machine w ω δ min max).Run Managing s as t → t.manager = .sleep →
      RemovesTail s t) ∧
    ∃ as t, (machine w ω δ min max).Run Managing s as t ∧ t.manager = .sleep := by
  obtain ⟨t, ⟨as, hr⟩, hsleep, hremoves⟩ := manages_pass min max s hmin hpc
  refine ⟨fun bs u hr' hsleep' => ?_, as, t, hr, hsleep⟩
  rw [Managing.unique hr' hr hsleep' hsleep]
  exact hremoves

end

/-- A pool of four slots, of which the one at index `1` is busy. -/
def oneBusy : State 64 Nat Nat :=
  { (idlePool 4 4).setSlot 1 fun x => { x with isBusy := true } with
    minThNum := 1, manager := .statTest 0 0 }

/-- The slots above the busy one are removed. -/
theorem oneBusy_removesTail :
    ∃ t as, (machine 64 Nat Nat 1 4).Run Managing oneBusy as t ∧ t.manager = .sleep ∧
      t.curThNum = 2 ∧ t.killed = [2, 3] := by
  have hmin : oneBusy.minThNum ≤ oneBusy.curThNum := show (1 : Int) ≤ 4 by decide
  obtain ⟨hall, as, t, hr, hsleep⟩ := @managePass_removesTail 64 Nat Nat 1 4 oneBusy hmin rfl
  have hremoves := hall as t hr hsleep
  have hstatus : oneBusy.tpGetTpStatus = 0 := by decide +kernel
  have hcur : t.curThNum = 2 := hremoves.closed hstatus (show (0 : Int) ≤ 1 by decide)
  have hkilled := (hremoves.idle hstatus).killed
  rw [hcur] at hkilled
  exact ⟨t, as, hr, hsleep, hcur, hkilled⟩

/-- A pool that was created for `-1` threads. -/
def negativePool : State 64 Nat Nat :=
  { idlePool 0 1 with minThNum := -1, curThNum := -1, manager := .statTest 0 0 }

/-- It is idle and keeps its number, which is not the larger of its minimum and zero. -/
theorem negativePool_not_closed :
    ∃ t as, (machine 64 Nat Nat (-1) 1).Run Managing negativePool as t ∧ t.manager = .sleep ∧
      negativePool.tpGetTpStatus = 0 ∧ t.curThNum = -1 ∧
      busyEnd negativePool.slot negativePool.curThNum.toNat = 0 ∧
      t.curThNum ≠ max negativePool.minThNum 0 := by
  have hstatus : negativePool.tpGetTpStatus = 0 := by decide +kernel
  obtain ⟨t, ⟨as, hr⟩, hsleep, hremoves⟩ :=
    manages_pass (-1) 1 negativePool (Int.le_refl (-1)) rfl
  have hrange : (-1 : Int) ≤ t.curThNum ∧ t.curThNum ≤ -1 := (hremoves.idle hstatus).range
  have hcur : t.curThNum = -1 := by omega
  refine ⟨t, as, hr, hsleep, hstatus, hcur, rfl, ?_⟩
  rw [hcur]
  decide

end LinuxTraining.ThreadPool
