import LinuxTraining.ThreadPool.Frame
import LinuxTraining.ThreadPool.Rules

/-!
# The thread pool: the steps of a submission

`Calm` and `ShrinksApart` are conditions on the steps of the pool. Under them each step of
`tp_process_job`, with its signal and its `pthread_create`, keeps the annotations:
`Inv.submitStep`, `Inv.signalStep` and `Inv.createStep`.
-/

namespace LinuxTraining.ThreadPool

variable {w : Nat} {ω δ : Type}

/-- The condition on a step of the pool that is about its signals and its threads:
`pthread_create` succeeds, no worker wakes without a signal, and the signal that follows a refused
growth finds no waiter. -/
def Calm (s : State w ω δ) : Act w ω δ → Prop
  | .create _ none | .spurious _ => False
  | .signal c (some _) => ∀ i, (s.call c).pc ≠ .wake false i
  | _ => True

/-- The condition on a step of the pool that is about `tp_delete_thread`. When it finds slot `k`
idle, `k` is still the last slot, its own worker alone serves it, and no submission is about to lock
it, has been refused growth with a signal to `k` ahead, or is in `tp_add_thread`. From there to the
decrement, no submission finds its loop variable below `cur_th_num` at the last slot or takes
`tp_lock`. Once the pool has begun to shrink, a worker's look-up finds no slot but its own. -/
def ShrinksApart (s : State w ω δ) : Act w ω δ → Prop
  | .manage => ∀ k, s.manager = .delBusy k → (s.slot k).isBusy = false → s.curThNum = k + 1 ∧
    (∀ c, ¬ (s.call c).pc.Threatens k) ∧
      ∀ n, (s.thread n).pc.serves = some k → (s.slot k).worker = some n
  | .submit c => s.manager.Deleting →
    (∀ i, (s.call c).pc ≠ .poolLock i) ∧ (s.call c).pc ≠ .test (s.curThNum - 1)
  | .work n => s.killed ≠ [] ∨ s.manager.Deleting → ∀ i, (s.thread n).pc = .cmp i →
    narrowed (s.thread n).id = (s.slot i).threadId → (s.slot i).worker = some n
  | _ => True

section
variable {s s' : State w ω δ} {c n : Nat} {i : Int}

/-! ## What a submission does to its own annotation -/

/-- A change of a slot that keeps its history keeps a claim. -/
theorem Claims.setSlot (h : Claims s c i) {f : Slot w ω δ → Slot w ω δ}
    (hf : (f (s.slot i)).phase = (s.slot i).phase) : Claims (s.setSlot i f) c i := by
  refine ⟨?_, h.2⟩
  rw [State.setSlot_self, hf]
  exact h.1

/-- After `is_busy = TRUE`. -/
theorem Claims.of_claim (hf : Fresh s c) :
    Claims (s.claim c i) c i ∧ ((s.claim c i).call c).stored = none := by
  have hcall : (s.claim c i).call c = { s.call c with claimed := some i } :=
    State.setCall_self s c fun x => { x with claimed := some i }
  refine ⟨⟨?_, ?_⟩, ?_⟩
  · exact congrArg Slot.phase (State.setSlot_self ..)
  · rw [hcall]
    exact ⟨rfl, hf.2.2⟩
  · rw [hcall]
    exact hf.2.1

/-- After `th_work = worker`. -/
theorem Others.putWork (h : Others s (some (.submit c))) (hc : Claims s c i)
    (hthreat : s.manager.Deleting → ¬ (s.call c).pc.Threatens (s.curThNum - 1)) :
    Others (s.putWork c i) (some (.submit c)) ∧ Claims (s.putWork c i) c i ∧
      HasWork (s.putWork c i) c i := by
  have hholder : (s.slot i).phase.holder = some c := by rw [hc.1]; rfl
  have hcall : (s.putWork c i).call c = { s.call c with stored := some i } :=
    State.setCall_self s c fun x => { x with stored := some i }
  have hstored : Others (s.setCall c fun x => { x with stored := some i }) (some (.submit c)) :=
    h.setCall (.inl rfl)
      (fun k m _ hk => by
        have hki := h.eq_of_holder hc.2.1 (k := k) (by rw [hk]; rfl)
        subst hki
        exact absurd (hk.symm.trans hc.1) nofun)
      (fun k hk => h.holder k c hk) (fun k hk => by
        cases hk
        exact .inr hholder) (fun hfin => absurd (hc.2.2.2.symm.trans hfin) nofun) hthreat
  refine ⟨hstored.setPair hc.1, ⟨?_, ?_⟩, ?_, ?_⟩
  · exact (congrArg Slot.phase (State.setSlot_self ..)).trans hc.1
  · rw [hcall]
    exact hc.2
  · rw [hcall]
    exact congrArg Slot.thWork (State.setSlot_self ..)
  · rw [hcall]

/-- After `th_job = job`. -/
theorem Others.putJob (h : Others s (some (.submit c))) (hc : Claims s c i)
    (hw : HasWork s c i) :
    Others (s.putJob c i) (some (.submit c)) ∧ Claims (s.putJob c i) c i ∧
      HasWork (s.putJob c i) c i ∧ HasJob (s.putJob c i) c i := by
  refine ⟨h.setPair hc.1, hc.setSlot rfl, ⟨?_, hw.2⟩, ?_⟩
  · exact (congrArg Slot.thWork (State.setSlot_self ..)).trans hw.1
  · exact congrArg Slot.thJob (State.setSlot_self ..)

/-- A submission that threatens each slot does not run while one is deleted. -/
theorem Inv.not_deleting (h : Inv s) (hc : ∀ k, (s.call c).pc.Threatens k) :
    ¬ s.manager.Deleting :=
  fun hm => (h.manage.closing hm).2.2.1 c (hc _)

/-- The slot after the last is free when a submission that has claimed none is to add it. -/
theorem Inv.free_next (h : Inv s) (hf : Fresh s c) (hl : s.tpLock = some c) (hn : Next s i) :
    (s.slot i).phase = .free := by
  refine (h.above i hn.1.ge).resolve_right fun ⟨d, hd⟩ => ?_
  have hholder : (s.slot i).phase.holder = some d := by rw [hd]; rfl
  have hclaimed := h.holder i d hholder
  have hne : d ≠ c := by
    rintro rfl
    exact absurd (hf.1.symm.trans hclaimed) nofun
  have hlt : ∀ {k}, Claims s d k → ¬ k < s.curThNum := by
    intro k hk hlt
    have hki := Option.some.inj (hk.2.1.symm.trans hclaimed)
    exact absurd hlt (not_lt.2 (hn.1.symm.trans hki.symm).le)
  have hpool : s.tpLock ≠ some d := fun he => hne (Option.some.inj (he.symm.trans hl))
  have hfresh : ¬ Fresh s d := fun he => absurd (he.1.symm.trans hclaimed) nofun
  have hsub := h.submit d
  generalize (s.call d).pc = pc at hsub
  cases pc with
  | idle => exact hfresh hsub
  | test | lock | readBusy | setBusy | unlockBusy | poolLock | addTest | addIndex | condInit
  | lockInit | addBusy => exact hfresh hsub.1
  | unlockClaimed | storeWork | storeJob | signal | growWork | growJob =>
    exact hlt hsub.1 hsub.2.1
  | incRead | incWrite | create => exact hpool hsub.2.2.1
  | growIndex => exact hpool hsub.2.2
  | poolUnlock grown k | wake grown k =>
    cases grown with
    | false => exact hfresh hsub.1
    | true => exact hlt hsub.1 hsub.2.1
  | returned => exact hsub i hd

/-! ## The steps -/

/-- A step of `tp_process_job` that is neither a signal nor a `pthread_create`. -/
theorem Inv.submitStep (h : Inv s) (hC : ShrinksApart s (.submit c))
    (hs : submitStep s c = some s') : Inv s' := by
  have hok := h.submit c
  have ho := h.others (some (.submit c))
  have hno : s.manager.Deleting → ¬ (s.call c).pc.Threatens (s.curThNum - 1) :=
    fun hm => (h.manage.closing hm).2.2.1 c
  have hdel := h.not_deleting (c := c)
  cases submitStep_rule hs with
  | test i hpc hlt =>
    rw [hpc] at hok
    exact ho.submitTo ⟨hok.1, hlt⟩ fun hm hi => (hC hm).2 (by rw [hpc, hi])
  | past i hpc =>
    rw [hpc] at hok
    exact ho.submitTo hok fun _ => id
  | lock i _ hpc ht =>
    rw [hpc] at hok hno
    obtain ⟨rfl, ht, howner⟩ := ho.lockSlot ht
    exact ht.submitTo ⟨hok.1, hok.2, howner⟩ hno
  | busy i hpc =>
    rw [hpc] at hok hno
    exact ho.submitTo hok hno
  | idle i hpc hb =>
    rw [hpc] at hok hno
    obtain ⟨hf, hi, howner⟩ := hok
    exact ho.submitTo ⟨hf, hi, howner, hb⟩ hno
  | setBusy i hpc =>
    rw [hpc] at hok
    obtain ⟨hf, hi, howner, hb⟩ := hok
    have hfree : (s.slot i).phase = .free := by
      by_contra hne
      exact absurd ((h.busy i hne).symm.trans hb) nofun
    have hclaim := ho.claim hf hfree (fun _ => howner) fun hm =>
      ⟨fun he => hno hm (by rw [hpc]; exact he), hno hm⟩
    obtain ⟨hclaims, hst⟩ := Claims.of_claim (i := i) hf
    refine hclaim.submitTo ⟨hclaims, hi, hst, ?_⟩ fun _ => id
    exact (congrArg Slot.owner (State.setSlot_self ..)).trans howner
  | unlockClaimed i hpc =>
    rw [hpc] at hok
    obtain ⟨hc, hi, hst, howner⟩ := hok
    exact (ho.unlockSlot howner).submitTo ⟨hc.setSlot rfl, hi, hst⟩ fun _ => id
  | storeWork i hpc =>
    rw [hpc] at hok
    obtain ⟨hput, hc, hw⟩ := ho.putWork hok.1 hno
    exact hput.submitTo ⟨hc, hok.2.1, hw⟩ fun _ => id
  | storeJob i hpc =>
    rw [hpc] at hok
    obtain ⟨hput, hc, hw, hj⟩ := ho.putJob hok.1 hok.2.2
    exact hput.submitTo ⟨hc, hok.2.1, hw, hj⟩ fun _ => id
  | unlockBusy i hpc =>
    rw [hpc] at hok
    obtain ⟨hf, hi, howner⟩ := hok
    have hmax := h.range.2.2
    refine (ho.unlockSlot howner).submitTo ⟨hf, ?_⟩ fun _ => id
    change i + 1 ≤ s.maxThNum
    omega
  | poolLock i hpc hfree =>
    rw [hpc] at hok
    have hlock : Others { s with tpLock := some c } (some (.submit c)) :=
      ho.setPoolLock fun _ _ hl => absurd (hfree.symm.trans hl) nofun
    exact hlock.submitTo ⟨hok.1, rfl, hok.2⟩ fun hm => absurd hpc ((hC hm).1 i)
  | refused i hpc hmax =>
    rw [hpc] at hok hdel
    obtain ⟨hf, hl, hi⟩ := hok
    have hnd := hdel fun _ => trivial
    refine ho.submitTo ⟨hf, fun hd => ?_, hl⟩ fun hm => absurd hm hnd
    obtain ⟨hlt, hge | ⟨hm, -⟩⟩ := h.destroyed i hd
    · exact absurd (hmax.trans hge) (not_le.2 hlt)
    · exact hnd hm
  | addTest i hpc hroom =>
    rw [hpc] at hok hdel
    exact ho.submitTo ⟨hok.1, hok.2.1, hroom⟩ fun hm => absurd hm (hdel fun _ => trivial)
  | addIndex i hpc =>
    rw [hpc] at hok hdel
    exact ho.submitTo ⟨hok.1, hok.2.1, rfl, hok.2.2⟩ fun hm => absurd hm (hdel fun _ => trivial)
  | condInit i n hpc =>
    rw [hpc] at hok hdel
    obtain ⟨hf, hl, hn⟩ := hok
    have hinit : Others (s.setSlot n fun x => { x with threadCond := .live })
        (some (.submit c)) := ho.initSlot hn.1 (.inr rfl) (.inl rfl)
    refine hinit.submitTo ⟨hf, hl, hn, ?_⟩ fun hm => absurd hm (hdel fun _ => trivial)
    exact congrArg Slot.threadCond (State.setSlot_self ..)
  | lockInit i n hpc =>
    rw [hpc] at hok hdel
    obtain ⟨hf, hl, hn, hcond⟩ := hok
    have hinit : Others (s.setSlot n fun x => { x with threadLock := .live, owner := none })
        (some (.submit c)) := ho.initSlot hn.1 (.inl rfl) (.inr rfl)
    refine hinit.submitTo ⟨hf, hl, hn, ?_, ?_⟩ fun hm => absurd hm (hdel fun _ => trivial)
    · exact (congrArg Slot.threadCond (State.setSlot_self ..)).trans hcond
    · exact congrArg Slot.threadLock (State.setSlot_self ..)
  | addBusy i n hpc =>
    rw [hpc] at hok hdel
    obtain ⟨hf, hl, hn, hcond, hlock⟩ := hok
    have hnd := hdel fun _ => trivial
    have hclaim := ho.claim hf (h.free_next hf hl hn) (fun hlt => absurd hn.1 hlt.ne)
      fun hm => absurd hm hnd
    obtain ⟨hclaims, hst⟩ := Claims.of_claim (i := n) hf
    refine hclaim.submitTo ⟨hclaims, hst, hl, hn, ?_, ?_⟩ fun hm => absurd hm hnd
    · exact (congrArg Slot.threadCond (State.setSlot_self ..)).trans hcond
    · exact (congrArg Slot.threadLock (State.setSlot_self ..)).trans hlock
  | incRead i n hpc =>
    rw [hpc] at hok hdel
    obtain ⟨hc, hst, hl, hn, hcond, hlock⟩ := hok
    exact ho.submitTo ⟨hc, hst, hl, hn, hcond, hlock, hn.1.symm⟩
      fun hm => absurd hm (hdel fun _ => trivial)
  | incWrite i n v hpc =>
    rw [hpc] at hok hdel
    obtain ⟨hc, hst, hl, hn, hcond, hlock, rfl⟩ := hok
    have hnd := hdel fun _ => trivial
    have hlive : ¬ (s.slot v).Destroyed := fun hd =>
      hd.elim (fun he => absurd (hlock.symm.trans he) nofun)
        fun he => absurd (hcond.symm.trans he) nofun
    have hgrown := ho.grow hl hn (by rw [hc.1]; nofun) hlive hnd
    exact hgrown.submitTo ⟨hc, hst, hl, rfl⟩ fun hm => absurd hm hnd
  | growIndex hpc =>
    rw [hpc] at hok
    obtain ⟨hc, hst, hl⟩ := hok
    exact ho.submitTo ⟨hc, sub_one_lt _, hst, hl⟩ fun _ => id
  | growWork i hpc =>
    rw [hpc] at hok
    obtain ⟨hc, hi, -, hl⟩ := hok
    obtain ⟨hput, hc, hw⟩ := ho.putWork hc hno
    exact hput.submitTo ⟨hc, hi, hw, hl⟩ fun _ => id
  | growJob i hpc =>
    rw [hpc] at hok
    obtain ⟨hc, hi, hw, hl⟩ := hok
    obtain ⟨hput, hc, hw, hj⟩ := ho.putJob hc hw
    exact hput.submitTo ⟨hc, hi, hw, hj, hl⟩ fun _ => id
  | poolUnlock grown i hpc =>
    rw [hpc] at hok hno
    have hl : s.tpLock = some c := by
      cases grown with
      | false => exact hok.2.2
      | true => exact hok.2.2.2.2
    have hunlock : Others { s with tpLock := none } (some (.submit c)) :=
      ho.setPoolLock fun d hd hl' => absurd (Option.some.inj (hl'.symm.trans hl)) hd
    refine hunlock.submitTo ?_ ?_
    · cases grown with
      | false => exact ⟨hok.1, hok.2.1⟩
      | true => exact ⟨hok.1, hok.2.1, hok.2.2.1, hok.2.2.2.1⟩
    · cases grown with
      | false => exact hno
      | true => exact fun _ => id

/-- After the signal of a submission that holds a slot. -/
theorem Others.returned (h : Others s (some (.submit c))) (hc : Claims s c i)
    (hi : i < s.curThNum) (woken : Option Nat) :
    SubmitOk (s.setSlot i fun x => { x with phase := .signalled c woken }) c .returned := by
  intro k hk
  rcases eq_or_ne k i with rfl | hne
  · rw [State.setSlot_self] at hk
    cases woken <;> cases hk
  · rw [State.setSlot_of_ne _ _ hne] at hk
    exact hne (h.eq_of_holder hc.2.1 (by rw [hk]; rfl))

/-- The signal of a submission that holds a slot wakes a worker for it, or loses it. -/
theorem Inv.signalHeld (h : Inv s) (hc : Claims s c i) (hi : i < s.curThNum)
    (hw : HasWork s c i) (hj : HasJob s c i) {woken : Option Nat} {t : State w ω δ}
    (ht : s.condSignal i woken = some t) :
    Inv ((t.setSlot i fun x => { x with phase := .signalled c woken }).submitTo c .returned) := by
  have hsig := (h.others (some (.submit c))).signalled hc.1 hi woken
  have hret := (h.others (some (.submit c))).returned hc hi woken
  rcases condSignal_eq ht with ⟨rfl, rfl⟩ | ⟨n, rfl, hpc, rfl⟩
  · exact hsig.submitTo hret fun _ => id
  · have hrun : ToRun (s.setSlot i fun x => { x with phase := .signalled c (some n) }) n i := by
      have hslot := State.setSlot_self s i fun x => { x with phase := .signalled c (some n) }
      refine ⟨c, ⟨hi, ?_, ?_, ?_, hw.2, hc.2.2.2⟩, hc.2.2.1⟩
      · rw [hslot]
        rfl
      · rw [hslot]
        exact hw.1
      · rw [hslot]
        exact hj
    have hlive : (s.thread n).pc ≠ .unborn ∧ (s.thread n).pc ≠ .killed := by
      rw [hpc]
      exact ⟨nofun, nofun⟩
    have hwoken : Others (State.workTo _ n (.relock i)) (some (.submit c)) :=
      hsig.setThread hlive (fun _ => hrun) (fun _ => (congrArg WorkPc.serves hpc).symm.trans)
        fun hm hi => ((hsig.manage nofun).closing hm).2.2.2 n
          ((congrArg WorkPc.serves hpc).trans hi)
    exact hwoken.submitTo (submitOk_workTo.2 hret) fun _ => id

/-- A step of `tp_process_job` that signals. -/
theorem Inv.signalStep (h : Inv s) {woken : Option Nat} (hC : Calm s (.signal c woken))
    (hs : signalStep s c woken = some s') : Inv s' := by
  have hok := h.submit c
  unfold ThreadPool.signalStep at hs
  cases hpc : (s.call c).pc with
  | signal i =>
    rw [hpc] at hs hok
    obtain ⟨t, ht, rfl⟩ := Option.map_eq_some_iff.1 hs
    exact h.signalHeld hok.1 hok.2.1 hok.2.2.1 hok.2.2.2 ht
  | wake grown i =>
    rw [hpc] at hs hok
    cases grown with
    | true =>
      obtain ⟨t, ht, rfl⟩ := Option.map_eq_some_iff.1 hs
      exact h.signalHeld hok.1 hok.2.1 hok.2.2.1 hok.2.2.2 ht
    | false =>
      obtain ⟨t, ht, rfl⟩ := Option.map_eq_some_iff.1 hs
      cases woken with
      | some n => exact absurd hpc (hC i)
      | none =>
        obtain ⟨-, rfl⟩ := (condSignal_eq ht).resolve_right fun ⟨_, hn, _⟩ => nomatch hn
        refine (h.others _).submitTo (fun k hk => ?_) fun _ => id
        exact h.not_holder hok.1.1 k (by rw [hk]; rfl)
  | _ =>
    rw [hpc] at hs
    cases hs

/-- The `pthread_create` of `tp_add_thread`. -/
theorem Inv.createStep (h : Inv s) {id : Option (BitVec w)} (hC : Calm s (.create c id))
    (hs : createStep s c id = some s') : Inv s' := by
  have hok := h.submit c
  have hdel := h.not_deleting (c := c)
  unfold ThreadPool.createStep at hs
  cases id with
  | none => exact hC.elim
  | some id =>
    cases hpc : (s.call c).pc with
    | create i n =>
      rw [hpc] at hs hok hdel
      dsimp only at hs
      split at hs
      · cases hs
        obtain ⟨hc, hst, hl, hn⟩ := hok
        have hnd := hdel fun _ => trivial
        have hspawn := (h.others (some (.submit c))).spawn id
        have hlt : n < s.curThNum := by omega
        have hset := hspawn.setSlot (i := n)
          (f := fun x => { x with threadId := id, worker := some s.created })
          { hspawn.same n with
            worker := .inr ⟨hlt, hnd, fun m hm => by cases hm; exact Nat.lt_succ_self _⟩ }
        refine hset.submitTo ⟨?_, hst, hl⟩ fun hm => absurd hm hnd
        have hlast : s.curThNum - 1 = n := by omega
        change Claims _ c (s.curThNum - 1)
        rw [hlast]
        exact ⟨(congrArg Slot.phase (State.setSlot_self ..)).trans hc.1, hc.2⟩
      · cases hs
    | _ =>
      rw [hpc] at hs
      cases hs

end

end LinuxTraining.ThreadPool
