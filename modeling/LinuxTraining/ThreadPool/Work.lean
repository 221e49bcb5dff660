import LinuxTraining.ThreadPool.Submit

/-!
# The thread pool: the steps of a worker

Each step of `tp_work_thread` keeps the annotations: `Inv.workStep`.
-/

namespace LinuxTraining.ThreadPool

variable {w : Nat} {ω δ : Type}

section
variable {s s' : State w ω δ} {c n : Nat} {k : Int}

/-- A change of a slot that keeps its history and its pair keeps the run of a worker. -/
theorem RunsFor.setOwner (h : RunsFor s n k c) (i : Int) (o : Option Party) :
    RunsFor (s.setSlot i fun x => { x with owner := o }) n k c := by
  obtain ⟨hk, hph, hw, hj, hcall⟩ := h
  refine ⟨hk, ?_, ?_, ?_, hcall⟩ <;>
  · rcases eq_or_ne k i with rfl | hne
    · rwa [State.setSlot_self]
    · rwa [State.setSlot_of_ne _ _ hne]

theorem ToRun.setOwner (h : ToRun s n k) (i : Int) (o : Option Party) :
    ToRun (s.setSlot i fun x => { x with owner := o }) n k := by
  obtain ⟨c, hfor, hruns⟩ := h
  exact ⟨c, hfor.setOwner i o, hruns⟩

theorem HasRun.setOwner (h : HasRun s n k) (i : Int) (o : Option Party) :
    HasRun (s.setSlot i fun x => { x with owner := o }) n k := by
  obtain ⟨c, hfor, hruns⟩ := h
  exact ⟨c, hfor.setOwner i o, hruns⟩

/-- The submission that holds the slot of a running worker. -/
theorem RunsFor.holder (h : RunsFor s n k c) : (s.slot k).phase.holder = some c := by
  rw [h.2.1]
  rfl

/-- While a worker runs its job, a submission runs nowhere else. -/
theorem Inv.eq_of_running (h : Inv s) (hfor : RunsFor s n k c) {i : Int} {m : Nat}
    (hi : (s.slot i).phase = .running c m) : m = n := by
  have hki := h.eq_of_holder (h.holder k c hfor.holder) (k := i) (by rw [hi]; rfl)
  subst hki
  exact (Phase.running.inj (hi.symm.trans hfor.2.1)).2

/-- The rule for a worker that changes the history of the submission whose job it runs. -/
theorem Inv.setCall (h : Inv s) (hfor : RunsFor s n k c)
    {f : Submission ω δ → Submission ω δ} (hpc : (f (s.call c)).pc = (s.call c).pc)
    (hclaimed : (f (s.call c)).claimed = (s.call c).claimed)
    (hstored : (f (s.call c)).stored = (s.call c).stored)
    (hfinished : (f (s.call c)).finished = true → (f (s.call c)).runs =
      [⟨n, k, (f (s.call c)).worker, (f (s.call c)).job⟩] ∧ (s.thread n).pc.serves = some k) :
    Others (s.setCall c f) (some (.work n)) := by
  have hret := h.returned_of_running (h.submit c) hfor.2.1
  refine (h.others (some (.work n))).setCall (.inr ⟨hret, hpc.trans hret⟩)
    (fun i m hm hi => ?_) (fun i hi => ?_) (fun i hi => ?_) (fun hfin => ?_) fun _ => ?_
  · exact absurd (by rw [h.eq_of_running hfor hi]) hm
  · exact hclaimed.trans (h.holder i c hi)
  · have hki : k = i := Option.some.inj (hfor.2.2.2.2.1.symm.trans (hstored.symm.trans hi))
    exact .inr (hki ▸ hfor.holder)
  · obtain ⟨hruns, hserves⟩ := hfinished hfin
    exact ⟨n, k, hstored.trans hfor.2.2.2.2.1, hruns, fun _ => hserves⟩
  · rw [hpc, hret]
    exact id

/-- The call of `work->process_job`. -/
theorem Inv.record (h : Inv s) {work : ω} {job : δ} (hrun : ToRun s n k)
    (hwork : work = (s.slot k).thWork) (hjob : job = (s.slot k).thJob) :
    Others (s.record n k work job) (some (.work n)) ∧ HasRun (s.record n k work job) n k := by
  obtain ⟨c, hfor, hruns⟩ := hrun
  unfold State.record
  rw [hfor.holder]
  have hcall := State.setCall_self s c fun x => { x with runs := x.runs ++ [⟨n, k, work, job⟩] }
  obtain ⟨hk, hph, hw, hj, hst, hfin⟩ := hfor
  refine ⟨h.setCall ⟨hk, hph, hw, hj, hst, hfin⟩ rfl rfl rfl
    fun hfin' => absurd (hfin.symm.trans hfin') nofun, c, ⟨hk, hph, ?_⟩, ?_⟩
  · dsimp only
    rw [hcall]
    exact ⟨hw, hj, hst, hfin⟩
  · dsimp only
    rw [hcall, hruns, hwork, hjob, hw, hj]
    rfl

/-- `is_busy = FALSE`. -/
theorem Inv.release (h : Inv s) (hrun : HasRun s n k) (hpc : (s.thread n).pc.serves = some k)
    (howner : (s.slot k).owner = some (.work n)) :
    Others (s.release k) (some (.work n)) ∧
      ((s.release k).slot k).owner = some (.work n) := by
  obtain ⟨c, hfor, hruns⟩ := hrun
  unfold State.release
  rw [hfor.holder]
  refine ⟨?_, (congrArg Slot.owner (State.setSlot_self ..)).trans howner⟩
  have hfinished := h.setCall hfor (f := fun x => { x with finished := true }) rfl rfl rfl
    fun _ => ⟨hruns, hpc⟩
  have hph := hfor.2.1
  refine hfinished.setSlot
    { hfinished.same k with
      owner := fun _ q hq hx => absurd (howner.symm.trans hx) hq
      claimed := fun _ _ hx => absurd (hph.symm.trans hx) nofun
      unclaimed := fun _ _ => nofun
      running := fun d m hm hx => absurd (by rw [h.eq_of_running hfor (m := m)
        (by rw [← (Phase.running.inj (hph.symm.trans hx)).1] at hx; exact hx)]) hm
      busy := fun hne => absurd rfl hne
      idle := fun _ _ _ => rfl
      above := fun _ => .inl rfl
      holder := fun _ hx => nomatch hx
      stored := fun d hd => .inl ?_
      closing := fun _ _ _ => rfl }
  rcases hfinished.stored d k hd with hfin | hx
  · exact hfin
  · obtain rfl : c = d := Option.some.inj (hfor.holder.symm.trans hx)
    rw [State.setCall_self]

/-- A step of `tp_work_thread`. -/
theorem Inv.workStep (h : Inv s) (hC : ShrinksApart s (.work n))
    (hs : workStep s n = some s') : Inv s' := by
  have hok := h.work n
  have ho := h.others (some (.work n))
  have hlive : (s.thread n).pc ≠ .unborn ∧ (s.thread n).pc ≠ .killed := by
    constructor <;> intro hpc <;> rw [ThreadPool.workStep, hpc] at hs <;> cases hs
  cases workStep_rule hs with
  | find i hpc hlt =>
    exact ho.workTo (.inl hlt) hlive (fun _ hk => by rw [hpc] at hk; cases hk)
      fun _ hi => by cases hi
  | missing i hpc =>
    exact ho.workTo trivial hlive (fun _ hk => by rw [hpc] at hk; cases hk)
      fun _ hi => by cases hi
  | found i hpc hid =>
    rw [hpc] at hok
    -- a slot past the last has no live worker of its own
    have hlt : i < s.curThNum := by
      by_contra hge
      have hown := hC (.inl (hok.resolve_left hge)) i hpc hid
      exact hlive.2 (h.dead i (not_lt.1 hge) n hown)
    refine ho.workTo hlt hlive (fun _ hk => by rw [hpc] at hk; cases hk) fun hm hi => ?_
    obtain rfl : i = s.curThNum - 1 := Option.some.inj hi
    exact hC (.inr hm) _ hpc hid
  | other i hpc =>
    exact ho.workTo trivial hlive (fun _ hk => by rw [hpc] at hk; cases hk)
      fun _ hi => by cases hi
  | lockWait k _ hpc ht =>
    rw [hpc] at hok
    obtain ⟨rfl, ht, howner⟩ := ho.lockSlot ht
    exact ht.workOn ⟨hok, howner⟩ hlive (congrArg WorkPc.serves hpc :)
  | wait k hpc | unlockDone k hpc =>
    rw [hpc] at hok
    exact (ho.unlockSlot hok.2).workOn hok.1 hlive (congrArg WorkPc.serves hpc :)
  | relock k _ hpc ht | lockDone k _ hpc ht =>
    rw [hpc] at hok
    obtain ⟨rfl, ht, howner⟩ := ho.lockSlot ht
    exact ht.workOn ⟨hok.setOwner k _, howner⟩ hlive (congrArg WorkPc.serves hpc :)
  | unlock k hpc =>
    rw [hpc] at hok
    exact (ho.unlockSlot hok.2).workOn (hok.1.setOwner k none) hlive (congrArg WorkPc.serves hpc :)
  | readWork k hpc =>
    rw [hpc] at hok
    exact ho.workOn ⟨hok, rfl⟩ hlive (congrArg WorkPc.serves hpc :)
  | readJob k work hpc =>
    rw [hpc] at hok
    exact ho.workOn ⟨hok.1, hok.2, rfl⟩ hlive (congrArg WorkPc.serves hpc :)
  | process k work job hpc =>
    rw [hpc] at hok
    obtain ⟨hrec, hrun⟩ := h.record hok.1 hok.2.1 hok.2.2
    have hthread : (s.record n k work job).thread = s.thread := by
      unfold State.record
      split <;> rfl
    exact hrec.workOn hrun (by rwa [hthread]) (by rw [hthread, hpc]; rfl)
  | setIdle k hpc =>
    rw [hpc] at hok
    obtain ⟨hrel, howner⟩ := h.release hok.1 (by rw [hpc]; rfl) hok.2
    have hk : k < s.curThNum := by
      obtain ⟨_, hfor, _⟩ := hok.1
      exact hfor.1
    have hsame : (s.release k).thread = s.thread ∧ (s.release k).curThNum = s.curThNum := by
      unfold State.release
      dsimp only
      split <;> exact ⟨rfl, rfl⟩
    exact hrel.workOn ⟨by rwa [hsame.2], howner⟩ (by rwa [hsame.1])
      (by rw [hsame.1, hpc]; rfl)

end

end LinuxTraining.ThreadPool
