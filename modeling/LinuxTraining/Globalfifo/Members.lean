import LinuxTraining.Globalfifo.Wakeup

/-!
# The entries of the wait queues

A call enters its wait queue with `add_wait_queue` and leaves it at `out2`, the one way out of a
read or a write. `globalfifo_write` adds its entry to `w_wait` and takes it from `w_wait`;
`globalfifo_read` adds it to `r_wait` and takes it from `w_wait`, so an entry of a read stays.
`queuesKept_iff`: the wait queues hold who they are to hold exactly in the runs in which no read
gets to its `remove_wait_queue`.
-/

namespace LinuxTraining.Globalfifo

open Lib

/-- The process is between `add_wait_queue` and `remove_wait_queue` of a call that waits on the
queue. -/
def Proc.OnQueue (x : Proc) (q : WaitQueue) : Prop := x.call.WaitsOn q ∧ x.pc.Entered

/-- The entries of each wait queue are those of the processes that are on it, one for each. -/
structure Members (s : State) : Prop where
  one : ∀ q p, (s.proc p).OnQueue q → (s.dev.waiters q).count p = 1
  none : ∀ q p, ¬ (s.proc p).OnQueue q → p ∉ s.dev.waiters q

/-- The condition on a step: it is not the `remove_wait_queue` of a read. -/
def NoReadLeaves (s : State) : Act → Prop
  | .run p _ => (s.proc p).pc = .out2 → ¬ (s.proc p).call.WaitsOn .r
  | _ => True

instance (s : State) (a : Act) : Decidable (NoReadLeaves s a) :=
  match a with
  | .run p _ => inferInstanceAs (Decidable ((s.proc p).pc = .out2 → ¬ (s.proc p).call.WaitsOn .r))
  | .call _ _ _ | .wakeup _ | .signal _ => .isTrue trivial

/-- Along a run the wait queues hold the entries of the processes on them, and each process that
leaves takes its entry from its own queue. -/
structure QueuesKept (W : LongWidth) (cp : Copier Byte) (async : Bool) (as : List Act) : Prop where
  members : ∀ bs cs s, as = bs ++ cs →
    (machine W cp async).Run Machine.anyStep .init bs s → Members s
  removes : ∀ bs p limit cs s s' q, as = bs ++ .run p limit :: cs →
    (machine W cp async).Run Machine.anyStep .init bs s →
    step W cp async s (.run p limit) = some s' → (s.proc p).pc = .out2 →
    (s.proc p).call.WaitsOn q → s'.dev = s.dev.removeWaitQueue q p

/-! ## One step -/

section
variable {W : LongWidth} {cp : Copier Byte} {async : Bool} {c : RwCode} {d : Dev} {p : Nat}
  {x : Proc} {task : TaskState} {sig : Bool} {limit : Option Fault} {e : Effect}

/-- What the step of process `p` at `x` does to the wait queues. -/
inductive EntryStep (d : Dev) (p : Nat) (x : Proc) (e : Effect) : Prop
  | stay : (∀ q, e.dev.waiters q = d.waiters q) → (∀ q, e.proc.OnQueue q ↔ x.OnQueue q) →
      EntryStep d p x e
  | enter (q : WaitQueue) : x.pc = .addWait → (∀ q', x.call.WaitsOn q' ↔ q' = q) →
      e.dev = d.addWaitQueue q p → e.proc = x.goto .test → EntryStep d p x e
  | leave (q : WaitQueue) : x.pc = .out2 → (∀ q', x.call.WaitsOn q' ↔ q' = q) →
      e.dev = d.removeWaitQueue .w p → e.proc = x.goto .setRunning → EntryStep d p x e

/-- A step that leaves the wait queues, and does not pass `add_wait_queue` or
`remove_wait_queue`. -/
theorem EntryStep.within (hw : ∀ q, e.dev.waiters q = d.waiters q)
    (hcall : e.proc.call = x.call) (hpc : e.proc.pc.Entered ↔ x.pc.Entered) :
    EntryStep d p x e := by
  refine .stay hw ?_
  intro q
  rw [Proc.OnQueue, Proc.OnQueue, hcall, hpc]

/-- A step of a call that waits on no queue. -/
theorem EntryStep.of_not_waits (hw : ∀ q, e.dev.waiters q = d.waiters q)
    (hcall : e.proc.call = x.call) (hno : ∀ q, ¬ x.call.WaitsOn q) : EntryStep d p x e := by
  refine .stay hw ?_
  intro q
  simp only [Proc.OnQueue, hcall, hno q, false_and]

theorem waiters_mutex (d : Dev) (m : Option Nat) (q : WaitQueue) :
    { d with mutex := m }.waiters q = d.waiters q := by cases q <;> rfl

theorem mutexLock_waiters {next : Pc} (h : mutexLock d p x next = some e) :
    (∀ q, e.dev.waiters q = d.waiters q) ∧ e.proc = x.goto next := by
  obtain ⟨-, rfl⟩ := mutexLock_eq_some h
  exact ⟨waiters_mutex d _, rfl⟩

/-- A step of a read or a write. -/
theorem rwStep_entry (hc : c.Fits x.call) (hremoves : c.removesFrom = .w)
    (h : rwStep c d p x task sig limit = some e) : EntryStep d p x e := by
  cases rwStep_rule h with
  | addWait => exact .enter c.addsTo rfl hc.waits rfl rfl
  | out2 => exact .leave c.addsTo rfl hc.waits (by rw [hremoves]) rfl
  | lock | relock | unlock1 | out => exact .within (waiters_mutex d _) rfl .rfl
  | copied | fault =>
    obtain ⟨n, m, he⟩ := hc.framed d limit
    refine .within (fun q => ?_) rfl .rfl
    rw [he]
    cases q <;> rfl
  | again | sleep | pass | setState | schedule | interrupted | retry | wake | wakeKill | killFasync
  | setRunning => exact .within (fun _ => rfl) rfl .rfl

/-- The wait queues at a step that leaves them. -/
theorem callStep_waiters (hno : ∀ q, ¬ x.call.WaitsOn q)
    (h : callStep W cp async d p x task sig limit = some e) (q : WaitQueue) :
    e.dev.waiters q = d.waiters q := by
  obtain ⟨call, file, pc, res⟩ := x
  cases call with
  | read => exact absurd rfl (hno .r)
  | write => exact absurd rfl (hno .w)
  | ioctl cmd =>
    cases pc with
    | switch =>
      simp only [callStep, globalfifoIoctl] at h
      split at h <;> cases h <;> rfl
    | lock => exact (mutexLock_waiters h).1 q
    | clear => cases h; cases q <;> rfl
    | out => cases h; exact waiters_mutex d _ q
    | _ => cases h
  | poll =>
    cases pc with
    | lock => exact (mutexLock_waiters h).1 q
    | pollWait => cases h; rfl
    | mask => cases h; rfl
    | out => cases h; exact waiters_mutex d _ q
    | _ => cases h
  | fasync mode =>
    cases pc with
    | fasync => cases h; cases q <;> rfl
    | _ => cases h
  | release =>
    cases pc with
    | fasync => cases h; cases q <;> rfl
    | _ => cases h

/-- **The wait queues at a step of a process.** -/
theorem procStep_entry (h : procStep W cp async d p x task sig limit = some e) :
    EntryStep d p x e := by
  have hcall := (procStep_call h).1
  unfold procStep at h
  split at h
  · cases h
  · next hpc =>
    cases h
    exact .within (fun _ => rfl) rfl (by rw [hpc]; exact .rfl)
  · obtain ⟨call, file, pc, res⟩ := x
    cases call with
    | read => exact rwStep_entry globalfifoRead_fits rfl h
    | write => exact rwStep_entry globalfifoWrite_fits rfl h
    | ioctl | poll | fasync | release =>
      have hno := callStep_waiters (fun q => id) h
      exact .of_not_waits hno hcall fun q => id

/-! ## Runs -/

variable {s s' : State} {a : Act}

theorem Members.init : Members .init where
  one q p h := absurd h.2 id
  none q p _ := by cases q <;> exact List.not_mem_nil

/-- The wait queues and the processes on them are as before. -/
theorem Members.of_same (h : Members s) (hw : ∀ q, s'.dev.waiters q = s.dev.waiters q)
    (hproc : ∀ p q, (s'.proc p).OnQueue q ↔ (s.proc p).OnQueue q) : Members s' := by
  refine ⟨?_, ?_⟩
  · intro q p hp
    rw [hw]
    exact h.one q p ((hproc p q).1 hp)
  · intro q p hp
    rw [hw]
    exact h.none q p fun hon => hp ((hproc p q).2 hon)

/-- A process enters its wait queue. -/
theorem Members.enter (h : Members s) {q : WaitQueue} (hpc : (s.proc p).pc = .addWait)
    (hq : ∀ q', (s.proc p).call.WaitsOn q' ↔ q' = q) (hdev : s'.dev = s.dev.addWaitQueue q p)
    (hproc : s'.proc = Function.update s.proc p ((s.proc p).goto .test)) : Members s' := by
  have hout : ∀ q', ¬ (s.proc p).OnQueue q' := by
    rintro q' ⟨-, hent⟩
    rw [hpc] at hent
    exact hent
  have hself : ∀ q', (s'.proc p).OnQueue q' ↔ q' = q := by
    intro q'
    rw [hproc, Function.update_self, Proc.OnQueue]
    exact (and_iff_left trivial).trans (hq q')
  have hother : ∀ r, r ≠ p → s'.proc r = s.proc r := by
    intro r hr
    rw [hproc, Function.update_of_ne hr]
  refine ⟨?_, ?_⟩
  · intro q' r hr
    rw [hdev, addWaitQueue_waiters]
    rcases eq_or_ne r p with rfl | hne
    · rw [if_pos ((hself q').1 hr), List.count_cons_self,
        List.count_eq_zero_of_not_mem (h.none q' r (hout q'))]
    · have hcount := h.one q' r (by rwa [← hother r hne])
      split
      · rwa [List.count_cons_of_ne hne.symm]
      · exact hcount
  · intro q' r hr
    rw [hdev, addWaitQueue_waiters]
    rcases eq_or_ne r p with rfl | hne
    · rw [if_neg fun he => hr ((hself q').2 he)]
      exact h.none q' r (hout q')
    · have hnot := h.none q' r (by rwa [← hother r hne])
      split
      · rw [List.mem_cons, not_or]
        exact ⟨hne, hnot⟩
      · exact hnot

theorem removeWaitQueue_waiters (d : Dev) (q q' : WaitQueue) (p : Nat) :
    (d.removeWaitQueue q p).waiters q' =
      if q' = q then (d.waiters q').erase p else d.waiters q' := by
  cases q <;> cases q' <;> rfl

/-- A process leaves its wait queue. -/
theorem Members.leave (h : Members s) {q : WaitQueue} (hpc : (s.proc p).pc = .out2)
    (hq : ∀ q', (s.proc p).call.WaitsOn q' ↔ q' = q) (hdev : s'.dev = s.dev.removeWaitQueue q p)
    (hproc : s'.proc = Function.update s.proc p ((s.proc p).goto .setRunning)) : Members s' := by
  have hon : ∀ q', (s.proc p).OnQueue q' ↔ q' = q := by
    intro q'
    rw [Proc.OnQueue, hpc]
    exact (and_iff_left trivial).trans (hq q')
  have hself : ∀ q', ¬ (s'.proc p).OnQueue q' := by
    rintro q' ⟨-, hent⟩
    rw [hproc, Function.update_self] at hent
    exact hent
  have hother : ∀ r, r ≠ p → s'.proc r = s.proc r := by
    intro r hr
    rw [hproc, Function.update_of_ne hr]
  refine ⟨?_, ?_⟩
  · intro q' r hr
    have hne : r ≠ p := by
      rintro rfl
      exact hself q' hr
    have hcount := h.one q' r (by rwa [← hother r hne])
    rw [hdev, removeWaitQueue_waiters]
    split
    · rwa [List.count_erase_of_ne hne]
    · exact hcount
  · intro q' r hr
    rw [hdev, removeWaitQueue_waiters]
    rcases eq_or_ne r p with rfl | hne
    · split
      · next he =>
        rw [← List.count_eq_zero, List.count_erase_self, h.one q' r ((hon q').2 he)]
      · next he => exact h.none q' r fun ho => he ((hon q').1 ho)
    · have hnot := h.none q' r (by rwa [← hother r hne])
      split
      · exact fun hmem => hnot (List.mem_of_mem_erase hmem)
      · exact hnot

theorem Call.entry_not_entered (c : Call) : ¬ c.entry.Entered := by
  cases c <;> exact id

/-- A process whose call has ended begins another. -/
theorem Members.call (h : Members s) {file : Nat} {call : Call} (hidle : (s.proc p).pc = .idle)
    (hdev : s'.dev = s.dev)
    (hproc : s'.proc = Function.update s.proc p ⟨call, file, call.entry, ⟨0, []⟩⟩) :
    Members s' := by
  refine h.of_same (fun _ => by rw [hdev]) ?_
  intro r q
  rw [hproc]
  rcases eq_or_ne r p with rfl | hne
  · rw [Function.update_self]
    refine iff_of_false (fun ho => call.entry_not_entered ho.2) ?_
    rintro ⟨-, hent⟩
    rw [hidle] at hent
    exact hent
  · rw [Function.update_of_ne hne]

/-- **One step** that is not the `remove_wait_queue` of a read. -/
theorem Members.step (h : Members s) (ha : NoReadLeaves s a)
    (hs : step W cp async s a = some s') : Members s' := by
  cases a with
  | call p file call =>
    simp only [Globalfifo.step] at hs
    split at hs
    · next hidle =>
      cases hs
      exact h.call hidle rfl rfl
    · cases hs
  | run p limit =>
    obtain ⟨e, he, rfl⟩ := Option.map_eq_some_iff.1 hs
    have hproc := State.put_proc s p e
    cases procStep_entry he with
    | stay hw hon =>
      refine h.of_same (fun q => by rw [State.put_dev, hw]) ?_
      intro r q
      rw [hproc]
      rcases eq_or_ne r p with rfl | hne
      · rw [Function.update_self, hon]
      · rw [Function.update_of_ne hne]
    | enter q hpc hq hdev hx =>
      rw [hx] at hproc
      exact h.enter hpc hq (by rw [State.put_dev, hdev]) hproc
    | leave q hpc hq hdev hx =>
      have hqw : q = .w := by
        cases q with
        | r => exact absurd ((hq .r).2 rfl) (ha hpc)
        | w => rfl
      rw [hx] at hproc
      exact h.leave hpc hq (by rw [State.put_dev, hdev, hqw]) hproc
  | wakeup p => cases hs; exact h.of_same (fun _ => rfl) fun _ _ => .rfl
  | signal p => cases hs; exact h.of_same (fun _ => rfl) fun _ _ => .rfl

/-- A process at `out2` acts on `w_wait`. -/
theorem step_out2 {q : WaitQueue} (hs : step W cp async s (.run p limit) = some s')
    (hpc : (s.proc p).pc = .out2) (hq : (s.proc p).call.WaitsOn q) :
    s'.dev = s.dev.removeWaitQueue .w p ∧
      s'.proc = Function.update s.proc p ((s.proc p).goto .setRunning) := by
  obtain ⟨e, he, rfl⟩ := Option.map_eq_some_iff.1 hs
  rw [State.put_dev, State.put_proc]
  generalize s.proc p = x at he hpc hq ⊢
  obtain ⟨call, file, pc, res⟩ := x
  change pc = .out2 at hpc
  subst hpc
  cases call with
  | read => cases he; exact ⟨rfl, rfl⟩
  | write => cases he; exact ⟨rfl, rfl⟩
  | ioctl | poll | fasync | release => exact absurd hq id

/-- The state that a read leaves behind at its `remove_wait_queue`. -/
theorem not_members_of_read (h : Members s) (hs : step W cp async s (.run p limit) = some s')
    (hpc : (s.proc p).pc = .out2) (hq : (s.proc p).call.WaitsOn .r) : ¬ Members s' := by
  obtain ⟨hdev, hproc⟩ := step_out2 hs hpc hq
  intro h'
  have hone : (s.dev.waiters .r).count p = 1 := h.one .r p ⟨hq, by rw [hpc]; trivial⟩
  have hnot : ¬ (s'.proc p).OnQueue .r := by
    rintro ⟨-, hent⟩
    rw [hproc, Function.update_self] at hent
    exact hent
  have hmem := h'.none .r p hnot
  rw [hdev, removeWaitQueue_waiters, if_neg (by simp), ← List.count_eq_zero, hone] at hmem
  cases hmem

/-- **Exactly the reads' `remove_wait_queue` spoils the wait queues.** Along a run from the start
the wait queues hold one entry for each process between its `add_wait_queue` and its
`remove_wait_queue` and nothing else, and every process takes its entry from the queue that it was
added to, if and only if no read gets to its `remove_wait_queue`. -/
theorem queuesKept_iff {as : List Act}
    (h : (machine W cp async).Run Machine.anyStep .init as s) :
    QueuesKept W cp async as ↔ (machine W cp async).Run NoReadLeaves .init as s := by
  constructor
  · intro hkept
    induction h with
    | nil => exact .nil
    | @snoc as t u a ht _ hu ih =>
      have hpre : QueuesKept W cp async as := by
        refine ⟨?_, ?_⟩
        · intro bs cs r hbs hr
          exact hkept.members bs (cs ++ [a]) r (by rw [hbs, List.append_assoc]) hr
        · intro bs q limit cs r r' q' hbs hr
          exact hkept.removes bs q limit (cs ++ [a]) r r' q' (by simp [hbs]) hr
      refine .snoc a (ih hpre) ?_ hu
      cases a with
      | run q limit =>
        intro hpc hq
        exact not_members_of_read (hkept.members as [.run q limit] t rfl ht) hu hpc hq
          (hkept.members _ [] u (List.append_nil _).symm (.snoc _ ht trivial hu))
      | call | wakeup | signal => trivial
  · intro hrun
    refine ⟨?_, ?_⟩
    · rintro bs cs t rfl ht
      obtain ⟨t', hrun', -⟩ := hrun.of_append
      obtain rfl := ht.unique hrun'
      exact hrun'.invariant Members.init fun _ _ _ hr ha hs => hr.step ha hs
    · rintro bs q limit cs t t' q' rfl ht hs hpc hq
      rw [(step_out2 hs hpc hq).1]
      cases q' with
      | w => rfl
      | r => exact absurd hq (hrun.guard ht hpc)

end

/-- One byte is written. -/
def oneWrite : List Act :=
  .call 0 0 (.write (fun _ => 7) 1 false) :: List.replicate 9 (.run 0 none)

/-- A write removes its own entry. -/
theorem oneWrite_queuesKept :
    (∃ s, (machine .w64 Copier.ascending true).Run Machine.anyStep .init oneWrite s) ∧
      QueuesKept .w64 Copier.ascending true oneWrite := by
  have hend : ((machine .w64 Copier.ascending true).runChecked
      (fun s a => decide (NoReadLeaves s a)) .init oneWrite).isSome := by decide +kernel
  obtain ⟨s, hs⟩ := Option.isSome_iff_exists.1 hend
  have hrun : (machine .w64 Copier.ascending true).Run NoReadLeaves .init oneWrite s :=
    .of_decided hs
  have hany := hrun.imp fun _ _ _ => trivial
  exact ⟨⟨s, hany⟩, (queuesKept_iff hany).2 hrun⟩

/-- A read of an empty device that does not block. -/
def refusedRead : List Act := .call 0 0 (.read 1 true) :: List.replicate 5 (.run 0 none)

/-- **A read leaves its entry in `r_wait`.** -/
theorem refusedRead_not_queuesKept :
    ¬ ∀ (W : LongWidth) (cp : Copier Byte) (async : Bool) (as : List Act) (s : State),
      (machine W cp async).Run Machine.anyStep .init as s → QueuesKept W cp async as := by
  intro hall
  have hend : ((machine .w64 Copier.ascending true).runFrom .init refusedRead).map
      (fun s => (s.dev.rWait, (s.proc 0).pc)) = some ([0], .setRunning) := by decide +kernel
  obtain ⟨s, hs, hend⟩ := Option.map_eq_some_iff.1 hend
  obtain ⟨hqueue, hpc⟩ := Prod.mk.inj hend
  have hrun : (machine .w64 Copier.ascending true).Run Machine.anyStep .init refusedRead s :=
    .of_runFrom (fun _ _ _ => trivial) hs
  have hmembers := (hall _ _ _ _ _ hrun).members _ [] s (List.append_nil _).symm hrun
  refine hmembers.none .r 0 ?_ ?_
  · rintro ⟨-, hent⟩
    rw [hpc] at hent
    exact hent
  · show 0 ∈ s.dev.rWait
    rw [hqueue]
    exact List.mem_singleton_self 0

end LinuxTraining.Globalfifo
