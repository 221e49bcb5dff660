import LinuxTraining.Globalfifo.Discipline

/-!
# The version with `async_queue` and the version without

`ch9/globalfifo.c` and `ch12/globalfifo.c` are `ch8/globalfifo.c` with notification added: the file
operation `globalfifo_fasync`, its call in `globalfifo_release`, and the test of `async_queue` with
`kill_fasync` in `globalfifo_write`. `onlySignals` says that nothing else has changed.

A process that is with the user or in `globalfifo_fasync` is with the user in `ch8`. A signal that
arrives for it there is put off until it starts its next call (`Matches.deliver`): its return from
`globalfifo_fasync` may have taken the signal away. The step of `kill_fasync` has no counterpart
(`Matches.put_killFasync`), and every other step is taken in both (`Matches.put`).
-/

namespace LinuxTraining.Globalfifo

open Lib

/-! ## What a version without notification has -/

/-- The call is one of `globalfifo_fasync`, which `ch8` has not. -/
def Call.isFasync : Call → Bool
  | .fasync _ => true
  | _ => false

/-- The label is one of a version without `globalfifo_fasync`. -/
def Act.Plain : Act → Prop
  | .call _ _ c => c.isFasync = false
  | .run _ _ | .wakeup _ | .signal _ => True

/-- What the callers see of a step, but for the calls of `globalfifo_fasync`. -/
def observePlain (s : State) : Act → Option (CallEvent Nat Call Result)
  | .call p file c => if c.isFasync then none else observe s (.call p file c)
  | .run p limit => if (s.proc p).call.isFasync then none else observe s (.run p limit)
  | .wakeup _ | .signal _ => none

/-- The device without its `async_queue`. -/
def Dev.plain (d : Dev) : Dev := { d with asyncQueue := [] }

/-- `kill_fasync` stands right before the label `out`. -/
def Pc.plain : Pc → Pc
  | .killFasync => .out
  | pc => pc

/-- The process where a version without `kill_fasync` has it. -/
def Proc.plain (x : Proc) : Proc := { x with pc := x.pc.plain }

/-- The effect in a version without notification. -/
def Effect.plain (e : Effect) : Effect :=
  { dev := e.dev.plain, proc := e.proc.plain, also := e.also }

/-- The process is with the user, or in a call that a version without notification has not. -/
def Proc.Away (x : Proc) : Prop := x.pc = .idle ∨ x.call.isFasync = true

/-- A state of a version with notification beside a state of the version without. -/
structure Matches (s t : State) : Prop where
  dev : t.dev = s.dev.plain
  task : t.task = s.task
  polls : t.polls = s.polls
  inside : ∀ p, ¬ (s.proc p).Away → t.proc p = (s.proc p).plain ∧ t.sigPending p = s.sigPending p
  away : ∀ p, (s.proc p).Away → (t.proc p).pc = .idle ∧ t.sigPending p = false

section
variable {W : LongWidth} {cp : Copier Byte} {c : RwCode} {d : Dev} {p : Nat} {x : Proc}
  {task : TaskState} {sig : Bool} {limit : Option Fault} {e : Effect} {async : Bool}

/-! ## A step of a process -/

theorem mutexLock_plain (next : Pc) (hnext : next.plain = next) :
    mutexLock d.plain p x next = (mutexLock d p x next).map Effect.plain := by
  obtain ⟨len, mem, mutex, r, w, queue⟩ := d
  cases mutex with
  | none => simp [mutexLock, Dev.plain, Effect.plain, Proc.plain, Proc.goto, hnext]
  | some q => rfl

theorem Proc.plain_eq (hx : x.pc ≠ .killFasync) : x.plain = x := by
  obtain ⟨call, file, pc, res⟩ := x
  cases pc with
  | killFasync => exact absurd rfl hx
  | _ => rfl

/-- Code that does not look at the `async_queue`. -/
structure RwCode.Plain (c : RwCode) : Prop where
  blocked : ∀ d : Dev, c.blocked d.plain = c.blocked d
  copy : ∀ (d : Dev) limit, c.copy d.plain limit =
    ⟨(c.copy d limit).dev.plain, (c.copy d limit).res, (c.copy d limit).ok⟩

theorem globalfifoRead_plain {count : Nat} {nonblock : Bool} :
    (globalfifoRead W cp count nonblock).Plain where
  blocked _ := rfl
  copy d limit := by
    obtain ⟨len, mem, mutex, r, w, queue⟩ := d
    simp only [globalfifoRead, readCopy, readCount, Dev.plain]
    generalize (if len < count then len else count) = n
    split <;> rfl

theorem globalfifoWrite_plain {buf : Mem Byte} {count : Nat} {nonblock : Bool} :
    (globalfifoWrite W async buf count nonblock).Plain where
  blocked _ := rfl
  copy d limit := by
    obtain ⟨len, mem, mutex, r, w, queue⟩ := d
    simp only [globalfifoWrite, writeCopy, writeCount, Dev.plain]
    generalize (if usub 32 GLOBALFIFO_SIZE len < count then usub 32 GLOBALFIFO_SIZE len
      else count) = n
    split <;> rfl

/-- A step of a read or a write, where it does not send the signal. -/
theorem rwStep_plain (hc : c.Plain) (hx : x.pc ≠ .killFasync) :
    rwStep { c with kills := false } d.plain p x task sig limit =
      (rwStep c d p x task sig limit).map Effect.plain := by
  obtain ⟨call, file, pc, res⟩ := x
  cases pc with
  | lock => exact mutexLock_plain .addWait rfl
  | relock => exact mutexLock_plain .test rfl
  | addWait | out2 =>
    show some _ = some _
    first | cases c.addsTo <;> rfl | cases c.removesFrom <;> rfl
  | test =>
    simp only [rwStep, hc.blocked]
    split
    · split <;> rfl
    · rfl
  | schedule =>
    simp only [rwStep]
    split <;> rfl
  | sigTest =>
    simp only [rwStep]
    split <;> rfl
  | copy =>
    simp only [rwStep, hc.copy]
    cases (c.copy d limit).ok <;> rfl
  | wake =>
    simp only [rwStep, Bool.false_and]
    cases c.kills && !d.asyncQueue.isEmpty <;> rfl
  | killFasync => exact absurd rfl hx
  | setState | unlock1 | out | setRunning => rfl
  | idle | ret | switch | clear | pollWait | mask | fasync => rfl

/-- A step of a process in a call that both versions have. -/
theorem procStep_plain (hx : x.pc ≠ .killFasync) (hcall : x.call.isFasync = false) :
    procStep W cp false d.plain p x task sig limit =
      (procStep W cp true d p x task sig limit).map Effect.plain := by
  unfold procStep
  split
  · rfl
  · rfl
  · unfold callStep
    split
    · exact rwStep_plain globalfifoRead_plain hx
    · exact rwStep_plain (c := globalfifoWrite W true _ _ _) globalfifoWrite_plain hx
    · obtain ⟨call, file, pc, res⟩ := x
      cases pc with
      | switch =>
        simp only [globalfifoIoctl]
        split <;> rfl
      | lock => exact mutexLock_plain .clear rfl
      | _ => rfl
    · obtain ⟨call, file, pc, res⟩ := x
      cases pc with
      | lock => exact mutexLock_plain .pollWait rfl
      | _ => rfl
    · next hfasync => rw [hfasync] at hcall; cases hcall
    · obtain ⟨call, file, pc, res⟩ := x
      cases pc <;> rfl

/-- The signal is sent on the way to the label `out`, which is all that is left of it. -/
theorem procStep_killFasync (hx : x.pc = .killFasync)
    (h : procStep W cp async d p x task sig limit = some e) :
    e = { dev := d, proc := x.goto .out, also := .killFasync } := by
  obtain ⟨call, file, pc, res⟩ := x
  subst hx
  cases call with
  | read | write => cases h; rfl
  | ioctl | poll | fasync | release => cases h

/-- A step of `globalfifo_fasync` changes the `async_queue` and nothing else of the device. -/
theorem procStep_fasync (hx : x.call.isFasync = true)
    (h : procStep W cp async d p x task sig limit = some e) :
    e.dev.plain = d.plain ∧ (e.also = .nothing ∨ e.also = .returned) := by
  obtain ⟨call, file, pc, res⟩ := x
  cases call with
  | fasync mode =>
    cases pc with
    | ret => cases h; exact ⟨rfl, .inr rfl⟩
    | fasync => cases h; exact ⟨rfl, .inl rfl⟩
    | _ => cases h
  | _ => cases hx

/-- A process is with the user again when its call returns. -/
theorem rwStep_inside (h : rwStep c d p x task sig limit = some e) :
    e.proc.pc ≠ .idle ∧ e.also ≠ .returned := by
  cases rwStep_rule h <;> exact ⟨Pc.noConfusion, Also.noConfusion⟩

theorem procStep_returned (h : procStep W cp async d p x task sig limit = some e) :
    e.proc.pc = .idle ↔ e.also = .returned := by
  have hlock : ∀ {next : Pc}, next ≠ .idle → mutexLock d p x next = some e →
      e.proc.pc ≠ .idle ∧ e.also ≠ .returned := by
    intro next hnext hl
    obtain ⟨-, rfl⟩ := mutexLock_eq_some hl
    exact ⟨hnext, Also.noConfusion⟩
  suffices hin : x.pc = .ret ∨ (e.proc.pc ≠ .idle ∧ e.also ≠ .returned) by
    rcases hin with hret | ⟨hpc, halso⟩
    · unfold procStep at h
      rw [hret] at h
      cases h
      exact iff_of_true rfl rfl
    · exact iff_of_false hpc halso
  unfold procStep at h
  split at h
  · cases h
  · next hret => exact .inl hret
  · right
    unfold callStep at h
    split at h
    · exact rwStep_inside h
    · exact rwStep_inside h
    · unfold globalfifoIoctl at h
      split at h
      · split at h <;> cases h <;> exact ⟨Pc.noConfusion, Also.noConfusion⟩
      · exact hlock (by decide : Pc.clear ≠ .idle) h
      · cases h; exact ⟨Pc.noConfusion, Also.noConfusion⟩
      · cases h; exact ⟨Pc.noConfusion, Also.noConfusion⟩
      · cases h
    · unfold globalfifoPoll at h
      split at h
      · exact hlock (by decide : Pc.pollWait ≠ .idle) h
      · cases h; exact ⟨Pc.noConfusion, Also.noConfusion⟩
      · cases h; exact ⟨Pc.noConfusion, Also.noConfusion⟩
      · cases h; exact ⟨Pc.noConfusion, Also.noConfusion⟩
      · cases h
    · unfold globalfifoFasync at h
      split at h <;> cases h
      exact ⟨Pc.noConfusion, Also.noConfusion⟩
    · unfold globalfifoRelease at h
      split at h <;> cases h
      exact ⟨Pc.noConfusion, Also.noConfusion⟩

/-! ## A step of the schedule -/

variable {s s' t t' : State} {a : Act}

/-- Within a call the pending signals stay. -/
theorem State.put_sigPending (s : State) (he : e.also ≠ .returned) :
    (s.put p e).sigPending = s.sigPending := by
  unfold State.put
  cases hr : e.also with
  | returned => exact absurd hr he
  | _ => rfl

/-- A return delivers the signal that is pending for its process. -/
theorem State.put_sigPending_of_returned (s : State) (he : e.also = .returned) :
    (s.put p e).sigPending = Function.update s.sigPending p false := by
  unfold State.put
  rw [he]

/-- The other processes keep their pending signals. -/
theorem State.put_sigPending_of_ne (s : State) (e : Effect) {q : Nat} (hq : q ≠ p) :
    (s.put p e).sigPending q = s.sigPending q := by
  unfold State.put
  cases e.also with
  | returned => exact Function.update_of_ne hq ..
  | _ => rfl

/-- The task states and the polls do not depend on the `async_queue`. -/
theorem Matches.put_rest (h : Matches s t) (p : Nat) (e : Effect) :
    (t.put p e.plain).task = (s.put p e).task ∧ (t.put p e.plain).polls = (s.put p e).polls := by
  obtain ⟨dev, proc, also⟩ := e
  have hwaiters : ∀ q, dev.plain.waiters q = dev.waiters q := fun q => by cases q <;> rfl
  unfold State.put Effect.plain
  cases also <;> simp [h.task, h.polls, hwaiters]

/-- States stay matched when one process is moved and stays matched. -/
theorem Matches.update (h : Matches s t) (hdev : t'.dev = s'.dev.plain) (htask : t'.task = s'.task)
    (hpolls : t'.polls = s'.polls)
    (hs : ∀ q, q ≠ p → s'.proc q = s.proc q ∧ s'.sigPending q = s.sigPending q)
    (ht : ∀ q, q ≠ p → t'.proc q = t.proc q ∧ t'.sigPending q = t.sigPending q)
    (hinside : ¬ (s'.proc p).Away →
      t'.proc p = (s'.proc p).plain ∧ t'.sigPending p = s'.sigPending p)
    (haway : (s'.proc p).Away → (t'.proc p).pc = .idle ∧ t'.sigPending p = false) :
    Matches s' t' := by
  refine ⟨hdev, htask, hpolls, fun q hq => ?_, fun q hq => ?_⟩
  · rcases eq_or_ne q p with rfl | hne
    · exact hinside hq
    · rw [(hs q hne).1] at hq
      rw [(hs q hne).1, (hs q hne).2, (ht q hne).1, (ht q hne).2]
      exact h.inside q hq
  · rcases eq_or_ne q p with rfl | hne
    · exact haway hq
    · rw [(hs q hne).1] at hq
      rw [(ht q hne).1, (ht q hne).2]
      exact h.away q hq

/-- The other processes at a step. -/
theorem State.put_of_ne (s : State) (e : Effect) {q : Nat} (hq : q ≠ p) :
    (s.put p e).proc q = s.proc q ∧ (s.put p e).sigPending q = s.sigPending q := by
  refine ⟨?_, s.put_sigPending_of_ne e hq⟩
  rw [State.put_proc]
  exact Function.update_of_ne hq ..

/-- A step of a process inside a call of both versions, taken in both. -/
theorem Matches.put (h : Matches s t) (hx : ¬ (s.proc p).Away)
    (hcall : e.proc.call = (s.proc p).call) (hret : e.proc.pc = .idle ↔ e.also = .returned) :
    Matches (s.put p e) (t.put p e.plain) := by
  refine h.update ?_ (h.put_rest p e).1 (h.put_rest p e).2 (fun q hq => s.put_of_ne e hq)
    (fun q hq => t.put_of_ne e.plain hq) (fun hin => ?_) fun haway => ?_
  · rw [State.put_dev, State.put_dev]
    rfl
  · rw [State.put_proc, Function.update_self] at hin
    have halso : e.also ≠ .returned := fun hr => hin (.inl (hret.2 hr))
    rw [State.put_proc, State.put_proc, Function.update_self, Function.update_self,
      t.put_sigPending (e := e.plain) halso, s.put_sigPending halso]
    exact ⟨rfl, (h.inside p hx).2⟩
  · rw [State.put_proc, Function.update_self] at haway
    have hidle : e.proc.pc = .idle := by
      refine haway.resolve_right fun hf => hx (.inr ?_)
      rwa [hcall] at hf
    rw [State.put_proc, Function.update_self,
      t.put_sigPending_of_returned (e := e.plain) (hret.1 hidle)]
    refine ⟨?_, Function.update_self ..⟩
    show e.proc.pc.plain = .idle
    rw [hidle]
    rfl

/-- A step of `globalfifo_fasync`, which the version without notification does not see. -/
theorem Matches.put_fasync (h : Matches s t) (hx : (s.proc p).call.isFasync = true)
    (he : procStep W cp true s.dev p (s.proc p) (s.task p) (s.sigPending p) limit = some e) :
    Matches (s.put p e) t := by
  obtain ⟨hdev, halso⟩ := procStep_fasync hx he
  have hfasync : ((s.put p e).proc p).call.isFasync = true := by
    rw [State.put_proc, Function.update_self, (procStep_call he).1, hx]
  have hrest : (s.put p e).task = s.task ∧ (s.put p e).polls = s.polls := by
    unfold State.put
    rcases halso with halso | halso <;> rw [halso] <;> exact ⟨rfl, rfl⟩
  refine h.update ?_ (h.task.trans hrest.1.symm) (h.polls.trans hrest.2.symm)
    (fun q hq => s.put_of_ne e hq) (fun q _ => ⟨rfl, rfl⟩)
    (fun hin => absurd (.inr hfasync) hin) fun _ => h.away p (.inr hx)
  rw [State.put_dev, hdev]
  exact h.dev

/-- The step that sends the signal. -/
theorem Matches.put_killFasync (h : Matches s t) (hx : ¬ (s.proc p).Away)
    (hpc : (s.proc p).pc = .killFasync) :
    Matches (s.put p { dev := s.dev, proc := (s.proc p).goto .out, also := .killFasync }) t := by
  refine h.update ?_ h.task h.polls (fun q hq => s.put_of_ne _ hq) (fun q _ => ⟨rfl, rfl⟩)
    (fun _ => ?_) fun haway => ?_
  · exact h.dev
  · rw [State.put_proc, Function.update_self]
    obtain ⟨hproc, hsig⟩ := h.inside p hx
    refine ⟨hproc.trans ?_, hsig⟩
    unfold Proc.plain
    rw [hpc]
    rfl
  · rw [State.put_proc, Function.update_self] at haway
    exact absurd haway fun hout => hx (.inr (hout.resolve_left Pc.noConfusion))

/-- The version without notification gets from `t` to beside `u`, with the observation. -/
def Answers (W : LongWidth) (cp : Copier Byte) (t : State)
    (o : Option (CallEvent Nat Call Result)) (u : State) : Prop :=
  ∃ bs t', (machine W cp false).Run (fun _ b => b.Plain) t bs t' ∧
    (machine W cp false).events observe t bs = o.toList ∧ Matches u t'

theorem Answers.stay {u : State} (h : Matches u t) : Answers W cp t none u :=
  ⟨[], t, .nil, rfl, h⟩

theorem Answers.one {u v : State} {b : Act} (hb : b.Plain)
    (hv : Globalfifo.step W cp false t b = some v) (h : Matches u v) :
    Answers W cp t (observe t b) u := by
  refine ⟨[b], v, .cons b hb hv .nil, ?_, h⟩
  rw [Machine.events_cons observe (M := machine W cp false) hv]
  exact List.append_nil _

variable (W cp) in
/-- A signal that has arrived while its process was away arrives now. -/
theorem Matches.deliver (h : Matches s t) (hd : Drowsy s) (hidle : (s.proc p).pc = .idle) :
    ∃ bs, (machine W cp false).Run (fun _ b => b.Plain) t bs
        { t with sigPending := Function.update t.sigPending p (s.sigPending p) } ∧
      (machine W cp false).events observe t bs = [] := by
  have htask : t.task p = .running := by
    rw [h.task]
    cases ht : s.task p with
    | running => rfl
    | interruptible => rcases hd p ht with hpc | hpc <;> cases hidle.symm.trans hpc
  cases hsig : s.sigPending p with
  | false =>
    refine ⟨[], ?_, rfl⟩
    rw [← (h.away p (.inl hidle)).2, Function.update_eq_self]
    exact .nil
  | true =>
    refine ⟨[.signal p], .cons (Act.signal p) trivial ?_ .nil, rfl⟩
    show some _ = some _
    rw [← htask, Function.update_eq_self]

/-- A call of both versions starts. -/
theorem Matches.call (h : Matches s t) (hd : Drowsy s) (hidle : (s.proc p).pc = .idle)
    {file : Nat} {c : Call} (hc : c.isFasync = false) :
    Answers W cp t (some (.call p c))
      { s with proc := Function.update s.proc p ⟨c, file, c.entry, ⟨0, []⟩⟩ } := by
  obtain ⟨bs, hbs, hquiet⟩ := h.deliver W cp hd hidle
  have hentry : c.entry.plain = c.entry := by cases c <;> rfl
  have hstep : (machine W cp false).step
      { t with sigPending := Function.update t.sigPending p (s.sigPending p) } (.call p file c) =
      some { t with
        sigPending := Function.update t.sigPending p (s.sigPending p),
        proc := Function.update t.proc p ⟨c, file, c.entry, ⟨0, []⟩⟩ } := by
    simp only [machine, Globalfifo.step, (h.away p (.inl hidle)).1]
  refine ⟨bs ++ [.call p file c], _, .snoc (Act.call p file c) hbs hc hstep, ?_, ?_⟩
  · rw [Machine.events_append observe hbs.runFrom_eq, hquiet, Machine.events_cons observe hstep]
    rfl
  · refine h.update (p := p) h.dev h.task h.polls (fun q hq => ⟨Function.update_of_ne hq .., rfl⟩)
      (fun q hq => ⟨Function.update_of_ne hq .., Function.update_of_ne hq ..⟩) (fun _ => ?_)
      fun haway => ?_
    · dsimp only
      rw [Function.update_self, Function.update_self, Function.update_self]
      unfold Proc.plain
      rw [hentry]
      exact ⟨rfl, rfl⟩
    · dsimp only at haway
      rw [Function.update_self] at haway
      rcases haway with hpc | hf
      · cases c <;> cases hpc
      · cases hc.symm.trans hf

/-- **A step of a version with notification, answered by the version without.** -/
theorem Matches.step (h : Matches s t) (hd : Drowsy s)
    (hs : Globalfifo.step W cp true s a = some s') : Answers W cp t (observePlain s a) s' := by
  cases a with
  | call p file c =>
    simp only [Globalfifo.step] at hs
    split at hs
    · next hidle =>
      cases hs
      cases hc : c.isFasync with
      | true =>
        rw [observePlain, hc]
        refine .stay (h.update (p := p) h.dev h.task h.polls (fun q hq => ⟨?_, rfl⟩)
          (fun q _ => ⟨rfl, rfl⟩) (fun hin => absurd (.inr ?_) hin) fun _ => h.away p (.inl hidle))
        · exact Function.update_of_ne hq ..
        · dsimp only
          rw [Function.update_self]
          exact hc
      | false =>
        rw [observePlain, hc]
        exact h.call hd hidle hc
    · cases hs
  | run p limit =>
    obtain ⟨e, he, rfl⟩ := Option.map_eq_some_iff.1 hs
    by_cases hfasync : (s.proc p).call.isFasync = true
    -- In `globalfifo_fasync` the process of `ch8` is with the user, and stays there.
    · rw [observePlain, if_pos hfasync]
      exact .stay (h.put_fasync hfasync he)
    · have hin : ¬ (s.proc p).Away := by
        rintro (hidle | hf)
        · unfold procStep at he
          rw [hidle] at he
          cases he
        · exact hfasync hf
      rw [observePlain, if_neg hfasync]
      by_cases hkill : (s.proc p).pc = .killFasync
      -- `ch8` is at `out` already.
      · rw [procStep_killFasync hkill he, observe, hkill]
        exact .stay (h.put_killFasync hin hkill)
      · obtain ⟨hproc, hsig⟩ := h.inside p hin
        rw [Proc.plain_eq hkill] at hproc
        have hstep : Globalfifo.step W cp false t (.run p limit) = some (t.put p e.plain) := by
          refine Option.map_eq_some_iff.2 ⟨e.plain, ?_, rfl⟩
          rw [h.dev, hproc, h.task, hsig, procStep_plain hkill (Bool.eq_false_iff.2 hfasync), he]
          rfl
        have ho : observe t (.run p limit) = observe s (.run p limit) := by
          rw [observe, observe, hproc]
        rw [← ho]
        exact .one trivial hstep (h.put hin (procStep_call he).1 (procStep_returned he))
  | wakeup p =>
    cases hs
    refine .one (b := .wakeup p) trivial rfl (h.update (p := p) h.dev ?_ h.polls
      (fun q _ => ⟨rfl, rfl⟩) (fun q _ => ⟨rfl, rfl⟩) (h.inside p) (h.away p))
    exact congrArg (Function.update · p .running) h.task
  | signal p =>
    cases hs
    by_cases hx : (s.proc p).Away
    -- The signal itself is put off: `Matches.deliver` brings it with the next call.
    · refine .one (b := .wakeup p) trivial rfl (h.update (p := p) h.dev ?_ h.polls
        (fun q hq => ⟨rfl, Function.update_of_ne hq ..⟩) (fun q _ => ⟨rfl, rfl⟩)
        (fun hin => absurd hx hin) (h.away p))
      exact congrArg (Function.update · p .running) h.task
    · refine .one (b := .signal p) trivial rfl (h.update (p := p) h.dev ?_ h.polls
        (fun q hq => ⟨rfl, Function.update_of_ne hq ..⟩)
        (fun q hq => ⟨rfl, Function.update_of_ne hq ..⟩) (fun _ => ⟨(h.inside p hx).1, ?_⟩)
        fun haway => absurd haway hx)
      · exact congrArg (Function.update · p .running) h.task
      · dsimp only
        rw [Function.update_self, Function.update_self]

/-! ## Without a call of `globalfifo_fasync` -/

/-- Nobody has switched notification on, and nobody is in a call that could. -/
structure Unnotified (s : State) : Prop where
  queue : s.dev.asyncQueue = []
  proc : ∀ p, (s.proc p).pc ≠ .killFasync ∧ (s.proc p).call.isFasync = false

theorem Unnotified.init : Unnotified .init := ⟨rfl, fun _ => ⟨Pc.noConfusion, rfl⟩⟩

/-- With an empty `async_queue` the versions take the same steps. -/
theorem procStep_of_queue_nil (hd : d.asyncQueue = []) :
    procStep W cp true d p x task sig limit = procStep W cp false d p x task sig limit := by
  obtain ⟨call, file, pc, res⟩ := x
  cases call with
  | write buf count nonblock =>
    cases pc with
    | wake => simp [procStep, callStep, rwStep, globalfifoWrite, hd]
    | _ => rfl
  | release =>
    cases pc with
    | fasync => simp [procStep, callStep, globalfifoRelease, fasyncHelper, hd]
    | _ => rfl
  | read | ioctl | poll | fasync => rfl

/-- A step of the version without notification is one of the version with it. -/
theorem Unnotified.step (h : Unnotified s) (ha : a.Plain)
    (hs : Globalfifo.step W cp false s a = some s') :
    Globalfifo.step W cp true s a = some s' ∧ Unnotified s' := by
  cases a with
  | call p file c =>
    refine ⟨hs, ?_⟩
    simp only [Globalfifo.step] at hs
    split at hs <;> cases hs
    refine ⟨h.queue, fun q => ?_⟩
    rcases eq_or_ne q p with rfl | hne
    · dsimp only
      rw [Function.update_self]
      exact ⟨by cases c <;> exact Pc.noConfusion, ha⟩
    · dsimp only
      rw [Function.update_of_ne hne]
      exact h.proc q
  | run p limit =>
    obtain ⟨e, he, rfl⟩ := Option.map_eq_some_iff.1 hs
    obtain ⟨hpc, hcall⟩ := h.proc p
    have hplain : s.dev.plain = s.dev := by
      unfold Dev.plain
      rw [← h.queue]
    -- The effect is that of the version with notification, cut down to this one.
    obtain ⟨f, hf, rfl⟩ : ∃ f, procStep W cp true s.dev p (s.proc p) (s.task p) (s.sigPending p)
        limit = some f ∧ f.plain = e := by
      have hcut : procStep W cp false s.dev.plain p (s.proc p) (s.task p) (s.sigPending p) limit =
          _ := procStep_plain hpc hcall
      rw [hplain, he] at hcut
      exact Option.map_eq_some_iff.1 hcut.symm
    refine ⟨?_, ?_, fun q => ?_⟩
    · refine Option.map_eq_some_iff.2 ⟨f.plain, ?_, rfl⟩
      rw [procStep_of_queue_nil h.queue, he]
    · rw [State.put_dev]
      rfl
    · rw [State.put_proc]
      rcases eq_or_ne q p with rfl | hne
      · rw [Function.update_self]
        refine ⟨?_, ?_⟩
        · show f.proc.pc.plain ≠ .killFasync
          cases f.proc.pc <;> exact Pc.noConfusion
        · rw [(procStep_call he).1, hcall]
      · rw [Function.update_of_ne hne]
        exact h.proc q
  | wakeup p | signal p => cases hs; exact ⟨rfl, h.queue, h.proc⟩

/-! ## Runs -/

theorem Matches.init : Matches .init .init :=
  ⟨rfl, rfl, rfl, fun _ _ => ⟨rfl, rfl⟩, fun _ _ => ⟨rfl, rfl⟩⟩

end

/-- **Notification adds signals and nothing else.** Every run of the version with `async_queue` is
answered by a run of the version without it, in which nobody calls `globalfifo_fasync`: with the
same calls and results besides, the same data, mutex, wait queues, task states and polls, and every
process at the same point of its call. And every run of the version without is, label by label, one
of the version with it. -/
theorem onlySignals (W : LongWidth) (cp : Copier Byte) :
    (∀ as s, (machine W cp true).Run Machine.anyStep .init as s →
      ∃ bs t, (machine W cp false).Run (fun _ b => b.Plain) .init bs t ∧
        (machine W cp false).events observe .init bs =
          (machine W cp true).events observePlain .init as ∧ Matches s t) ∧
    ∀ bs t, (machine W cp false).Run (fun _ b => b.Plain) .init bs t →
      (machine W cp true).Run (fun _ b => b.Plain) .init bs t ∧
        (machine W cp true).events observe .init bs =
          (machine W cp false).events observe .init bs := by
  refine ⟨fun as s h => ?_, fun bs t h => ?_⟩
  · have hrun : ∃ bs t, (machine W cp false).Run (fun _ b => b.Plain) .init bs t ∧
        (machine W cp false).events observe .init bs =
          (machine W cp true).events observePlain .init as ∧ Drowsy s ∧ Matches s t := by
      refine h.simulates (R := fun u v => Drowsy u ∧ Matches u v) ⟨.init, .init⟩ ?_
      intro u a v u' ⟨hd, hm⟩ _ hs
      obtain ⟨bs, v', hr, ho, hm'⟩ := hm.step hd hs
      exact ⟨bs, v', hr, ho, hd.step hs, hm'⟩
    obtain ⟨bs, t, hr, ho, -, hm⟩ := hrun
    exact ⟨bs, t, hr, ho, hm⟩
  · exact h.copied (I := Unnotified) .init fun _ _ _ hu hb hs => hu.step hb hs

/-- Process `0` switches notification on, with a signal that its return delivers; one arrives for
process `1` before it writes a byte, and `SIGIO` is sent. -/
def notifiedWrite : List Act :=
  [.call 0 0 (.fasync true), .signal 0, .run 0 none, .run 0 none, .signal 1,
    .call 1 1 (.write (fun _ => 7) 1 false)] ++ List.replicate 10 (.run 1 none)

/-- The run has sent `SIGIO`, and the write has its result without it. -/
theorem notifiedWrite_onlySignals :
    ∃ s, (machine .w64 Copier.ascending true).Run Machine.anyStep .init notifiedWrite s ∧
      s.sigio = [0] ∧
      ∃ bs t, (machine .w64 Copier.ascending false).Run (fun _ b => b.Plain) .init bs t ∧
        (completed ((machine .w64 Copier.ascending false).events observe .init bs)).map
          (fun e => (e.1, e.2.2)) = [(1, ⟨1, []⟩)] ∧ Matches s t := by
  have hrun : ((machine .w64 Copier.ascending true).runFrom .init notifiedWrite).map (·.sigio) =
      some [0] := by
    decide +kernel
  obtain ⟨s, hs, hsigio⟩ := Option.map_eq_some_iff.1 hrun
  have hr : (machine .w64 Copier.ascending true).Run Machine.anyStep .init notifiedWrite s :=
    .of_runFrom (fun _ _ _ => trivial) hs
  obtain ⟨bs, t, hbs, ho, hm⟩ := (onlySignals .w64 Copier.ascending).1 notifiedWrite s hr
  refine ⟨s, hr, hsigio, bs, t, hbs, ?_, hm⟩
  rw [ho]
  decide +kernel

end LinuxTraining.Globalfifo
