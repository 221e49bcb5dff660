import LinuxTraining.Globalfifo.Poll
import LinuxTraining.Globalfifo.Settle

/-!
# `io-models/epoll.c` on globalfifo

`call_epoll` watches `/dev/globalfifo` with `EPOLLIN|EPOLLET` and reads 100 bytes at most each time
that it is told of data. An edge-triggered watch tells of a wakeup, not of data that a read has left
behind. It is no loss here: `globalfifo_poll` enters the watch in both wait queues, and a read wakes
`w_wait`, so the program's own read has the device looked at again. While the program waits and the
watch is not on the ready list, the device is empty (`nothingStuck`), and so it is when everything
comes to rest (`rest_drained`).

The watch is the kernel's: `epoll_ctl` polls the file and puts the watch on the ready list if it has
data; a wakeup of a queue of the device puts it there; `epoll_wait` takes it from there, polls the
file, and returns it if it has data. What the program does with its pipe is time that passes.
-/

namespace LinuxTraining.Globalfifo.Epoll

open Lib

/-- The program points of `call_epoll`: before `epoll_ctl`, in it, before `epoll_wait` or blocked in
it, in its poll of a file that was ready, before `read`, in it. -/
inductive ProgPc
  | start
  | epollCtl
  | epollWait
  | harvest
  | avail
  | read
  deriving DecidableEq

/-- The driver with all processes, the program, and its watch of `fifofd`: whether it is entered in
the wait queues, and whether it is on the ready list of `epfd`. -/
structure State where
  drv : Globalfifo.State
  pc : ProgPc
  watched : Bool
  ready : Bool

/-- A step: of another process or of the environment; of the program's process in its call; the
program's next call on `fifofd`. -/
inductive Act
  | env (a : Globalfifo.Act)
  | run
  | next

/-- The label moves process `p`. -/
def moves (p : Nat) : Globalfifo.Act → Bool
  | .call q _ _ | .run q _ => q == p
  | .wakeup _ | .signal _ => false

/-- The step wakes a queue of the device. -/
def Effect.wakes (e : Effect) : Bool :=
  match e.also with
  | .wakeUp _ => true
  | .nothing | .setState _ | .polled _ | .killFasync | .returned => false

/-- `events & EPOLLIN` of what a poll returns. -/
def hasIn (r : Result) : Bool := r.ret.toNat &&& POLLIN ≠ 0

section
variable (W : LongWidth) (cp : Copier Byte) (async : Bool) (me fifofd : Nat)

/-- The label wakes a queue of the device. -/
def wakes (s : Globalfifo.State) : Globalfifo.Act → Bool
  | .run p limit =>
    match procStep W cp async s.dev p (s.proc p) (s.task p) (s.sigPending p) limit with
    | some e => Effect.wakes e
    | none => false
  | .call _ _ _ | .wakeup _ | .signal _ => false

/-- The driver takes a step, which may put the watch on the ready list. -/
def State.drive (s : State) (a : Globalfifo.Act) : Option State :=
  (Globalfifo.step W cp async s.drv a).map fun d =>
    { s with drv := d, ready := s.ready || (s.watched && wakes W cp async s.drv a) }

/-- The program's process takes a step in its call, which may enter the watch in the wait queues.
Its buffer is mapped. -/
def State.run (s : State) : Option State :=
  (s.drive W cp async (.run me none)).map fun t =>
    { t with watched := s.watched || decide ((s.drv.proc me).pc = .pollWait) }

/-- The program's call on `fifofd` has returned. -/
def State.returned (s : State) (r : Result) : State :=
  match s.pc with
  | .epollCtl => { s with pc := .epollWait, ready := s.ready || hasIn r }
  | .harvest => { s with pc := if hasIn r then .avail else .epollWait }
  | .read => { s with pc := .epollWait }
  | .start | .epollWait | .avail => s

/-- The program calls an operation of the driver. -/
def State.calls (s : State) (c : Globalfifo.Call) (pc : ProgPc) : Option State :=
  (s.drive W cp async (.call me fifofd c)).map fun t => { t with pc }

/-- One step of the program and the driver. The program ignores what `read` returns. -/
def step (s : State) : Act → Option State
  | .env a => if moves me a then none else s.drive W cp async a
  | .run => (s.run W cp async me).map fun t =>
    if (s.drv.proc me).pc = .ret then t.returned (s.drv.proc me).res else t
  | .next =>
    match s.pc with
    | .start => s.calls W cp async me fifofd .poll .epollCtl
    | .epollWait =>
      if s.ready then { s with ready := false }.calls W cp async me fifofd .poll .harvest else none
    | .avail => s.calls W cp async me fifofd (.read 100 false) .read
    | .epollCtl | .harvest | .read => none

/-- The program, the driver and its other callers. -/
def machine : Machine State Act where
  init s := s = ⟨.init, .start, false, false⟩
  step := step W cp async me fifofd

end

/-- The label of the driver that a step is. -/
def Act.drives (me fifofd : Nat) (s : State) : Act → Globalfifo.Act
  | .env a => a
  | .run => .run me none
  | .next => .call me fifofd (if s.pc = .avail then .read 100 false else .poll)

/-! ## What the watch knows -/

/-- The watch is on the ready list if there is data, or is about to be put there. -/
def Known (s : State) : Prop :=
  s.ready = true ∨ s.drv.dev.currentLen = 0 ∨ ∃ p, (s.drv.proc p).pc = .wake

/-- A read at this point has not found out whether there is data, or is about to take some. -/
def Looks : Pc → Prop
  | .lock | .addWait | .test | .relock | .copy => True
  | _ => False

/-- Where the program's process is in its poll, and what it knows. -/
def Polls (s : State) (x : Proc) : Prop :=
  x.call = .poll ∧ (x.pc = .lock ∨ x.pc = .pollWait ∨ (x.pc = .mask ∧ s.watched = true) ∨
    ((x.pc = .out ∨ x.pc = .ret) ∧ s.watched = true ∧ (hasIn x.res = false → Known s)))

/-- What holds of the program's process where the program is. -/
def At (s : State) (x : Proc) : ProgPc → Prop
  | .start => x.pc = .idle
  | .epollCtl | .harvest => Polls s x
  | .epollWait => x.pc = .idle ∧ s.watched = true ∧ Known s
  | .avail => x.pc = .idle ∧ s.watched = true
  | .read => x.call = .read 100 false ∧ x.pc ≠ .idle ∧ s.watched = true ∧ (Looks x.pc ∨ Known s)

section
variable {W : LongWidth} {cp : Copier Byte} {async : Bool} {me fifofd : Nat} {s s' t : State}
  {d : Globalfifo.State} {a : Globalfifo.Act} {c : RwCode} {dev : Dev} {p : Nat} {x : Proc}
  {task : TaskState} {sig : Bool} {limit : Option Fault} {e : Effect}

/-- A read or a write that makes data wakes next. -/
theorem rwStep_fills {call : Call} (hc : c.Fits call)
    (h : rwStep c dev p x task sig limit = some e) (hlen : e.dev.currentLen ≠ 0) :
    dev.currentLen ≠ 0 ∨ e.proc.pc = .wake := by
  cases rwStep_rule h with
  | copied => exact .inr rfl
  | fault hfault => exact .inl fun h0 => hlen ((hc.fault _ _ hfault).trans h0)
  | addWait =>
    refine .inl fun h0 => hlen ?_
    cases hq : c.addsTo <;> simpa only [Dev.addWaitQueue, hq] using h0
  | out2 =>
    refine .inl fun h0 => hlen ?_
    cases hq : c.removesFrom <;> simpa only [Dev.removeWaitQueue, hq] using h0
  | _ => exact .inl hlen

/-- **Whoever makes data wakes next.** -/
theorem procStep_fills (h : procStep W cp async dev p x task sig limit = some e)
    (hlen : e.dev.currentLen ≠ 0) : dev.currentLen ≠ 0 ∨ e.proc.pc = .wake := by
  have hlock : ∀ {next : Pc}, mutexLock dev p x next = some e → dev.currentLen ≠ 0 := by
    intro next hl
    obtain ⟨-, rfl⟩ := mutexLock_eq_some hl
    exact hlen
  obtain ⟨call, file, pc, res⟩ := x
  unfold procStep at h
  split at h
  · cases h
  · cases h
    exact .inl hlen
  · unfold callStep at h
    cases call with
    | read count nonblock => exact rwStep_fills globalfifoRead_fits h hlen
    | write buf count nonblock => exact rwStep_fills globalfifoWrite_fits h hlen
    | ioctl cmd =>
      cases pc with
      | switch =>
        simp only [globalfifoIoctl] at h
        split at h <;> cases h <;> exact .inl hlen
      | lock => exact .inl (hlock h)
      | clear => cases h; exact absurd rfl hlen
      | out => cases h; exact .inl hlen
      | _ => cases h
    | poll =>
      cases pc with
      | lock => exact .inl (hlock h)
      | pollWait | mask | out => cases h; exact .inl hlen
      | _ => cases h
    | fasync mode =>
      cases pc with
      | fasync => cases h; exact .inl hlen
      | _ => cases h
    | release =>
      cases pc with
      | fasync => cases h; exact .inl hlen
      | _ => cases h

/-- The step at the wakeup of a read or a write. -/
theorem procStep_wakes (h : procStep W cp async dev p x task sig limit = some e)
    (hpc : x.pc = .wake) : Effect.wakes e = true := by
  have hrw : ∀ {c : RwCode}, rwStep c dev p x task sig limit = some e → Effect.wakes e = true := by
    intro c h
    cases rwStep_rule h with
    | wake | wakeKill => rfl
    | _ => cases hpc
  obtain ⟨call, file, pc, res⟩ := x
  obtain rfl : pc = .wake := hpc
  cases call with
  | read count nonblock => exact hrw h
  | write buf count nonblock => exact hrw h
  | ioctl | poll | fasync | release => cases h

/-- What the watch knows it knows after a step of the driver. -/
theorem Known.drive (h : Known s) (hw : s.watched = true) (hs : s.drive W cp async a = some t) :
    Known t := by
  obtain ⟨d, hd, rfl⟩ := Option.map_eq_some_iff.1 hs
  have hready : s.ready = true → Known { s with
      drv := d, ready := s.ready || (s.watched && wakes W cp async s.drv a) } := fun hr =>
    .inl (by rw [hr]; rfl)
  cases a with
  | call p file c =>
    simp only [Globalfifo.step] at hd
    split at hd <;> cases hd
    next hidle =>
    rcases h with hr | hlen | ⟨q, hq⟩
    · exact hready hr
    · exact .inr (.inl hlen)
    · have hne : q ≠ p := by
        rintro rfl
        cases hidle.symm.trans hq
      exact .inr (.inr ⟨q, (congrArg Proc.pc (Function.update_of_ne hne ..)).trans hq⟩)
  | run p limit =>
    obtain ⟨e, he, rfl⟩ := Option.map_eq_some_iff.1 hd
    have hwakes : wakes W cp async s.drv (.run p limit) = Effect.wakes e := by
      rw [wakes, he]
    rcases h with hr | hlen | ⟨q, hq⟩
    · exact hready hr
    · by_cases hlen' : e.dev.currentLen = 0
      · exact .inr (.inl (by rw [State.put_dev]; exact hlen'))
      · have hpc := (procStep_fills he hlen').resolve_left fun hne => hne hlen
        exact .inr (.inr ⟨p, by rw [State.put_proc, Function.update_self]; exact hpc⟩)
    · rcases eq_or_ne q p with rfl | hne
      · refine .inl ?_
        rw [hwakes, hw, procStep_wakes he hq]
        simp
      · exact .inr (.inr ⟨q, by rw [State.put_proc, Function.update_of_ne hne]; exact hq⟩)
  | wakeup p | signal p =>
    cases hd
    rcases h with hr | hrest
    · exact hready hr
    · exact .inr hrest

/-! ## The program's steps -/

/-- What holds of the program survives steps that keep its process and what the watch knows. -/
theorem At.mono {pc : ProgPc} (h : At s x pc) (hw : s.watched = true → t.watched = true)
    (hk : s.watched = true → Known s → Known t) : At t x pc := by
  have hpolls : Polls s x → Polls t x := fun ⟨hcall, hpc⟩ => by
    refine ⟨hcall, ?_⟩
    rcases hpc with hpc | hpc | ⟨hpc, hwatch⟩ | ⟨hpc, hwatch, hin⟩
    · exact .inl hpc
    · exact .inr (.inl hpc)
    · exact .inr (.inr (.inl ⟨hpc, hw hwatch⟩))
    · exact .inr (.inr (.inr ⟨hpc, hw hwatch, fun hno => hk hwatch (hin hno)⟩))
  cases pc with
  | start => exact h
  | epollCtl | harvest => exact hpolls h
  | epollWait => exact ⟨h.1, hw h.2.1, hk h.2.1 h.2.2⟩
  | avail => exact ⟨h.1, hw h.2⟩
  | read =>
    obtain ⟨hcall, hpc, hwatch, hlooks⟩ := h
    exact ⟨hcall, hpc, hw hwatch, hlooks.imp_right (hk hwatch)⟩

/-- The mask tells whether there is data. -/
theorem hasIn_pollMask (n : Nat) (data : List Byte) :
    hasIn ⟨(pollMask n : Nat), data⟩ = true ↔ n ≠ 0 := by
  unfold hasIn
  rw [Int.toNat_natCast]
  rcases eq_or_ne n 0 with rfl | h0
  · decide
  · rcases eq_or_ne n GLOBALFIFO_SIZE with rfl | hfull
    · decide
    · rw [pollMask_of_inner h0 hfull]
      exact iff_of_true rfl h0

/-- What the watch knows it knows after a step of the program's process. -/
theorem Known.run (h : Known s) (hw : s.watched = true) (hs : s.run W cp async me = some t) :
    Known t := by
  obtain ⟨u, hu, rfl⟩ := Option.map_eq_some_iff.1 hs
  have hk : Known u := h.drive hw hu
  exact hk

/-- The driver's part of a step of the program's process. -/
theorem run_drv (hs : s.run W cp async me = some t) :
    ∃ e, procStep W cp async s.drv.dev me (s.drv.proc me) (s.drv.task me) (s.drv.sigPending me)
        none = some e ∧ t.drv = s.drv.put me e ∧ t.drv.proc me = e.proc ∧ t.pc = s.pc ∧
      (s.watched = true → t.watched = true) ∧
      ((s.drv.proc me).pc = .pollWait → t.watched = true) ∧ (s.ready = true → t.ready = true) := by
  obtain ⟨u, hu, rfl⟩ := Option.map_eq_some_iff.1 hs
  obtain ⟨d, hd, rfl⟩ := Option.map_eq_some_iff.1 hu
  obtain ⟨e, he, rfl⟩ := Option.map_eq_some_iff.1 hd
  refine ⟨e, he, rfl, ?_, rfl, fun hw => by simp [hw], fun hpc => by simp [hpc],
    fun hr => by simp [hr]⟩
  rw [State.put_proc, Function.update_self]

/-- A step of the program's process in a poll, before its return. -/
theorem Polls.run (h : Polls s (s.drv.proc me)) (hret : (s.drv.proc me).pc ≠ .ret)
    (hs : s.run W cp async me = some t) : Polls t (t.drv.proc me) := by
  obtain ⟨e, he, hdrv, hproc, -, hwatched, hentered, -⟩ := run_drv hs
  have hknown : s.watched = true → Known s → Known t := fun hw hk => hk.run hw hs
  obtain ⟨hcall, hpc⟩ := h
  rw [hproc]
  generalize s.drv.proc me = x at *
  obtain ⟨call, file, pc, res⟩ := x
  obtain rfl : call = .poll := hcall
  rcases hpc with hpc | hpc | ⟨hpc, hwatch⟩ | ⟨hpc | hpc, hwatch, hin⟩
  · obtain rfl : pc = .lock := hpc
    obtain ⟨-, rfl⟩ := mutexLock_eq_some he
    exact ⟨rfl, .inr (.inl rfl)⟩
  · obtain rfl : pc = .pollWait := hpc
    cases he
    exact ⟨rfl, .inr (.inr (.inl ⟨rfl, hentered rfl⟩))⟩
  · obtain rfl : pc = .mask := hpc
    cases he
    refine ⟨rfl, .inr (.inr (.inr ⟨.inl rfl, hwatched hwatch, fun hno => .inr (.inl ?_)⟩))⟩
    rw [hdrv]
    by_contra hlen
    exact absurd ((hasIn_pollMask _ _).2 hlen) (Bool.eq_false_iff.1 hno)
  · obtain rfl : pc = .out := hpc
    cases he
    exact ⟨rfl, .inr (.inr (.inr ⟨.inr rfl, hwatched hwatch, fun hno => hknown hwatch (hin hno)⟩))⟩
  · exact absurd hpc hret

/-- A step of the program's process in its read, before its return. -/
theorem read_run (h : At s (s.drv.proc me) .read) (hret : (s.drv.proc me).pc ≠ .ret)
    (hs : s.run W cp async me = some t) : At t (t.drv.proc me) .read := by
  obtain ⟨e, he, hdrv, hproc, -, hwatched, -, -⟩ := run_drv hs
  obtain ⟨hcall, hidle, hwatch, hlooks⟩ := h
  have hcall' := (procStep_call he).1
  rw [runs_read 100 false _ _ _ _ _ hcall hidle hret] at he
  have hkept : Known s → Known t := fun hk => hk.run hwatch hs
  suffices hlast : e.proc.pc ≠ .idle ∧ (Looks e.proc.pc ∨ Known t) by
    rw [hproc]
    exact ⟨hcall'.trans hcall, hlast.1, hwatched hwatch, hlast.2⟩
  generalize hx : s.drv.proc me = x at he hlooks
  cases rwStep_rule he with
  | lock | addWait | pass | retry | relock => exact ⟨nofun, .inl trivial⟩
  | again _ hnonblock => cases hnonblock
  | sleep hblocked =>
    refine ⟨nofun, .inr (.inr (.inl ?_))⟩
    rw [hdrv]
    exact of_decide_eq_true hblocked
  | copied => exact ⟨nofun, .inr (.inr (.inr ⟨me, congrArg Proc.pc hproc⟩))⟩
  | fault hfault => cases (readCopy_none _ 100).1.symm.trans hfault
  | wake | wakeKill => exact ⟨nofun, .inr (hkept (.inr (.inr ⟨me, congrArg Proc.pc hx⟩)))⟩
  | setState | unlock1 | schedule | interrupted | killFasync | out | out2 | setRunning =>
    exact ⟨nofun, .inr (hkept (hlooks.resolve_left id))⟩

/-- The return of the program's call to the program. -/
theorem At.returned (h : At s (s.drv.proc me) s.pc) (hret : (s.drv.proc me).pc = .ret)
    (hs : s.run W cp async me = some t) : At (t.returned (s.drv.proc me).res) (t.drv.proc me)
      (t.returned (s.drv.proc me).res).pc := by
  obtain ⟨e, he, -, hproc, hpc', hwatched, -, hready⟩ := run_drv hs
  have hidle : (t.drv.proc me).pc = .idle := by
    rw [procStep, hret] at he
    cases he
    rw [hproc]
    rfl
  have hpolled : Polls s (s.drv.proc me) → t.watched = true ∧
      (hasIn (s.drv.proc me).res = false → Known t) := by
    rintro ⟨-, hpc⟩
    rw [hret] at hpc
    rcases hpc with hpc | hpc | ⟨hpc, -⟩ | ⟨-, hwatch, hin⟩
    · cases hpc
    · cases hpc
    · cases hpc
    · exact ⟨hwatched hwatch, fun hno => (hin hno).run hwatch hs⟩
  unfold State.returned
  rw [hpc']
  cases hpc : s.pc with
  | start => rw [hpc] at h; cases hret.symm.trans h
  | epollWait => rw [hpc] at h; cases hret.symm.trans h.1
  | avail => rw [hpc] at h; cases hret.symm.trans h.1
  | epollCtl =>
    rw [hpc] at h
    obtain ⟨hwatch, hin⟩ := hpolled h
    refine ⟨hidle, hwatch, ?_⟩
    cases hno : hasIn (s.drv.proc me).res with
    | true => exact .inl (Bool.or_true _)
    | false => exact (hin hno).imp_left fun hr => by rw [hr]; rfl
  | harvest =>
    rw [hpc] at h
    obtain ⟨hwatch, hin⟩ := hpolled h
    dsimp only
    cases hno : hasIn (s.drv.proc me).res with
    | true => exact ⟨hidle, hwatch⟩
    | false => exact ⟨hidle, hwatch, hin hno⟩
  | read =>
    rw [hpc] at h
    obtain ⟨-, -, hwatch, hlooks⟩ := h
    rw [hret] at hlooks
    have hk : Known t := (hlooks.resolve_left id).run hwatch hs
    exact ⟨hidle, hwatched hwatch, hk⟩

/-- The program's process has called. -/
theorem calls_eq {call : Globalfifo.Call} {pc : ProgPc}
    (hs : s.calls W cp async me fifofd call pc = some t) :
    t = { s with
      drv := { s.drv with
        proc := Function.update s.drv.proc me ⟨call, fifofd, call.entry, ⟨0, []⟩⟩ }
      pc } := by
  obtain ⟨u, hu, rfl⟩ := Option.map_eq_some_iff.1 hs
  obtain ⟨d, hd, rfl⟩ := Option.map_eq_some_iff.1 hu
  simp only [Globalfifo.step] at hd
  split at hd <;> cases hd
  simp [wakes]

/-- What holds of the program, in every state. -/
structure Inv (me : Nat) (s : State) : Prop where
  exclusive : Exclusive s.drv
  onPath : OnPath s.drv
  program : At s (s.drv.proc me) s.pc

/-- A step of the driver keeps what holds of the driver. -/
theorem drive_drv (hs : s.drive W cp async a = some t) :
    Globalfifo.step W cp async s.drv a = some t.drv ∧ t.pc = s.pc ∧ t.watched = s.watched := by
  obtain ⟨d, hd, rfl⟩ := Option.map_eq_some_iff.1 hs
  exact ⟨hd, rfl, rfl⟩

theorem State.returned_drv (s : State) (r : Result) : (s.returned r).drv = s.drv := by
  unfold State.returned
  split <;> rfl

/-- A step is a step of the driver. -/
theorem step_drives {a : Act} (hs : step W cp async me fifofd s a = some s') :
    Globalfifo.step W cp async s.drv (a.drives me fifofd s) = some s'.drv := by
  have hcalls : ∀ {u : State} {call pc}, u.drv = s.drv →
      u.calls W cp async me fifofd call pc = some s' →
      Globalfifo.step W cp async s.drv (.call me fifofd call) = some s'.drv := by
    intro u call pc hu hc
    obtain ⟨v, hv, rfl⟩ := Option.map_eq_some_iff.1 hc
    rw [← hu]
    exact (drive_drv hv).1
  cases a with
  | env a =>
    simp only [step] at hs
    split at hs
    · cases hs
    · exact (drive_drv hs).1
  | run =>
    obtain ⟨t, ht, rfl⟩ := Option.map_eq_some_iff.1 hs
    obtain ⟨u, hu, rfl⟩ := Option.map_eq_some_iff.1 ht
    have hd : Globalfifo.step W cp async s.drv (.run me none) = some u.drv := (drive_drv hu).1
    split
    · rw [State.returned_drv]
      exact hd
    · exact hd
  | next =>
    simp only [step] at hs
    cases hp : s.pc with
    | start =>
      rw [hp] at hs
      simpa [Act.drives, hp] using hcalls rfl hs
    | epollWait =>
      rw [hp] at hs
      dsimp only at hs
      split at hs
      · simpa [Act.drives, hp] using
          hcalls (u := { s with pc := .epollWait, ready := false }) rfl hs
      · cases hs
    | avail =>
      rw [hp] at hs
      simpa [Act.drives, hp] using hcalls rfl hs
    | epollCtl | harvest | read =>
      rw [hp] at hs
      cases hs

/-- What holds of the program survives a step of another process or of the environment. -/
theorem Inv.program_env (h : Inv me s) (hs : step W cp async me fifofd s (.env a) = some s') :
    At s' (s'.drv.proc me) s'.pc := by
  simp only [step] at hs
  split at hs
  · cases hs
  · next hmoves =>
    obtain ⟨hd, hpc, hwatch⟩ := drive_drv hs
    have hproc : s'.drv.proc me = s.drv.proc me := by
      cases a with
      | call p file c =>
        refine step_proc_of_ne hd fun he => hmoves ?_
        simpa [moves, Globalfifo.Act.pid] using he.symm
      | run p limit =>
        refine step_proc_of_ne hd fun he => hmoves ?_
        simpa [moves, Globalfifo.Act.pid] using he.symm
      | wakeup p | signal p =>
        simp only [Globalfifo.step] at hd
        rw [← Option.some.inj hd]
    rw [hproc, hpc]
    exact h.program.mono (by rw [hwatch]; exact id) fun hw hk => hk.drive hw hs

/-- What holds of the program survives a step in its call. -/
theorem Inv.program_run (h : Inv me s) (hs : step W cp async me fifofd s .run = some s') :
    At s' (s'.drv.proc me) s'.pc := by
  obtain ⟨t, ht, rfl⟩ := Option.map_eq_some_iff.1 hs
  obtain ⟨e, he, -, -, hpc, -⟩ := run_drv ht
  have hprog := h.program
  split
  · next hret =>
    rw [State.returned_drv]
    exact hprog.returned hret ht
  · next hret =>
    have hstuck : (s.drv.proc me).pc ≠ .idle := fun hidle => by
      simp only [procStep, hidle] at he
      cases he
    rw [hpc]
    cases hp : s.pc with
    | start => rw [hp] at hprog; exact absurd hprog hstuck
    | epollWait => rw [hp] at hprog; exact absurd hprog.1 hstuck
    | avail => rw [hp] at hprog; exact absurd hprog.1 hstuck
    | epollCtl => rw [hp] at hprog; exact Polls.run hprog hret ht
    | harvest => rw [hp] at hprog; exact Polls.run hprog hret ht
    | read => rw [hp] at hprog; exact read_run hprog hret ht

/-- What holds of the program survives its call. -/
theorem Inv.program_next (h : Inv me s) (hs : step W cp async me fifofd s .next = some s') :
    At s' (s'.drv.proc me) s'.pc := by
  have hprog := h.program
  simp only [step] at hs
  cases hp : s.pc with
  | epollCtl | harvest | read => rw [hp] at hs; cases hs
  | start =>
    rw [hp] at hs
    obtain rfl := calls_eq hs
    dsimp only
    rw [Function.update_self]
    exact ⟨rfl, .inl rfl⟩
  | epollWait =>
    rw [hp] at hs
    dsimp only at hs
    split at hs
    · obtain rfl := calls_eq hs
      dsimp only
      rw [Function.update_self]
      exact ⟨rfl, .inl rfl⟩
    · cases hs
  | avail =>
    rw [hp] at hs hprog
    obtain rfl := calls_eq hs
    dsimp only
    rw [Function.update_self]
    exact ⟨rfl, nofun, hprog.2, .inl trivial⟩

theorem Inv.step {a : Act} (h : Inv me s) (hs : Epoll.step W cp async me fifofd s a = some s') :
    Inv me s' := by
  refine ⟨h.exclusive.step (step_drives hs), h.onPath.step (step_drives hs), ?_⟩
  cases a with
  | env a => exact h.program_env hs
  | run => exact h.program_run hs
  | next => exact h.program_next hs

theorem Inv.init : Inv me ⟨.init, .start, false, false⟩ :=
  ⟨.init, fun _ => trivial, rfl⟩

/-- **Nothing is stuck behind the edge-triggered watch.** Whatever the other callers of the device
do, while the program waits in `epoll_wait`, the watch is not on the ready list and the mutex is
free, the device is empty. -/
theorem nothingStuck (hr : (machine W cp async me fifofd).Reach Machine.anyStep s)
    (hwait : s.pc = .epollWait) (hready : s.ready = false) (hfree : s.drv.dev.mutex = none) :
    s.drv.dev.currentLen = 0 := by
  have hinv : Inv me s := hr.invariant (by rintro _ rfl; exact .init)
    fun _ _ _ hI _ hs => hI.step hs
  have hprog := hinv.program
  rw [hwait] at hprog
  rcases hprog.2.2 with hr | hlen | ⟨p, hp⟩
  · cases hr.symm.trans hready
  · exact hlen
  · have hhold := (hinv.exclusive p).1 (by rw [hp]; trivial)
    cases hhold.symm.trans hfree

/-! ## Rest -/

/-- No process can take a step, and the program has no call to make. -/
def Rest (W : LongWidth) (cp : Copier Byte) (async : Bool) (me fifofd : Nat) (s : State) : Prop :=
  (∀ a, a.isRun = true → Globalfifo.step W cp async s.drv a = none) ∧
    step W cp async me fifofd s .next = none

/-- No reader of the driver is left asleep while the program runs: a clear makes no data. -/
theorem attended_step {a : Act} (hqueued : Queued s.drv) (hreaders : Attended s.drv .r)
    (hs : step W cp async me fifofd s a = some s') : Queued s'.drv ∧ Attended s'.drv .r :=
  ⟨hqueued.step (step_drives hs), hreaders.step hqueued nofun (step_drives hs)⟩

/-- The program can make its call. -/
theorem calls_of_idle (hidle : (s.drv.proc me).pc = .idle) (call : Globalfifo.Call) (pc : ProgPc) :
    s.calls W cp async me fifofd call pc ≠ none := by
  simp [State.calls, State.drive, Globalfifo.step, hidle]

/-- At rest the device is empty. -/
theorem Inv.empty_of_rest (hinv : Inv me s) (hreaders : Attended s.drv .r)
    (hrest : Rest W cp async me fifofd s) : s.drv.dev.currentLen = 0 := by
  obtain ⟨hset, hnext⟩ := hrest
  obtain ⟨hfree, hprocs⟩ := (settled_iff_atRest_of hinv.exclusive hinv.onPath).1 hset
  have hprog := hinv.program
  simp only [Epoll.step] at hnext
  cases hp : s.pc with
  | start =>
    rw [hp] at hprog hnext
    exact absurd hnext (calls_of_idle hprog _ _)
  | avail =>
    rw [hp] at hprog hnext
    exact absurd hnext (calls_of_idle hprog.1 _ _)
  | epollCtl | harvest =>
    rw [hp] at hprog
    obtain ⟨-, hpc⟩ := hprog
    rcases hprocs me with hme | ⟨q, -, hme, -⟩ <;> rw [hme] at hpc <;>
      rcases hpc with hpc | hpc | ⟨hpc, -⟩ | ⟨hpc | hpc, -⟩ <;> cases hpc
  | epollWait =>
    rw [hp] at hprog hnext
    dsimp only at hnext
    split at hnext
    · exact absurd hnext
        (calls_of_idle (s := { s with pc := .epollWait, ready := false }) hprog.1 _ _)
    · next hready =>
      rcases hprog.2.2 with hr | hlen | ⟨p, hpc⟩
      · exact absurd hr hready
      · exact hlen
      · rcases hprocs p with hidle | ⟨q, -, hsched, -⟩
        · cases hpc.symm.trans hidle
        · cases hpc.symm.trans hsched
  | read =>
    rw [hp] at hprog
    obtain ⟨hcall, hidle, -⟩ := hprog
    obtain ⟨q, hasleep⟩ := (hprocs me).resolve_left hidle
    have hwaits := hasleep.asleep.1
    rw [hcall] at hwaits
    obtain rfl : q = .r := hwaits
    by_contra hlen
    exact hreaders.not_ready hinv.exclusive hfree hasleep.asleep hlen

/-- **The program drains the device.** In every run, whatever the other callers do, when no process
can take a step any more and the program waits for an event or for its read, the device is empty,
although the watch is edge-triggered and a read takes 100 bytes at most. -/
theorem rest_drained (hr : (machine W cp async me fifofd).Reach Machine.anyStep s)
    (hrest : Rest W cp async me fifofd s) : s.drv.dev.currentLen = 0 := by
  obtain ⟨hinv, -, hreaders⟩ : Inv me s ∧ Queued s.drv ∧ Attended s.drv .r :=
    hr.invariant (I := fun s => Inv me s ∧ Queued s.drv ∧ Attended s.drv .r)
      (by rintro _ rfl; exact ⟨.init, .init, .init _⟩)
      fun _ _ _ hI _ hs => ⟨hI.1.step hs, attended_step hI.2.1 hI.2.2 hs⟩
  exact hinv.empty_of_rest hreaders hrest

end

/-- Process `0` is the program. It sets its watch up and waits, process `1` writes 150 bytes, and
the program reads 100 of them. -/
def partlyRead : List Act :=
  .next :: List.replicate 5 .run ++
    .env (.call 1 9 (.write (fun _ => 7) 150 false)) :: List.replicate 9 (.env (.run 1 none)) ++
    .next :: List.replicate 5 .run ++ .next :: List.replicate 9 .run

/-- The program reads the rest, looks again, and waits. -/
def restRead : List Act :=
  .next :: List.replicate 5 .run ++ .next :: List.replicate 9 .run ++
    .next :: List.replicate 5 .run

/-- A step of process `0` or `1`. -/
def pairStep (_ : State) : Act → Bool
  | .env a => decide (a.pid = 1)
  | .run | .next => true

/-- The others have not called. -/
def OthersIdle (s : State) : Prop := ∀ p, p ≠ 0 → p ≠ 1 → (s.drv.proc p).pc = .idle

theorem OthersIdle.step {s s' : State} {a : Act} (h : OthersIdle s) (hchk : pairStep s a = true)
    (hs : Epoll.step .w64 Copier.ascending true 0 8 s a = some s') : OthersIdle s' := by
  intro p hp0 hp1
  rw [step_proc_of_ne (step_drives hs) ?_]
  · exact h p hp0 hp1
  · cases a with
    | env a =>
      have hpid : a.pid = 1 := of_decide_eq_true hchk
      rwa [Act.drives, hpid]
    | run | next => exact hp0

/-- The program waits, and processes `0` and `1` have returned. -/
theorem OthersIdle.rest {s : State} (h : OthersIdle s) (hinv : Inv 0 s)
    (hdrv : s.drv.dev.mutex = none ∧ (s.drv.proc 0).pc = .idle ∧ (s.drv.proc 1).pc = .idle)
    (hwait : s.pc = .epollWait ∧ s.ready = false) : Rest .w64 Copier.ascending true 0 8 s := by
  obtain ⟨hmutex, hzero, hone⟩ := hdrv
  refine ⟨(settled_iff_atRest_of hinv.exclusive hinv.onPath).2 ⟨hmutex, fun p => .inl ?_⟩, ?_⟩
  · rcases eq_or_ne p 0 with rfl | hp0
    · exact hzero
    · rcases eq_or_ne p 1 with rfl | hp1
      · exact hone
      · exact h p hp0 hp1
  · simp only [Epoll.step, hwait.1, hwait.2, Bool.false_eq_true, if_false]

/-- The first part of the run ends with 50 bytes in the device, and the second where the program
waits with nothing to do and the device's other caller has returned. -/
theorem restRead_rest : ∃ s t,
    (machine .w64 Copier.ascending true 0 8).Reach Machine.anyStep s ∧
      s.drv.dev.currentLen = 50 ∧
      (machine .w64 Copier.ascending true 0 8).Run Machine.anyStep s restRead t ∧
      (t.pc = .epollWait ∧ t.ready = false ∧ t.drv.dev.mutex = none) ∧
      Rest .w64 Copier.ascending true 0 8 t := by
  have hchecked : ∀ {as : List Act} {u v : State}, OthersIdle u →
      (machine .w64 Copier.ascending true 0 8).runChecked pairStep u as = some v →
      (machine .w64 Copier.ascending true 0 8).Run Machine.anyStep u as v ∧ OthersIdle v :=
    fun hu => @Machine.Run.of_checked _ _ (machine .w64 Copier.ascending true 0 8)
      Machine.anyStep OthersIdle pairStep (fun _ _ _ _ => trivial)
      (fun _ _ _ hI hchk hs => hI.step hchk hs) _ _ _ hu
  have hfirst : ((machine .w64 Copier.ascending true 0 8).runChecked pairStep
      ⟨.init, .start, false, false⟩ partlyRead).map (fun s => s.drv.dev.currentLen) = some 50 := by
    decide +kernel
  obtain ⟨s, hs, hlen⟩ := Option.map_eq_some_iff.1 hfirst
  have hboth : (((machine .w64 Copier.ascending true 0 8).runChecked pairStep
      ⟨.init, .start, false, false⟩ partlyRead).bind fun s =>
        (machine .w64 Copier.ascending true 0 8).runChecked pairStep s restRead).map
      (fun t => ((t.drv.dev.mutex, (t.drv.proc 0).pc, (t.drv.proc 1).pc), t.pc, t.ready)) =
        some ((none, .idle, .idle), .epollWait, false) := by
    decide +kernel
  rw [hs, Option.bind_some] at hboth
  obtain ⟨t, ht, hend⟩ := Option.map_eq_some_iff.1 hboth
  obtain ⟨hdrv, hend⟩ := Prod.mk.inj hend
  obtain ⟨hmutex, hdrv⟩ := Prod.mk.inj hdrv
  obtain ⟨hzero, hone⟩ := Prod.mk.inj hdrv
  obtain ⟨hpc, hready⟩ := Prod.mk.inj hend
  obtain ⟨hr, hidle⟩ := hchecked (fun _ _ _ => rfl) hs
  obtain ⟨hr', hidle'⟩ := hchecked hidle ht
  have hinv : Inv 0 t := (hr.trans hr').invariant .init fun _ _ _ hI _ hs => hI.step hs
  exact ⟨s, t, ⟨_, _, rfl, hr⟩, hlen, hr', ⟨hpc, hready, hmutex⟩,
    hidle'.rest hinv ⟨hmutex, hzero, hone⟩ ⟨hpc, hready⟩⟩

/-- The program has been told of 150 bytes, has read 100, has been told again and has read the rest:
where it waits then, nothing is left. -/
theorem restRead_nothingStuck : ∃ s t,
    (machine .w64 Copier.ascending true 0 8).Reach Machine.anyStep s ∧
      s.drv.dev.currentLen = 50 ∧
      (machine .w64 Copier.ascending true 0 8).Run Machine.anyStep s restRead t ∧
      t.pc = .epollWait ∧ t.drv.dev.currentLen = 0 := by
  obtain ⟨s, t, ⟨s₀, as, h0, hr⟩, hlen, hr', ⟨hpc, hready, hfree⟩, -⟩ := restRead_rest
  exact ⟨s, t, ⟨s₀, as, h0, hr⟩, hlen, hr', hpc,
    nothingStuck ⟨s₀, _, h0, hr.trans hr'⟩ hpc hready hfree⟩

/-- The 50 bytes that the first read has left are read too. -/
theorem restRead_drained : ∃ s t,
    (machine .w64 Copier.ascending true 0 8).Reach Machine.anyStep s ∧
      s.drv.dev.currentLen = 50 ∧
      (machine .w64 Copier.ascending true 0 8).Run Machine.anyStep s restRead t ∧
      Rest .w64 Copier.ascending true 0 8 t ∧ t.drv.dev.currentLen = 0 := by
  obtain ⟨s, t, ⟨s₀, as, h0, hr⟩, hlen, hr', -, hrest⟩ := restRead_rest
  exact ⟨s, t, ⟨s₀, as, h0, hr⟩, hlen, hr', hrest, rest_drained ⟨s₀, _, h0, hr.trans hr'⟩ hrest⟩

end LinuxTraining.Globalfifo.Epoll
