import LinuxTraining.Globalfifo.Epoll
import LinuxTraining.Globalfifo.Linear

/-!
# `io-models/epoll.c` on globalfifo: what is written is what is read

The program reads 100 bytes at most at a time, and other processes write to the device, poll it and
set their notification. Each of their calls is one move of the byte queue (`Flowing.step`), the
program is the only one that takes bytes from the queue, and at rest the queue is empty. So what
the program has read is, byte for byte, what the writes have taken, one after the other
(`readsAreWrites`).
-/

namespace LinuxTraining.Globalfifo

open Lib

/-- The bytes that a call has put into the queue. -/
def accepted (e : Nat × Call × Result) : List Byte :=
  match e.2.1 with
  | .write buf _ _ => if 0 ≤ e.2.2.ret then buf.slice 0 e.2.2.ret.toNat else []
  | .read _ _ | .ioctl _ | .poll | .fasync _ | .release => []

/-- The bytes that a call has taken from the queue. -/
def delivered (e : Nat × Call × Result) : List Byte :=
  match e.2.1 with
  | .read _ _ => if 0 ≤ e.2.2.ret then e.2.2.data else []
  | .write _ _ _ | .ioctl _ | .poll | .fasync _ | .release => []

/-- Without a clear, nothing that has passed is forgotten. -/
theorem passed_of_noClear {log : List (Nat × Call × Result)}
    (h : ∀ e ∈ log, e.2.1 ≠ .ioctl FIFO_CLEAR) :
    passed log = (log.flatMap accepted, log.flatMap delivered) := by
  have hstep : ∀ acc (e : Nat × Call × Result), e.2.1 ≠ .ioctl FIFO_CLEAR →
      passedStep acc e = (acc.1 ++ accepted e, acc.2 ++ delivered e) := by
    rintro ⟨ins, outs⟩ ⟨p, c, r⟩ hc
    cases c with
    | read =>
      simp only [passedStep, accepted, delivered]
      split <;> simp
    | write =>
      simp only [passedStep, accepted, delivered]
      split <;> simp
    | ioctl cmd =>
      have hne : cmd ≠ FIFO_CLEAR := fun he => hc (congrArg Call.ioctl he)
      simp [passedStep, accepted, delivered, hne]
    | poll | fasync | release => simp [passedStep, accepted, delivered]
  have key : ∀ (log : List (Nat × Call × Result)) (acc : List Byte × List Byte),
      (∀ e ∈ log, e.2.1 ≠ .ioctl FIFO_CLEAR) → log.foldl passedStep acc =
        (acc.1 ++ log.flatMap accepted, acc.2 ++ log.flatMap delivered) := by
    intro log
    induction log with
    | nil => simp
    | cons e log ih =>
      intro acc h
      rw [List.foldl_cons, ih _ fun d hd => h d (.tail _ hd), hstep acc e (h e (.head _))]
      simp
  exact key log ([], []) h

/-- A label of another process that takes nothing from the queue. -/
def Act.Feeds : Act → Prop
  | .call _ _ c => (∀ count nonblock, c ≠ .read count nonblock) ∧ c ≠ .ioctl FIFO_CLEAR
  | .run _ _ | .wakeup _ | .signal _ => True

namespace Epoll

/-- What the callers of the driver see of a step. -/
def observe (me fifofd : Nat) (s : State) (a : Act) : Option (CallEvent Nat Call Result) :=
  Globalfifo.observe s.drv (a.drives me fifofd s)

/-- The condition on a step: only the program reads, nobody clears, and `memcpy` is covered. -/
def Feeds (cp : Copier Byte) (me fifofd : Nat) (s : State) (a : Act) : Prop :=
  (∀ b, a = .env b → b.Feeds) ∧ MemcpyDefined cp s.drv (a.drives me fifofd s)

/-- The program and the driver hold the queue `q`, and nobody clears it. -/
structure Flowing (me : Nat) (s : State) (q : List Byte) : Prop where
  inv : Inv me s
  queued : Queued s.drv
  readers : Attended s.drv .r
  sim : Sim s.drv q
  noClear : ∀ p, (s.drv.proc p).call ≠ .ioctl FIFO_CLEAR

section
variable {W : LongWidth} {cp : Copier Byte} {async : Bool} {me fifofd : Nat} {s s' : State}
  {q : List Byte} {a : Act} {as : List Act}

/-- The program calls no clear. -/
theorem Feeds.not_clear (h : Feeds cp me fifofd s a) {p file : Nat} {c : Call}
    (ha : a.drives me fifofd s = .call p file c) :
    c ≠ .ioctl FIFO_CLEAR ∧ ∀ count nonblock, c = .read count nonblock → p = me := by
  cases a with
  | env b =>
    have hb : b = .call p file c := ha
    have hfeeds := h.1 b rfl
    rw [hb] at hfeeds
    exact ⟨hfeeds.2, fun count nonblock hc => absurd hc (hfeeds.1 count nonblock)⟩
  | run => cases ha
  | next =>
    simp only [Act.drives, Globalfifo.Act.call.injEq] at ha
    obtain ⟨rfl, -, rfl⟩ := ha
    refine ⟨?_, fun _ _ _ => rfl⟩
    split
    · exact Call.noConfusion
    · exact Call.noConfusion

/-- **One step of the program and its fellows** is one move of the queue, or none. -/
theorem Flowing.step (h : Flowing me s q) (ha : Feeds cp me fifofd s a)
    (hs : Epoll.step W cp async me fifofd s a = some s') :
    ∃ q', Flowing me s' q' ∧ byteQueue.Move q (fun p => (s.drv.proc p).phase)
      (observe me fifofd s a) q' (fun p => (s'.drv.proc p).phase) := by
  have hd := step_drives hs
  obtain ⟨q', hsim, hmove⟩ := h.sim.step ha.2 hd
  obtain ⟨hqueued, hreaders⟩ := attended_step h.queued h.readers hs
  refine ⟨q', ⟨h.inv.step hs, hqueued, hreaders, hsim, fun p => ?_⟩, hmove⟩
  cases hb : a.drives me fifofd s with
  | call r file c =>
    rw [hb] at hd
    simp only [Globalfifo.step] at hd
    split at hd
    · rw [← Option.some.inj hd]
      rcases eq_or_ne p r with rfl | hne
      · simpa using (ha.not_clear hb).1
      · simpa [Function.update_of_ne hne] using h.noClear p
    · cases hd
  | run r limit =>
    rw [hb] at hd
    obtain ⟨e, he, hput⟩ := Option.map_eq_some_iff.1 hd
    rw [← hput, State.put_proc]
    rcases eq_or_ne p r with rfl | hne
    · rw [Function.update_self, (procStep_call he).1]
      exact h.noClear p
    · rw [Function.update_of_ne hne]
      exact h.noClear p
  | wakeup r | signal r =>
    rw [hb] at hd
    rw [← Option.some.inj hd]
    exact h.noClear p

/-- Before the first step. -/
theorem Flowing.init : Flowing me ⟨.init, .start, false, false⟩ byteQueue.init :=
  ⟨.init, .init, .init _, .init, fun _ => Call.noConfusion⟩

/-- The history of the program, the driver and its other callers. -/
def history (W : LongWidth) (cp : Copier Byte) (async : Bool) (me fifofd : Nat) (as : List Act) :
    List (CallEvent Nat Call Result) :=
  (machine W cp async me fifofd).events (observe me fifofd) ⟨.init, .start, false, false⟩ as

/-- Only the program reads, and nobody clears. -/
theorem history_calls
    (hr : (machine W cp async me fifofd).Run (Feeds cp me fifofd) ⟨.init, .start, false, false⟩
      as s)
    {p : Nat} {c : Call} (hc : .call p c ∈ history W cp async me fifofd as) :
    c ≠ .ioctl FIFO_CLEAR ∧ ∀ count nonblock, c = .read count nonblock → p = me := by
  have hall : ∀ e ∈ history W cp async me fifofd as, ∀ p c, e = .call p c →
      c ≠ .ioctl FIFO_CLEAR ∧ ∀ count nonblock, c = .read count nonblock → p = me :=
    hr.forall_events fun u b e hb he => by
    rintro p c rfl
    unfold observe Globalfifo.observe at he
    split at he
    · next r file d hd =>
      cases he
      exact hb.not_clear hd
    · split at he <;> cases he
    · cases he
    · cases he
  exact hall _ hc p c rfl

/-- **What is read is what is written.** In every run in which only the program reads, nobody clears
and each read's `memcpy` has disjoint ranges or moves down rightly, when nothing can step any more
there is an order of the completed calls, each process's own, in which every one of them does what
the byte queue does and the last leaves it empty, and the bytes that the program's reads have
delivered are those that the writes have taken in this order. Where only one process writes they are
its bytes, in the order in which it has written them. -/
theorem readsAreWrites
    (hr : (machine W cp async me fifofd).Run (Feeds cp me fifofd) ⟨.init, .start, false, false⟩
      as s)
    (hrest : Rest W cp async me fifofd s) :
    (∃ order, (∀ p, order.filter (·.1 = p) =
        (completed (history W cp async me fifofd as)).filter (·.1 = p)) ∧
      byteQueue.Legal [] order [] ∧
      (completed (history W cp async me fifofd as)).flatMap delivered = order.flatMap accepted) ∧
    ∀ p, (∀ r buf count nonblock,
        .call r (.write buf count nonblock) ∈ history W cp async me fifofd as → r = p) →
      (completed (history W cp async me fifofd as)).flatMap delivered =
        (completed (history W cp async me fifofd as)).flatMap accepted := by
  obtain ⟨q, order, hflow, htrace⟩ := hr.trace (fun s p => (s.drv.proc p).phase) (Flowing me)
    Flowing.init (fun _ => rfl) fun _ _ _ _ h hC hs => h.step hC hs
  have hempty : q = [] := by
    rw [← hflow.sim.content, ← List.length_eq_zero_iff, Dev.length_content]
    exact hflow.inv.empty_of_rest hflow.readers hrest
  subst hempty
  -- Who has not returned is asleep, before the instant of its call.
  have htail : ∀ p, ((s.drv.proc p).phase).tail p = [] := by
    obtain ⟨-, hprocs⟩ :=
      (settled_iff_atRest_of hflow.inv.exclusive hflow.inv.onPath).1 hrest.1
    intro p
    rcases hprocs p with hidle | ⟨-, -, hsched, -⟩
    · simp [Proc.phase, hidle, Phase.tail]
    · simp [Proc.phase, hsched, Phase.tail]
  have hfilter : ∀ p, order.filter (·.1 = p) =
      (completed (history W cp async me fifofd as)).filter (·.1 = p) := fun p => by
    have hlog := htrace.log_filter.2 p
    rwa [htail p, List.append_nil] at hlog
  have hcalled : ∀ e ∈ order, .call e.1 e.2.1 ∈ history W cp async me fifofd as :=
    htrace.called.2
  have hmem : ∀ e ∈ completed (history W cp async me fifofd as), e ∈ order := fun e he => by
    have hown : e ∈ (completed (history W cp async me fifofd as)).filter (·.1 = e.1) :=
      List.mem_filter.2 ⟨he, by simp⟩
    rw [← hfilter] at hown
    exact (List.mem_filter.1 hown).1
  have hreads : ∀ e ∈ order, e.1 ≠ me → delivered e = [] := by
    rintro ⟨p, c, r⟩ he hne
    cases c with
    | read count nonblock => exact absurd ((history_calls hr (hcalled _ he)).2 _ _ rfl) hne
    | write | ioctl | poll | fasync | release => rfl
  have hsame : order.flatMap delivered = order.flatMap accepted := by
    have hpassed := passed_of_legal htrace.legal
    rw [passed_of_noClear fun e he => (history_calls hr (hcalled e he)).1, List.append_nil]
      at hpassed
    exact hpassed.symm
  have hout : (completed (history W cp async me fifofd as)).flatMap delivered =
      order.flatMap delivered :=
    flatMap_eq_of_filter me (fun e he => hreads e (hmem e he)) hreads (hfilter me).symm
  refine ⟨⟨order, hfilter, htrace.legal, hout.trans hsame⟩, fun p hp => ?_⟩
  have hwrites : ∀ e ∈ order, e.1 ≠ p → accepted e = [] := by
    rintro ⟨r, c, res⟩ he hne
    cases c with
    | write buf count nonblock => exact absurd (hp _ _ _ _ (hcalled _ he)) hne
    | read | ioctl | poll | fasync | release => rfl
  rw [hout, hsame]
  exact flatMap_eq_of_filter p hwrites (fun e he => hwrites e (hmem e he)) (hfilter p)

end

/-- A step of process `0` or `1` that clears nothing, where only process `0` reads. -/
def feedStep (s : State) (a : Act) : Bool :=
  pairStep s a && match a with
    | .env (.call _ _ (.write _ _ _)) | .env (.run _ _) | .run | .next => true
    | .env (.call _ _ (.read _ _)) | .env (.call _ _ (.ioctl _)) | .env (.call _ _ .poll)
    | .env (.call _ _ (.fasync _)) | .env (.call _ _ .release) | .env (.wakeup _)
    | .env (.signal _) => false

theorem ascending_movesDown : (Copier.ascending : Copier Byte).MovesDown :=
  fun m _ _ n hle => Copier.ascend_eq m n (.inl hle)

theorem feeds_of_feedStep {s : State} {a : Act} (h : feedStep s a = true) :
    Feeds Copier.ascending 0 8 s a ∧ ∀ b, a = .env b → b.pid = 1 := by
  obtain ⟨hpair, hfeed⟩ := Bool.and_eq_true_iff.1 h
  have hcovered : ∀ b, MemcpyDefined Copier.ascending s.drv b := by
    rintro (_ | _ | _ | _)
    · trivial
    · exact fun _ _ _ _ _ => .inr ascending_movesDown
    · trivial
    · trivial
  refine ⟨⟨?_, hcovered _⟩, ?_⟩
  · rintro b rfl
    cases b with
    | call p file c =>
      cases c with
      | write => exact ⟨fun _ _ => Call.noConfusion, Call.noConfusion⟩
      | read | ioctl | poll | fasync | release => cases hfeed
    | run | wakeup | signal => trivial
  · rintro b rfl
    exact of_decide_eq_true hpair

/-- The 150 bytes that process `1` has written are those that the two reads have delivered. -/
theorem restRead_readsAreWrites : ∃ s,
    (machine .w64 Copier.ascending true 0 8).Run (Feeds Copier.ascending 0 8)
        ⟨.init, .start, false, false⟩ (partlyRead ++ restRead) s ∧
      Rest .w64 Copier.ascending true 0 8 s ∧
      (completed (history .w64 Copier.ascending true 0 8 (partlyRead ++ restRead))).flatMap
        delivered = List.replicate 150 7 := by
  have hrun : ((machine .w64 Copier.ascending true 0 8).runChecked feedStep
      ⟨.init, .start, false, false⟩ (partlyRead ++ restRead)).map
      (fun s => ((s.drv.dev.mutex, (s.drv.proc 0).pc, (s.drv.proc 1).pc), s.pc, s.ready)) =
        some ((none, .idle, .idle), .epollWait, false) := by
    decide +kernel
  obtain ⟨s, hs, hend⟩ := Option.map_eq_some_iff.1 hrun
  obtain ⟨hdrv, hend⟩ := Prod.mk.inj hend
  obtain ⟨hmutex, hdrv⟩ := Prod.mk.inj hdrv
  obtain ⟨hboth, hidle⟩ := @Machine.Run.of_checked _ _ (machine .w64 Copier.ascending true 0 8)
    (fun s a => Feeds Copier.ascending 0 8 s a ∧ ∀ b, a = .env b → b.pid = 1) OthersIdle feedStep
    (fun _ _ _ hchk => feeds_of_feedStep hchk)
    (fun _ _ _ hI hchk hs => hI.step (Bool.and_eq_true_iff.1 hchk).1 hs) _ _ _ (fun _ _ _ => rfl) hs
  have hr := hboth.imp fun _ _ h => h.1
  have hinv : Inv 0 s := hr.invariant .init fun _ _ _ hI _ hs => hI.step hs
  have hrest := hidle.rest hinv ⟨hmutex, Prod.mk.inj hdrv⟩ (Prod.mk.inj hend)
  refine ⟨s, hr, hrest, ((readsAreWrites hr hrest).2 1 fun r buf count nonblock hw => ?_).trans ?_⟩
  · refine hboth.forall_events (P := fun e => ∀ r buf count nonblock,
      e = .call r (.write buf count nonblock) → r = 1) (fun u b e hb he => ?_) _ hw _ _ _ _ rfl
    rintro r buf count nonblock rfl
    unfold observe Globalfifo.observe at he
    split at he
    · next p file c hc =>
      cases he
      cases b with
      | env b => exact hb.2 b rfl ▸ congrArg Globalfifo.Act.pid hc.symm
      | run => cases hc
      | next =>
        simp only [Act.drives, Globalfifo.Act.call.injEq] at hc
        obtain ⟨-, -, hc⟩ := hc
        split at hc <;> cases hc
    · split at he <;> cases he
    · cases he
    · cases he
  · decide +kernel

end Epoll

end LinuxTraining.Globalfifo
