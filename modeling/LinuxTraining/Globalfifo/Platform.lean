import LinuxTraining.Globalfifo.Lock

/-!
# `ch12/globalfifo.c`: the lifetime of `struct globalfifo_dev`

`globalfifo_probe` allocates the structure with `devm_kzalloc` and registers its `miscdev`;
`globalfifo_remove` only deregisters it, and the structure is freed when it has returned. An open
file keeps its pointer to the structure and its calls go on: `removeWhileAsleep_usesFreed` is a run
in which a sleeping read does. `noUseAfterFree_of_freesUnused` is the safety of the runs in which
each structure is freed without a file open on it.

Each successful probe makes an instance, with its own machine of `Globalfifo.machine`. A process
that calls on files of two instances counts as a process in each.
-/

namespace LinuxTraining.Globalfifo.Platform

open Lib

/-- A file descriptor: closed, open on an instance, or in `globalfifo_release`. -/
inductive FileState
  | closed
  | opened (k : Nat)
  | closing (k : Nat)
  deriving DecidableEq

/-- The instance that a file holds a pointer to. -/
def FileState.on : FileState → Option Nat
  | .closed => none
  | .opened k | .closing k => some k

/-- The platform device, the instances and the files. -/
structure System where
  /-- The device state and the processes of each instance. -/
  fifo : Nat → Globalfifo.State
  /-- The memory of the instance has been freed. -/
  freed : Nat → Bool
  /-- The next instance to be made. -/
  next : Nat
  /-- The instance that the platform device is bound to. -/
  bound : Option Nat
  /-- `globalfifo_remove` has run, and its memory is still to be freed. -/
  removing : Bool
  /-- The instance whose `miscdev` is registered. -/
  minor : Option Nat
  file : Nat → FileState
  /-- The processes in a call on a file, which hold a reference to it. -/
  users : Nat → List Nat
  /-- A file operation has touched freed memory. -/
  uaf : Bool

/-- How a probe ends: success, no memory, or a failure of `misc_register`. -/
inductive ProbeResult
  | ok
  | noMem
  | noMinor

/-- One step of the schedule: a probe; an open; a call on a file; the last `close` of a file; a
step of a process in an instance; a wakeup for no reason; a signal; `globalfifo_remove`, from the
unregistration of the device or from unbinding; the freeing of the memory. -/
inductive Act
  | probe (r : ProbeResult)
  | openFile (fd : Nat)
  | call (p fd : Nat) (c : Call)
  | close (p fd : Nat)
  | run (k p : Nat) (limit : Option Fault)
  | wakeup (k p : Nat)
  | signal (k p : Nat)
  | remove
  | free

/-- The program points whose step reads or writes the structure. -/
def Pc.Touches : Pc → Bool
  | .lock | .addWait | .test | .unlock1 | .relock | .copy | .wake | .killFasync | .out | .out2
  | .clear | .pollWait | .mask | .fasync => true
  | .idle | .setState | .schedule | .sigTest | .setRunning | .ret | .switch => false

section
variable (W : LongWidth) (cp : Copier Byte)

/-- A step of the machine of instance `k`. -/
def System.fifoStep (s : System) (k : Nat) (a : Globalfifo.Act) : Option System :=
  (Globalfifo.step W cp true (s.fifo k) a).map fun t =>
    { s with fifo := Function.update s.fifo k t }

/-- What the return of a call does to its file: the call's reference goes, and after
`globalfifo_release` the file is closed. -/
def System.returned (s : System) (p : Nat) (x : Proc) : System :=
  match x.call with
  | .release => { s with file := Function.update s.file x.file .closed }
  | _ => { s with users := Function.update s.users x.file ((s.users x.file).erase p) }

/-- One step of the schedule. -/
def step (s : System) : Act → Option System
  | .probe r =>
    match s.bound, r with
    | none, .ok =>
      some { s with next := s.next + 1, bound := some s.next, minor := some s.next }
    | none, .noMem => some s
    | none, .noMinor =>
      some { s with next := s.next + 1, freed := Function.update s.freed s.next true }
    | some _, _ => none
  | .openFile fd =>
    match s.file fd, s.minor with
    | .closed, some k => some { s with file := Function.update s.file fd (.opened k) }
    | _, _ => none
  | .call p fd c =>
    match s.file fd, c with
    | .opened _, .release => none
    | .opened k, c =>
      (s.fifoStep W cp k (.call p fd c)).map fun t =>
        { t with users := Function.update t.users fd (p :: t.users fd) }
    | _, _ => none
  | .close p fd =>
    match s.file fd, s.users fd with
    | .opened k, [] =>
      (s.fifoStep W cp k (.call p fd .release)).map fun t =>
        { t with file := Function.update t.file fd (.closing k) }
    | _, _ => none
  | .run k p limit =>
    (s.fifoStep W cp k (.run p limit)).map fun t =>
      let x := (s.fifo k).proc p
      let t := { t with uaf := t.uaf || (s.freed k && Pc.Touches x.pc) }
      if x.pc = .ret then t.returned p x else t
  | .wakeup k p => s.fifoStep W cp k (.wakeup p)
  | .signal k p => s.fifoStep W cp k (.signal p)
  | .remove =>
    match s.bound, s.removing with
    | some _, false => some { s with minor := none, removing := true }
    | _, _ => none
  | .free =>
    match s.bound, s.removing with
    | some k, true =>
      some { s with freed := Function.update s.freed k true, bound := none, removing := false }
    | _, _ => none

/-- No instance, no file. -/
def System.init : System where
  fifo _ := .init
  freed _ := false
  next := 0
  bound := none
  removing := false
  minor := none
  file _ := .closed
  users _ := []
  uaf := false

/-- The platform driver, its device and the processes that use it. -/
def machine : Machine System Act where
  init s := s = .init
  step := step W cp

end

/-- The condition on a step: memory is freed when no file is open on its instance. -/
def FreesUnused (s : System) : Act → Prop
  | .free => ∀ k, s.bound = some k → ∀ fd, (s.file fd).on ≠ some k
  | _ => True

/-! ## The invariant -/

/-- A process of an instance that is in a call. -/
def Busy (s : System) (k p : Nat) : Prop := ((s.fifo k).proc p).pc ≠ .idle

/-- The file that a process of an instance calls on. -/
def fileOf (s : System) (k p : Nat) : Nat := ((s.fifo k).proc p).file

/-- The process is in `globalfifo_release`. -/
def Releasing (s : System) (k p : Nat) : Prop := ((s.fifo k).proc p).call = .release

/-- Who is in a call holds a file of the instance: as one of its users, or as the one process that
closes it; and freed memory has no file. -/
structure Sound (s : System) : Prop where
  uaf : s.uaf = false
  fresh : ∀ k, s.next ≤ k → s.freed k = false
  bound : ∀ k, s.bound = some k → k < s.next ∧ s.freed k = false
  minor : ∀ k, s.minor = some k → s.bound = some k ∧ s.removing = false
  user : ∀ k p, Busy s k p → ¬ Releasing s k p →
    s.file (fileOf s k p) = .opened k ∧ p ∈ s.users (fileOf s k p)
  closer : ∀ k p, Busy s k p → Releasing s k p → s.file (fileOf s k p) = .closing k
  alone : ∀ k p q, Busy s k p → Releasing s k p → Busy s k q → Releasing s k q →
    fileOf s k p = fileOf s k q → p = q
  freed : ∀ k, s.freed k = true → ∀ fd, (s.file fd).on ≠ some k
  made : ∀ k fd, (s.file fd).on = some k → k < s.next
  idle : s.bound = none → s.removing = false

/-- A process in a call holds a file of the instance. -/
theorem Sound.on_of_busy {s : System} (h : Sound s) {k p : Nat} (hb : Busy s k p) :
    (s.file (fileOf s k p)).on = some k := by
  by_cases hr : Releasing s k p
  · rw [h.closer k p hb hr]
    rfl
  · rw [(h.user k p hb hr).1]
    rfl

section
variable {W : LongWidth} {cp : Copier Byte} {s s' : System} {k p : Nat}

/-- A user of a file, in a state that has the process as it is in `s`. -/
theorem Sound.user_of_eq (h : Sound s) {x : Proc} (hx : x = (s.fifo k).proc p)
    (hb : x.pc ≠ .idle) (hr : x.call ≠ .release) :
    s.file x.file = .opened k ∧ p ∈ s.users x.file := by
  subst hx
  exact h.user k p hb hr

/-- A process that closes its file, in a state that has it as it is in `s`. -/
theorem Sound.closer_of_eq (h : Sound s) {x : Proc} (hx : x = (s.fifo k).proc p)
    (hb : x.pc ≠ .idle) (hr : x.call = .release) : s.file x.file = .closing k := by
  subst hx
  exact h.closer k p hb hr

/-- Two processes that close one file, in a state that has both as they are in `s`. -/
theorem Sound.alone_of_eq (h : Sound s) {q : Nat} {x y : Proc} (hx : x = (s.fifo k).proc p)
    (hy : y = (s.fifo k).proc q) (hb : x.pc ≠ .idle) (hr : x.call = .release)
    (hb' : y.pc ≠ .idle) (hr' : y.call = .release) (he : x.file = y.file) : p = q := by
  subst hx hy
  exact h.alone k p q hb hr hb' hr' he

/-- The invariant reads of the machines only who is in a call, with what call and on what file. -/
theorem Sound.of_fifo (h : Sound s) {f : Nat → Globalfifo.State} {u : Bool} (hu : u = false)
    (hf : ∀ k p, ((f k).proc p).pc ≠ .idle →
      Busy s k p ∧ ((f k).proc p).call = ((s.fifo k).proc p).call ∧
        ((f k).proc p).file = fileOf s k p) :
    Sound { s with fifo := f, uaf := u } := by
  refine ⟨hu, h.fresh, h.bound, h.minor, fun k p hb hr => ?_, fun k p hb hr => ?_,
    fun k p q hb hr hb' hr' he => ?_, h.freed, h.made, h.idle⟩
  · obtain ⟨hbusy, hcall, hfile⟩ := hf k p hb
    have hr' : ¬ Releasing s k p := fun hrel => hr (hcall.trans hrel)
    change s.file ((f k).proc p).file = _ ∧ p ∈ s.users ((f k).proc p).file
    rw [hfile]
    exact h.user k p hbusy hr'
  · obtain ⟨hbusy, hcall, hfile⟩ := hf k p hb
    change s.file ((f k).proc p).file = _
    rw [hfile]
    exact h.closer k p hbusy (hcall.symm.trans hr)
  · obtain ⟨hbusy, hcall, hfile⟩ := hf k p hb
    obtain ⟨hbusy', hcall', hfile'⟩ := hf k q hb'
    exact h.alone k p q hbusy (hcall.symm.trans hr) hbusy' (hcall'.symm.trans hr')
      (hfile.symm.trans (he.trans hfile'))

/-- A step of a process in an instance. -/
theorem run_proc {d t : Globalfifo.State} {limit : Option Fault}
    (h : Globalfifo.step W cp true d (.run p limit) = some t) :
    (d.proc p).pc ≠ .idle ∧ ((d.proc p).pc = .ret → (t.proc p).pc = .idle) ∧
      (t.proc p).call = (d.proc p).call ∧ (t.proc p).file = (d.proc p).file := by
  obtain ⟨e, he, rfl⟩ := Option.map_eq_some_iff.1 h
  obtain ⟨hcall, hfile⟩ := procStep_call he
  rw [State.put_proc, Function.update_self]
  refine ⟨fun hidle => ?_, fun hret => ?_, hcall, hfile⟩
  · unfold procStep at he
    rw [hidle] at he
    cases he
  · unfold procStep at he
    rw [hret] at he
    cases he
    rfl

/-- The processes of the instances after a step of process `p` in instance `k`. -/
theorem update_proc {t : Globalfifo.State} {a : Globalfifo.Act}
    (h : Globalfifo.step W cp true (s.fifo k) a = some t) (k' q : Nat)
    (hne : k' ≠ k ∨ q ≠ a.pid) :
    ((Function.update s.fifo k t) k').proc q = (s.fifo k').proc q := by
  rcases eq_or_ne k' k with rfl | hk
  · rw [Function.update_self]
    exact step_proc_of_ne h (hne.resolve_left fun hn => hn rfl)
  · rw [Function.update_of_ne hk]

/-- A step of an instance that leaves its process in its call keeps the invariant. -/
theorem Sound.quiet (h : Sound s) {a : Globalfifo.Act} {t : Globalfifo.State} {u : Bool}
    (hu : u = false) (hs : Globalfifo.step W cp true (s.fifo k) a = some t)
    (ha : (t.proc a.pid).pc ≠ .idle → Busy s k a.pid ∧
      (t.proc a.pid).call = ((s.fifo k).proc a.pid).call ∧
        (t.proc a.pid).file = fileOf s k a.pid) :
    Sound { s with fifo := Function.update s.fifo k t, uaf := u } := by
  refine h.of_fifo hu fun k' q hq => ?_
  by_cases hkq : k' = k ∧ q = a.pid
  · obtain ⟨rfl, rfl⟩ := hkq
    rw [Function.update_self] at hq ⊢
    exact ha hq
  · have hsame := update_proc hs k' q (not_and_or.1 hkq)
    rw [hsame] at hq ⊢
    exact ⟨hq, rfl, rfl⟩

/-- A step of a process within its call. -/
theorem Sound.run (h : Sound s) {t : Globalfifo.State} {limit : Option Fault}
    (hs : Globalfifo.step W cp true (s.fifo k) (.run p limit) = some t) :
    Sound { s with fifo := Function.update s.fifo k t,
                   uaf := s.uaf || (s.freed k && Pc.Touches ((s.fifo k).proc p).pc) } := by
  obtain ⟨hbusy, -, hcall, hfile⟩ := run_proc hs
  have hlive : s.freed k = false := by
    by_contra hfreed
    exact h.freed k (by simpa using hfreed) _ (h.on_of_busy hbusy)
  refine h.quiet ?_ hs fun _ => ⟨hbusy, hcall, hfile⟩
  rw [h.uaf, hlive]
  rfl

/-- A call that returns lets go of its file. -/
theorem Sound.returned (h : Sound s) {x : Proc} (hcall : x.call = ((s.fifo k).proc p).call)
    (hfile : x.file = fileOf s k p) (hb : Busy s k p) {f : Nat → Globalfifo.State}
    (hf : ∀ k' q, ((f k').proc q).pc ≠ .idle →
      ¬ (k' = k ∧ q = p) ∧ (f k').proc q = (s.fifo k').proc q) :
    Sound ({ s with fifo := f }.returned p x) := by
  have hbusy : ∀ {k' q}, ((f k').proc q).pc ≠ .idle → Busy s k' q := by
    intro k' q hq
    rw [(hf k' q hq).2] at hq
    exact hq
  unfold System.returned
  split
  · next hrel =>
    have hrel' : Releasing s k p := hcall.symm.trans hrel
    have hclosing := h.closer k p hb hrel'
    -- no other process is on the file that closes
    have hfree : ∀ {k' q}, ((f k').proc q).pc ≠ .idle → ((f k').proc q).file ≠ x.file := by
      intro k' q hq he
      have he : fileOf s k' q = fileOf s k p :=
        (congrArg Proc.file (hf k' q hq).2).symm.trans (he.trans hfile)
      by_cases hr : Releasing s k' q
      · have hq' := h.closer k' q (hbusy hq) hr
        rw [he, hclosing] at hq'
        cases hq'
        exact (hf k q hq).1 ⟨rfl, (h.alone k p q hb hrel' (hbusy hq) hr he.symm).symm⟩
      · have hq' := (h.user k' q (hbusy hq) hr).1
        rw [he, hclosing] at hq'
        cases hq'
    have hstill : ∀ {k' fd}, (Function.update s.file x.file .closed fd).on = some k' →
        (s.file fd).on = some k' := by
      intro k' fd hon
      rcases eq_or_ne fd x.file with rfl | hne
      · rw [Function.update_self] at hon
        cases hon
      · rwa [Function.update_of_ne hne] at hon
    refine ⟨h.uaf, h.fresh, h.bound, h.minor, fun k' q hq hr => ?_, fun k' q hq hr => ?_,
      fun k' q r hq hr hq' hr' he => ?_, fun k' hk fd hon => h.freed k' hk fd (hstill hon),
      fun k' fd hon => h.made k' fd (hstill hon), h.idle⟩
    · obtain ⟨hfd, hmem⟩ := h.user_of_eq (hf k' q hq).2 hq hr
      exact ⟨(Function.update_of_ne (hfree hq) ..).trans hfd, hmem⟩
    · exact (Function.update_of_ne (hfree hq) ..).trans (h.closer_of_eq (hf k' q hq).2 hq hr)
    · exact h.alone_of_eq (hf k' q hq).2 (hf k' r hq').2 hq hr hq' hr' he
  · next hrel =>
    have hrel' : ¬ Releasing s k p := fun hr => hrel (hcall.trans hr)
    have hopen := (h.user k p hb hrel').1
    refine ⟨h.uaf, h.fresh, h.bound, h.minor, fun k' q hq hr => ?_, fun k' q hq hr => ?_,
      fun k' q r hq hr hq' hr' he => ?_, h.freed, h.made, h.idle⟩
    · obtain ⟨hfd, hmem⟩ := h.user_of_eq (hf k' q hq).2 hq hr
      refine ⟨hfd, ?_⟩
      change q ∈ (Function.update s.users x.file ((s.users x.file).erase p)) ((f k').proc q).file
      rcases eq_or_ne ((f k').proc q).file x.file with he | hne
      · -- the process is on the same file, so on the same instance, and is another one
        have hk : k' = k := by
          rw [he, hfile, hopen] at hfd
          exact (FileState.opened.inj hfd).symm
        subst hk
        have hpq : q ≠ p := fun hp => (hf k' q hq).1 ⟨rfl, hp⟩
        rw [he] at hmem ⊢
        rw [Function.update_self]
        exact (List.mem_erase_of_ne hpq).2 hmem
      · rwa [Function.update_of_ne hne]
    · exact h.closer_of_eq (hf k' q hq).2 hq hr
    · exact h.alone_of_eq (hf k' q hq).2 (hf k' r hq').2 hq hr hq' hr' he

/-- A process that starts a call was idle, and is now in it. -/
theorem call_proc {d t : Globalfifo.State} {fd : Nat} {c : Call}
    (h : Globalfifo.step W cp true d (.call p fd c) = some t) :
    (t.proc p).call = c ∧ (t.proc p).file = fd := by
  simp only [Globalfifo.step] at h
  split at h
  · cases h
    dsimp only
    rw [Function.update_self]
    exact ⟨rfl, rfl⟩
  · cases h

/-- A call starts on an open file. -/
theorem Sound.call (h : Sound s) {fd : Nat} {c : Call} {t : Globalfifo.State}
    (hfd : s.file fd = .opened k) (hc : c ≠ .release)
    (hs : Globalfifo.step W cp true (s.fifo k) (.call p fd c) = some t) :
    Sound { s with fifo := Function.update s.fifo k t,
                   users := Function.update s.users fd (p :: s.users fd) } := by
  obtain ⟨hcall, hfile⟩ := call_proc hs
  have hmem : ∀ {q fd'}, q ∈ s.users fd' →
      q ∈ (Function.update s.users fd (p :: s.users fd)) fd' := by
    intro q fd' hq
    rcases eq_or_ne fd' fd with rfl | hne
    · rw [Function.update_self]
      exact List.mem_cons_of_mem _ hq
    · rwa [Function.update_of_ne hne]
  -- a process that releases is not the one that starts the call
  have hother : ∀ {k' q}, (((Function.update s.fifo k t) k').proc q).call = .release →
      ¬ (k' = k ∧ q = p) := by
    intro k' q hr hkq
    obtain ⟨rfl, rfl⟩ := hkq
    rw [Function.update_self, hcall] at hr
    exact hc hr
  refine ⟨h.uaf, h.fresh, h.bound, h.minor, fun k' q hq hr => ?_, fun k' q hq hr => ?_,
    fun k' q r hq hr hq' hr' he => ?_, h.freed, h.made, h.idle⟩
  · by_cases hkq : k' = k ∧ q = p
    · obtain ⟨rfl, rfl⟩ := hkq
      change s.file (((Function.update s.fifo k' t) k').proc q).file = _ ∧
        q ∈ (Function.update s.users fd (q :: s.users fd))
          (((Function.update s.fifo k' t) k').proc q).file
      rw [Function.update_self, hfile, Function.update_self]
      exact ⟨hfd, List.mem_cons_self ..⟩
    · obtain ⟨hopen, huser⟩ := h.user_of_eq (update_proc hs k' q (not_and_or.1 hkq)) hq hr
      exact ⟨hopen, hmem huser⟩
  · exact h.closer_of_eq (update_proc hs k' q (not_and_or.1 (hother hr))) hq hr
  · exact h.alone_of_eq (update_proc hs k' q (not_and_or.1 (hother hr)))
      (update_proc hs k' r (not_and_or.1 (hother hr'))) hq hr hq' hr' he

/-- The last reference to a file goes. -/
theorem Sound.close (h : Sound s) {fd : Nat} {t : Globalfifo.State}
    (hfd : s.file fd = .opened k) (hu : s.users fd = [])
    (hs : Globalfifo.step W cp true (s.fifo k) (.call p fd .release) = some t) :
    Sound { s with fifo := Function.update s.fifo k t,
                   file := Function.update s.file fd (.closing k) } := by
  obtain ⟨hcall, hfile⟩ := call_proc hs
  have hclosing : ((Function.update s.fifo k t) k).proc p = t.proc p := by
    rw [Function.update_self]
  -- nobody else is in a call on the file
  have hfree : ∀ {k' q} {x : Proc}, x = (s.fifo k').proc q → x.pc ≠ .idle → x.file ≠ fd := by
    intro k' q x hx hq he
    by_cases hr : x.call = .release
    · have hq' := h.closer_of_eq hx hq hr
      rw [he, hfd] at hq'
      cases hq'
    · have hq' := (h.user_of_eq hx hq hr).2
      rw [he, hu] at hq'
      cases hq'
  -- after the step a process is the one that closes, or as it was
  have hcases : ∀ k' q, k' = k ∧ q = p ∨
      (((Function.update s.fifo k t) k').proc q = (s.fifo k').proc q) := by
    intro k' q
    by_cases hkq : k' = k ∧ q = p
    · exact .inl hkq
    · exact .inr (update_proc hs k' q (not_and_or.1 hkq))
  have hon : ∀ fd', (Function.update s.file fd (.closing k) fd').on = (s.file fd').on := by
    intro fd'
    rcases eq_or_ne fd' fd with rfl | hne
    · rw [Function.update_self, hfd]
      rfl
    · rw [Function.update_of_ne hne]
  refine ⟨h.uaf, h.fresh, h.bound, h.minor, fun k' q hq hr => ?_, fun k' q hq hr => ?_,
    fun k' q r hq hr hq' hr' he => ?_, fun k' hk fd' => ?_, fun k' fd' => ?_, h.idle⟩
  · rcases hcases k' q with ⟨rfl, rfl⟩ | hsame
    · exact absurd ((congrArg Proc.call hclosing).trans hcall) hr
    · obtain ⟨hopen, huser⟩ := h.user_of_eq hsame hq hr
      exact ⟨(Function.update_of_ne (hfree hsame hq) ..).trans hopen, huser⟩
  · rcases hcases k' q with ⟨rfl, rfl⟩ | hsame
    · change (Function.update s.file fd (.closing k'))
        (((Function.update s.fifo k' t) k').proc q).file = _
      rw [hclosing, hfile, Function.update_self]
    · exact (Function.update_of_ne (hfree hsame hq) ..).trans (h.closer_of_eq hsame hq hr)
  · rcases hcases k' q with ⟨rfl, rfl⟩ | hqs <;> rcases hcases k' r with ⟨hk, rfl⟩ | hrs
    · rfl
    · exact absurd (he.symm.trans ((congrArg Proc.file hclosing).trans hfile)) (hfree hrs hq')
    · subst hk
      exact absurd (he.trans ((congrArg Proc.file hclosing).trans hfile)) (hfree hqs hq)
    · exact h.alone_of_eq hqs hrs hq hr hq' hr' he
  · change (Function.update s.file fd (.closing k) fd').on ≠ _
    rw [hon]
    exact h.freed k' hk fd'
  · change (Function.update s.file fd (.closing k) fd').on = _ → _
    rw [hon]
    exact h.made k' fd'

/-- A step of a process keeps the invariant, also the step that returns. -/
theorem Sound.runStep (h : Sound s) {limit : Option Fault}
    (hs : step W cp s (.run k p limit) = some s') : Sound s' := by
  simp only [step, System.fifoStep, Option.map_map, Option.map_eq_some_iff] at hs
  obtain ⟨t, ht, rfl⟩ := hs
  obtain ⟨hbusy, hret, -, -⟩ := run_proc ht
  have hrun := h.run ht
  dsimp only [Function.comp_apply]
  split
  · next hpc =>
    -- the process is idle now, and the others are as they were
    refine Sound.returned
      (s := { s with uaf := s.uaf || (s.freed k && Pc.Touches ((s.fifo k).proc p).pc) })
      ⟨hrun.uaf, h.fresh, h.bound, h.minor, h.user, h.closer, h.alone, h.freed, h.made, h.idle⟩
      rfl rfl hbusy fun k' q hq => ?_
    have hne : ¬ (k' = k ∧ q = p) := by
      intro hkq
      obtain ⟨rfl, rfl⟩ := hkq
      rw [Function.update_self] at hq
      exact hq (hret hpc)
    exact ⟨hne, update_proc ht k' q (not_and_or.1 hne)⟩
  · exact hrun

/-- A wakeup or a signal leaves the processes where they are. -/
theorem Sound.nudge (h : Sound s) {a : Globalfifo.Act}
    (ha : a = .wakeup p ∨ a = .signal p) (hs : s.fifoStep W cp k a = some s') : Sound s' := by
  obtain ⟨t, ht, rfl⟩ := Option.map_eq_some_iff.1 hs
  refine h.quiet h.uaf ht fun hq => ?_
  rcases ha with rfl | rfl <;> cases ht <;> exact ⟨hq, rfl, rfl⟩

/-- `globalfifo_probe`, whether it succeeds or not. -/
theorem Sound.probe (h : Sound s) {r : ProbeResult} (hs : step W cp s (.probe r) = some s') :
    Sound s' := by
  -- no file is on the instance that the probe makes
  have hnext : ∀ fd, (s.file fd).on ≠ some s.next := fun fd hon =>
    lt_irrefl _ (h.made _ fd hon)
  have hminor : s.bound = none → ∀ k, s.minor ≠ some k := by
    intro hb k hk
    have hk' := (h.minor k hk).1
    rw [hb] at hk'
    cases hk'
  simp only [step] at hs
  split at hs
  · next hb =>
    cases hs
    refine ⟨h.uaf, fun k hk => h.fresh k (Nat.le_of_succ_le hk), fun k hk => ?_,
      fun k hk => ⟨hk, h.idle hb⟩, h.user, h.closer, h.alone, h.freed,
      fun k fd hon => Nat.lt_succ_of_lt (h.made k fd hon), nofun⟩
    cases hk
    exact ⟨Nat.lt_succ_self _, h.fresh _ le_rfl⟩
  · cases hs
    exact h
  · next hb =>
    cases hs
    refine ⟨h.uaf, fun k hk => ?_, fun k hk => ?_, fun k hk => absurd hk (hminor hb k),
      h.user, h.closer, h.alone, fun k hk fd hon => ?_,
      fun k fd hon => Nat.lt_succ_of_lt (h.made k fd hon), h.idle⟩
    · change Function.update s.freed s.next true k = false
      rw [Function.update_of_ne (Nat.ne_of_gt hk)]
      exact h.fresh k (Nat.le_of_succ_le hk)
    · exact absurd (hb.symm.trans hk) nofun
    · change Function.update s.freed s.next true k = true at hk
      rcases eq_or_ne k s.next with rfl | hne
      · exact hnext fd hon
      · rw [Function.update_of_ne hne] at hk
        exact h.freed k hk fd hon
  · cases hs

/-- An open finds a registered instance, which is not freed. -/
theorem Sound.openFile (h : Sound s) {fd : Nat} (hs : step W cp s (.openFile fd) = some s') :
    Sound s' := by
  simp only [step] at hs
  split at hs
  · next k hfd hk =>
    cases hs
    have hbound := h.bound k (h.minor k hk).1
    -- a process that is in a call is on another file
    have hne : ∀ {k' p}, Busy s k' p → fileOf s k' p ≠ fd := by
      intro k' p hb he
      have hon := h.on_of_busy hb
      rw [he, hfd] at hon
      cases hon
    have hon : ∀ {k' fd'}, (Function.update s.file fd (.opened k) fd').on = some k' →
        k' = k ∨ (s.file fd').on = some k' := by
      intro k' fd' hon
      rcases eq_or_ne fd' fd with rfl | hfd'
      · rw [Function.update_self] at hon
        exact .inl (Option.some.inj hon).symm
      · rw [Function.update_of_ne hfd'] at hon
        exact .inr hon
    refine ⟨h.uaf, h.fresh, h.bound, h.minor, fun k' p hb hr => ?_, fun k' p hb hr => ?_,
      h.alone, fun k' hk' fd' hfd' => ?_, fun k' fd' hfd' => ?_, h.idle⟩
    · change (Function.update s.file fd (.opened k)) (fileOf s k' p) = _ ∧ _
      rw [Function.update_of_ne (hne hb)]
      exact h.user k' p hb hr
    · change (Function.update s.file fd (.opened k)) (fileOf s k' p) = _
      rw [Function.update_of_ne (hne hb)]
      exact h.closer k' p hb hr
    · rcases hon hfd' with rfl | hold
      · rw [hbound.2] at hk'
        cases hk'
      · exact h.freed k' hk' fd' hold
    · rcases hon hfd' with rfl | hold
      · exact hbound.1
      · exact h.made k' fd' hold
  · cases hs

/-- `globalfifo_remove` lets no further open in. -/
theorem Sound.remove (h : Sound s) (hs : step W cp s .remove = some s') : Sound s' := by
  simp only [step] at hs
  split at hs
  · next k hk _ =>
    cases hs
    exact ⟨h.uaf, h.fresh, h.bound, nofun, h.user, h.closer, h.alone, h.freed, h.made,
      fun hb => by rw [hk] at hb; cases hb⟩
  · cases hs

/-- The memory of an instance without a file is freed. -/
theorem Sound.free (h : Sound s) (hC : FreesUnused s .free) (hs : step W cp s .free = some s') :
    Sound s' := by
  simp only [step] at hs
  split at hs
  · next k hk hrem =>
    cases hs
    have hlt := (h.bound k hk).1
    refine ⟨h.uaf, fun k' hk' => ?_, nofun, fun k' hk' => ?_, h.user, h.closer, h.alone,
      fun k' hk' fd => ?_, h.made, fun _ => rfl⟩
    · have hne : k' ≠ k := by
        rintro rfl
        exact absurd hlt (not_lt.2 hk')
      change Function.update s.freed k true k' = false
      rw [Function.update_of_ne hne]
      exact h.fresh k' hk'
    · have hrem' := (h.minor k' hk').2
      rw [hrem] at hrem'
      cases hrem'
    · rcases eq_or_ne k' k with rfl | hne
      · exact hC k' hk fd
      · change Function.update s.freed k true k' = true at hk'
        rw [Function.update_of_ne hne] at hk'
        exact h.freed k' hk' fd
  · cases hs

/-- Each step that frees only unused memory keeps the invariant. -/
theorem Sound.step (h : Sound s) {a : Act} (hC : FreesUnused s a)
    (hs : Platform.step W cp s a = some s') : Sound s' := by
  cases a with
  | probe r => exact h.probe hs
  | openFile fd => exact h.openFile hs
  | call p fd c =>
    simp only [Platform.step] at hs
    split at hs
    · cases hs
    · next k c hfd hc =>
      simp only [System.fifoStep, Option.map_map, Option.map_eq_some_iff] at hs
      obtain ⟨t, ht, rfl⟩ := hs
      exact h.call hfd hc ht
    · cases hs
  | close p fd =>
    simp only [Platform.step] at hs
    split at hs
    · next k hfd hu =>
      simp only [System.fifoStep, Option.map_map, Option.map_eq_some_iff] at hs
      obtain ⟨t, ht, rfl⟩ := hs
      exact h.close hfd hu ht
    · cases hs
  | run k p limit => exact h.runStep hs
  | wakeup k p => exact h.nudge (.inl rfl) hs
  | signal k p => exact h.nudge (.inr rfl) hs
  | remove => exact h.remove hs
  | free => exact h.free hC hs

end

/-- Before the first probe. -/
theorem Sound.init : Sound .init where
  uaf := rfl
  fresh _ _ := rfl
  bound := nofun
  minor := nofun
  user _ _ hb := absurd rfl hb
  closer _ _ hb := absurd rfl hb
  alone _ _ _ hb := absurd rfl hb
  freed := nofun
  made := nofun
  idle _ := rfl

/-! ## No use after free -/

/-- When each structure is freed without a file open on it, no file operation touches a structure
that is freed, in any run of any number of processes. -/
theorem noUseAfterFree_of_freesUnused (W : LongWidth) (cp : Copier Byte) {s : System}
    (h : (machine W cp).Reach FreesUnused s) : s.uaf = false := by
  have hsound : Sound s := h.invariant (fun s h => h ▸ Sound.init)
    (fun _ _ _ hs hC hstep => hs.step hC hstep)
  exact hsound.uaf

/-- A file is opened by an open only. -/
theorem closed_of_step {W : LongWidth} {cp : Copier Byte} {s s' : System} {a : Act} {fd : Nat}
    (hs : step W cp s a = some s') (ha : a ≠ .openFile fd) (hfd : s.file fd = .closed) :
    s'.file fd = .closed := by
  cases a with
  | probe r =>
    simp only [step] at hs
    split at hs <;> cases hs <;> exact hfd
  | openFile fd' =>
    have hne : fd ≠ fd' := fun he => ha (by rw [he])
    simp only [step] at hs
    split at hs
    · cases hs
      exact (Function.update_of_ne hne ..).trans hfd
    · cases hs
  | call p fd' c =>
    simp only [step] at hs
    split at hs
    · cases hs
    · simp only [System.fifoStep, Option.map_map, Option.map_eq_some_iff] at hs
      obtain ⟨t, -, rfl⟩ := hs
      exact hfd
    · cases hs
  | close p fd' =>
    simp only [step] at hs
    split at hs
    · next k hopen _ =>
      simp only [System.fifoStep, Option.map_map, Option.map_eq_some_iff] at hs
      obtain ⟨t, -, rfl⟩ := hs
      have hne : fd ≠ fd' := by
        rintro rfl
        rw [hfd] at hopen
        cases hopen
      exact (Function.update_of_ne hne ..).trans hfd
    · cases hs
  | run k p limit =>
    simp only [step, System.fifoStep, Option.map_map, Option.map_eq_some_iff] at hs
    obtain ⟨t, -, rfl⟩ := hs
    dsimp only [Function.comp_apply]
    split
    · unfold System.returned
      split
      · rcases eq_or_ne fd ((s.fifo k).proc p).file with he | hne
        · rw [he]
          exact Function.update_self ..
        · exact (Function.update_of_ne hne ..).trans hfd
      · exact hfd
    · exact hfd
  | wakeup k p | signal k p =>
    simp only [step, System.fifoStep, Option.map_eq_some_iff] at hs
    obtain ⟨t, -, rfl⟩ := hs
    exact hfd
  | remove | free =>
    simp only [step] at hs
    split at hs <;> cases hs
    exact hfd

/-- Process `0` opens a file, writes a byte and closes it, and then the device goes. -/
def writeCloseRemove : List Act :=
  [.probe .ok, .openFile 0, .call 0 0 (.write (fun _ => 7) 1 false)] ++
    List.replicate 9 (Act.run 0 0 none) ++ .close 0 0 :: List.replicate 2 (Act.run 0 0 none) ++
      [.remove, .free]

/-- The structure is freed after the last file is closed, and nothing touches it then. -/
theorem writeCloseRemove_noUseAfterFree :
    ∃ s, (machine .w64 Copier.ascending).Reach FreesUnused s ∧ s.freed 0 = true ∧
      s.file 0 = .closed ∧ s.uaf = false := by
  have hrun : ((machine .w64 Copier.ascending).runChecked
      (fun s a => match a with
        | .openFile fd => decide (fd = 0)
        | .free => decide (s.file 0 = .closed)
        | _ => true) .init writeCloseRemove).map
      (fun s => (s.freed 0, s.file 0)) = some (true, .closed) := by
    decide +kernel
  obtain ⟨s, hs, hend⟩ := Option.map_eq_some_iff.1 hrun
  -- only file `0` is ever open
  obtain ⟨hr, -⟩ := @Machine.Run.of_checked _ _ (machine .w64 Copier.ascending) FreesUnused
    (fun s => ∀ fd, fd ≠ 0 → s.file fd = .closed) _ (fun s a hI hchk => by
      cases a with
      | free =>
        intro k hk fd
        rcases eq_or_ne fd 0 with rfl | hne
        · rw [of_decide_eq_true hchk]
          exact nofun
        · rw [hI fd hne]
          exact nofun
      | _ => trivial)
    (fun s a s' hI hchk hstep fd hne => closed_of_step hstep (fun ha => by
      subst ha
      exact hne (of_decide_eq_true hchk)) (hI fd hne)) _ _ _ (fun _ _ => rfl) hs
  obtain ⟨hfreed, hfile⟩ := Prod.mk.inj hend
  have hreach : (machine .w64 Copier.ascending).Reach FreesUnused s := ⟨_, _, rfl, hr⟩
  exact ⟨s, hreach, hfreed, hfile, noUseAfterFree_of_freesUnused _ _ hreach⟩

/-- Process `0` sleeps in a read of the empty device when the device goes, and a signal wakes it. -/
def removeWhileAsleep : List Act :=
  [.probe .ok, .openFile 0, .call 0 0 (.read 1 false)] ++ List.replicate 5 (Act.run 0 0 none) ++
    [.remove, .free, .signal 0 0] ++ List.replicate 3 (Act.run 0 0 none)

/-- **A sleeping read uses freed memory**: it takes its entry off the wait queue of a structure that
is gone. -/
theorem removeWhileAsleep_usesFreed :
    ¬ ∀ s, (machine .w64 Copier.ascending).Reach Machine.anyStep s → s.uaf = false := by
  intro hall
  have hrun : ((machine .w64 Copier.ascending).runFrom .init removeWhileAsleep).map
      (fun s => (s.freed 0, s.uaf)) = some (true, true) := by
    decide +kernel
  obtain ⟨s, hs, hend⟩ := Option.map_eq_some_iff.1 hrun
  obtain ⟨-, huaf⟩ := Prod.mk.inj hend
  have hreach : (machine .w64 Copier.ascending).Reach Machine.anyStep s :=
    ⟨_, _, rfl, .of_runFrom (fun _ _ _ => trivial) hs⟩
  exact absurd (huaf.symm.trans (hall s hreach)) nofun

end LinuxTraining.Globalfifo.Platform
