import LinuxTraining.Globalfifo.Driver
import LinuxTraining.Globalmem.Mutex
import LinuxTraining.Lib.Publish

/-!
# Loading the character drivers

`globalmem_init` of `ch7` and `globalfifo_init` of `ch8` and `ch9` add their `cdev` before they
initialise the mutex and the wait queues, and `globalfifo_probe` of `ch12` registers its `miscdev`
after. The operations are those of the machines of the drivers. `usable_iff`: with calls that start
when nothing is left to initialise every driver is right, and without this only that of `ch12`.
-/

namespace LinuxTraining.Loading

open Lib Publish

/-- What the drivers initialise: `mutex`, `r_wait` and `w_wait`. -/
inductive Obj
  | mutex
  | rWait
  | wWait
  deriving DecidableEq

/-! ## globalmem -/

/-- What a process of globalmem uses at its next step. -/
def memUses (pc : Globalmem.Ch7.Pc) : List Obj :=
  match pc with
  | .lock | .unlock => [.mutex]
  | .idle | .check | .copy _ | .ret => []

/-- The operations of `ch7/globalmem.c`. -/
def globalmemOps (W : LongWidth) : Ops Globalmem.Ch7.State Globalmem.Ch7.Act Obj where
  start := .init
  step := Globalmem.Ch7.step W
  isCall
    | .call _ _ => true
    | .step _ _ => false
  uses s
    | .call _ _ => []
    | .step p _ => memUses (s.proc p).pc
  reset
    | .mutex, s => { s with locked := false }
    | .rWait, s | .wWait, s => s

/-- `globalmem_init`: the region, `kzalloc`, `cdev_add`, whose failure is only printed, and
`mutex_init`. -/
def globalmemInit : List (Instr Obj) := [.acquire, .acquire, .publish false, .init .mutex]

/-! ## globalfifo -/

/-- The object of a wait queue. -/
def queueObj : Globalfifo.WaitQueue → Obj
  | .r => .rWait
  | .w => .wWait

/-- What a process of globalfifo that runs `c` uses at its next step. -/
def rwUses (c : Globalfifo.RwCode) (pc : Globalfifo.Pc) : List Obj :=
  match pc with
  | .lock | .relock | .unlock1 | .out => [.mutex]
  | .addWait => [queueObj c.addsTo]
  | .wake => [queueObj c.wakes]
  | .out2 => [queueObj c.removesFrom]
  | _ => []

/-- What a process of globalfifo uses at its next step. -/
def fifoUses (W : LongWidth) (cp : Copier Byte) (async : Bool) (x : Globalfifo.Proc) : List Obj :=
  match x.call with
  | .read count nonblock => rwUses (Globalfifo.globalfifoRead W cp count nonblock) x.pc
  | .write buf count nonblock =>
    rwUses (Globalfifo.globalfifoWrite W async buf count nonblock) x.pc
  | .ioctl _ =>
    match x.pc with
    | .lock | .out => [.mutex]
    | _ => []
  | .poll =>
    match x.pc with
    | .lock | .out => [.mutex]
    | .pollWait => [.rWait, .wWait]
    | _ => []
  | .fasync _ | .release => []

/-- The operations of `globalfifo.c`. -/
def globalfifoOps (W : LongWidth) (cp : Copier Byte) (async : Bool) :
    Ops Globalfifo.State Globalfifo.Act Obj where
  start := .init
  step := Globalfifo.step W cp async
  isCall
    | .call _ _ _ => true
    | .run _ _ | .wakeup _ | .signal _ => false
  uses s
    | .run p _ => fifoUses W cp async (s.proc p)
    | .call _ _ _ | .wakeup _ | .signal _ => []
  reset
    | .mutex, s => { s with dev := { s.dev with mutex := none } }
    | .rWait, s => { s with dev := { s.dev with rWait := [] } }
    | .wWait, s => { s with dev := { s.dev with wWait := [] } }

/-- `globalfifo_init` of `ch8` and `ch9`: the region, `kzalloc`, `cdev_add`, whose failure is only
printed, `mutex_init` and the two `init_waitqueue_head`. -/
def globalfifoInit : List (Instr Obj) :=
  [.acquire, .acquire, .publish false, .init .mutex, .init .rWait, .init .wWait]

/-- `globalfifo_probe` of `ch12`: `devm_kzalloc`, `mutex_init`, the two `init_waitqueue_head` and
`misc_register`, whose failure ends the probe. -/
def globalfifoProbe : List (Instr Obj) :=
  [.acquire, .init .mutex, .init .rWait, .init .wWait, .publish true]

/-! ## The drivers -/

/-- The versions of the drivers that initialise what they publish. -/
inductive Version
  | ch7
  | ch8
  | ch9
  | ch12
  deriving DecidableEq

/-- A driver: its operations, and the function that sets it up. -/
structure Driver where
  σ : Type
  α : Type
  ops : Ops σ α Obj
  prog : List (Instr Obj)

/-- The four drivers. -/
def driver (W : LongWidth) (cp : Copier Byte) : Version → Driver
  | .ch7 => ⟨_, _, globalmemOps W, globalmemInit⟩
  | .ch8 => ⟨_, _, globalfifoOps W cp false, globalfifoInit⟩
  | .ch9 => ⟨_, _, globalfifoOps W cp true, globalfifoInit⟩
  | .ch12 => ⟨_, _, globalfifoOps W cp true, globalfifoProbe⟩

/-- Every step of every run finds what it uses initialised, and initialises nothing in use, if each
step of the run meets the condition `C`. -/
def Driver.UsableUnder (D : Driver) (C : Setup D.σ Obj → Publish.Act D.α → Prop) : Prop :=
  ∀ s a s', (machine D.ops D.prog).Reach C s → s.step D.ops a = some s' → Usable D.ops s a

section
variable {W : LongWidth} {cp : Copier Byte} {async : Bool}

/-- No process of globalmem is in a call. -/
theorem globalmemOps_lawful :
    (globalmemOps W).Lawful (fun s => ∀ p, (s.proc p).pc = .idle) (· = .mutex) where
  start _ := rfl
  reset s o h := by cases o <;> exact h
  stays s a s' h hcall hs := by
    cases a with
    | call => cases hcall
    | step p fault =>
      replace hs : Globalmem.Ch7.procStep W s p fault = some s' := hs
      simp only [Globalmem.Ch7.procStep, h p] at hs
      cases hs
  silent s a s' h hs := by
    cases a with
    | call => rfl
    | step p fault =>
      show memUses (s.proc p).pc = []
      rw [h p]
      rfl
  objects s a o ho := by
    cases a with
    | call => cases ho
    | step p fault =>
      replace ho : o ∈ memUses (s.proc p).pc := ho
      unfold memUses at ho
      split at ho
      · exact List.mem_singleton.1 ho
      · exact List.mem_singleton.1 ho
      all_goals cases ho

/-- No process of globalfifo is in a call. -/
theorem globalfifoOps_lawful :
    (globalfifoOps W cp async).Lawful (fun s => ∀ p, (s.proc p).pc = .idle) fun _ => True where
  start _ := rfl
  reset s o h := by cases o <;> exact h
  stays s a s' h hcall hs := by
    replace hs : Globalfifo.step W cp async s a = some s' := hs
    cases a with
    | call => cases hcall
    | run p limit =>
      simp only [Globalfifo.step, Globalfifo.procStep, h p] at hs
      cases hs
    | wakeup p => cases hs; exact h
    | signal p => cases hs; exact h
  silent s a s' h hs := by
    replace hs : Globalfifo.step W cp async s a = some s' := hs
    cases a with
    | run p limit =>
      simp only [Globalfifo.step, Globalfifo.procStep, h p] at hs
      cases hs
    | call | wakeup | signal => rfl
  objects _ _ _ _ := trivial

theorem globalmemInit_ordered : Ordered globalmemInit := by
  simp [Ordered, globalmemInit]

theorem globalfifoInit_ordered : Ordered globalfifoInit := by
  simp [Ordered, globalfifoInit]

theorem globalfifoProbe_last : PublishesLast globalfifoProbe := by
  simp [PublishesLast, globalfifoProbe]

theorem globalfifoProbe_ordered : Ordered globalfifoProbe := by
  simp [Ordered, globalfifoProbe]

/-- **Every driver is right for calls that start when nothing is left to initialise.** -/
theorem usableUnder_callsLate (v : Version) :
    (driver W cp v).UsableUnder (CallsLate (driver W cp v).ops) := by
  intro s a s' hreach hs
  cases v with
  | ch7 =>
    exact usable_of_callsLate globalmemOps_lawful globalmemInit_ordered
      (by simp [globalmemInit]) hreach hs
  | ch8 | ch9 =>
    refine usable_of_callsLate globalfifoOps_lawful globalfifoInit_ordered ?_ hreach hs
    intro o _
    cases o <;> simp [globalfifoInit]
  | ch12 =>
    refine usable_of_callsLate globalfifoOps_lawful globalfifoProbe_ordered ?_ hreach hs
    intro o _
    cases o <;> simp [globalfifoProbe]

/-- The driver of `ch12` is right for all calls. -/
theorem usableUnder_ch12 : (driver W cp .ch12).UsableUnder Machine.anyStep := by
  intro s a s' hreach hs
  exact usableUnder_callsLate .ch12 s a s' (callsLate_of_last globalfifoProbe_last hreach) hs

/-! ## Calls before the initialisation -/

/-- The schedule of a clear between `cdev_add` and `mutex_init`, up to its `mutex_lock`: the region,
`kzalloc` and `cdev_add` succeed, a process opens the device and calls the `ioctl`. -/
def earlyClear {α : Type} (call next : α) : List (Publish.Act α) :=
  [.setup true, .setup true, .setup true, .openFile, .op call, .op next]

/-- A driver whose schedule of an early clear gets to a step that uses the mutex. -/
theorem not_usable_of_early {D : Driver} {call next : D.α} {s s' : Setup D.σ Obj}
    (hrun : (machine D.ops D.prog).runFrom ⟨D.prog, D.ops.start, false, 0, [], []⟩
      (earlyClear call next) = some s) (hs : s.step D.ops (.op next) = some s')
    (huses : D.ops.uses s.dev next = [.mutex]) (hready : s.ready = []) :
    ¬ D.UsableUnder Machine.anyStep := by
  intro hall
  have hreach : (machine D.ops D.prog).Reach Machine.anyStep s :=
    ⟨_, _, rfl, .of_runFrom (fun _ _ _ => trivial) hrun⟩
  have hmem := (hall s _ s' hreach hs).ready next rfl .mutex (by simp [huses])
  rw [hready] at hmem
  cases hmem

theorem not_usable_ch7 : ¬ (driver W cp .ch7).UsableUnder Machine.anyStep :=
  @not_usable_of_early (driver W cp .ch7) (.call 0 (.ioctl Globalmem.MEM_CLEAR)) (.step 0 none)
    _ _ rfl rfl rfl rfl

theorem not_usable_ch8 : ¬ (driver W cp .ch8).UsableUnder Machine.anyStep :=
  @not_usable_of_early (driver W cp .ch8) (.call 0 0 (.ioctl Globalfifo.FIFO_CLEAR)) (.run 0 none)
    _ _ rfl rfl rfl rfl

theorem not_usable_ch9 : ¬ (driver W cp .ch9).UsableUnder Machine.anyStep :=
  @not_usable_of_early (driver W cp .ch9) (.call 0 0 (.ioctl Globalfifo.FIFO_CLEAR)) (.run 0 none)
    _ _ rfl rfl rfl rfl

/-- **What the drivers have initialised when they are used.** In every run of each driver in which
calls start only when nothing is left to initialise, no operation uses the mutex or a wait queue
before its initialisation, and none is initialised that is in use; without that condition this is so
for the driver of `ch12`, and for no other. -/
theorem usable_iff (W : LongWidth) (cp : Copier Byte) (v : Version) :
    (driver W cp v).UsableUnder (CallsLate (driver W cp v).ops) ∧
      ((driver W cp v).UsableUnder Machine.anyStep ↔ v = .ch12) := by
  refine ⟨usableUnder_callsLate v, ?_⟩
  cases v with
  | ch7 => exact iff_of_false not_usable_ch7 (by simp)
  | ch8 => exact iff_of_false not_usable_ch8 (by simp)
  | ch9 => exact iff_of_false not_usable_ch9 (by simp)
  | ch12 => exact iff_of_true usableUnder_ch12 rfl

/-- A check that implies `CallsLate`. -/
def lateCheck {σ α : Type} (O : Ops σ α Obj) (s : Setup σ Obj) : Publish.Act α → Bool
  | .op a => !O.isCall a || s.todo.isEmpty
  | .setup _ | .openFile => true

theorem callsLate_of_lateCheck {σ α : Type} {O : Ops σ α Obj} {s : Setup σ Obj}
    {a : Publish.Act α} (h : lateCheck O s a = true) : CallsLate O s a := by
  cases a with
  | op b =>
    intro hcall o ho
    simp only [lateCheck, hcall, Bool.not_true, Bool.false_or, List.isEmpty_iff] at h
    rw [h] at ho
    cases ho
  | setup | openFile => trivial

/-- The driver of `ch8` is set up, opened and cleared. -/
def lateClear : List (Publish.Act Globalfifo.Act) :=
  List.replicate 6 (.setup true) ++
    [.openFile, .op (.call 0 0 (.ioctl Globalfifo.FIFO_CLEAR)), .op (.run 0 none)]

/-- The clear locks a mutex that is initialised. -/
theorem lateClear_usable : ∃ s s', (machine (globalfifoOps .w64 Copier.ascending false)
      globalfifoInit).Reach (CallsLate (globalfifoOps .w64 Copier.ascending false)) s ∧
    s.step (globalfifoOps .w64 Copier.ascending false) (.op (.run 0 none)) = some s' ∧
    (globalfifoOps .w64 Copier.ascending false).uses s.dev (.run 0 none) = [.mutex] ∧
    Usable (globalfifoOps .w64 Copier.ascending false) s (.op (.run 0 none)) := by
  let O := globalfifoOps .w64 Copier.ascending false
  obtain ⟨s, hs⟩ : ∃ s, (machine O globalfifoInit).runChecked (lateCheck O)
      ⟨globalfifoInit, O.start, false, 0, [], []⟩ lateClear = some s ∧
      (s.step O (.op (.run 0 none))).isSome ∧ O.uses s.dev (.run 0 none) = [.mutex] :=
    ⟨_, rfl, rfl, rfl⟩
  obtain ⟨s', hs'⟩ := Option.isSome_iff_exists.1 hs.2.1
  have hrun := (Machine.Run.of_checked (I := fun _ => True) (C := CallsLate O)
    (fun _ _ _ hchk => callsLate_of_lateCheck hchk) (fun _ _ _ _ _ _ => trivial) trivial hs.1).1
  have hreach : (machine O globalfifoInit).Reach (CallsLate O) s := ⟨_, _, rfl, hrun⟩
  exact ⟨s, s', hreach, hs', hs.2.2, (usable_iff .w64 Copier.ascending .ch8).1 s _ s' hreach hs'⟩

/-- **A `FIFO_CLEAR` between `cdev_add` and `mutex_init` locks a mutex that is not initialised.** -/
theorem earlyClear_not_usable : ¬ ∀ (W : LongWidth) (cp : Copier Byte) (v : Version),
    (driver W cp v).UsableUnder Machine.anyStep :=
  fun hall => not_usable_ch8 (hall .w64 Copier.ascending .ch8)

end

end LinuxTraining.Loading
