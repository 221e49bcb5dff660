import LinuxTraining.Globalmem.Single

/-!
# `ch6/multi_globalmem.c` is a product of single devices

The driver of `DEVICE_NUM` devices. `globalmem_init` adds the `cdev` of the `i`-th structure for
minor `i`, and `globalmem_open` stores in `private_data` the structure that the inode's `cdev` is
embedded in; every other operation finds its device there. `Routed` is the invariant of each open
file, that this structure is the one of the minor it was opened on. `step_minor` is one call seen
from one minor: a call of `ch6/globalmem.c` when it is made on that minor, nothing otherwise.
-/

namespace LinuxTraining.Globalmem.Multi

open Lib

/-- `GLOBALMEM_SIZE`. -/
def GLOBALMEM_SIZE : Nat := 0x1000

/-- `DEVICE_NUM`. -/
def DEVICE_NUM : Nat := 10

section
variable (W : LongWidth)

/-- `globalmem_read`. -/
def globalmemRead := memRead W GLOBALMEM_SIZE

/-- `globalmem_write`. -/
def globalmemWrite := memWrite W GLOBALMEM_SIZE

/-- `globalmem_llseek`. -/
def globalmemLlseek := memLlseek GLOBALMEM_SIZE

/-- `globalmem_ioctl`. -/
def globalmemIoctl := memIoctl GLOBALMEM_SIZE

/-- `globalmem_fops`. -/
def globalmemFops : FileOperations where
  llseek := globalmemLlseek
  read := globalmemRead W
  write := globalmemWrite W
  unlockedIoctl := globalmemIoctl

end

/-- A `cdev` is named by the index in `globalmem_devp` of the structure it is embedded in;
`container_of` is therefore the identity. -/
abbrev Cdev := Nat

/-- `globalmem_setup_cdev`: the `cdev` of structure `dev` is added for minor `index`. -/
def globalmemSetupCdev (dev : Cdev) (index : Nat) : Nat × Cdev := (index, dev)

/-- The loop of `globalmem_init`: the minors with the `cdev` added for each. -/
def globalmemInit : List (Nat × Cdev) :=
  (List.range DEVICE_NUM).map fun i => globalmemSetupCdev i i

/-- `inode->i_cdev` of the node with a minor number. -/
def iCdev (minor : Nat) : Option Cdev := globalmemInit.lookup minor

/-- An open file: the minor number of its inode, its cursor, and its device. -/
structure File where
  minor : Nat
  fPos : Int
  privateData : Cdev

/-- `globalmem_open` on a new file. -/
def globalmemOpen (minor : Nat) (cdev : Cdev) : File := ⟨minor, 0, cdev⟩

/-- The memories of the structures and the open files. -/
structure State where
  mems : Nat → Mem Byte
  files : Nat → Option File

/-- After `globalmem_init`: the memories are from `kzalloc`, and no file is open. -/
def State.init : State := ⟨fun _ _ => 0, fun _ => none⟩

/-- One file set, or closed. -/
def State.setFile (s : State) (fd : Nat) (f : Option File) : State :=
  { s with files := Function.update s.files fd f }

/-- The memory of one structure replaced. -/
def State.setMem (s : State) (j : Nat) (m : Mem Byte) : State :=
  { s with mems := Function.update s.mems j m }

/-- One system call: what it returns and the state it leaves. -/
def step (W : LongWidth) (s : State) : Op Nat → Option (Out × State)
  | .open fd minor =>
    match s.files fd, iCdev minor with
    | none, some cdev => some (⟨0, []⟩, s.setFile fd (some (globalmemOpen minor cdev)))
    | _, _ => none
  | .release fd => (s.files fd).map fun _ => (⟨0, []⟩, s.setFile fd none)
  | .on fd op =>
    (s.files fd).map fun f =>
      let r := (globalmemFops W).call (s.mems f.privateData) f.fPos op
      (r.1, (s.setFile fd (some { f with fPos := r.2.2 })).setMem f.privateData r.2.1)

/-- The devices and their callers. -/
def machine (W : LongWidth) : Machine State (Op Nat) where
  init s := s = .init
  step s op := (step W s op).map (·.2)

/-! ## The view of one minor -/

/-- The minor a call is made on: the one it opens, or the one its file was opened on. -/
def minorOf (s : State) : Op Nat → Option Nat
  | .open _ minor => some minor
  | .on fd _ | .release fd => (s.files fd).map (·.minor)

/-- The call as `ch6/globalmem.c` sees it, where there is no minor to choose. -/
def single : Op Nat → Op Unit
  | .open fd _ => .open fd ()
  | .on fd op => .on fd op
  | .release fd => .release fd

/-- The memory of device `i` and the cursors of the files opened on minor `i`. -/
def State.minor (s : State) (i : Nat) : Ch6.State where
  mem := s.mems i
  files fd := (s.files fd).bind fun f => if f.minor = i then some f.fPos else none

/-- The calls made on minor `i`. -/
def callsOn (i : Nat) (s : State) (op : Op Nat) : Option (Op Unit) :=
  if minorOf s op = some i then some (single op) else none

/-- The calls made on minor `i` with what they returned. -/
def returnsOn (W : LongWidth) (i : Nat) (s : State) (op : Op Nat) : Option (Op Unit × Out) :=
  if minorOf s op = some i then (step W s op).map fun r => (single op, r.1) else none

/-- Every open file is routed to the structure of the minor it was opened on. -/
def Routed (s : State) : Prop := ∀ fd f, s.files fd = some f → f.privateData = f.minor

/-- The `cdev` added for a minor is embedded in the structure of that number. -/
theorem iCdev_eq {minor : Nat} {cdev : Cdev} (h : iCdev minor = some cdev) : cdev = minor := by
  obtain ⟨l, r, hinit, -⟩ := List.lookup_eq_some_iff.1 h
  have hmem : (minor, cdev) ∈ globalmemInit := by rw [hinit]; simp
  obtain ⟨i, -, hi⟩ := List.mem_map.1 hmem
  cases hi
  rfl

/-- The two drivers have the same operations. -/
theorem globalmemFops_eq (W : LongWidth) : globalmemFops W = Ch6.globalmemFops W := rfl

section
variable {s s' : State}

/-- A file set to one that is routed, or closed, leaves the files routed. -/
theorem Routed.setFile (h : Routed s) (fd : Nat) {f : Option File}
    (hf : ∀ g, f = some g → g.privateData = g.minor) : Routed (s.setFile fd f) := by
  intro fd' g hg
  simp only [State.setFile, Function.update_apply] at hg
  split at hg
  · exact hf g hg
  · exact h fd' g hg

/-- Setting a file keeps the other minors' view, and sets it in the view of its own. -/
theorem State.minor_setFile (s : State) (fd i : Nat) (f : Option File) :
    (s.setFile fd f).minor i =
      (s.minor i).setFile fd (f.bind fun f => if f.minor = i then some f.fPos else none) := by
  unfold State.minor State.setFile Ch6.State.setFile
  congr 1
  funext fd'
  simp only [Function.update_apply]
  split <;> rfl

/-- Changing a file of another minor does not show. -/
theorem State.minor_setFile_of_ne (fd i : Nat) {f : Option File}
    (hold : ∀ g, s.files fd = some g → g.minor ≠ i) (hnew : ∀ g, f = some g → g.minor ≠ i) :
    (s.setFile fd f).minor i = s.minor i := by
  have hf : (f.bind fun f => if f.minor = i then some f.fPos else none) = none := by
    cases f with
    | none => rfl
    | some g => exact if_neg (hnew g rfl)
  have hs : (s.minor i).files fd = none := by
    simp only [State.minor]
    cases hg : s.files fd with
    | none => rfl
    | some g => exact if_neg (hold g hg)
  rw [State.minor_setFile, hf, Ch6.State.setFile, ← hs, Function.update_eq_self]

/-- Replacing the memory of one structure, seen from a minor. -/
theorem State.minor_setMem (s : State) (i j : Nat) (m : Mem Byte) :
    (s.setMem j m).minor i = if i = j then { s.minor i with mem := m } else s.minor i := by
  unfold State.minor State.setMem
  split
  · next h => subst h; simp
  · next h => simp [Function.update_of_ne h]

/-- **One call, seen from one minor.** Files stay routed; a call on minor `i` is a call of the
single-device driver on the view of `i`, with the same result, and any other call leaves that view
as it was. -/
theorem step_minor {W : LongWidth} {op : Op Nat} {out : Out} (h : Routed s)
    (hs : step W s op = some (out, s')) :
    Routed s' ∧
    (∀ i, minorOf s op = some i → Ch6.step W (s.minor i) (single op) = some (out, s'.minor i)) ∧
    ∀ i, minorOf s op ≠ some i → s'.minor i = s.minor i := by
  cases op with
  | «open» fd minor =>
    simp only [step] at hs
    split at hs
    · next cdev hfree hcdev =>
      cases hs
      cases iCdev_eq hcdev
      refine ⟨h.setFile fd fun g hg => ?_, fun i hi => ?_, fun i hi => ?_⟩
      · cases hg; rfl
      · cases hi
        rw [State.minor_setFile]
        simp [Ch6.step, single, State.minor, hfree, globalmemOpen]
      · refine State.minor_setFile_of_ne fd i (by simp [hfree]) fun g hg => ?_
        cases hg
        exact fun hm => hi (congrArg some hm)
    · cases hs
  | release fd =>
    obtain ⟨f, hf, heq⟩ := Option.map_eq_some_iff.1 hs
    cases heq
    refine ⟨h.setFile fd fun g hg => ?_, fun i hi => ?_, fun i hi => ?_⟩
    · cases hg
    · simp only [minorOf, hf, Option.map_some, Option.some.injEq] at hi
      rw [State.minor_setFile]
      simp [Ch6.step, single, State.minor, hf, hi]
    · refine State.minor_setFile_of_ne fd i (fun g hg => ?_) fun g hg => ?_
      · rw [hf] at hg
        cases hg
        simpa [minorOf, hf] using hi
      · cases hg
  | on fd op =>
    obtain ⟨f, hf, heq⟩ := Option.map_eq_some_iff.1 hs
    cases heq
    have hroute := h fd f hf
    refine ⟨h.setFile fd fun g hg => ?_, fun i hi => ?_, fun i hi => ?_⟩
    · cases hg; exact hroute
    · simp only [minorOf, hf, Option.map_some, Option.some.injEq] at hi
      subst hi
      have hview : (s.minor f.minor).files fd = some f.fPos := by simp [State.minor, hf]
      rw [hroute, State.minor_setMem, if_pos rfl, State.minor_setFile]
      simp only [Ch6.step, single, hview, Option.map_some, Option.bind_some, if_true,
        ← globalmemFops_eq]
      rfl
    · have hne : f.minor ≠ i := by simpa [minorOf, hf] using hi
      rw [State.minor_setMem, if_neg (by rw [hroute]; exact Ne.symm hne)]
      refine State.minor_setFile_of_ne fd i (fun g hg => ?_) (fun g hg => ?_)
      · rw [hf] at hg
        cases hg
        exact hne
      · cases hg
        exact hne

/-! ## Whole runs -/

/-- A run of the driver, seen from minor `i`, is a run of the single-device driver on the calls
made on that minor. -/
theorem run_minor {W : LongWidth} {ops : List (Op Nat)} (i : Nat)
    (hr : (machine W).Run Machine.anyStep .init ops s) :
    Routed s ∧
    (Ch6.machine W).Run Machine.anyStep .init ((machine W).events (callsOn i) .init ops)
      (s.minor i) ∧
    (machine W).events (returnsOn W i) .init ops =
      (Ch6.machine W).events (Ch6.returns W) .init ((machine W).events (callsOn i) .init ops) := by
  induction hr with
  | nil => exact ⟨fun _ _ hf => (nomatch hf), .nil, rfl⟩
  | @snoc ops s s' op hr _ hs ih =>
    obtain ⟨hroute, hrun, hret⟩ := ih
    obtain ⟨⟨out, t⟩, hstep, ht⟩ := Option.map_eq_some_iff.1 hs
    cases ht
    obtain ⟨hroute', hon, hoff⟩ := step_minor hroute hstep
    rw [hr.events_snoc (callsOn i) hs, hr.events_snoc (returnsOn W i) hs]
    by_cases hi : minorOf s op = some i
    · have hone := hon i hi
      have hsingle : (Ch6.machine W).step (s.minor i) (single op) = some (t.minor i) := by
        simp only [Ch6.machine, hone, Option.map_some]
      rw [callsOn, if_pos hi, returnsOn, if_pos hi, hret]
      refine ⟨hroute', hrun.snoc _ trivial hsingle, ?_⟩
      rw [Option.toList_some, hrun.events_snoc (Ch6.returns W) hsingle, Ch6.returns, hone, hstep]
      rfl
    · rw [callsOn, if_neg hi, returnsOn, if_neg hi, hoff i hi, hret]
      simp only [Option.toList_none, List.append_nil]
      exact ⟨hroute', hrun, trivial⟩

/-- What it means that a run of calls to `s` is, on minor `i`, a run of its own device. -/
structure IndependentMinor (W : LongWidth) (i : Nat) (ops : List (Op Nat)) (s : State) : Prop where
  /-- The single-device driver, given just the calls made on minor `i`, ends with the memory of
  device `i` and the cursors of the files opened on minor `i`. -/
  final : (Ch6.machine W).runFrom .init ((machine W).events (callsOn i) .init ops) =
    some (s.minor i)
  /-- The calls made on minor `i` return and deliver what they do there. -/
  returns : (machine W).events (returnsOn W i) .init ops =
    (Ch6.machine W).events (Ch6.returns W) .init ((machine W).events (callsOn i) .init ops)
  /-- A call on another minor leaves the memory and the cursors of `i` as they are. -/
  frame : ∀ op out s', step W s op = some (out, s') → minorOf s op ≠ some i →
    s'.minor i = s.minor i

/-- **`ch6/multi_globalmem.c` is the product of its minors**, in every run of calls. -/
theorem multi_globalmem_independent {W : LongWidth} {ops : List (Op Nat)}
    (hr : (machine W).Run Machine.anyStep .init ops s) (i : Nat) : IndependentMinor W i ops s := by
  obtain ⟨hroute, hrun, hret⟩ := run_minor i hr
  refine ⟨?_, hret, fun op out s' hs hi => (step_minor hroute hs).2.2 i hi⟩
  have hend := @Machine.Run.runFrom_append _ _ _ _ _ _ _ [] hrun
  rwa [List.append_nil] at hend

/-- Calls on two minors, interleaved, with a faulting write on one of them. -/
def twoMinors : List (Op Nat) :=
  [.open 0 3, .open 1 9, .on 0 (.write (Mem.ofList 0 [7, 8]) 2 none),
    .on 1 (.write (Mem.ofList 0 [5]) 1 (some ⟨0, fun _ => 0⟩)), .on 1 (.llseek 4096 0),
    .on 0 (.llseek 0 0), .on 0 (.read 1 none)]

theorem twoMinors_independent : ∃ s, (machine .w64).runFrom .init twoMinors = some s ∧
    (s.minor 3).files 0 = some 1 ∧ (s.minor 9).files 1 = some 4096 ∧
    IndependentMinor .w64 3 twoMinors s ∧ IndependentMinor .w64 9 twoMinors s :=
  ⟨_, rfl, rfl, rfl,
    multi_globalmem_independent (.of_runFrom (fun _ _ _ => trivial) rfl) 3,
    multi_globalmem_independent (.of_runFrom (fun _ _ _ => trivial) rfl) 9⟩

end

end LinuxTraining.Globalmem.Multi
