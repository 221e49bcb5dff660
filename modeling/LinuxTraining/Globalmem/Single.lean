import LinuxTraining.Globalmem.FixedFile
import LinuxTraining.Lib.Machine

/-!
# `ch6/globalmem.c` refines the fixed-size file

The driver of one device without a lock, as a machine whose labels are the system calls made on it.
`Sim` relates a device state to the abstract file: the content is `mem[0..GLOBALMEM_SIZE)` and the
cursors are the files' `f_pos`. `step_sim` is one call, `globalmem_refines_fixedFile` a whole run:
the cursors never leave the device, every call returns what the abstract file returns, and what a
read delivers at an address is what was last written there.
-/

namespace LinuxTraining.Globalmem.Ch6

open Lib

/-- `GLOBALMEM_SIZE`. -/
def GLOBALMEM_SIZE : Nat := 0x1000

section
variable (W : LongWidth)

/-- `globalmem_read`. -/
def globalmemRead := memRead W GLOBALMEM_SIZE

/-- `globalmem_write`. -/
def globalmemWrite := memWrite W GLOBALMEM_SIZE

/-- `globalmem_llseek`. -/
def globalmemLlseek := memLlseek GLOBALMEM_SIZE

/-- `globalmem_ioctl`. -/
def globalmemIoctl := memIoctl GLOBALMEM_SIZE

/-- `globalmem_fops`. -/
def globalmemFops : FileOperations where
  llseek := globalmemLlseek
  read := globalmemRead W
  write := globalmemWrite W
  unlockedIoctl := globalmemIoctl

end

/-- The one device, `globalmem_devp`, and the cursors of its open files. Every file's
`private_data` is that device. -/
structure State where
  mem : Mem Byte
  files : Nat → Option Int

/-- After `globalmem_init`: the memory is from `kzalloc`, and no file is open. -/
def State.init : State := ⟨fun _ => 0, fun _ => none⟩

/-- The cursor of one file set, or the file closed. -/
def State.setFile (s : State) (fd : Nat) (pos : Option Int) : State :=
  { s with files := Function.update s.files fd pos }

/-- Setting a file to the cursor it has changes nothing. -/
theorem State.setFile_self {s : State} {fd : Nat} {pos : Int} (h : s.files fd = some pos) :
    s.setFile fd (some pos) = s := by
  rw [State.setFile, ← h, Function.update_eq_self]

/-- One system call: what it returns and the state it leaves. Only a free descriptor can be opened
and only an open one used. -/
def step (W : LongWidth) (s : State) : Op Unit → Option (Out × State)
  | .open fd () =>
    match s.files fd with
    | none => some (⟨0, []⟩, s.setFile fd (some 0))
    | some _ => none
  | .release fd => (s.files fd).map fun _ => (⟨0, []⟩, s.setFile fd none)
  | .on fd op =>
    (s.files fd).map fun pos =>
      let r := (globalmemFops W).call s.mem pos op
      (r.1, { s.setFile fd (some r.2.2) with mem := r.2.1 })

/-- The device and its callers. -/
def machine (W : LongWidth) : Machine State (Op Unit) where
  init s := s = .init
  step s op := (step W s op).map (·.2)

/-- What a run shows: each call with what it returned. -/
def returns (W : LongWidth) (s : State) (op : Op Unit) : Option (Op Unit × Out) :=
  (step W s op).map fun r => (op, r.1)

/-- What a call does to the memory: a write replaces the bytes from its cursor on that fit in the
device, and `MEM_CLEAR` zeroes them all. -/
def effect (s : State) : Op Unit → Option Effect
  | .on fd (.write buf size _) =>
    (s.files fd).map fun pos =>
      .wrote pos.toNat (buf.slice 0 (min size (GLOBALMEM_SIZE - pos.toNat)))
  | .on fd (.ioctl cmd) => if cmd = MEM_CLEAR then (s.files fd).map fun _ => .cleared else none
  | _ => none

/-! ## The simulation -/

/-- A device state shows the abstract file `f`. -/
structure Sim (s : State) (f : FixedFile GLOBALMEM_SIZE) : Prop where
  content : f.content = s.mem.slice 0 GLOBALMEM_SIZE
  cursor : ∀ fd, s.files fd = (f.cursor fd).map fun p => (p.val : Int)

theorem Sim.init : Sim .init (FixedFile.init _) where
  content := (Mem.slice_const 0 0 GLOBALMEM_SIZE).symm
  cursor _ := rfl

section
variable {s s' : State} {f : FixedFile GLOBALMEM_SIZE}

/-- An open file of the device has a cursor of the abstract file. -/
theorem Sim.cursor_of_some (h : Sim s f) {fd : Nat} {pos : Int} (hp : s.files fd = some pos) :
    ∃ p : Fin (GLOBALMEM_SIZE + 1), f.cursor fd = some p ∧ pos = (p.val : Int) := by
  rw [h.cursor fd] at hp
  obtain ⟨p, hc, rfl⟩ := Option.map_eq_some_iff.1 hp
  exact ⟨p, hc, rfl⟩

/-- Moving or closing one file on both sides keeps the cursors in step. -/
theorem Sim.setFile (h : Sim s f) (fd : Nat) (p : Option (Fin (GLOBALMEM_SIZE + 1))) :
    Sim (s.setFile fd (p.map fun p => (p.val : Int))) (f.setCursor fd p) where
  content := h.content
  cursor fd' := by
    simp only [State.setFile, FixedFile.setCursor, Function.update_apply]
    split
    · rfl
    · exact h.cursor fd'

/-- Replacing the memory on both sides keeps the contents in step. -/
theorem Sim.setMem {mem : Mem Byte} {g : FixedFile GLOBALMEM_SIZE} (h : Sim s f)
    (hc : g.content = mem.slice 0 GLOBALMEM_SIZE) (hg : g.cursor = f.cursor) :
    Sim { s with mem := mem } g :=
  ⟨hc, fun fd => by rw [hg]; exact h.cursor fd⟩

/-- A read at the cursor, on both sides. -/
theorem Sim.read {W : LongWidth} {fd size : Nat} {p : Fin (GLOBALMEM_SIZE + 1)} (h : Sim s f)
    (hp : f.cursor fd = some p) (hsize : size ≤ MAX_RW_COUNT) :
    let r := globalmemRead W s.mem size p none
    ∃ f', f.Step (.on fd (.read size none)) ⟨r.ret, r.data⟩ f' ∧
      Sim (s.setFile fd (some r.ppos)) f' := by
  have hpN : p.val ≤ GLOBALMEM_SIZE := Nat.le_of_lt_succ p.isLt
  have hr : globalmemRead W s.mem size p none = _ :=
    memRead_of_le (by decide) (Nat.lt_of_le_of_lt hsize (by decide)) hpN
  simp only [hr]
  have hle : p.val + span GLOBALMEM_SIZE size p ≤ GLOBALMEM_SIZE := by unfold span; omega
  have hdata : s.mem.slice p (span GLOBALMEM_SIZE size p) =
      (f.content.drop p).take (span GLOBALMEM_SIZE size p) := by
    rw [h.content, Mem.drop_slice _ _ hpN, Mem.take_slice _ _ (by omega), Nat.zero_add]
  rw [hdata]
  exact ⟨_, .read fd size none ⟨_, Nat.lt_succ_of_le hle⟩ hp rfl,
    h.setFile fd (some ⟨_, Nat.lt_succ_of_le hle⟩)⟩

/-- A write at the cursor, on both sides. -/
theorem Sim.write {W : LongWidth} {fd size : Nat} {buf : Mem Byte} {p : Fin (GLOBALMEM_SIZE + 1)}
    (h : Sim s f) (hp : f.cursor fd = some p) (hsize : size ≤ MAX_RW_COUNT) :
    let r := globalmemWrite W s.mem buf size p none
    ∃ f', f.Step (.on fd (.write buf size none)) ⟨r.ret, []⟩ f' ∧
      Sim { s.setFile fd (some r.ppos) with mem := r.mem } f' := by
  have hpN : p.val ≤ GLOBALMEM_SIZE := Nat.le_of_lt_succ p.isLt
  have hr : globalmemWrite W s.mem buf size p none = _ :=
    memWrite_of_le (by decide) (Nat.lt_of_le_of_lt hsize (by decide)) hpN
  simp only [hr]
  have hle : p.val + span GLOBALMEM_SIZE size p ≤ GLOBALMEM_SIZE := by unfold span; omega
  have hfit : p + (buf.slice 0 (span GLOBALMEM_SIZE size p)).length ≤ GLOBALMEM_SIZE := by
    rwa [Mem.length_slice]
  refine ⟨_, .write fd buf size none ⟨_, Nat.lt_succ_of_le hle⟩ hp rfl hfit, ?_⟩
  refine (h.setFile fd (some ⟨_, Nat.lt_succ_of_le hle⟩)).setMem ?_ rfl
  have hstore := @Mem.slice_store _ s.mem 0 _ _ _ hfit
  rw [Nat.zero_add, ← h.content] at hstore
  exact hstore.symm

/-- A seek, on both sides. -/
theorem Sim.llseek {fd : Nat} {offset orig : Int} {p : Fin (GLOBALMEM_SIZE + 1)} (h : Sim s f)
    (hp : f.cursor fd = some p) :
    let r := globalmemLlseek p offset orig
    ∃ f', f.Step (.on fd (.llseek offset orig)) ⟨r.1, []⟩ f' ∧
      Sim (s.setFile fd (some r.2)) f' := by
  have hpos : s.files fd = some (p.val : Int) := by rw [h.cursor fd, hp]; rfl
  rcases @memLlseek_cases GLOBALMEM_SIZE (p.val : Int) offset orig with hr | ⟨q, hq, hr⟩ <;>
    simp only [globalmemLlseek, hr]
  · rw [State.setFile_self hpos]
    exact ⟨f, .seekFail fd offset orig hp, h⟩
  · exact ⟨_, .seek fd offset orig ⟨q, Nat.lt_succ_of_le hq⟩ hp,
      h.setFile fd (some ⟨q, Nat.lt_succ_of_le hq⟩)⟩

/-- An `ioctl`, on both sides. -/
theorem Sim.ioctl {fd : Nat} {p : Fin (GLOBALMEM_SIZE + 1)} (h : Sim s f)
    (hp : f.cursor fd = some p) (cmd : Nat) :
    let r := globalmemIoctl s.mem cmd
    ∃ f', f.Step (.on fd (.ioctl cmd)) ⟨r.1, []⟩ f' ∧ Sim { s with mem := r.2 } f' := by
  by_cases hcmd : cmd = MEM_CLEAR
  · subst hcmd
    refine ⟨f.clear, .clear fd hp, h.setMem ?_ rfl⟩
    have hslice := Mem.slice_store_self s.mem 0 (List.replicate GLOBALMEM_SIZE (0 : Byte))
    rw [List.length_replicate] at hslice
    exact hslice.symm
  · simp only [globalmemIoctl, memIoctl, if_neg hcmd]
    exact ⟨f, .badIoctl fd hp hcmd, h⟩

/-- **One call.** A plain system call on the device is a call on the abstract file with the same
result. -/
theorem step_sim {W : LongWidth} {op : Op Unit} {out : Out} (h : Sim s f) (hop : op.Plain)
    (hs : step W s op = some (out, s')) : ∃ f', f.Step op out f' ∧ Sim s' f' := by
  cases op with
  | «open» fd dev =>
    simp only [step] at hs
    split at hs
    · next hfree =>
      cases hs
      refine ⟨_, .open fd ?_, h.setFile fd (some 0)⟩
      rw [h.cursor fd] at hfree
      exact Option.map_eq_none_iff.1 hfree
    · cases hs
  | release fd =>
    obtain ⟨pos, hpos, heq⟩ := Option.map_eq_some_iff.1 hs
    obtain ⟨p, hp, -⟩ := h.cursor_of_some hpos
    cases heq
    exact ⟨_, .release fd hp, h.setFile fd none⟩
  | on fd op =>
    obtain ⟨pos, hpos, heq⟩ := Option.map_eq_some_iff.1 hs
    obtain ⟨p, hp, rfl⟩ := h.cursor_of_some hpos
    cases heq
    cases op with
    | read size limit =>
      obtain ⟨hsize, rfl⟩ := hop
      exact h.read hp hsize
    | write buf size limit =>
      obtain ⟨hsize, rfl⟩ := hop
      exact h.write hp hsize
    | llseek offset orig => exact h.llseek hp
    | ioctl cmd =>
      obtain ⟨f', hstep, hsim⟩ := h.ioctl hp cmd
      refine ⟨f', hstep, ?_⟩
      show Sim { s.setFile fd (some (p.val : Int)) with mem := _ } f'
      rwa [State.setFile_self hpos]

/-! ## Whole runs -/

/-- One call keeps the memory equal to the last write to each address. -/
theorem mem_effect {W : LongWidth} {op : Op Unit} {out : Out} {es : List Effect} (h : Sim s f)
    (hop : op.Plain) (hs : step W s op = some (out, s'))
    (hm : ∀ a < GLOBALMEM_SIZE, s.mem a = lastWritten es a) :
    ∀ a < GLOBALMEM_SIZE, s'.mem a = lastWritten ((effect s op).toList ++ es) a := by
  cases op with
  | «open» fd dev =>
    simp only [step] at hs
    split at hs <;> cases hs
    exact hm
  | release fd =>
    obtain ⟨pos, -, heq⟩ := Option.map_eq_some_iff.1 hs
    cases heq
    exact hm
  | on fd op =>
    obtain ⟨pos, hpos, heq⟩ := Option.map_eq_some_iff.1 hs
    obtain ⟨p, -, rfl⟩ := h.cursor_of_some hpos
    cases heq
    cases op with
    | read | llseek => exact hm
    | write buf size limit =>
      obtain ⟨hsize, rfl⟩ := hop
      have hr : globalmemWrite W s.mem buf size p none = _ :=
        memWrite_of_le (by decide) (Nat.lt_of_le_of_lt hsize (by decide))
          (Nat.le_of_lt_succ p.isLt)
      simp only [FileOperations.call, globalmemFops, hr, effect, hpos]
      exact lastWritten_wrote hm
    | ioctl cmd =>
      by_cases hcmd : cmd = MEM_CLEAR
      · subst hcmd
        simp only [FileOperations.call, globalmemFops, globalmemIoctl, memIoctl, effect, hpos]
        intro a ha
        have hget := @Mem.store_add _ s.mem 0 a (List.replicate GLOBALMEM_SIZE 0)
          (by simpa using ha)
        rw [Nat.zero_add, List.getElem_replicate] at hget
        exact hget
      · simp only [FileOperations.call, globalmemFops, globalmemIoctl, memIoctl, effect,
          if_neg hcmd]
        exact hm

/-- A run of plain calls shows a run of the abstract file, and its memory is the last write to each
address. -/
theorem run_sim {W : LongWidth} {ops : List (Op Unit)}
    (hr : (machine W).Run (fun _ op => op.Plain) .init ops s) :
    ∃ f, FixedFile.Run (.init _) ((machine W).events (returns W) .init ops) f ∧ Sim s f ∧
      ∀ a < GLOBALMEM_SIZE, s.mem a =
        lastWritten ((machine W).events effect .init ops).reverse a := by
  induction hr with
  | nil => exact ⟨_, .nil, .init, fun _ _ => rfl⟩
  | @snoc ops s s' op hr hop hs ih =>
    obtain ⟨f, hrun, hsim, hm⟩ := ih
    obtain ⟨⟨out, _⟩, hstep, rfl⟩ := Option.map_eq_some_iff.1 hs
    obtain ⟨f', hf, hsim'⟩ := step_sim hsim hop hstep
    refine ⟨f', ?_, hsim', ?_⟩
    · rw [hr.events_snoc (returns W) hs, returns, hstep]
      exact hrun.snoc hf
    · rw [hr.events_snoc effect hs, List.reverse_append]
      have htl : (effect s op).toList.reverse = (effect s op).toList := by
        cases effect s op <;> rfl
      rw [htl]
      exact mem_effect hsim hop hstep hm

/-- What it means that a run of calls from the start to `s` is one on a fixed-size file. -/
structure RefinesFixedFile (W : LongWidth) (ops : List (Op Unit)) (s : State) : Prop where
  /-- The cursors lie within the device. -/
  cursor_range : ∀ fd pos, s.files fd = some pos → 0 ≤ pos ∧ pos ≤ GLOBALMEM_SIZE
  /-- The calls return what they return on a `FixedFile`, which ends with the device's content and
  cursors. -/
  file : ∃ f, FixedFile.Run (.init GLOBALMEM_SIZE)
      ((machine W).events (returns W) .init ops) f ∧
    f.content = s.mem.slice 0 GLOBALMEM_SIZE ∧
    ∀ fd, s.files fd = (f.cursor fd).map fun p => (p.val : Int)
  /-- A read after the run delivers at each address the byte last written there, or zero. -/
  read_last : ∀ fd size pos out s', s.files fd = some pos → size ≤ MAX_RW_COUNT →
    step W s (.on fd (.read size none)) = some (out, s') →
    ∀ i (hi : i < out.data.length), out.data[i] =
      lastWritten ((machine W).events effect .init ops).reverse (pos.toNat + i)

/-- **`ch6/globalmem.c` is a fixed-size file with a cursor per open file**, in every run of plain
calls. -/
theorem globalmem_refines_fixedFile {W : LongWidth} {ops : List (Op Unit)}
    (hr : (machine W).Run (fun _ op => op.Plain) .init ops s) : RefinesFixedFile W ops s := by
  obtain ⟨f, hrun, hsim, hm⟩ := run_sim hr
  refine ⟨fun fd pos hpos => ?_, ⟨f, hrun, hsim.content, hsim.cursor⟩, ?_⟩
  · obtain ⟨p, -, rfl⟩ := hsim.cursor_of_some hpos
    have := p.isLt
    omega
  · intro fd size pos out s' hpos hsize hstep i hi
    obtain ⟨p, -, rfl⟩ := hsim.cursor_of_some hpos
    have hpN : p.val ≤ GLOBALMEM_SIZE := Nat.le_of_lt_succ p.isLt
    have hread : globalmemRead W s.mem size p none = _ :=
      memRead_of_le (by decide) (Nat.lt_of_le_of_lt hsize (by decide)) hpN
    simp only [step, hpos, Option.map_some, FileOperations.call, globalmemFops, hread] at hstep
    cases hstep
    rw [Mem.length_slice] at hi
    rw [Mem.getElem_slice, Int.toNat_natCast]
    refine hm _ ?_
    unfold span at hi
    omega

/-- Two files on the device: a write through one, a read through the other, a seek to the end and a
clear. -/
def twoFiles : List (Op Unit) :=
  [.open 0 (), .open 1 (), .on 0 (.write (Mem.ofList 0 [7, 8]) 2 none), .on 1 (.read 2 none),
    .on 0 (.llseek 4094 1), .on 1 (.ioctl MEM_CLEAR)]

theorem twoFiles_refines : ∃ s, (machine .w32).runFrom .init twoFiles = some s ∧
    s.files 0 = some 4096 ∧ RefinesFixedFile .w32 twoFiles s := by
  refine ⟨_, rfl, rfl, globalmem_refines_fixedFile (.of_runFrom ?_ rfl)⟩
  simp [twoFiles, Op.Plain, FileOp.Plain, MAX_RW_COUNT]

end

end LinuxTraining.Globalmem.Ch6
