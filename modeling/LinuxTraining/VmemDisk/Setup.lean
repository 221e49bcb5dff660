import LinuxTraining.Lib.Ledger
import LinuxTraining.Kernel

/-!
# `vmem_disk.c`: loading and unloading the module

`vmem_disk_init` sets up a number of devices, each with a data buffer, a request queue and a disk,
and `vmem_disk_exit` takes them down. What the allocators answer is given for each device; what the
module does with what it gets is a ledger. `balanced_iff_noHalfDevice`: the module releases what it
has acquired exactly when no device fails after its buffer was allocated, because the clean-up of
`setup_device` leaves the pointer to the freed buffer in the device, where `vmem_disk_exit` finds
it.
-/

namespace LinuxTraining.VmemDisk

open Lib Ledger

def EBUSY : Int := 16
def ENOMEM : Int := 12

/-- `VMEMD_NOQUEUE`; every other value of `request_mode` means a request queue. -/
def VMEMD_NOQUEUE : Int := 1

/-- What the module acquires: a buffer of `vmalloc`, a request queue, a `gendisk`; each with its
address. -/
inductive Resource
  | buffer (a : Nat)
  | queue (q : Nat)
  | disk (g : Nat)
  deriving DecidableEq

/-- `struct vmem_disk_dev`: the pointers to its data, its queue and its disk. -/
structure Dev where
  data : Option Nat
  queue : Option Nat
  gd : Option Nat

/-- The function that a queue was set up with. -/
inductive Handler
  | request
  | makeRequest
  deriving DecidableEq

/-- A request queue: its function, and `queuedata`, the index of the device. -/
structure Queue where
  handler : Handler
  queuedata : Nat

/-- A `gendisk`: its queue, and `private_data`, the index of the device. -/
structure Gendisk where
  queue : Nat
  privateData : Nat

/-- The devices, the kernel's queues and disks, and the ledger of what has been done. A disk is
linked to the buffer of its device from `add_disk` to `del_gendisk`. -/
structure Module where
  dev : Nat → Dev
  queue : Nat → Queue
  gendisk : Nat → Gendisk
  log : List (Event Resource)

/-- What the allocators answer for one device: `vmalloc`, `blk_alloc_queue` or `blk_init_queue`,
and `alloc_disk`. -/
structure Answers where
  vmalloc : Option Nat
  queue : Option Nat
  disk : Option Nat

/-- An entry of the ledger. -/
def Module.note (m : Module) (e : Event Resource) : Module := { m with log := m.log ++ [e] }

/-- A device changed. -/
def Module.setDev (m : Module) (i : Nat) (d : Dev) : Module :=
  { m with dev := Function.update m.dev i d }

/-- `out_vfree`: the buffer is freed, if there is one. -/
def Module.outVfree (m : Module) (i : Nat) : Module :=
  match (m.dev i).data with
  | some a => m.note (.release (.buffer a))
  | none => m

/-- The function for the queues. -/
def handlerOf (requestMode : Int) : Handler :=
  if requestMode = VMEMD_NOQUEUE then .makeRequest else .request

/-- `setup_device` up to the queue: the device is cleared, and its buffer allocated. -/
def Module.withData (m : Module) (i a : Nat) : Module :=
  (m.setDev i ⟨some a, none, none⟩).note (.acquire (.buffer a))

/-- The queue of a device, with its function and `queuedata`. -/
def Module.withQueue (m : Module) (requestMode : Int) (i q : Nat) : Module :=
  { m.setDev i { m.dev i with queue := some q } with
    queue := Function.update m.queue q ⟨handlerOf requestMode, i⟩ }.note (.acquire (.queue q))

/-- The disk of a device, from `alloc_disk` to `add_disk`. -/
def Module.withDisk (m : Module) (i a q g : Nat) : Module :=
  ({ m.setDev i { m.dev i with gd := some g } with
    gendisk := Function.update m.gendisk g ⟨q, i⟩ }.note (.acquire (.disk g))).note
      (.link (.disk g) (.buffer a))

/-- `setup_device`. -/
def setupDevice (requestMode : Int) (ans : Answers) (m : Module) (i : Nat) : Module :=
  match ans.vmalloc with
  | none => m.setDev i ⟨none, none, none⟩
  | some a =>
    let m := m.withData i a
    match ans.queue with
    | none => m.outVfree i
    | some q =>
      let m := m.withQueue requestMode i q
      match ans.disk with
      | none => m.outVfree i
      | some g => m.withDisk i a q g

/-- `vmem_disk_init`, with what `register_blkdev` and `kmalloc` answer. -/
def vmemDiskInit (n : Nat) (requestMode major : Int) (kmalloc : Bool) (ans : Nat → Answers)
    (m : Module) : Int × Module :=
  if major ≤ 0 then (-EBUSY, m)
  else if !kmalloc then (-ENOMEM, m)
  else (0, (List.range n).foldl (fun m i => setupDevice requestMode (ans i) m i) m)

/-- `del_gendisk` and `put_disk`, if there is a disk. -/
def Module.putDisk (m : Module) (gd : Option Nat) : Module :=
  match gd with
  | some g => (m.note (.unlink (.disk g))).note (.release (.disk g))
  | none => m

/-- `kobject_put` or `blk_cleanup_queue`, if there is a queue. -/
def Module.putQueue (m : Module) (queue : Option Nat) : Module :=
  match queue with
  | some q => m.note (.release (.queue q))
  | none => m

/-- One round of `vmem_disk_exit`. -/
def exitDevice (m : Module) (i : Nat) : Module :=
  ((m.putDisk (m.dev i).gd).putQueue (m.dev i).queue).outVfree i

/-- `vmem_disk_exit`. -/
def vmemDiskExit (n : Nat) (m : Module) : Module := (List.range n).foldl exitDevice m

/-- The module before it is loaded; the devices and the kernel's objects hold anything. -/
def Module.start (dev : Nat → Dev) (queue : Nat → Queue) (gendisk : Nat → Gendisk) : Module :=
  ⟨dev, queue, gendisk, []⟩

/-- The module before it is loaded, with nothing set up. -/
def unloaded : Module :=
  .start (fun _ => ⟨none, none, none⟩) (fun _ => ⟨.request, 0⟩) fun _ => ⟨0, 0⟩

/-- The module loaded and, where loading succeeds, unloaded. -/
def lifetime (n : Nat) (requestMode major : Int) (kmalloc : Bool) (ans : Nat → Answers)
    (m : Module) : Module :=
  let r := vmemDiskInit n requestMode major kmalloc ans m
  if r.1 = 0 then vmemDiskExit n r.2 else r.2

/-! ## What is done with a device -/

/-- The entries of `setup_device`. -/
def Answers.setupEntries (ans : Answers) : List (Event Resource) :=
  match ans.vmalloc with
  | none => []
  | some a =>
    match ans.queue with
    | none => [.acquire (.buffer a), .release (.buffer a)]
    | some q =>
      match ans.disk with
      | none => [.acquire (.buffer a), .acquire (.queue q), .release (.buffer a)]
      | some g => [.acquire (.buffer a), .acquire (.queue q), .acquire (.disk g),
          .link (.disk g) (.buffer a)]

/-- The pointers that `setup_device` leaves in its device: that to the buffer also where the buffer
has been freed. -/
def Answers.dev (ans : Answers) : Dev where
  data := ans.vmalloc
  queue := ans.vmalloc.bind fun _ => ans.queue
  gd := ans.vmalloc.bind fun _ => ans.queue.bind fun _ => ans.disk

/-- The entries of one round of `vmem_disk_exit`. -/
def Dev.exitEntries (d : Dev) : List (Event Resource) :=
  (d.gd.toList.flatMap fun g => [.unlink (.disk g), .release (.disk g)]) ++
    (d.queue.toList.map fun q => .release (.queue q)) ++
    (d.data.toList.map fun a => .release (.buffer a))

section
variable {n : Nat} {mode major : Int} {ans : Nat → Answers} {m : Module}

/-- What `setup_device` does. -/
theorem setupDevice_spec (mode : Int) (ans : Answers) (m : Module) (i : Nat) :
    (setupDevice mode ans m i).dev = Function.update m.dev i ans.dev ∧
      (setupDevice mode ans m i).log = m.log ++ ans.setupEntries := by
  obtain ⟨data, queue, disk⟩ := ans
  cases data with
  | none => simp [setupDevice, Module.setDev, Answers.dev, Answers.setupEntries]
  | some a =>
    cases queue with
    | none =>
      simp [setupDevice, Module.outVfree, Module.withData, Module.note, Module.setDev,
        Answers.dev, Answers.setupEntries]
    | some q =>
      cases disk with
      | none =>
        simp [setupDevice, Module.outVfree, Module.withData, Module.withQueue, Module.note,
          Module.setDev, Answers.dev, Answers.setupEntries]
      | some g =>
        simp [setupDevice, Module.withData, Module.withQueue, Module.withDisk, Module.note,
          Module.setDev, Answers.dev, Answers.setupEntries]

/-- What one round of `vmem_disk_exit` does. -/
theorem exitDevice_spec (m : Module) (i : Nat) :
    (exitDevice m i).dev = m.dev ∧
      (exitDevice m i).log = m.log ++ (m.dev i).exitEntries := by
  have hdisk : ∀ gd, (m.putDisk gd).dev = m.dev ∧ (m.putDisk gd).log =
      m.log ++ gd.toList.flatMap fun g => [.unlink (.disk g), .release (.disk g)] := by
    intro gd
    cases gd <;> simp [Module.putDisk, Module.note]
  have hqueue : ∀ (m : Module) queue, (m.putQueue queue).dev = m.dev ∧ (m.putQueue queue).log =
      m.log ++ queue.toList.map fun q => .release (.queue q) := by
    intro m queue
    cases queue <;> simp [Module.putQueue, Module.note]
  have hfree : ∀ (m : Module), (m.outVfree i).dev = m.dev ∧ (m.outVfree i).log =
      m.log ++ (m.dev i).data.toList.map fun a => .release (.buffer a) := by
    intro m
    unfold Module.outVfree
    split
    · next a ha => simp [Module.note, ha]
    · next ha => simp [ha]
  unfold exitDevice
  rw [(hfree _).1, (hfree _).2, (hqueue _ _).1, (hqueue _ _).2, (hdisk _).1, (hdisk _).2]
  refine ⟨rfl, ?_⟩
  simp [Dev.exitEntries]

/-- The setup of the first devices. -/
theorem setup_spec (mode : Int) (ans : Nat → Answers) (m : Module) (n : Nat) :
    let m' := (List.range n).foldl (fun m i => setupDevice mode (ans i) m i) m
    (∀ i < n, m'.dev i = (ans i).dev) ∧
      m'.log = m.log ++ (List.range n).flatMap fun i => (ans i).setupEntries := by
  induction n with
  | zero => simp
  | succ n ih =>
    obtain ⟨hdev, hlog⟩ := ih
    simp only [List.range_succ, List.foldl_append, List.foldl_cons, List.foldl_nil]
    obtain ⟨hdev', hlog'⟩ := setupDevice_spec mode (ans n)
      ((List.range n).foldl (fun m i => setupDevice mode (ans i) m i) m) n
    constructor
    · intro i hi
      rw [hdev']
      rcases eq_or_ne i n with rfl | hne
      · exact Function.update_self ..
      · rw [Function.update_of_ne hne]
        exact hdev i (by omega)
    · rw [hlog', hlog]
      simp

/-- The rounds of `vmem_disk_exit`. -/
theorem exit_spec (m : Module) (n : Nat) :
    (vmemDiskExit n m).dev = m.dev ∧
      (vmemDiskExit n m).log = m.log ++ (List.range n).flatMap fun i => (m.dev i).exitEntries := by
  unfold vmemDiskExit
  induction n with
  | zero => simp
  | succ n ih =>
    obtain ⟨hdev, hlog⟩ := ih
    simp only [List.range_succ, List.foldl_append, List.foldl_cons, List.foldl_nil]
    obtain ⟨hdev', hlog'⟩ := exitDevice_spec ((List.range n).foldl exitDevice m) n
    refine ⟨hdev'.trans hdev, ?_⟩
    rw [hlog', hlog, hdev]
    simp

/-- Loading succeeds. -/
theorem vmemDiskInit_of_loads (hmajor : 0 < major) :
    vmemDiskInit n mode major true ans m =
      (0, (List.range n).foldl (fun m i => setupDevice mode (ans i) m i) m) := by
  rw [vmemDiskInit, if_neg (by omega)]
  rfl

/-- Loading fails before anything is set up. -/
theorem lifetime_of_not_loads {kmalloc : Bool} (h : ¬ (0 < major ∧ kmalloc)) :
    lifetime n mode major kmalloc ans m = m := by
  unfold lifetime vmemDiskInit
  split
  · simp [EBUSY]
  · next hmajor =>
    obtain rfl : kmalloc = false := by simpa [Int.not_le.1 hmajor] using h
    simp [ENOMEM]

/-- The ledger of a module that was loaded and unloaded. -/
theorem lifetime_log (hmajor : 0 < major) : (lifetime n mode major true ans m).log =
    m.log ++ ((List.range n).flatMap fun i => (ans i).setupEntries) ++
      (List.range n).flatMap fun i => (ans i).dev.exitEntries := by
  unfold lifetime
  rw [vmemDiskInit_of_loads hmajor]
  obtain ⟨hdev, hlog⟩ := setup_spec mode ans m n
  show (vmemDiskExit n _).log = _
  rw [(exit_spec _ n).2]
  dsimp only
  rw [hlog]
  congr 1
  refine List.flatMap_congr ?_
  intro i hi
  rw [hdev i (List.mem_range.1 hi)]

/-! ## Queues, disks and their devices -/

/-- The queues and the disks of the first devices lead back to their devices. -/
structure Wired (mode : Int) (n : Nat) (m : Module) : Prop where
  queue : ∀ i < n, ∀ q, (m.dev i).queue = some q → m.queue q = ⟨handlerOf mode, i⟩
  disk : ∀ i < n, ∀ g, (m.dev i).gd = some g →
    ∃ q, (m.dev i).queue = some q ∧ m.gendisk g = ⟨q, i⟩

/-- The queues and the disks of the first devices are held. -/
structure Kept (n : Nat) (m : Module) : Prop where
  queue : ∀ i < n, ∀ q, (m.dev i).queue = some q → .queue q ∈ held m.log
  disk : ∀ i < n, ∀ g, (m.dev i).gd = some g → .disk g ∈ held m.log

theorem outVfree_objects (m : Module) (i : Nat) :
    (m.outVfree i).queue = m.queue ∧ (m.outVfree i).gendisk = m.gendisk := by
  unfold Module.outVfree
  split <;> exact ⟨rfl, rfl⟩

/-- The kernel's queues after `setup_device`: that of the device, if it got one, and the others as
before. -/
theorem setupDevice_queue (mode : Int) (a : Answers) (m : Module) (i q : Nat) :
    (setupDevice mode a m i).queue q =
      if a.dev.queue = some q then ⟨handlerOf mode, i⟩ else m.queue q := by
  have hupdate : ∀ q', Function.update m.queue q' ⟨handlerOf mode, i⟩ q =
      if some q' = some q then ⟨handlerOf mode, i⟩ else m.queue q := by
    intro q'
    rcases eq_or_ne q q' with rfl | hne
    · simp
    · simp [hne, Ne.symm hne]
  obtain ⟨data, queue, disk⟩ := a
  cases data with
  | none => rfl
  | some b =>
    cases queue with
    | none =>
      simp only [setupDevice, (outVfree_objects _ _).1]
      rfl
    | some q' =>
      cases disk with
      | none =>
        simp only [setupDevice, (outVfree_objects _ _).1]
        exact hupdate q'
      | some g => exact hupdate q'

/-- The kernel's disks after `setup_device`: that of the device leads to it and to its queue, and
the others are as before. -/
theorem setupDevice_gendisk (mode : Int) (a : Answers) (m : Module) (i g : Nat) :
    (a.dev.gd = some g →
      ∃ q, a.dev.queue = some q ∧ (setupDevice mode a m i).gendisk g = ⟨q, i⟩) ∧
    (a.dev.gd ≠ some g → (setupDevice mode a m i).gendisk g = m.gendisk g) := by
  obtain ⟨data, queue, disk⟩ := a
  cases data with
  | none =>
    refine ⟨?_, fun _ => rfl⟩
    intro hg
    cases hg
  | some b =>
    cases queue with
    | none =>
      simp only [setupDevice, (outVfree_objects _ _).2]
      refine ⟨?_, fun _ => rfl⟩
      intro hg
      cases hg
    | some q =>
      cases disk with
      | none =>
        simp only [setupDevice, (outVfree_objects _ _).2]
        refine ⟨?_, fun _ => rfl⟩
        intro hg
        cases hg
      | some g' =>
        constructor
        · intro hg
          obtain rfl := Option.some.inj hg
          exact ⟨q, rfl, Function.update_self ..⟩
        · intro hg
          have hne : g ≠ g' := by
            rintro rfl
            exact hg rfl
          exact Function.update_of_ne hne ..

/-- `setup_device` acquires the queue that it leaves in its device. -/
theorem Answers.acquire_queue (a : Answers) {q : Nat} (h : a.dev.queue = some q) :
    .acquire (.queue q) ∈ a.setupEntries := by
  obtain ⟨_ | b, _ | q', _ | g⟩ := a <;> simp_all [Answers.dev, Answers.setupEntries]

/-- `setup_device` acquires the disk that it leaves in its device. -/
theorem Answers.acquire_disk (a : Answers) {g : Nat} (h : a.dev.gd = some g) :
    .acquire (.disk g) ∈ a.setupEntries := by
  obtain ⟨_ | b, _ | q, _ | g'⟩ := a <;> simp_all [Answers.dev, Answers.setupEntries]

/-- `setup_device` releases no queue. -/
theorem Answers.release_queue (a : Answers) (q : Nat) :
    .release (.queue q) ∉ a.setupEntries := by
  obtain ⟨_ | b, _ | q', _ | g⟩ := a <;> simp [Answers.setupEntries]

/-- `setup_device` releases no disk. -/
theorem Answers.release_disk (a : Answers) (g : Nat) :
    .release (.disk g) ∉ a.setupEntries := by
  obtain ⟨_ | b, _ | q, _ | g'⟩ := a <;> simp [Answers.setupEntries]

/-- The queue and the disk that `setup_device` leaves in its device are held, and were not before;
other queues and disks stay held. -/
theorem held_setupEntries {log : List (Event Resource)} {a : Answers}
    (hf : Fresh (log ++ a.setupEntries)) :
    (∀ q, a.dev.queue = some q → .queue q ∉ held log ∧ .queue q ∈ held (log ++ a.setupEntries)) ∧
    (∀ g, a.dev.gd = some g → .disk g ∉ held log ∧ .disk g ∈ held (log ++ a.setupEntries)) ∧
    (∀ q, .queue q ∈ held log → .queue q ∈ held (log ++ a.setupEntries)) ∧
    ∀ g, .disk g ∈ held log → .disk g ∈ held (log ++ a.setupEntries) := by
  refine ⟨?_, ?_, ?_, ?_⟩
  · intro q hq
    have hmem := a.acquire_queue hq
    exact ⟨hf.notMem_held hmem (a.release_queue q), held_of_acquire hmem (a.release_queue q)⟩
  · intro g hg
    have hmem := a.acquire_disk hg
    exact ⟨hf.notMem_held hmem (a.release_disk g), held_of_acquire hmem (a.release_disk g)⟩
  · intro q hq
    exact held_keep hq (a.release_queue q)
  · intro g hg
    exact held_keep hg (a.release_disk g)

/-- The setup of one more device wires it, and keeps the others: what it allocates is not held. -/
theorem Wired.setup {k : Nat} (h : Wired mode k m) (hk : Kept k m) (a : Answers)
    (hf : Fresh (m.log ++ a.setupEntries)) :
    Wired mode (k + 1) (setupDevice mode a m k) ∧ Kept (k + 1) (setupDevice mode a m k) := by
  obtain ⟨hdev, hlog⟩ := setupDevice_spec mode a m k
  obtain ⟨hq, hg, hqs, hgs⟩ := held_setupEntries hf
  have hself : (setupDevice mode a m k).dev k = a.dev := by
    rw [hdev]
    exact Function.update_self ..
  have hother : ∀ i < k + 1, i ≠ k → (setupDevice mode a m k).dev i = m.dev i := by
    intro i _ hne
    rw [hdev]
    exact Function.update_of_ne hne ..
  refine ⟨⟨?_, ?_⟩, ?_, ?_⟩
  · intro i hi q hiq
    rw [setupDevice_queue]
    rcases eq_or_ne i k with rfl | hne
    · rw [hself] at hiq
      exact if_pos hiq
    · rw [hother i hi hne] at hiq
      have hlt : i < k := by omega
      rw [if_neg fun hq' => (hq q hq').1 (hk.queue i hlt q hiq)]
      exact h.queue i hlt q hiq
  · intro i hi g hig
    rcases eq_or_ne i k with rfl | hne
    · rw [hself] at hig ⊢
      exact (setupDevice_gendisk mode a m i g).1 hig
    · rw [hother i hi hne] at hig ⊢
      have hlt : i < k := by omega
      obtain ⟨q, hiq, hdisk⟩ := h.disk i hlt g hig
      refine ⟨q, hiq, ?_⟩
      rw [(setupDevice_gendisk mode a m k g).2 fun hg' => (hg g hg').1 (hk.disk i hlt g hig)]
      exact hdisk
  · intro i hi q hiq
    rw [hlog]
    rcases eq_or_ne i k with rfl | hne
    · rw [hself] at hiq
      exact (hq q hiq).2
    · rw [hother i hi hne] at hiq
      exact hqs q (hk.queue i (by omega) q hiq)
  · intro i hi g hig
    rw [hlog]
    rcases eq_or_ne i k with rfl | hne
    · rw [hself] at hig
      exact (hg g hig).2
    · rw [hother i hi hne] at hig
      exact hgs g (hk.disk i (by omega) g hig)

/-- **Loading wires the devices**: the queue and the disk of each device lead back to it. -/
theorem wired_of_init (hmajor : 0 < major)
    (hf : Fresh (vmemDiskInit n mode major true ans m).2.log) :
    Wired mode n (vmemDiskInit n mode major true ans m).2 := by
  rw [vmemDiskInit_of_loads hmajor] at hf ⊢
  have key : ∀ k ≤ n,
      let m' := (List.range k).foldl (fun m i => setupDevice mode (ans i) m i) m
      Wired mode k m' ∧ Kept k m' := by
    intro k
    induction k with
    | zero =>
      intro _
      exact ⟨⟨fun i hi => absurd hi (Nat.not_lt_zero i), fun i hi => absurd hi (Nat.not_lt_zero i)⟩,
        fun i hi => absurd hi (Nat.not_lt_zero i), fun i hi => absurd hi (Nat.not_lt_zero i)⟩
    | succ k ih =>
      intro hk
      obtain ⟨hw, hkept⟩ := ih (by omega)
      have hprefix : (List.range (k + 1)).flatMap (fun i => (ans i).setupEntries) <+:
          (List.range n).flatMap fun i => (ans i).setupEntries := by
        obtain ⟨d, rfl⟩ := Nat.exists_eq_add_of_le hk
        have hsplit : List.range (k + 1 + d) =
            List.range (k + 1) ++ (List.range d).map (k + 1 + ·) := List.range_add ..
        rw [hsplit, List.flatMap_append]
        exact List.prefix_append ..
      have hfk : Fresh (m.log ++
          (List.range (k + 1)).flatMap fun i => (ans i).setupEntries) := by
        refine hf.of_prefix ?_
        rw [(setup_spec mode ans m n).2]
        exact (List.prefix_append_right_inj _).2 hprefix
      simp only [List.range_succ, List.foldl_append, List.foldl_cons, List.foldl_nil]
      refine hw.setup hkept (ans k) ?_
      rw [(setup_spec mode ans m k).2]
      simpa [List.range_succ, List.append_assoc] using hfk
  exact (key n le_rfl).1

end

end LinuxTraining.VmemDisk
