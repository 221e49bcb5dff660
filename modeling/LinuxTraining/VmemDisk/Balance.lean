import LinuxTraining.VmemDisk.Setup

/-!
# `vmem_disk.c`: what is acquired and what is released

The buffers are counted over the lifetime of the module: each device that fails after its buffer was
allocated frees it twice (`surplus_lifetime`). Where no device does, the ledger holds at every
moment exactly the resources of the devices that are set up (`Live`), and nothing at its end.
-/

namespace LinuxTraining.VmemDisk

open Lib Ledger

/-- The device fails after its buffer was allocated. -/
def Answers.Half (ans : Answers) : Prop :=
  ans.vmalloc ≠ none ∧ (ans.queue = none ∨ ans.disk = none)

instance (ans : Answers) : Decidable ans.Half := inferInstanceAs (Decidable (_ ∧ _))

/-! ## Counting buffers -/

def Resource.isBuffer : Resource → Bool
  | .buffer _ => true
  | _ => false

/-- Buffers acquired less buffers released. -/
def surplus (log : List (Event Resource)) : Int :=
  log.countP (Event.acquires Resource.isBuffer) - log.countP (Event.releases Resource.isBuffer)

section
variable {ans : Nat → Answers} {n : Nat}

theorem surplus_append (log log' : List (Event Resource)) :
    surplus (log ++ log') = surplus log + surplus log' := by
  simp only [surplus, List.countP_append]
  omega

/-- Over its setup and its removal a device loses a buffer if it is half set up. -/
theorem surplus_device (ans : Answers) :
    surplus ans.setupEntries + surplus ans.dev.exitEntries = if ans.Half then -1 else 0 := by
  obtain ⟨data, queue, disk⟩ := ans
  cases data <;> cases queue <;> cases disk <;> rfl

theorem surplus_lifetime (ans : Nat → Answers) (n : Nat) :
    surplus (((List.range n).flatMap fun i => (ans i).setupEntries) ++
      (List.range n).flatMap fun i => (ans i).dev.exitEntries) =
        -(List.range n).countP (fun i => decide (ans i).Half) := by
  rw [surplus_append]
  induction n with
  | zero => rfl
  | succ n ih =>
    simp only [List.range_succ, List.flatMap_append, List.flatMap_singleton, surplus_append,
      List.countP_append]
    have hdev := surplus_device (ans n)
    by_cases hh : (ans n).Half
    · rw [if_pos hh] at hdev
      simp only [List.countP_singleton, hh, decide_true, if_true]
      omega
    · rw [if_neg hh] at hdev
      simp only [List.countP_singleton, hh, decide_false, Bool.false_eq_true, if_false]
      omega

/-- A balanced ledger of buffers has no half device. -/
theorem not_half_of_balanced {log : List (Event Resource)} (h : Balanced log) (hf : Fresh log)
    (hlog : surplus log = -(List.range n).countP (fun i => decide (ans i).Half)) :
    ∀ i < n, ¬ (ans i).Half := by
  have hempty := ((balanced_iff hf).1 h).2
  have hcard := card_held h.toSafe hf Resource.isBuffer
  rw [hempty, Finset.filter_empty, Finset.card_empty] at hcard
  have hzero : (List.range n).countP (fun i => decide (ans i).Half) = 0 := by
    simp only [surplus, hcard] at hlog
    omega
  intro i hi hhalf
  rw [List.countP_eq_zero] at hzero
  exact hzero i (List.mem_range.2 hi) (by simpa using hhalf)

/-! ## Modules without half devices -/

/-- The resources of a device that is set up. -/
def Answers.resources (ans : Answers) : List Resource :=
  match ans.vmalloc, ans.queue, ans.disk with
  | some a, some q, some g => [.buffer a, .queue q, .disk g]
  | _, _, _ => []

/-- The link from the disk of a device that is set up to its buffer. -/
def Answers.link (ans : Answers) : Option (Resource × Resource) :=
  match ans.vmalloc, ans.queue, ans.disk with
  | some a, some _, some g => some (.disk g, .buffer a)
  | _, _, _ => none

/-- What the ledger holds is the resources of the devices in `P`, each of one device. -/
structure Live (ans : Nat → Answers) (P : Nat → Prop) (log : List (Event Resource)) : Prop where
  safe : Safe log
  held : ∀ r, r ∈ held log ↔ ∃ i, P i ∧ r ∈ (ans i).resources
  links : ∀ l ∈ links log, ∃ i, P i ∧ (ans i).link = some l
  apart : ∀ i j r, P i → P j → r ∈ (ans i).resources → r ∈ (ans j).resources → i = j

/-- A device that is not half set up is set up, or has no buffer. -/
theorem Answers.cases {a : Answers} (h : ¬ a.Half) :
    (∃ b q g, a = ⟨some b, some q, some g⟩) ∨ a.vmalloc = none := by
  obtain ⟨data, queue, disk⟩ := a
  cases data with
  | none => exact .inr rfl
  | some b =>
    cases queue with
    | none => exact absurd ⟨by simp, .inl rfl⟩ h
    | some q =>
      cases disk with
      | none => exact absurd ⟨by simp, .inr rfl⟩ h
      | some g => exact .inl ⟨b, q, g, rfl⟩

/-- A link leads from a resource of its device to its buffer. -/
theorem Answers.mem_of_link {a : Answers} {x r : Resource} (h : a.link = some (x, r)) :
    ∃ b q g, a = ⟨some b, some q, some g⟩ ∧ x = .disk g ∧ r = .buffer b := by
  obtain ⟨data, queue, disk⟩ := a
  unfold Answers.link at h
  split at h
  · next b q g hb hq hg =>
    obtain ⟨rfl, rfl⟩ := Prod.mk.inj (Option.some.inj h)
    dsimp only at hb hq hg
    exact ⟨b, q, g, by rw [hb, hq, hg], rfl, rfl⟩
  · cases h

/-- A link is that of a device with resources. -/
theorem Answers.resources_ne_nil {a : Answers} {l : Resource × Resource} (h : a.link = some l) :
    a.resources ≠ [] := by
  obtain ⟨b, q, g, rfl, -, -⟩ := Answers.mem_of_link (x := l.1) (r := l.2) h
  exact List.cons_ne_nil _ _

/-- `setup_device` acquires the resources of a device and releases none of them. -/
theorem Answers.acquire_resources {a : Answers} {r : Resource} (h : r ∈ a.resources) :
    .acquire r ∈ a.setupEntries ∧ .release r ∉ a.setupEntries := by
  obtain ⟨_ | b, _ | q, _ | g⟩ := a <;> simp_all [Answers.resources, Answers.setupEntries]

/-- Only the devices with resources count. -/
theorem Live.relabel {log : List (Event Resource)} {P P' : Nat → Prop} (h : Live ans P log)
    (hP : ∀ i, (ans i).resources ≠ [] → (P' i ↔ P i)) : Live ans P' log where
  safe := h.safe
  held r := by
    rw [h.held]
    constructor
    · rintro ⟨i, hi, hri⟩
      exact ⟨i, (hP i (List.ne_nil_of_mem hri)).2 hi, hri⟩
    · rintro ⟨i, hi, hri⟩
      exact ⟨i, (hP i (List.ne_nil_of_mem hri)).1 hi, hri⟩
  links l hl := by
    obtain ⟨i, hi, hlink⟩ := h.links l hl
    exact ⟨i, (hP i (Answers.resources_ne_nil hlink)).2 hi, hlink⟩
  apart i j r hi hj hri hrj :=
    h.apart i j r ((hP i (List.ne_nil_of_mem hri)).1 hi) ((hP j (List.ne_nil_of_mem hrj)).1 hj)
      hri hrj

theorem Live.nil (ans : Nat → Answers) : Live ans (· < 0) [] := by
  constructor
  · exact .nil
  · simp
  · simp
  · intro i j r hi
    exact absurd hi (Nat.not_lt_zero i)

/-- The setup of one more device. -/
theorem Live.setup {log : List (Event Resource)} {k : Nat} (h : Live ans (· < k) log)
    (hwhole : ¬ (ans k).Half) (hf : Fresh (log ++ (ans k).setupEntries)) :
    Live ans (· < k + 1) (log ++ (ans k).setupEntries) := by
  rcases Answers.cases hwhole with ⟨b, q, g, hans⟩ | hnone
  · have hlog : log ++ (ans k).setupEntries = log ++ [.acquire (.buffer b)] ++
        [.acquire (.queue q)] ++ [.acquire (.disk g)] ++ [.link (.disk g) (.buffer b)] := by
      simp [hans, Answers.setupEntries]
    have hres : ∀ r, r ∈ (ans k).resources ↔ r = .buffer b ∨ r = .queue q ∨ r = .disk g := by
      simp [hans, Answers.resources]
    have hnew : ∀ r, r ∈ (ans k).resources → ∀ i < k, r ∉ (ans i).resources := by
      intro r hr i hi hri
      obtain ⟨hacquire, hkeep⟩ := Answers.acquire_resources hr
      exact hf.notMem_held hacquire hkeep ((h.held r).2 ⟨i, hi, hri⟩)
    rw [hlog]
    have hsafe := ((h.safe.acquire (.buffer b)).acquire (.queue q)).acquire (.disk g)
    constructor
    · refine hsafe.link _ ?_
      simp only [held_snoc, Event.heldAfter, Finset.mem_insert, true_or, or_true]
    · intro r
      simp only [held_snoc, Event.heldAfter, Finset.mem_insert, h.held, Nat.lt_succ_iff_lt_or_eq,
        or_and_right, exists_or, exists_eq_left, hres]
      grind
    · intro l hl
      simp only [links_snoc, Event.linksAfter, Finset.mem_insert] at hl
      rcases hl with rfl | hl
      · exact ⟨k, Nat.lt_succ_self k, by simp [hans, Answers.link]⟩
      · obtain ⟨i, hi, hlink⟩ := h.links l hl
        exact ⟨i, Nat.lt_succ_of_lt hi, hlink⟩
    · intro i j r hi hj hri hrj
      rcases Nat.lt_succ_iff_lt_or_eq.1 hi with hi | rfl
      · rcases Nat.lt_succ_iff_lt_or_eq.1 hj with hj | rfl
        · exact h.apart i j r hi hj hri hrj
        · exact absurd hri (hnew r hrj i hi)
      · rcases Nat.lt_succ_iff_lt_or_eq.1 hj with hj | rfl
        · exact absurd hrj (hnew r hri j hj)
        · rfl
  · have hlog : log ++ (ans k).setupEntries = log := by simp [Answers.setupEntries, hnone]
    have hres : (ans k).resources = [] := by simp [Answers.resources, hnone]
    rw [hlog]
    refine h.relabel ?_
    intro i hi
    have hne : i ≠ k := by
      rintro rfl
      exact hi hres
    omega

/-- The removal of a device. -/
theorem Live.exit {log : List (Event Resource)} {P : Nat → Prop} {k : Nat} (h : Live ans P log)
    (hk : P k) (hwhole : ¬ (ans k).Half) :
    Live ans (fun i => P i ∧ i ≠ k) (log ++ (ans k).dev.exitEntries) := by
  rcases Answers.cases hwhole with ⟨b, q, g, hans⟩ | hnone
  · have hlog : log ++ (ans k).dev.exitEntries = log ++ [.unlink (.disk g)] ++
        [.release (.disk g)] ++ [.release (.queue q)] ++ [.release (.buffer b)] := by
      simp [hans, Answers.dev, Dev.exitEntries]
    have hres : ∀ r, r ∈ (ans k).resources ↔ r = .buffer b ∨ r = .queue q ∨ r = .disk g := by
      simp [hans, Answers.resources]
    rw [hlog]
    have hheld : ∀ r, r ∈ (ans k).resources → r ∈ Ledger.held log := by
      intro r hr
      exact (h.held r).2 ⟨k, hk, hr⟩
    have hsafe₁ : Safe (log ++ [.unlink (.disk g)]) := h.safe.unlink _
    have hsafe₂ : Safe (log ++ [.unlink (.disk g)] ++ [.release (.disk g)]) := by
      refine hsafe₁.release ?_ ?_
      · rw [held_snoc]
        exact hheld _ ((hres _).2 (by simp))
      · intro x hx
        rw [links_snoc] at hx
        obtain ⟨i, hi, hlink⟩ := h.links _ (Finset.mem_filter.1 hx).1
        obtain ⟨b', q', g', -, -, hbuf⟩ := Answers.mem_of_link hlink
        cases hbuf
    have hsafe₃ : Safe (log ++ [.unlink (.disk g)] ++ [.release (.disk g)] ++
        [.release (.queue q)]) := by
      refine hsafe₂.release ?_ ?_
      · simp only [held_snoc, Event.heldAfter, Finset.mem_erase]
        exact ⟨Resource.noConfusion, hheld _ ((hres _).2 (by simp))⟩
      · intro x hx
        simp only [links_snoc, Event.linksAfter, Finset.mem_filter] at hx
        obtain ⟨i, hi, hlink⟩ := h.links _ hx.1
        obtain ⟨b', q', g', -, -, hbuf⟩ := Answers.mem_of_link hlink
        cases hbuf
    constructor
    · refine hsafe₃.release ?_ ?_
      · simp only [held_snoc, Event.heldAfter, Finset.mem_erase]
        exact ⟨Resource.noConfusion, Resource.noConfusion, hheld _ ((hres _).2 (by simp))⟩
      · -- the only link to the buffer was that of the disk, which is gone
        intro x hx
        simp only [links_snoc, Event.linksAfter, Finset.mem_filter] at hx
        obtain ⟨i, hi, hlink⟩ := h.links _ hx.1
        obtain ⟨b', q', g', hans', rfl, hbuf⟩ := Answers.mem_of_link hlink
        obtain rfl := Resource.buffer.inj hbuf
        have hi' : i = k := h.apart i k (.buffer b) hi hk (by simp [hans', Answers.resources])
          ((hres _).2 (by simp))
        rw [hi', hans] at hans'
        obtain ⟨-, -, hg⟩ := Answers.mk.inj hans'
        exact hx.2 (congrArg Resource.disk (Option.some.inj hg).symm)
    · intro r
      simp only [held_snoc, Event.heldAfter, Finset.mem_erase, h.held]
      constructor
      · rintro ⟨hb, hq, hg, i, hi, hri⟩
        refine ⟨i, ⟨hi, ?_⟩, hri⟩
        rintro rfl
        rcases (hres r).1 hri with rfl | rfl | rfl
        · exact hb rfl
        · exact hq rfl
        · exact hg rfl
      · rintro ⟨i, ⟨hi, hne⟩, hri⟩
        have hother : r ∉ (ans k).resources := fun hr => hne (h.apart i k r hi hk hri hr)
        rw [hres] at hother
        simp only [not_or] at hother
        exact ⟨hother.1, hother.2.1, hother.2.2, i, hi, hri⟩
    · intro l hl
      simp only [links_snoc, Event.linksAfter, Finset.mem_filter] at hl
      obtain ⟨i, hi, hlink⟩ := h.links l hl.1
      refine ⟨i, ⟨hi, ?_⟩, hlink⟩
      rintro rfl
      obtain ⟨b', q', g', hans', hdisk, -⟩ := Answers.mem_of_link (x := l.1) (r := l.2) hlink
      rw [hans] at hans'
      obtain ⟨-, -, hg⟩ := Answers.mk.inj hans'
      exact hl.2 (hdisk.trans (congrArg Resource.disk (Option.some.inj hg).symm))
    · intro i j r hi hj
      exact h.apart i j r hi.1 hj.1
  · have hlog : log ++ (ans k).dev.exitEntries = log := by
      simp [Answers.dev, Dev.exitEntries, hnone]
    have hres : (ans k).resources = [] := by simp [Answers.resources, hnone]
    rw [hlog]
    refine h.relabel ?_
    intro i hi
    refine and_iff_left ?_
    rintro rfl
    exact hi hres

/-- The ledger after the setup of whole devices. -/
theorem Live.of_setup (hwhole : ∀ i < n, ¬ (ans i).Half)
    (hf : Fresh ((List.range n).flatMap fun i => (ans i).setupEntries)) :
    Live ans (· < n) ((List.range n).flatMap fun i => (ans i).setupEntries) := by
  induction n with
  | zero => exact .nil ans
  | succ n ih =>
    simp only [List.range_succ, List.flatMap_append, List.flatMap_singleton] at hf ⊢
    have hpre := ih (fun i hi => hwhole i (Nat.lt_succ_of_lt hi))
      (hf.of_prefix (List.prefix_append ..))
    exact hpre.setup (hwhole n (Nat.lt_succ_self n)) hf

/-- The ledger after the removal of the first of the devices. -/
theorem Live.of_exit {log : List (Event Resource)} (h : Live ans (· < n) log)
    (hwhole : ∀ i < n, ¬ (ans i).Half) {k : Nat} (hk : k ≤ n) :
    Live ans (fun i => k ≤ i ∧ i < n)
      (log ++ (List.range k).flatMap fun i => (ans i).dev.exitEntries) := by
  induction k with
  | zero => simpa using h
  | succ k ih =>
    simp only [List.range_succ, List.flatMap_append, List.flatMap_singleton, ← List.append_assoc]
    have hlive := (ih (by omega)).exit ⟨le_rfl, hk⟩ (hwhole k hk)
    have hset : (fun i => (k ≤ i ∧ i < n) ∧ i ≠ k) = fun i => k + 1 ≤ i ∧ i < n := by
      funext i
      exact propext (by omega)
    rwa [hset] at hlive

/-- **The module is balanced exactly when no device is half set up.** For any number of devices, in
either mode and whatever the allocators answer: it releases what it has acquired once, releases
nothing else, and keeps the buffer of each disk as long as the disk is there, if and only if either
it does not load or no device fails after its buffer was allocated. -/
theorem balanced_iff_noHalfDevice {mode major : Int} {kmalloc : Bool} {dev : Nat → Dev}
    {queue : Nat → Queue} {gendisk : Nat → Gendisk}
    (hf : Fresh (lifetime n mode major kmalloc ans (.start dev queue gendisk)).log) :
    Balanced (lifetime n mode major kmalloc ans (.start dev queue gendisk)).log ↔
      (0 < major ∧ kmalloc → ∀ i < n, ¬ (ans i).Half) := by
  by_cases hload : 0 < major ∧ kmalloc
  · obtain ⟨hmajor, rfl⟩ := id hload
    rw [lifetime_log hmajor] at hf ⊢
    have hnil : (Module.start dev queue gendisk).log = [] := rfl
    rw [hnil, List.nil_append] at hf ⊢
    constructor
    · intro h _
      exact not_half_of_balanced h hf (surplus_lifetime ans n)
    · intro hwhole
      have hsetup := Live.of_setup (hwhole hload) (hf.of_prefix (List.prefix_append ..))
      have hexit := hsetup.of_exit (hwhole hload) le_rfl
      refine (balanced_iff hf).2 ⟨hexit.safe, Finset.eq_empty_of_forall_notMem ?_⟩
      intro r hr
      obtain ⟨i, hi, -⟩ := (hexit.held r).1 hr
      omega
  · rw [lifetime_of_not_loads hload] at hf ⊢
    refine ⟨fun _ h => absurd h hload, fun _ => (balanced_iff hf).2 ⟨.nil, rfl⟩⟩

end

/-- Four devices that get all they ask for. -/
theorem wholeDevices_balanced :
    Balanced (lifetime 4 0 1 true (fun i => ⟨some i, some i, some i⟩) unloaded).log := by
  refine (balanced_iff_noHalfDevice (.of_freshFrom (by decide +kernel))).2 ?_
  intro _ i _
  simp [Answers.Half]

/-- `blk_init_queue` fails for the first device, the others get all they ask for. -/
def queueFails (i : Nat) : Answers :=
  if i = 0 then ⟨some 0, none, none⟩ else ⟨some i, some i, some i⟩

/-- **A half device frees its buffer twice.** -/
theorem queueFails_not_balanced :
    ¬ ∀ (n : Nat) (mode major : Int) (kmalloc : Bool) (ans : Nat → Answers) (m : Module),
      m.log = [] → Fresh (lifetime n mode major kmalloc ans m).log →
        Balanced (lifetime n mode major kmalloc ans m).log := by
  intro hall
  have hf : Fresh (lifetime 4 0 1 true queueFails unloaded).log :=
    .of_freshFrom (by decide +kernel)
  have honce := (hall 4 0 1 true queueFails unloaded rfl hf).once (.buffer 0)
  have hacquired : (lifetime 4 0 1 true queueFails unloaded).log.countP
      (Event.acquires (· = .buffer 0)) = 1 := by decide +kernel
  have hreleased : (lifetime 4 0 1 true queueFails unloaded).log.countP
      (Event.releases (· = .buffer 0)) = 2 := by decide +kernel
  omega

end LinuxTraining.VmemDisk
