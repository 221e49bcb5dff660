import LinuxTraining.Lib.Ledger
import LinuxTraining.Kernel

/-!
# Registering the character drivers

`globalmem_init` of `ch6` and `ch7`, that of `ch6/multi_globalmem.c`, and `globalfifo_init` of `ch8`
and `ch9` register a region of minors, allocate the devices and add a `cdev` for each; they differ
in the number of minors and in what they initialise after that. Each step can fail. What the module
holds is a ledger. `registration_iff`: the initialisation is all or nothing exactly when no
`cdev_add` fails, because `globalmem_setup_cdev` only prints its error.
-/

namespace LinuxTraining.Registration

open Lib Ledger

def ENOMEM : Int := 12

/-- What a module holds: the region of minors of a major number, the memory of its devices, and the
`cdev` of each minor. -/
inductive Resource
  | region (major count : Nat)
  | memory
  | cdev (index : Nat)
  deriving DecidableEq

/-- A module: its major number, a parameter that 0 leaves to the kernel, and what it has done. -/
structure Module where
  major : Nat
  log : List (Event Resource)

/-- What the kernel answers: `register_chrdev_region` or `alloc_chrdev_region`, the major number
that the latter gives, `kzalloc`, and `cdev_add` for each minor. -/
structure Answers where
  region : Int
  major : Nat
  kzalloc : Bool
  cdevAdd : Nat → Int

/-- A module that has not done anything. -/
def Module.loaded (major : Nat) : Module := ⟨major, []⟩

/-- An entry of the ledger. -/
def Module.note (m : Module) (e : Event Resource) : Module := { m with log := m.log ++ [e] }

/-- The module with its region registered. -/
def Module.withRegion (m : Module) (ans : Answers) (n : Nat) : Module :=
  let major := if m.major = 0 then ans.major else m.major
  { m with major := major }.note (.acquire (.region major n))

/-- `globalmem_setup_cdev`: an error of `cdev_add` is only printed. -/
def setupCdev (ans : Answers) (m : Module) (index : Nat) : Module :=
  if ans.cdevAdd index = 0 then m.note (.acquire (.cdev index)) else m

/-- `globalmem_init` for `n` minors. -/
def initMinors (n : Nat) (ans : Answers) (m : Module) : Int × Module :=
  if ans.region < 0 then (ans.region, m)
  else
    let m := m.withRegion ans n
    if ans.kzalloc then
      (0, (List.range n).foldl (setupCdev ans) (m.note (.acquire .memory)))
    else (-ENOMEM, m.note (.release (.region m.major n)))

/-- `cdev_del`. -/
def cdevDel (m : Module) (index : Nat) : Module := m.note (.release (.cdev index))

/-- `globalmem_exit` for `n` minors. -/
def exitMinors (n : Nat) (m : Module) : Module :=
  (((List.range n).foldl cdevDel m).note (.release .memory)).note (.release (.region m.major n))

/-! ## The drivers -/

/-- `globalmem_init` of `ch6/multi_globalmem.c`, with any `DEVICE_NUM`. -/
def Multi.globalmemInit (deviceNum : Nat) := initMinors deviceNum

/-- `globalmem_exit` of `ch6/multi_globalmem.c`. -/
def Multi.globalmemExit (deviceNum : Nat) := exitMinors deviceNum

/-- `globalmem_init` of `ch6/globalmem.c`. -/
def Ch6.globalmemInit := initMinors 1

/-- `globalmem_exit` of `ch6/globalmem.c`. -/
def Ch6.globalmemExit := exitMinors 1

/-- `globalmem_init` of `ch7/globalmem.c`, before its `mutex_init`. -/
def Ch7.globalmemInit := initMinors 1

/-- `globalmem_exit` of `ch7/globalmem.c`. -/
def Ch7.globalmemExit := exitMinors 1

/-- `globalfifo_init` of `ch8/globalfifo.c`, before its `mutex_init` and `init_waitqueue_head`. -/
def Ch8.globalfifoInit := initMinors 1

/-- `globalfifo_exit` of `ch8/globalfifo.c`. -/
def Ch8.globalfifoExit := exitMinors 1

/-- `globalfifo_init` of `ch9/globalfifo.c`, before its `mutex_init` and `init_waitqueue_head`. -/
def Ch9.globalfifoInit := initMinors 1

/-- `globalfifo_exit` of `ch9/globalfifo.c`. -/
def Ch9.globalfifoExit := exitMinors 1

/-- The drivers that register a region. -/
inductive Driver
  | multiGlobalmem (deviceNum : Nat)
  | globalmemCh6
  | globalmemCh7
  | globalfifoCh8
  | globalfifoCh9

/-- The number of minors of a driver. -/
def Driver.minors : Driver → Nat
  | .multiGlobalmem deviceNum => deviceNum
  | .globalmemCh6 | .globalmemCh7 | .globalfifoCh8 | .globalfifoCh9 => 1

/-- The function that `module_init` names. -/
def Driver.init : Driver → Answers → Module → Int × Module
  | .multiGlobalmem deviceNum => Multi.globalmemInit deviceNum
  | .globalmemCh6 => Ch6.globalmemInit
  | .globalmemCh7 => Ch7.globalmemInit
  | .globalfifoCh8 => Ch8.globalfifoInit
  | .globalfifoCh9 => Ch9.globalfifoInit

/-- The function that `module_exit` names. -/
def Driver.exit : Driver → Module → Module
  | .multiGlobalmem deviceNum => Multi.globalmemExit deviceNum
  | .globalmemCh6 => Ch6.globalmemExit
  | .globalmemCh7 => Ch7.globalmemExit
  | .globalfifoCh8 => Ch8.globalfifoExit
  | .globalfifoCh9 => Ch9.globalfifoExit

/-- The initialisation of a driver with `n` minors left all or nothing behind: it returned 0 if and
only if it holds the region and the `cdev` of every minor, it holds nothing if it did not return 0,
and otherwise the exit function releases only what is held, and all of it. -/
structure AllOrNothing (n : Nat) (exit : Module → Module) (r : Int × Module) : Prop where
  complete : r.1 = 0 ↔ .region r.2.major n ∈ held r.2.log ∧ ∀ i < n, .cdev i ∈ held r.2.log
  nothing : r.1 ≠ 0 → held r.2.log = ∅
  exits : r.1 = 0 → Safe (exit r.2).log ∧ held (exit r.2).log = ∅

/-! ## Adding and deleting the `cdev`s -/

section
variable {n : Nat} {ans : Answers} {m : Module}

@[simp] theorem Module.note_log (m : Module) (e : Event Resource) :
    (m.note e).log = m.log ++ [e] := rfl

/-- The loop of `globalmem_init` adds the `cdev`s that `cdev_add` accepts, and nothing else. -/
theorem setupCdev_spec (ans : Answers) (m : Module) (n : Nat) (hs : Safe m.log)
    (hl : links m.log = ∅) :
    let m' := (List.range n).foldl (setupCdev ans) m
    m'.major = m.major ∧ Safe m'.log ∧ links m'.log = ∅ ∧
      ∀ r, r ∈ held m'.log ↔ r ∈ held m.log ∨ ∃ i < n, ans.cdevAdd i = 0 ∧ r = .cdev i := by
  induction n with
  | zero => simpa using ⟨hs, hl⟩
  | succ n ih =>
    obtain ⟨hmajor, hsafe, hlinks, hheld⟩ := ih
    simp only [List.range_succ, List.foldl_append, List.foldl_cons, List.foldl_nil]
    by_cases hn : ans.cdevAdd n = 0
    · rw [setupCdev, if_pos hn]
      refine ⟨hmajor, hsafe.acquire _, ?_, fun r => ?_⟩
      · rw [Module.note_log, links_snoc, hlinks]
        rfl
      · rw [Module.note_log, held_snoc, Event.heldAfter, Finset.mem_insert, hheld]
        constructor
        · rintro (rfl | hr | ⟨i, hi, hadd, rfl⟩)
          · exact .inr ⟨n, by omega, hn, rfl⟩
          · exact .inl hr
          · exact .inr ⟨i, by omega, hadd, rfl⟩
        · rintro (hr | ⟨i, hi, hadd, rfl⟩)
          · exact .inr (.inl hr)
          · rcases Nat.lt_succ_iff_lt_or_eq.1 hi with hlt | rfl
            · exact .inr (.inr ⟨i, hlt, hadd, rfl⟩)
            · exact .inl rfl
    · rw [setupCdev, if_neg hn]
      refine ⟨hmajor, hsafe, hlinks, fun r => ?_⟩
      rw [hheld]
      refine or_congr_right ⟨?_, ?_⟩
      · rintro ⟨i, hi, hadd, rfl⟩
        exact ⟨i, by omega, hadd, rfl⟩
      · rintro ⟨i, hi, hadd, rfl⟩
        rcases Nat.lt_succ_iff_lt_or_eq.1 hi with hlt | rfl
        · exact ⟨i, hlt, hadd, rfl⟩
        · exact absurd hadd hn

/-- The loop of `globalmem_exit` releases the `cdev`s, if they are held. -/
theorem cdevDel_spec (m : Module) (n : Nat) (hs : Safe m.log) (hl : links m.log = ∅)
    (hheld : ∀ i < n, .cdev i ∈ held m.log) :
    let m' := (List.range n).foldl cdevDel m
    Safe m'.log ∧ links m'.log = ∅ ∧
      ∀ r, r ∈ held m'.log ↔ r ∈ held m.log ∧ ∀ i < n, r ≠ .cdev i := by
  induction n with
  | zero => simpa using ⟨hs, hl⟩
  | succ n ih =>
    obtain ⟨hsafe, hlinks, hkeep⟩ := ih fun i hi => hheld i (by omega)
    simp only [List.range_succ, List.foldl_append, List.foldl_cons, List.foldl_nil]
    have hlast : Resource.cdev n ∈ held ((List.range n).foldl cdevDel m).log := by
      refine (hkeep _).2 ⟨hheld n (by omega), fun i hi heq => ?_⟩
      cases heq
      omega
    refine ⟨hsafe.release hlast (by simp [hlinks]), ?_, fun r => ?_⟩
    · rw [cdevDel, Module.note_log, links_snoc, hlinks]
      rfl
    · rw [cdevDel, Module.note_log, held_snoc, Event.heldAfter, Finset.mem_erase, hkeep]
      constructor
      · rintro ⟨hne, hr, hother⟩
        refine ⟨hr, fun i hi => ?_⟩
        rcases Nat.lt_succ_iff_lt_or_eq.1 hi with hlt | rfl
        · exact hother i hlt
        · exact hne
      · rintro ⟨hr, hother⟩
        exact ⟨hother n (by omega), hr, fun i hi => hother i (by omega)⟩

/-- The exit function gives back what a complete initialisation holds. -/
theorem exitMinors_spec (hs : Safe m.log) (hl : links m.log = ∅)
    (hheld : ∀ r, r ∈ held m.log ↔
      r = .region m.major n ∨ r = .memory ∨ ∃ i < n, r = .cdev i) :
    Safe (exitMinors n m).log ∧ held (exitMinors n m).log = ∅ := by
  obtain ⟨hsafe, hlinks, hkeep⟩ :=
    cdevDel_spec m n hs hl fun i hi => (hheld _).2 (.inr (.inr ⟨i, hi, rfl⟩))
  have hmemory : Resource.memory ∈ held ((List.range n).foldl cdevDel m).log := by
    refine (hkeep _).2 ⟨(hheld _).2 (.inr (.inl rfl)), ?_⟩
    intro i _ heq
    cases heq
  have hregion : .region m.major n ∈
      held (((List.range n).foldl cdevDel m).note (.release .memory)).log := by
    rw [Module.note_log, held_snoc, Event.heldAfter, Finset.mem_erase]
    refine ⟨Resource.noConfusion, (hkeep _).2 ⟨(hheld _).2 (.inl rfl), ?_⟩⟩
    intro i _ heq
    cases heq
  have hlinks' : links (((List.range n).foldl cdevDel m).note (.release .memory)).log = ∅ := by
    rw [Module.note_log, links_snoc, hlinks]
    rfl
  have hsafe' := hsafe.release hmemory (by simp [hlinks])
  refine ⟨hsafe'.release hregion (by simp [← Module.note_log, hlinks']),
    Finset.eq_empty_of_forall_notMem fun r hr => ?_⟩
  rw [exitMinors, Module.note_log, Module.note_log, held_snoc, held_snoc, Event.heldAfter,
    Event.heldAfter, Finset.mem_erase, Finset.mem_erase, hkeep, hheld] at hr
  obtain ⟨hne, hne', hr, hdel⟩ := hr
  rcases hr with rfl | rfl | ⟨i, hi, rfl⟩
  · exact hne rfl
  · exact hne' rfl
  · exact hdel i hi rfl

/-- What a module that got its region and its memory holds. -/
theorem initMinors_spec (n : Nat) (ans : Answers) (major : Nat) :
    let m₁ := ((Module.loaded major).withRegion ans n).note (.acquire .memory)
    let m' := (List.range n).foldl (setupCdev ans) m₁
    Safe m'.log ∧ links m'.log = ∅ ∧ ∀ r, r ∈ held m'.log ↔
      r = .region m'.major n ∨ r = .memory ∨ ∃ i < n, ans.cdevAdd i = 0 ∧ r = .cdev i := by
  intro m₁ m'
  have hsafe : Safe m₁.log := (Safe.nil.acquire _).acquire _
  have hlinks : links m₁.log = ∅ := rfl
  obtain ⟨hmajor, hsafe', hlinks', hheld⟩ := setupCdev_spec ans m₁ n hsafe hlinks
  refine ⟨hsafe', hlinks', fun r => ?_⟩
  have hbase : r ∈ held m₁.log ↔ r = .region m₁.major n ∨ r = .memory := by
    simp [m₁, Module.withRegion, Module.loaded, Module.note, held, Event.heldAfter, or_comm]
  rw [hheld, hbase, hmajor, or_assoc]

end

/-! ## The result -/

/-- Initialisation for `n` minors. -/
theorem initMinors_allOrNothing_iff (n : Nat) (ans : Answers) (major : Nat) :
    AllOrNothing n (exitMinors n) (initMinors n ans (.loaded major)) ↔
      ans.region < 0 ∨ ans.kzalloc = false ∨ ∀ i < n, ans.cdevAdd i = 0 := by
  unfold initMinors
  split
  · next hregion =>
    refine iff_of_true ⟨?_, fun _ => rfl, ?_⟩ (.inl hregion)
    · exact iff_of_false (by omega) (fun h => by simp [Module.loaded] at h)
    · intro h0
      dsimp only at h0
      omega
  · next hregion =>
    dsimp only
    split
    · next hkzalloc =>
      obtain ⟨hsafe, hlinks, hheld⟩ := initMinors_spec n ans major
      constructor
      · intro h
        refine .inr (.inr fun i hi => ?_)
        rcases (hheld _).1 ((h.complete.1 rfl).2 i hi) with heq | heq | ⟨j, -, hadd, heq⟩
        · cases heq
        · cases heq
        · cases heq
          exact hadd
      · intro hcond
        have hadd : ∀ i < n, ans.cdevAdd i = 0 := by
          rcases hcond with h | h | h
          · exact absurd h hregion
          · rw [hkzalloc] at h
            cases h
          · exact h
        refine ⟨iff_of_true rfl ⟨(hheld _).2 (.inl rfl), fun i hi => ?_⟩, fun h => absurd rfl h, ?_⟩
        · exact (hheld _).2 (.inr (.inr ⟨i, hi, hadd i hi, rfl⟩))
        · intro _
          refine exitMinors_spec hsafe hlinks fun r => (hheld r).trans ?_
          refine or_congr_right (or_congr_right ⟨?_, ?_⟩)
          · rintro ⟨i, hi, -, rfl⟩
            exact ⟨i, hi, rfl⟩
          · rintro ⟨i, hi, rfl⟩
            exact ⟨i, hi, hadd i hi, rfl⟩
    · next hkzalloc =>
      have herror : -ENOMEM ≠ 0 := by decide
      have hnothing : held (((Module.loaded major).withRegion ans n).note
          (.release (.region ((Module.loaded major).withRegion ans n).major n))).log = ∅ := by
        simp [Module.withRegion, Module.loaded, Module.note, held, Event.heldAfter]
      refine iff_of_true ⟨?_, fun _ => hnothing, ?_⟩ (.inr (.inl (by simpa using hkzalloc)))
      · refine iff_of_false herror fun h => ?_
        rw [hnothing] at h
        exact absurd h.1 (Finset.notMem_empty _)
      · intro h0
        exact absurd h0 herror

/-- **Loading a character driver is all or nothing exactly when no `cdev_add` fails**, unless the
region or the memory is refused before that. -/
theorem registration_iff (d : Driver) (ans : Answers) (major : Nat) :
    AllOrNothing d.minors d.exit (d.init ans (.loaded major)) ↔
      ans.region < 0 ∨ ans.kzalloc = false ∨ ∀ i < d.minors, ans.cdevAdd i = 0 := by
  cases d <;> exact initMinors_allOrNothing_iff _ ans major

/-- Ten minors, of which the fourth cannot be added. -/
def fourthFails : Answers := ⟨0, 240, true, fun i => if i = 3 then -ENOMEM else 0⟩

/-- `globalmem_init` returns 0 without the fourth, and `globalmem_exit` deletes it all the same. -/
theorem fourthFails_not_allOrNothing :
    ((Driver.multiGlobalmem 10).init fourthFails (.loaded 230)).1 = 0 ∧
      .cdev 3 ∉ held ((Driver.multiGlobalmem 10).init fourthFails (.loaded 230)).2.log ∧
      .release (.cdev 3) ∈
        ((Driver.multiGlobalmem 10).exit
          ((Driver.multiGlobalmem 10).init fourthFails (.loaded 230)).2).log ∧
      ¬ AllOrNothing 10 (Driver.multiGlobalmem 10).exit
        ((Driver.multiGlobalmem 10).init fourthFails (.loaded 230)) := by
  have hret : ((Driver.multiGlobalmem 10).init fourthFails (.loaded 230)).1 = 0 := rfl
  have hmissing : .cdev 3 ∉
      held ((Driver.multiGlobalmem 10).init fourthFails (.loaded 230)).2.log := by
    decide +kernel
  refine ⟨hret, hmissing, by decide +kernel, fun h => hmissing ?_⟩
  exact (h.complete.1 hret).2 3 (by decide)

end LinuxTraining.Registration
