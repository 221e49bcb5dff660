import LinuxTraining.Globalfifo.Linear

/-!
# The buffer shift of `globalfifo_read`

`current_len` stays within the buffer whatever `memcpy` does to its contents
(`currentLen_le_of_reach`). After a read of `c` bytes the rest of the queue moves down by `c`, with
`memcpy`: the ranges are apart, and the rest of the queue is right under every `memcpy`, exactly
when the rest is no longer than `c` (`shift_iff`).
-/

namespace LinuxTraining.Globalfifo

open Lib

section
variable {W : LongWidth} {cp : Copier Byte} {async : Bool} {c : RwCode} {d : Dev} {p : Nat}
  {x : Proc} {task : TaskState} {sig : Bool} {limit : Option Fault} {e : Effect}

/-! ## The bound -/

/-- The copy of a read or a write keeps `current_len` within the buffer. -/
theorem copy_bound (hd : d.currentLen ≤ GLOBALFIFO_SIZE) (count : Nat) (buf : Mem Byte) :
    (readCopy W cp count d limit).dev.currentLen ≤ GLOBALFIFO_SIZE ∧
      (writeCopy W buf count d limit).dev.currentLen ≤ GLOBALFIFO_SIZE := by
  have hsize : GLOBALFIFO_SIZE = 4096 := rfl
  have hW := W.two_pow_le
  refine ⟨?_, ?_⟩
  · have hle : readCount d count ≤ d.currentLen := by rw [readCount_eq]; omega
    unfold readCopy
    dsimp only
    split
    · exact hd
    · show usub W.bits d.currentLen (readCount d count) % 2 ^ 32 ≤ GLOBALFIFO_SIZE
      rw [usub_of_le hle (by omega)]
      exact (Nat.mod_le _ _).trans ((Nat.sub_le _ _).trans hd)
  · have hle : writeCount d count ≤ GLOBALFIFO_SIZE - d.currentLen := by
      rw [writeCount_eq hd]
      omega
    unfold writeCopy
    dsimp only
    split
    · exact hd
    · show uadd W.bits d.currentLen (writeCount d count) % 2 ^ 32 ≤ GLOBALFIFO_SIZE
      rw [uadd_of_lt (by omega)]
      exact (Nat.mod_le _ _).trans (by omega)

theorem mutexLock_len {next : Pc} (h : mutexLock d p x next = some e) :
    e.dev.currentLen = d.currentLen := by
  obtain ⟨-, rfl⟩ := mutexLock_eq_some h
  rfl

/-- A step keeps the bound, if the copy does. -/
theorem rwStep_bound (hd : d.currentLen ≤ GLOBALFIFO_SIZE)
    (hcopy : (c.copy d limit).dev.currentLen ≤ GLOBALFIFO_SIZE)
    (h : rwStep c d p x task sig limit = some e) : e.dev.currentLen ≤ GLOBALFIFO_SIZE := by
  cases rwStep_rule h with
  | addWait => cases c.addsTo <;> exact hd
  | out2 => cases c.removesFrom <;> exact hd
  | copied | fault => exact hcopy
  | lock | again | sleep | pass | setState | unlock1 | schedule | interrupted | retry | relock
  | wake | wakeKill | killFasync | out | setRunning => exact hd

/-- **A step keeps `current_len` within the buffer.** -/
theorem procStep_bound (hd : d.currentLen ≤ GLOBALFIFO_SIZE)
    (h : procStep W cp async d p x task sig limit = some e) :
    e.dev.currentLen ≤ GLOBALFIFO_SIZE := by
  unfold procStep at h
  split at h
  · cases h
  · cases h; exact hd
  · unfold callStep at h
    split at h
    · exact rwStep_bound hd (copy_bound hd _ fun _ => 0).1 h
    · exact rwStep_bound hd (@copy_bound W cp _ _ hd _ _).2 h
    · unfold globalfifoIoctl at h
      split at h
      · split at h <;> cases h <;> exact hd
      · exact mutexLock_len h ▸ hd
      · cases h; exact Nat.zero_le _
      · cases h; exact hd
      · cases h
    · unfold globalfifoPoll at h
      split at h
      · exact mutexLock_len h ▸ hd
      all_goals cases h <;> exact hd
    · unfold globalfifoFasync at h
      split at h <;> cases h
      exact hd
    · unfold globalfifoRelease at h
      split at h <;> cases h
      exact hd

/-- **The buffer never overflows**, whatever `memcpy` does with ranges that meet. -/
theorem currentLen_le_of_reach {s : State} (h : (machine W cp async).Reach Machine.anyStep s) :
    s.dev.currentLen ≤ GLOBALFIFO_SIZE := by
  refine h.invariant (I := fun s => s.dev.currentLen ≤ GLOBALFIFO_SIZE) ?_ ?_
  · rintro s rfl
    exact Nat.zero_le _
  · intro s a s' hI _ hs
    replace hs : step W cp async s a = some s' := hs
    cases a with
    | call p file call =>
      simp only [step] at hs
      split at hs <;> cases hs
      exact hI
    | run p limit =>
      obtain ⟨e, he, rfl⟩ := Option.map_eq_some_iff.1 hs
      rw [State.put_dev]
      exact procStep_bound hI he
    | wakeup p => cases hs; exact hI
    | signal p => cases hs; exact hI

/-! ## The shift -/

/-- The ranges that a read of `count` bytes passes to `memcpy` do not meet. -/
def ShiftApart (d : Dev) (count : Nat) : Prop :=
  Apart 0 (readCount d count) (d.currentLen - readCount d count)

instance (d : Dev) (count : Nat) : Decidable (ShiftApart d count) :=
  inferInstanceAs (Decidable (Apart ..))

/-- A read of `count` bytes leaves the queue without its first bytes, under every `memcpy` that
meets the contract. -/
def ShiftRight (W : LongWidth) (d : Dev) (count : Nat) : Prop :=
  ∀ cp : Copier Byte, (readCopy W cp count d none).dev.content =
    d.content.drop (min count d.currentLen)

/-- A `memcpy` that meets the contract, and spoils the memory where the ranges meet. -/
def spoiling : Copier Byte where
  copy m dst src n :=
    if Apart dst src n then m.store dst (m.slice src n) else fun _ => m src + 1
  contract _ _ _ _ h := if_pos h

theorem copyToUser_none (src : List Byte) : (copyToUser none src).2 = 0 := by
  simp [copyToUser]

theorem shiftApart_iff {count : Nat} (hpos : 0 < d.currentLen) :
    ShiftApart d count ↔ d.currentLen ≤ 2 * min count d.currentLen := by
  rw [ShiftApart, Apart, readCount_eq]
  omega

/-- Where the ranges meet, the spoiling `memcpy` changes the first byte of the rest. -/
theorem spoiling_content {count : Nat} (hd : d.currentLen ≤ GLOBALFIFO_SIZE)
    (h : ¬ ShiftApart d count) : (readCopy W spoiling count d none).dev.content ≠
      d.content.drop (min count d.currentLen) := by
  have hsize : GLOBALFIFO_SIZE = 4096 := rfl
  have hW := W.two_pow_le
  have hcount := readCount_eq d count
  have hrest : 0 < d.currentLen - readCount d count := by
    unfold ShiftApart Apart at h
    omega
  have hsub : usub W.bits d.currentLen (readCount d count) = d.currentLen - readCount d count :=
    usub_of_le (by omega) (by omega)
  have hread : (readCopy W spoiling count d none).dev =
      { d with currentLen := d.currentLen - readCount d count,
               mem := fun _ => d.mem (readCount d count) + 1 } := by
    unfold readCopy
    dsimp only
    rw [if_neg (by rw [copyToUser_none]; simp), hsub, Nat.mod_eq_of_lt (by omega)]
    show { d with currentLen := _, mem := if ShiftApart d count then _ else _ } = _
    rw [if_neg h]
  rw [hread, ← hcount, Dev.content, Dev.content, Mem.drop_slice _ _ (by omega)]
  intro heq
  have hhead := congrArg (fun l => l[0]?) heq
  simp [Mem.slice, hrest] at hhead

theorem shiftRight_iff {count : Nat} (hd : d.currentLen ≤ GLOBALFIFO_SIZE) :
    ShiftRight W d count ↔ ShiftApart d count := by
  constructor
  · intro hright
    by_contra h
    exact spoiling_content hd h (hright spoiling)
  · intro h cp
    exact (readCopy_of_complete hd (copyToUser_none _) (.inl h)).2.2.2

/-- **The shift is what `memcpy` promises exactly when the rest is no longer than what is read.** In
every reachable state of a device that holds data, and for every `count`: the ranges are apart, and
the rest of the queue is right under every `memcpy`, if and only if at least half of the queue is
read. -/
theorem shift_iff {s : State} (h : (machine W cp async).Reach Machine.anyStep s)
    (hpos : 0 < s.dev.currentLen) (count : Nat) :
    (ShiftApart s.dev count ↔ s.dev.currentLen ≤ 2 * min count s.dev.currentLen) ∧
      (ShiftRight W s.dev count ↔ s.dev.currentLen ≤ 2 * min count s.dev.currentLen) := by
  refine ⟨shiftApart_iff hpos, ?_⟩
  rw [shiftRight_iff (currentLen_le_of_reach h)]
  exact shiftApart_iff hpos

end

/-- Three bytes are written. -/
def threeBytes : List Act :=
  .call 0 0 (.write (Mem.ofList 0 [97, 98, 99]) 3 false) :: List.replicate 9 (.run 0 none)

theorem exists_threeBytes : ∃ s,
    (machine .w64 Copier.ascending true).Reach Machine.anyStep s ∧ s.dev.currentLen = 3 := by
  have hend : ((machine .w64 Copier.ascending true).runFrom .init threeBytes).map
      (fun s => s.dev.currentLen) = some 3 := by decide +kernel
  obtain ⟨s, hs, hlen⟩ := Option.map_eq_some_iff.1 hend
  exact ⟨s, ⟨_, _, rfl, .of_runFrom (fun _ _ _ => trivial) hs⟩, hlen⟩

/-- Two of three bytes are read as they should be. -/
theorem threeBytes_shift : ∃ s,
    (machine .w64 Copier.ascending true).Reach Machine.anyStep s ∧ s.dev.currentLen = 3 ∧
      ShiftApart s.dev 2 ∧ ShiftRight .w64 s.dev 2 := by
  obtain ⟨s, hreach, hlen⟩ := exists_threeBytes
  obtain ⟨hapart, hright⟩ := shift_iff hreach (by rw [hlen]; decide) 2
  exact ⟨s, hreach, hlen, hapart.2 (by rw [hlen]; decide), hright.2 (by rw [hlen]; decide)⟩

/-- **A read of one of three bytes passes ranges that meet to `memcpy`.** -/
theorem threeBytes_not_apart :
    ¬ ∀ (W : LongWidth) (cp : Copier Byte) (async : Bool) (s : State),
      (machine W cp async).Reach Machine.anyStep s → 0 < s.dev.currentLen →
        ∀ count, ShiftApart s.dev count ∧ ShiftRight W s.dev count := by
  intro hall
  obtain ⟨s, hreach, hlen⟩ := exists_threeBytes
  have hpos : 0 < s.dev.currentLen := by
    rw [hlen]
    decide
  have hapart := (shiftApart_iff hpos).1 (hall _ _ _ s hreach hpos 1).1
  rw [hlen] at hapart
  exact absurd hapart (by decide)

end LinuxTraining.Globalfifo
