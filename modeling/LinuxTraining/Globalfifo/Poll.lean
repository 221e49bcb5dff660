import LinuxTraining.Globalfifo.Shift

/-!
# `globalfifo_poll` and the calls that do not block

A call that runs alone, from a state in which the mutex is free, is a chain of steps of its process
(`Returns`). `globalfifo_poll` tests the fill level at both ends with equality, and so do the loops
of `globalfifo_read` and `globalfifo_write`; with the bound on `current_len` they agree
(`poll_agrees`).
-/

namespace LinuxTraining.Globalfifo

open Lib

section
variable (W : LongWidth) (cp : Copier Byte) (async : Bool)

/-- Process `p` runs alone until its call has its result, with at most `fuel` steps; its user
copies are complete. -/
def runAlone (p : Nat) : Nat → State → Option Result
  | 0, _ => none
  | fuel + 1, s =>
    if (s.proc p).pc = .ret then some (s.proc p).res
    else (step W cp async s (.run p none)).bind (runAlone p fuel)

/-- Process `p` makes a call and runs alone. -/
def callAlone (fuel : Nat) (s : State) (p file : Nat) (c : Call) : Option Result :=
  (step W cp async s (.call p file c)).bind (runAlone W cp async p fuel)

/-- From the device `d`, process `p` at `x` gets to the result `r` alone, in fewer than `k`
steps. -/
def Returns (p : Nat) (d : Dev) (x : Proc) (r : Result) (k : Nat) : Prop :=
  ∀ s fuel, s.dev = d → s.proc p = x → k ≤ fuel → runAlone W cp async p fuel s = some r

end

/-- The mask has the bits. -/
def Reports (mask bits : Nat) : Prop := mask &&& bits = bits

/-- The mask has none of the bits. -/
def Lacks (mask bits : Nat) : Prop := mask &&& bits = 0

/-- The mask reports a call with the bits: it has all of them where the call returns a positive
number, and none of them where it returns `-EAGAIN`, which are its only results. -/
def Foretells (mask bits : Nat) (r : Result) : Prop :=
  (0 < r.ret ∧ Reports mask bits) ∨ (r.ret = -EAGAIN ∧ Lacks mask bits)

section
variable {W : LongWidth} {cp : Copier Byte} {async : Bool} {c : RwCode} {d : Dev} {p : Nat}
  {x : Proc} {e : Effect} {r : Result} {k : Nat} {call : Call} {file : Nat}

/-! ## Steps of a process that runs alone -/

theorem Returns.ret (hx : x.pc = .ret) : Returns W cp async p d x x.res 1 := by
  rintro s fuel rfl rfl hk
  obtain ⟨fuel, rfl⟩ := Nat.exists_eq_add_of_le' hk
  rw [runAlone, if_pos hx]

/-- A step that depends neither on the task state nor on signals. -/
theorem Returns.step (hx : x.pc ≠ .ret)
    (he : ∀ task sig, procStep W cp async d p x task sig none = some e)
    (h : Returns W cp async p e.dev e.proc r k) : Returns W cp async p d x r (k + 1) := by
  rintro s fuel rfl rfl hk
  obtain ⟨fuel, rfl⟩ := Nat.exists_eq_add_of_le' (Nat.le_of_add_left_le hk)
  have hs : Globalfifo.step W cp async s (.run p none) = some (s.put p e) := by
    rw [Globalfifo.step, he]
    rfl
  rw [runAlone, if_neg hx, hs]
  refine h _ fuel (State.put_dev ..) ?_ (by omega)
  rw [State.put_proc, Function.update_self]

/-- A poll of a device whose mutex is free. -/
theorem returns_poll (hd : d.mutex = none) :
    Returns W cp async p d ⟨.poll, file, .lock, r⟩ ⟨pollMask d.currentLen, []⟩ 5 := by
  obtain ⟨len, mem, mutex, rs, ws, queue⟩ := d
  subst hd
  refine .step (by simp) (fun _ _ => rfl) ?_
  refine .step (by simp [Proc.goto]) (fun _ _ => rfl) ?_
  refine .step (by simp [Proc.goto]) (fun _ _ => rfl) ?_
  refine .step (by simp [Proc.goto]) (fun _ _ => rfl) ?_
  exact .ret rfl

/-- The process runs the code `c`. -/
def Runs (W : LongWidth) (cp : Copier Byte) (async : Bool) (p : Nat) (call : Call) (c : RwCode) :
    Prop :=
  ∀ d x task sig limit, x.call = call → x.pc ≠ .idle → x.pc ≠ .ret →
    procStep W cp async d p x task sig limit = rwStep c d p x task sig limit

theorem runs_read (count : Nat) (nonblock : Bool) : Runs W cp async p (.read count nonblock)
    (globalfifoRead W cp count nonblock) := by
  rintro d ⟨call, file, pc, res⟩ task sig limit hcall hidle hret
  change call = _ at hcall
  subst hcall
  cases pc with
  | idle => exact absurd rfl hidle
  | ret => exact absurd rfl hret
  | _ => rfl

theorem runs_write (buf : Mem Byte) (count : Nat) (nonblock : Bool) :
    Runs W cp async p (.write buf count nonblock) (globalfifoWrite W async buf count nonblock) := by
  rintro d ⟨call, file, pc, res⟩ task sig limit hcall hidle hret
  change call = _ at hcall
  subst hcall
  cases pc with
  | idle => exact absurd rfl hidle
  | ret => exact absurd rfl hret
  | _ => rfl

/-- From the label `out` on. -/
theorem Runs.out (h : Runs W cp async p call c) :
    Returns W cp async p d ⟨call, file, .out, r⟩ r 4 := by
  refine .step (by simp) (fun _ _ => h _ _ _ _ _ rfl (by simp) (by simp)) ?_
  refine .step (by simp [Proc.goto])
    (fun _ _ => h _ _ _ _ _ rfl (by simp [Proc.goto]) (by simp [Proc.goto])) ?_
  refine .step (by simp [Proc.goto])
    (fun _ _ => h _ _ _ _ _ rfl (by simp [Proc.goto]) (by simp [Proc.goto])) ?_
  exact .ret rfl

/-- The device at the test of the loop. -/
def Dev.atTest (d : Dev) (q : WaitQueue) (p : Nat) : Dev :=
  { d with mutex := some p }.addWaitQueue q p

theorem atTest_data (d : Dev) (q : WaitQueue) (p : Nat) :
    (d.atTest q p).currentLen = d.currentLen ∧ (d.atTest q p).mem = d.mem := by
  cases q <;> exact ⟨rfl, rfl⟩

/-- Up to the test of the loop. -/
theorem Runs.test (h : Runs W cp async p call c) (hd : d.mutex = none)
    (ht : Returns W cp async p (d.atTest c.addsTo p) ⟨call, file, .test, ⟨0, []⟩⟩ r k) :
    Returns W cp async p d ⟨call, file, .lock, ⟨0, []⟩⟩ r (k + 2) := by
  refine .step (e := ⟨{ d with mutex := some p }, ⟨call, file, .addWait, ⟨0, []⟩⟩, .nothing⟩)
    (by simp) ?_ ?_
  · intro task sig
    rw [h _ _ _ _ _ rfl (by simp) (by simp)]
    simp only [rwStep, mutexLock, hd]
    rfl
  · exact .step (by simp) (fun _ _ => h _ _ _ _ _ rfl (by simp) (by simp)) ht

/-- A call that does not block and finds its condition false is refused. -/
theorem Runs.refused (h : Runs W cp async p call c) (hd : d.mutex = none)
    (hblocked : c.blocked (d.atTest c.addsTo p) = true) (hnb : c.nonblock = true) :
    Returns W cp async p d ⟨call, file, .lock, ⟨0, []⟩⟩ ⟨-EAGAIN, []⟩ 7 := by
  refine h.test hd (.step (e := ⟨d.atTest c.addsTo p, ⟨call, file, .out, ⟨-EAGAIN, []⟩⟩, .nothing⟩)
    (by simp) ?_ h.out)
  intro task sig
  rw [h _ _ _ _ _ rfl (by simp) (by simp)]
  simp only [rwStep, hblocked, hnb, if_true]
  rfl

/-- A call that finds its condition true makes its copy. -/
theorem Runs.copies (h : Runs W cp async p call c) (hd : d.mutex = none)
    (hblocked : c.blocked (d.atTest c.addsTo p) = false)
    (hok : (c.copy (d.atTest c.addsTo p) none).ok = true) :
    Returns W cp async p d ⟨call, file, .lock, ⟨0, []⟩⟩ (c.copy (d.atTest c.addsTo p) none).res
      10 := by
  obtain ⟨r, hr⟩ : ∃ r, r = c.copy (d.atTest c.addsTo p) none := ⟨_, rfl⟩
  rw [← hr] at hok ⊢
  have hkill : Returns W cp async p r.dev ⟨call, file, .killFasync, r.res⟩ r.res 5 :=
    .step (by simp) (fun _ _ => h _ _ _ _ _ rfl (by simp) (by simp)) h.out
  have hwake : Returns W cp async p r.dev ⟨call, file, .wake, r.res⟩ r.res 6 := by
    refine .step (by simp) (fun _ _ => h _ _ _ _ _ rfl (by simp) (by simp)) ?_
    dsimp only [Proc.goto]
    split
    · exact hkill
    · rintro s fuel hs hx hk
      exact h.out s fuel hs hx (by omega)
  have hcopy : Returns W cp async p (d.atTest c.addsTo p) ⟨call, file, .copy, ⟨0, []⟩⟩ r.res 7 := by
    refine .step (e := ⟨r.dev, ⟨call, file, .wake, r.res⟩, .nothing⟩) (by simp) ?_ hwake
    intro task sig
    rw [h _ _ _ _ _ rfl (by simp) (by simp)]
    simp only [rwStep]
    rw [← hr, hok]
    rfl
  refine h.test hd (.step
    (e := ⟨d.atTest c.addsTo p, ⟨call, file, .copy, ⟨0, []⟩⟩, .nothing⟩) (by simp) ?_ hcopy)
  intro task sig
  rw [h _ _ _ _ _ rfl (by simp) (by simp)]
  simp only [rwStep, hblocked, Bool.false_eq_true, if_false]
  rfl

/-! ## The results -/

theorem readCopy_none (d : Dev) (count : Nat) :
    (readCopy W cp count d none).ok = true ∧
      (readCopy W cp count d none).res.ret = toSigned 32 (readCount d count) := by
  unfold readCopy
  dsimp only
  rw [if_neg (by rw [copyToUser_none]; simp)]
  simp only [and_self]

theorem writeCopy_none (buf : Mem Byte) (d : Dev) (count : Nat) :
    (writeCopy W buf count d none).ok = true ∧
      (writeCopy W buf count d none).res.ret = toSigned 32 (writeCount d count) := by
  unfold writeCopy
  dsimp only
  rw [if_neg (by simp [copyFromUser])]
  simp only [and_self]

theorem Returns.weaken {k' : Nat} (h : Returns W cp async p d x r k) (hk : k ≤ k') :
    Returns W cp async p d x r k' :=
  fun s fuel hs hx hf => h s fuel hs hx (hk.trans hf)

/-- A read that does not block is refused by an empty device, and else takes what there is. -/
theorem returns_read {count : Nat} (hd : d.mutex = none) (hb : d.currentLen ≤ GLOBALFIFO_SIZE) :
    ∃ r, Returns W cp async p d ⟨.read count true, file, .lock, ⟨0, []⟩⟩ r 10 ∧
      r.ret = if d.currentLen = 0 then -EAGAIN else (min count d.currentLen : Nat) := by
  have hsize : GLOBALFIFO_SIZE = 4096 := rfl
  have hruns : Runs W cp async p (.read count true) (globalfifoRead W cp count true) :=
    runs_read count true
  obtain ⟨hlen, -⟩ := atTest_data d .r p
  split
  · next h0 =>
    have hblocked : (globalfifoRead W cp count true).blocked (d.atTest .r p) = true :=
      decide_eq_true (hlen.trans h0)
    exact ⟨_, (hruns.refused hd hblocked rfl).weaken (by omega), rfl⟩
  · next h0 =>
    have hblocked : (globalfifoRead W cp count true).blocked (d.atTest .r p) = false :=
      decide_eq_false fun he => h0 (hlen.symm.trans he)
    obtain ⟨hok, hret⟩ := @readCopy_none W cp (d.atTest .r p) count
    have hcount := readCount_eq (d.atTest .r p) count
    rw [hlen] at hcount
    rw [hcount, toSigned_of_range (by omega) (by omega)] at hret
    exact ⟨_, hruns.copies hd hblocked hok, hret⟩

/-- A write that does not block is refused by a full device, and else stores what there is room
for. -/
theorem returns_write {buf : Mem Byte} {count : Nat} (hd : d.mutex = none)
    (hb : d.currentLen ≤ GLOBALFIFO_SIZE) :
    ∃ r, Returns W cp async p d ⟨.write buf count true, file, .lock, ⟨0, []⟩⟩ r 10 ∧
      r.ret = if d.currentLen = GLOBALFIFO_SIZE then -EAGAIN
        else (min count (GLOBALFIFO_SIZE - d.currentLen) : Nat) := by
  have hsize : GLOBALFIFO_SIZE = 4096 := rfl
  have hruns : Runs W cp async p (.write buf count true) (globalfifoWrite W async buf count true) :=
    runs_write buf count true
  obtain ⟨hlen, -⟩ := atTest_data d .w p
  split
  · next hfull =>
    have hblocked : (globalfifoWrite W async buf count true).blocked (d.atTest .w p) = true :=
      decide_eq_true (hlen.trans hfull)
    exact ⟨_, (hruns.refused hd hblocked rfl).weaken (by omega), rfl⟩
  · next hfull =>
    have hblocked : (globalfifoWrite W async buf count true).blocked (d.atTest .w p) = false :=
      decide_eq_false fun he => hfull (hlen.symm.trans he)
    obtain ⟨hok, hret⟩ := writeCopy_none (W := W) buf (d.atTest .w p) count
    have hcount : writeCount (d.atTest .w p) count = _ := writeCount_eq (hlen.trans_le hb)
    rw [hlen] at hcount
    rw [hcount, toSigned_of_range (by omega) (by omega)] at hret
    exact ⟨_, hruns.copies hd hblocked hok, hret⟩

/-- Between empty and full the mask has all bits. -/
theorem pollMask_of_inner {n : Nat} (h0 : n ≠ 0) (hfull : n ≠ GLOBALFIFO_SIZE) :
    pollMask n = POLLIN ||| POLLRDNORM ||| (POLLOUT ||| POLLWRNORM) := by
  rw [pollMask, if_pos h0, if_pos hfull]

/-- The bits of reading. -/
theorem pollMask_in (n : Nat) :
    if n = 0 then Lacks (pollMask n) (POLLIN ||| POLLRDNORM)
    else Reports (pollMask n) (POLLIN ||| POLLRDNORM) := by
  unfold Lacks Reports
  split
  · next h0 =>
    subst h0
    decide
  · next h0 =>
    rcases eq_or_ne n GLOBALFIFO_SIZE with rfl | hfull
    · decide
    · rw [pollMask_of_inner h0 hfull]
      decide

/-- The bits of writing. -/
theorem pollMask_out (n : Nat) :
    if n = GLOBALFIFO_SIZE then Lacks (pollMask n) (POLLOUT ||| POLLWRNORM)
    else Reports (pollMask n) (POLLOUT ||| POLLWRNORM) := by
  unfold Lacks Reports
  split
  · next hfull =>
    subst hfull
    decide
  · next hfull =>
    rcases eq_or_ne n 0 with rfl | h0
    · decide
    · rw [pollMask_of_inner h0 hfull]
      decide

/-- Bits that foretell a call do so exactly: the mask has them all, or it has none of them. -/
theorem Foretells.iff {mask bits : Nat} (h : Foretells mask bits r) (hbits : bits ≠ 0) :
    (Reports mask bits ↔ 0 < r.ret) ∧ (Lacks mask bits ↔ r.ret = -EAGAIN) := by
  have hagain : -EAGAIN = (-11 : Int) := rfl
  rcases h with ⟨hpos, hall⟩ | ⟨hret, hnone⟩
  · refine ⟨iff_of_true hall hpos, iff_of_false (fun hnone => hbits ?_) (by omega)⟩
    exact hall.symm.trans hnone
  · refine ⟨iff_of_false (fun hall => hbits ?_) (by omega), iff_of_true hnone hret⟩
    exact hall.symm.trans hnone

/-- A call of an idle process, run alone. -/
theorem Returns.callAlone {s : State} {c : Call} (hidle : (s.proc p).pc = .idle)
    (h : Returns W cp async p s.dev ⟨c, file, c.entry, ⟨0, []⟩⟩ r k) :
    ∀ fuel, k ≤ fuel → callAlone W cp async fuel s p file c = some r := by
  intro fuel hk
  have hs : Globalfifo.step W cp async s (.call p file c) =
      some { s with proc := Function.update s.proc p ⟨c, file, c.entry, ⟨0, []⟩⟩ } := by
    simp only [Globalfifo.step, hidle]
  rw [Globalfifo.callAlone, hs]
  exact h _ fuel rfl (Function.update_self ..) hk

/-- **`globalfifo_poll` agrees with the calls that do not block.** From every reachable state in
which the mutex is free, for every idle process, every file and every positive count: the poll, the
read and the write return; the poll has both of `POLLIN | POLLRDNORM` exactly where the read returns
a positive number and neither exactly where it returns `-EAGAIN`, and so it has
`POLLOUT | POLLWRNORM` for the write; the calls return nothing else; and the poll reports one of the
two. -/
theorem poll_agrees {s : State} (h : (machine W cp async).Reach Machine.anyStep s)
    (hfree : s.dev.mutex = none) (hidle : (s.proc p).pc = .idle) {buf : Mem Byte} {n m : Nat}
    (hn : 0 < n) (hm : 0 < m) :
    ∃ mask rd wr, (∀ fuel, 10 ≤ fuel →
        callAlone W cp async fuel s p file .poll = some ⟨(mask : Nat), []⟩ ∧
        callAlone W cp async fuel s p file (.read n true) = some rd ∧
        callAlone W cp async fuel s p file (.write buf m true) = some wr) ∧
      (Reports mask (POLLIN ||| POLLRDNORM) ↔ 0 < rd.ret) ∧
      (Lacks mask (POLLIN ||| POLLRDNORM) ↔ rd.ret = -EAGAIN) ∧ (0 < rd.ret ∨ rd.ret = -EAGAIN) ∧
      (Reports mask (POLLOUT ||| POLLWRNORM) ↔ 0 < wr.ret) ∧
      (Lacks mask (POLLOUT ||| POLLWRNORM) ↔ wr.ret = -EAGAIN) ∧
      (0 < wr.ret ∨ wr.ret = -EAGAIN) ∧
      (Reports mask (POLLIN ||| POLLRDNORM) ∨ Reports mask (POLLOUT ||| POLLWRNORM)) := by
  have hsize : GLOBALFIFO_SIZE = 4096 := rfl
  have hb := currentLen_le_of_reach h
  obtain ⟨rd, hread, hrd⟩ : ∃ r, Returns W cp async p s.dev ⟨.read n true, file, .lock, ⟨0, []⟩⟩ r
      10 ∧ r.ret = _ := returns_read hfree hb
  obtain ⟨wr, hwrite, hwr⟩ : ∃ r, Returns W cp async p s.dev
      ⟨.write buf m true, file, .lock, ⟨0, []⟩⟩ r 10 ∧ r.ret = _ := returns_write hfree hb
  have hin : Foretells (pollMask s.dev.currentLen) (POLLIN ||| POLLRDNORM) rd := by
    have hmask := pollMask_in s.dev.currentLen
    split at hmask
    · next h0 => exact .inr ⟨hrd.trans (if_pos h0), hmask⟩
    · next h0 =>
      rw [if_neg h0] at hrd
      exact .inl ⟨by omega, hmask⟩
  have hout : Foretells (pollMask s.dev.currentLen) (POLLOUT ||| POLLWRNORM) wr := by
    have hmask := pollMask_out s.dev.currentLen
    split at hmask
    · next hfull => exact .inr ⟨hwr.trans (if_pos hfull), hmask⟩
    · next hfull =>
      rw [if_neg hfull] at hwr
      exact .inl ⟨by omega, hmask⟩
  have hone : Reports (pollMask s.dev.currentLen) (POLLIN ||| POLLRDNORM) ∨
      Reports (pollMask s.dev.currentLen) (POLLOUT ||| POLLWRNORM) := by
    have hmask := pollMask_in s.dev.currentLen
    have hmask' := pollMask_out s.dev.currentLen
    split at hmask
    · next h0 => exact .inr (by rwa [if_neg (by omega)] at hmask')
    · exact .inl hmask
  obtain ⟨hrd, hrd'⟩ := hin.iff (by decide)
  obtain ⟨hwr, hwr'⟩ := hout.iff (by decide)
  refine ⟨pollMask s.dev.currentLen, rd, wr, ?_, hrd, hrd', hin.imp And.left And.left, hwr, hwr',
    hout.imp And.left And.left, hone⟩
  intro fuel hk
  exact ⟨(returns_poll hfree).callAlone hidle fuel (by omega),
    Returns.callAlone (c := .read n true) hidle hread fuel hk,
    Returns.callAlone (c := .write buf m true) hidle hwrite fuel hk⟩

end

/-- Process `0` fills the device. -/
def fill : List Act := .call 0 0 (.write (fun _ => 7) 4096 false) :: List.replicate 9 (.run 0 none)

/-- A full device is readable and not writable: its mask is `POLLIN | POLLRDNORM`, a read of it
returns a byte, and a write to it is refused. -/
theorem full_poll_agrees : ∃ s, (machine .w64 Copier.ascending true).Reach Machine.anyStep s ∧
    s.dev.currentLen = GLOBALFIFO_SIZE ∧ ∃ rd wr,
    callAlone .w64 Copier.ascending true 10 s 1 0 .poll =
      some ⟨(POLLIN ||| POLLRDNORM : Nat), []⟩ ∧
    callAlone .w64 Copier.ascending true 10 s 1 0 (.read 1 true) = some rd ∧
    callAlone .w64 Copier.ascending true 10 s 1 0 (.write (fun _ => 7) 1 true) = some wr ∧
    0 < rd.ret ∧ wr.ret = -EAGAIN := by
  have hrun : ((machine .w64 Copier.ascending true).runFrom .init fill).map
      (fun s => (s.dev.mutex, s.dev.currentLen, (s.proc 1).pc,
        callAlone .w64 Copier.ascending true 10 s 1 0 .poll)) =
      some (none, 4096, .idle, some ⟨(POLLIN ||| POLLRDNORM : Nat), []⟩) := by
    decide +kernel
  obtain ⟨s, hs, hend⟩ := Option.map_eq_some_iff.1 hrun
  obtain ⟨hmutex, hend⟩ := Prod.mk.inj hend
  obtain ⟨hlen, hend⟩ := Prod.mk.inj hend
  obtain ⟨hidle, hpoll⟩ := Prod.mk.inj hend
  have hreach : (machine .w64 Copier.ascending true).Reach Machine.anyStep s :=
    ⟨_, fill, rfl, .of_runFrom (fun _ _ _ => trivial) hs⟩
  obtain ⟨mask, rd, wr, hcalls, hin, -, -, -, hout, -⟩ := @poll_agrees .w64 Copier.ascending true 1
    0 s hreach hmutex hidle (fun _ => 7) 1 1 Nat.one_pos Nat.one_pos
  obtain ⟨hmask, hrd, hwr⟩ := hcalls 10 le_rfl
  obtain rfl : mask = POLLIN ||| POLLRDNORM := by
    have hres := Option.some.inj (hmask.symm.trans hpoll)
    exact Int.ofNat.inj (Result.mk.inj hres).1
  exact ⟨s, hreach, hlen, rd, wr, hpoll, hrd, hwr, hin.1 rfl, hout.1 rfl⟩

end LinuxTraining.Globalfifo
