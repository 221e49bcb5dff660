import LinuxTraining.Kernel
import Mathlib.Data.List.TakeWhile
import Mathlib.Tactic.Ring

/-!
# `proc.c`: a number in `/proc`

`test_proc_show` prints the number, and `test_proc_write` reads it back with `simple_strtoul`, which
takes no length: it reads on past the bytes that were written while it finds digits. The bytes from
`buffer` on are a list that holds what was written and then whatever lies behind it.
`testProcWrite_bytesOnly_iff`: the stored value depends on the written bytes only, if and only if
one of them is not a digit.
-/

namespace LinuxTraining.Proc

open Lib

/-- `isdigit`. -/
def isdigit (c : Byte) : Bool := decide ('0'.toUInt8 ≤ c ∧ c ≤ '9'.toUInt8)

/-- The number that a run of digits denotes. -/
def number (digits : List Byte) : Nat :=
  digits.foldl (fun n c => 10 * n + (c.toNat - '0'.toNat)) 0

/-- `simple_strtoul(s, NULL, 10)`, on the bytes from `s` on: the longest run of digits, as an
`unsigned long`. -/
def simpleStrtoul (W : LongWidth) (s : List Byte) : Nat :=
  number (s.takeWhile isdigit) % 2 ^ W.bits

/-- `%u`. -/
def decimal (v : BitVec 32) : List Byte := (Nat.toDigits 10 v.toNat).map Char.toUInt8

/-- `LINUX_VERSION_CODE` is below `KERNEL_VERSION(3, 10, 0)`, or not. -/
inductive KernelVersion
  | before3_10
  | since3_10

/-- `*ptr_var = simple_strtoul(buffer, NULL, 10)`. -/
def parsed (W : LongWidth) (buffer : List Byte) : BitVec 32 :=
  BitVec.ofNat 32 (simpleStrtoul W buffer)

/-- `test_proc_write` before 3.10, which returns an `int`: its return value and what is stored. -/
def testProcWriteBefore3_10 (W : LongWidth) (buffer : List Byte) (count : Nat) :
    Int × BitVec 32 :=
  (toSigned 32 count, parsed W buffer)

/-- `test_proc_write` since 3.10, which returns a `ssize_t`. -/
def testProcWriteSince3_10 (W : LongWidth) (buffer : List Byte) (count : Nat) : Int × BitVec 32 :=
  (toSigned W.bits count, parsed W buffer)

/-- `test_proc_write`. -/
def testProcWrite (W : LongWidth) : KernelVersion → List Byte → Nat → Int × BitVec 32
  | .before3_10 => testProcWriteBefore3_10 W
  | .since3_10 => testProcWriteSince3_10 W

/-- `test_proc_show`: what it prints. -/
def testProcShow (v : BitVec 32) : List Byte := decimal v ++ ['\n'.toUInt8]

/-- A write of `bytes` stores the number of their leading digits, whatever lies behind them. -/
structure BytesOnly (W : LongWidth) (version : KernelVersion) (bytes : List Byte) : Prop where
  same : ∀ mem mem', bytes <+: mem → bytes <+: mem' →
    (testProcWrite W version mem bytes.length).2 = (testProcWrite W version mem' bytes.length).2
  number : ∀ mem, bytes <+: mem → (testProcWrite W version mem bytes.length).2 =
    BitVec.ofNat 32 (number (bytes.takeWhile isdigit))

section
variable {W : LongWidth} {version : KernelVersion} {bytes rest : List Byte}

/-- Both versions store the number that `simple_strtoul` reads. -/
theorem testProcWrite_snd (W : LongWidth) (version : KernelVersion) (mem : List Byte)
    (count : Nat) : (testProcWrite W version mem count).2 =
      BitVec.ofNat 32 (number (mem.takeWhile isdigit)) := by
  have hstored : (testProcWrite W version mem count).2 = parsed W mem := by
    cases version <;> rfl
  rw [hstored]
  refine BitVec.eq_of_toNat_eq ?_
  rw [parsed, simpleStrtoul, BitVec.toNat_ofNat, BitVec.toNat_ofNat]
  -- the width of `unsigned long` does not matter, since the low 32 bits are stored
  exact Nat.mod_mod_of_dvd _ (Nat.pow_dvd_pow 2 W.le_bits)

/-- A digit behind a run of digits. -/
theorem number_snoc (digits : List Byte) (c : Byte) :
    number (digits ++ [c]) = 10 * number digits + (c.toNat - '0'.toNat) := by
  simp [number, List.foldl_append]

/-- A byte that is not a digit ends what is read. -/
theorem takeWhile_of_stop (h : ∃ c ∈ bytes, isdigit c = false) (rest : List Byte) :
    (bytes ++ rest).takeWhile isdigit = bytes.takeWhile isdigit := by
  obtain ⟨c, hc, hstop⟩ := h
  induction bytes with
  | nil => cases hc
  | cons b bytes ih =>
    rw [List.cons_append, List.takeWhile_cons, List.takeWhile_cons]
    split
    · next hb =>
      have hne : c ≠ b := by
        rintro rfl
        rw [hstop] at hb
        cases hb
      rw [ih ((List.mem_cons.1 hc).resolve_left hne)]
    · rfl

/-- Only digits are read of digits, and of what stands behind them. -/
theorem takeWhile_of_digits (h : ∀ c ∈ bytes, isdigit c = true) (rest : List Byte) :
    (bytes ++ rest).takeWhile isdigit = bytes ++ rest.takeWhile isdigit :=
  List.takeWhile_append_of_pos h

variable (W version) in
/-- A write that ends in digits is read on into what stands behind it. -/
theorem not_same_of_digits (h : ∀ c ∈ bytes, isdigit c = true) :
    (testProcWrite W version (bytes ++ ['0'.toUInt8]) bytes.length).2 ≠
      (testProcWrite W version (bytes ++ ['1'.toUInt8]) bytes.length).2 := by
  have hzero : ['0'.toUInt8].takeWhile isdigit = ['0'.toUInt8] := by decide
  have hone : ['1'.toUInt8].takeWhile isdigit = ['1'.toUInt8] := by decide
  rw [testProcWrite_snd, testProcWrite_snd, takeWhile_of_digits h, takeWhile_of_digits h, hzero,
    hone, number_snoc, number_snoc]
  intro he
  have hnat := congrArg BitVec.toNat he
  have hdigits : '0'.toUInt8.toNat - '0'.toNat = 0 ∧ '1'.toUInt8.toNat - '0'.toNat = 1 := by
    decide
  rw [BitVec.toNat_ofNat, BitVec.toNat_ofNat, hdigits.1, hdigits.2] at hnat
  omega

/-! ## What is printed -/

/-- A printed digit is read as one. -/
theorem isdigit_of_isDigit {c : Char} (h : c.isDigit = true) :
    isdigit c.toUInt8 = true ∧ c.toUInt8.toNat = c.toNat := by
  have hrange : 48 ≤ c.toNat ∧ c.toNat ≤ 57 := by
    rw [Char.isDigit, Bool.and_eq_true, decide_eq_true_eq, decide_eq_true_eq] at h
    exact h
  have hbyte : c.toUInt8.toNat = c.toNat := by
    show c.toNat % 256 = c.toNat
    omega
  refine ⟨?_, hbyte⟩
  rw [isdigit, decide_eq_true_eq, UInt8.le_iff_toNat_le, UInt8.le_iff_toNat_le, hbyte]
  exact hrange

theorem isdigit_decimal (v : BitVec 32) : ∀ c ∈ decimal v, isdigit c = true := by
  intro c hc
  obtain ⟨d, hd, rfl⟩ := List.mem_map.1 hc
  exact (isdigit_of_isDigit (Nat.isDigit_of_mem_toDigits (by decide) (by decide) hd)).1

/-- The number of what is printed. -/
theorem number_decimal (v : BitVec 32) : number (decimal v) = v.toNat := by
  have hfold : ∀ (l : List Char) (n : Nat), (∀ c ∈ l, c.isDigit = true) →
      (l.map Char.toUInt8).foldl (fun n c => 10 * n + (c.toNat - '0'.toNat)) n =
        Nat.ofDigitChars 10 l n := by
    intro l
    induction l with
    | nil => exact fun _ _ => rfl
    | cons c l ih =>
      intro n hl
      rw [List.map_cons, List.foldl_cons, (isdigit_of_isDigit (hl c (.head _))).2,
        Nat.ofDigitChars_cons]
      exact ih _ fun d hd => hl d (.tail _ hd)
  have hchars : ∀ c ∈ Nat.toDigits 10 v.toNat, c.isDigit = true :=
    fun c hc => Nat.isDigit_of_mem_toDigits (by decide) (by decide) hc
  rw [number, decimal, hfold _ 0 hchars]
  exact Nat.ofDigitChars_toDigits (by decide) (by decide)

/-- The digits of a number, with no further digit behind them, store the number. -/
theorem testProcWrite_decimal (v : BitVec 32) (count : Nat)
    (h : rest.takeWhile isdigit = []) :
    (testProcWrite W version (decimal v ++ rest) count).2 = v := by
  rw [testProcWrite_snd, takeWhile_of_digits (isdigit_decimal v), h, List.append_nil,
    number_decimal, BitVec.ofNat_toNat, BitVec.setWidth_eq]

/-- A number that is written back: what `test_proc_show` prints stores it again, and its digits
alone store it again where no digit stands behind them, and not elsewhere. -/
structure WritesBack (W : LongWidth) (version : KernelVersion) (v : BitVec 32) : Prop where
  shown : ∀ mem, testProcShow v <+: mem →
    (testProcWrite W version mem (testProcShow v).length).2 = v
  digits : ∀ rest, rest.head?.all (!isdigit ·) →
    (testProcWrite W version (decimal v ++ rest) (decimal v).length).2 = v
  behind : ∃ mem, decimal v <+: mem ∧ (testProcWrite W version mem (decimal v).length).2 ≠ v

/-- **A write depends on its bytes only, if and only if one of them is not a digit**; what is shown
is such a text. -/
theorem testProcWrite_bytesOnly_iff (W : LongWidth) (version : KernelVersion) :
    (∀ bytes, BytesOnly W version bytes ↔ ∃ c ∈ bytes, isdigit c = false) ∧
      ∀ v, WritesBack W version v := by
  refine ⟨fun bytes => ⟨fun h => ?_, fun h => ?_⟩, fun v => ⟨?_, ?_, ?_⟩⟩
  · by_contra hno
    have hdigits : ∀ c ∈ bytes, isdigit c = true := by
      intro c hc
      by_contra hstop
      exact hno ⟨c, hc, Bool.eq_false_iff.2 hstop⟩
    exact not_same_of_digits W version hdigits
      (h.same _ _ (List.prefix_append ..) (List.prefix_append ..))
  · have hread : ∀ mem, bytes <+: mem → (testProcWrite W version mem bytes.length).2 =
        BitVec.ofNat 32 (number (bytes.takeWhile isdigit)) := by
      rintro _ ⟨rest, rfl⟩
      rw [testProcWrite_snd, takeWhile_of_stop h]
    exact ⟨fun mem mem' hm hm' => (hread mem hm).trans (hread mem' hm').symm, hread⟩
  · rintro _ ⟨rest, rfl⟩
    rw [testProcShow, List.append_assoc]
    refine testProcWrite_decimal v _ ?_
    rfl
  · intro rest hrest
    refine testProcWrite_decimal v _ ?_
    cases rest with
    | nil => rfl
    | cons c rest =>
      have hc : isdigit c = false := by simpa using hrest
      rw [List.takeWhile_cons, hc]
      rfl
  · by_contra hnot
    push Not at hnot
    refine not_same_of_digits W version (isdigit_decimal v) ?_
    rw [hnot _ (List.prefix_append ..), hnot _ (List.prefix_append ..)]

/-- `echo -n 1`, where a `2` is left in memory behind the `1`, stores `12`. -/
theorem oneThenTwo_not_bytesOnly :
    ¬ BytesOnly .w32 .since3_10 ['1'.toUInt8] ∧
      (testProcWrite .w32 .since3_10 ['1'.toUInt8, '2'.toUInt8] 1).2 = 12 ∧
      (testProcWrite .w32 .since3_10 ['1'.toUInt8, 0] 1).2 = 1 := by
  refine ⟨fun h => ?_, by decide, by decide⟩
  have hsame := h.same ['1'.toUInt8, '2'.toUInt8] ['1'.toUInt8, 0] ⟨_, rfl⟩ ⟨_, rfl⟩
  exact absurd hsame (by decide)

end

end LinuxTraining.Proc
