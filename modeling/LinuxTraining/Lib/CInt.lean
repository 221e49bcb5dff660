import Mathlib.Data.Int.Init
import Mathlib.Tactic.Common
import Mathlib.Tactic.NormNum

/-!
# C integer arithmetic

Unsigned values are natural numbers below `2 ^ w` and their arithmetic is taken modulo `2 ^ w`;
signed values are integers, wrapped by `Int.bmod` as `-fno-strict-overflow` gives. The lemmas say
when an operation does not wrap.
-/

namespace LinuxTraining.Lib

/-- The width of `unsigned long` and `size_t`: the recorded build is a 32-bit one. -/
inductive LongWidth
  | w32
  | w64
  deriving DecidableEq, Repr

/-- The number of bits of an `unsigned long`. -/
def LongWidth.bits : LongWidth → Nat
  | .w32 => 32
  | .w64 => 64

theorem LongWidth.le_bits (W : LongWidth) : 32 ≤ W.bits := by cases W <;> decide

/-- Every value of 32 bits is a value of `unsigned long`. -/
theorem LongWidth.two_pow_le (W : LongWidth) : 2 ^ 32 ≤ 2 ^ W.bits :=
  Nat.pow_le_pow_right (by decide) W.le_bits

/-- Unsigned addition of width `w`. -/
def uadd (w a b : Nat) : Nat := (a + b) % 2 ^ w

/-- Unsigned subtraction of width `w`. -/
def usub (w a b : Nat) : Nat := (a + (2 ^ w - b % 2 ^ w)) % 2 ^ w

/-- Unsigned multiplication of width `w`. -/
def umul (w a b : Nat) : Nat := (a * b) % 2 ^ w

/-- The conversion of an integer to an unsigned type of width `w`. -/
def toUnsigned (w : Nat) (x : Int) : Nat := (x % 2 ^ w).toNat

/-- The conversion of an integer to a signed type of width `w`, and the value of a signed
operation that wraps. -/
def toSigned (w : Nat) (x : Int) : Int := x.bmod (2 ^ w)

theorem uadd_of_lt {w a b : Nat} (h : a + b < 2 ^ w) : uadd w a b = a + b := Nat.mod_eq_of_lt h

theorem umul_of_lt {w a b : Nat} (h : a * b < 2 ^ w) : umul w a b = a * b := Nat.mod_eq_of_lt h

/-- A subtraction whose result is not negative does not wrap. -/
theorem usub_of_le {w a b : Nat} (h : b ≤ a) (ha : a < 2 ^ w) : usub w a b = a - b := by
  unfold usub
  rw [Nat.mod_eq_of_lt (Nat.lt_of_le_of_lt h ha)]
  have hsum : a + (2 ^ w - b) = (a - b) + 2 ^ w := by omega
  rw [hsum, Nat.add_mod_right, Nat.mod_eq_of_lt (by omega)]

/-- The conversion of a value that is not negative is its residue. -/
theorem toUnsigned_natCast (w n : Nat) : toUnsigned w (n : Int) = n % 2 ^ w := by
  unfold toUnsigned
  rw [show (n : Int) % 2 ^ w = ((n % 2 ^ w : Nat) : Int) by push_cast; rfl]
  rfl

theorem toUnsigned_of_lt {w n : Nat} (h : n < 2 ^ w) : toUnsigned w (n : Int) = n := by
  rw [toUnsigned_natCast, Nat.mod_eq_of_lt h]

/-- A value within the signed range is kept. -/
theorem toSigned_of_range {w : Nat} {x : Int} (hlo : -2 ^ w ≤ x) (hhi : x < 2 ^ w) :
    toSigned (w + 1) x = x := by
  unfold toSigned
  have hpow : (2 ^ (w + 1) : Nat) = 2 * 2 ^ w := Nat.pow_succ'
  refine Int.bmod_eq_of_le ?_ ?_
  · rw [hpow]; push_cast; omega
  · rw [hpow]; push_cast; omega

/-- A sum past the signed range wraps to a negative value. -/
theorem toSigned_of_overflow {w : Nat} {x : Int} (hlo : 2 ^ w ≤ x) (hhi : x < 2 ^ (w + 1)) :
    toSigned (w + 1) x < 0 := by
  have hpow : (2 ^ (w + 1) : Nat) = 2 * 2 ^ w := Nat.pow_succ'
  have hwrap : toSigned (w + 1) x = x - (2 ^ (w + 1) : Nat) := by
    unfold toSigned
    rw [← Int.sub_bmod_right]
    exact Int.bmod_eq_of_le (by rw [hpow]; push_cast; omega) (by rw [hpow]; push_cast; omega)
  rw [hwrap]
  push_cast
  omega

end LinuxTraining.Lib
