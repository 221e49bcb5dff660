import LinuxTraining.Kernel

/-!
# What the two echo servers share

`select-model.c` and `multi-process-model.c` read up to `MAXLINE` bytes into `buf`, convert them
with the same loop and write them back. `slice_upper`: after a read of `data` the loop leaves
`data` in upper case at the start of the buffer.
-/

namespace LinuxTraining.IoModels

open Lib

/-- `MAXLINE`. -/
def MAXLINE : Nat := 80

/-- `toupper` in the C locale, which neither server leaves. -/
def toupper (c : Byte) : Byte := if 'a'.toUInt8 ≤ c ∧ c ≤ 'z'.toUInt8 then c - 32 else c

/-- `for (; j < n; j++) buf[j] = toupper(buf[j])`, with `k` rounds to go. -/
def upperFrom (buf : Mem Byte) (j : Nat) : Nat → Mem Byte
  | 0 => buf
  | k + 1 => upperFrom (Function.update buf j (toupper (buf j))) (j + 1) k

/-- The loop of both servers over what `read` has brought, where `n` is its return value. -/
def upper (buf : Mem Byte) (n : Int) : Mem Byte := upperFrom buf 0 n.toNat

/-- What `read` gives back: `none` is `-1`, and no bytes are the end of the connection. -/
abbrev ReadResult := Option (List Byte)

/-- The return value of `read`. -/
def ReadResult.ret : ReadResult → Int
  | none => -1
  | some data => data.length

/-- The buffer after `read`. -/
def ReadResult.fill (buf : Mem Byte) : ReadResult → Mem Byte
  | none => buf
  | some data => buf.store 0 data

/-- `read` has not failed, and has brought at most `MAXLINE` bytes. -/
def ReadResult.Ok : ReadResult → Prop
  | none => False
  | some data => data.length ≤ MAXLINE

instance : DecidablePred ReadResult.Ok
  | none => .isFalse id
  | some data => inferInstanceAs (Decidable (data.length ≤ MAXLINE))

theorem ReadResult.Ok.eq_some {r : ReadResult} (h : ReadResult.Ok r) : ∃ data, r = some data := by
  cases r with
  | none => exact h.elim
  | some data => exact ⟨data, rfl⟩

/-- The loop converts the cells from `j` on and leaves the others. -/
theorem upperFrom_apply (buf : Mem Byte) (j k x : Nat) :
    upperFrom buf j k x = if j ≤ x ∧ x < j + k then toupper (buf x) else buf x := by
  induction k generalizing buf j with
  | zero => simp [upperFrom]
  | succ k ih =>
    rw [upperFrom, ih]
    rcases eq_or_ne x j with rfl | hne
    · simp
    · rw [Function.update_of_ne hne]
      by_cases hx : j + 1 ≤ x ∧ x < j + 1 + k
      · rw [if_pos hx, if_pos (by omega)]
      · rw [if_neg hx, if_neg (by omega)]

/-- **One round.** The loop turns what a read has brought into upper case. -/
theorem slice_upper (buf : Mem Byte) (data : List Byte) :
    (upper (ReadResult.fill buf (some data)) data.length).slice 0 data.length =
      data.map toupper := by
  refine List.ext_getElem (by simp) ?_
  intro i hi hi'
  rw [List.length_map] at hi'
  rw [Mem.getElem_slice, upper, upperFrom_apply, if_pos (by simp; omega), List.getElem_map]
  congr 1
  exact Mem.store_add buf 0 hi'

end LinuxTraining.IoModels
