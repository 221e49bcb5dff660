import LinuxTraining.Kernel

/-!
# The abstract disk and its bios

What a block device is for: a byte string, a request that replaces a range of it by the bytes of a
list of segments, and a request that fills a list of segments from a range. Moving two lists of
segments one after the other is moving them together (`moved_append`), and a filled list of
segments holds the range it was filled from (`bytesOf_fill`).
-/

namespace LinuxTraining.VmemDisk

open Lib

/-- A segment of a bio: its length, and the memory that its mapped address starts. -/
structure Segment where
  len : Nat
  page : Mem Byte

/-- The bytes of a segment. -/
def Segment.bytes (s : Segment) : List Byte := s.page.slice 0 s.len

/-- A bio: `bi_sector`, whether it writes, and its segments. -/
structure Bio where
  sector : Nat
  write : Bool
  segs : List Segment

/-- A bio without its contents. -/
structure Shape where
  sector : Nat
  write : Bool
  lens : List Nat

/-- The bio's total length. -/
def Shape.total (sh : Shape) : Nat := sh.lens.sum

/-- The bio lies within a device of `size` bytes and its segments are made of whole sectors. -/
structure Shape.Within (size : Nat) (sh : Shape) : Prop where
  nonempty : sh.lens ≠ []
  sectors : ∀ l ∈ sh.lens, 0 < l ∧ 512 ∣ l
  fits : 512 * sh.sector + sh.total ≤ size

/-- All segments are as long as the first. -/
def Shape.Uniform (sh : Shape) : Prop := ∀ l ∈ sh.lens, l = sh.lens.headD 0

instance (sh : Shape) : Decidable sh.Uniform := inferInstanceAs (Decidable (∀ l ∈ sh.lens, _))

/-- The shape of a bio. -/
def Bio.shape (b : Bio) : Shape := ⟨b.sector, b.write, b.segs.map (·.len)⟩

/-- The segments filled in order from address `a` on, each up to its end and no further. -/
def fill (data : Mem Byte) (a : Nat) : List Segment → List Segment
  | [] => []
  | s :: segs =>
    { s with page := s.page.store 0 (data.slice a s.len) } :: fill data (a + s.len) segs

/-- The bytes of a list of segments, in order. -/
def bytesOf (segs : List Segment) : List Byte := segs.flatMap Segment.bytes

/-- What segments moved to or from address `a` make of the disk and of themselves. -/
def moved (write : Bool) (data : Mem Byte) (a : Nat) (segs : List Segment) :
    Mem Byte × List Segment :=
  if write then (data.store a (bytesOf segs), segs) else (data, fill data a segs)

/-- What a bio is to make of the disk and of its segments. -/
def Bio.after (b : Bio) (data : Mem Byte) : Mem Byte × List Segment :=
  moved b.write data (512 * b.sector) b.segs

/-! ## Lemmas -/

variable {data : Mem Byte} {segs pre post : List Segment} {a : Nat}

theorem length_bytesOf (segs : List Segment) :
    (bytesOf segs).length = (segs.map (·.len)).sum := by
  simp [bytesOf, Segment.bytes, List.length_flatMap]

/-- A filled list of segments holds the range it was filled from. -/
theorem bytesOf_fill : bytesOf (fill data a segs) = data.slice a (segs.map (·.len)).sum := by
  induction segs generalizing a with
  | nil => rfl
  | cons s segs ih =>
    have hhead : (s.page.store 0 (data.slice a s.len)).slice 0 s.len = data.slice a s.len := by
      have h := Mem.slice_store_self s.page 0 (data.slice a s.len)
      rwa [Mem.length_slice] at h
    rw [fill, bytesOf, List.flatMap_cons, Segment.bytes, hhead, List.map_cons, List.sum_cons,
      Mem.slice_add]
    exact congrArg _ ih

theorem fill_append : fill data a (pre ++ post) =
    fill data a pre ++ fill data (a + (pre.map (·.len)).sum) post := by
  induction pre generalizing a with
  | nil => rfl
  | cons s pre ih =>
    rw [List.cons_append, fill, fill, ih, List.map_cons, List.sum_cons, Nat.add_assoc,
      List.cons_append]

/-- Moving two lists of segments one after the other is moving them together. -/
theorem moved_append {write : Bool} : moved write data a (pre ++ post) =
    let m := moved write data a pre
    let m' := moved write m.1 (a + (pre.map (·.len)).sum) post
    (m'.1, m.2 ++ m'.2) := by
  cases write with
  | true =>
    simp only [moved, if_true]
    rw [bytesOf, List.flatMap_append, Mem.store_append]
    rw [← bytesOf, length_bytesOf]
    rfl
  | false => simp [moved, fill_append]

/-- Moving a list of segments one by one. -/
theorem moved_cons {write : Bool} {s : Segment} : moved write data a (s :: segs) =
    let m := moved write data a [s]
    let m' := moved write m.1 (a + s.len) segs
    (m'.1, m.2 ++ m'.2) := by
  rw [← List.singleton_append, moved_append]
  rfl

/-- A bio leaves the disk after its range. -/
theorem moved_of_ge {write : Bool} {x : Nat} (h : a + (segs.map (·.len)).sum ≤ x) :
    (moved write data a segs).1 x = data x := by
  cases write with
  | true => exact Mem.store_of_ge data _ (by rwa [length_bytesOf])
  | false => rfl

end LinuxTraining.VmemDisk
