import Mathlib.Data.List.GetD
import Mathlib.Data.List.Range
import Mathlib.Tactic.Common

/-!
# Flat memories, slices and copies

A memory is a function from addresses to cells. `Mem.slice` reads a range, `Mem.store` overwrites
one, and the lemmas say how the two compose. `Copier` is a `memcpy`: a function on memories that
the C contract binds only where source and destination are disjoint. `Copier.ascending` and
`Copier.descending` are two implementations that meet the contract; `Copier.MovesDown` is a
`memcpy` that also moves overlapping data to lower addresses.
-/

namespace LinuxTraining.Lib

/-- A memory with cells of type `β`. -/
abbrev Mem (β : Type*) := Nat → β

namespace Mem

variable {β : Type*}

/-- The `n` cells from address `a` on. -/
def slice (m : Mem β) (a n : Nat) : List β := (List.range n).map fun i => m (a + i)

/-- The memory with the cells from `a` on overwritten by `bs`. -/
def store (m : Mem β) (a : Nat) (bs : List β) : Mem β :=
  fun x => if a ≤ x then bs.getD (x - a) (m x) else m x

/-- A memory that starts with the cells `bs` and holds `b` from there on. -/
def ofList (b : β) (bs : List β) : Mem β := fun i => bs.getD i b

/-! ### Slices -/

@[simp] theorem length_slice (m : Mem β) (a n : Nat) : (m.slice a n).length = n := by
  simp [slice]

@[simp] theorem slice_zero (m : Mem β) (a : Nat) : m.slice a 0 = [] := rfl

@[simp] theorem getElem_slice (m : Mem β) (a n i : Nat) (h : i < (m.slice a n).length) :
    (m.slice a n)[i] = m (a + i) := by
  simp [slice]

/-- Two slices are equal when the memories agree on their cells. -/
theorem slice_congr {m m' : Mem β} {a a' n : Nat} (h : ∀ i < n, m (a + i) = m' (a' + i)) :
    m.slice a n = m'.slice a' n := by
  refine List.map_congr_left fun i hi => h i ?_
  simpa using hi

/-- A slice of cells that are all equal. -/
theorem slice_const (b : β) (a n : Nat) : slice (fun _ => b) a n = List.replicate n b := by
  simp [slice, List.map_const']

/-- A slice splits at any point. -/
theorem slice_add (m : Mem β) (a n k : Nat) :
    m.slice a (n + k) = m.slice a n ++ m.slice (a + n) k := by
  simp [slice, List.range_add, Nat.add_assoc]

/-- A slice extended by one cell. -/
theorem slice_succ (m : Mem β) (a n : Nat) : m.slice a (n + 1) = m.slice a n ++ [m (a + n)] := by
  rw [slice_add]; rfl

theorem take_slice (m : Mem β) (a : Nat) {k n : Nat} (h : k ≤ n) :
    (m.slice a n).take k = m.slice a k := by
  obtain ⟨d, rfl⟩ := Nat.exists_eq_add_of_le h
  rw [slice_add, List.take_left' (length_slice m a k)]

theorem drop_slice (m : Mem β) (a : Nat) {k n : Nat} (h : k ≤ n) :
    (m.slice a n).drop k = m.slice (a + k) (n - k) := by
  obtain ⟨d, rfl⟩ := Nat.exists_eq_add_of_le h
  rw [slice_add, List.drop_left' (length_slice m a k), Nat.add_sub_cancel_left]

/-! ### Stores -/

theorem store_of_lt (m : Mem β) {a x : Nat} (bs : List β) (h : x < a) : m.store a bs x = m x :=
  if_neg (Nat.not_le.2 h)

theorem store_of_ge (m : Mem β) {a x : Nat} (bs : List β) (h : a + bs.length ≤ x) :
    m.store a bs x = m x := by
  unfold store
  split
  · exact List.getD_eq_default _ _ (by omega)
  · rfl

theorem store_add (m : Mem β) (a : Nat) {i : Nat} {bs : List β} (h : i < bs.length) :
    m.store a bs (a + i) = bs[i] := by
  unfold store
  rw [if_pos (Nat.le_add_right a i), Nat.add_sub_cancel_left, List.getD_eq_getElem _ _ h]

/-- A store of a slice, cell by cell. -/
theorem store_slice_apply (m m' : Mem β) (a b n x : Nat) :
    m.store a (m'.slice b n) x = if a ≤ x ∧ x < a + n then m' (b + (x - a)) else m x := by
  split
  · next h =>
    obtain ⟨i, rfl⟩ := Nat.exists_eq_add_of_le h.1
    rw [store_add _ _ (by simp; omega), getElem_slice, Nat.add_sub_cancel_left]
  · next h =>
    rcases Nat.lt_or_ge x a with hx | hx
    · exact store_of_lt m _ hx
    · exact store_of_ge m _ (by simp; omega)

@[simp] theorem store_nil (m : Mem β) (a : Nat) : m.store a [] = m := by
  funext x
  simp [store]

/-- Storing two runs one after the other is storing them together. -/
theorem store_append (m : Mem β) (a : Nat) (bs cs : List β) :
    m.store a (bs ++ cs) = (m.store a bs).store (a + bs.length) cs := by
  funext x
  unfold store
  by_cases hx : a ≤ x
  · rw [if_pos hx]
    by_cases hb : a + bs.length ≤ x
    · rw [if_pos hb, if_pos hx, List.getD_append_right _ _ _ _ (by omega),
        List.getD_eq_default bs _ (by omega), Nat.sub_add_eq]
    · rw [if_neg hb, if_pos hx, List.getD_append _ _ _ _ (by omega),
        List.getD_eq_getElem _ _ (by omega)]
  · rw [if_neg hx, if_neg (by omega), if_neg hx]

/-- One more cell of a run of stores. -/
theorem store_take_succ (m : Mem β) (a : Nat) {bs : List β} {i : Nat} (h : i < bs.length) :
    m.store a (bs.take (i + 1)) = (m.store a (bs.take i)).store (a + i) [bs[i]] := by
  rw [List.take_add_one, List.getElem?_eq_getElem h, Option.toList_some, store_append,
    List.length_take, Nat.min_eq_left (Nat.le_of_lt h)]

/-- A store of a slice that is longer by one cell. -/
theorem store_slice_succ (m m' : Mem β) (a b n : Nat) : m.store a (m'.slice b (n + 1)) =
    Function.update (m.store a (m'.slice b n)) (a + n) (m' (b + n)) := by
  funext x
  rcases eq_or_ne x (a + n) with rfl | hne
  · rw [Function.update_self, store_slice_apply, if_pos (by omega), Nat.add_sub_cancel_left]
  · rw [Function.update_of_ne hne, store_slice_apply, store_slice_apply]
    congr 1
    exact propext (by omega)

/-- What was stored is read back. -/
theorem slice_store_self (m : Mem β) (a : Nat) (bs : List β) :
    (m.store a bs).slice a bs.length = bs := by
  refine List.ext_getElem (by simp) fun i h₁ h₂ => ?_
  rw [getElem_slice, store_add m a h₂]

/-- A store leaves the slices it does not meet. -/
theorem slice_store_of_disjoint (m : Mem β) {a b n : Nat} {bs : List β}
    (h : b + n ≤ a ∨ a + bs.length ≤ b) : (m.store a bs).slice b n = m.slice b n := by
  refine slice_congr fun i hi => ?_
  rcases h with h | h
  · exact store_of_lt m bs (by omega)
  · exact store_of_ge m bs (by omega)

/-- A store within a slice replaces its cells and keeps those before and after. -/
theorem slice_store (m : Mem β) {a k n : Nat} {bs : List β} (h : k + bs.length ≤ n) :
    (m.store (a + k) bs).slice a n =
      (m.slice a n).take k ++ bs ++ (m.slice a n).drop (k + bs.length) := by
  obtain ⟨d, rfl⟩ := Nat.exists_eq_add_of_le h
  rw [take_slice _ _ (by omega), drop_slice _ _ (by omega), slice_add, slice_add,
    slice_store_of_disjoint m (.inl (Nat.le_refl _)), slice_store_self,
    slice_store_of_disjoint m (.inr (by omega)), Nat.add_sub_cancel_left]

end Mem

/-! ### Copies within a memory -/

variable {β : Type*}

/-- The contract's side condition: the source and the destination of a copy do not meet. -/
def Apart (dst src n : Nat) : Prop := dst + n ≤ src ∨ src + n ≤ dst

instance (dst src n : Nat) : Decidable (Apart dst src n) := inferInstanceAs (Decidable (_ ∨ _))

/-- A `memcpy`: bound to copy only where its ranges are apart. -/
structure Copier (β : Type*) where
  copy : Mem β → (dst src n : Nat) → Mem β
  contract : ∀ m dst src n, Apart dst src n → copy m dst src n = m.store dst (m.slice src n)

namespace Copier

/-- The copier also moves data to lower addresses where the ranges meet. -/
def MovesDown (cp : Copier β) : Prop :=
  ∀ m dst src n, dst ≤ src → cp.copy m dst src n = m.store dst (m.slice src n)

/-- One cell at a time, from the lowest address up. -/
def ascend (m : Mem β) (dst src : Nat) : Nat → Mem β
  | 0 => m
  | n + 1 =>
    let m' := ascend m dst src n
    m'.store (dst + n) [m' (src + n)]

/-- One cell at a time, from the highest address down. -/
def descend (m : Mem β) (dst src : Nat) : Nat → Mem β
  | 0 => m
  | n + 1 => descend (m.store (dst + n) [m (src + n)]) dst src n

/-- The ascending copy is right as long as no cell is overwritten before it is read. -/
theorem ascend_eq (m : Mem β) {dst src : Nat} :
    ∀ n, (dst ≤ src ∨ src + n ≤ dst) → ascend m dst src n = m.store dst (m.slice src n)
  | 0, _ => by simp [ascend]
  | n + 1, h => by
    have ih := ascend_eq m n (h.imp_right fun h => by omega)
    have hread : (m.store dst (m.slice src n)) (src + n) = m (src + n) := by
      rcases h with h | h
      · exact Mem.store_of_ge m _ (by simp; omega)
      · exact Mem.store_of_lt m _ (by omega)
    simp only [ascend, ih, hread]
    rw [Mem.slice_succ, Mem.store_append, Mem.length_slice]

/-- The descending copy is right as long as no cell is overwritten before it is read. -/
theorem descend_eq {dst src : Nat} :
    ∀ n (m : Mem β), (src ≤ dst ∨ dst + n ≤ src) → descend m dst src n = m.store dst (m.slice src n)
  | 0, m, _ => by simp [descend]
  | n + 1, m, h => by
    have ih := descend_eq n (m.store (dst + n) [m (src + n)]) (h.imp_right fun h => by omega)
    have hread : (m.store (dst + n) [m (src + n)]).slice src n = m.slice src n := by
      refine Mem.slice_store_of_disjoint m ?_
      rcases h with h | h
      · exact .inl (by omega)
      · exact .inr (by simp; omega)
    rw [descend, ih, hread]
    funext x
    rw [Mem.store_slice_apply, Mem.store_slice_apply]
    split
    · next hx => rw [if_pos ⟨hx.1, by omega⟩]
    · next hx =>
      by_cases hxn : x = dst + n
      · subst hxn
        rw [if_pos ⟨by omega, by omega⟩, Nat.add_sub_cancel_left]
        exact @Mem.store_add β m (dst + n) 0 [m (src + n)] (by simp)
      · rw [if_neg (by omega)]
        rcases Nat.lt_or_ge x (dst + n) with h' | h'
        · exact Mem.store_of_lt m _ h'
        · exact Mem.store_of_ge m _ (by simp; omega)

/-- The copy that runs upwards. -/
def ascending : Copier β where
  copy m dst src n := ascend m dst src n
  contract m _ _ n h := ascend_eq m n (h.imp_left fun h => by omega)

/-- The copy that runs downwards. -/
def descending : Copier β where
  copy m dst src n := descend m dst src n
  contract m _ _ n h := descend_eq n m (h.symm.imp_left fun h => by omega)

/-- A copy to lower addresses is right when the ranges are apart or the copier moves down. -/
theorem copy_down (cp : Copier β) {m : Mem β} {dst src n : Nat} (hle : dst ≤ src)
    (h : Apart dst src n ∨ cp.MovesDown) : cp.copy m dst src n = m.store dst (m.slice src n) :=
  h.elim (cp.contract m dst src n) fun h => h m dst src n hle

end Copier

end LinuxTraining.Lib
