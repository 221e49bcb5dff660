import Mathlib.Logic.Function.Basic
import Mathlib.Data.Set.Insert

/-!
# Locks and their holders

A table of locks records an owner for each lock in use; the program points of the parties say which
lock each holds, at most one. `Held` says that the two agree. A lock by a party that holds none and
an unlock by the owner keep it (`Held.lock`, `Held.unlock`), and a free lock may come into use
(`Held.insert`).
-/

namespace LinuxTraining.Lib

open Function

variable {ι P : Type*} {D : Set ι} {owner owner' : ι → Option P} {holds : P → Option ι} {i : ι}
  {p : P}

/-- The owners of the locks in `D` are the parties that hold them. -/
def Held (D : Set ι) (owner : ι → Option P) (holds : P → Option ι) : Prop :=
  ∀ i ∈ D, ∀ p, owner i = some p ↔ holds p = some i

/-- A lock that nobody owns is held by nobody. -/
theorem Held.not_holds (h : Held D owner holds) (hi : i ∈ D) (hfree : owner i = none) :
    holds p ≠ some i :=
  fun hp => absurd (hfree.symm.trans ((h i hi p).2 hp)) nofun

/-- The locks out of use may have any owner. -/
theorem Held.congr (h : Held D owner holds) (ho : ∀ i ∈ D, owner' i = owner i) :
    Held D owner' holds := fun i hi p => by
  rw [ho i hi]
  exact h i hi p

variable [DecidableEq ι] [DecidableEq P]

/-- A party that holds nothing takes a free lock. -/
theorem Held.lock (h : Held D owner holds) (hi : i ∈ D) (hfree : owner i = none)
    (hp : holds p = none) : Held D (update owner i (some p)) (update holds p (some i)) := by
  intro j hj q
  rcases eq_or_ne q p with rfl | hq
  · rw [update_self]
    rcases eq_or_ne j i with rfl | hij
    · rw [update_self]
      exact ⟨fun _ => rfl, fun _ => rfl⟩
    · rw [update_of_ne hij, h j hj, hp]
      exact ⟨nofun, fun he => absurd (Option.some.inj he).symm hij⟩
  · rw [update_of_ne hq]
    rcases eq_or_ne j i with rfl | hij
    · rw [update_self]
      exact ⟨fun he => absurd (Option.some.inj he).symm hq,
        fun he => absurd he (h.not_holds hi hfree)⟩
    · rw [update_of_ne hij]
      exact h j hj q

/-- The owner of a lock gives it back. -/
theorem Held.unlock (h : Held D owner holds) (hi : i ∈ D) (hp : holds p = some i) :
    Held D (update owner i none) (update holds p none) := by
  intro j hj q
  rcases eq_or_ne q p with rfl | hq
  · rw [update_self]
    rcases eq_or_ne j i with rfl | hij
    · rw [update_self]
      exact ⟨nofun, nofun⟩
    · rw [update_of_ne hij, h j hj, hp]
      exact ⟨fun he => absurd (Option.some.inj he).symm hij, nofun⟩
  · rw [update_of_ne hq]
    rcases eq_or_ne j i with rfl | hij
    · rw [update_self]
      refine ⟨nofun, fun he => absurd ?_ hq⟩
      exact Option.some.inj (((h j hi q).2 he).symm.trans ((h j hi p).2 hp))
    · rw [update_of_ne hij]
      exact h j hj q

omit [DecidableEq ι] [DecidableEq P] in
/-- A lock that nobody owns and nobody holds comes into use. -/
theorem Held.insert (h : Held D owner holds) (hfree : owner i = none)
    (hno : ∀ p, holds p ≠ some i) : Held (insert i D) owner holds := by
  intro j hj q
  rcases Set.mem_insert_iff.1 hj with rfl | hj
  · rw [hfree]
    exact ⟨nofun, fun he => absurd he (hno q)⟩
  · exact h j hj q

end LinuxTraining.Lib
