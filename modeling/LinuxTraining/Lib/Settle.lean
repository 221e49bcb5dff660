import LinuxTraining.Lib.Machine
import Mathlib.Algebra.Group.Action.Defs
import Mathlib.Algebra.GroupWithZero.Nat
import Mathlib.Algebra.Order.BigOperators.Group.Finset

/-!
# Runs that come to rest

Some labels of a machine are steps of the system's own, and the others are the environment's. A
potential is a number of a state that each own step lowers and that a label of the environment
raises by no more than its cost. It bounds the own steps of every run by what the environment has
spent (`Run.own_le`), and from every state some run of own steps leads to a state at rest, where
none is left (`exists_settled`). Where the potential is a sum over parties, a step is looked at
party by party (`sum_spend`).
-/

namespace LinuxTraining.Lib.Machine

variable {σ α : Type*} {M : Machine σ α} {C : σ → α → Prop} {I : σ → Prop} {P : σ → ℕ}
  {own : α → Bool} {cost : α → ℕ}

/-- A state at rest: no own step can be taken. -/
def Settled (M : Machine σ α) (own : α → Bool) (s : σ) : Prop :=
  ∀ a, own a = true → M.step s a = none

/-- What the environment has spent pays for the own steps. -/
theorem Run.own_le {s t : σ} {as : List α} (h : M.Run C s as t) (h0 : I s)
    (hI : ∀ s a s', I s → C s a → M.step s a = some s' → I s')
    (hpot : ∀ s a s', I s → C s a → M.step s a = some s' →
      P s' + (if own a then 1 else 0) ≤ P s + cost a) :
    as.countP own + P t ≤ P s + (as.map cost).sum := by
  have hinv : ∀ {bs u}, M.Run C s bs u → I u := fun hr => hr.invariant h0 hI
  induction h with
  | nil => simp
  | snoc a hr hC hs ih =>
    have hstep := hpot _ a _ (hinv hr) hC hs
    rw [List.countP_append, List.countP_singleton, List.map_append, List.sum_append]
    simp only [List.map_cons, List.map_nil, List.sum_cons, List.sum_nil]
    omega

/-- Where each own step lowers a number, it bounds the own steps that follow. -/
theorem Run.own_length_le {s t : σ} {as : List α} (h : M.Run (fun _ a => own a = true) s as t)
    (h0 : I s) (hI : ∀ s a s', I s → own a = true → M.step s a = some s' → I s')
    (hpot : ∀ s a s', I s → own a = true → M.step s a = some s' → P s' < P s) :
    as.length + P t ≤ P s := by
  have hinv : ∀ {bs u}, M.Run (fun _ a => own a = true) s bs u → I u := fun hr => hr.invariant h0 hI
  induction h with
  | nil => exact (Nat.zero_add _).le
  | snoc a hr ha hs ih =>
    have hlt := hpot _ a _ (hinv hr) ha hs
    rw [List.length_append, List.length_singleton]
    omega

/-- Where each own step lowers a number, own steps lead to rest. -/
theorem exists_settled {s : σ} (h0 : I s)
    (hI : ∀ s a s', I s → own a = true → M.step s a = some s' → I s')
    (hpot : ∀ s a s', I s → own a = true → M.step s a = some s' → P s' < P s) :
    ∃ as t, M.Run (fun _ a => own a = true) s as t ∧ M.Settled own t := by
  induction hk : P s using Nat.strong_induction_on generalizing s with
  | _ k ih =>
    by_cases hset : M.Settled own s
    · exact ⟨[], s, .nil, hset⟩
    · obtain ⟨a, ha, hs⟩ : ∃ a, own a = true ∧ M.step s a ≠ none := by
        simpa [Settled] using hset
      obtain ⟨s', hs'⟩ := Option.ne_none_iff_exists'.1 hs
      obtain ⟨as, t, hr, ht⟩ := ih _ (hk ▸ hpot s a s' h0 ha hs') (hI s a s' h0 ha hs') rfl
      exact ⟨a :: as, t, hr.cons a ha hs', ht⟩

/-- **The rule of rest.** Own steps spend, and the environment pays: the own steps of a run and
those that can follow it are bounded by what has been paid, and they lead to rest. -/
theorem Run.settles {s t : σ} {as : List α} (h : M.Run C s as t) (h0 : I s)
    (hI : ∀ s a s', I s → C s a ∨ own a = true → M.step s a = some s' → I s')
    (hown : ∀ s a s', I s → own a = true → M.step s a = some s' → P s' < P s)
    (henv : ∀ s a s', I s → C s a → own a = false → M.step s a = some s' →
      P s' ≤ P s + cost a) :
    (∀ bs u, M.Run (fun _ a => own a = true) t bs u →
      as.countP own + bs.length ≤ P s + (as.map cost).sum) ∧
    ∃ bs u, M.Run (fun _ a => own a = true) t bs u ∧ I u ∧ M.Settled own u := by
  have hrun : ∀ s a s', I s → C s a → M.step s a = some s' → I s' :=
    fun _ _ _ hs ha => hI _ _ _ hs (.inl ha)
  have hrest : ∀ s a s', I s → own a = true → M.step s a = some s' → I s' :=
    fun _ _ _ hs ha => hI _ _ _ hs (.inr ha)
  have ht : I t := h.invariant h0 hrun
  have hbefore : as.countP own + P t ≤ P s + (as.map cost).sum := by
    refine h.own_le h0 hrun fun u a u' hu hC hs => ?_
    cases ha : own a with
    | true => exact Nat.le_add_right_of_le (hown u a u' hu ha hs)
    | false => exact henv u a u' hu hC ha hs
  refine ⟨fun bs u hr => ?_, ?_⟩
  · have hafter := hr.own_length_le ht hrest hown
    omega
  · obtain ⟨bs, u, hr, hset⟩ := exists_settled ht hrest hown
    exact ⟨bs, u, hr, hr.invariant ht hrest, hset⟩

end LinuxTraining.Lib.Machine

namespace LinuxTraining.Lib

open Finset

variable {ι : Type*} {F : Finset ι} {f g : ι → ℕ} {p : ι} {k δ : ℕ}

/-- One party spends `k`, and each of the others gains `δ` at most. -/
theorem sum_spend [DecidableEq ι] (hp : p ∈ F) (hself : g p + k ≤ f p)
    (hothers : ∀ q, q ≠ p → g q ≤ f q + δ) : ∑ q ∈ F, g q + k ≤ ∑ q ∈ F, f q + #F * δ := by
  have hsum : ∑ q ∈ F.erase p, g q ≤ ∑ q ∈ F.erase p, f q + #(F.erase p) * δ := by
    have hle := sum_le_sum fun q (hq : q ∈ F.erase p) => hothers q (ne_of_mem_erase hq)
    rwa [sum_add_distrib, sum_const, smul_eq_mul] at hle
  have hcard : #(F.erase p) * δ ≤ #F * δ := Nat.mul_le_mul_right _ (card_le_card (erase_subset p F))
  have hg := add_sum_erase F g hp
  have hf := add_sum_erase F f hp
  omega

/-- One party gains `k` at most, and the others are left alone. -/
theorem sum_gain [DecidableEq ι] (hp : p ∈ F) (hself : g p ≤ f p + k)
    (hothers : ∀ q, q ≠ p → g q = f q) : ∑ q ∈ F, g q ≤ ∑ q ∈ F, f q + k := by
  have hsum : ∑ q ∈ F.erase p, g q = ∑ q ∈ F.erase p, f q :=
    sum_congr rfl fun q hq => hothers q (ne_of_mem_erase hq)
  have hg := add_sum_erase F g hp
  have hf := add_sum_erase F f hp
  omega

end LinuxTraining.Lib
