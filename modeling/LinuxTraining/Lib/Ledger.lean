import Mathlib.Data.Finset.Card
import Mathlib.Data.Finset.Basic
import Mathlib.Data.List.Infix
import Mathlib.Tactic.Common

/-!
# Ledgers of resources

A ledger is the list of what a component has done with resources of a type `ρ`: it acquires and
releases them, and it links one to another that it relies on until it is unlinked. `held` and
`links` read off what is in its hands. `Fresh` is what an allocator promises, `Safe` that only what
is held is released and that a link never outlives its target, and `Balanced` that moreover each
resource is released as often as it was acquired. `card_held` counts: what is acquired is what is
released and what is still held.
-/

namespace LinuxTraining.Lib.Ledger

variable {ρ : Type*}

/-- One entry of a ledger. -/
inductive Event (ρ : Type*)
  | acquire (r : ρ)
  | release (r : ρ)
  /-- `x` relies on `r` from now on. -/
  | link (x r : ρ)
  | unlink (x : ρ)
  deriving DecidableEq

/-- An entry that acquires a resource with the property. -/
def Event.acquires (p : ρ → Bool) : Event ρ → Bool
  | .acquire r => p r
  | _ => false

/-- An entry that releases a resource with the property. -/
def Event.releases (p : ρ → Bool) : Event ρ → Bool
  | .release r => p r
  | _ => false

variable [DecidableEq ρ]

/-- What one entry makes of what is held. -/
def Event.heldAfter (s : Finset ρ) : Event ρ → Finset ρ
  | .acquire r => insert r s
  | .release r => s.erase r
  | .link _ _ | .unlink _ => s

/-- What one entry makes of the links. -/
def Event.linksAfter (s : Finset (ρ × ρ)) : Event ρ → Finset (ρ × ρ)
  | .link x r => insert (x, r) s
  | .unlink x => s.filter (·.1 ≠ x)
  | .acquire _ | .release _ => s

/-- What is held after a list of entries. -/
def held (log : List (Event ρ)) : Finset ρ := log.foldl Event.heldAfter ∅

/-- The links after a list of entries. -/
def links (log : List (Event ρ)) : Finset (ρ × ρ) := log.foldl Event.linksAfter ∅

/-- An allocator never gives out what is held. -/
def Fresh (log : List (Event ρ)) : Prop :=
  ∀ pre r, pre ++ [.acquire r] <+: log → r ∉ held pre

/-- Only what is held is released, and what something is linked to is held. -/
structure Safe (log : List (Event ρ)) : Prop where
  owned : ∀ pre r, pre ++ [.release r] <+: log → r ∈ held pre
  linked : ∀ pre, pre <+: log → ∀ x r, (x, r) ∈ links pre → r ∈ held pre

/-- A safe ledger in which everything is released as often as it was acquired. -/
structure Balanced (log : List (Event ρ)) : Prop extends Safe log where
  once : ∀ r, log.countP (Event.acquires (· = r)) = log.countP (Event.releases (· = r))

variable {log : List (Event ρ)} {e : Event ρ} {r : ρ}

@[simp] theorem held_nil : held ([] : List (Event ρ)) = ∅ := rfl

@[simp] theorem links_nil : links ([] : List (Event ρ)) = ∅ := rfl

@[simp] theorem held_snoc (log : List (Event ρ)) (e : Event ρ) :
    held (log ++ [e]) = e.heldAfter (held log) := by simp [held]

@[simp] theorem links_snoc (log : List (Event ρ)) (e : Event ρ) :
    links (log ++ [e]) = e.linksAfter (links log) := by simp [links]

theorem Fresh.of_prefix {log' : List (Event ρ)} (h : Fresh log') (hp : log <+: log') :
    Fresh log := by
  intro pre r hpre
  exact h pre r (hpre.trans hp)

/-- What is acquired last was not held. -/
theorem Fresh.last (h : Fresh (log ++ [.acquire r])) : r ∉ held log := h log r List.prefix_rfl

/-- What is held stays held until it is released. -/
theorem held_keep {log' : List (Event ρ)} (h : r ∈ held log) (hkeep : .release r ∉ log') :
    r ∈ held (log ++ log') := by
  induction log' using List.reverseRecOn with
  | nil => rwa [List.append_nil]
  | append_singleton log' e ih =>
    have hmem : r ∈ held (log ++ log') := ih fun h => hkeep (List.mem_append_left _ h)
    rw [← List.append_assoc, held_snoc]
    cases e with
    | acquire t => exact Finset.mem_insert_of_mem hmem
    | release t =>
      refine Finset.mem_erase.2 ⟨?_, hmem⟩
      rintro rfl
      exact hkeep (List.mem_append_right _ (List.mem_singleton_self _))
    | link | unlink => exact hmem

/-- What is left when a list of resources is released. -/
theorem mem_held_release {l : List ρ} :
    r ∈ held (log ++ l.map .release) ↔ r ∉ l ∧ r ∈ held log := by
  induction l using List.reverseRecOn with
  | nil => simp
  | append_singleton l x ih =>
    have hstep : r ∈ held (log ++ (l ++ [x]).map .release) ↔ r ≠ x ∧ r ∉ l ∧ r ∈ held log := by
      rw [List.map_append, ← List.append_assoc, List.map_singleton, held_snoc, Event.heldAfter,
        Finset.mem_erase, ih]
    rw [hstep, ← and_assoc, and_comm (a := r ≠ x), List.mem_append, List.mem_singleton, not_or]

/-- What has been acquired is held until it is released. -/
theorem held_of_acquire {log' : List (Event ρ)} (h : .acquire r ∈ log')
    (hkeep : .release r ∉ log') : r ∈ held (log ++ log') := by
  obtain ⟨before, after, rfl⟩ := List.append_of_mem h
  have hmem : r ∈ held ((log ++ before) ++ [.acquire r]) := by
    rw [held_snoc]
    exact Finset.mem_insert_self ..
  have hafter : .release r ∉ after := fun h =>
    hkeep (List.mem_append_right _ (List.mem_cons_of_mem _ h))
  have hheld := held_keep hmem hafter
  rwa [List.append_assoc, List.append_assoc] at hheld

/-- What a fresh ledger acquires was not held, if it has not released it. -/
theorem Fresh.notMem_held {log' : List (Event ρ)} (hf : Fresh (log ++ log'))
    (h : .acquire r ∈ log') (hkeep : .release r ∉ log') : r ∉ held log := by
  intro hr
  obtain ⟨before, after, rfl⟩ := List.append_of_mem h
  have hbefore : .release r ∉ before := fun h => hkeep (List.mem_append_left _ h)
  refine hf (log ++ before) r ?_ (held_keep hr hbefore)
  exact ⟨after, by rw [List.append_assoc, List.append_assoc]; rfl⟩

/-- Whether no entry acquires what is held, when `s` is held before the first one. -/
def freshFrom (s : Finset ρ) : List (Event ρ) → Bool
  | [] => true
  | .acquire r :: log => decide (r ∉ s) && freshFrom (insert r s) log
  | e :: log => freshFrom (e.heldAfter s) log

/-- Freshness by evaluation. -/
theorem Fresh.of_freshFrom (h : freshFrom ∅ log) : Fresh log := by
  have key : ∀ (log : List (Event ρ)) (s : Finset ρ), freshFrom s log → ∀ pre r,
      pre ++ [.acquire r] <+: log → r ∉ pre.foldl Event.heldAfter s := by
    intro log
    induction log with
    | nil => intro s _ pre r hp; simp at hp
    | cons e log ih =>
      intro s hs pre r hp
      have hrest : freshFrom (e.heldAfter s) log := by
        cases e with
        | acquire t => exact (Bool.and_eq_true_iff.1 hs).2
        | release | link | unlink => exact hs
      cases pre with
      | nil =>
        obtain ⟨rfl, -⟩ := List.cons_prefix_cons.1 hp
        exact of_decide_eq_true (Bool.and_eq_true_iff.1 hs).1
      | cons e' pre =>
        obtain ⟨rfl, hp'⟩ := List.cons_prefix_cons.1 hp
        exact ih _ hrest pre r hp'
  exact key log ∅ h

theorem Safe.of_prefix {log' : List (Event ρ)} (h : Safe log') (hp : log <+: log') :
    Safe log where
  owned pre r hpre := h.owned pre r (hpre.trans hp)
  linked pre hpre := h.linked pre (hpre.trans hp)

theorem Safe.nil : Safe ([] : List (Event ρ)) where
  owned pre r h := by simp at h
  linked pre h x r := by simp [List.prefix_nil.1 h]

/-- One more entry. -/
theorem Safe.snoc (h : Safe log) (hown : ∀ r, e = .release r → r ∈ held log)
    (hlink : ∀ x r, (x, r) ∈ links (log ++ [e]) → r ∈ held (log ++ [e])) :
    Safe (log ++ [e]) where
  owned pre r hp := by
    rcases List.prefix_concat_iff.1 hp with heq | hp
    · obtain ⟨rfl, he⟩ := List.append_inj' heq rfl
      exact hown r (List.singleton_injective he).symm
    · exact h.owned pre r hp
  linked pre hp := by
    rcases List.prefix_concat_iff.1 hp with rfl | hp
    · exact hlink
    · exact h.linked pre hp

/-- The links of a safe ledger lead to what is held. -/
theorem Safe.links_held (h : Safe log) {x : ρ} (hx : (x, r) ∈ links log) : r ∈ held log :=
  h.linked log List.prefix_rfl x r hx

theorem Safe.acquire (h : Safe log) (r : ρ) : Safe (log ++ [.acquire r]) := by
  refine h.snoc (by simp) ?_
  intro x t ht
  rw [links_snoc] at ht
  rw [held_snoc]
  exact Finset.mem_insert_of_mem (h.links_held ht)

/-- Something may be linked to what is held. -/
theorem Safe.link (h : Safe log) (x : ρ) (hr : r ∈ held log) : Safe (log ++ [.link x r]) := by
  refine h.snoc (by simp) ?_
  intro y t ht
  rw [links_snoc] at ht
  rw [held_snoc]
  rcases Finset.mem_insert.1 ht with heq | ht
  · obtain ⟨-, rfl⟩ := Prod.mk.inj heq
    exact hr
  · exact h.links_held ht

theorem Safe.unlink (h : Safe log) (x : ρ) : Safe (log ++ [.unlink x]) := by
  refine h.snoc (by simp) ?_
  intro y t ht
  rw [links_snoc] at ht
  rw [held_snoc]
  exact h.links_held (Finset.mem_filter.1 ht).1

/-- What is held may be released when nothing is linked to it. -/
theorem Safe.release (h : Safe log) (hr : r ∈ held log) (hx : ∀ x, (x, r) ∉ links log) :
    Safe (log ++ [.release r]) := by
  refine h.snoc ?_ ?_
  · intro t ht
    obtain rfl := Event.release.inj ht
    exact hr
  · intro x t ht
    rw [links_snoc] at ht
    rw [held_snoc]
    refine Finset.mem_erase.2 ⟨?_, h.links_held ht⟩
    rintro rfl
    exact hx x ht

/-- **Counting.** What has been acquired has been released or is still held. -/
theorem card_held (hs : Safe log) (hf : Fresh log) (p : ρ → Bool) :
    log.countP (Event.acquires p) =
      log.countP (Event.releases p) + ((held log).filter (p ·)).card := by
  induction log using List.reverseRecOn with
  | nil => simp
  | append_singleton log e ih =>
    have hpre : log <+: log ++ [e] := List.prefix_append ..
    have ih := ih (hs.of_prefix hpre) (hf.of_prefix hpre)
    rw [List.countP_append, List.countP_append, ih, held_snoc]
    cases e with
    | acquire r =>
      by_cases hp : p r
      · have hnot : r ∉ (held log).filter (p ·) := fun h => hf.last (Finset.mem_filter.1 h).1
        have hcard : ((insert r (held log)).filter (p ·)).card =
            ((held log).filter (p ·)).card + 1 := by
          rw [Finset.filter_insert, if_pos hp, Finset.card_insert_of_notMem hnot]
        have hone : [Event.acquire r].countP (Event.acquires p) = 1 := by
          simp [Event.acquires, hp]
        rw [hone, Event.heldAfter, hcard]
        simp [Event.releases, Nat.add_assoc]
      · simp [Event.acquires, Event.releases, Event.heldAfter, Finset.filter_insert, hp]
    | release r =>
      have hr : r ∈ held log := hs.owned log r List.prefix_rfl
      by_cases hp : p r
      · have hmem : r ∈ (held log).filter (p ·) := Finset.mem_filter.2 ⟨hr, hp⟩
        have hcard : (((held log).erase r).filter (p ·)).card + 1 =
            ((held log).filter (p ·)).card := by
          rw [Finset.filter_erase, Finset.card_erase_add_one hmem]
        have hone : [Event.release r].countP (Event.releases p) = 1 := by
          simp [Event.releases, hp]
        rw [hone, Event.heldAfter, ← hcard]
        simp [Event.acquires, Nat.add_assoc, Nat.add_comm 1]
      · simp [Event.acquires, Event.releases, Event.heldAfter, Finset.filter_erase, hp]
    | link x r => simp [Event.acquires, Event.releases, Event.heldAfter]
    | unlink x => simp [Event.acquires, Event.releases, Event.heldAfter]

/-- With a fresh allocator a safe ledger is balanced when nothing is held at its end. -/
theorem balanced_iff (hf : Fresh log) : Balanced log ↔ Safe log ∧ held log = ∅ := by
  constructor
  · intro h
    refine ⟨h.toSafe, Finset.eq_empty_of_forall_notMem ?_⟩
    intro r hr
    have hcard := card_held h.toSafe hf (· = r)
    have hmem : r ∈ (held log).filter (fun x => decide (x = r)) := by simp [hr]
    have hpos := Finset.card_pos.2 ⟨r, hmem⟩
    have := h.once r
    omega
  · rintro ⟨hs, hempty⟩
    refine ⟨hs, ?_⟩
    intro r
    have hcard := card_held hs hf (· = r)
    simpa [hempty] using hcard

end LinuxTraining.Lib.Ledger
