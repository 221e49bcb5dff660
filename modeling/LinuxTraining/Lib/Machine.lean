import Mathlib.Logic.Function.Basic
import Mathlib.Tactic.Common

/-!
# Machines, guarded runs and invariants

A `Machine` is a set of initial states with a partial step function: a label carries everything
the environment decides (which thread moves, how far a copy gets, whether a wakeup is spurious),
so that a step is a function of state and label and a schedule can be evaluated. A run may be
*guarded* by a condition `C` on the state before a step and the step's label; `Machine.Run C` are
the runs all of whose steps meet `C`, and the unguarded runs are those at `fun _ _ => True`. An
invariant of the guarded runs is proved from one step (`Reach.invariant`), and so is the answer that
one machine has to the runs of another (`Run.simulates`).
-/

namespace LinuxTraining.Lib

/-- Initial states, and a step function that is undefined where a label cannot be taken. -/
structure Machine (σ : Type*) (α : Type*) where
  init : σ → Prop
  step : σ → α → Option σ

namespace Machine

variable {σ α ε : Type*} (M : Machine σ α)

/-- The state after a list of labels, if every one of them can be taken. -/
def runFrom (s : σ) : List α → Option σ
  | [] => some s
  | a :: as => (M.step s a).bind fun s' => runFrom s' as

/-- The runs from `s` whose every step meets `C` in the state before it. -/
inductive Run (C : σ → α → Prop) (s : σ) : List α → σ → Prop
  | nil : Run C s [] s
  | snoc {as : List α} {t u : σ} (a : α) :
      Run C s as t → C t a → M.step t a = some u → Run C s (as ++ [a]) u

/-- The states that the runs guarded by `C` reach from an initial state. -/
def Reach (C : σ → α → Prop) (s : σ) : Prop :=
  ∃ s₀ as, M.init s₀ ∧ M.Run C s₀ as s

/-- No condition on the steps. -/
def anyStep (_ : σ) (_ : α) : Prop := True

variable {M} {C : σ → α → Prop}

/-- Labels after labels. -/
theorem runFrom_append (s : σ) (as bs : List α) :
    M.runFrom s (as ++ bs) = (M.runFrom s as).bind fun t => M.runFrom t bs := by
  induction as generalizing s with
  | nil => rfl
  | cons a as ih =>
    rw [List.cons_append, runFrom, runFrom, Option.bind_assoc]
    simp only [ih]

@[simp] theorem runFrom_singleton (s : σ) (a : α) : M.runFrom s [a] = M.step s a :=
  Option.bind_fun_some _

/-- A run guarded by a condition is guarded by a weaker one. -/
theorem Run.imp {C' : σ → α → Prop} {s t : σ} {as : List α} (h : M.Run C s as t)
    (hC : ∀ s a, C s a → C' s a) : M.Run C' s as t := by
  induction h with
  | nil => exact .nil
  | snoc a _ ha hs ih => exact .snoc a ih (hC _ a ha) hs

/-- A run prepended with a step. -/
theorem Run.cons {s t u : σ} {as : List α} (a : α) (hC : C s a) (hs : M.step s a = some t)
    (h : M.Run C t as u) : M.Run C s (a :: as) u := by
  induction h with
  | nil => exact (Run.snoc a .nil hC hs : M.Run C s ([] ++ [a]) t)
  | snoc b _ hb hsb ih => exact (Run.snoc b ih hb hsb : M.Run C s ((a :: _) ++ [b]) _)

/-- A run after a run. -/
theorem Run.trans {s t u : σ} {as bs : List α} (h : M.Run C s as t) (h' : M.Run C t bs u) :
    M.Run C s (as ++ bs) u := by
  induction h' with
  | nil => rwa [List.append_nil]
  | snoc b _ hb hsb ih =>
    rw [← List.append_assoc]
    exact .snoc b ih hb hsb

/-- Evaluating a schedule whose labels all meet the guard gives a run. -/
theorem Run.of_runFrom {as : List α} (hC : ∀ a ∈ as, ∀ s, C s a) :
    ∀ {s t : σ}, M.runFrom s as = some t → M.Run C s as t := by
  induction as with
  | nil =>
    intro s t h
    cases h
    exact .nil
  | cons a as ih =>
    intro s t h
    obtain ⟨s', hs', h'⟩ := Option.bind_eq_some_iff.1 h
    exact .cons a (hC a (.head _) s) hs' (ih (fun b hb => hC b (.tail _ hb)) h')

/-- A run is what its labels evaluate to. -/
theorem Run.runFrom_append {s t : σ} {as bs : List α} (h : M.Run C s as t) :
    M.runFrom s (as ++ bs) = M.runFrom t bs := by
  induction h generalizing bs with
  | nil => rfl
  | snoc a _ _ hs ih => rw [List.append_assoc, ih]; simp [runFrom, hs]

/-- The labels of a run lead to its end. -/
theorem Run.runFrom_eq {s t : σ} {as : List α} (h : M.Run C s as t) : M.runFrom s as = some t := by
  have hrun : M.runFrom s (as ++ []) = M.runFrom t [] := h.runFrom_append
  rwa [List.append_nil] at hrun

/-- A list of labels leads to one state at most. -/
theorem Run.unique {C' : σ → α → Prop} {s t u : σ} {as : List α} (h : M.Run C s as t)
    (h' : M.Run C' s as u) : t = u :=
  Option.some.inj (h.runFrom_eq.symm.trans h'.runFrom_eq)

/-- The first part of a run is a run. -/
theorem Run.of_append {s u : σ} {as bs : List α} (h : M.Run C s (as ++ bs) u) :
    ∃ t, M.Run C s as t ∧ M.Run C t bs u := by
  generalize hcs : as ++ bs = cs at h
  induction h generalizing bs with
  | nil =>
    obtain ⟨rfl, rfl⟩ := List.append_eq_nil_iff.1 hcs
    exact ⟨s, .nil, .nil⟩
  | snoc a hr hC hs ih =>
    rcases List.eq_nil_or_concat bs with rfl | ⟨bs, b, rfl⟩
    · rw [List.append_nil] at hcs
      subst hcs
      exact ⟨_, .snoc a hr hC hs, .nil⟩
    · rw [List.concat_eq_append, ← List.append_assoc] at hcs
      obtain ⟨rfl, hb⟩ := List.append_inj' hcs rfl
      obtain rfl : b = a := by simpa using hb
      obtain ⟨t, h₁, h₂⟩ := ih rfl
      refine ⟨t, h₁, ?_⟩
      rw [List.concat_eq_append]
      exact .snoc b h₂ hC hs

/-- The first step of a run. -/
theorem Run.uncons {s u : σ} {a : α} {as : List α} (h : M.Run C s (a :: as) u) :
    ∃ t, C s a ∧ M.step s a = some t ∧ M.Run C t as u := by
  rw [← List.singleton_append] at h
  obtain ⟨t, hone, hrest⟩ := h.of_append
  generalize hbs : [a] = bs at hone
  cases hone with
  | nil => cases hbs
  | snoc b hr hC hs =>
    rw [← List.nil_append [a]] at hbs
    obtain ⟨rfl, hb⟩ := List.append_inj' hbs rfl
    cases hb
    cases hr.unique (.nil : M.Run C s [] s)
    exact ⟨t, hC, hs, hrest⟩

/-- Each step of a guarded run meets the guard in the state before it. -/
theorem Run.guard {C' : σ → α → Prop} {s t u : σ} {as bs : List α} {a : α}
    (h : M.Run C s (as ++ a :: bs) u) (h' : M.Run C' s as t) : C t a := by
  rw [← List.singleton_append, ← List.append_assoc] at h
  obtain ⟨v, hv, -⟩ := h.of_append
  generalize hcs : as ++ [a] = cs at hv
  cases hv with
  | nil => exact absurd hcs (by simp)
  | snoc b hr hC hs =>
    obtain ⟨rfl, hb⟩ := List.append_inj' hcs rfl
    obtain rfl : a = b := by simpa using hb
    obtain rfl := h'.unique hr
    exact hC

/-- A property of the start that each guarded step keeps holds at the end of a run. -/
theorem Run.invariant {I : σ → Prop} {s t : σ} {as : List α} (h : M.Run C s as t) (h0 : I s)
    (hstep : ∀ s a s', I s → C s a → M.step s a = some s' → I s') : I t := by
  induction h with
  | nil => exact h0
  | snoc a _ hC hs ih => exact hstep _ _ _ ih hC hs

/-- **The invariant rule.** A property of the initial states that each guarded step keeps holds of
every reached state. -/
theorem Reach.invariant {I : σ → Prop} {s : σ} (h : M.Reach C s) (h0 : ∀ s, M.init s → I s)
    (hstep : ∀ s a s', I s → C s a → M.step s a = some s' → I s') : I s := by
  obtain ⟨s₀, as, hi, hr⟩ := h
  exact hr.invariant (h0 s₀ hi) hstep

/-- A run guarded by a condition is guarded by another, if an invariant makes the steps meet it. -/
theorem Run.guarded {C' : σ → α → Prop} {I : σ → Prop} {s t : σ} {as : List α}
    (h : M.Run C s as t) (h0 : I s) (hI : ∀ s a s', I s → C s a → M.step s a = some s' → I s')
    (hC : ∀ s a s', I s → C s a → M.step s a = some s' → C' s a) : M.Run C' s as t ∧ I t := by
  induction h with
  | nil => exact ⟨.nil, h0⟩
  | snoc a _ ha hs ih =>
    exact ⟨.snoc a ih.1 (hC _ a _ ih.2 ha hs) hs, hI _ a _ ih.2 ha hs⟩

/-- The rule for reached states. -/
theorem Reach.guarded {C' : σ → α → Prop} {I : σ → Prop} {s : σ} (h : M.Reach C s)
    (h0 : ∀ s, M.init s → I s) (hI : ∀ s a s', I s → C s a → M.step s a = some s' → I s')
    (hC : ∀ s a s', I s → C s a → M.step s a = some s' → C' s a) : M.Reach C' s ∧ I s := by
  obtain ⟨s₀, as, hi, hr⟩ := h
  obtain ⟨hr', ht⟩ := hr.guarded (h0 s₀ hi) hI hC
  exact ⟨⟨s₀, as, hi, hr'⟩, ht⟩

/-- A run guarded by two conditions. -/
theorem Run.and {C' : σ → α → Prop} {s t : σ} {as : List α} (h : M.Run C s as t)
    (h' : M.Run C' s as t) : M.Run (fun s a => C s a ∧ C' s a) s as t := by
  induction h with
  | nil => exact .nil
  | snoc a hr ha hs ih =>
    obtain ⟨v, hv, hlast⟩ := h'.of_append
    obtain rfl := hr.unique hv
    exact .snoc a (ih hv) ⟨ha, h'.guard hr⟩ hs

/-- A condition on labels alone is met by a run whose labels meet it. -/
theorem Run.of_labels {P : α → Prop} {s t : σ} {as : List α} (h : M.Run C s as t)
    (hP : ∀ a ∈ as, P a) : M.Run (fun _ a => P a) s as t := by
  induction h with
  | nil => exact .nil
  | snoc a _ _ hs ih =>
    refine .snoc a (ih fun b hb => hP b (List.mem_append_left _ hb)) (hP a ?_) hs
    exact List.mem_append_right _ (List.mem_singleton_self a)

/-- The labels of a run guarded by a condition on labels alone. -/
theorem Run.labels {P : α → Prop} {s t : σ} {as : List α}
    (h : M.Run (fun _ a => P a) s as t) : ∀ a ∈ as, P a := by
  induction h with
  | nil => exact fun _ hb => absurd hb List.not_mem_nil
  | snoc a _ ha _ ih =>
    intro b hb
    rcases List.mem_append.1 hb with hb | hb
    · exact ih b hb
    · rwa [List.mem_singleton.1 hb]

/-- The state after a list of labels that can all be taken and all pass a check. -/
def runChecked (M : Machine σ α) (chk : σ → α → Bool) (s : σ) : List α → Option σ
  | [] => some s
  | a :: as => if chk s a then (M.step s a).bind fun s' => runChecked M chk s' as else none

/-- **Guarded runs by evaluation.** A check that implies the guard, on the states of an invariant
that checked steps keep, makes an evaluated schedule a guarded run. -/
theorem Run.of_checked {I : σ → Prop} {chk : σ → α → Bool} (hC : ∀ s a, I s → chk s a → C s a)
    (hI : ∀ s a s', I s → chk s a → M.step s a = some s' → I s') {as : List α} :
    ∀ {s t : σ}, I s → M.runChecked chk s as = some t → M.Run C s as t ∧ I t := by
  induction as with
  | nil =>
    intro s t h0 h
    cases h
    exact ⟨.nil, h0⟩
  | cons a as ih =>
    intro s t h0 h
    rw [runChecked] at h
    split at h
    · next hchk =>
      obtain ⟨s', hs', h'⟩ := Option.bind_eq_some_iff.1 h
      obtain ⟨hr, ht⟩ := ih (hI s a s' h0 hchk hs') h'
      exact ⟨.cons a (hC s a h0 hchk) hs' hr, ht⟩
    · cases h

/-- A schedule whose steps all decidably meet the guard is a guarded run. -/
theorem Run.of_decided [∀ s a, Decidable (C s a)] {s t : σ} {as : List α}
    (h : M.runChecked (fun s a => decide (C s a)) s as = some t) : M.Run C s as t :=
  (Run.of_checked (I := fun _ => True) (fun _ _ _ hchk => of_decide_eq_true hchk)
    (fun _ _ _ _ _ _ => trivial) trivial h).1

/-- A schedule whose steps all decidably meet the guard reaches its last state. -/
theorem Reach.of_decided [∀ s a, Decidable (C s a)] {s t : σ} {as : List α} (h0 : M.init s)
    (h : M.runChecked (fun s a => decide (C s a)) s as = some t) : M.Reach C t :=
  ⟨s, as, h0, .of_decided h⟩

/-- The observations of a run: what `obs` shows of each step, in order. -/
def events (M : Machine σ α) (obs : σ → α → Option ε) (s : σ) : List α → List ε
  | [] => []
  | a :: as =>
    (obs s a).toList ++
      match M.step s a with
      | some s' => events M obs s' as
      | none => []

/-- The observations of a step, and then of a run. -/
theorem events_cons (obs : σ → α → Option ε) {s t : σ} {a : α} (h : M.step s a = some t)
    (as : List α) : M.events obs s (a :: as) = (obs s a).toList ++ M.events obs t as := by
  rw [events, h]

/-- The observations of a run, and then of another. -/
theorem events_append (obs : σ → α → Option ε) {s t : σ} {as : List α}
    (h : M.runFrom s as = some t) (bs : List α) :
    M.events obs s (as ++ bs) = M.events obs s as ++ M.events obs t bs := by
  induction as generalizing s with
  | nil =>
    cases h
    rfl
  | cons a as ih =>
    obtain ⟨s', hs', hr⟩ := Option.bind_eq_some_iff.1 h
    simp only [List.cons_append, events_cons obs hs', ih hr, List.append_assoc]

/-- The observations of a run with one more step. -/
theorem Run.events_snoc (obs : σ → α → Option ε) {s t u : σ} {as : List α} {a : α}
    (h : M.Run C s as t) (hs : M.step t a = some u) :
    M.events obs s (as ++ [a]) = M.events obs s as ++ (obs t a).toList := by
  rw [events_append obs h.runFrom_eq]
  simp [events, hs]

/-- The invariant rule, with what has been observed so far. -/
theorem Run.events_invariant {obs : σ → α → Option ε} {J : List ε → σ → Prop} {s t : σ}
    {as : List α} (h : M.Run C s as t) (h0 : J [] s)
    (hJ : ∀ l u a u', J l u → C u a → M.step u a = some u' → J (l ++ (obs u a).toList) u') :
    J (M.events obs s as) t := by
  induction h with
  | nil => exact h0
  | snoc a hr hC hs ih =>
    rw [hr.events_snoc obs hs]
    exact hJ _ _ a _ ih hC hs

/-- What holds of the observation of each guarded step holds of those of a guarded run. -/
theorem Run.forall_events {obs : σ → α → Option ε} {P : ε → Prop} {s t : σ} {as : List α}
    (h : M.Run C s as t) (hobs : ∀ s a e, C s a → obs s a = some e → P e) :
    ∀ e ∈ M.events obs s as, P e := by
  refine h.events_invariant (J := fun l _ => ∀ e ∈ l, P e) (fun e he => absurd he List.not_mem_nil)
    fun l u a u' hl hC _ e he => ?_
  rcases List.mem_append.1 he with he | he
  · exact hl e he
  · exact hobs u a e hC (Option.mem_toList.1 he)

/-- A state with the property lies on the run of the labels. -/
def Visits (M : Machine σ α) (s : σ) (as : List α) (P : σ → Prop) : Prop :=
  ∃ bs t, bs <+: as ∧ M.runFrom s bs = some t ∧ P t

theorem Visits.snoc {s : σ} {as : List α} {P : σ → Prop} (h : M.Visits s as P) (a : α) :
    M.Visits s (as ++ [a]) P := by
  obtain ⟨bs, t, hbs, hr, hP⟩ := h
  exact ⟨bs, t, hbs.trans (List.prefix_append as [a]), hr, hP⟩

/-- The last state of a run lies on it. -/
theorem Run.visits {s t : σ} {as : List α} {P : σ → Prop} (h : M.Run C s as t) (hP : P t) :
    M.Visits s as P :=
  ⟨as, t, List.prefix_rfl, h.runFrom_eq, hP⟩

/-- **The rule of causes.** What does not hold at the start, and comes to hold only by a step from a
state with the property `P`, holds only after a state with `P`. -/
theorem Run.visits_of {I Q P : σ → Prop} {s t : σ} {as : List α} (h : M.Run C s as t) (h0 : I s)
    (hI : ∀ s a s', I s → C s a → M.step s a = some s' → I s') (hQ : ¬ Q s)
    (hstep : ∀ s a s', I s → C s a → M.step s a = some s' → Q s' → Q s ∨ P s) (ht : Q t) :
    M.Visits s as P := by
  induction h with
  | nil => exact absurd ht hQ
  | snoc a hr hC hs ih =>
    rcases hstep _ a _ (hr.invariant h0 hI) hC hs ht with hu | hP
    · exact (ih hu).snoc a
    · exact (hr.visits hP).snoc a

/-- **The rule of simulation.** Where a relation lets each step of a machine be answered by a run of
another, with the same observations, it lets each run be answered so. -/
theorem Run.simulates {τ β : Type*} {N : Machine τ β} {C' : τ → β → Prop} {obs : σ → α → Option ε}
    {obs' : τ → β → Option ε} {R : σ → τ → Prop} {s t : σ} {s' : τ} {as : List α}
    (h : M.Run C s as t) (h0 : R s s')
    (hstep : ∀ u a v u', R u u' → C u a → M.step u a = some v → ∃ bs v', N.Run C' u' bs v' ∧
      N.events obs' u' bs = (obs u a).toList ∧ R v v') :
    ∃ bs t', N.Run C' s' bs t' ∧ N.events obs' s' bs = M.events obs s as ∧ R t t' := by
  induction h with
  | nil => exact ⟨[], s', .nil, rfl, h0⟩
  | snoc a hr hC hs ih =>
    obtain ⟨bs, u', hbs, hobs, hR⟩ := ih
    obtain ⟨cs, v', hcs, hobs', hR'⟩ := hstep _ a _ u' hR hC hs
    refine ⟨bs ++ cs, v', hbs.trans hcs, ?_, hR'⟩
    rw [events_append obs' hbs.runFrom_eq, hobs, hobs', hr.events_snoc obs hs]

/-- A run of a machine is one of another that takes its steps, with the same observations. -/
theorem Run.copied {N : Machine σ α} {obs : σ → α → Option ε} {I : σ → Prop} {s t : σ} {as : List α}
    (h : M.Run C s as t) (h0 : I s)
    (hstep : ∀ u a v, I u → C u a → M.step u a = some v → N.step u a = some v ∧ I v) :
    N.Run C s as t ∧ N.events obs s as = M.events obs s as := by
  suffices hI : (N.Run C s as t ∧ N.events obs s as = M.events obs s as) ∧ I t from hI.1
  induction h with
  | nil => exact ⟨⟨.nil, rfl⟩, h0⟩
  | snoc a hr hC hs ih =>
    obtain ⟨⟨hr', hobs⟩, hu⟩ := ih
    obtain ⟨hs', hv⟩ := hstep _ a _ hu hC hs
    refine ⟨⟨.snoc a hr' hC hs', ?_⟩, hv⟩
    rw [hr'.events_snoc obs hs', hr.events_snoc obs hs, hobs]

end Machine

end LinuxTraining.Lib
