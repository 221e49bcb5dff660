import LinuxTraining.Lib.Machine
import Mathlib.Data.List.Count
import Mathlib.Data.List.Perm.Basic

/-!
# Linearizability through the canonical atomic object

An object `Obj` says what one call does to an abstract state when it runs alone. The canonical
atomic object is the automaton in which a call is invoked, takes effect in one instant
(`Trace.apply`) and then returns the result it got there. A history is linearizable when it is a
history of that automaton (`Obj.Trace`); the order of the instants is the log. `Trace.legal` and
`Trace.completed_perm` read a sequential explanation off a trace, and `Machine.Run.trace` is the
proof rule: it is enough that every step of a machine is, at the level of the abstract state and of
the phase each process is in, one move of the automaton or none.
-/

namespace LinuxTraining.Lib

/-- What a client sees: the invocation of a call and its return. -/
inductive CallEvent (ι Op Res : Type*)
  | call (p : ι) (op : Op)
  | ret (p : ι) (r : Res)
  deriving DecidableEq

/-- The sequential meaning of a set of calls: `step q op r q'` says that `op`, run alone in `q`,
may return `r` and leave `q'`. -/
structure Obj (St Op Res : Type*) where
  init : St
  step : St → Op → Res → St → Prop

/-- Where a process is in its call: outside, invoked, or past the instant when it took effect. -/
inductive Phase (Op Res : Type*)
  | idle
  | pending (op : Op)
  | done (op : Op) (r : Res)
  deriving DecidableEq

/-- A state of the canonical atomic object. -/
structure Atomic (ι St Op Res : Type*) where
  st : St
  phase : ι → Phase Op Res
  log : List (ι × Op × Res)

namespace Obj

variable {ι St Op Res : Type*} [DecidableEq ι] (O : Obj St Op Res)

/-- The histories of the canonical atomic object, with the state each one ends in. -/
inductive Trace : List (CallEvent ι Op Res) → Atomic ι St Op Res → Prop
  | init : Trace [] ⟨O.init, fun _ => .idle, []⟩
  | call {h : List (CallEvent ι Op Res)} {c : Atomic ι St Op Res} (p : ι) (op : Op) :
      Trace h c → c.phase p = .idle →
      Trace (h ++ [.call p op]) { c with phase := Function.update c.phase p (.pending op) }
  | apply {h : List (CallEvent ι Op Res)} {c : Atomic ι St Op Res} {p : ι} {op : Op} {r : Res}
      {q : St} : Trace h c → c.phase p = .pending op → O.step c.st op r q →
      Trace h ⟨q, Function.update c.phase p (.done op r), c.log ++ [(p, op, r)]⟩
  | ret {h : List (CallEvent ι Op Res)} {c : Atomic ι St Op Res} {p : ι} {op : Op} {r : Res} :
      Trace h c → c.phase p = .done op r →
      Trace (h ++ [.ret p r]) { c with phase := Function.update c.phase p .idle }

/-- One move of the canonical object, or none, with what a client sees of it. -/
inductive Move (q : St) (ph : ι → Phase Op Res) :
    Option (CallEvent ι Op Res) → St → (ι → Phase Op Res) → Prop
  | silent : Move q ph none q ph
  | call (p : ι) (op : Op) : ph p = .idle →
      Move q ph (some (.call p op)) q (Function.update ph p (.pending op))
  | apply (p : ι) (op : Op) (r : Res) (q' : St) : ph p = .pending op → O.step q op r q' →
      Move q ph none q' (Function.update ph p (.done op r))
  | ret (p : ι) (op : Op) (r : Res) : ph p = .done op r →
      Move q ph (some (.ret p r)) q (Function.update ph p .idle)

/-- Running the calls of a log one after the other, each with the result noted for it. -/
def Legal : St → List (ι × Op × Res) → St → Prop
  | q, [], q' => q' = q
  | q, (_, op, r) :: log, q' => ∃ q₁, O.step q op r q₁ ∧ Legal q₁ log q'

variable {O}

omit [DecidableEq ι] in
/-- A sequential run extended by one call. -/
theorem Legal.snoc {q q₁ q₂ : St} {log : List (ι × Op × Res)} {p : ι} {op : Op} {r : Res}
    (h : O.Legal q log q₁) (hs : O.step q₁ op r q₂) : O.Legal q (log ++ [(p, op, r)]) q₂ := by
  induction log generalizing q with
  | nil => cases h; exact ⟨q₂, hs, rfl⟩
  | cons e log ih =>
    obtain ⟨q', h1, h2⟩ := h
    exact ⟨q', h1, ih h2⟩

/-- The log of a trace is a sequential run from the initial state to the present one. -/
theorem Trace.legal {h : List (CallEvent ι Op Res)} {c : Atomic ι St Op Res} (ht : O.Trace h c) :
    O.Legal O.init c.log c.st := by
  induction ht with
  | init => rfl
  | call _ _ _ _ ih | ret _ _ ih => exact ih
  | apply _ _ hs ih => exact ih.snoc hs

/-- A move of the automaton extends a trace by what the client sees of it. -/
theorem Trace.move {h : List (CallEvent ι Op Res)} {q q' : St} {ph ph' : ι → Phase Op Res}
    {log : List (ι × Op × Res)} {e : Option (CallEvent ι Op Res)} (ht : O.Trace h ⟨q, ph, log⟩)
    (hm : O.Move q ph e q' ph') : ∃ log', O.Trace (h ++ e.toList) ⟨q', ph', log'⟩ := by
  cases hm with
  | silent => exact ⟨log, by simpa using ht⟩
  | call p op hp => exact ⟨log, ht.call p op hp⟩
  | apply p op r q' hp hs => exact ⟨_, by simpa using ht.apply hp hs⟩
  | ret p op r hp => exact ⟨log, ht.ret hp⟩

end Obj

/-! ## The calls a history completes -/

section
variable {ι St Op Res : Type*} [DecidableEq ι]

/-- One event of a history: the open call of each process, and the calls completed so far. -/
def completedStep (acc : (ι → Option Op) × List (ι × Op × Res)) :
    CallEvent ι Op Res → (ι → Option Op) × List (ι × Op × Res)
  | .call p op => (Function.update acc.1 p (some op), acc.2)
  | .ret p r =>
    match acc.1 p with
    | some op => (acc.1, acc.2 ++ [(p, op, r)])
    | none => acc

/-- The calls of a history that returned, with their results, in the order of the returns. -/
def completed (h : List (CallEvent ι Op Res)) : List (ι × Op × Res) :=
  (h.foldl completedStep (fun _ => none, [])).2

/-- What the log holds of a process: its completed calls in their order, and its present call when
that has taken effect. -/
def Phase.tail (p : ι) : Phase Op Res → List (ι × Op × Res)
  | .done op r => [(p, op, r)]
  | _ => []

/-- The open call of a process whose phase is not idle. -/
def Phase.op : Phase Op Res → Option Op
  | .idle => none
  | .pending op => some op
  | .done op _ => some op

/-- The log of a trace holds, for each process, its completed calls in program order and the one
that has taken effect without having returned. -/
theorem Obj.Trace.log_filter {O : Obj St Op Res} {h : List (CallEvent ι Op Res)}
    {c : Atomic ι St Op Res} (ht : O.Trace h c) :
    (∀ p op, (c.phase p).op = some op → (h.foldl completedStep (fun _ => none, [])).1 p = some op) ∧
    ∀ p, c.log.filter (·.1 = p) = (completed h).filter (·.1 = p) ++ (c.phase p).tail p := by
  unfold completed
  induction ht with
  | init => exact ⟨fun p op h => by simp [Phase.op] at h, fun p => rfl⟩
  | @call h c q op _ hq ih =>
    simp only [List.foldl_append, List.foldl_cons, List.foldl_nil, completedStep]
    refine ⟨fun p op' hp => ?_, fun p => ?_⟩
    · by_cases hpq : p = q
      · subst hpq
        simpa [Phase.op] using hp
      · rw [Function.update_of_ne hpq] at hp ⊢
        exact ih.1 p op' hp
    · rw [ih.2 p]
      by_cases hpq : p = q
      · subst hpq
        simp [hq, Phase.tail]
      · rw [Function.update_of_ne hpq]
  | @apply h c q op r q' _ hq _ ih =>
    refine ⟨fun p op' hp => ?_, fun p => ?_⟩
    · by_cases hpq : p = q
      · subst hpq
        refine ih.1 p op' ?_
        simpa [Phase.op, hq] using hp
      · simp only [Function.update_of_ne hpq] at hp
        exact ih.1 p op' hp
    · rw [List.filter_append, ih.2 p]
      by_cases hpq : p = q
      · subst hpq
        simp [hq, Phase.tail]
      · simp [Function.update_of_ne hpq, Ne.symm hpq]
  | @ret h c q op r _ hq ih =>
    simp only [List.foldl_append, List.foldl_cons, List.foldl_nil, completedStep,
      ih.1 q op (by simp [hq, Phase.op])]
    refine ⟨fun p op' hp => ?_, fun p => ?_⟩
    · by_cases hpq : p = q
      · subst hpq
        simp [Phase.op] at hp
      · simp only [Function.update_of_ne hpq] at hp
        exact ih.1 p op' hp
    · rw [ih.2 p, List.filter_append]
      by_cases hpq : p = q
      · subst hpq
        simp [hq, Phase.tail]
      · simp [Function.update_of_ne hpq, Ne.symm hpq]

/-- What is open and what the log holds has been called. -/
theorem Obj.Trace.called {O : Obj St Op Res} {h : List (CallEvent ι Op Res)}
    {c : Atomic ι St Op Res} (ht : O.Trace h c) :
    (∀ p op, (c.phase p).op = some op → .call p op ∈ h) ∧
      ∀ e ∈ c.log, .call e.1 e.2.1 ∈ h := by
  have hopens : ∀ {h : List (CallEvent ι Op Res)} {ph : ι → Phase Op Res} (q : ι)
      (x : Phase Op Res),
      (∀ op, x.op = some op → .call q op ∈ h) → (∀ p op, (ph p).op = some op → .call p op ∈ h) →
      ∀ p op, (Function.update ph q x p).op = some op → .call p op ∈ h := by
    intro h ph q x hx hold
    exact (Function.forall_update_iff ph fun p (y : Phase Op Res) =>
      ∀ op, y.op = some op → .call p op ∈ h).2 ⟨hx, fun p _ => hold p⟩
  induction ht with
  | init => exact ⟨fun p op h => by simp [Phase.op] at h, fun e he => absurd he List.not_mem_nil⟩
  | @call h c q op _ _ ih =>
    refine ⟨hopens q _ ?_ fun p op hp => List.mem_append_left _ (ih.1 p op hp), fun e he =>
      List.mem_append_left _ (ih.2 e he)⟩
    rintro _ ⟨⟩
    exact List.mem_append_right _ (List.mem_singleton_self _)
  | @apply h c q op r q' _ hq _ ih =>
    have hopen : .call q op ∈ h := ih.1 q op (by rw [hq]; rfl)
    refine ⟨hopens q _ ?_ ih.1, fun e he => ?_⟩
    · rintro _ ⟨⟩
      exact hopen
    · rcases List.mem_append.1 he with he | he
      · exact ih.2 e he
      · rw [List.mem_singleton.1 he]
        exact hopen
  | @ret h c q op r _ _ ih =>
    refine ⟨hopens q _ ?_ fun p op hp => List.mem_append_left _ (ih.1 p op hp), fun e he =>
      List.mem_append_left _ (ih.2 e he)⟩
    rintro _ ⟨⟩

/-- What only the calls of one process contribute to is read off that process's calls. -/
theorem flatMap_eq_of_filter {β : Type*} {f : ι × Op × Res → List β} {l m : List (ι × Op × Res)}
    (p : ι) (hl : ∀ e ∈ l, e.1 ≠ p → f e = []) (hm : ∀ e ∈ m, e.1 ≠ p → f e = [])
    (h : l.filter (·.1 = p) = m.filter (·.1 = p)) : l.flatMap f = m.flatMap f := by
  have key : ∀ l : List (ι × Op × Res), (∀ e ∈ l, e.1 ≠ p → f e = []) →
      (l.filter (·.1 = p)).flatMap f = l.flatMap f := by
    intro l hl
    induction l with
    | nil => rfl
    | cons e l ih =>
      have hrest := ih fun d hd => hl d (.tail _ hd)
      by_cases hp : e.1 = p
      · rw [List.filter_cons_of_pos (by simpa using hp), List.flatMap_cons, List.flatMap_cons,
          hrest]
      · rw [List.filter_cons_of_neg (by simpa using hp), List.flatMap_cons, hl e (.head _) hp,
          List.nil_append, hrest]
  rw [← key l hl, h, key m hm]

/-- **Sequential explanation.** When no call is open, the log is a reordering of the completed
calls, so some sequential order of them gives every call its result and ends in the present
state. -/
theorem Obj.Trace.completed_perm {O : Obj St Op Res} {h : List (CallEvent ι Op Res)}
    {c : Atomic ι St Op Res} (ht : O.Trace h c) (hidle : ∀ p, c.phase p = .idle) :
    c.log.Perm (completed h) := by
  classical
  refine List.perm_iff_count.2 fun x => ?_
  have hcount : ∀ l : List (ι × Op × Res), l.count x = (l.filter (·.1 = x.1)).count x := fun l =>
    (List.count_filter (by simp)).symm
  rw [hcount, hcount (completed h), ht.log_filter.2 x.1, hidle x.1]
  simp [Phase.tail]

end

/-! ## The proof rule -/

namespace Machine

variable {σ α ι St Op Res : Type*} [DecidableEq ι] {M : Machine σ α} {C : σ → α → Prop}

/-- **The linearization rule.** If a relation `R` to the abstract state holds initially, and each
guarded step of the machine is one move of the canonical object at the abstract state and at the
phases `ph` of the processes, then every guarded run is a trace of the canonical object. -/
theorem Run.trace {O : Obj St Op Res} {obs : σ → α → Option (CallEvent ι Op Res)}
    (ph : σ → ι → Phase Op Res) (R : σ → St → Prop) {s₀ s : σ} {as : List α}
    (h0 : R s₀ O.init) (hidle : ∀ p, ph s₀ p = .idle)
    (hstep : ∀ s a s' q, R s q → C s a → M.step s a = some s' →
      ∃ q', R s' q' ∧ O.Move q (ph s) (obs s a) q' (ph s'))
    (hr : M.Run C s₀ as s) :
    ∃ q log, R s q ∧ O.Trace (M.events obs s₀ as) ⟨q, ph s, log⟩ := by
  induction hr with
  | nil =>
    rw [funext hidle]
    exact ⟨O.init, [], h0, .init⟩
  | @snoc as t u a hr hC hs ih =>
    obtain ⟨q, log, hR, ht⟩ := ih
    obtain ⟨q', hR', hm⟩ := hstep t a u q hR hC hs
    obtain ⟨log', ht'⟩ := ht.move hm
    rw [hr.events_snoc obs hs]
    exact ⟨q', log', hR', ht'⟩

end Machine

end LinuxTraining.Lib
