import LinuxTraining.Lib.Machine

/-!
# Publication and initialisation

A component is set up by a program that acquires what it needs, publishes the component and
initialises its objects, in some order, while callers come as soon as it is published. An operation
uses objects at its steps. If calls start only when nothing is left to initialise, no operation uses
an object before it is initialised, and none is initialised when it is in use
(`usable_of_callsLate`); a program that publishes last makes calls start late by itself
(`callsLate_of_last`).
-/

namespace LinuxTraining.Lib.Publish

/-- An instruction of a set-up program: it acquires something; it publishes the component, where
`fatal` says whether a failure ends the program; it initialises an object. -/
inductive Instr (ο : Type)
  | acquire
  | publish (fatal : Bool)
  | init (o : ο)

/-- The operations of a component: their steps, the labels at which a call starts, the objects that
a step uses, and what the initialisation of an object does to the state. -/
structure Ops (σ α ο : Type) where
  start : σ
  step : σ → α → Option σ
  isCall : α → Bool
  uses : σ → α → List ο
  reset : ο → σ → σ

/-- The component while it is set up: what is left of the program, the state of the operations,
whether it is published, how often it has been opened, the objects that are initialised and those
that operations have used. -/
structure Setup (σ ο : Type) where
  todo : List (Instr ο)
  dev : σ
  published : Bool
  opens : Nat
  ready : List ο
  used : List ο

/-- The next instruction succeeds or fails; the component is opened; a step of an operation. -/
inductive Act (α : Type)
  | setup (ok : Bool)
  | openFile
  | op (a : α)

variable {σ α ο : Type}

section
variable (O : Ops σ α ο)

/-- One instruction of the program. -/
def Setup.instr (s : Setup σ ο) (ok : Bool) : Option (Setup σ ο) :=
  match s.todo with
  | [] => none
  | .acquire :: rest => some { s with todo := if ok then rest else [] }
  | .publish fatal :: rest =>
    some { s with published := s.published || ok, todo := if ok || !fatal then rest else [] }
  | .init o :: rest =>
    some { s with todo := rest, ready := o :: s.ready, dev := O.reset o s.dev }

/-- One step. A call needs an open file. -/
def Setup.step (s : Setup σ ο) : Act α → Option (Setup σ ο)
  | .setup ok => s.instr O ok
  | .openFile => if s.published then some { s with opens := s.opens + 1 } else none
  | .op a =>
    if O.isCall a && s.opens == 0 then none
    else (O.step s.dev a).map fun d => { s with dev := d, used := O.uses s.dev a ++ s.used }

/-- The component with the set-up program `prog`. -/
def machine (prog : List (Instr ο)) : Machine (Setup σ ο) (Act α) where
  init s := s = ⟨prog, O.start, false, 0, [], []⟩
  step := Setup.step O

/-- A step of an operation uses objects that are initialised, and no object is initialised that an
operation has used. -/
structure Usable (s : Setup σ ο) (a : Act α) : Prop where
  ready : ∀ b, a = .op b → ∀ o ∈ O.uses s.dev b, o ∈ s.ready
  once : ∀ ok o rest, a = .setup ok → s.todo = .init o :: rest → o ∉ s.used

/-- The condition on a step: a call starts when nothing is left to initialise. -/
def CallsLate (s : Setup σ ο) : Act α → Prop
  | .op a => O.isCall a = true → ∀ o, .init o ∉ s.todo
  | _ => True

/-- What the operations have to do with calls and objects: in a quiet state no call is under way,
and a step uses an object only within a call. -/
structure Ops.Lawful (Quiet : σ → Prop) (objects : ο → Prop) : Prop where
  start : Quiet O.start
  reset : ∀ s o, Quiet s → Quiet (O.reset o s)
  stays : ∀ s a s', Quiet s → O.isCall a = false → O.step s a = some s' → Quiet s'
  silent : ∀ s a s', Quiet s → O.step s a = some s' → O.uses s a = []
  objects : ∀ s a, ∀ o ∈ O.uses s a, objects o

end

/-- The rest of the program after the publication. -/
def Follows (todo post : List (Instr ο)) : Prop := ∃ pre fatal, todo = pre ++ .publish fatal :: post

/-- Only initialisations follow the publication. -/
def Ordered (prog : List (Instr ο)) : Prop :=
  ∀ post, Follows prog post → ∀ i ∈ post, ∃ o, i = .init o

theorem Follows.tail {i : Instr ο} {todo post : List (Instr ο)} (h : Follows todo post) :
    Follows (i :: todo) post := by
  obtain ⟨pre, fatal, rfl⟩ := h
  exact ⟨i :: pre, fatal, rfl⟩

theorem Follows.head (fatal : Bool) (post : List (Instr ο)) :
    Follows (.publish fatal :: post) post := ⟨[], fatal, rfl⟩

@[simp] theorem not_follows_nil (post : List (Instr ο)) : ¬ Follows [] post := by
  rintro ⟨pre, fatal, h⟩
  simp at h

@[simp] theorem follows_cons {i : Instr ο} {todo post : List (Instr ο)} :
    Follows (i :: todo) post ↔ (∃ fatal, i = .publish fatal ∧ todo = post) ∨ Follows todo post := by
  constructor
  · rintro ⟨pre, fatal, h⟩
    cases pre with
    | nil =>
      obtain ⟨rfl, rfl⟩ := List.cons.inj h
      exact .inl ⟨fatal, rfl, rfl⟩
    | cons j pre =>
      obtain ⟨rfl, rfl⟩ := List.cons.inj h
      exact .inr ⟨pre, fatal, rfl⟩
  · rintro (⟨fatal, rfl, rfl⟩ | h)
    · exact .head fatal _
    · exact h.tail

section
variable {O : Ops σ α ο} {Quiet : σ → Prop} {objects : ο → Prop} {prog : List (Instr ο)}
  {s s' : Setup σ ο} {a : Act α}

/-- The invariant: what has been published has nothing but initialisations to come, each object is
initialised or to come, and while one is to come no call is under way. -/
structure Sound (Quiet : σ → Prop) (objects : ο → Prop) (s : Setup σ ο) : Prop where
  ordered : Ordered s.todo
  after : s.published = true → ∀ i ∈ s.todo, ∃ o, i = .init o
  object : ∀ o, objects o → o ∈ s.ready ∨ .init o ∈ s.todo ∨ s.published = false ∧ s.todo = []
  opens : s.opens = 0 ∨ s.published = true
  quiet : (∃ o, .init o ∈ s.todo) ∨ s.published = false → Quiet s.dev ∧ s.used = []

/-- A program that ends early has not published. -/
theorem Sound.stop (h : Sound Quiet objects s) (hp : s.published = false) :
    Sound Quiet objects { s with todo := [] } where
  ordered post hpost := absurd hpost (not_follows_nil post)
  after hpub := absurd (hp.symm.trans hpub) (by simp)
  object _ _ := .inr (.inr ⟨hp, rfl⟩)
  opens := h.opens
  quiet _ := h.quiet (.inr hp)

/-- An instruction that has nothing to initialise is passed. -/
theorem Sound.pass (h : Sound Quiet objects s) {i : Instr ο} {rest : List (Instr ο)}
    (htodo : s.todo = i :: rest) (hi : ∀ o, i ≠ .init o) (hp : s.published = false) {b : Bool}
    (hb : b = true → ∃ fatal, i = .publish fatal) :
    Sound Quiet objects { s with todo := rest, published := b } := by
  have hordered := h.ordered
  rw [htodo] at hordered
  refine ⟨fun post hpost => hordered post hpost.tail, ?_, ?_, ?_, fun _ => h.quiet (.inr hp)⟩
  · intro hpub
    obtain ⟨fatal, rfl⟩ := hb hpub
    exact hordered rest (.head fatal rest)
  · intro o ho
    rcases h.object o ho with hr | hmem | ⟨-, hnil⟩
    · exact .inl hr
    · rw [htodo, List.mem_cons] at hmem
      exact .inr (.inl (hmem.resolve_left (hi o).symm))
    · rw [htodo] at hnil
      cases hnil
  · exact h.opens.imp_right fun hpub => absurd (hp.symm.trans hpub) (by simp)

/-- One instruction of the program. -/
theorem Sound.instr (hO : O.Lawful Quiet objects) (h : Sound Quiet objects s) {ok : Bool}
    (hs : s.instr O ok = some s') : Sound Quiet objects s' := by
  unfold Setup.instr at hs
  split at hs
  · cases hs
  · next rest htodo =>
    have hp : s.published = false := by
      by_contra hpub
      obtain ⟨o, ho⟩ := h.after (by simpa using hpub) .acquire (by simp [htodo])
      cases ho
    cases hs
    cases ok with
    | true => exact h.pass htodo (by simp) hp (by simp [hp])
    | false => exact h.stop hp
  · next fatal rest htodo =>
    have hp : s.published = false := by
      by_contra hpub
      obtain ⟨o, ho⟩ := h.after (by simpa using hpub) (.publish fatal) (by simp [htodo])
      cases ho
    cases hs
    rw [hp]
    cases ok with
    | true => exact h.pass htodo (by simp) hp (by simp)
    | false =>
      cases fatal with
      | true =>
        have hstop := h.stop hp
        rwa [hp] at hstop
      | false => exact h.pass htodo (by simp) hp (by simp)
  · next o rest htodo =>
    cases hs
    obtain ⟨hq, hused⟩ := h.quiet (.inl ⟨o, by simp [htodo]⟩)
    have hordered := h.ordered
    rw [htodo] at hordered
    refine ⟨fun post hpost => hordered post hpost.tail, ?_, ?_, h.opens, fun _ =>
      ⟨hO.reset _ o hq, hused⟩⟩
    · intro hpub i hi
      exact h.after hpub i (by rw [htodo]; exact .tail _ hi)
    · intro o' ho'
      rcases h.object o' ho' with hr | hmem | ⟨-, hnil⟩
      · exact .inl (.tail _ hr)
      · rw [htodo, List.mem_cons] at hmem
        rcases hmem with heq | hmem
        · cases heq
          exact .inl (.head _)
        · exact .inr (.inl hmem)
      · rw [htodo] at hnil
        cases hnil

/-- Each step at which calls start late keeps the invariant. -/
theorem Sound.step (hO : O.Lawful Quiet objects) (h : Sound Quiet objects s)
    (ha : CallsLate O s a) (hs : s.step O a = some s') : Sound Quiet objects s' := by
  cases a with
  | setup ok => exact h.instr hO hs
  | openFile =>
    simp only [Setup.step, Option.ite_none_right_eq_some, Option.some.injEq] at hs
    obtain ⟨hpub, rfl⟩ := hs
    exact ⟨h.ordered, h.after, h.object, .inr hpub, h.quiet⟩
  | op a =>
    simp only [Setup.step, Option.ite_none_left_eq_some] at hs
    obtain ⟨hopen, hs⟩ := hs
    obtain ⟨d, hd, rfl⟩ := Option.map_eq_some_iff.1 hs
    refine ⟨h.ordered, h.after, h.object, h.opens, ?_⟩
    intro hleft
    obtain ⟨hq, hused⟩ := h.quiet hleft
    cases hcall : O.isCall a with
    | false => exact ⟨hO.stays _ a d hq hcall hd, by simp [hO.silent _ a d hq hd, hused]⟩
    | true =>
      have hpub : s.published = true := h.opens.resolve_left (by simpa [hcall] using hopen)
      rcases hleft with ⟨o, ho⟩ | hp
      · exact absurd ho (ha hcall o)
      · cases hp.symm.trans hpub

theorem Sound.init (hO : O.Lawful Quiet objects) (hprog : Ordered prog)
    (hobjects : ∀ o, objects o → .init o ∈ prog) :
    Sound Quiet objects ⟨prog, O.start, false, 0, [], []⟩ where
  ordered := hprog
  after h := absurd h (by simp)
  object o ho := .inr (.inl (hobjects o ho))
  opens := .inl rfl
  quiet _ := ⟨hO.start, rfl⟩

/-- In a state with the invariant every step finds what it uses initialised. -/
theorem Sound.usable (hO : O.Lawful Quiet objects) (h : Sound Quiet objects s)
    (hs : s.step O a = some s') : Usable O s a := by
  refine ⟨?_, ?_⟩
  · rintro b rfl o ho
    simp only [Setup.step, Option.ite_none_left_eq_some] at hs
    obtain ⟨d, hd, -⟩ := Option.map_eq_some_iff.1 hs.2
    have hbusy : ¬ ((∃ o, .init o ∈ s.todo) ∨ s.published = false) := by
      intro hleft
      rw [hO.silent _ b d (h.quiet hleft).1 hd] at ho
      cases ho
    rw [not_or] at hbusy
    rcases h.object o (hO.objects _ b o ho) with hr | hmem | ⟨hp, -⟩
    · exact hr
    · exact absurd ⟨o, hmem⟩ hbusy.1
    · exact absurd hp hbusy.2
  · rintro ok o rest rfl htodo
    rw [(h.quiet (.inl ⟨o, by simp [htodo]⟩)).2]
    exact List.not_mem_nil

/-- **Calls that start late find everything initialised.** -/
theorem usable_of_callsLate (hO : O.Lawful Quiet objects) (hprog : Ordered prog)
    (hobjects : ∀ o, objects o → .init o ∈ prog)
    (h : (machine O prog).Reach (CallsLate O) s) (hs : s.step O a = some s') : Usable O s a := by
  have hsound : Sound Quiet objects s := by
    refine h.invariant ?_ fun _ _ _ hI ha hs => hI.step hO ha hs
    rintro s rfl
    exact .init hO hprog hobjects
  exact hsound.usable hO hs

/-! ## Programs that publish last -/

/-- Nothing follows the publication. -/
def PublishesLast (prog : List (Instr ο)) : Prop := ∀ post, Follows prog post → post = []

/-- What is published has been set up, and what is open has been published. -/
structure Complete (s : Setup σ ο) : Prop where
  last : PublishesLast s.todo
  done : s.published = true → s.todo = []
  opens : s.opens = 0 ∨ s.published = true

theorem Complete.instr (h : Complete s) {ok : Bool} (hs : s.instr O ok = some s') :
    Complete s' := by
  obtain ⟨hlast, hdone, hopens⟩ := h
  unfold Setup.instr at hs
  split at hs
  · cases hs
  · next rest htodo =>
    rw [htodo] at hlast hdone
    cases hs
    refine ⟨?_, fun hp => absurd (hdone hp) (by simp), hopens⟩
    cases ok with
    | true => exact fun post hpost => hlast post hpost.tail
    | false => exact fun post hpost => absurd hpost (not_follows_nil post)
  · next fatal rest htodo =>
    rw [htodo] at hlast hdone
    obtain rfl := hlast rest (.head fatal rest)
    cases hs
    refine ⟨?_, fun _ => ite_self _, hopens.imp_right fun hp => by simp [hp]⟩
    show PublishesLast (if _ then [] else [])
    rw [ite_self]
    exact fun post hpost => absurd hpost (not_follows_nil post)
  · next o rest htodo =>
    rw [htodo] at hlast hdone
    cases hs
    exact ⟨fun post hpost => hlast post hpost.tail, fun hp => absurd (hdone hp) (by simp), hopens⟩

theorem Complete.step (h : Complete s) (hs : s.step O a = some s') : Complete s' := by
  cases a with
  | setup ok => exact h.instr hs
  | openFile =>
    simp only [Setup.step, Option.ite_none_right_eq_some, Option.some.injEq] at hs
    obtain ⟨hpub, rfl⟩ := hs
    exact ⟨h.last, h.done, .inr hpub⟩
  | op a =>
    simp only [Setup.step, Option.ite_none_left_eq_some] at hs
    obtain ⟨d, -, rfl⟩ := Option.map_eq_some_iff.1 hs.2
    exact ⟨h.last, h.done, h.opens⟩

/-- **A program that publishes last** lets no call start before it is through. -/
theorem callsLate_of_last (hprog : PublishesLast prog)
    (h : (machine O prog).Reach Machine.anyStep s) : (machine O prog).Reach (CallsLate O) s := by
  refine (h.guarded (I := Complete) ?_ (fun _ _ _ hI _ hs => hI.step hs) ?_).1
  · rintro s rfl
    exact ⟨hprog, fun hp => absurd hp (by simp), .inl rfl⟩
  · intro s a s' hI _ hs
    cases a with
    | op a =>
      intro hcall o ho
      replace hs : s.step O (.op a) = some s' := hs
      simp only [Setup.step, Option.ite_none_left_eq_some] at hs
      have hpub : s.published = true := hI.opens.resolve_left (by simpa [hcall] using hs.1)
      rw [hI.done hpub] at ho
      cases ho
    | setup | openFile => trivial

end

end LinuxTraining.Lib.Publish
