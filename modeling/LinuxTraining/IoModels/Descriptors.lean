import LinuxTraining.IoModels.MultiProcess
import Mathlib.Data.Finset.Basic

/-!
# `multi-process-model.c`: descriptors and failures

The server once more, with the descriptors that each process holds, and with every result that
`accept`, `fork` and `read` can have: the parent holds the connection until it has forked, and only
then closes its copy. Without the descriptors this is the server of `MultiProcess`
(`forget_step`). `accounts_iff`: parent and children account for their descriptors in every state
of a run if and only if no call has failed in it.
-/

namespace LinuxTraining.IoModels.Descriptors

open Lib

/-- Where the parent is. -/
inductive ParentPc
  | accept
  | fork
  | close
  deriving DecidableEq

/-- Where a child is: in its service loop, at `close(connfd)`, at `exit(0)`, or gone. -/
inductive ChildPc
  | read
  | write
  | close
  | exit
  | exited
  deriving DecidableEq

/-- A child: its copies of the parent's variables and descriptors, what its calls of `read` have
returned, and the lengths that it has called `write` with. -/
structure Child where
  connfd : Int
  fds : Finset Int
  pc : ChildPc
  buf : Mem Byte
  n : Int
  returned : List Int
  asked : List Int

/-- The parent, with the descriptors it has opened and not closed, and the children, each under the
number of its round of the parent's loop. -/
structure State where
  listenfd : Int
  connfd : Int
  fds : Finset Int
  parent : ParentPc
  buf : Mem Byte
  round : Nat
  child : Nat → Option Child
  received : Nat → List Byte
  sent : Nat → List Byte

/-- One step: a system call of the parent, or of the child of a round, with its result. -/
inductive Act
  | accept (connfd : Int)
  | fork (ok : Bool)
  | close
  | read (c : Nat) (r : ReadResult)
  | write (c : Nat) (k : Nat)
  | closeChild (c : Nat)
  | exit (c : Nat)

/-- The child of a round moved on. -/
def State.setChild (s : State) (c : Nat) (x : Child) : State :=
  { s with child := Function.update s.child c (some x) }

/-- `connfd = accept(listenfd, …)`. -/
def State.accepted (s : State) (connfd : Int) : State :=
  { s with connfd := connfd, parent := .fork
           fds := if connfd < 0 then s.fds else insert connfd s.fds }

/-- The child that `fork` makes. -/
def State.forked (s : State) : Child where
  connfd := s.connfd
  fds := s.fds
  pc := .read
  buf := s.buf
  n := 0
  returned := []
  asked := []

/-- `pid = fork()`: the parent closes its copy if `pid > 0`, and goes on if it is `-1`. -/
def State.fork (s : State) (ok : Bool) : State :=
  if ok then { s.setChild s.round s.forked with parent := .close, round := s.round + 1 }
  else { s with parent := .accept, round := s.round + 1 }

/-- The parent's `close(connfd)`. -/
def State.closed (s : State) : State :=
  { s with fds := s.fds.erase s.connfd, parent := .accept }

/-- The child's `read`, and the loop over `buf`. -/
def Child.fetch (x : Child) (r : ReadResult) : Child :=
  if r.ret = 0 then
    { x with n := r.ret, buf := r.fill x.buf, returned := x.returned ++ [r.ret], pc := .close }
  else
    { x with n := r.ret, buf := upper (r.fill x.buf) r.ret, returned := x.returned ++ [r.ret],
             pc := .write }

/-- The child's `write(connfd, buf, n)`. -/
def Child.reply (x : Child) : Child := { x with asked := x.asked ++ [x.n], pc := .read }

/-- The child's `close(connfd)`. -/
def Child.leave (x : Child) : Child := { x with fds := x.fds.erase x.connfd, pc := .exit }

/-- One step. -/
def step (s : State) : Act → Option State
  | .accept connfd => if s.parent = .accept then some (s.accepted connfd) else none
  | .fork ok => if s.parent = .fork then some (s.fork ok) else none
  | .close => if s.parent = .close then some s.closed else none
  | .read c r =>
    match s.child c with
    | some x =>
      if x.pc = .read then
        some ({ s with
          received := Function.update s.received c (s.received c ++ r.getD []) }.setChild c
            (x.fetch r))
      else none
    | none => none
  | .write c k =>
    match s.child c with
    | some x =>
      if x.pc = .write then
        some ({ s with
          sent := Function.update s.sent c (s.sent c ++ x.buf.slice 0 k) }.setChild c x.reply)
      else none
    | none => none
  | .closeChild c =>
    match s.child c with
    | some x => if x.pc = .close then some (s.setChild c x.leave) else none
    | none => none
  | .exit c =>
    match s.child c with
    | some x =>
      if x.pc = .exit then some (s.setChild c { x with fds := ∅, pc := .exited }) else none
    | none => none

/-- Before the first connection; the buffer holds anything. -/
def State.init (listenfd : Int) (buf : Mem Byte) : State where
  listenfd := listenfd
  connfd := 0
  fds := {listenfd}
  parent := .accept
  buf := buf
  round := 0
  child _ := none
  received _ := []
  sent _ := []

/-- The parent and its children. -/
def machine : Machine State Act where
  init s := ∃ listenfd buf, s = .init listenfd buf
  step := step

/-- What the calls may return: `accept` a descriptor that is not open, or `-1`, and `read` up to
`MAXLINE` bytes, or `-1`. -/
def AnyResult (s : State) : Act → Prop
  | .accept connfd => connfd = -1 ∨ 0 ≤ connfd ∧ connfd ∉ s.fds
  | .read _ r => ∀ data ∈ r, data.length ≤ MAXLINE
  | .fork _ | .close | .write _ _ | .closeChild _ | .exit _ => True

/-- The call has not returned `-1`. -/
def Succeeds : Act → Prop
  | .accept connfd => connfd ≠ -1
  | .fork ok => ok = true
  | .read _ r => r ≠ none
  | .close | .write _ _ | .closeChild _ | .exit _ => True

/-- A child serves until a read returns 0 or `-1`, and then closes its connection; no length that
it calls `write` with is negative. -/
structure Orderly (x : Child) : Prop where
  serves : x.pc = .read ∨ x.pc = .write → ∀ n ∈ x.returned, 0 < n
  leaves : x.pc = .close ∨ x.pc = .exit ∨ x.pc = .exited →
    ∃ ns n, x.returned = ns ++ [n] ∧ n ≤ 0 ∧ ∀ m ∈ ns, 0 < m
  closes : x.pc = .exit ∨ x.pc = .exited → x.connfd ∉ x.fds
  lengths : (x.pc = .write → 0 ≤ x.n) ∧ ∀ n ∈ x.asked, 0 ≤ n

/-- The parent forks for a connection, and holds `listenfd` alone at the top of its loop; the
children are orderly. -/
structure Accounts (s : State) : Prop where
  forks : s.parent = .fork → 0 ≤ s.connfd ∧ s.connfd ∈ s.fds ∧ s.connfd ≠ s.listenfd
  top : s.parent = .accept → s.fds = {s.listenfd}
  children : ∀ c x, s.child c = some x → Orderly x

/-- What the parent holds before and after its `fork`, and a child's `n`. -/
structure Inv (s : State) : Prop extends Accounts s where
  holds : s.parent ≠ .accept → s.connfd ≠ s.listenfd ∧ s.fds = {s.connfd, s.listenfd}

section
variable {s t u : State} {a : Act} {x : Child} {listenfd : Int} {buf : Mem Byte} {as : List Act}
  {c : Nat}

/-- **What a step can be.** -/
theorem step_cases (h : step s a = some t) :
    (∃ connfd, a = .accept connfd ∧ s.parent = .accept ∧ t = s.accepted connfd) ∨
    (∃ ok, a = .fork ok ∧ s.parent = .fork ∧ t = s.fork ok) ∨
    (a = .close ∧ s.parent = .close ∧ t = s.closed) ∨
    (∃ c r x, a = .read c r ∧ s.child c = some x ∧ x.pc = .read ∧
      t = { s with
        received := Function.update s.received c (s.received c ++ r.getD []) }.setChild c
          (x.fetch r)) ∨
    (∃ c k x, a = .write c k ∧ s.child c = some x ∧ x.pc = .write ∧
      t = { s with
        sent := Function.update s.sent c (s.sent c ++ x.buf.slice 0 k) }.setChild c x.reply) ∨
    (∃ c x, a = .closeChild c ∧ s.child c = some x ∧ x.pc = .close ∧ t = s.setChild c x.leave) ∨
    ∃ c x, a = .exit c ∧ s.child c = some x ∧ x.pc = .exit ∧
      t = s.setChild c { x with fds := ∅, pc := .exited } := by
  cases a with
  | accept connfd =>
    obtain ⟨hpc, ht⟩ := Option.ite_none_right_eq_some.1 h
    exact .inl ⟨connfd, rfl, hpc, (Option.some.inj ht).symm⟩
  | fork ok =>
    obtain ⟨hpc, ht⟩ := Option.ite_none_right_eq_some.1 h
    exact .inr (.inl ⟨ok, rfl, hpc, (Option.some.inj ht).symm⟩)
  | close =>
    obtain ⟨hpc, ht⟩ := Option.ite_none_right_eq_some.1 h
    exact .inr (.inr (.inl ⟨rfl, hpc, (Option.some.inj ht).symm⟩))
  | read c r =>
    rw [step] at h
    split at h
    · next x hx =>
      obtain ⟨hpc, ht⟩ := Option.ite_none_right_eq_some.1 h
      exact .inr (.inr (.inr (.inl ⟨c, r, x, rfl, hx, hpc, (Option.some.inj ht).symm⟩)))
    · cases h
  | write c k =>
    rw [step] at h
    split at h
    · next x hx =>
      obtain ⟨hpc, ht⟩ := Option.ite_none_right_eq_some.1 h
      exact .inr (.inr (.inr (.inr (.inl ⟨c, k, x, rfl, hx, hpc, (Option.some.inj ht).symm⟩))))
    · cases h
  | closeChild c =>
    rw [step] at h
    split at h
    · next x hx =>
      obtain ⟨hpc, ht⟩ := Option.ite_none_right_eq_some.1 h
      exact .inr (.inr (.inr (.inr (.inr (.inl ⟨c, x, rfl, hx, hpc, (Option.some.inj ht).symm⟩)))))
    · cases h
  | exit c =>
    rw [step] at h
    split at h
    · next x hx =>
      obtain ⟨hpc, ht⟩ := Option.ite_none_right_eq_some.1 h
      exact .inr (.inr (.inr (.inr (.inr (.inr ⟨c, x, rfl, hx, hpc, (Option.some.inj ht).symm⟩)))))
    · cases h

/-! ## The children -/

theorem orderly_forked (s : State) : Orderly s.forked where
  serves _ _ hn := absurd hn List.not_mem_nil
  leaves h := by rcases h with h | h | h <;> cases h
  closes h := by rcases h with h | h <;> cases h
  lengths := ⟨ChildPc.noConfusion, fun _ hn => absurd hn List.not_mem_nil⟩

/-- A read that has not failed: data is served, and the end is the first one. -/
theorem Orderly.fetch (h : Orderly x) (hpc : x.pc = .read) {r : ReadResult} (hr : r ≠ none) :
    Orderly (x.fetch r) := by
  have hserved := h.serves (.inl hpc)
  obtain ⟨data, rfl⟩ := Option.ne_none_iff_exists'.1 hr
  unfold Child.fetch
  split
  · next hend =>
    refine ⟨fun h => ?_, fun _ => ⟨x.returned, _, rfl, hend.le, hserved⟩, fun h => ?_,
      ChildPc.noConfusion, h.lengths.2⟩
    · rcases h with h | h <;> cases h
    · rcases h with h | h <;> cases h
  · next hdata =>
    have hpos : 0 < ReadResult.ret (some data) :=
      lt_of_le_of_ne (Int.natCast_nonneg data.length) (Ne.symm hdata)
    refine ⟨fun _ n hn => ?_, fun h => ?_, fun h => ?_, fun _ => hpos.le, h.lengths.2⟩
    · rcases List.mem_append.1 hn with hn | hn
      · exact hserved n hn
      · rwa [List.mem_singleton.1 hn]
    · rcases h with h | h | h <;> cases h
    · rcases h with h | h <;> cases h

theorem Orderly.reply (h : Orderly x) (hpc : x.pc = .write) : Orderly x.reply where
  serves _ := h.serves (.inr hpc)
  leaves h := by rcases h with h | h | h <;> cases h
  closes h := by rcases h with h | h <;> cases h
  lengths := by
    refine ⟨ChildPc.noConfusion, fun n hn => ?_⟩
    rcases List.mem_append.1 hn with hn | hn
    · exact h.lengths.2 n hn
    · rw [List.mem_singleton.1 hn]
      exact h.lengths.1 hpc

theorem Orderly.leave (h : Orderly x) (hpc : x.pc = .close) : Orderly x.leave where
  serves h := by rcases h with h | h <;> cases h
  leaves _ := h.leaves (.inl hpc)
  closes _ := Finset.notMem_erase _ _
  lengths := ⟨ChildPc.noConfusion, h.lengths.2⟩

theorem Orderly.exit (h : Orderly x) (hpc : x.pc = .exit) :
    Orderly { x with fds := ∅, pc := .exited } where
  serves h := by rcases h with h | h <;> cases h
  leaves _ := h.leaves (.inr (.inl hpc))
  closes _ := Finset.notMem_empty _
  lengths := ⟨ChildPc.noConfusion, h.lengths.2⟩

/-- A child that reads `-1` stays in its loop. -/
theorem not_orderly_failed (x : Child) : ¬ Orderly (x.fetch none) := by
  intro h
  have hpos := h.serves (.inr rfl) (-1) (List.mem_append_right _ (List.mem_singleton_self _))
  exact absurd hpos (by decide)

/-! ## The parent -/

/-- A child moves on, and the parent does not. -/
theorem Inv.setChild (h : Inv s) (hx : Orderly x) (received sent : Nat → List Byte) :
    Inv ({ s with received := received, sent := sent }.setChild c x) where
  forks := h.forks
  top := h.top
  children d y hy := by
    have hy : Function.update s.child c (some x) d = some y := hy
    rcases eq_or_ne d c with rfl | hne
    · rw [Function.update_self] at hy
      rwa [← Option.some.inj hy]
    · rw [Function.update_of_ne hne] at hy
      exact h.children d y hy
  holds := h.holds

theorem Inv.init (listenfd : Int) (buf : Mem Byte) : Inv (.init listenfd buf) where
  forks := ParentPc.noConfusion
  top _ := rfl
  children _ x hx := absurd hx.symm (Option.some_ne_none x)
  holds h := absurd rfl h

/-- A step in which no call fails. -/
theorem Inv.step (h : Inv s) (henv : AnyResult s a) (hok : Succeeds a)
    (hs : Descriptors.step s a = some t) : Inv t := by
  obtain ⟨connfd, rfl, hpc, rfl⟩ | ⟨ok, rfl, hpc, rfl⟩ | ⟨rfl, hpc, rfl⟩ |
    ⟨c, r, x, rfl, hx, hpc, rfl⟩ | ⟨c, k, x, rfl, hx, hpc, rfl⟩ | ⟨c, x, rfl, hx, hpc, rfl⟩ |
    ⟨c, x, rfl, hx, hpc, rfl⟩ := step_cases hs
  · obtain ⟨h0, hnew⟩ := henv.resolve_left hok
    have hfds : (s.accepted connfd).fds = {connfd, s.listenfd} := by
      show (if connfd < 0 then s.fds else insert connfd s.fds) = _
      rw [if_neg (not_lt.2 h0), h.top hpc]
    have hne : connfd ≠ s.listenfd := by
      rintro rfl
      rw [h.top hpc] at hnew
      exact hnew (Finset.mem_singleton_self _)
    refine ⟨⟨fun _ => ⟨h0, ?_, hne⟩, ParentPc.noConfusion, h.children⟩, fun _ => ⟨hne, hfds⟩⟩
    rw [hfds]
    exact Finset.mem_insert_self ..
  · obtain rfl : ok = true := hok
    have hparent : s.parent ≠ .accept := by
      rw [hpc]
      exact ParentPc.noConfusion
    have hchild := h.setChild (c := s.round) (orderly_forked s) s.received s.sent
    exact ⟨⟨ParentPc.noConfusion, ParentPc.noConfusion, hchild.children⟩, fun _ => h.holds hparent⟩
  · have hparent : s.parent ≠ .accept := by
      rw [hpc]
      exact ParentPc.noConfusion
    obtain ⟨hne, hfds⟩ := h.holds hparent
    refine ⟨⟨ParentPc.noConfusion, fun _ => ?_, h.children⟩, fun hnot => absurd rfl hnot⟩
    show s.fds.erase s.connfd = {s.listenfd}
    rw [hfds, Finset.erase_insert (by rwa [Finset.mem_singleton])]
  · exact h.setChild ((h.children c x hx).fetch hpc hok) _ _
  · exact h.setChild ((h.children c x hx).reply hpc) _ _
  · exact h.setChild ((h.children c x hx).leave hpc) _ _
  · exact h.setChild ((h.children c x hx).exit hpc) _ _

/-- A call that fails leaves a state that is not accounted for. -/
theorem Accounts.succeeds (h : Accounts s) (hs : step s a = some t) (ht : Accounts t) :
    Succeeds a := by
  obtain ⟨connfd, rfl, hpc, rfl⟩ | ⟨ok, rfl, hpc, rfl⟩ | ⟨rfl, hpc, rfl⟩ |
    ⟨c, r, x, rfl, hx, hpc, rfl⟩ | ⟨c, k, x, rfl, hx, hpc, rfl⟩ | ⟨c, x, rfl, hx, hpc, rfl⟩ |
    ⟨c, x, rfl, hx, hpc, rfl⟩ := step_cases hs
  · rintro rfl
    have h0 : (0 : Int) ≤ -1 := (ht.forks rfl).1
    exact absurd h0 (by decide)
  · cases ok with
    | true => rfl
    | false =>
      obtain ⟨-, hmem, hne⟩ := h.forks hpc
      have hfds : s.fds = {s.listenfd} := ht.top rfl
      rw [hfds, Finset.mem_singleton] at hmem
      exact absurd hmem hne
  · trivial
  · rintro rfl
    exact not_orderly_failed x (ht.children c _ (Function.update_self ..))
  · trivial
  · trivial
  · trivial

/-- **Every state of a run is accounted for** if and only if no `accept`, no `fork` and no `read` in
it has failed. -/
theorem accounts_iff (hr : machine.Run AnyResult (.init listenfd buf) as t) :
    (∀ pre u, pre <+: as → machine.runFrom (.init listenfd buf) pre = some u → Accounts u) ↔
      ∀ a ∈ as, Succeeds a := by
  have hrun : ∀ {pre u}, machine.Run AnyResult (.init listenfd buf) pre u →
      machine.runFrom (.init listenfd buf) pre = some u := by
    intro pre u hpre
    have hu : machine.runFrom _ (pre ++ []) = some u := hpre.runFrom_append
    rwa [List.append_nil] at hu
  constructor
  · intro hall a ha
    obtain ⟨pre, post, rfl⟩ := List.append_of_mem ha
    obtain ⟨u, hpre, hrest⟩ := hr.of_append
    obtain ⟨v, henv, hs, -⟩ := hrest.uncons
    have hnext := hrun (.snoc a hpre henv hs)
    refine (hall pre u (List.prefix_append ..) (hrun hpre)).succeeds hs (hall _ v ?_ hnext)
    exact ⟨post, by rw [List.append_assoc]; rfl⟩
  · rintro hok pre u ⟨post, rfl⟩ hu
    obtain ⟨v, hpre, -⟩ := hr.of_append
    obtain rfl := Option.some.inj ((hrun hpre).symm.trans hu)
    have hlabels := hpre.of_labels fun a ha => hok a (List.mem_append_left _ ha)
    exact ((hpre.and hlabels).invariant (I := Inv) (.init listenfd buf)
      fun _ _ _ hI hC hs => hI.step hC.1 hC.2 hs).toAccounts

/-! ## Without the descriptors -/

/-- Where a child is for the server without descriptors: once it has left its loop, it is gone. -/
def ChildPc.forget : ChildPc → MultiProcess.ChildPc
  | .read => .read
  | .write => .write
  | .close | .exit | .exited => .exited

def Child.forget (x : Child) : MultiProcess.Child := ⟨x.pc.forget, x.buf, x.n⟩

/-- The server without descriptors: a connection is named by its round. -/
def State.forget (s : State) : MultiProcess.State where
  parent := if s.parent = .fork then .fork s.round else .accept
  buf := s.buf
  accepted := if s.parent = .fork then s.round + 1 else s.round
  child c := (s.child c).map Child.forget
  received := s.received
  sent := s.sent

/-- A step of the server without descriptors, unless it is about a descriptor alone. -/
def Act.forget : Act → Option MultiProcess.Act
  | .accept _ => some .accept
  | .fork ok => some (.fork ok)
  | .read c r => some (.read c r)
  | .write c k => some (.write c k)
  | .close | .closeChild _ | .exit _ => none

theorem forget_child (h : s.child c = some x) : s.forget.child c = some x.forget :=
  congrArg (Option.map Child.forget) h

/-- A child that moves on. -/
theorem forget_setChild (s : State) (c : Nat) (x : Child) :
    (s.setChild c x).forget = s.forget.setChild c x.forget := by
  have hchild : (fun d => (Function.update s.child c (some x) d).map Child.forget) =
      Function.update (fun d => (s.child d).map Child.forget) c (some x.forget) := by
    funext d
    rcases eq_or_ne d c with rfl | hne
    · rw [Function.update_self, Function.update_self]
      rfl
    · rw [Function.update_of_ne hne, Function.update_of_ne hne]
  unfold State.forget MultiProcess.State.setChild
  rw [← hchild]
  rfl

/-- A child that does not move for the server without descriptors. -/
theorem forget_setChild_of_eq {y : Child} (h : s.child c = some x) (hxy : y.forget = x.forget) :
    (s.setChild c y).forget = s.forget := by
  rw [forget_setChild, hxy, MultiProcess.State.setChild, ← forget_child h,
    Function.update_eq_self]

theorem forget_fetch (x : Child) (r : ReadResult) : (x.fetch r).forget = x.forget.fetch r := by
  unfold Child.fetch MultiProcess.Child.fetch
  split <;> rfl

/-- **Forgetting the descriptors**, each step is a step of the server without them, or none. -/
theorem forget_step (hs : step s a = some t) :
    (∃ b, a.forget = some b ∧ MultiProcess.step s.forget b = some t.forget) ∨
      a.forget = none ∧ t.forget = s.forget := by
  obtain ⟨connfd, rfl, hpc, rfl⟩ | ⟨ok, rfl, hpc, rfl⟩ | ⟨rfl, hpc, rfl⟩ |
    ⟨c, r, x, rfl, hx, hpc, rfl⟩ | ⟨c, k, x, rfl, hx, hpc, rfl⟩ | ⟨c, x, rfl, hx, hpc, rfl⟩ |
    ⟨c, x, rfl, hx, hpc, rfl⟩ := step_cases hs
  · refine .inl ⟨_, rfl, ?_⟩
    simp [MultiProcess.step, State.forget, State.accepted, hpc]
  · refine .inl ⟨_, rfl, ?_⟩
    cases ok with
    | false => simp [MultiProcess.step, State.forget, State.fork, hpc]
    | true =>
      have hparent : s.forget.parent = .fork s.round := if_pos hpc
      have hchild := congrArg MultiProcess.State.child (forget_setChild s s.round s.forked)
      simp only [MultiProcess.step, hparent, if_true]
      simp only [State.forget, State.fork, MultiProcess.State.setChild, State.setChild, hpc,
        if_true, reduceCtorEq, if_false, Option.some.injEq, MultiProcess.State.mk.injEq, true_and,
        and_true]
      exact hchild.symm
  · refine .inr ⟨rfl, ?_⟩
    simp [State.forget, State.closed, hpc]
  · refine .inl ⟨_, rfl, ?_⟩
    have hread : x.forget.pc = .read := by rw [Child.forget, hpc, ChildPc.forget]
    rw [forget_setChild, forget_fetch]
    simp only [MultiProcess.step, forget_child hx, hread]
    rfl
  · refine .inl ⟨_, rfl, ?_⟩
    have hwrite : x.forget.pc = .write := by rw [Child.forget, hpc, ChildPc.forget]
    rw [forget_setChild]
    simp only [MultiProcess.step, forget_child hx, hwrite]
    rfl
  · refine .inr ⟨rfl, forget_setChild_of_eq hx ?_⟩
    simp [Child.forget, Child.leave, hpc, ChildPc.forget]
  · refine .inr ⟨rfl, forget_setChild_of_eq hx ?_⟩
    simp [Child.forget, hpc, ChildPc.forget]

/-- **Each run is a run of the server without descriptors.** -/
theorem forget_run {C : State → Act → Prop}
    (hC : ∀ s a b, C s a → a.forget = some b → MultiProcess.Env s.forget b)
    (hr : machine.Run C s as t) :
    MultiProcess.machine.Run MultiProcess.Env s.forget (as.filterMap Act.forget) t.forget := by
  induction hr with
  | nil => exact .nil
  | snoc a _ ha hs ih =>
    rw [List.filterMap_append]
    obtain ⟨b, hb, hstep⟩ | ⟨hnone, heq⟩ := forget_step hs
    · rw [List.filterMap_cons_some hb]
      exact .snoc b ih (hC _ a b ha hb) hstep
    · rw [List.filterMap_cons_none hnone, heq]
      rwa [List.filterMap_nil, List.append_nil]

/-- A child echoes its connection here too. -/
theorem echo_of_run
    (hr : machine.Run (fun s a => ∀ b, a.forget = some b → MultiProcess.Env s.forget b)
      (.init listenfd buf) as t) (c : Nat) :
    t.sent c ++ t.forget.pending c = (t.received c).map toupper := by
  have hforget := forget_run (fun _ _ b h hb => h b hb) hr
  exact (MultiProcess.Echo.of_reach ⟨_, _, ⟨buf, rfl⟩, hforget⟩).echo c

end

instance (s : State) : DecidablePred (AnyResult s)
  | .accept _ => inferInstanceAs (Decidable (_ ∨ _ ∧ _))
  | .read _ _ => inferInstanceAs (Decidable (∀ _ ∈ _, _))
  | .fork _ | .close | .write _ _ | .closeChild _ | .exit _ => .isTrue trivial

instance : DecidablePred Succeeds
  | .accept connfd => inferInstanceAs (Decidable (connfd ≠ -1))
  | .fork ok => inferInstanceAs (Decidable (ok = true))
  | .read _ none => .isFalse fun h => h rfl
  | .read _ (some _) => .isTrue (Option.some_ne_none _)
  | .close | .write _ _ | .closeChild _ | .exit _ => .isTrue trivial

/-- A connection is accepted and served by its child until it ends. -/
def oneConnection : List Act :=
  [.accept 4, .fork true, .close, .read 0 (some [97]), .write 0 1, .read 0 (some []),
    .closeChild 0, .exit 0]

/-- Every state on the way is accounted for. -/
theorem oneConnection_accounts :
    ∃ t, machine.Run AnyResult (.init 3 fun _ => 0) oneConnection t ∧
      (∀ pre u, pre <+: oneConnection →
        machine.runFrom (.init 3 fun _ => 0) pre = some u → Accounts u) ∧
      t.fds = {3} := by
  have hrun : (machine.runChecked (fun s a => decide (AnyResult s a)) (.init 3 fun _ => 0)
      oneConnection).map (fun t => t.fds) = some {3} := by
    decide +kernel
  obtain ⟨t, ht, hfds⟩ := Option.map_eq_some_iff.1 hrun
  have hr : machine.Run AnyResult (.init 3 fun _ => 0) oneConnection t := .of_decided ht
  exact ⟨t, hr, (accounts_iff hr).2 (by decide), hfds⟩

/-- Where `fork` fails, the parent keeps the connection; where `accept` fails, it forks all the
same; and where a read fails, the child calls `write` with the length `-1` and reads on. -/
theorem failures_not_accounts :
    (∃ t, machine.Run AnyResult (.init 3 fun _ => 0) [.accept 4, .fork false] t ∧
      t.parent = .accept ∧ t.fds = {4, 3} ∧ ¬ Accounts t) ∧
    (∃ t, machine.Run AnyResult (.init 3 fun _ => 0) [.accept (-1)] t ∧
      t.parent = .fork ∧ t.connfd = -1 ∧ ¬ Accounts t) ∧
    ∃ t x, machine.Run AnyResult (.init 3 fun _ => 0)
        [.accept 4, .fork true, .close, .read 0 none, .write 0 0] t ∧
      t.child 0 = some x ∧ x.pc = .read ∧ x.returned = [-1] ∧ x.asked = [-1] ∧
      ¬ Accounts t := by
  refine ⟨⟨((State.init 3 fun _ => 0).accepted 4).fork false,
    .cons _ ?_ rfl (.cons _ trivial rfl .nil), rfl, by decide, fun h => ?_⟩,
    ⟨(State.init 3 fun _ => 0).accepted (-1), .cons _ (.inl rfl) rfl .nil, rfl, rfl,
      fun h => ?_⟩, ?_⟩
  · exact .inr (by decide)
  · exact absurd (h.top rfl) (by decide)
  · exact absurd (h.forks rfl).1 (by decide)
  · have hrun : (machine.runChecked (fun s a => decide (AnyResult s a)) (.init 3 fun _ => 0)
        [.accept 4, .fork true, .close, .read 0 none, .write 0 0]).any (fun t =>
          (t.child 0).any fun x => decide (x.pc = .read ∧ x.returned = [-1] ∧ x.asked = [-1])) =
        true := by
      decide +kernel
    obtain ⟨t, ht, hchild⟩ := (Option.any_eq_true ..).1 hrun
    obtain ⟨x, hx, hend⟩ := (Option.any_eq_true ..).1 hchild
    obtain ⟨hpc, hreturned, hasked⟩ := of_decide_eq_true hend
    refine ⟨t, x, .of_decided ht, hx, hpc, hreturned, hasked, fun h => ?_⟩
    have hlengths := (h.children 0 x hx).lengths.2
    rw [hasked] at hlengths
    exact absurd (hlengths (-1) (List.mem_singleton_self _)) (by decide)

end LinuxTraining.IoModels.Descriptors
