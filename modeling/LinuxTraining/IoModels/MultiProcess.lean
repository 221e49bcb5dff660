import LinuxTraining.IoModels.Upper
import LinuxTraining.Lib.Machine
import Mathlib.Logic.Function.Basic

/-!
# `multi-process-model.c`: one child for each connection

The parent accepts a connection and forks; the child reads from it, converts what it has read in
its own copy of `buf` and writes it back, until a read finds the end. A child is named by the
connection it was forked for, which is the only one it reads or writes.
-/

namespace LinuxTraining.IoModels.MultiProcess

open Lib

/-- Where the parent is; between `accept` and `fork` it holds a connection in `connfd`. -/
inductive ParentPc
  | accept
  | fork (c : Nat)

/-- Where a child is. -/
inductive ChildPc
  | read
  | write
  | exited
  deriving DecidableEq

/-- A child: its copies of `buf` and `n`. -/
structure Child where
  pc : ChildPc
  buf : Mem Byte
  n : Int

/-- The parent with its `buf`, the children, and the bytes read from and written to each
connection. -/
structure State where
  parent : ParentPc
  buf : Mem Byte
  accepted : Nat
  child : Nat → Option Child
  received : Nat → List Byte
  sent : Nat → List Byte

/-- One step: of the parent, where `fork` may fail, or of the child of a connection. -/
inductive Act
  | accept
  | fork (ok : Bool)
  | read (c : Nat) (r : ReadResult)
  | write (c : Nat) (k : Nat)

/-- The child of a connection moved on. -/
def State.setChild (s : State) (c : Nat) (x : Child) : State :=
  { s with child := Function.update s.child c (some x) }

/-- The child's `read`, and the loop over `buf`; at the end of the connection it leaves its loop. -/
def Child.fetch (x : Child) (r : ReadResult) : Child :=
  if r.ret = 0 then { x with n := r.ret, buf := r.fill x.buf, pc := .exited }
  else { x with n := r.ret, buf := upper (r.fill x.buf) r.ret, pc := .write }

/-- One step. -/
def step (s : State) : Act → Option State
  | .accept =>
    match s.parent with
    | .accept => some { s with parent := .fork s.accepted, accepted := s.accepted + 1 }
    | .fork _ => none
  | .fork ok =>
    match s.parent with
    | .fork c =>
      let s := { s with parent := .accept }
      some (if ok then s.setChild c ⟨.read, s.buf, 0⟩ else s)
    | .accept => none
  | .read c r =>
    match s.child c with
    | some x =>
      match x.pc with
      | .read =>
        let received := Function.update s.received c (s.received c ++ r.getD [])
        some ({ s with received := received }.setChild c (x.fetch r))
      | _ => none
    | none => none
  | .write c k =>
    match s.child c with
    | some x =>
      match x.pc with
      | .write =>
        let sent := Function.update s.sent c (s.sent c ++ x.buf.slice 0 k)
        some ({ s with sent := sent }.setChild c { x with pc := .read })
      | _ => none
    | none => none

/-- Before the first connection; the buffer holds anything. -/
def State.init (buf : Mem Byte) : State :=
  ⟨.accept, buf, 0, fun _ => none, fun _ => [], fun _ => []⟩

/-- The parent and its children. -/
def machine : Machine State Act where
  init s := ∃ buf, s = .init buf
  step := step

/-- `read` brings at most `MAXLINE` bytes and does not fail, and `write` transfers all bytes. -/
def Env (s : State) : Act → Prop
  | .read _ r => ReadResult.Ok r
  | .write c k => ∀ x ∈ s.child c, (k : Int) = x.n
  | .accept | .fork _ => True

/-- What a child has read and not yet written back. -/
def Child.pending (x : Child) : List Byte :=
  if x.pc = .write then x.buf.slice 0 x.n.toNat else []

/-- What has been read from a connection and not yet been written back. -/
def State.pending (s : State) (c : Nat) : List Byte :=
  match s.child c with
  | some x => x.pending
  | none => []

/-- Every connection gets back what it has sent in upper case, and a connection that has no child
yet has sent and got nothing. -/
structure Echo (s : State) : Prop where
  echo : ∀ c, s.sent c ++ s.pending c = (s.received c).map toupper
  fresh : ∀ c, s.accepted ≤ c → s.child c = none
  forking : ∀ c, s.parent = .fork c → s.child c = none ∧ c < s.accepted

section
variable {s s' : State} {c : Nat}

theorem pending_of_child {x : Child} (h : s.child c = some x) : s.pending c = x.pending := by
  unfold State.pending
  rw [h]

theorem pending_setChild (s : State) (c d : Nat) (x : Child) :
    (s.setChild c x).pending d = if d = c then x.pending else s.pending d := by
  unfold State.pending State.setChild
  rcases eq_or_ne d c with rfl | hne
  · simp
  · simp [hne]

/-- What a child has fetched is pending in upper case. -/
theorem Child.fetch_pending (x : Child) (data : List Byte) :
    (x.fetch (some data)).pending = data.map toupper := by
  unfold Child.fetch
  split
  · next hn =>
    have hnil : data = [] := List.length_eq_zero_iff.1 (Int.natCast_eq_zero.1 hn)
    simp [Child.pending, hnil]
  · exact slice_upper x.buf data

/-- A child that goes on, and the logs of its connection with it, leave all others alone. -/
theorem Echo.setChild {received sent : Nat → List Byte} {x x' : Child} (h : Echo s)
    (hx : s.child c = some x) (hc : sent c ++ x'.pending = (received c).map toupper)
    (hother : ∀ d ≠ c, received d = s.received d ∧ sent d = s.sent d) :
    Echo ({ s with received := received, sent := sent }.setChild c x') := by
  constructor
  · intro d
    rw [pending_setChild]
    rcases eq_or_ne d c with rfl | hne
    · rw [if_pos rfl]
      exact hc
    · obtain ⟨hr, hs⟩ := hother d hne
      rw [if_neg hne]
      show sent d ++ s.pending d = (received d).map toupper
      rw [hr, hs]
      exact h.echo d
  · intro d hd
    have hne : d ≠ c := by
      rintro rfl
      rw [h.fresh d hd] at hx
      cases hx
    exact (Function.update_of_ne hne ..).trans (h.fresh d hd)
  · intro d hd
    obtain ⟨hnone, hlt⟩ := h.forking d hd
    have hne : d ≠ c := by
      rintro rfl
      rw [hnone] at hx
      cases hx
    exact ⟨(Function.update_of_ne hne ..).trans hnone, hlt⟩

/-- The fork of a child that has read nothing. -/
theorem Echo.fork (h : Echo s) (hc : s.parent = .fork c) :
    Echo ({ s with parent := .accept }.setChild c ⟨.read, s.buf, 0⟩) := by
  obtain ⟨hnone, hlt⟩ := h.forking c hc
  constructor
  · intro d
    rw [pending_setChild]
    have hd := h.echo d
    split
    · next he =>
      subst he
      rw [State.pending, hnone] at hd
      exact hd
    · exact hd
  · intro d hd
    have hne : d ≠ c := by
      rintro rfl
      exact absurd hlt (Nat.not_lt.2 hd)
    exact (Function.update_of_ne hne ..).trans (h.fresh d hd)
  · intro d hd
    cases hd

/-- Each step keeps the echo. -/
theorem Echo.step {a : Act} (h : Echo s) (henv : Env s a) (hs : step s a = some s') : Echo s' := by
  cases a with
  | accept =>
    simp only [MultiProcess.step] at hs
    split at hs
    · cases hs
      refine ⟨h.echo, fun c hc => h.fresh c (Nat.le_of_succ_le hc), ?_⟩
      intro c hc
      obtain rfl := ParentPc.fork.inj hc
      exact ⟨h.fresh _ le_rfl, Nat.lt_succ_self _⟩
    · cases hs
  | fork ok =>
    simp only [MultiProcess.step] at hs
    split at hs
    · next c hc =>
      cases hs
      cases ok with
      | false =>
        refine ⟨h.echo, h.fresh, ?_⟩
        intro d hd
        cases hd
      | true => exact h.fork hc
    · cases hs
  | read c r =>
    obtain ⟨data, rfl⟩ := henv.eq_some
    simp only [MultiProcess.step] at hs
    split at hs
    · next x hx =>
      split at hs
      · next hpc =>
        cases hs
        have hc := h.echo c
        rw [pending_of_child hx, Child.pending, hpc] at hc
        refine h.setChild hx ?_ fun d hne => ⟨Function.update_of_ne hne .., rfl⟩
        rw [x.fetch_pending, Function.update_self]
        simpa using hc
      · cases hs
    · cases hs
  | write c k =>
    simp only [MultiProcess.step] at hs
    split at hs
    · next x hx =>
      have hk : (k : Int) = x.n := henv x hx
      split at hs
      · next hpc =>
        cases hs
        have hc := h.echo c
        rw [pending_of_child hx, Child.pending, hpc, ← hk] at hc
        refine h.setChild hx ?_ fun d hne => ⟨rfl, Function.update_of_ne hne ..⟩
        rw [Function.update_self]
        simpa [Child.pending] using hc
      · cases hs
    · cases hs

/-- **Each child echoes its connection**, whatever the others do. -/
theorem Echo.of_reach (h : machine.Reach Env s) : Echo s := by
  refine h.invariant ?_ fun _ _ _ hI henv hs => Echo.step hI henv hs
  rintro _ ⟨buf, rfl⟩
  refine ⟨fun _ => rfl, fun _ _ => rfl, ?_⟩
  intro c hc
  cases hc

end

instance (s : State) : DecidablePred (Env s)
  | .accept | .fork _ => .isTrue trivial
  | .read _ r => inferInstanceAs (Decidable (ReadResult.Ok r))
  | .write c k => inferInstanceAs (Decidable (∀ x ∈ s.child c, (k : Int) = x.n))

end LinuxTraining.IoModels.MultiProcess
