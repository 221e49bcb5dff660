import LinuxTraining.IoModels.Descriptors
import LinuxTraining.IoModels.Service
import LinuxTraining.Lib.Settle
import Mathlib.Algebra.BigOperators.Ring.List
import Mathlib.Data.Fintype.EquivFin

/-!
# The forking server and its clients

The parent accepts the connection that has waited longest, and the child of a connection reads and
writes that connection alone, so no client waits for another one. What is assumed of the system
calls is `Answers`: `fork` may fail, and no other call does. A failed `fork` leaves the parent with
a descriptor that it never closes; that there is one more for the next `accept` is an assumption
too. The steps of all processes are bounded by what the clients have done (`processesRest`). Where
they can go no further each client that has a child has got back all that it has sent, in upper
case, and its child is gone just when it has hung up; a client whose `fork` has failed never has a
child, gets nothing, and waits (`echoed`).
-/

namespace LinuxTraining.IoModels.Descriptors.Clients

open Lib

/-- The connections that the parent has accepted; `connfd` is the last one until it has forked. -/
def accepted (s : State) : Nat := if s.parent = .fork then s.round + 1 else s.round

/-- What the system call of a step may answer, where none but `fork` fails: `accept` gives a
descriptor that the parent has not open, however many it has; `read` brings 1 to `MAXLINE` bytes
that are there or the end after the last of them, and `write` transfers all `n` bytes. -/
def Answers (w : World State) : Act → Prop
  | .accept connfd => accepted w.srv < w.made ∧ 0 ≤ connfd ∧ connfd ∉ w.srv.fds
  | .read c r => ∃ data ∈ r, (w.client c).Brings data
  | .write c k => ∀ x ∈ w.srv.child c, (k : Int) = x.n
  | .fork _ | .close | .closeChild _ | .exit _ => True

instance (w : World State) : DecidablePred (Answers w)
  | .accept _ => inferInstanceAs (Decidable (_ ∧ _ ∧ _))
  | .read c r => inferInstanceAs (Decidable (∃ data ∈ r, (w.client c).Brings data))
  | .write c k => inferInstanceAs (Decidable (∀ x ∈ w.srv.child c, (k : Int) = x.n))
  | .fork _ | .close | .closeChild _ | .exit _ => .isTrue trivial

/-- The connection of a child, and what its `read` brings. -/
def reads : Act → Option (Nat × List Byte)
  | .read c (some data) => some (c, data)
  | .read _ none | .accept _ | .fork _ | .close | .write _ _ | .closeChild _ | .exit _ => none

theorem received_step {s t : State} {a : Act} (hs : Descriptors.step s a = some t) (c : Nat) :
    t.received c = s.received c ++ readOn (reads a) c := by
  obtain ⟨_, rfl, -, rfl⟩ | ⟨ok, rfl, -, rfl⟩ | ⟨rfl, -, rfl⟩ | ⟨d, r, x, rfl, -, -, rfl⟩ |
    ⟨_, _, _, rfl, -, -, rfl⟩ | ⟨_, _, rfl, -, -, rfl⟩ | ⟨_, _, rfl, -, -, rfl⟩ := step_cases hs
  · exact (List.append_nil _).symm
  · cases ok <;> exact (List.append_nil _).symm
  · exact (List.append_nil _).symm
  · show Function.update s.received d (s.received d ++ r.getD []) c = _
    cases r with
    | none =>
      rw [Option.getD_none, List.append_nil, Function.update_eq_self]
      exact (List.append_nil _).symm
    | some data =>
      rw [reads, readOn, Option.getD_some]
      rcases eq_or_ne d c with rfl | hne
      · rw [Function.update_self, if_pos rfl]
      · rw [Function.update_of_ne hne.symm, if_neg hne, List.append_nil]
  all_goals exact (List.append_nil _).symm

/-- The forking server among its clients. -/
def service : Service State Act where
  init s := ∃ listenfd buf, s = .init listenfd buf
  step := Descriptors.step
  answers := Answers
  reads _ a := reads a
  received s := s.received
  received_init := by
    rintro _ ⟨listenfd, buf, rfl⟩ _
    rfl
  received_step _ _ _ _ hs := received_step hs
  brings := by
    intro w a _ hans _ c data hread
    cases a with
    | read d r =>
      obtain ⟨_, rfl, hbrings⟩ := hans
      cases hread
      exact hbrings
    | accept | fork | close | write | closeChild | exit => cases hread

/-- The server and its clients, for every descriptor that `socket` may have given. -/
def machine : Machine (World State) (Label Act) := service.machine

/-- The parent waits for a connection; a child waits for its client, or is gone. -/
structure AtRest (w : World State) : Prop where
  parent : w.srv.parent = .accept
  accepted : accepted w.srv = w.made
  children : ∀ c x, w.srv.child c = some x →
    x.pc = .read ∧ w.client c = ⟨[], .sending⟩ ∨ x.pc = .exited

/-! ## The invariant -/

/-- A child serves until it has read the end. -/
def Fits (x : Child) (y : Client) : Prop :=
  match x.pc with
  | .read => y.side ≠ .ended
  | .write => y.side ≠ .ended ∧ 0 ≤ x.n
  | .close | .exit | .exited => y.side = .ended ∧ y.inbox = []

/-- The invariant of the server and its clients. -/
structure Serving (w : World State) : Prop where
  echo : MultiProcess.Echo w.srv.forget
  backlog : accepted w.srv ≤ w.made
  children : ∀ c x, w.srv.child c = some x → c < w.srv.round ∧ Fits x (w.client c)
  quiet : ∀ c, w.srv.child c = none →
    w.srv.received c = [] ∧ w.srv.sent c = [] ∧ (w.client c).side ≠ .ended
  fresh : ∀ c, w.made ≤ c → w.client c = .fresh

/-- The steps of the parent until it accepts again. -/
def ParentPc.left : ParentPc → Nat
  | .accept => 0
  | .fork => 2
  | .close => 1

/-- The steps of a child until it reads again, or is gone. -/
def childLeft : Option Child → Nat
  | some x =>
    match x.pc with
    | .read | .exited => 0
    | .write | .exit => 1
    | .close => 2
  | none => 0

/-- A bound on the steps that are left to the processes. -/
def potential (w : World State) : Nat :=
  3 * (w.made - accepted w.srv) + ParentPc.left w.srv.parent +
    ∑ c ∈ Finset.range w.made, ((w.client c).work 2 3 + childLeft (w.srv.child c))

section
variable {w w' : World State} {s : State} {a : Act} {c : Nat} {x x' : Child} {y : Client}

theorem accepted_le_round (s : State) : s.round ≤ accepted s := by
  unfold accepted
  split <;> omega

theorem env_of_answers (h : Answers w a) :
    ∀ b, a.forget = some b → MultiProcess.Env w.srv.forget b := by
  intro b hb
  cases a with
  | accept | fork =>
    cases hb
    trivial
  | read c r =>
    cases hb
    obtain ⟨_, rfl, hbrings⟩ := h
    exact hbrings.ok
  | write c k =>
    cases hb
    intro y hy
    obtain ⟨x, hx, rfl⟩ := Option.map_eq_some_iff.1 hy
    exact h x hx
  | close | closeChild | exit => cases hb

theorem Serving.echo_step (h : Serving w) (hans : Answers w a)
    (hs : Descriptors.step w.srv a = some s) : MultiProcess.Echo s.forget := by
  obtain ⟨b, hb, hstep⟩ | ⟨-, heq⟩ := forget_step hs
  · exact h.echo.step (env_of_answers hans b hb) hstep
  · rw [heq]
    exact h.echo

/-- A step of the parent that leaves the children and the clients alone. -/
theorem Serving.parent (h : Serving w) (hecho : MultiProcess.Echo s.forget)
    (hchild : s.child = w.srv.child) (hlogs : s.received = w.srv.received ∧ s.sent = w.srv.sent)
    (hround : w.srv.round ≤ s.round) (hmade : accepted s ≤ w.made)
    (hleft : 3 * (w.made - accepted s) + ParentPc.left s.parent <
      3 * (w.made - accepted w.srv) + ParentPc.left w.srv.parent)
    (hw' : w' = { w with srv := s }) : Serving w' ∧ potential w' < potential w := by
  subst hw'
  refine ⟨⟨hecho, hmade, fun c x hx => ?_, fun c hc => ?_, h.fresh⟩, ?_⟩
  · obtain ⟨hlt, hfits⟩ := h.children c x (hchild ▸ hx)
    exact ⟨hlt.trans_le hround, hfits⟩
  · rw [hlogs.1, hlogs.2]
    exact h.quiet c (hchild ▸ hc)
  · unfold potential
    rw [hchild]
    exact Nat.add_lt_add_right hleft _

/-- A step of a child, with what it reads of its client. -/
theorem Serving.child (h : Serving w) (hx : w.srv.child c = some x)
    (hecho : MultiProcess.Echo s.forget)
    (hs : s.parent = w.srv.parent ∧ s.round = w.srv.round ∧
      s.child = Function.update w.srv.child c (some x'))
    (hlogs : ∀ d, d ≠ c → s.received d = w.srv.received d ∧ s.sent d = w.srv.sent d)
    (hfits : Fits x' y)
    (hleft : y.work 2 3 + childLeft (some x') < (w.client c).work 2 3 + childLeft (some x))
    (hw' : w' = { w with srv := s, client := Function.update w.client c y }) :
    Serving w' ∧ potential w' < potential w := by
  obtain ⟨hparent, hround, hchild⟩ := hs
  have haccepted : accepted s = accepted w.srv := by
    rw [accepted, accepted, hparent, hround]
  obtain ⟨hlt, -⟩ := h.children c x hx
  have hmade : c < w.made := hlt.trans_le ((accepted_le_round _).trans h.backlog)
  subst hw'
  refine ⟨⟨hecho, haccepted ▸ h.backlog, fun d z hz => ?_, fun d hd => ?_, fun d hd => ?_⟩, ?_⟩
  · change s.child d = some z at hz
    rw [hchild] at hz
    show d < s.round ∧ Fits z (Function.update w.client c y d)
    rw [hround]
    rcases eq_or_ne d c with rfl | hne
    · rw [Function.update_self] at hz ⊢
      rw [← Option.some.inj hz]
      exact ⟨hlt, hfits⟩
    · rw [Function.update_of_ne hne] at hz ⊢
      exact h.children d z hz
  · change s.child d = none at hd
    rw [hchild] at hd
    have hne : d ≠ c := by
      rintro rfl
      rw [Function.update_self] at hd
      cases hd
    rw [Function.update_of_ne hne] at hd
    obtain ⟨hreceived, hsent⟩ := hlogs d hne
    show s.received d = [] ∧ s.sent d = [] ∧ (Function.update w.client c y d).side ≠ .ended
    rw [hreceived, hsent, Function.update_of_ne hne]
    exact h.quiet d hd
  · have hne : d ≠ c := by
      rintro rfl
      exact absurd hmade (not_lt.2 hd)
    exact (Function.update_of_ne hne ..).trans (h.fresh d hd)
  · have hsum : _ ≤ _ + _ * 0 := sum_spend
      (f := fun d => (w.client d).work 2 3 + childLeft (w.srv.child d))
      (g := fun d => (Function.update w.client c y d).work 2 3 + childLeft (s.child d))
      (k := 1) (Finset.mem_range.2 hmade)
      (by rw [hchild, Function.update_self, Function.update_self, hx]; exact hleft)
      fun d hd => by
        rw [hchild, Function.update_of_ne hd, Function.update_of_ne hd]
        exact Nat.le_add_right _ _
    unfold potential
    rw [haccepted]
    dsimp only at hsum ⊢
    rw [hparent]
    omega

/-- The child of a connection is made: it has its client to read. -/
theorem Serving.forked (h : Serving w) (hpc : w.srv.parent = .fork)
    (hecho : MultiProcess.Echo (w.srv.fork true).forget)
    (hw' : w' = { w with srv := w.srv.fork true }) : Serving w' ∧ potential w' < potential w := by
  have hnone : w.srv.child w.srv.round = none := by
    by_contra hsome
    obtain ⟨x, hx⟩ := Option.ne_none_iff_exists'.1 hsome
    exact absurd (h.children _ x hx).1 (lt_irrefl _)
  have haccepted : accepted (w.srv.fork true) = accepted w.srv := by
    rw [accepted, accepted, if_pos hpc]
    rfl
  have hchild : (w.srv.fork true).child =
    Function.update w.srv.child w.srv.round (some w.srv.forked) := rfl
  subst hw'
  refine ⟨⟨hecho, haccepted ▸ h.backlog, fun d z hz => ?_, fun d hd => ?_, h.fresh⟩, ?_⟩
  · rw [hchild] at hz
    show d < w.srv.round + 1 ∧ Fits z (w.client d)
    rcases eq_or_ne d w.srv.round with rfl | hne
    · rw [Function.update_self] at hz
      rw [← Option.some.inj hz]
      exact ⟨Nat.lt_succ_self _, (h.quiet _ hnone).2.2⟩
    · rw [Function.update_of_ne hne] at hz
      obtain ⟨hlt, hfits⟩ := h.children d z hz
      exact ⟨Nat.lt_succ_of_lt hlt, hfits⟩
  · refine h.quiet d ?_
    rw [hchild] at hd
    rcases eq_or_ne d w.srv.round with rfl | hne
    · exact hnone
    · rwa [Function.update_of_ne hne] at hd
  · have hleft : ∀ d, childLeft ((w.srv.fork true).child d) = childLeft (w.srv.child d) := by
      intro d
      rw [hchild]
      rcases eq_or_ne d w.srv.round with rfl | hne
      · rw [Function.update_self, hnone]
        rfl
      · rw [Function.update_of_ne hne]
    have hparent : (w.srv.fork true).parent = .close := rfl
    unfold potential
    simp only [haccepted, hleft, hparent, hpc, ParentPc.left]
    omega

/-- What a child makes of a read. -/
theorem Fits.fetch {data : List Byte} (h : Fits x y) (hpc : x.pc = .read)
    (hbrings : y.Brings data) :
    Fits (x.fetch (some data)) (y.took data) ∧
      (y.took data).work 2 3 + childLeft (some (x.fetch (some data))) <
        y.work 2 3 + childLeft (some x) := by
  have hside : y.side ≠ .ended := by rwa [Fits, hpc] at h
  have hwork := Client.took_work (b := 2) (e := 3) hbrings
  have hzero : childLeft (some x) = 0 := by rw [childLeft, hpc]
  by_cases hnil : data = []
  · subst hnil
    rw [if_pos rfl] at hwork
    have hinbox : (y.took []).inbox = [] := by
      rcases hbrings with ⟨-, hinbox, -⟩ | ⟨hne, -⟩
      · exact hinbox
      · exact absurd rfl hne
    refine ⟨⟨rfl, hinbox⟩, ?_⟩
    show (y.took []).work 2 3 + 2 < _
    omega
  · have hlength : ReadResult.ret (some data) ≠ 0 :=
      Int.natCast_ne_zero.2 (mt List.length_eq_zero_iff.1 hnil)
    rw [if_neg hnil] at hwork
    have hfetch : (x.fetch (some data)).pc = .write ∧ (x.fetch (some data)).n = data.length := by
      rw [Child.fetch, if_neg hlength]
      exact ⟨rfl, rfl⟩
    constructor
    · rw [Fits, hfetch.1, hfetch.2, Client.took, if_neg hnil]
      exact ⟨hside, Int.natCast_nonneg _⟩
    · rw [childLeft, hfetch.1]
      dsimp only
      omega

/-- **One step of a process** keeps the invariant, and spends. -/
theorem Serving.serve (h : Serving w) (hs : service.stepWorld w (.serve a) = some w') :
    Serving w' ∧ potential w' < potential w := by
  obtain ⟨hans, t, ht, hw'⟩ := serve_inv hs
  have ht : Descriptors.step w.srv a = some t := ht
  have hecho := h.echo_step hans ht
  obtain ⟨connfd, rfl, hpc, rfl⟩ | ⟨ok, rfl, hpc, rfl⟩ | ⟨rfl, hpc, rfl⟩ |
    ⟨c, r, x, rfl, hx, hpc, rfl⟩ | ⟨c, k, x, rfl, hx, hpc, rfl⟩ | ⟨c, x, rfl, hx, hpc, rfl⟩ |
    ⟨c, x, rfl, hx, hpc, rfl⟩ := step_cases ht
  · have hmade : accepted w.srv < w.made := hans.1
    have haccepted : accepted (w.srv.accepted connfd) = accepted w.srv + 1 := by
      simp [accepted, State.accepted, hpc]
    refine h.parent hecho rfl ⟨rfl, rfl⟩ le_rfl (by rw [haccepted]; exact hmade) ?_ hw'
    rw [haccepted, hpc]
    show 3 * (w.made - (accepted w.srv + 1)) + 2 < 3 * (w.made - accepted w.srv) + 0
    omega
  · cases ok with
    | true => exact h.forked hpc hecho hw'
    | false =>
      have haccepted : accepted (w.srv.fork false) = accepted w.srv := by
        simp [accepted, State.fork, hpc]
      refine h.parent hecho rfl ⟨rfl, rfl⟩ (Nat.le_succ _) (haccepted ▸ h.backlog) ?_ hw'
      rw [haccepted, hpc]
      exact Nat.lt_add_of_pos_right (by decide)
  · have haccepted : accepted w.srv.closed = accepted w.srv := by
      simp [accepted, State.closed, hpc]
    refine h.parent hecho rfl ⟨rfl, rfl⟩ le_rfl (haccepted ▸ h.backlog) ?_ hw'
    rw [haccepted, hpc]
    exact Nat.lt_succ_self _
  · obtain ⟨data, rfl, hbrings⟩ := hans
    obtain ⟨hfits, hleft⟩ := (h.children c x hx).2.fetch hpc hbrings
    exact h.child hx hecho ⟨rfl, rfl, rfl⟩
      (fun d hd => ⟨Function.update_of_ne hd .., rfl⟩) hfits hleft hw'
  · have hfits : Fits x.reply (w.client c) := by
      have hfits := (h.children c x hx).2
      rw [Fits, hpc] at hfits
      exact hfits.1
    refine h.child hx hecho ⟨rfl, rfl, rfl⟩ (fun d hd => ⟨rfl, Function.update_of_ne hd ..⟩) hfits
      (Nat.add_lt_add_left ?_ _) (by rw [Function.update_eq_self]; exact hw')
    rw [childLeft, childLeft, hpc]
    exact Nat.one_pos
  · have hfits : Fits x.leave (w.client c) := by
      have hfits := (h.children c x hx).2
      rwa [Fits, hpc] at hfits
    refine h.child hx hecho ⟨rfl, rfl, rfl⟩ (fun d _ => ⟨rfl, rfl⟩) hfits
      (Nat.add_lt_add_left ?_ _) (by rw [Function.update_eq_self]; exact hw')
    rw [childLeft, childLeft, hpc]
    exact Nat.lt_succ_self 1
  · have hfits : Fits { x with fds := ∅, pc := .exited } (w.client c) := by
      have hfits := (h.children c x hx).2
      rwa [Fits, hpc] at hfits
    refine h.child hx hecho ⟨rfl, rfl, rfl⟩ (fun d _ => ⟨rfl, rfl⟩) hfits
      (Nat.add_lt_add_left ?_ _) (by rw [Function.update_eq_self]; exact hw')
    rw [childLeft, childLeft, hpc]
    exact Nat.one_pos

/-- A client that has more to read is served as before. -/
theorem Fits.of_client {z : Client} (h : Fits x y) (hy : y.side ≠ .ended) (hz : z.side ≠ .ended) :
    Fits x z := by
  unfold Fits at h ⊢
  split at h
  · exact hz
  · exact ⟨hz, h.2⟩
  all_goals exact absurd h.1 hy

/-- A step of a client keeps the invariant, and adds its work. -/
theorem Serving.disturb (h : Serving w) {a : Label Act} (ha : a.isServe = false)
    (hs : service.stepWorld w a = some w') :
    Serving w' ∧ potential w' ≤ potential w + a.work 3 2 3 := by
  obtain ⟨rfl, rfl⟩ | ⟨c, y, hc, hside, hy, -, hwork, rfl⟩ := client_cases ha hs
  · refine ⟨⟨h.echo, h.backlog.trans (Nat.le_succ _), h.children, h.quiet,
      fun c hc => h.fresh c (Nat.le_of_succ_le hc)⟩, ?_⟩
    have hnone : w.srv.child w.made = none := by
      by_contra hsome
      obtain ⟨x, hx⟩ := Option.ne_none_iff_exists'.1 hsome
      have hlt := (h.children _ x hx).1.trans_le ((accepted_le_round _).trans h.backlog)
      exact absurd hlt (lt_irrefl _)
    have hnew : (w.client w.made).work 2 3 + childLeft (w.srv.child w.made) = 0 := by
      rw [h.fresh w.made le_rfl, hnone]
      rfl
    unfold potential
    rw [Finset.sum_range_succ, hnew, Label.work]
    dsimp only
    omega
  · have hopen : (w.client c).side ≠ .ended := by
      rw [hside]
      exact Side.noConfusion
    refine ⟨⟨h.echo, h.backlog, fun d x hx => ?_, fun d hd => ?_, fun d hd => ?_⟩, ?_⟩
    · obtain ⟨hlt, hfits⟩ := h.children d x hx
      refine ⟨hlt, ?_⟩
      dsimp only
      rcases eq_or_ne d c with rfl | hne
      · rw [Function.update_self]
        exact hfits.of_client hopen hy
      · rwa [Function.update_of_ne hne]
    · obtain ⟨hreceived, hsent, hend⟩ := h.quiet d hd
      refine ⟨hreceived, hsent, ?_⟩
      dsimp only
      rcases eq_or_ne d c with rfl | hne
      · rwa [Function.update_self]
      · rwa [Function.update_of_ne hne]
    · have hne : d ≠ c := by
        rintro rfl
        exact absurd hc (not_lt.2 hd)
      exact (Function.update_of_ne hne ..).trans (h.fresh d hd)
    · have hsum := sum_gain (f := fun d => (w.client d).work 2 3 + childLeft (w.srv.child d))
        (g := fun d => (Function.update w.client c y d).work 2 3 + childLeft (w.srv.child d))
        (k := a.work 3 2 3) (Finset.mem_range.2 hc)
        (by rw [Function.update_self, hwork 3]; omega)
        fun d hd => by rw [Function.update_of_ne hd]
      unfold potential
      dsimp only at hsum ⊢
      omega

theorem Serving.step {a : Label Act} (h : Serving w) (hs : service.stepWorld w a = some w') :
    Serving w' := by
  cases ha : a.isServe with
  | true =>
    cases a with
    | serve => exact (h.serve hs).1
    | connect | send | hangUp => cases ha
  | false => exact (h.disturb ha hs).1

theorem Serving.init (listenfd : Int) (buf : Mem Byte) :
    Serving (Service.start (.init listenfd buf)) where
  echo := MultiProcess.Echo.of_reach ⟨_, [], ⟨buf, rfl⟩, .nil⟩
  backlog := le_rfl
  children _ _ hx := by cases hx
  quiet _ _ := ⟨rfl, rfl, Side.noConfusion⟩
  fresh _ _ := rfl

/-! ## Rest -/

/-- The processes can go no further just where they are at rest. -/
theorem Serving.settled_iff (h : Serving w) :
    (∀ a : Label Act, a.isServe = true → machine.step w a = none) ↔ AtRest w := by
  refine settled_iff_stuck.trans ⟨fun hstuck => ?_, fun hrest a hans => ?_⟩
  · have hstuck : ∀ a, Answers w a → Descriptors.step w.srv a = none := hstuck
    have hpc : w.srv.parent = .accept := by
      cases hpc : w.srv.parent with
      | accept => rfl
      | fork =>
        have hnone := hstuck (.fork true) trivial
        rw [Descriptors.step, if_pos hpc] at hnone
        cases hnone
      | close =>
        have hnone := hstuck .close trivial
        rw [Descriptors.step, if_pos hpc] at hnone
        cases hnone
    refine ⟨hpc, le_antisymm h.backlog (not_lt.1 fun hlt => ?_), fun c x hx => ?_⟩
    · obtain ⟨n, hn⟩ := Infinite.exists_notMem_finset (w.srv.fds.image Int.toNat)
      have hfresh : (n : Int) ∉ w.srv.fds := fun hmem =>
        hn (Finset.mem_image.2 ⟨n, hmem, Int.toNat_natCast n⟩)
      have hnone := hstuck (.accept n) ⟨hlt, Int.natCast_nonneg n, hfresh⟩
      rw [Descriptors.step, if_pos hpc] at hnone
      cases hnone
    · obtain ⟨-, hfits⟩ := h.children c x hx
      cases hxpc : x.pc with
      | read =>
        refine .inl ⟨rfl, ?_⟩
        have hno : ¬ (w.client c).readable := fun hread => by
          obtain ⟨data, hbrings⟩ := Client.exists_brings hread
          have hnone := hstuck (.read c (some data)) ⟨data, rfl, hbrings⟩
          rw [Descriptors.step, hx] at hnone
          dsimp only at hnone
          rw [if_pos hxpc] at hnone
          cases hnone
        rw [Fits, hxpc] at hfits
        rw [Client.readable_iff, not_or, not_not] at hno
        cases hy : w.client c with
        | mk inbox side =>
          rw [hy] at hfits hno
          cases side with
          | sending => rw [show inbox = [] from hno.1]
          | hungUp => exact absurd rfl hno.2
          | ended => exact absurd rfl hfits
      | write =>
        rw [Fits, hxpc] at hfits
        have hnone := hstuck (.write c x.n.toNat) fun z hz => by
          cases hx.symm.trans hz
          exact Int.toNat_of_nonneg hfits.2
        rw [Descriptors.step, hx] at hnone
        dsimp only at hnone
        rw [if_pos hxpc] at hnone
        cases hnone
      | close =>
        have hnone := hstuck (.closeChild c) trivial
        rw [Descriptors.step, hx] at hnone
        dsimp only at hnone
        rw [if_pos hxpc] at hnone
        cases hnone
      | exit =>
        have hnone := hstuck (.exit c) trivial
        rw [Descriptors.step, hx] at hnone
        dsimp only at hnone
        rw [if_pos hxpc] at hnone
        cases hnone
      | exited => exact .inr rfl
  · show Descriptors.step w.srv a = none
    refine Option.eq_none_iff_forall_ne_some.2 fun t ht => ?_
    obtain ⟨_, rfl, -, -⟩ | ⟨_, rfl, hpc, -⟩ | ⟨rfl, hpc, -⟩ | ⟨c, r, x, rfl, hx, hpc, -⟩ |
      ⟨c, _, x, rfl, hx, hpc, -⟩ | ⟨c, x, rfl, hx, hpc, -⟩ | ⟨c, x, rfl, hx, hpc, -⟩ :=
      step_cases ht
    · exact absurd hrest.accepted hans.1.ne
    · cases hpc.symm.trans hrest.parent
    · cases hpc.symm.trans hrest.parent
    all_goals rcases hrest.children c x hx with ⟨hread, hclient⟩ | hgone
    · obtain ⟨data, rfl, hbrings⟩ := hans
      rw [hclient] at hbrings
      rcases hbrings with ⟨-, -, hside⟩ | ⟨hne, hprefix, -⟩
      · cases hside
      · exact absurd (List.prefix_nil.1 hprefix) hne
    · cases hpc.symm.trans hgone
    · cases hpc.symm.trans hread
    · cases hpc.symm.trans hgone
    · cases hpc.symm.trans hread
    · cases hpc.symm.trans hgone
    · cases hpc.symm.trans hread
    · cases hpc.symm.trans hgone

/-- **The server comes to rest**, where no system call but `fork` fails, `accept` always has a
descriptor to give and a `write` transfers all bytes. In every run the steps of the parent and its
children are at most three for each connection and for each end, and two for each byte. When the
clients stop, the processes come to rest within what is left of the bound, and they can go no
further just where they are at rest. -/
theorem processesRest {C : World State → Label Act → Prop}
    (hr : machine.Run C (Service.start (.init listenfd buf)) as w) :
    (∀ bs t, machine.Run (fun _ a => a.isServe = true) w bs t →
      as.countP Label.isServe + bs.length ≤ (as.map (Label.work 3 2 3)).sum) ∧
    (∃ bs t, machine.Run (fun _ a => a.isServe = true) w bs t ∧ AtRest t) ∧
    ((∀ a : Label Act, a.isServe = true → machine.step w a = none) ↔ AtRest w) := by
  have hspend : ∀ w a w', Serving w → a.isServe = true → machine.step w a = some w' →
      potential w' < potential w := by
    intro u a u' h ha hs
    cases a with
    | serve => exact (h.serve hs).2
    | connect | send | hangUp => cases ha
  have hserving : Serving w := hr.invariant (.init listenfd buf) fun _ _ _ h _ => h.step
  obtain ⟨hbound, bs, t, hown, hserving', hset⟩ := hr.settles (.init listenfd buf)
    (fun _ _ _ h _ => h.step) hspend fun _ _ _ h _ ha hs => (h.disturb ha hs).2
  have hzero : potential (Service.start (.init listenfd buf)) = 0 := rfl
  rw [hzero, Nat.zero_add] at hbound
  exact ⟨hbound, ⟨bs, t, hown, hserving'.settled_iff.1 hset⟩, hserving.settled_iff⟩

/-! ## What the clients get -/

/-- A round that is over and has no child gets none. -/
theorem childless_step {a : Label Act} (hround : c < w.srv.round) (hnone : w.srv.child c = none)
    (hs : service.stepWorld w a = some w') : c < w'.srv.round ∧ w'.srv.child c = none := by
  cases ha : a.isServe with
  | false =>
    obtain ⟨-, rfl⟩ | ⟨_, _, -, -, -, -, -, rfl⟩ := client_cases ha hs
    · exact ⟨hround, hnone⟩
    · exact ⟨hround, hnone⟩
  | true =>
    cases a with
    | serve a =>
      obtain ⟨-, t, ht, rfl⟩ := serve_inv hs
      -- The children that a step makes or moves on are others.
      have hother : ∀ {d : Nat} {x : Child}, d ≠ c →
          Function.update w.srv.child d (some x) c = none := fun hd => by
        rwa [Function.update_of_ne hd.symm]
      have hchild : ∀ {d : Nat} {x : Child}, w.srv.child d = some x → d ≠ c := by
        rintro d x hx rfl
        cases hnone.symm.trans hx
      obtain ⟨_, rfl, -, rfl⟩ | ⟨ok, rfl, -, rfl⟩ | ⟨rfl, -, rfl⟩ | ⟨d, r, x, rfl, hx, -, rfl⟩ |
        ⟨d, k, x, rfl, hx, -, rfl⟩ | ⟨d, x, rfl, hx, -, rfl⟩ | ⟨d, x, rfl, hx, -, rfl⟩ :=
        step_cases ht
      · exact ⟨hround, hnone⟩
      · cases ok with
        | true => exact ⟨Nat.lt_succ_of_lt hround, hother hround.ne'⟩
        | false => exact ⟨Nat.lt_succ_of_lt hround, hnone⟩
      · exact ⟨hround, hnone⟩
      all_goals exact ⟨hround, hother (hchild hx)⟩
    | connect | send | hangUp => cases ha

/-- The connection whose `fork` has failed has no child, then or later. -/
theorem Serving.childless {C : World State → Label Act → Prop} {u : World State}
    {bs : List (Label Act)} (h : Serving u)
    (hr : machine.Run C u (.serve (.fork false) :: bs) w) : w.srv.child u.srv.round = none := by
  obtain ⟨v, -, hs, hrest⟩ := hr.uncons
  have hnone : u.srv.child u.srv.round = none := by
    by_contra hsome
    obtain ⟨x, hx⟩ := Option.ne_none_iff_exists'.1 hsome
    exact absurd (h.children _ x hx).1 (lt_irrefl _)
  have hs : service.stepWorld u (.serve (.fork false)) = some v := hs
  obtain ⟨-, t, ht, rfl⟩ := serve_inv hs
  obtain ⟨-, ht⟩ := Option.ite_none_right_eq_some.1 ht
  obtain rfl := Option.some.inj ht
  exact (hrest.invariant (I := fun w => u.srv.round < w.srv.round ∧ w.srv.child u.srv.round = none)
    ⟨Nat.lt_succ_self _, hnone⟩ fun _ _ _ hI _ hs => childless_step hI.1 hI.2 hs).2

/-- **Every client that has a child gets what it has sent, in upper case**, where no system call but
`fork` fails, `accept` always has a descriptor to give and a `write` transfers all bytes. At every
moment what a client has sent is what it has got back, what is being written to it and what has not
been read; a client without a child has got nothing, and a client whose `fork` has failed has no
child at any later moment. Where the processes are at rest each client with a child has got it all
back, and its child is gone just when it has hung up. -/
theorem echoed {C : World State → Label Act → Prop}
    (hr : machine.Run C (Service.start (.init listenfd buf)) as w) :
    (∀ c, w.srv.sent c ++ w.srv.forget.pending c ++ (w.client c).inbox.map toupper =
        (sentOn c as).map toupper ∧ (w.srv.child c = none → w.srv.sent c = [])) ∧
    (∀ before after u, as = before ++ .serve (.fork false) :: after →
      machine.Run C (Service.start (.init listenfd buf)) before u →
      w.srv.child u.srv.round = none ∧ w.srv.sent u.srv.round = []) ∧
    (AtRest w → ∀ c x, w.srv.child c = some x → w.srv.sent c = (sentOn c as).map toupper ∧
      (x.pc = .exited ↔ .hangUp c ∈ as)) := by
  have h : Serving w := hr.invariant (.init listenfd buf) fun _ _ _ h _ => h.step
  have hstream : ∀ c, w.stream service c = sentOn c as ∧
      ((w.client c).side = .sending ↔ .hangUp c ∉ as) :=
    service.run_stream ⟨listenfd, buf, rfl⟩ hr
  have hall : ∀ c, w.srv.sent c ++ w.srv.forget.pending c ++ (w.client c).inbox.map toupper =
      (sentOn c as).map toupper := fun c => by
    have hecho : w.srv.sent c ++ w.srv.forget.pending c = (w.srv.received c).map toupper :=
      h.echo.echo c
    rw [hecho, ← List.map_append, ← (hstream c).1]
    rfl
  refine ⟨fun c => ⟨hall c, fun hc => (h.quiet c hc).2.1⟩, fun before after u has hbefore => ?_,
    fun hrest c x hx => ?_⟩
  · subst has
    obtain ⟨v, hv, hafter⟩ := hr.of_append
    obtain rfl := hv.unique hbefore
    have hserving : Serving v := hv.invariant (.init listenfd buf) fun _ _ _ h _ => h.step
    have hnone := hserving.childless hafter
    exact ⟨hnone, (h.quiet _ hnone).2.1⟩
  obtain ⟨-, hfits⟩ := h.children c x hx
  have hgot := hall c
  have hiff := (hstream c).2
  rcases hrest.children c x hx with ⟨hpc, hclient⟩ | hpc
  · have hpending : w.srv.forget.pending c = [] := by
      rw [MultiProcess.pending_of_child (forget_child hx)]
      simp [MultiProcess.Child.pending, Child.forget, hpc, ChildPc.forget]
    rw [hpending, hclient, List.append_nil, List.map_nil, List.append_nil] at hgot
    refine ⟨hgot, iff_of_false (by simp [hpc]) (hiff.1 ?_)⟩
    rw [hclient]
  · have hpending : w.srv.forget.pending c = [] := by
      rw [MultiProcess.pending_of_child (forget_child hx)]
      simp [MultiProcess.Child.pending, Child.forget, hpc, ChildPc.forget]
    rw [Fits, hpc] at hfits
    rw [hpending, hfits.2, List.append_nil, List.map_nil, List.append_nil] at hgot
    refine ⟨hgot, iff_of_true hpc (by_contra fun hmem => ?_)⟩
    exact absurd (hfits.1.symm.trans (hiff.2 hmem)) Side.noConfusion

end

/-- A client sends `ab` and is accepted; the parent has not forked yet. -/
def acceptedFirst : List (Label Act) := [.connect, .send 0 [97, 98], .serve (.accept 4)]

theorem acceptedFirst_processesRest : ∃ w bs t,
    machine.Run Machine.anyStep (Service.start (.init 3 fun _ => 0)) acceptedFirst w ∧
      machine.Run (fun _ a => a.isServe = true) w bs t ∧ AtRest t ∧ 1 + bs.length ≤ 7 := by
  have hrun : (machine.runFrom (Service.start (.init 3 fun _ => 0)) acceptedFirst).isSome := by
    decide +kernel
  obtain ⟨w, hw⟩ := Option.isSome_iff_exists.1 hrun
  have hr : machine.Run Machine.anyStep (Service.start (.init 3 fun _ => 0)) acceptedFirst w :=
    .of_runFrom (fun _ _ _ => trivial) hw
  obtain ⟨hbound, ⟨bs, t, hown, hrest⟩, -⟩ := processesRest hr
  exact ⟨w, bs, t, hr, hown, hrest, hbound bs t hown⟩

/-- One client is answered and hangs up; the `fork` for the other one fails. -/
def forkFails : List (Label Act) :=
  [.connect, .send 0 [97, 98], .connect, .send 1 [120], .serve (.accept 4), .serve (.fork true),
    .serve .close, .serve (.accept 4), .serve (.fork false), .serve (.read 0 (some [97, 98])),
    .serve (.write 0 2), .hangUp 0, .serve (.read 0 (some [])), .serve (.closeChild 0),
    .serve (.exit 0)]

theorem forkFails_echoed : ∃ w,
    machine.Run Machine.anyStep (Service.start (.init 3 fun _ => 0)) forkFails w ∧ AtRest w ∧
      w.srv.sent 0 = [65, 66] ∧ w.srv.child 1 = none ∧ w.srv.sent 1 = [] := by
  have hrun : (machine.runFrom (Service.start (.init 3 fun _ => 0)) forkFails).map (fun w =>
      (w.srv.parent, accepted w.srv, w.made, (w.srv.child 0).map Child.pc)) =
        some (.accept, 2, 2, some .exited) := by
    decide +kernel
  have hbefore : (machine.runFrom (Service.start (.init 3 fun _ => 0)) (forkFails.take 8)).map
      (fun u => u.srv.round) = some 1 := by
    decide +kernel
  obtain ⟨w, hw, hend⟩ := Option.map_eq_some_iff.1 hrun
  obtain ⟨u, hu, hround⟩ := Option.map_eq_some_iff.1 hbefore
  simp only [Prod.mk.injEq] at hend
  obtain ⟨hpc, haccepted, hmade, hfirst⟩ := hend
  obtain ⟨x, hx, hgone⟩ := Option.map_eq_some_iff.1 hfirst
  have hr : machine.Run Machine.anyStep (Service.start (.init 3 fun _ => 0)) forkFails w :=
    .of_runFrom (fun _ _ _ => trivial) hw
  obtain ⟨-, hfailed, hechoed⟩ := echoed hr
  obtain ⟨hnone, hsent⟩ := hfailed (forkFails.take 8) (forkFails.drop 9) u rfl
    (.of_runFrom (fun _ _ _ => trivial) hu)
  rw [hround] at hnone hsent
  have hserving : Serving w := hr.invariant (.init 3 _) fun _ _ _ h _ => h.step
  have hrest : AtRest w := by
    refine ⟨hpc, haccepted.trans hmade.symm, fun c y hy => .inr ?_⟩
    have hlt := (hserving.children c y hy).1.trans_le (accepted_le_round _)
    rw [haccepted] at hlt
    obtain rfl | rfl : c = 0 ∨ c = 1 := by omega
    · rw [← Option.some.inj (hx.symm.trans hy)]
      exact hgone
    · cases hnone.symm.trans hy
  exact ⟨w, hr, hrest, (hechoed hrest 0 x hx).1, hnone, hsent⟩

end LinuxTraining.IoModels.Descriptors.Clients
