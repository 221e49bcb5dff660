import LinuxTraining.IoModels.Echo
import LinuxTraining.IoModels.Pass
import LinuxTraining.IoModels.Service
import LinuxTraining.Lib.Settle
import Mathlib.Algebra.BigOperators.Ring.List

/-!
# The select server and its clients

What is assumed of the system calls is `Answers`: none of them fails. `select` blocks until a
watched descriptor below its first argument is ready and leaves exactly the ready ones, `accept`
takes the connection that has waited longest, on a descriptor below `FD_SETSIZE` that is not open,
and `write` transfers all bytes. Any number of connections may wait for `accept`; what is assumed of
the clients for the server to have such a descriptor is `Roomy`.

A pass of the main loop serves one descriptor at least. So the steps of the server are bounded by
what its clients have done (`serverRests`), and where it waits in `select` each client has got back
all that it has sent, in upper case, and is connected just as long as it has not hung up
(`answered`). `Serving` is the invariant: what `Counted` says of a pass, and that the descriptors
that a pass has still to serve are ready.
-/

namespace LinuxTraining.IoModels.Select.Clients

open Lib

/-! ## The system calls -/

/-- Whether a descriptor is ready. -/
def isReady (w : World State) (fd : Int) : Bool :=
  if fd = w.srv.listenfd then w.srv.net.accepted < w.made
  else
    match w.srv.net.conn fd with
    | some c => (w.client c).readable
    | none => false

/-- What `select(maxfd+1, &rset, NULL, NULL, NULL)` leaves in `rset`. -/
def readySet (w : World State) : Finset Int :=
  w.srv.allset.filter fun fd => fd < w.srv.maxfd + 1 ∧ isReady w fd

/-- What the system call of a step may answer, where none fails: `accept` gives a descriptor below
`FD_SETSIZE` that is not open, `read` brings 1 to `MAXLINE` bytes that are there or the end after
the last of them, and `write` transfers all `n` bytes. -/
def Answers (w : World State) : Act → Prop
  | .select nready rset => rset = readySet w ∧ rset.Nonempty ∧ nready = rset.card
  | .accept connfd => w.srv.net.accepted < w.made ∧ Env w.srv (.accept connfd)
  | .next => True
  | .read r => ∃ c ∈ w.srv.net.conn w.srv.sockfd, ∃ data ∈ r, (w.client c).Brings data
  | .write k => (k : Int) = w.srv.n

instance (w : World State) : DecidablePred (Answers w)
  | .select _ _ => inferInstanceAs (Decidable (_ ∧ _ ∧ _))
  | .accept connfd => inferInstanceAs (Decidable (_ ∧ Env _ (.accept connfd)))
  | .next => .isTrue trivial
  | .read r => inferInstanceAs (Decidable (∃ c ∈ _, ∃ data ∈ r, (w.client c).Brings data))
  | .write k => inferInstanceAs (Decidable ((k : Int) = w.srv.n))

/-- The connection of `sockfd`, and what `read` brings of it. -/
def reads (s : State) : Act → Option (Nat × List Byte)
  | .read (some data) => (s.net.conn s.sockfd).map fun c => (c, data)
  | .read none | .select _ _ | .accept _ | .next | .write _ => none

/-! ## The steps of the server and what they read -/

theorem newClient_net (s : State) (connfd : Int) :
    (s.newClient connfd).net = s.net.accept connfd := by
  unfold State.newClient
  dsimp only
  split <;> rfl

theorem checkClient_net (s : State) (i : Nat) : (s.checkClient i).net = s.net := by
  unfold State.checkClient
  split
  · rfl
  · split <;> rfl

/-- What the server makes of a read. -/
theorem fetch_serve (s : State) (data : List Byte) (i : Nat) :
    ((s.fetch (some data)).serve i).n = data.length ∧
      ((s.fetch (some data)).serve i).net.accepted = s.net.accepted ∧
      ((s.fetch (some data)).serve i).net.received =
        logTo s.net.received (s.net.conn s.sockfd) data ∧
      ((s.fetch (some data)).serve i).net.conn =
        if data = [] then Function.update s.net.conn s.sockfd none else s.net.conn := by
  unfold State.serve
  split
  · next hn =>
    have hnil : data = [] := List.length_eq_zero_iff.1 (Int.natCast_eq_zero.1 hn)
    exact ⟨rfl, rfl, rfl, (if_pos hnil).symm⟩
  · next hn =>
    have hne : data ≠ [] := by
      rintro rfl
      exact hn rfl
    exact ⟨rfl, rfl, rfl, (if_neg hne).symm⟩

theorem received_step {w : World State} {a : Act} {s : State} (hans : Answers w a)
    (hs : Select.step w.srv a = some s) (c : Nat) :
    s.net.received c = w.srv.net.received c ++ readOn (reads w.srv a) c := by
  obtain ⟨_, _, rfl, -, -, rfl⟩ | ⟨_, _, rfl, -, -, rfl⟩ | ⟨connfd, rfl, -, rfl⟩ |
    ⟨i, rfl, -, rfl⟩ | ⟨i, r, rfl, -, rfl⟩ | ⟨_, k, rfl, -, rfl⟩ := step_cases hs
  · exact (List.append_nil _).symm
  · exact (List.append_nil _).symm
  · rw [newClient_net, (w.srv.net.accept_logs connfd).1]
    exact (List.append_nil _).symm
  · rw [checkClient_net]
    exact (List.append_nil _).symm
  · obtain ⟨d, hd, data, rfl, -⟩ := hans
    rw [(fetch_serve w.srv data i).2.2.1, logTo_apply, reads, hd]
    simp only [Option.some.injEq, Option.map_some, readOn]
    split
    · rfl
    · exact (List.append_nil _).symm
  · exact (List.append_nil _).symm

theorem reads_brings {w : World State} {a : Act} (hans : Answers w a) (c : Nat) (data : List Byte)
    (hread : reads w.srv a = some (c, data)) : (w.client c).Brings data := by
  cases a with
  | read r =>
    obtain ⟨d, hd, data', rfl, hbrings⟩ := hans
    rw [reads, hd] at hread
    cases hread
    exact hbrings
  | select | accept | next | write => cases hread

/-- The select server among its clients. -/
def service : Service State Act where
  init s := ∃ listenfd buf, s = .init listenfd buf
  step := Select.step
  answers := Answers
  reads := reads
  received s := s.net.received
  received_init := by
    rintro _ ⟨listenfd, buf, rfl⟩ _
    rfl
  received_step _ _ _ hans hs := received_step hans hs
  brings _ _ _ hans _ := reads_brings hans

/-- The server and its clients, for every descriptor that `socket` may have given. -/
def machine : Machine (World State) (Label Act) := service.machine

/-- The server has nothing to do: it waits in `select`, and all is accepted, read and closed. -/
structure AtRest (w : World State) : Prop where
  select : w.srv.pc = .select
  accepted : w.srv.net.accepted = w.made
  clients : ∀ c < w.made, (w.client c).inbox = [] ∧ (w.client c).side ≠ .hungUp

/-- The connections that the server has not closed, accepted or not. -/
def connections (w : World State) : Nat :=
  ((Finset.range w.made).filter fun c => (w.client c).side ≠ .ended).card

/-- The condition on a step: a client connects only where `FD_SETSIZE` descriptors are enough, one
for each connection, one for `listenfd` and the three that every process starts with. -/
def Roomy (w : World State) : Label Act → Prop
  | .connect => connections w + 4 < FD_SETSIZE
  | .send _ _ | .hangUp _ | .serve _ => True

instance (w : World State) : DecidablePred (Roomy w)
  | .connect => inferInstanceAs (Decidable (_ < _))
  | .send _ _ | .hangUp _ | .serve _ => .isTrue trivial

/-! ## Connections and clients -/

/-- The open descriptors have different connections, all accepted; an accepted connection is open
until the server closes it, and then there is nothing left to read. -/
structure Connected (conn : Int → Option Nat) (accepted : Nat) (client : Nat → Client) : Prop where
  owner : ∀ fd c, conn fd = some c → c < accepted
  unique : ∀ fd fd' c, conn fd = some c → conn fd' = some c → fd = fd'
  isOpen : ∀ c < accepted, (∃ fd, conn fd = some c) ↔ (client c).side ≠ .ended
  drained : ∀ c, (client c).side = .ended → (client c).inbox = []
  waiting : ∀ c, accepted ≤ c → (client c).side ≠ .ended

section
variable {w w' : World State} {s : State} {conn : Int → Option Nat} {accepted : Nat}
  {client : Nat → Client} {c : Nat} {fd : Int} {x : Client} {a : Act} {listenfd : Int}
  {buf : Mem Byte} {as : List (Label Act)}

/-- A connection that stays open. -/
theorem Connected.setClient (h : Connected conn accepted client)
    (hc : (client c).side ≠ .ended) (hx : x.side ≠ .ended) :
    Connected conn accepted (Function.update client c x) := by
  have hside : ∀ d, (Function.update client c x d).side = .ended ↔ (client d).side = .ended := by
    intro d
    rcases eq_or_ne d c with rfl | hne
    · rw [Function.update_self]
      exact iff_of_false hx hc
    · rw [Function.update_of_ne hne]
  refine ⟨h.owner, h.unique, fun d hd => ?_, fun d hd => ?_, fun d hd => ?_⟩
  · rw [ne_eq, hside]
    exact h.isOpen d hd
  · have hne : d ≠ c := by
      rintro rfl
      exact hc ((hside d).1 hd)
    rw [Function.update_of_ne hne] at hd ⊢
    exact h.drained d hd
  · rw [ne_eq, hside]
    exact h.waiting d hd

/-- The connection that has waited longest gets a descriptor. -/
theorem Connected.accept (h : Connected conn accepted client) (hfd : conn fd = none) :
    Connected (Function.update conn fd (some accepted)) (accepted + 1) client := by
  have hconn : ∀ fd' c, Function.update conn fd (some accepted) fd' = some c ↔
      fd' = fd ∧ c = accepted ∨ conn fd' = some c := by
    intro fd' c
    rcases eq_or_ne fd' fd with rfl | hne
    · rw [Function.update_self, hfd]
      simp [eq_comm]
    · rw [Function.update_of_ne hne]
      simp [hne]
  refine ⟨fun fd' d hd => ?_, fun fd₁ fd₂ d h₁ h₂ => ?_, fun d hd => ?_, h.drained,
    fun d hd => h.waiting d (by omega)⟩
  · rw [hconn] at hd
    rcases hd with ⟨-, rfl⟩ | hd
    · exact Nat.lt_succ_self _
    · exact Nat.lt_succ_of_lt (h.owner fd' d hd)
  · rw [hconn] at h₁ h₂
    rcases h₁ with ⟨rfl, rfl⟩ | h₁ <;> rcases h₂ with ⟨rfl, he⟩ | h₂
    · rfl
    · exact absurd (h.owner _ _ h₂) (lt_irrefl _)
    · subst he
      exact absurd (h.owner _ _ h₁) (lt_irrefl _)
    · exact h.unique fd₁ fd₂ d h₁ h₂
  · rcases Nat.lt_succ_iff_lt_or_eq.1 hd with hlt | rfl
    · rw [← h.isOpen d hlt]
      refine exists_congr fun fd' => (hconn fd' d).trans (or_iff_right ?_)
      rintro ⟨-, rfl⟩
      exact lt_irrefl _ hlt
    · exact iff_of_true ⟨fd, (hconn fd d).2 (.inl ⟨rfl, rfl⟩)⟩ (h.waiting d le_rfl)

/-- The server closes a connection that has ended. -/
theorem Connected.close (h : Connected conn accepted client) (hfd : conn fd = some c)
    (hx : x.side = .ended) (hnil : x.inbox = []) :
    Connected (Function.update conn fd none) accepted (Function.update client c x) := by
  have hconn : ∀ fd' d, Function.update conn fd none fd' = some d ↔ conn fd' = some d ∧ d ≠ c := by
    intro fd' d
    rcases eq_or_ne fd' fd with rfl | hne
    · rw [Function.update_self, hfd]
      simp [eq_comm]
    · rw [Function.update_of_ne hne]
      refine (and_iff_left_of_imp fun hd => ?_).symm
      rintro rfl
      exact hne (h.unique _ _ _ hd hfd)
  refine ⟨fun fd' d hd => h.owner fd' d ((hconn fd' d).1 hd).1,
    fun fd₁ fd₂ d h₁ h₂ => h.unique fd₁ fd₂ d ((hconn _ d).1 h₁).1 ((hconn _ d).1 h₂).1,
    fun d hd => ?_, fun d hd => ?_, fun d hd => ?_⟩
  · simp only [hconn]
    rcases eq_or_ne d c with rfl | hne
    · rw [Function.update_self]
      exact iff_of_false (fun ⟨_, _, hd⟩ => hd rfl) (not_not_intro hx)
    · rw [Function.update_of_ne hne, ← h.isOpen d hd]
      exact exists_congr fun fd' => and_iff_left hne
  · rcases eq_or_ne d c with rfl | hne
    · rw [Function.update_self]
      exact hnil
    · rw [Function.update_of_ne hne] at hd ⊢
      exact h.drained d hd
  · have hne : d ≠ c := by
      rintro rfl
      exact absurd (h.owner fd d hfd) (not_lt.2 hd)
    rw [Function.update_of_ne hne]
    exact h.waiting d hd

/-! ## The work that is left -/

/-- The connections to accept, and the reads of all clients. -/
def work (w : World State) : Nat :=
  w.made - w.srv.net.accepted + ∑ c ∈ Finset.range w.made, (w.client c).work 1 1

/-- A pass that is before a call of `accept` or `read`, which its steps are charged to. -/
def charged (s : State) : Nat :=
  match s.pc with
  | .accept | .check _ | .read _ => 1
  | .select | .write _ | .exit _ => 0

/-- One more than the steps of a pass. -/
def passSteps : Nat := 3 * FD_SETSIZE + 3

/-- A bound on the steps that are left to the server. -/
def potential (w : World State) : Nat := w.srv.left + passSteps * (work w - charged w.srv)

/-- The invariant of the server and its clients. -/
structure Serving (w : World State) : Prop where
  counted : Counted w.srv
  echo : Echo w.srv
  connected : Connected w.srv.net.conn w.srv.net.accepted w.client
  backlog : w.srv.net.accepted ≤ w.made
  fresh : ∀ c, w.made ≤ c → w.client c = ⟨[], .sending⟩
  waits : w.srv.pc = .accept → w.srv.net.accepted < w.made
  ready : ∀ fd ∈ w.srv.due, ∃ c, w.srv.net.conn fd = some c ∧ (w.client c).readable
  fetched : ∀ i, w.srv.pc = .write i → 0 ≤ w.srv.n

theorem ready_cases (h : isReady w fd) : fd = w.srv.listenfd ∧ w.srv.net.accepted < w.made ∨
    fd ≠ w.srv.listenfd ∧ ∃ c, w.srv.net.conn fd = some c ∧ (w.client c).readable := by
  unfold isReady at h
  split at h
  · next heq => exact .inl ⟨heq, of_decide_eq_true h⟩
  · next hne =>
    split at h
    · next c hc => exact .inr ⟨hne, c, hc, h⟩
    · cases h

/-- Where a descriptor is ready there is work. -/
theorem Serving.work_pos (h : Serving w) (hfd : isReady w fd) : 0 < work w := by
  unfold work
  rcases ready_cases hfd with ⟨-, hlt⟩ | ⟨-, c, hc, hread⟩
  · omega
  · have hmem : c ∈ Finset.range w.made :=
      Finset.mem_range.2 ((h.connected.owner fd c hc).trans_le h.backlog)
    have hle := Finset.single_le_sum (f := fun d => (w.client d).work 1 1)
      (fun _ _ => Nat.zero_le _) hmem
    have hpos := Client.work_pos hread
    omega

/-- A step within a pass spends, if what it leaves of the work is charged. -/
theorem potential_lt (hleft : w'.srv.left < w.srv.left)
    (hwork : work w' - charged w'.srv ≤ work w - charged w.srv) : potential w' < potential w :=
  Nat.add_lt_add_of_lt_of_le hleft (Nat.mul_le_mul_left _ hwork)

/-! ## The steps of the server -/

theorem echoEnv_of_answers (h : Answers w a) : EchoEnv w.srv a := by
  cases a with
  | select nready rset =>
    obtain ⟨rfl, hne, hcard⟩ := h
    exact ⟨⟨hne, Finset.filter_subset .., hcard⟩, trivial⟩
  | accept connfd => exact ⟨h.2, trivial⟩
  | next => exact ⟨trivial, trivial⟩
  | read r =>
    obtain ⟨c, -, data, rfl, ⟨rfl, -⟩ | ⟨-, -, hle⟩⟩ := h
    · exact ⟨trivial, Nat.zero_le _⟩
    · exact ⟨trivial, hle⟩
  | write k => exact ⟨trivial, h⟩

/-- `select` returns: what it leaves is ready. -/
theorem Serving.select (h : Serving w) (hpc : w.srv.pc = .select) {nready : Int}
    {rset : Finset Int} (hans : Answers w (.select nready rset))
    (hw' : w' = { w with srv := w.srv.selected nready rset }) :
    Serving w' ∧ potential w' < potential w := by
  have henv := echoEnv_of_answers hans
  obtain ⟨hset, hne, rfl⟩ := hans
  have hsub := henv.1.2.1
  have hready : ∀ fd ∈ rset, isReady w fd := fun fd hfd => by
    rw [hset] at hfd
    exact (Finset.mem_filter.1 hfd).2.2
  have hcounted := Counted.selected h.counted.book h.counted.ranged hne hsub
  have hstep : Select.step w.srv (.select rset.card rset) =
      some (w.srv.selected rset.card rset) := by
    rw [Select.step, hpc]
    exact if_neg (not_lt.2 (Int.natCast_nonneg _))
  obtain ⟨hdue, hcharged, hwait, hwrite, hleft⟩ :
      (w.srv.selected rset.card rset).due = readyAfter w.srv.client rset 0 ∧
      charged (w.srv.selected rset.card rset) = 1 ∧
      ((w.srv.selected rset.card rset).pc = .accept → w.srv.listenfd ∈ rset) ∧
      (∀ i, (w.srv.selected rset.card rset).pc ≠ .write i) ∧
      (w.srv.selected rset.card rset).left ≤ 3 * FD_SETSIZE + 2 := by
    unfold State.due charged State.left
    by_cases hmem : w.srv.listenfd ∈ rset
    · rw [selected_accept hmem]
      exact ⟨rfl, rfl, fun _ => hmem, fun _ => Pc.noConfusion, le_rfl⟩
    · rw [selected_check hmem]
      exact ⟨rfl, rfl, fun hacc => (by cases hacc), fun _ => Pc.noConfusion, Nat.le_succ _⟩
  have hserving : Serving { w with srv := w.srv.selected rset.card rset } := by
    refine ⟨hcounted, h.echo.step henv hstep, h.connected, h.backlog, h.fresh, fun hacc => ?_,
      fun fd hfd => ?_, fun i hi => absurd hi (hwrite i)⟩
    · rcases ready_cases (hready _ (hwait hacc)) with ⟨-, hlt⟩ | ⟨hne, -⟩
      · exact hlt
      · exact absurd rfl hne
    · rw [hdue, h.counted.book.mem_ready hsub] at hfd
      rcases ready_cases (hready fd hfd.1) with ⟨heq, -⟩ | ⟨-, hc⟩
      · exact absurd heq hfd.2
      · exact hc
  refine ⟨hw' ▸ hserving, ?_⟩
  obtain ⟨fd, hfd⟩ := hne
  have hpos := h.work_pos (hready fd hfd)
  have hwork : work w' = work w := by
    rw [hw']
    rfl
  have hold : w.srv.left = 0 ∧ charged w.srv = 0 := by
    rw [State.left, charged, hpc]
    exact ⟨rfl, rfl⟩
  unfold potential
  rw [hwork, hold.1, hold.2, hw', hcharged]
  obtain ⟨k, hk⟩ := Nat.exists_eq_add_of_lt hpos
  rw [hk]
  simp only [passSteps, Nat.zero_add, Nat.sub_zero, Nat.add_sub_cancel, Nat.mul_succ]
  omega

/-- A slot is looked at; while something is counted, the pass does not end there. -/
theorem Serving.next (h : Serving w) {i : Nat} (hpc : w.srv.pc = .check i)
    (hw' : w' = { w with srv := w.srv.checkClient i }) :
    Serving w' ∧ potential w' < potential w := by
  have hadv := h.counted.next hpc
  have hstep : Select.step w.srv .next = some (w.srv.checkClient i) := by rw [Select.step, hpc]
  have hnet := checkClient_net w.srv i
  obtain ⟨hnready, hcases⟩ : (w.srv.checkClient i).nready = w.srv.nready ∧
      ((w.srv.checkClient i).pc = .select ∨ (w.srv.checkClient i).pc = .check (i + 1) ∨
        (w.srv.checkClient i).pc = .read i) := by
    unfold State.checkClient
    split
    · exact ⟨rfl, .inl rfl⟩
    · split
      · exact ⟨rfl, .inr (.inl rfl)⟩
      · refine ⟨rfl, .inr ?_⟩
        dsimp only
        split
        · exact .inr rfl
        · exact .inl rfl
  have hpc' : (w.srv.checkClient i).pc ≠ .select := fun hsel => by
    have hcount := hadv.counted.count
    rw [State.due, State.owed, hsel, hnready] at hcount
    exact absurd hcount (h.counted.more i hpc).ne'
  have hdue : (w.srv.checkClient i).due = w.srv.due := hadv.due.symm
  subst hw'
  refine ⟨⟨hadv.counted, h.echo.step (a := .next) ⟨trivial, trivial⟩ hstep, ?_, ?_,
    h.fresh, fun hacc => absurd hacc hadv.notAccept, ?_, fun k hk => ?_⟩,
    potential_lt hadv.left ?_⟩
  · rw [hnet]
    exact h.connected
  · rw [hnet]
    exact h.backlog
  · rw [hnet, hdue]
    exact h.ready
  · rcases hcases with hpc'' | hpc'' | hpc'' <;> cases hk.symm.trans hpc''
  · have hwork : work { w with srv := w.srv.checkClient i } = work w := by
      unfold work
      rw [hnet]
    have hcharged : charged (w.srv.checkClient i) = charged w.srv := by
      rw [charged, charged, hpc]
      rcases hcases with hpc'' | hpc'' | hpc''
      · exact absurd hpc'' hpc'
      · rw [hpc'']
      · rw [hpc'']
    exact (congrArg₂ _ hwork hcharged).le

/-- `accept` returns. -/
theorem Serving.accept (h : Serving w) (hpc : w.srv.pc = .accept) {connfd : Int}
    (hans : Answers w (.accept connfd)) (hw' : w' = { w with srv := w.srv.newClient connfd }) :
    Serving w' ∧ potential w' < potential w := by
  have henv := echoEnv_of_answers hans
  obtain ⟨hlt, h0, -, -, hclosed⟩ := hans
  have hadv := h.counted.accept hpc henv.1
  have hstep : Select.step w.srv (.accept connfd) = some (w.srv.newClient connfd) := by
    rw [Select.step, hpc]
  have hnet : (w.srv.newClient connfd).net = { w.srv.net with
      conn := Function.update w.srv.net.conn connfd (some w.srv.net.accepted)
      accepted := w.srv.net.accepted + 1 } :=
    (newClient_net ..).trans (if_neg (not_lt.2 h0))
  have hwrite : ∀ i, (w.srv.newClient connfd).pc ≠ .write i := fun i hi => by
    unfold State.newClient at hi
    dsimp only at hi
    split at hi
    · cases hi
    · exact countDown_ne_write _ _ _ hi
  have hdue : (w.srv.newClient connfd).due = w.srv.due := hadv.due.symm
  subst hw'
  refine ⟨⟨hadv.counted, h.echo.step henv hstep, ?_, ?_, h.fresh,
    fun hacc => absurd hacc hadv.notAccept, fun fd hfd => ?_, fun i hi => absurd hi (hwrite i)⟩,
    potential_lt hadv.left ?_⟩
  · rw [hnet]
    exact h.connected.accept hclosed
  · rw [hnet]
    exact hlt
  · rw [hdue] at hfd
    obtain ⟨c, hc, hread⟩ := h.ready fd hfd
    have hne : fd ≠ connfd := by
      rintro rfl
      cases hclosed.symm.trans hc
    rw [hnet]
    exact ⟨c, (Function.update_of_ne hne ..).trans hc, hread⟩
  · have hcharged : charged w.srv = 1 := by rw [charged, hpc]
    have hwork : work { w with srv := w.srv.newClient connfd } + 1 = work w := by
      unfold work
      rw [hnet]
      dsimp only
      omega
    omega

/-- `write` has transferred all bytes. -/
theorem Serving.write (h : Serving w) {i : Nat} (hpc : w.srv.pc = .write i) {k : Nat}
    (hans : Answers w (.write k))
    (hw' : w' = { w with srv := (w.srv.reply k).countDown .select (.check (i + 1)) }) :
    Serving w' ∧ potential w' < potential w := by
  have hadv := h.counted.write hpc k
  have hstep : Select.step w.srv (.write k) =
      some ((w.srv.reply k).countDown .select (.check (i + 1))) := by
    rw [Select.step, hpc]
  have hdue : ((w.srv.reply k).countDown .select (.check (i + 1))).due = w.srv.due := hadv.due.symm
  subst hw'
  refine ⟨⟨hadv.counted, h.echo.step (echoEnv_of_answers hans) hstep, h.connected, h.backlog,
    h.fresh, fun hacc => absurd hacc hadv.notAccept, fun fd hfd => h.ready fd (hdue ▸ hfd),
    fun j hj => absurd hj (countDown_ne_write _ _ _)⟩, potential_lt hadv.left ?_⟩
  have hcharged : charged w.srv = 0 := by rw [charged, hpc]
  have hwork : work { w with srv := (w.srv.reply k).countDown .select (.check (i + 1)) } =
    work w := rfl
  omega

/-- A read of the connection of an open descriptor. -/
theorem Connected.took (h : Connected conn accepted client) (hfd : conn fd = some c)
    {data : List Byte} (hbrings : (client c).Brings data) :
    Connected (if data = [] then Function.update conn fd none else conn) accepted
      (Function.update client c ((client c).took data)) := by
  rcases hbrings with ⟨rfl, hnil, -⟩ | ⟨hne, -⟩
  · exact h.close hfd rfl hnil
  · have hside := (h.isOpen c (h.owner fd c hfd)).1 ⟨fd, hfd⟩
    rw [if_neg hne, Client.took, if_neg hne]
    exact h.setClient hside hside

/-- `read` returns: it takes from the client at hand, and the others that are due stay ready. -/
theorem Serving.read (h : Serving w) {i : Nat} (hpc : w.srv.pc = .read i) {r : ReadResult}
    (hans : Answers w (.read r))
    (hw' : w' = { w with
      srv := (w.srv.fetch r).serve i, client := clientsAfter w.client (reads w.srv (.read r)) }) :
    Serving w' ∧ potential w' < potential w := by
  have henv := echoEnv_of_answers hans
  obtain ⟨c, hc, data, rfl, hbrings⟩ := hans
  have hadv := h.counted.read hpc (some data)
  have hstep : Select.step w.srv (.read (some data)) =
      some ((w.srv.fetch (some data)).serve i) := by
    rw [Select.step, hpc]
  have hclient : clientsAfter w.client (reads w.srv (.read (some data))) =
      Function.update w.client c ((w.client c).took data) := by
    rw [reads, hc]
    rfl
  obtain ⟨hn, haccepted, -, hconn⟩ := fetch_serve w.srv data i
  have hdue : w.srv.due = w.srv.sockfd :: ((w.srv.fetch (some data)).serve i).due := hadv.due
  have hslot : i < FD_SETSIZE := by
    have hat := h.counted.atSlot
    rw [AtSlot, hpc] at hat
    exact hat.1
  have hnodup : w.srv.due.Nodup := by
    rw [due_eq hpc]
    exact readyFrom_nodup (by omega) h.counted.book.distinct
  rw [hclient] at hw'
  subst hw'
  refine ⟨⟨hadv.counted, h.echo.step henv hstep, ?_, ?_, fun d hd => ?_,
    fun hacc => absurd hacc hadv.notAccept, fun fd hfd => ?_, fun j _ => ?_⟩,
    potential_lt hadv.left ?_⟩
  · rw [hconn, haccepted]
    exact h.connected.took hc hbrings
  · rw [haccepted]
    exact h.backlog
  · have hne : d ≠ c := by
      have hlt := (h.connected.owner _ c hc).trans_le h.backlog
      rintro rfl
      exact absurd hlt (not_lt.2 hd)
    exact (Function.update_of_ne hne ..).trans (h.fresh d hd)
  · obtain ⟨d, hd, hread⟩ := h.ready fd (hdue ▸ List.mem_cons_of_mem _ hfd)
    have hne : fd ≠ w.srv.sockfd := by
      rintro rfl
      rw [hdue] at hnodup
      exact (List.nodup_cons.1 hnodup).1 hfd
    have hne' : d ≠ c := by
      rintro rfl
      exact hne (h.connected.unique _ _ _ hd hc)
    refine ⟨d, ?_, (congrArg Client.readable (Function.update_of_ne hne' ..)).trans hread⟩
    rw [hconn]
    split
    · exact (Function.update_of_ne hne ..).trans hd
    · exact hd
  · rw [hn]
    exact Int.natCast_nonneg _
  · have hcharged : charged w.srv = 1 := by rw [charged, hpc]
    have hmem : c ∈ Finset.range w.made :=
      Finset.mem_range.2 ((h.connected.owner _ c hc).trans_le h.backlog)
    have hself : (Function.update w.client c ((w.client c).took data) c).work 1 1 + 1 ≤
        (w.client c).work 1 1 := by
      have hle := Client.took_work (b := 1) (e := 1) hbrings
      rwa [ite_self, ← Function.update_self c ((w.client c).took data) w.client] at hle
    have hsum : _ ≤ _ + _ * 0 := sum_spend (f := fun d => (w.client d).work 1 1)
      (g := fun d => (Function.update w.client c ((w.client c).took data) d).work 1 1) hmem hself
      fun d hd => (congrArg (Client.work 1 1) (Function.update_of_ne hd ..)).le
    have hwork : work { w with
        srv := (w.srv.fetch (some data)).serve i
        client := Function.update w.client c ((w.client c).took data) } + 1 ≤ work w := by
      unfold work
      rw [haccepted]
      dsimp only at hsum ⊢
      omega
    omega

/-- **One step of the server** keeps the invariant, and spends. -/
theorem Serving.serve (h : Serving w) (hs : service.stepWorld w (.serve a) = some w') :
    Serving w' ∧ potential w' < potential w := by
  obtain ⟨hans, t, ht, hw'⟩ := serve_inv hs
  obtain ⟨nready, rset, rfl, -, hneg, -⟩ | ⟨nready, rset, rfl, hpc, -, rfl⟩ |
    ⟨_, rfl, hpc, rfl⟩ | ⟨_, rfl, hpc, rfl⟩ | ⟨_, r, rfl, hpc, rfl⟩ |
    ⟨_, k, rfl, hpc, rfl⟩ := step_cases ht
  · rw [hans.2.2] at hneg
    exact absurd (Int.natCast_nonneg _) (not_le.2 hneg)
  · exact h.select hpc hans hw'
  · exact h.accept hpc hans hw'
  · exact h.next hpc hw'
  · exact h.read hpc hans hw'
  · exact h.write hpc hans hw'

/-! ## The steps of the clients -/

/-- A step of a client keeps the invariant and adds its work. -/
theorem Serving.disturb (h : Serving w) {a : Label Act} (ha : a.isServe = false)
    (hs : service.stepWorld w a = some w') :
    Serving w' ∧ potential w' ≤ potential w + passSteps * a.work 1 1 1 := by
  have hle : ∀ {m n k : Nat}, m ≤ n + k → passSteps * (m - charged w.srv) ≤
      passSteps * (n - charged w.srv) + passSteps * k := fun hmn => by
    rw [← Nat.mul_add]
    exact Nat.mul_le_mul_left _ (by omega)
  obtain ⟨rfl, rfl⟩ | ⟨c, x, hc, hside, hx, hread, hwork, rfl⟩ := client_cases ha hs
  · have hback := h.backlog
    refine ⟨⟨h.counted, h.echo, h.connected, hback.trans (Nat.le_succ _),
      fun c hc => h.fresh c (Nat.le_of_succ_le hc), fun hacc => (h.waits hacc).trans
      (Nat.lt_succ_self _), h.ready, h.fetched⟩, ?_⟩
    have hnew : (w.client w.made).work 1 1 = 0 := by
      rw [h.fresh w.made le_rfl]
      rfl
    refine (Nat.add_le_add_left (hle ?_) _).trans (Nat.add_assoc ..).ge
    unfold work
    rw [Finset.sum_range_succ, hnew, Label.work]
    dsimp only
    omega
  · have hopen : (w.client c).side ≠ .ended := by
      rw [hside]
      exact Side.noConfusion
    refine ⟨⟨h.counted, h.echo, h.connected.setClient hopen hx, h.backlog,
      fun d hd => ?_, h.waits, fun fd hfd => ?_, h.fetched⟩, ?_⟩
    · have hne : d ≠ c := by
        rintro rfl
        exact absurd hc (not_lt.2 hd)
      exact (Function.update_of_ne hne ..).trans (h.fresh d hd)
    · obtain ⟨d, hd, hready⟩ := h.ready fd hfd
      refine ⟨d, hd, ?_⟩
      rcases eq_or_ne d c with rfl | hne
      · exact (congrArg Client.readable (Function.update_self ..)).trans (hread hready)
      · exact (congrArg Client.readable (Function.update_of_ne hne ..)).trans hready
    · have hsum := sum_gain (f := fun d => (w.client d).work 1 1)
        (g := fun d => (Function.update w.client c x d).work 1 1) (Finset.mem_range.2 hc)
        ((congrArg (Client.work 1 1) (Function.update_self ..)).trans (hwork 1 1 1)).le
        fun d hd => congrArg (Client.work 1 1) (Function.update_of_ne hd ..)
      refine (Nat.add_le_add_left (hle ?_) _).trans (Nat.add_assoc ..).ge
      unfold work
      dsimp only at hsum ⊢
      omega

theorem Serving.step {a : Label Act} (h : Serving w) (hs : service.stepWorld w a = some w') :
    Serving w' := by
  cases ha : a.isServe with
  | true =>
    cases a with
    | serve => exact (h.serve hs).1
    | connect | send | hangUp => cases ha
  | false => exact (h.disturb ha hs).1

theorem Serving.init (listenfd : Int) (buf : Mem Byte) :
    Serving (Service.start (.init listenfd buf)) where
  counted :=
    ⟨fun _ => Pc.noConfusion, .init listenfd buf, trivial,
      fun i fd hi => absurd hi (not_slot_empty i fd), rfl, fun _ => Pc.noConfusion,
      Pc.noConfusion, fun _ => Pc.noConfusion⟩
  echo _ := rfl
  connected :=
    ⟨fun _ _ hc => (by cases hc), fun _ _ _ hc => (by cases hc),
      fun c hc => absurd hc (Nat.not_lt_zero c), fun _ => Side.noConfusion,
      fun _ _ => Side.noConfusion⟩
  backlog := le_rfl
  fresh _ _ := rfl
  waits := Pc.noConfusion
  ready _ hfd := absurd hfd List.not_mem_nil
  fetched _ := Pc.noConfusion

/-! ## Room -/

/-- Connections that were open are all that are. -/
theorem connections_le (hmade : w'.made = w.made)
    (hside : ∀ c, (w.client c).side = .ended → (w'.client c).side = .ended) :
    connections w' ≤ connections w := by
  unfold connections
  rw [hmade]
  refine Finset.card_le_card fun c hc => ?_
  obtain ⟨hlt, hc⟩ := Finset.mem_filter.1 hc
  exact Finset.mem_filter.2 ⟨hlt, mt (hside c) hc⟩

/-- A step keeps the room for the connections, if a client connects only where there is some. -/
theorem connections_step {a : Label Act} (h : connections w + 4 ≤ FD_SETSIZE) (ha : Roomy w a)
    (hs : service.stepWorld w a = some w') : connections w' + 4 ≤ FD_SETSIZE := by
  have hkept : connections w' ≤ connections w → connections w' + 4 ≤ FD_SETSIZE := fun hle =>
    (Nat.add_le_add_right hle 4).trans h
  cases hserve : a.isServe with
  | true =>
    cases a with
    | serve a =>
      obtain ⟨-, s, -, rfl⟩ := serve_inv hs
      refine hkept (connections_le rfl fun c hc => ?_)
      dsimp only
      cases hread : service.reads w.srv a with
      | none => exact hc
      | some r =>
        obtain ⟨d, data⟩ := r
        rcases eq_or_ne c d with rfl | hne
        · rw [clientsAfter_self, Client.took]
          split
          · rfl
          · exact hc
        · rwa [clientsAfter_of_ne _ _ hne]
    | connect | send | hangUp => cases hserve
  | false =>
    obtain ⟨rfl, rfl⟩ | ⟨c, x, -, hside, -, -, -, rfl⟩ := client_cases hserve hs
    · have hle : connections { w with made := w.made + 1 } ≤ connections w + 1 := by
        unfold connections
        rw [Finset.range_add_one, Finset.filter_insert]
        split
        · exact Finset.card_insert_le ..
        · exact Nat.le_succ _
      have hlt : connections w + 4 < FD_SETSIZE := ha
      omega
    · refine hkept (connections_le rfl fun d hd => ?_)
      have hne : d ≠ c := by
        rintro rfl
        cases hd.symm.trans hside
      exact (congrArg Client.side (Function.update_of_ne hne ..)).trans hd

/-- While a connection waits for `accept`, there is a descriptor for it. -/
theorem Serving.exists_free (h : Serving w) (hroom : connections w + 4 ≤ FD_SETSIZE)
    (hlt : w.srv.net.accepted < w.made) : ∃ connfd, Env w.srv (.accept connfd) := by
  by_contra hnone
  have hopen : ∀ n ∈ (Finset.range FD_SETSIZE).erase w.srv.listenfd.toNat,
      ∃ c, w.srv.net.conn (n : Int) = some c := by
    intro n hn
    obtain ⟨hne, hn⟩ := Finset.mem_erase.1 hn
    have hlt := Int.ofNat_lt.2 (Finset.mem_range.1 hn)
    refine Option.ne_none_iff_exists'.1 fun hfree =>
      hnone ⟨n, Int.natCast_nonneg n, hlt, fun he => hne ?_, hfree⟩
    rw [← he, Int.toNat_natCast]
  -- Each of these descriptors has a connection of its own.
  have hle : ((Finset.range FD_SETSIZE).erase w.srv.listenfd.toNat).card ≤ connections w := by
    refine Finset.card_le_card_of_injOn (fun n => (w.srv.net.conn (n : Int)).getD 0)
      (fun n hn => ?_) fun m hm n hn he => ?_
    · obtain ⟨c, hc⟩ := hopen n hn
      have howner := h.connected.owner n c hc
      simp only [hc, Option.getD_some]
      exact Finset.mem_filter.2 ⟨Finset.mem_range.2 (howner.trans hlt),
        (h.connected.isOpen c howner).1 ⟨n, hc⟩⟩
    · obtain ⟨c, hc⟩ := hopen m hm
      obtain ⟨d, hd⟩ := hopen n hn
      simp only [hc, hd, Option.getD_some] at he
      exact Int.ofNat_inj.1 (h.connected.unique m n c hc (he ▸ hd))
  have hcard := Finset.pred_card_le_card_erase (s := Finset.range FD_SETSIZE)
    (a := w.srv.listenfd.toNat)
  rw [Finset.card_range] at hcard
  omega

/-! ## Rest -/

/-- What `select` would leave is ready and watched. -/
theorem Serving.mem_readySet (h : Serving w) (hready : isReady w fd) : fd ∈ (readySet w) := by
  have hwatched : fd ∈ w.srv.allset := by
    rcases ready_cases hready with ⟨rfl, -⟩ | ⟨-, c, hc, -⟩
    · exact (h.counted.book.watched _).2 (.inl rfl)
    · exact (h.counted.book.watched _).2 (.inr ((h.counted.book.isOpen _).2 ⟨c, hc⟩))
  have hbelow : fd < w.srv.maxfd + 1 := Int.lt_add_one_of_le (h.counted.book.maxfd _ hwatched)
  exact Finset.mem_filter.2 ⟨hwatched, hbelow, hready⟩

/-- The descriptor at hand is one of those that are due. -/
theorem Serving.sockfd_due (h : Serving w) {i : Nat} (hpc : w.srv.pc = .read i) :
    w.srv.sockfd ∈ w.srv.due := by
  have hslot : Slot w.srv.client i w.srv.sockfd := by
    have hat := h.counted.atSlot
    rwa [AtSlot, hpc] at hat
  rw [due_eq hpc]
  exact (mem_readyAfter hslot.1.le).2 ⟨h.counted.ready i hpc, i, le_rfl, hslot⟩

/-- Where the server waits in `select` and can go no further, all is accepted, read and closed. -/
theorem Serving.idle (h : Serving w) (hnone : (readySet w) = ∅) : w.srv.net.accepted = w.made ∧
    ∀ c < w.made, (w.client c).inbox = [] ∧ (w.client c).side ≠ .hungUp := by
  have hnot : ∀ fd, ¬ isReady w fd := fun fd hfd => by
    have hmem := h.mem_readySet hfd
    rw [hnone] at hmem
    exact absurd hmem (Finset.notMem_empty fd)
  have haccepted : w.srv.net.accepted = w.made := by
    refine le_antisymm h.backlog (not_lt.1 fun hlt => hnot w.srv.listenfd ?_)
    rw [isReady, if_pos rfl]
    exact decide_eq_true hlt
  have hquiet : ∀ c < w.made, (w.client c).side ≠ .ended → ¬ (w.client c).readable := by
    intro c hc hside hread
    obtain ⟨fd, hfd⟩ := (h.connected.isOpen c (haccepted ▸ hc)).2 hside
    refine hnot fd ?_
    obtain ⟨i, hi⟩ := (h.counted.book.isOpen fd).2 ⟨c, hfd⟩
    have hne : fd ≠ w.srv.listenfd := by
      rintro rfl
      exact h.counted.book.notListen i hi
    rw [isReady, if_neg hne, hfd]
    exact hread
  refine ⟨haccepted, fun c hc => ?_⟩
  by_cases hside : (w.client c).side = .ended
  · refine ⟨h.connected.drained c hside, ?_⟩
    rw [hside]
    exact Side.noConfusion
  · have hno := hquiet c hc hside
    rw [Client.readable, Bool.or_eq_true, not_or, Bool.not_eq_true', List.isEmpty_eq_false_iff,
      not_not, beq_iff_eq] at hno
    exact hno

/-- The server can go no further just where it is at rest. -/
theorem Serving.settled_iff (h : Serving w) (hroom : connections w + 4 ≤ FD_SETSIZE) :
    (∀ a : Label Act, a.isServe = true → machine.step w a = none) ↔ AtRest w := by
  refine settled_iff_stuck.trans ⟨fun hstuck => ?_, fun hrest a hans => ?_⟩
  · have hstuck : ∀ a, Answers w a → Select.step w.srv a = none := hstuck
    cases hpc : w.srv.pc with
    | select =>
      have hempty : readySet w = ∅ := by
        by_contra hne
        have hnone := hstuck (.select (readySet w).card (readySet w))
          ⟨rfl, Finset.nonempty_iff_ne_empty.2 hne, rfl⟩
        simp only [Select.step, hpc, if_neg (not_lt.2 (Int.natCast_nonneg _))] at hnone
        cases hnone
      obtain ⟨haccepted, hidle⟩ := h.idle hempty
      exact ⟨hpc, haccepted, hidle⟩
    | accept =>
      obtain ⟨connfd, henv⟩ := h.exists_free hroom (h.waits hpc)
      have hnone := hstuck (.accept connfd) ⟨h.waits hpc, henv⟩
      rw [Select.step, hpc] at hnone
      cases hnone
    | check i =>
      have hnone := hstuck .next trivial
      rw [Select.step, hpc] at hnone
      cases hnone
    | read i =>
      obtain ⟨c, hc, hread⟩ := h.ready _ (h.sockfd_due hpc)
      obtain ⟨data, hbrings⟩ := Client.exists_brings hread
      have hnone := hstuck (.read (some data)) ⟨c, hc, data, rfl, hbrings⟩
      rw [Select.step, hpc] at hnone
      cases hnone
    | write i =>
      have hnone := hstuck (.write w.srv.n.toNat) (Int.toNat_of_nonneg (h.fetched i hpc))
      rw [Select.step, hpc] at hnone
      cases hnone
    | exit status => exact absurd hpc (h.counted.running status)
  · show Select.step w.srv a = none
    obtain ⟨hpc, haccepted, hidle⟩ := hrest
    cases a with
    | select nready rset =>
      obtain ⟨rfl, ⟨fd, hfd⟩, -⟩ := hans
      rcases ready_cases (Finset.mem_filter.1 hfd).2.2 with ⟨-, hlt⟩ | ⟨-, c, hc, hread⟩
      · exact absurd haccepted hlt.ne
      · obtain ⟨hnil, hside⟩ := hidle c (haccepted ▸ h.connected.owner fd c hc)
        rcases Client.readable_iff.1 hread with hne | hhung
        · exact absurd hnil hne
        · exact absurd hhung hside
    | accept | next | read | write => rw [Select.step, hpc]

/-- **The server comes to rest**, where no system call fails, a `write` transfers all bytes and the
clients leave room for a descriptor below `FD_SETSIZE`. In every run its steps are bounded by what
the clients have done: a pass for each connection, each byte and each end. When the clients stop,
the server comes to rest within what is left of the bound, and it can go no further just where it is
at rest. -/
theorem serverRests (hr : machine.Run Roomy (Service.start (.init listenfd buf)) as w) :
    (∀ bs t, machine.Run (fun _ a => a.isServe = true) w bs t →
      as.countP Label.isServe + bs.length ≤ passSteps * (as.map (Label.work 1 1 1)).sum) ∧
    (∃ bs t, machine.Run (fun _ a => a.isServe = true) w bs t ∧ AtRest t) ∧
    ((∀ a : Label Act, a.isServe = true → machine.step w a = none) ↔ AtRest w) := by
  have hnone : connections (Service.start (.init listenfd buf)) = 0 := rfl
  have hinit : Serving (Service.start (.init listenfd buf)) ∧
      connections (Service.start (.init listenfd buf)) + 4 ≤ FD_SETSIZE :=
    ⟨.init listenfd buf, by rw [hnone]; decide⟩
  have hroomy : ∀ w (a : Label Act), Roomy w a ∨ a.isServe = true → Roomy w a := by
    intro u a ha
    refine ha.elim id fun ha => ?_
    cases a with
    | serve => trivial
    | connect | send | hangUp => cases ha
  have hspend : ∀ w a w', Serving w → a.isServe = true → machine.step w a = some w' →
      potential w' < potential w := by
    intro u a u' h ha hs
    cases a with
    | serve => exact (h.serve hs).2
    | connect | send | hangUp => cases ha
  have hstep : ∀ w (a : Label Act) w', Serving w ∧ connections w + 4 ≤ FD_SETSIZE →
      Roomy w a ∨ a.isServe = true → machine.step w a = some w' →
      Serving w' ∧ connections w' + 4 ≤ FD_SETSIZE := fun _ _ _ h ha hs =>
    ⟨h.1.step hs, connections_step h.2 (hroomy _ _ ha) hs⟩
  obtain ⟨hserving, hroom⟩ := hr.invariant hinit fun _ _ _ h ha => hstep _ _ _ h (.inl ha)
  obtain ⟨hbound, bs, t, hown, ⟨hserving', hroom'⟩, hset⟩ := hr.settles hinit hstep
    (fun _ _ _ h => hspend _ _ _ h.1) fun _ _ _ h _ ha hs => (h.1.disturb ha hs).2
  have hzero : potential (Service.start (.init listenfd buf)) = 0 := rfl
  rw [hzero, Nat.zero_add, List.sum_map_mul_left] at hbound
  exact ⟨hbound, ⟨bs, t, hown, (hserving'.settled_iff hroom').1 hset⟩, hserving.settled_iff hroom⟩

end

/-- A client sends `ab` and is accepted, and hangs up while another one connects. -/
def twoClients : List (Label Act) :=
  [.connect, .send 0 [97, 98], .serve (.select 1 {3}), .serve (.accept 4), .connect, .hangUp 0]

theorem twoClients_serverRests : ∃ w bs t,
    machine.Run Roomy (Service.start (.init 3 fun _ => 0)) twoClients w ∧
      machine.Run (fun _ a => a.isServe = true) w bs t ∧ AtRest t ∧ 2 + bs.length ≤ 15375 := by
  have hrun : (machine.runChecked (fun w a => decide (Roomy w a))
      (Service.start (.init 3 fun _ => 0)) twoClients).isSome := by
    decide +kernel
  obtain ⟨w, hw⟩ := Option.isSome_iff_exists.1 hrun
  have hr : machine.Run Roomy (Service.start (.init 3 fun _ => 0)) twoClients w := .of_decided hw
  obtain ⟨hbound, ⟨bs, t, hown, hrest⟩, -⟩ := serverRests hr
  exact ⟨w, bs, t, hr, hown, hrest, hbound bs t hown⟩

section
variable {w w' : World State} {a : Act} {listenfd : Int} {buf : Mem Byte} {as : List (Label Act)}

/-! ## What the clients get -/

/-- **Every client gets what it has sent, in upper case**, where no system call fails and a `write`
transfers all bytes. At every moment what a client has sent is what it has got back, what is being
written to it and what has not been read. Where the server is at rest it has all been got back, and
the server has a descriptor for a connection just when its client has not hung up. -/
theorem answered {C : World State → Label Act → Prop}
    (hr : machine.Run C (Service.start (.init listenfd buf)) as w) :
    (∀ c, w.srv.net.sent c ++ w.srv.pending c ++ (w.client c).inbox.map toupper =
      (sentOn c as).map toupper) ∧
    (AtRest w → ∀ c < w.made, w.srv.net.sent c = (sentOn c as).map toupper ∧
        ((∃ fd, w.srv.net.conn fd = some c) ↔ .hangUp c ∉ as)) := by
  have h : Serving w := hr.invariant (.init listenfd buf) fun _ _ _ h _ => h.step
  have hstream : ∀ c, w.stream service c = sentOn c as ∧
      ((w.client c).side = .sending ↔ .hangUp c ∉ as) :=
    service.run_stream ⟨listenfd, buf, rfl⟩ hr
  have hall : ∀ c, w.srv.net.sent c ++ w.srv.pending c ++ (w.client c).inbox.map toupper =
      (sentOn c as).map toupper := fun c => by
    rw [h.echo c, ← List.map_append, ← (hstream c).1]
    rfl
  refine ⟨hall, fun hrest c hc => ?_⟩
  obtain ⟨hpc, haccepted, hidle⟩ := hrest
  obtain ⟨hnil, hside⟩ := hidle c hc
  have hpending : w.srv.pending c = [] := pending_of_pc (by simp [hpc]) c
  have hgot := hall c
  rw [hpending, hnil, List.map_nil, List.append_nil, List.append_nil] at hgot
  refine ⟨hgot, ?_⟩
  rw [h.connected.isOpen c (haccepted ▸ hc), ← (hstream c).2]
  cases hs : (w.client c).side with
  | sending => simp
  | hungUp => exact absurd hs hside
  | ended => simp

end

/-- The first of two clients is answered and hangs up, and is closed. -/
def answerAndClose : List (Label Act) :=
  [.connect, .send 0 [97, 98], .serve (.select 1 {3}), .serve (.accept 4), .connect,
    .serve (.select 2 {3, 4}), .serve (.accept 5), .serve .next, .serve (.read (some [97, 98])),
    .serve (.write 2), .hangUp 0, .serve (.select 1 {4}), .serve .next, .serve (.read (some []))]

theorem answerAndClose_answered : ∃ w,
    machine.Run Machine.anyStep (Service.start (.init 3 fun _ => 0)) answerAndClose w ∧ AtRest w ∧
      w.srv.net.sent 0 = [65, 66] ∧ (¬ ∃ fd, w.srv.net.conn fd = some 0) ∧
      ∃ fd, w.srv.net.conn fd = some 1 := by
  have hrun : (machine.runFrom (Service.start (.init 3 fun _ => 0)) answerAndClose).map (fun w =>
      (w.srv.pc, w.srv.net.accepted, w.made, w.client 0, w.client 1)) =
      some (.select, 2, 2, ⟨[], .ended⟩, ⟨[], .sending⟩) := by
    decide +kernel
  obtain ⟨w, hw, hend⟩ := Option.map_eq_some_iff.1 hrun
  simp only [Prod.mk.injEq] at hend
  obtain ⟨hpc, haccepted, hmade, hfirst, hsecond⟩ := hend
  have hr : machine.Run Machine.anyStep (Service.start (.init 3 fun _ => 0)) answerAndClose w :=
    .of_runFrom (fun _ _ _ => trivial) hw
  have hrest : AtRest w := by
    refine ⟨hpc, haccepted.trans hmade.symm, fun c hc => ?_⟩
    rw [hmade] at hc
    obtain rfl | rfl : c = 0 ∨ c = 1 := by omega
    · rw [hfirst]
      exact ⟨rfl, Side.noConfusion⟩
    · rw [hsecond]
      exact ⟨rfl, Side.noConfusion⟩
  obtain ⟨-, hanswered⟩ := answered hr
  obtain ⟨hsent, hopen⟩ := hanswered hrest 0 (by omega)
  obtain ⟨-, hopen'⟩ := hanswered hrest 1 (by omega)
  exact ⟨w, hr, hrest, hsent, fun hex => hopen.1 hex (by simp [answerAndClose]),
    hopen'.2 (by simp [answerAndClose])⟩

end LinuxTraining.IoModels.Select.Clients
