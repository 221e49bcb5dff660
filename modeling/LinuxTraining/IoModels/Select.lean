import LinuxTraining.IoModels.Upper
import LinuxTraining.Lib.Machine
import Mathlib.Data.Finset.Card
import Mathlib.Data.Finset.Insert

/-!
# `select-model.c`: one process, many connections

A label is one system call with its result, or a step of the client loop between two of them. The
server keeps its connections in four places: `client[]`, `allset`, `maxi` and `maxfd`. The kernel's
side is `Net`: which connection each open descriptor is, and what has been read from and written to
each connection. `Bookkeeping` is what the four places and the open descriptors say of each other,
and `bookkeeping_of_reach` that they agree at every head of the main loop.
-/

namespace LinuxTraining.IoModels.Select

open Lib

/-- `FD_SETSIZE`. -/
def FD_SETSIZE : Nat := 1024

/-! ## The kernel's side -/

/-- The connection of each open descriptor, the number of connections accepted so far, and the
bytes read from and written to each of them. -/
structure Net where
  conn : Int → Option Nat
  accepted : Nat
  received : Nat → List Byte
  sent : Nat → List Byte

/-- `accept` gives the descriptor `fd` to the next connection, if it does not fail. -/
def Net.accept (net : Net) (fd : Int) : Net :=
  if fd < 0 then net
  else
    { net with
      conn := Function.update net.conn fd (some net.accepted), accepted := net.accepted + 1 }

/-- `accept` passes no bytes. -/
theorem Net.accept_logs (net : Net) (fd : Int) :
    (net.accept fd).received = net.received ∧ (net.accept fd).sent = net.sent := by
  unfold Net.accept
  split <;> exact ⟨rfl, rfl⟩

/-- `close`. -/
def Net.close (net : Net) (fd : Int) : Net := { net with conn := Function.update net.conn fd none }

/-- Bytes added to the log of the connection that is open on a descriptor. -/
def logTo (log : Nat → List Byte) (c : Option Nat) (data : List Byte) : Nat → List Byte :=
  match c with
  | some c => Function.update log c (log c ++ data)
  | none => log

/-- `read` takes `data` from the connection of `fd`. -/
def Net.read (net : Net) (fd : Int) (data : List Byte) : Net :=
  { net with received := logTo net.received (net.conn fd) data }

/-- `write` passes `data` to the connection of `fd`. -/
def Net.write (net : Net) (fd : Int) (data : List Byte) : Net :=
  { net with sent := logTo net.sent (net.conn fd) data }

/-! ## The server -/

/-- Where the server is. -/
inductive Pc
  /-- The head of the main loop, before `select`. -/
  | select
  | accept
  /-- The client loop at index `i`. -/
  | check (i : Nat)
  | read (i : Nat)
  | write (i : Nat)
  | exit (status : Int)
  deriving DecidableEq

/-- The variables of `main`. -/
structure State where
  listenfd : Int
  client : Nat → Int
  allset : Finset Int
  rset : Finset Int
  maxi : Int
  maxfd : Int
  nready : Int
  sockfd : Int
  n : Int
  buf : Mem Byte
  pc : Pc
  net : Net

/-- One step: a system call and what the environment answers, or the next index of the loop.
`write` says how many of its bytes it transfers. -/
inductive Act
  | select (nready : Int) (rset : Finset Int)
  | accept (connfd : Int)
  | next
  | read (r : ReadResult)
  | write (k : Nat)

/-- `for (i = 0; i < FD_SETSIZE; i++) if (client[i] < 0) break;` from `i` on, with `k` rounds to
go: the index it ends at. -/
def freeSlot (client : Nat → Int) (i : Nat) : Nat → Nat
  | 0 => i
  | k + 1 => if client i < 0 then i else freeSlot client (i + 1) k

/-- `if (--nready == 0)`: the next program point is `done`, or else `more`. -/
def State.countDown (s : State) (done more : Pc) : State :=
  { s with nready := s.nready - 1, pc := if s.nready - 1 = 0 then done else more }

/-- A new client connection on `connfd`. -/
def State.newClient (s : State) (connfd : Int) : State :=
  let i := freeSlot s.client 0 FD_SETSIZE
  let s := { s with net := s.net.accept connfd }
  if i = FD_SETSIZE then { s with pc := .exit 1 }
  else
    { s with
      client := Function.update s.client i connfd
      allset := insert connfd s.allset
      maxfd := if s.maxfd < connfd then connfd else s.maxfd
      maxi := if s.maxi < i then i else s.maxi }.countDown .select (.check 0)

/-- The client loop at index `i`. -/
def State.checkClient (s : State) (i : Nat) : State :=
  if s.maxi < i then { s with pc := .select }
  else if s.client i < 0 then { s with sockfd := s.client i, pc := .check (i + 1) }
  else
    { s with sockfd := s.client i,
             pc := if s.client i ∈ s.rset then .read i else .check (i + 1) }

/-- `close(sockfd); FD_CLR(sockfd, &allset); client[i] = -1;`. -/
def State.closeClient (s : State) (i : Nat) : State :=
  { s with
    net := s.net.close s.sockfd
    allset := s.allset.erase s.sockfd
    client := Function.update s.client i (-1) }

/-- `n = read(sockfd, buf, MAXLINE)`. -/
def State.fetch (s : State) (r : ReadResult) : State :=
  { s with n := r.ret, buf := r.fill s.buf, net := s.net.read s.sockfd (r.getD []) }

/-- What the server does with what it has read. -/
def State.serve (s : State) (i : Nat) : State :=
  if s.n = 0 then (s.closeClient i).countDown .select (.check (i + 1))
  else { s with buf := upper s.buf s.n, pc := .write i }

/-- `write(sockfd, buf, n)` that transfers `k` bytes. -/
def State.reply (s : State) (k : Nat) : State :=
  { s with net := s.net.write s.sockfd (s.buf.slice 0 k) }

/-- One step of the server. -/
def step (s : State) : Act → Option State
  | .select nready rset =>
    match s.pc with
    | .select =>
      if nready < 0 then some { s with nready := nready, pc := .exit (-1) }
      else
        some { s with nready := nready, rset := rset,
                      pc := if s.listenfd ∈ rset then .accept else .check 0 }
    | _ => none
  | .accept connfd =>
    match s.pc with
    | .accept => some (s.newClient connfd)
    | _ => none
  | .next =>
    match s.pc with
    | .check i => some (s.checkClient i)
    | _ => none
  | .read r =>
    match s.pc with
    | .read i => some ((s.fetch r).serve i)
    | _ => none
  | .write k =>
    match s.pc with
    | .write i => some ((s.reply k).countDown .select (.check (i + 1)))
    | _ => none

/-- The state before the main loop; nothing is connected, and the buffer holds anything. -/
def State.init (listenfd : Int) (buf : Mem Byte) : State where
  listenfd := listenfd
  client _ := -1
  allset := {listenfd}
  rset := ∅
  maxi := -1
  maxfd := listenfd
  nready := 0
  sockfd := -1
  n := 0
  buf := buf
  pc := .select
  net := ⟨fun _ => none, 0, fun _ => [], fun _ => []⟩

/-- The server, for every descriptor that `socket` may have given. -/
def machine : Machine State Act where
  init s := ∃ listenfd buf, s = .init listenfd buf
  step := step

/-- What the environment does: `select` returns a non-empty subset of the watched set and its
size, and `accept` a descriptor in range that is not open. -/
def Env (s : State) : Act → Prop
  | .select nready rset => rset.Nonempty ∧ rset ⊆ s.allset ∧ nready = rset.card
  | .accept connfd => 0 ≤ connfd ∧ connfd < FD_SETSIZE ∧ connfd ≠ s.listenfd ∧
      s.net.conn connfd = none
  | .next | .read _ | .write _ => True

/-! ## The bookkeeping -/

/-- `client[i]` holds the descriptor `fd`. -/
def Slot (client : Nat → Int) (i : Nat) (fd : Int) : Prop :=
  i < FD_SETSIZE ∧ 0 ≤ fd ∧ client i = fd

/-- `client[]`, `allset`, `maxi`, `maxfd` and the open descriptors agree. -/
structure Bookkeeping (s : State) : Prop where
  watched : ∀ fd, fd ∈ s.allset ↔ fd = s.listenfd ∨ ∃ i, Slot s.client i fd
  distinct : ∀ i j fd, Slot s.client i fd → Slot s.client j fd → i = j
  notListen : ∀ i, ¬ Slot s.client i s.listenfd
  maxi : ∀ i fd, Slot s.client i fd → (i : Int) ≤ s.maxi
  maxfd : ∀ fd ∈ s.allset, fd ≤ s.maxfd
  inRange : s.maxi < FD_SETSIZE
  isOpen : ∀ fd, (∃ i, Slot s.client i fd) ↔ ∃ c, s.net.conn fd = some c

/-- While a client is served, `sockfd` is its descriptor. -/
def AtSlot (s : State) : Prop :=
  match s.pc with
  | .read i | .write i => Slot s.client i s.sockfd
  | _ => True

/-- The invariant of the server while it runs. -/
def Inv (s : State) : Prop := (∀ status, s.pc ≠ .exit status) → Bookkeeping s ∧ AtSlot s

section
variable {s s' : State} {client : Nat → Int} {i : Nat} {fd : Int}

theorem freeSlot_le (client : Nat → Int) (i k : Nat) : freeSlot client i k ≤ i + k := by
  induction k generalizing i with
  | zero => exact Nat.le_refl i
  | succ k ih =>
    rw [freeSlot]
    split
    · omega
    · have := ih (i + 1)
      omega

/-- A loop that ends early ends at a free slot. -/
theorem freeSlot_free {i k : Nat} (h : freeSlot client i k < i + k) :
    client (freeSlot client i k) < 0 := by
  induction k generalizing i with
  | zero => simp [freeSlot] at h
  | succ k ih =>
    rw [freeSlot] at h ⊢
    split
    · assumption
    · next hc =>
      rw [if_neg hc] at h
      exact ih (by omega)

/-- A free slot that is given to a descriptor is the only one that changes. -/
theorem slot_give {k : Nat} (hk : k < FD_SETSIZE) (hfree : client k < 0) (hfd : 0 ≤ fd) (i : Nat)
    (x : Int) : Slot (Function.update client k fd) i x ↔ Slot client i x ∨ i = k ∧ x = fd := by
  unfold Slot
  rcases eq_or_ne i k with rfl | hne
  · simp only [Function.update_self, true_and]
    constructor
    · rintro ⟨-, -, rfl⟩
      exact .inr rfl
    · rintro (⟨-, hpos, he⟩ | rfl)
      · omega
      · exact ⟨hk, hfd, rfl⟩
  · simp [hne]

/-- A slot that is given up is the only one that changes. -/
theorem slot_clear (client : Nat → Int) (k i : Nat) (x : Int) :
    Slot (Function.update client k (-1)) i x ↔ Slot client i x ∧ i ≠ k := by
  unfold Slot
  rcases eq_or_ne i k with rfl | hne
  · simp only [Function.update_self]
    omega
  · simp [hne]

theorem not_slot_empty (i : Nat) (x : Int) : ¬ Slot (fun _ => -1) i x := by
  rintro ⟨-, hpos, he⟩
  change (-1 : Int) = x at he
  omega

/-- The bookkeeping does not read where the server is, its buffer or the counters. -/
theorem Bookkeeping.of_eq (h : Bookkeeping s) (hl : s'.listenfd = s.listenfd)
    (hc : s'.client = s.client) (ha : s'.allset = s.allset) (hi : s'.maxi = s.maxi)
    (hf : s'.maxfd = s.maxfd) (hn : s'.net.conn = s.net.conn) : Bookkeeping s' := by
  obtain ⟨h1, h2, h3, h4, h5, h6, h7⟩ := h
  constructor
  all_goals
    simp only [hl, hc, ha, hi, hf, hn]
    assumption

/-- The bookkeeping before the main loop. -/
theorem Bookkeeping.init (listenfd : Int) (buf : Mem Byte) :
    Bookkeeping (.init listenfd buf) := by
  unfold State.init
  constructor
  · intro fd
    simp [not_slot_empty]
  · intro i j fd hi
    exact absurd hi (not_slot_empty i fd)
  · intro i
    exact not_slot_empty i _
  · intro i fd hi
    exact absurd hi (not_slot_empty i fd)
  · intro fd hfd
    exact (Finset.mem_singleton.1 hfd).le
  · show (-1 : Int) < FD_SETSIZE
    simp [FD_SETSIZE]
  · intro fd
    simp [not_slot_empty]

theorem Bookkeeping.countDown (h : Bookkeeping s) (done more : Pc) :
    Bookkeeping (s.countDown done more) :=
  h.of_eq rfl rfl rfl rfl rfl rfl

/-- A descriptor that is not open is in no slot. -/
theorem Bookkeeping.not_slot (h : Bookkeeping s) (hclosed : s.net.conn fd = none) (i : Nat) :
    ¬ Slot s.client i fd := by
  intro hi
  obtain ⟨c, hc⟩ := (h.isOpen fd).1 ⟨i, hi⟩
  rw [hclosed] at hc
  cases hc

/-- A new connection gets a free slot, a place in the set, and the bounds that cover them. -/
theorem Bookkeeping.newClient (h : Bookkeeping s) (hfd : 0 ≤ fd)
    (hlisten : fd ≠ s.listenfd) (hclosed : s.net.conn fd = none)
    (hslot : freeSlot s.client 0 FD_SETSIZE ≠ FD_SETSIZE) : Bookkeeping (s.newClient fd) := by
  have hle : freeSlot s.client 0 FD_SETSIZE ≤ 0 + FD_SETSIZE := freeSlot_le ..
  have hfree : s.client (freeSlot s.client 0 FD_SETSIZE) < 0 := freeSlot_free (by omega)
  unfold State.newClient
  dsimp only
  rw [if_neg hslot]
  refine Bookkeeping.countDown ?_ _ _
  generalize freeSlot s.client 0 FD_SETSIZE = k at *
  have hnew := h.not_slot hclosed
  have hgive : ∀ i x, Slot (Function.update s.client k fd) i x ↔
      Slot s.client i x ∨ i = k ∧ x = fd := slot_give (by omega) hfree hfd
  constructor
  · intro x
    simp only [Finset.mem_insert, h.watched, hgive]
    grind
  · intro i j x
    simp only [hgive]
    have := h.distinct i j x
    grind
  · intro i
    simp only [hgive]
    have := h.notListen i
    grind
  · intro i x
    simp only [hgive]
    have := h.maxi i x
    split
    all_goals grind
  · intro x
    simp only [Finset.mem_insert]
    have := h.maxfd x
    split
    all_goals grind
  · dsimp only
    have := h.inRange
    split
    all_goals omega
  · intro x
    simp only [hgive, Net.accept, if_neg (Int.not_lt.2 hfd)]
    rcases eq_or_ne x fd with rfl | hne
    · simp
    · simp [hne, h.isOpen x]

/-- A connection that is closed leaves its slot and the set. -/
theorem Bookkeeping.closeClient (h : Bookkeeping s) (hi : Slot s.client i s.sockfd) :
    Bookkeeping (s.closeClient i) := by
  have hrest : ∀ j x, Slot s.client j x ∧ j ≠ i ↔ Slot s.client j x ∧ x ≠ s.sockfd := by
    intro j x
    refine and_congr_right fun hj => not_congr ⟨?_, ?_⟩
    · rintro rfl
      exact hj.2.2.symm.trans hi.2.2
    · rintro rfl
      exact h.distinct j i _ hj hi
  have hclear := fun j x => (slot_clear s.client i j x).trans (hrest j x)
  unfold State.closeClient
  constructor
  · intro x
    simp only [Finset.mem_erase, h.watched, hclear]
    have := h.notListen i
    grind
  · intro j k x
    simp only [hclear]
    have := h.distinct j k x
    grind
  · intro j
    simp only [hclear]
    have := h.notListen j
    grind
  · intro j x
    simp only [hclear]
    have := h.maxi j x
    grind
  · intro x hx
    exact h.maxfd x (Finset.mem_of_mem_erase hx)
  · exact h.inRange
  · intro x
    simp only [hclear, Net.close]
    rcases eq_or_ne x s.sockfd with rfl | hne
    · simp
    · simp [hne, h.isOpen x]

theorem AtSlot.of_pc (h : ∀ i, s.pc ≠ .read i ∧ s.pc ≠ .write i) : AtSlot s := by
  unfold AtSlot
  split
  · next i hpc => exact absurd hpc (h i).1
  · next i hpc => exact absurd hpc (h i).2
  · trivial

theorem countDown_pc (s : State) (done more : Pc) :
    (s.countDown done more).pc = done ∨ (s.countDown done more).pc = more := by
  unfold State.countDown
  dsimp only
  split
  · exact .inl rfl
  · exact .inr rfl

theorem countDown_ne_write (s : State) (i k : Nat) :
    (s.countDown .select (.check i)).pc ≠ .write k := by
  rcases countDown_pc s .select (.check i) with h | h
  · rw [h]
    exact Pc.noConfusion
  · rw [h]
    exact Pc.noConfusion

/-- Neither end of a countdown serves a client. -/
theorem AtSlot.countDown (s : State) (i : Nat) : AtSlot (s.countDown .select (.check i)) := by
  refine .of_pc fun k => ?_
  rcases countDown_pc s .select (.check i) with h | h
  · rw [h]
    exact ⟨Pc.noConfusion, Pc.noConfusion⟩
  · rw [h]
    exact ⟨Pc.noConfusion, Pc.noConfusion⟩

/-- A step of the client loop keeps the invariant; it stops at `read` with the client's
descriptor. -/
theorem Inv.checkClient (h : Bookkeeping s) : Inv (s.checkClient i) := by
  intro _
  unfold State.checkClient
  split
  · exact ⟨h.of_eq rfl rfl rfl rfl rfl rfl, trivial⟩
  · next hle =>
    split
    · exact ⟨h.of_eq rfl rfl rfl rfl rfl rfl, trivial⟩
    · next hpos =>
      refine ⟨h.of_eq rfl rfl rfl rfl rfl rfl, ?_⟩
      have hin := h.inRange
      split
      · exact ⟨by omega, by simpa using hpos, rfl⟩
      · trivial

/-- What has been read keeps the invariant: an end closes the client, data is left in `buf`. -/
theorem Inv.serve (h : Bookkeeping s) (hslot : Slot s.client i s.sockfd) : Inv (s.serve i) := by
  intro _
  unfold State.serve
  split
  · exact ⟨(h.closeClient hslot).countDown .., .countDown ..⟩
  · exact ⟨h.of_eq rfl rfl rfl rfl rfl rfl, hslot⟩

theorem Inv.newClient (h : Bookkeeping s) (hfd : 0 ≤ fd) (hlisten : fd ≠ s.listenfd)
    (hclosed : s.net.conn fd = none) : Inv (s.newClient fd) := by
  intro hpc
  have hslot : freeSlot s.client 0 FD_SETSIZE ≠ FD_SETSIZE := by
    intro hfull
    unfold State.newClient at hpc
    dsimp only at hpc
    rw [if_pos hfull] at hpc
    exact hpc 1 rfl
  refine ⟨h.newClient hfd hlisten hclosed hslot, ?_⟩
  unfold State.newClient
  dsimp only
  rw [if_neg hslot]
  exact .countDown ..

/-- What `accept` does, whatever the other calls answer. -/
def FreshAccept (s : State) : Act → Prop
  | .accept connfd => 0 ≤ connfd ∧ connfd < FD_SETSIZE ∧ connfd ≠ s.listenfd ∧
      s.net.conn connfd = none
  | .select _ _ | .next | .read _ | .write _ => True

theorem Env.freshAccept {a : Act} (h : Env s a) : FreshAccept s a := by
  cases a with
  | accept => exact h
  | select | next | read | write => trivial

/-- What `select` leaves when it does not fail. -/
def State.selected (s : State) (nready : Int) (rset : Finset Int) : State :=
  { s with nready := nready, rset := rset, pc := if s.listenfd ∈ rset then .accept else .check 0 }

/-- **What a step can be**: one case for each system call, and two for `select`. -/
theorem step_cases {a : Act} (h : step s a = some s') :
    (∃ nready rset, a = .select nready rset ∧ s.pc = .select ∧ nready < 0 ∧
      s' = { s with nready := nready, pc := .exit (-1) }) ∨
    (∃ nready rset, a = .select nready rset ∧ s.pc = .select ∧ 0 ≤ nready ∧
      s' = s.selected nready rset) ∨
    (∃ connfd, a = .accept connfd ∧ s.pc = .accept ∧ s' = s.newClient connfd) ∨
    (∃ i, a = .next ∧ s.pc = .check i ∧ s' = s.checkClient i) ∨
    (∃ i r, a = .read r ∧ s.pc = .read i ∧ s' = (s.fetch r).serve i) ∨
    ∃ i k, a = .write k ∧ s.pc = .write i ∧
      s' = (s.reply k).countDown .select (.check (i + 1)) := by
  cases a with
  | select nready rset =>
    simp only [step] at h
    split at h
    · next hpc =>
      split at h
      · next hneg =>
        exact .inl ⟨nready, rset, rfl, hpc, hneg, (Option.some.inj h).symm⟩
      · next hpos =>
        exact .inr (.inl ⟨nready, rset, rfl, hpc, Int.not_lt.1 hpos, (Option.some.inj h).symm⟩)
    · cases h
  | accept connfd =>
    simp only [step] at h
    split at h
    · next hpc => exact .inr (.inr (.inl ⟨connfd, rfl, hpc, (Option.some.inj h).symm⟩))
    · cases h
  | next =>
    simp only [step] at h
    split at h
    · next i hpc => exact .inr (.inr (.inr (.inl ⟨i, rfl, hpc, (Option.some.inj h).symm⟩)))
    · cases h
  | read r =>
    simp only [step] at h
    split at h
    · next i hpc =>
      exact .inr (.inr (.inr (.inr (.inl ⟨i, r, rfl, hpc, (Option.some.inj h).symm⟩))))
    · cases h
  | write k =>
    simp only [step] at h
    split at h
    · next i hpc =>
      exact .inr (.inr (.inr (.inr (.inr ⟨i, k, rfl, hpc, (Option.some.inj h).symm⟩))))
    · cases h

/-- Whatever the environment answers, one step keeps the invariant. -/
theorem Inv.step {a : Act} (h : Inv s) (henv : FreshAccept s a) (hs : step s a = some s') :
    Inv s' := by
  have hrun : ∀ pc, s.pc = pc → (∀ status, pc ≠ .exit status) → Bookkeeping s ∧ AtSlot s := by
    rintro pc rfl hne
    exact h hne
  obtain ⟨_, _, rfl, hpc, -, rfl⟩ | ⟨_, _, rfl, hpc, -, rfl⟩ | ⟨_, rfl, hpc, rfl⟩ |
    ⟨_, rfl, hpc, rfl⟩ | ⟨_, _, rfl, hpc, rfl⟩ | ⟨_, k, rfl, hpc, rfl⟩ := step_cases hs <;>
    obtain ⟨hbook, hslot⟩ := hrun _ hpc (by simp)
  · intro hne
    exact absurd rfl (hne (-1))
  · refine fun _ => ⟨hbook.of_eq rfl rfl rfl rfl rfl rfl, .of_pc fun i => ?_⟩
    unfold State.selected
    dsimp only
    split <;> simp
  · exact .newClient hbook henv.1 henv.2.2.1 henv.2.2.2
  · exact .checkClient hbook
  · rw [AtSlot, hpc] at hslot
    exact .serve (hbook.of_eq rfl rfl rfl rfl rfl rfl) hslot
  · have hreply : Bookkeeping (s.reply k) := hbook.of_eq rfl rfl rfl rfl rfl rfl
    exact fun _ => ⟨hreply.countDown .., .countDown ..⟩

theorem Inv.of_reach (h : machine.Reach Env s) : Inv s := by
  refine h.invariant ?_ fun _ _ _ hI henv hs => Inv.step hI henv.freshAccept hs
  rintro _ ⟨listenfd, buf, rfl⟩ _
  exact ⟨.init listenfd buf, trivial⟩

/-- **The bookkeeping holds at every head of the main loop**, and every open connection is watched
and in exactly one slot. -/
theorem bookkeeping_of_reach (h : machine.Reach Env s) (hpc : s.pc = .select) :
    Bookkeeping s ∧ ∀ fd c, s.net.conn fd = some c → fd ∈ s.allset ∧ ∃! i, Slot s.client i fd := by
  obtain ⟨hbook, -⟩ := Inv.of_reach h (by simp [hpc])
  refine ⟨hbook, ?_⟩
  intro fd c hc
  obtain ⟨i, hi⟩ := (hbook.isOpen fd).2 ⟨c, hc⟩
  exact ⟨(hbook.watched fd).2 (.inr ⟨i, hi⟩), i, hi, fun j hj => hbook.distinct j i fd hj hi⟩

end

instance (s : State) : DecidablePred (Env s)
  | .select _ _ => inferInstanceAs (Decidable (_ ∧ _ ∧ _))
  | .accept _ => inferInstanceAs (Decidable (_ ∧ _ ∧ _ ∧ _))
  | .next | .read _ | .write _ => .isTrue trivial

/-- Two clients connect as `4` and `5`; the first one leaves, and a third one gets the number `4`
while the second one sends a byte. -/
def reuse : List Act :=
  [.select 1 {3}, .accept 4, .select 1 {3}, .accept 5, .select 1 {4}, .next, .read (some []),
    .select 2 {3, 5}, .accept 4, .next, .next, .read (some [97]), .write 1]

/-- The descriptor that is handed out again is in one slot. -/
theorem reuse_bookkeeping :
    ∃ s, machine.Reach Env s ∧ s.net.conn 4 = some 2 ∧ Bookkeeping s ∧
      ∃! i, Slot s.client i 4 := by
  have hrun : (machine.runChecked (fun s a => decide (Env s a)) (.init 3 fun _ => 0) reuse).map
      (fun s => (s.pc, s.net.conn 4)) = some (.select, some 2) := by
    decide +kernel
  obtain ⟨s, hs, hend⟩ := Option.map_eq_some_iff.1 hrun
  obtain ⟨hpc, hconn⟩ := Prod.mk.inj hend
  have hreach : machine.Reach Env s := .of_decided ⟨3, _, rfl⟩ hs
  obtain ⟨hbook, hopen⟩ := bookkeeping_of_reach hreach hpc
  exact ⟨s, hreach, hconn, hbook, (hopen 4 2 hconn).2⟩

end LinuxTraining.IoModels.Select
