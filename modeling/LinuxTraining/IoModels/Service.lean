import LinuxTraining.IoModels.Upper
import LinuxTraining.Lib.Machine

/-!
# A server and its clients

What the two echo servers stand in: clients connect, send and hang up when they like, and the system
calls of the server answer as documented. `read` brings at most `MAXLINE` bytes of what has been
sent, and the end after the last of them. A `Service` says of a server what it has read; whatever it
does, what it has read of a connection and what is left to read are what the client has sent
(`Service.run_stream`).
-/

namespace LinuxTraining.IoModels

open Lib

/-- What has become of a connection. -/
inductive Side
  | sending
  /-- The client has closed its end. -/
  | hungUp
  /-- The server has read the end. -/
  | ended
  deriving DecidableEq

/-- The client of a connection: the bytes that it has sent and the server has not read. -/
structure Client where
  inbox : List Byte
  side : Side
  deriving DecidableEq

/-- A client that has sent nothing. -/
def Client.fresh : Client := ⟨[], .sending⟩

/-- A `read` would not block. -/
def Client.readable (x : Client) : Bool := !x.inbox.isEmpty || x.side == .hungUp

/-- What a `read` of at most `MAXLINE` bytes may bring. -/
def Client.Brings (x : Client) (data : List Byte) : Prop :=
  data = [] ∧ x.inbox = [] ∧ x.side = .hungUp ∨
    data ≠ [] ∧ data <+: x.inbox ∧ data.length ≤ MAXLINE

instance (x : Client) : DecidablePred x.Brings :=
  fun _ => inferInstanceAs (Decidable (_ ∧ _ ∧ _ ∨ _ ∧ _ ∧ _))

/-- The client after a `read`. -/
def Client.took (x : Client) (data : List Byte) : Client :=
  if data = [] then { x with side := .ended } else { x with inbox := x.inbox.drop data.length }

/-- A server and its clients; the connections are numbered as the clients have made them. -/
structure World (σ : Type) where
  srv : σ
  made : Nat
  client : Nat → Client

/-- A step of a client, or of the server with what its system call answers. -/
inductive Label (α : Type)
  | connect
  | send (c : Nat) (data : List Byte)
  | hangUp (c : Nat)
  | serve (a : α)

/-- A read of a connection at most, as a function of the connection. -/
def readOn (r : Option (Nat × List Byte)) (c : Nat) : List Byte :=
  match r with
  | some (d, data) => if d = c then data else []
  | none => []

/-- The clients after a read at most. -/
def clientsAfter (client : Nat → Client) : Option (Nat × List Byte) → Nat → Client
  | some (c, data) => Function.update client c ((client c).took data)
  | none => client

/-- A server among clients: its steps, what their system calls may answer, which connection a step
reads from and what it gets, and what has been read of each connection. -/
structure Service (σ α : Type) where
  init : σ → Prop
  step : σ → α → Option σ
  answers : World σ → α → Prop
  reads : σ → α → Option (Nat × List Byte)
  received : σ → Nat → List Byte
  [decidable : ∀ w, DecidablePred (answers w)]
  received_init : ∀ s, init s → ∀ c, received s c = []
  received_step : ∀ w a s, answers w a → step w.srv a = some s → ∀ c,
    received s c = received w.srv c ++ readOn (reads w.srv a) c
  brings : ∀ w a s, answers w a → step w.srv a = some s → ∀ c data,
    reads w.srv a = some (c, data) → (w.client c).Brings data

namespace Service

variable {σ α : Type} (S : Service σ α)

instance (w : World σ) : DecidablePred (S.answers w) := S.decidable w

/-- One step. -/
def stepWorld (w : World σ) : Label α → Option (World σ)
  | .connect => some { w with made := w.made + 1 }
  | .send c data =>
    if c < w.made ∧ (w.client c).side = .sending then
      some { w with client := Function.update w.client c
                      { w.client c with inbox := (w.client c).inbox ++ data } }
    else none
  | .hangUp c =>
    if c < w.made ∧ (w.client c).side = .sending then
      some { w with client := Function.update w.client c { w.client c with side := .hungUp } }
    else none
  | .serve a =>
    if S.answers w a then
      (S.step w.srv a).map fun s =>
        { w with srv := s, client := clientsAfter w.client (S.reads w.srv a) }
    else none

/-- Nobody has connected. -/
def start (s : σ) : World σ := ⟨s, 0, fun _ => .fresh⟩

/-- The server and its clients. -/
def machine : Machine (World σ) (Label α) where
  init w := ∃ s, S.init s ∧ w = start s
  step := S.stepWorld

end Service

/-- A step of the server. -/
def Label.isServe {α : Type} : Label α → Bool
  | .serve _ => true
  | .connect | .send _ _ | .hangUp _ => false

/-- The bytes that a step sends on a connection. -/
def Label.bytes {α : Type} (c : Nat) : Label α → List Byte
  | .send d data => if d = c then data else []
  | .connect | .hangUp _ | .serve _ => []

/-- The bytes that have been sent on a connection. -/
def sentOn {α : Type} (c : Nat) (as : List (Label α)) : List Byte := as.flatMap (Label.bytes c)

/-- What a client costs that a server has not read, at `b` for a byte and `e` for the end. -/
def Client.work (b e : Nat) (x : Client) : Nat :=
  b * x.inbox.length + if x.side = .hungUp then e else 0

/-- What a step of a client costs, at `k` for a connection, `b` for a byte and `e` for the end. -/
def Label.work {α : Type} (k b e : Nat) : Label α → Nat
  | .connect => k
  | .send _ data => b * data.length
  | .hangUp _ => e
  | .serve _ => 0

section
variable {σ α : Type} {S : Service σ α} {w w' : World σ} {x : Client} {a : α} {s : σ} {c : Nat}

/-! ## Clients -/

theorem Client.readable_iff : x.readable ↔ x.inbox ≠ [] ∨ x.side = .hungUp := by
  rw [Client.readable, Bool.or_eq_true, Bool.not_eq_true', List.isEmpty_eq_false_iff, beq_iff_eq]

/-- A client that has something to read gives it. -/
theorem Client.exists_brings (h : x.readable) : ∃ data, x.Brings data := by
  by_cases hnil : x.inbox = []
  · exact ⟨[], .inl ⟨rfl, hnil, (Client.readable_iff.1 h).resolve_left (not_not_intro hnil)⟩⟩
  · refine ⟨x.inbox.take MAXLINE, .inr ⟨?_, List.take_prefix .., List.length_take_le ..⟩⟩
    simpa [MAXLINE] using hnil

theorem Client.Brings.ok {data : List Byte} (h : x.Brings data) : ReadResult.Ok (some data) := by
  rcases h with ⟨rfl, -⟩ | ⟨-, -, hle⟩
  · exact Nat.zero_le _
  · exact hle

theorem Client.work_pos (h : x.readable) : 0 < x.work 1 1 := by
  rcases Client.readable_iff.1 h with hne | hside
  · exact Nat.lt_add_right _ (by simpa using List.length_pos_iff.2 hne)
  · rw [Client.work, if_pos hside]
    exact Nat.succ_pos _

/-- A read spends what it takes. -/
theorem Client.took_work {b e : Nat} {data : List Byte} (h : x.Brings data) :
    (x.took data).work b e + (if data = [] then e else b) ≤ x.work b e := by
  rcases h with ⟨rfl, hnil, hside⟩ | ⟨hne, hprefix, -⟩
  · simp [Client.took, Client.work, hnil, hside]
  · obtain ⟨rest, hrest⟩ := hprefix
    have hpos := List.length_pos_iff.2 hne
    have hle : b * 1 ≤ b * data.length := Nat.mul_le_mul_left _ hpos
    simp only [Client.took, if_neg hne, Client.work, ← hrest, List.drop_left, List.length_append,
      Nat.mul_add]
    omega

/-- A read takes from the front, and hangs nobody up. -/
theorem Client.took_stream {data : List Byte} (h : x.Brings data) :
    data ++ (x.took data).inbox = x.inbox ∧
      ((x.took data).side = .sending ↔ x.side = .sending) := by
  rcases h with ⟨rfl, hnil, hside⟩ | ⟨hne, ⟨rest, hrest⟩, -⟩
  · rw [Client.took, if_pos rfl, hside]
    exact ⟨rfl, iff_of_false Side.noConfusion Side.noConfusion⟩
  · rw [Client.took, if_neg hne, ← hrest, List.drop_left]
    exact ⟨rfl, Iff.rfl⟩

theorem clientsAfter_self (client : Nat → Client) (data : List Byte) :
    clientsAfter client (some (c, data)) c = (client c).took data := Function.update_self ..

theorem clientsAfter_of_ne (client : Nat → Client) (data : List Byte) {d : Nat} (h : d ≠ c) :
    clientsAfter client (some (c, data)) d = client d := Function.update_of_ne h ..

/-! ## Steps -/

/-- What a step of the server is. -/
theorem serve_inv (hs : S.stepWorld w (.serve a) = some w') : S.answers w a ∧
    ∃ s, S.step w.srv a = some s ∧
      w' = { w with srv := s, client := clientsAfter w.client (S.reads w.srv a) } := by
  rw [Service.stepWorld] at hs
  split at hs
  · next hans =>
    obtain ⟨s, hstep, rfl⟩ := Option.map_eq_some_iff.1 hs
    exact ⟨hans, s, hstep, rfl⟩
  · cases hs

/-- The server can go no further where no call that can return has a step. -/
theorem settled_iff_stuck : (∀ a : Label α, a.isServe = true → S.machine.step w a = none) ↔
    ∀ a, S.answers w a → S.step w.srv a = none := by
  have hserve : ∀ a, S.stepWorld w (.serve a) = none ↔ (S.answers w a → S.step w.srv a = none) := by
    intro a
    rw [Service.stepWorld]
    split
    · next hans => exact Option.map_eq_none_iff.trans (imp_iff_right hans).symm
    · next hans => exact iff_of_true rfl fun h => absurd h hans
  constructor
  · intro hset a
    exact (hserve a).1 (hset (.serve a) rfl)
  · intro hstuck a ha
    cases a with
    | serve a => exact (hserve a).2 (hstuck a)
    | connect | send | hangUp => cases ha

/-- What a step of a client is: a new connection, or more to read. -/
theorem client_cases {a : Label α} (ha : a.isServe = false) (hs : S.stepWorld w a = some w') :
    a = .connect ∧ w' = { w with made := w.made + 1 } ∨
    ∃ c x, c < w.made ∧ (w.client c).side = .sending ∧ x.side ≠ .ended ∧
      ((w.client c).readable → x.readable) ∧
      (∀ k b e, x.work b e = (w.client c).work b e + a.work k b e) ∧
      w' = { w with client := Function.update w.client c x } := by
  cases a with
  | connect => exact .inl ⟨rfl, (Option.some.inj hs).symm⟩
  | send c data =>
    rw [Service.stepWorld] at hs
    split at hs
    · next hc =>
      refine .inr ⟨c, { w.client c with inbox := (w.client c).inbox ++ data }, hc.1, hc.2, ?_,
        fun hread => ?_, fun k b e => ?_, (Option.some.inj hs).symm⟩
      · show (w.client c).side ≠ .ended
        rw [hc.2]
        exact Side.noConfusion
      · rw [Client.readable_iff] at hread ⊢
        exact hread.imp_left fun hne hnil => hne (List.append_eq_nil_iff.1 hnil).1
      · simp only [Client.work, Label.work, List.length_append, Nat.mul_add]
        omega
    · cases hs
  | hangUp c =>
    rw [Service.stepWorld] at hs
    split at hs
    · next hc =>
      refine .inr ⟨c, { w.client c with side := .hungUp }, hc.1, hc.2, Side.noConfusion,
        fun _ => Bool.or_true _, fun k b e => ?_, (Option.some.inj hs).symm⟩
      simp [Client.work, hc.2, Label.work]
    · cases hs
  | serve => cases ha

/-! ## What is read is what was sent -/

/-- What has been read of a connection, and what is still to be read. -/
def World.stream (S : Service σ α) (w : World σ) (c : Nat) : List Byte :=
  S.received w.srv c ++ (w.client c).inbox

/-- A step of the server takes nothing from a stream, and hangs nobody up. -/
theorem serve_stream (hs : S.stepWorld w (.serve a) = some w') (c : Nat) :
    w'.stream S c = w.stream S c ∧
      ((w'.client c).side = .sending ↔ (w.client c).side = .sending) := by
  obtain ⟨hans, s, hstep, rfl⟩ := serve_inv hs
  unfold World.stream
  dsimp only
  rw [S.received_step w a s hans hstep c]
  cases hread : S.reads w.srv a with
  | none => exact ⟨by rw [readOn, List.append_nil]; rfl, Iff.rfl⟩
  | some r =>
    obtain ⟨d, data⟩ := r
    obtain ⟨hstream, hside⟩ := Client.took_stream (S.brings w a s hans hstep d data hread)
    rw [readOn]
    rcases eq_or_ne d c with rfl | hne
    · rw [if_pos rfl, clientsAfter_self, List.append_assoc, hstream]
      exact ⟨rfl, hside⟩
    · rw [if_neg hne, clientsAfter_of_ne _ _ hne.symm, List.append_nil]
      exact ⟨rfl, Iff.rfl⟩

/-- A step adds what it sends to a stream. -/
theorem step_stream {a : Label α} (hs : S.stepWorld w a = some w') (c : Nat) :
    w'.stream S c = w.stream S c ++ a.bytes c ∧
      ((w'.client c).side = .sending ↔ (w.client c).side = .sending ∧ a ≠ .hangUp c) := by
  cases a with
  | connect =>
    cases hs
    exact ⟨(List.append_nil _).symm, (and_iff_left (by simp)).symm⟩
  | send d data =>
    rw [Service.stepWorld] at hs
    split at hs
    · cases hs
      unfold World.stream
      dsimp only [Label.bytes]
      rcases eq_or_ne c d with rfl | hne
      · rw [Function.update_self, if_pos rfl, List.append_assoc]
        exact ⟨rfl, (and_iff_left (by simp)).symm⟩
      · rw [Function.update_of_ne hne, if_neg hne.symm, List.append_nil]
        exact ⟨rfl, (and_iff_left (by simp)).symm⟩
    · cases hs
  | hangUp d =>
    rw [Service.stepWorld] at hs
    split at hs
    · cases hs
      unfold World.stream
      dsimp only [Label.bytes]
      rw [List.append_nil]
      rcases eq_or_ne c d with rfl | hne
      · rw [Function.update_self]
        exact ⟨rfl, by simp⟩
      · rw [Function.update_of_ne hne]
        exact ⟨rfl, by simp [hne.symm]⟩
    · cases hs
  | serve b =>
    obtain ⟨hstream, hside⟩ := serve_stream hs c
    rw [hstream, hside]
    exact ⟨(List.append_nil _).symm, (and_iff_left (by simp)).symm⟩

/-- **Nothing is lost between a client and a server.** In every run, what the server has read of a
connection and what it has not read are what the client has sent, in order. -/
theorem Service.run_stream {C : World σ → Label α → Prop} {as : List (Label α)} (hinit : S.init s)
    (hr : S.machine.Run C (start s) as w) (c : Nat) :
    w.stream S c = sentOn c as ∧ ((w.client c).side = .sending ↔ .hangUp c ∉ as) := by
  induction hr with
  | nil =>
    refine ⟨?_, iff_of_true rfl List.not_mem_nil⟩
    unfold World.stream
    exact (List.append_nil _).trans (S.received_init s hinit c)
  | snoc a hr _ hs ih =>
    obtain ⟨hstream, hside⟩ := step_stream hs c
    constructor
    · rw [hstream, ih.1, sentOn, sentOn, List.flatMap_append, List.flatMap_singleton]
    · rw [hside, ih.2, List.mem_append, List.mem_singleton, not_or, ne_comm]

end

end LinuxTraining.IoModels
