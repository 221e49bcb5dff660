import LinuxTraining.IoModels.Select
import LinuxTraining.IoModels.MultiProcess

/-!
# Both servers echo in upper case

The select server serves all its connections through one buffer and reuses descriptors; it still
writes to each connection exactly what it has read from it, in upper case
(`Select.echo_of_reach`). The child of the other server does the same, so for equal input both give
equal output (`servers_agree`).
-/

namespace LinuxTraining.IoModels

open Lib

namespace Select

/-- `read` brings at most `MAXLINE` bytes and does not fail, and `write` transfers all bytes. -/
def EchoEnv (s : State) (a : Act) : Prop :=
  Env s a ∧
    match a with
    | .read r => ReadResult.Ok r
    | .write k => (k : Int) = s.n
    | _ => True

instance (s : State) : DecidablePred (EchoEnv s)
  | .select _ _ | .accept _ | .next => inferInstanceAs (Decidable (_ ∧ True))
  | .read r => inferInstanceAs (Decidable (_ ∧ ReadResult.Ok r))
  | .write k => inferInstanceAs (Decidable (_ ∧ (k : Int) = s.n))

/-- What has been read from a connection and not yet been written back: while a client is served,
the buffer. -/
def State.pending (s : State) (c : Nat) : List Byte :=
  match s.pc with
  | .write _ => if s.net.conn s.sockfd = some c then s.buf.slice 0 s.n.toNat else []
  | _ => []

/-- Every connection gets back what it has sent in upper case. -/
def Echo (s : State) : Prop :=
  ∀ c, s.net.sent c ++ s.pending c = (s.net.received c).map toupper

section
variable {s s' : State} {i : Nat}

theorem pending_of_pc (h : ∀ i, s.pc ≠ .write i) (c : Nat) : s.pending c = [] := by
  unfold State.pending
  split
  · next i hpc => exact absurd hpc (h i)
  · rfl

theorem logTo_apply (log : Nat → List Byte) (o : Option Nat) (data : List Byte) (c : Nat) :
    logTo log o data c = if o = some c then log c ++ data else log c := by
  unfold logTo
  split
  · next d =>
    rcases eq_or_ne c d with rfl | hne
    · simp
    · simp [hne, Ne.symm hne]
  · simp

/-- A step that reads and writes nothing between two clients. -/
theorem Echo.of_quiet (h : Echo s) (hpc : ∀ i, s.pc ≠ .write i) (hpc' : ∀ i, s'.pc ≠ .write i)
    (hr : s'.net.received = s.net.received) (hs : s'.net.sent = s.net.sent) : Echo s' := by
  intro c
  have hc := h c
  rw [pending_of_pc hpc] at hc
  rw [pending_of_pc hpc', hr, hs]
  exact hc

/-- What is read from a connection is pending for it and for no other. -/
theorem Echo.serve (h : Echo s) (hpc : ∀ i, s.pc ≠ .write i) (data : List Byte) :
    Echo ((s.fetch (some data)).serve i) := by
  intro c
  have hc := h c
  rw [pending_of_pc hpc, List.append_nil] at hc
  have hread : (s.fetch (some data)).net.received c =
      if s.net.conn s.sockfd = some c then s.net.received c ++ data else s.net.received c :=
    logTo_apply ..
  unfold State.serve
  split
  · next hn =>
    have hnil : data = [] := List.length_eq_zero_iff.1 (Int.natCast_eq_zero.1 hn)
    rw [pending_of_pc (countDown_ne_write _ _)]
    show s.net.sent c ++ [] = ((s.fetch (some data)).net.received c).map toupper
    rw [hread, hnil]
    simpa using hc
  · show s.net.sent c ++ (if s.net.conn s.sockfd = some c then _ else []) =
      ((s.fetch (some data)).net.received c).map toupper
    rw [hread]
    split
    · rw [List.map_append, ← hc]
      exact congrArg _ (slice_upper s.buf data)
    · rw [List.append_nil]
      exact hc

/-- What is pending is written to the connection it was read from. -/
theorem Echo.reply {k : Nat} (h : Echo s) (hpc : s.pc = .write i) (hk : (k : Int) = s.n) :
    Echo ((s.reply k).countDown .select (.check (i + 1))) := by
  intro c
  have hc := h c
  rw [pending_of_pc (countDown_ne_write _ _), List.append_nil]
  show logTo s.net.sent (s.net.conn s.sockfd) (s.buf.slice 0 k) c = (s.net.received c).map toupper
  rw [State.pending, hpc] at hc
  rw [logTo_apply, ← hc, ← hk]
  split
  · simp
  · simp

theorem Echo.newClient (h : Echo s) (hpc : ∀ i, s.pc ≠ .write i) (connfd : Int) :
    Echo (s.newClient connfd) := by
  obtain ⟨hreceived, hsent⟩ := s.net.accept_logs connfd
  unfold State.newClient
  dsimp only
  split
  · exact h.of_quiet hpc (by simp) hreceived hsent
  · exact h.of_quiet hpc (countDown_ne_write _ _) hreceived hsent

theorem Echo.checkClient (h : Echo s) (hpc : ∀ i, s.pc ≠ .write i) : Echo (s.checkClient i) := by
  unfold State.checkClient
  split
  · exact h.of_quiet hpc (by simp) rfl rfl
  · split
    · exact h.of_quiet hpc (by simp) rfl rfl
    · refine h.of_quiet hpc ?_ rfl rfl
      intro k
      dsimp only
      split <;> simp

/-- Each step keeps the echo. -/
theorem Echo.step {a : Act} (h : Echo s) (henv : EchoEnv s a) (hs : step s a = some s') :
    Echo s' := by
  obtain ⟨_, _, -, hpc, -, rfl⟩ | ⟨_, _, -, hpc, -, rfl⟩ | ⟨connfd, -, hpc, rfl⟩ |
    ⟨_, -, hpc, rfl⟩ | ⟨_, r, rfl, hpc, rfl⟩ | ⟨_, _, rfl, hpc, rfl⟩ := step_cases hs
  · refine h.of_quiet ?_ ?_ rfl rfl
    all_goals simp [hpc]
  · refine h.of_quiet ?_ ?_ rfl rfl
    · simp [hpc]
    · intro i
      unfold State.selected
      dsimp only
      split <;> simp
  · exact h.newClient (by simp [hpc]) connfd
  · exact h.checkClient (by simp [hpc])
  · obtain ⟨data, rfl⟩ := henv.2.eq_some
    exact h.serve (by simp [hpc]) data
  · exact h.reply hpc henv.2

/-- **The select server echoes every connection**, whatever the others do. -/
theorem Echo.of_reach (h : machine.Reach EchoEnv s) : Echo s := by
  refine h.invariant ?_ fun _ _ _ hI henv hs => Echo.step hI henv hs
  rintro _ ⟨listenfd, buf, rfl⟩ c
  rfl

end

end Select

/-- **The two servers compute the same function of a connection.** At every moment what either has
written to a connection, with what it has read and not yet written back, is what it has read in
upper case; between a write and the next read nothing is pending. -/
theorem servers_agree {s : Select.State} {t : MultiProcess.State}
    (hs : Select.machine.Reach Select.EchoEnv s)
    (ht : MultiProcess.machine.Reach MultiProcess.Env t) :
    (∀ c, s.net.sent c ++ s.pending c = (s.net.received c).map toupper) ∧
    (∀ c, t.sent c ++ t.pending c = (t.received c).map toupper) ∧
    ∀ c d, s.net.received c = t.received d →
      s.net.sent c ++ s.pending c = t.sent d ++ t.pending d ∧
      (s.pending c = [] → t.pending d = [] → s.net.sent c = t.sent d) := by
  have hselect := Select.Echo.of_reach hs
  have hmulti := (MultiProcess.Echo.of_reach ht).echo
  refine ⟨hselect, hmulti, ?_⟩
  intro c d hin
  have hout : s.net.sent c ++ s.pending c = t.sent d ++ t.pending d := by
    rw [hselect c, hmulti d, hin]
  refine ⟨hout, ?_⟩
  intro hc hd
  simpa [hc, hd] using hout

/-- Two clients of the select server send `abc` and `x`, the first one in two reads. -/
def selectABC : List Select.Act :=
  [.select 1 {3}, .accept 4, .select 1 {3}, .accept 5, .select 2 {4, 5}, .next,
    .read (some [97, 98]), .write 2, .next, .read (some [120]), .write 1, .select 1 {4}, .next,
    .read (some [99]), .write 1]

/-- A client of the other server sends `abc` in one read. -/
def multiABC : List MultiProcess.Act :=
  [.accept, .fork true, .read 0 (some [97, 98, 99]), .write 0 3]

/-- In two reads or in one, both clients get `ABC` back. -/
theorem selectABC_agrees :
    ∃ s t, Select.machine.Reach Select.EchoEnv s ∧
      MultiProcess.machine.Reach MultiProcess.Env t ∧
      s.net.received 0 = t.received 0 ∧ s.net.received 1 = [120] ∧ t.sent 0 = [65, 66, 67] ∧
      s.net.sent 0 = t.sent 0 := by
  have hselect : (Select.machine.runChecked (fun s a => decide (Select.EchoEnv s a))
      (.init 3 fun _ => 0) selectABC).map (fun s => (s.net.received 0, s.net.received 1,
        s.pending 0)) = some ([97, 98, 99], [120], []) := by
    decide +kernel
  have hmulti : (MultiProcess.machine.runChecked (fun s a => decide (MultiProcess.Env s a))
      (.init fun _ => 0) multiABC).map (fun t => (t.received 0, t.sent 0, t.pending 0)) =
        some ([97, 98, 99], [65, 66, 67], []) := by
    decide +kernel
  obtain ⟨s, hs, hsend⟩ := Option.map_eq_some_iff.1 hselect
  obtain ⟨t, ht, htend⟩ := Option.map_eq_some_iff.1 hmulti
  simp only [Prod.mk.injEq] at hsend htend
  obtain ⟨hsin, hsother, hsquiet⟩ := hsend
  obtain ⟨htin, htout, htquiet⟩ := htend
  have hsreach : Select.machine.Reach Select.EchoEnv s := .of_decided ⟨3, _, rfl⟩ hs
  have htreach : MultiProcess.machine.Reach MultiProcess.Env t := .of_decided ⟨_, rfl⟩ ht
  have hin : s.net.received 0 = t.received 0 := hsin.trans htin.symm
  have hagree := (servers_agree hsreach htreach).2.2 0 0 hin
  exact ⟨s, t, hsreach, htreach, hin, hsother, htout, hagree.2 hsquiet htquiet⟩

end LinuxTraining.IoModels
