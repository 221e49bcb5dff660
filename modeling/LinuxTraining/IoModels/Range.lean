import LinuxTraining.IoModels.Select
import Mathlib.Data.Finset.Card

/-!
# The select server: the range of an `fd_set`

An `fd_set` has room for the descriptors below `FD_SETSIZE`. The server counts its slots, and looks
at no descriptor: whatever `accept` returns goes into `client[]` and `allset`, a failure too.
`Ranged` says that the slots hold descriptors in range; then there is always a free slot for one
more (`freeSlot_ne`), so the count of slots stops nothing. `keepsRange_iff`: a run stays in range if
and only if `socket` and each `accept` have returned descriptors in range.
-/

namespace LinuxTraining.IoModels.Select

open Lib

/-- The descriptor has a place in an `fd_set`. -/
def InSet (fd : Int) : Prop := 0 ≤ fd ∧ fd < FD_SETSIZE

instance : DecidablePred InSet := fun _ => inferInstanceAs (Decidable (_ ∧ _))

/-- The descriptor that is passed to `FD_SET` before the main loop. -/
def initUses (listenfd : Int) : List Int := [listenfd]

/-- The descriptors that a step passes to `FD_SET`, `FD_CLR`, `FD_ISSET`, `read`, `write` and
`close`. -/
def uses (s : State) : Act → List Int
  | .select nready _ => if nready < 0 then [] else [s.listenfd]
  | .accept connfd => if freeSlot s.client 0 FD_SETSIZE = FD_SETSIZE then [] else [connfd]
  | .next =>
    match s.pc with
    | .check i => if s.maxi < i then [] else if s.client i < 0 then [] else [s.client i]
    | _ => []
  | .read r => if r.ret = 0 then [s.sockfd, s.sockfd, s.sockfd] else [s.sockfd]
  | .write _ => [s.sockfd]

/-- A connection on this descriptor can be served. -/
def CanServe (s : State) (connfd : Int) : Prop :=
  InSet connfd ∧ freeSlot s.client 0 FD_SETSIZE ≠ FD_SETSIZE

/-- A step uses descriptors in range, and refuses a connection that cannot be served. -/
structure KeepsRange (s : State) (a : Act) : Prop where
  inSet : ∀ fd ∈ uses s a, InSet fd
  refuses : ∀ connfd t, a = .accept connfd → ¬ CanServe s connfd → step s a = some t →
    t.client = s.client ∧ t.allset = s.allset ∧ t.maxi = s.maxi ∧ t.maxfd = s.maxfd

/-- What the environment may do: `select` fails, or returns a non-empty subset of the watched set
and its size; `accept` fails, or returns a descriptor that is not open; and `read` brings at most
`MAXLINE` bytes. -/
def AnyAccept (s : State) : Act → Prop
  | .select nready rset => nready < 0 ∨ rset.Nonempty ∧ rset ⊆ s.allset ∧ nready = rset.card
  | .accept connfd => connfd = -1 ∨
      0 ≤ connfd ∧ connfd ≠ s.listenfd ∧ s.net.conn connfd = none
  | .read r => ∀ data ∈ r, data.length ≤ MAXLINE
  | .next | .write _ => True

/-- The slots hold descriptors in range. -/
def Ranged (client : Nat → Int) : Prop := ∀ i fd, Slot client i fd → fd < FD_SETSIZE

section
variable {s s' : State} {a : Act} {client : Nat → Int} {listenfd : Int} {buf : Mem Byte}

/-- A loop that does not end early has found no free slot. -/
theorem freeSlot_full {i k : Nat} (h : freeSlot client i k = i + k) {j : Nat} (hi : i ≤ j)
    (hj : j < i + k) : 0 ≤ client j := by
  induction k generalizing i with
  | zero => omega
  | succ k ih =>
    rw [freeSlot] at h
    split at h
    · omega
    · next hc =>
      rcases eq_or_ne j i with rfl | hne
      · exact Int.not_lt.1 hc
      · exact ih (i := i + 1) (by omega) (by omega) (by omega)

/-- There is a free slot as long as a descriptor in range is in no slot: each slot would have to
hold another one. -/
theorem freeSlot_ne (hranged : Ranged client)
    (hdistinct : ∀ i j fd, Slot client i fd → Slot client j fd → i = j) {fd : Int} (hfd : InSet fd)
    (hnew : ∀ i, ¬ Slot client i fd) : freeSlot client 0 FD_SETSIZE ≠ FD_SETSIZE := by
  intro hfull
  have hslot : ∀ i < FD_SETSIZE, Slot client i (client i) := fun i hi =>
    ⟨hi, freeSlot_full (hfull.trans (Nat.zero_add _).symm) (Nat.zero_le i) (by omega), rfl⟩
  have hmaps : Set.MapsTo (fun i => (client i).toNat) (Finset.range FD_SETSIZE)
      ((Finset.range FD_SETSIZE).erase fd.toNat) := by
    intro i hi
    have hi := hslot i (Finset.mem_range.1 hi)
    have hfresh : client i ≠ fd := fun heq => hnew i (heq ▸ hi)
    have hlt : (client i).toNat < FD_SETSIZE := (Int.toNat_lt hi.2.1).2 (hranged i _ hi)
    have hne : (client i).toNat ≠ fd.toNat := by
      have := hi.2.1
      have := hfd.1
      omega
    exact Finset.mem_coe.2 (Finset.mem_erase.2 ⟨hne, Finset.mem_range.2 hlt⟩)
  have hinj : Set.InjOn (fun i => (client i).toNat) (Finset.range FD_SETSIZE : Finset Nat) := by
    intro i hi j hj hij
    have hi := hslot i (Finset.mem_range.1 hi)
    have hj := hslot j (Finset.mem_range.1 hj)
    have heq : client i = client j := by
      have := hi.2.1
      have := hj.2.1
      simp only at hij
      omega
    rw [← heq] at hj
    exact hdistinct i j _ hi hj
  have hmem : fd.toNat ∈ Finset.range FD_SETSIZE :=
    Finset.mem_range.2 ((Int.toNat_lt hfd.1).2 hfd.2)
  have hcard := Finset.card_le_card_of_injOn _ hmaps hinj
  rw [Finset.card_erase_of_mem hmem, Finset.card_range] at hcard
  simp only [FD_SETSIZE] at hcard
  omega

theorem newClient_full (connfd : Int) (h : freeSlot s.client 0 FD_SETSIZE = FD_SETSIZE) :
    s.newClient connfd = { s with net := s.net.accept connfd, pc := .exit 1 } := if_pos h

/-- What a new connection makes of `client[]`, where there is a free slot. -/
theorem newClient_client (connfd : Int) (h : freeSlot s.client 0 FD_SETSIZE ≠ FD_SETSIZE) :
    (s.newClient connfd).client =
      Function.update s.client (freeSlot s.client 0 FD_SETSIZE) connfd :=
  congrArg State.client (if_neg h)

/-- Where a step changes `client[]`. -/
theorem step_client (h : step s a = some s') :
    s'.client = s.client ∨ (∃ i, s'.client = Function.update s.client i (-1)) ∨
      ∃ connfd, a = .accept connfd ∧ freeSlot s.client 0 FD_SETSIZE ≠ FD_SETSIZE ∧
        s'.client = Function.update s.client (freeSlot s.client 0 FD_SETSIZE) connfd := by
  obtain ⟨_, _, -, -, -, rfl⟩ | ⟨_, _, -, -, -, rfl⟩ | ⟨connfd, rfl, -, rfl⟩ | ⟨i, -, -, rfl⟩ |
    ⟨i, r, -, -, rfl⟩ | ⟨_, _, -, -, rfl⟩ := step_cases h
  · exact .inl rfl
  · exact .inl rfl
  · by_cases hfull : freeSlot s.client 0 FD_SETSIZE = FD_SETSIZE
    · rw [newClient_full connfd hfull]
      exact .inl rfl
    · exact .inr (.inr ⟨connfd, rfl, hfull, newClient_client connfd hfull⟩)
  · refine .inl ?_
    unfold State.checkClient
    split
    · rfl
    · split <;> rfl
  · unfold State.serve
    split
    · exact .inr (.inl ⟨i, rfl⟩)
    · exact .inl rfl
  · exact .inl rfl

/-- No step changes `listenfd`. -/
theorem step_listenfd (h : step s a = some s') : s'.listenfd = s.listenfd := by
  obtain ⟨_, _, -, -, -, rfl⟩ | ⟨_, _, -, -, -, rfl⟩ | ⟨connfd, rfl, -, rfl⟩ | ⟨i, -, -, rfl⟩ |
    ⟨i, r, -, -, rfl⟩ | ⟨_, _, -, -, rfl⟩ := step_cases h
  · rfl
  · rfl
  · unfold State.newClient
    dsimp only
    split <;> rfl
  · unfold State.checkClient
    split
    · rfl
    · split <;> rfl
  · unfold State.serve
    split <;> rfl
  · rfl

/-- A connection in range keeps the slots in range. -/
theorem Ranged.step (h : Ranged s.client) (henv : ∀ connfd, a = .accept connfd → InSet connfd)
    (hs : step s a = some s') : Ranged s'.client := by
  obtain hc | ⟨i, hc⟩ | ⟨connfd, rfl, hfree, hc⟩ := step_client hs
  · rwa [hc]
  · intro j fd hj
    rw [hc, slot_clear] at hj
    exact h j fd hj.1
  · intro j fd hj
    have hle : freeSlot s.client 0 FD_SETSIZE ≤ 0 + FD_SETSIZE := freeSlot_le ..
    rw [hc, slot_give (by omega) (freeSlot_free (by omega)) (henv connfd rfl).1] at hj
    rcases hj with hj | ⟨-, rfl⟩
    · exact h j fd hj
    · exact (henv fd rfl).2

/-- The invariant of the runs in range. -/
structure InRange (s : State) : Prop where
  listen : InSet s.listenfd
  inv : Inv s
  ranged : Ranged s.client

theorem InRange.init (h : InSet listenfd) (buf : Mem Byte) : InRange (.init listenfd buf) where
  listen := h
  inv _ := ⟨.init listenfd buf, trivial⟩
  ranged i fd hi := absurd hi (not_slot_empty i fd)

theorem InRange.step (h : InRange s) (henv : AnyAccept s a)
    (hrange : ∀ connfd, a = .accept connfd → InSet connfd) (hs : step s a = some s') :
    InRange s' where
  listen := by
    rw [step_listenfd hs]
    exact h.listen
  inv := by
    refine h.inv.step ?_ hs
    cases a with
    | accept connfd =>
      obtain ⟨h0, hmax⟩ := hrange connfd rfl
      rcases henv with rfl | ⟨-, hlisten, hclosed⟩
      · exact absurd h0 (by decide)
      · exact ⟨h0, hmax, hlisten, hclosed⟩
    | select | next | read | write => trivial
  ranged := h.ranged.step hrange hs

/-- There is always a free slot. -/
theorem InRange.free (h : InRange s) (hrun : ∀ status, s.pc ≠ .exit status) :
    freeSlot s.client 0 FD_SETSIZE ≠ FD_SETSIZE :=
  freeSlot_ne h.ranged (h.inv hrun).1.distinct h.listen (h.inv hrun).1.notListen

/-- A connection is taken into the set, whatever its descriptor is. -/
theorem InRange.uses_accept (h : InRange s) {connfd : Int}
    (hs : Select.step s (.accept connfd) = some s') :
    Select.uses s (.accept connfd) = [connfd] := by
  refine if_neg (h.free fun status hpc => ?_)
  rw [Select.step, hpc] at hs
  cases hs

/-- A step that accepts no descriptor out of range uses none. -/
theorem InRange.uses (h : InRange s) (hrange : ∀ connfd, a = .accept connfd → InSet connfd)
    (hs : Select.step s a = some s') : ∀ fd ∈ Select.uses s a, InSet fd := by
  have hslot : ∀ i fd, Slot s.client i fd → InSet fd := fun i fd hi => ⟨hi.2.1, h.ranged i fd hi⟩
  intro fd hfd
  obtain ⟨_, _, rfl, hpc, hneg, -⟩ | ⟨_, _, rfl, hpc, hpos, -⟩ | ⟨connfd, rfl, hpc, -⟩ |
    ⟨i, rfl, hpc, -⟩ | ⟨i, r, rfl, hpc, -⟩ | ⟨i, _, rfl, hpc, -⟩ := step_cases hs
  · rw [Select.uses, if_pos hneg] at hfd
    exact absurd hfd List.not_mem_nil
  · rw [Select.uses, if_neg (Int.not_lt.2 hpos), List.mem_singleton] at hfd
    rw [hfd]
    exact h.listen
  · rw [h.uses_accept hs, List.mem_singleton] at hfd
    rw [hfd]
    exact hrange connfd rfl
  · have hmaxi := (h.inv (by simp [hpc])).1.inRange
    simp only [Select.uses, hpc] at hfd
    split at hfd
    · exact absurd hfd List.not_mem_nil
    · next hle =>
      split at hfd
      · exact absurd hfd List.not_mem_nil
      · next hpos =>
        rw [List.mem_singleton.1 hfd]
        exact hslot i _ ⟨by omega, Int.not_lt.1 hpos, rfl⟩
  · have hat := (h.inv (by simp [hpc])).2
    rw [AtSlot, hpc] at hat
    have hfd : fd = s.sockfd := by
      rw [Select.uses] at hfd
      split at hfd <;> simpa using hfd
    rw [hfd]
    exact hslot i _ hat
  · have hat := (h.inv (by simp [hpc])).2
    rw [AtSlot, hpc] at hat
    rw [List.mem_singleton.1 hfd]
    exact hslot i _ hat

/-- In range, a step keeps to it if and only if `accept` has not returned a descriptor out of
range. -/
theorem InRange.keeps_iff (h : InRange s) (hs : Select.step s a = some s') :
    KeepsRange s a ↔ ∀ connfd, a = .accept connfd → InSet connfd := by
  constructor
  · rintro hkeeps connfd rfl
    refine hkeeps.inSet connfd ?_
    rw [h.uses_accept hs]
    exact List.mem_singleton_self connfd
  · intro hrange
    refine ⟨h.uses hrange hs, ?_⟩
    rintro connfd t rfl hnot hs'
    have hpc : ∀ status, s.pc ≠ .exit status := by
      intro status hpc
      rw [Select.step, hpc] at hs
      cases hs
    exact absurd ⟨hrange connfd rfl, h.free hpc⟩ hnot

/-- **A run stays in range** if and only if `socket` and every `accept` have returned descriptors
in range. -/
theorem keepsRange_iff {as : List Act} {t : State}
    (hr : machine.Run AnyAccept (.init listenfd buf) as t) :
    (∀ fd ∈ initUses listenfd, InSet fd) ∧ machine.Run KeepsRange (.init listenfd buf) as t ↔
      InSet listenfd ∧ ∀ connfd, .accept connfd ∈ as → InSet connfd := by
  have hlisten : (∀ fd ∈ initUses listenfd, InSet fd) ↔ InSet listenfd := List.forall_mem_singleton
  rw [hlisten]
  refine and_congr_right fun hinit => ⟨fun hkeeps => ?_, fun hrange => ?_⟩
  · have hboth := hr.and hkeeps
    have hlabels : machine.Run (fun _ a => ∀ connfd, a = .accept connfd → InSet connfd)
        (.init listenfd buf) as t :=
      (hboth.guarded (I := InRange) (.init hinit buf)
        (fun _ _ _ hI hC hs => hI.step hC.1 ((hI.keeps_iff hs).1 hC.2) hs)
        (fun _ _ _ hI hC hs => (hI.keeps_iff hs).1 hC.2)).1
    exact fun connfd hmem => hlabels.labels _ hmem connfd rfl
  · have hlabels := hr.of_labels (P := fun a => ∀ connfd, a = .accept connfd → InSet connfd) (by
      rintro a ha connfd rfl
      exact hrange connfd ha)
    exact ((hr.and hlabels).guarded (I := InRange) (.init hinit buf)
      (fun _ _ _ hI hC hs => hI.step hC.1 hC.2 hs)
      (fun _ _ _ hI hC hs => (hI.keeps_iff hs).2 hC.2)).1

end

instance (s : State) : DecidablePred (AnyAccept s)
  | .select _ _ => inferInstanceAs (Decidable (_ ∨ _ ∧ _ ∧ _))
  | .accept _ => inferInstanceAs (Decidable (_ ∨ _ ∧ _ ∧ _))
  | .read _ => inferInstanceAs (Decidable (∀ _ ∈ _, _))
  | .next | .write _ => .isTrue trivial

/-- The run in which the descriptor `4` is handed out twice. -/
theorem reuse_keepsRange :
    ∃ t, machine.Run AnyAccept (.init 3 fun _ => 0) reuse t ∧
      machine.Run KeepsRange (.init 3 fun _ => 0) reuse t := by
  have hrun : (machine.runChecked (fun s a => decide (AnyAccept s a)) (.init 3 fun _ => 0)
      reuse).isSome = true := by
    decide +kernel
  obtain ⟨t, ht⟩ := Option.isSome_iff_exists.1 hrun
  have hr : machine.Run AnyAccept (.init 3 fun _ => 0) reuse t := .of_decided ht
  refine ⟨t, hr, ((keepsRange_iff hr).2 ⟨by decide, fun connfd hmem => ?_⟩).2⟩
  have hcases : connfd = 4 ∨ connfd = 5 := by simpa [reuse, or_comm, or_assoc] using hmem
  rcases hcases with rfl | rfl
  · decide
  · decide

/-- A failure of `accept` is put into the set, and so is a descriptor beyond `FD_SETSIZE`. -/
theorem failedAccept_not_keepsRange :
    ∃ s, machine.Run AnyAccept (.init 3 fun _ => 0) [.select 1 {3}] s ∧
      (AnyAccept s (.accept (-1)) ∧ ¬ KeepsRange s (.accept (-1)) ∧
        (s.newClient (-1)).allset = {-1, 3}) ∧
      (AnyAccept s (.accept 1024) ∧ ¬ KeepsRange s (.accept 1024) ∧
        (s.newClient 1024).allset = {1024, 3}) := by
  refine ⟨(State.init 3 fun _ => 0).selected 1 {3}, .cons _ ?_ rfl .nil, ⟨.inl rfl, ?_, by decide⟩,
    .inr (by decide), ?_, by decide⟩
  · decide
  · intro h
    exact absurd (h.inSet (-1) (by decide)) (by decide)
  · intro h
    exact absurd (h.inSet 1024 (by decide)) (by decide)

end LinuxTraining.IoModels.Select
