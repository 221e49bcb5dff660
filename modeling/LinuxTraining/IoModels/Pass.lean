import LinuxTraining.IoModels.Range

/-!
# The select server: one pass of the main loop

A pass counts the ready descriptors down and ends when it has met them all. `Counted` is what makes
that right: at each point of a pass `nready` is the number of ready clients in the slots that have
not been looked at, and of the call that is under way. So a pass reads what a loop over the whole of
`client[]` would read (`pass_exact`); such a loop is `scanMachine`.
-/

namespace LinuxTraining.IoModels.Select

open Lib

/-- The ready clients in `client[]` from slot `i` on, with `k` slots to go. -/
def readyFrom (client : Nat → Int) (rset : Finset Int) (i : Nat) : Nat → List Int
  | 0 => []
  | k + 1 =>
    (if 0 ≤ client i ∧ client i ∈ rset then [client i] else []) ++ readyFrom client rset (i + 1) k

/-- The ready clients from slot `i` to the end of `client[]`. -/
def readyAfter (client : Nat → Int) (rset : Finset Int) (i : Nat) : List Int :=
  readyFrom client rset i (FD_SETSIZE - i)

/-- The descriptor that a step reads from. -/
def readOf (s : State) : Act → Option Int
  | .read _ => some s.sockfd
  | .select _ _ | .accept _ | .next | .write _ => none

/-- A call of `accept`. -/
def Act.isAccept : Act → Bool
  | .accept _ => true
  | .select _ _ | .next | .read _ | .write _ => false

/-- One pass: `select` returns the set `rset` and its size, and no call after it is a `select`. -/
def Passes (s : State) (rset : Finset Int) (as : List Act) (t : State) : Prop :=
  machine.Run Env s (.select rset.card rset :: as) t ∧ ∀ nready r, .select nready r ∉ as

/-! ## A loop that does not end early -/

/-- The client loop at index `i`, over the whole of `client[]`. -/
def State.checkAll (s : State) (i : Nat) : State :=
  if FD_SETSIZE ≤ i then { s with pc := .select }
  else if s.client i < 0 then { s with sockfd := s.client i, pc := .check (i + 1) }
  else
    { s with sockfd := s.client i,
             pc := if s.client i ∈ s.rset then .read i else .check (i + 1) }

/-- A pass that would end goes on at index `i`. -/
def State.goOn (s : State) (i : Nat) : State :=
  { s with pc := if s.pc = .select then .check i else s.pc }

/-- A step of a pass that looks at every slot, whatever `nready` and `maxi` are. -/
def scanStep (s : State) (a : Act) : Option State :=
  match a, s.pc with
  | .accept connfd, .accept => some ((s.newClient connfd).goOn 0)
  | .next, .check i => some (s.checkAll i)
  | .read r, .read i => some (((s.fetch r).serve i).goOn (i + 1))
  | .write k, .write i => some (((s.reply k).countDown .select (.check (i + 1))).goOn (i + 1))
  | _, _ => none

/-- The pass that looks at every slot. -/
def scanMachine : Machine State Act where
  init := machine.init
  step := scanStep

/-- What a pass from `s` to `t` does. -/
structure ExactPass (s : State) (rset : Finset Int) (as : List Act) (t : State) : Prop where
  accepts : as.countP Act.isAccept = if s.listenfd ∈ rset then 1 else 0
  reads : machine.events readOf (s.selected rset.card rset) as = readyAfter s.client rset 0
  once : (readyAfter s.client rset 0).Nodup
  ready : ∀ fd, fd ∈ readyAfter s.client rset 0 ↔ fd ∈ rset ∧ fd ≠ s.listenfd
  notNew : ∀ connfd, .accept connfd ∈ as → connfd ∉ readyAfter s.client rset 0
  scan : ∃ k u, scanMachine.runFrom (s.selected rset.card rset) (as ++ List.replicate k .next) =
    some u ∧ u.pc = .select ∧ u = { t with sockfd := u.sockfd }

/-! ## What is left of a pass -/

/-- The ready clients that a pass has not read from. -/
def State.due (s : State) : List Int :=
  match s.pc with
  | .accept => readyAfter s.client s.rset 0
  | .check i | .read i => readyAfter s.client s.rset i
  | .write i => readyAfter s.client s.rset (i + 1)
  | .select | .exit _ => []

/-- The descriptor that the pass is at, where it is counted later. -/
def State.owed (s : State) : Nat :=
  match s.pc with
  | .accept | .write _ => 1
  | .select | .check _ | .read _ | .exit _ => 0

/-- A bound for the steps that are left of a pass. -/
def State.left (s : State) : Nat :=
  match s.pc with
  | .accept => 3 * FD_SETSIZE + 2
  | .check i => 3 * (FD_SETSIZE - i) + 1
  | .read i => 3 * (FD_SETSIZE - i)
  | .write i => 3 * (FD_SETSIZE - i) - 1
  | .select | .exit _ => 0

/-- The invariant of a pass. -/
structure Counted (s : State) : Prop where
  running : ∀ status, s.pc ≠ .exit status
  book : Bookkeeping s
  atSlot : AtSlot s
  ranged : Ranged s.client
  count : s.nready = s.due.length + s.owed
  more : ∀ i, s.pc = .check i → 0 < s.nready
  watched : s.pc = .accept → s.rset ⊆ s.allset
  ready : ∀ i, s.pc = .read i → s.sockfd ∈ s.rset

section
variable {s t : State} {a : Act} {client client' : Nat → Int} {rset : Finset Int} {i : Nat}

theorem readyAfter_eq (client : Nat → Int) (rset : Finset Int) (hi : i < FD_SETSIZE) :
    readyAfter client rset i =
      (if 0 ≤ client i ∧ client i ∈ rset then [client i] else []) ++
        readyAfter client rset (i + 1) := by
  have hk : FD_SETSIZE - i = FD_SETSIZE - (i + 1) + 1 := by omega
  rw [readyAfter, readyAfter, hk]
  rfl

theorem mem_readyFrom {k : Nat} {fd : Int} : fd ∈ readyFrom client rset i k ↔
    fd ∈ rset ∧ ∃ j, i ≤ j ∧ j < i + k ∧ 0 ≤ fd ∧ client j = fd := by
  induction k generalizing i with
  | zero =>
    refine iff_of_false List.not_mem_nil ?_
    rintro ⟨-, j, h1, h2, -⟩
    omega
  | succ k ih =>
    rw [readyFrom, List.mem_append, ih]
    constructor
    · rintro (hfd | ⟨hfd, j, h1, h2, h⟩)
      · split at hfd
        · next hi =>
          obtain rfl := List.mem_singleton.1 hfd
          exact ⟨hi.2, i, le_rfl, by omega, hi.1, rfl⟩
        · exact absurd hfd List.not_mem_nil
      · exact ⟨hfd, j, by omega, by omega, h⟩
    · rintro ⟨hfd, j, h1, h2, hpos, rfl⟩
      rcases eq_or_ne j i with rfl | hne
      · exact .inl (by rw [if_pos ⟨hpos, hfd⟩]; exact List.mem_singleton_self _)
      · exact .inr ⟨hfd, j, by omega, by omega, hpos, rfl⟩

theorem mem_readyAfter {fd : Int} (hi : i ≤ FD_SETSIZE) : fd ∈ readyAfter client rset i ↔
    fd ∈ rset ∧ ∃ j, i ≤ j ∧ Slot client j fd := by
  rw [readyAfter, mem_readyFrom]
  refine and_congr_right fun _ => exists_congr fun j => and_congr_right fun _ => ?_
  have hend : j < i + (FD_SETSIZE - i) ↔ j < FD_SETSIZE := by omega
  rw [hend]
  exact Iff.rfl

/-- Each ready client once. -/
theorem readyFrom_nodup {k : Nat} (hk : i + k ≤ FD_SETSIZE)
    (h : ∀ i j fd, Slot client i fd → Slot client j fd → i = j) :
    (readyFrom client rset i k).Nodup := by
  induction k generalizing i with
  | zero => exact List.nodup_nil
  | succ k ih =>
    refine List.nodup_append.2 ⟨?_, ih (by omega), ?_⟩
    · split
      · exact List.nodup_singleton _
      · exact List.nodup_nil
    · rintro fd hfd _ hfd' rfl
      split at hfd
      · next hi =>
        obtain rfl := List.mem_singleton.1 hfd
        obtain ⟨-, j, h1, h2, hpos, hj⟩ := mem_readyFrom.1 hfd'
        have := h i j _ ⟨by omega, hi.1, rfl⟩ ⟨by omega, hpos, hj⟩
        omega
      · exact absurd hfd List.not_mem_nil

/-- Slots that differ in descriptors that are not ready. -/
theorem readyFrom_congr {k : Nat} (h : ∀ j, i ≤ j → client j = client' j ∨
    ¬ (0 ≤ client j ∧ client j ∈ rset) ∧ ¬ (0 ≤ client' j ∧ client' j ∈ rset)) :
    readyFrom client rset i k = readyFrom client' rset i k := by
  induction k generalizing i with
  | zero => rfl
  | succ k ih =>
    rw [readyFrom, readyFrom, ih fun j hj => h j (by omega)]
    rcases h i le_rfl with heq | ⟨hnot, hnot'⟩
    · rw [heq]
    · rw [if_neg hnot, if_neg hnot']

/-- No client beyond `maxi`. -/
theorem Bookkeeping.readyAfter_eq_nil (h : Bookkeeping s) (hi : s.maxi < i) :
    readyAfter s.client rset i = [] := by
  rcases Nat.lt_or_ge FD_SETSIZE i with hgt | hle
  · rw [readyAfter, Nat.sub_eq_zero_of_le hgt.le]
    rfl
  · refine List.eq_nil_iff_forall_not_mem.2 fun fd hfd => ?_
    obtain ⟨-, j, hj, hslot⟩ := (mem_readyAfter hle).1 hfd
    have := h.maxi j fd hslot
    omega

/-- What `--nready == 0` leaves, when there was one descriptor more than the clients in `l`. -/
theorem countDown_due {l : List Int} (hl : readyAfter s.client s.rset i = l)
    (hn : s.nready = l.length + 1) :
    (s.countDown .select (.check i)).due = l ∧
      (s.countDown .select (.check i)).nready = l.length ∧
      (s.countDown .select (.check i)).owed = 0 ∧
      ((s.countDown .select (.check i)).pc = .select ∧ l = [] ∨
        (s.countDown .select (.check i)).pc = .check i ∧ l ≠ []) := by
  have hnready : s.nready - 1 = l.length := by omega
  unfold State.countDown State.due State.owed
  rw [hnready]
  dsimp only
  cases l with
  | nil => exact ⟨rfl, rfl, rfl, .inl ⟨rfl, rfl⟩⟩
  | cons fd l =>
    have hne : ¬ ((fd :: l).length : Int) = 0 := Int.natCast_ne_zero.2 (Nat.succ_ne_zero _)
    rw [if_neg hne]
    exact ⟨hl, rfl, rfl, .inr ⟨rfl, List.cons_ne_nil fd l⟩⟩

/-- The invariant after `--nready == 0`. -/
theorem Counted.countDown {l : List Int} (hbook : Bookkeeping s) (hranged : Ranged s.client)
    (hl : readyAfter s.client s.rset i = l) (hn : s.nready = l.length + 1) :
    Counted (s.countDown .select (.check i)) := by
  obtain ⟨hdue, hnready, howed, hpc⟩ := countDown_due hl hn
  have hcases : ∀ pc, (s.countDown .select (.check i)).pc = pc → pc = .select ∨ pc = .check i := by
    rintro pc rfl
    exact hpc.imp And.left And.left
  refine ⟨fun status h => ?_, hbook.countDown .., .countDown .., hranged, ?_, fun j hj => ?_,
    fun h => ?_, fun j h => ?_⟩
  · rcases hcases _ h with h | h <;> cases h
  · rw [hdue, howed, hnready]
    rfl
  · rw [hnready]
    rcases hpc with ⟨hpc, -⟩ | ⟨-, hne⟩
    · rw [hpc] at hj
      cases hj
    · exact Int.natCast_pos.2 (List.length_pos_iff.2 hne)
  · rcases hcases _ h with h | h <;> cases h
  · rcases hcases _ h with h | h <;> cases h

/-! ## The steps of a pass -/

/-- What a step of a pass does: what is due is read or stays due, and the full scan takes the same
step, and goes on where the pass ends. -/
structure Advances (s : State) (a : Act) (t : State) : Prop where
  counted : Counted t
  rset : t.rset = s.rset
  due : s.due = (readOf s a).toList ++ t.due
  accept : a.isAccept = true ↔ s.pc = .accept
  notAccept : t.pc ≠ .accept
  fresh : ∀ connfd, a = .accept connfd → connfd ∉ s.rset
  left : t.left < s.left
  scan : t.pc ≠ .select ∧ scanStep s a = some t ∨
    t.pc = .select ∧ ∃ i ≤ FD_SETSIZE, scanStep s a = some { t with pc := .check i } ∧
      readyAfter t.client t.rset i = []

/-- The scan where the pass counts down. -/
theorem scan_countDown {u : State} {l : List Int} (hi : i ≤ FD_SETSIZE)
    (hl : readyAfter u.client u.rset i = l) (hn : u.nready = l.length + 1)
    (hs : scanStep s a = some ((u.countDown .select (.check i)).goOn i)) :
    (u.countDown .select (.check i)).pc ≠ .select ∧
        scanStep s a = some (u.countDown .select (.check i)) ∨
      (u.countDown .select (.check i)).pc = .select ∧ ∃ i ≤ FD_SETSIZE,
        scanStep s a = some { u.countDown .select (.check i) with pc := .check i } ∧
          readyAfter (u.countDown .select (.check i)).client
            (u.countDown .select (.check i)).rset i = [] := by
  obtain ⟨-, -, -, ⟨hpc, hnil⟩ | ⟨hpc, -⟩⟩ := countDown_due hl hn
  · refine .inr ⟨hpc, i, hi, ?_, hl.trans hnil⟩
    rw [hs, State.goOn, if_pos hpc]
  · have hne : (u.countDown .select (.check i)).pc ≠ .select := by
      rw [hpc]
      exact Pc.noConfusion
    refine .inl ⟨hne, ?_⟩
    rw [hs, State.goOn, if_neg hne]

theorem left_countDown {l : List Int} (hl : readyAfter s.client s.rset i = l)
    (hn : s.nready = l.length + 1) :
    (s.countDown .select (.check i)).left ≤ 3 * (FD_SETSIZE - i) + 1 := by
  obtain ⟨-, -, -, ⟨hpc, -⟩ | ⟨hpc, -⟩⟩ := countDown_due hl hn
  · rw [State.left, hpc]
    exact Nat.zero_le _
  · rw [State.left, hpc]

theorem countDown_not_accept (s : State) (i : Nat) :
    (s.countDown .select (.check i)).pc ≠ .accept := by
  rcases countDown_pc s .select (.check i) with h | h
  · rw [h]
    exact Pc.noConfusion
  · rw [h]
    exact Pc.noConfusion

/-- What is due where the pass is. -/
theorem due_eq {pc : Pc} (hpc : s.pc = pc) : s.due = State.due { s with pc := pc } := by rw [← hpc]

/-- A descriptor that is not open is not ready, for it is not watched. -/
theorem Counted.not_ready (h : Counted s) (hpc : s.pc = .accept) {fd : Int}
    (hlisten : fd ≠ s.listenfd) (hclosed : s.net.conn fd = none) : fd ∉ s.rset := by
  intro hmem
  rcases (h.book.watched fd).1 (h.watched hpc hmem) with heq | ⟨i, hi⟩
  · exact hlisten heq
  · exact h.book.not_slot hclosed i hi

/-- A connection is accepted: its descriptor is not ready. -/
theorem Counted.accept (h : Counted s) (hpc : s.pc = .accept) {connfd : Int}
    (henv : Env s (.accept connfd)) : Advances s (.accept connfd) (s.newClient connfd) := by
  obtain ⟨h0, hmax, hlisten, hclosed⟩ := henv
  have hnew := h.book.not_slot hclosed
  have hnotReady := h.not_ready hpc hlisten hclosed
  have hfree : freeSlot s.client 0 FD_SETSIZE ≠ FD_SETSIZE :=
    freeSlot_ne h.ranged h.book.distinct ⟨h0, hmax⟩ hnew
  have hle : freeSlot s.client 0 FD_SETSIZE ≤ 0 + FD_SETSIZE := freeSlot_le ..
  have hneg : s.client (freeSlot s.client 0 FD_SETSIZE) < 0 := freeSlot_free (by omega)
  have hstep : step s (.accept connfd) = some (s.newClient connfd) := by rw [step, hpc]
  have hranged : Ranged (s.newClient connfd).client := h.ranged.step (by
    rintro c hc
    obtain rfl := Act.accept.inj hc
    exact ⟨h0, hmax⟩) hstep
  have hbook := h.book.newClient h0 hlisten hclosed hfree
  have hcount := h.count
  have hdue : s.due = readyAfter s.client s.rset 0 := due_eq hpc
  have howed : s.owed = 1 := by rw [State.owed, hpc]
  have hscan : scanStep s (.accept connfd) = some ((s.newClient connfd).goOn 0) := by
    simp only [scanStep, hpc]
  have hleft : s.left = 3 * FD_SETSIZE + 2 := by rw [State.left, hpc]
  -- the state before the countdown
  obtain ⟨u, hu, hclient, hrset, hnready⟩ : ∃ u : State,
      s.newClient connfd = u.countDown .select (.check 0) ∧
      u.client = Function.update s.client (freeSlot s.client 0 FD_SETSIZE) connfd ∧
      u.rset = s.rset ∧ u.nready = s.nready := ⟨_, if_neg hfree, rfl, rfl, rfl⟩
  have hl : readyAfter u.client u.rset 0 = s.due := by
    rw [hdue, hclient, hrset]
    refine readyFrom_congr fun j _ => ?_
    rcases eq_or_ne j (freeSlot s.client 0 FD_SETSIZE) with rfl | hne
    · rw [Function.update_self]
      exact .inr ⟨fun hready => hnotReady hready.2, fun hready => absurd hready.1 (not_le.2 hneg)⟩
    · exact .inl (Function.update_of_ne hne ..)
  have hn : u.nready = s.due.length + 1 := by
    rw [hnready, hcount, howed]
    rfl
  rw [hu] at hbook hranged hscan ⊢
  have hubook : Bookkeeping u := hbook.of_eq rfl rfl rfl rfl rfl rfl
  obtain ⟨hudue, -, -, -⟩ := countDown_due hl hn
  have hlast := left_countDown hl hn
  refine ⟨.countDown hubook hranged hl hn, hrset, ?_, iff_of_true rfl hpc,
    countDown_not_accept u 0, ?_, by omega, scan_countDown (Nat.zero_le _) hl hn hscan⟩
  · rw [hudue]
    rfl
  · rintro c hc
    obtain rfl := Act.accept.inj hc
    exact hnotReady

/-- A slot without a ready client is skipped. -/
theorem Counted.skip (h : Counted s) (hpc : s.pc = .check i) (hi : i < FD_SETSIZE)
    (hnot : ¬ (0 ≤ s.client i ∧ s.client i ∈ s.rset))
    (hscan : scanStep s .next = some { s with sockfd := s.client i, pc := .check (i + 1) }) :
    Advances s .next { s with sockfd := s.client i, pc := .check (i + 1) } := by
  have hdue : s.due = readyAfter s.client s.rset (i + 1) := by
    rw [due_eq hpc]
    show readyAfter s.client s.rset i = _
    rw [readyAfter_eq _ _ hi, if_neg hnot]
    rfl
  have howed : s.owed = 0 := by rw [State.owed, hpc]
  have hcount := h.count
  rw [howed, hdue] at hcount
  have hleft : s.left = 3 * (FD_SETSIZE - i) + 1 := by rw [State.left, hpc]
  have hpc' : ∀ {pc : Pc}, Pc.check (i + 1) = pc → pc ≠ .accept ∧ pc ≠ .select := by
    rintro _ rfl
    exact ⟨Pc.noConfusion, Pc.noConfusion⟩
  refine ⟨⟨fun _ => Pc.noConfusion, h.book.of_eq rfl rfl rfl rfl rfl rfl, trivial, h.ranged, hcount,
    fun _ _ => h.more i hpc, Pc.noConfusion, fun _ => Pc.noConfusion⟩, rfl, hdue, ?_, (hpc' rfl).1,
    fun _ => Act.noConfusion, ?_, .inl ⟨(hpc' rfl).2, hscan⟩⟩
  · rw [hpc]
    exact iff_of_false Bool.noConfusion Pc.noConfusion
  · rw [hleft]
    show 3 * (FD_SETSIZE - (i + 1)) + 1 < _
    omega

/-- A slot is looked at: a pass does not pass `maxi` while something is counted. -/
theorem Counted.next (h : Counted s) (hpc : s.pc = .check i) :
    Advances s .next (s.checkClient i) := by
  have hdue : s.due = readyAfter s.client s.rset i := due_eq hpc
  have howed : s.owed = 0 := by rw [State.owed, hpc]
  have hcount := h.count
  have hmore := h.more i hpc
  have hmaxi := h.book.inRange
  have hle : ¬ s.maxi < i := by
    intro hlt
    rw [hdue, h.book.readyAfter_eq_nil hlt, howed] at hcount
    rw [hcount] at hmore
    exact absurd hmore (by decide)
  have hi : i < FD_SETSIZE := by omega
  have hscan : scanStep s .next = some (s.checkAll i) := by simp only [scanStep, hpc]
  rw [State.checkAll, if_neg (not_le.2 hi)] at hscan
  rw [State.checkClient, if_neg hle]
  by_cases hneg : s.client i < 0
  · rw [if_pos hneg] at hscan ⊢
    exact h.skip hpc hi (fun hready => absurd hready.1 (not_le.2 hneg)) hscan
  · rw [if_neg hneg] at hscan ⊢
    by_cases hmem : s.client i ∈ s.rset
    · rw [if_pos hmem] at hscan ⊢
      have hslot : Slot s.client i (s.client i) := ⟨hi, not_lt.1 hneg, rfl⟩
      refine ⟨⟨fun _ => Pc.noConfusion, h.book.of_eq rfl rfl rfl rfl rfl rfl, hslot, h.ranged, ?_,
        fun _ => Pc.noConfusion, Pc.noConfusion, fun _ _ => hmem⟩, rfl, hdue, ?_, Pc.noConfusion,
        fun _ => Act.noConfusion, ?_, .inl ⟨Pc.noConfusion, hscan⟩⟩
      · rw [hcount, hdue, howed]
        rfl
      · rw [hpc]
        exact iff_of_false Bool.noConfusion Pc.noConfusion
      · have hleft : s.left = 3 * (FD_SETSIZE - i) + 1 := by rw [State.left, hpc]
        rw [hleft]
        exact Nat.lt_succ_self _
    · rw [if_neg hmem] at hscan ⊢
      exact h.skip hpc hi (fun hready => hmem hready.2) hscan

/-- A ready client is read from: what it has sent is answered, or it is closed. -/
theorem Counted.read (h : Counted s) (hpc : s.pc = .read i) (r : ReadResult) :
    Advances s (.read r) ((s.fetch r).serve i) := by
  have hslot : Slot s.client i s.sockfd := by
    have hat := h.atSlot
    rwa [AtSlot, hpc] at hat
  have hready : 0 ≤ s.client i ∧ s.client i ∈ s.rset := by
    rw [hslot.2.2]
    exact ⟨hslot.2.1, h.ready i hpc⟩
  have hdue : s.due = s.sockfd :: readyAfter s.client s.rset (i + 1) := by
    rw [due_eq hpc]
    show readyAfter s.client s.rset i = _
    rw [readyAfter_eq _ _ hslot.1, if_pos hready, hslot.2.2]
    rfl
  have howed : s.owed = 0 := by rw [State.owed, hpc]
  have hleft : s.left = 3 * (FD_SETSIZE - i) := by rw [State.left, hpc]
  have hcount : s.nready = (readyAfter s.client s.rset (i + 1)).length + 1 := by
    rw [h.count, hdue, howed, List.length_cons]
    push_cast
    omega
  have hscan : scanStep s (.read r) = some (((s.fetch r).serve i).goOn (i + 1)) := by
    simp only [scanStep, hpc]
  have haccept : (Act.read r).isAccept = true ↔ s.pc = .accept := by
    rw [hpc]
    exact iff_of_false Bool.noConfusion Pc.noConfusion
  have hfetch : Bookkeeping (s.fetch r) := h.book.of_eq rfl rfl rfl rfl rfl rfl
  have hi := hslot.1
  by_cases hn : (s.fetch r).n = 0
  · have hserve : (s.fetch r).serve i =
        ((s.fetch r).closeClient i).countDown .select (.check (i + 1)) := if_pos hn
    rw [hserve] at hscan ⊢
    -- the slot that is given up lies behind
    have hl : readyAfter ((s.fetch r).closeClient i).client ((s.fetch r).closeClient i).rset
        (i + 1) = readyAfter s.client s.rset (i + 1) :=
      readyFrom_congr fun j hj => .inl (Function.update_of_ne (by omega) ..)
    obtain ⟨hdue', -, -, -⟩ := countDown_due hl hcount
    have hlast := left_countDown hl hcount
    have hranged : Ranged ((s.fetch r).closeClient i).client := by
      intro j fd hj
      exact h.ranged j fd ((slot_clear s.client i j fd).1 hj).1
    refine ⟨.countDown (hfetch.closeClient hslot) hranged hl hcount, rfl, ?_, haccept,
      countDown_not_accept _ _, fun _ => Act.noConfusion, by omega,
      scan_countDown (by omega) hl hcount hscan⟩
    rw [hdue', hdue]
    rfl
  · have hserve : (s.fetch r).serve i =
        { s.fetch r with buf := upper (s.fetch r).buf (s.fetch r).n, pc := .write i } := if_neg hn
    rw [hserve] at hscan ⊢
    refine ⟨⟨fun _ => Pc.noConfusion, h.book.of_eq rfl rfl rfl rfl rfl rfl, hslot, h.ranged, hcount,
      fun _ => Pc.noConfusion, Pc.noConfusion, fun _ => Pc.noConfusion⟩, rfl, hdue, haccept,
      Pc.noConfusion, fun _ => Act.noConfusion, ?_, .inl ⟨Pc.noConfusion, hscan⟩⟩
    rw [hleft]
    show 3 * (FD_SETSIZE - i) - 1 < _
    omega

/-- A client is answered. -/
theorem Counted.write (h : Counted s) (hpc : s.pc = .write i) (k : Nat) :
    Advances s (.write k) ((s.reply k).countDown .select (.check (i + 1))) := by
  have hi : i < FD_SETSIZE := by
    have hat := h.atSlot
    rw [AtSlot, hpc] at hat
    exact hat.1
  have hdue : s.due = readyAfter s.client s.rset (i + 1) := due_eq hpc
  have howed : s.owed = 1 := by rw [State.owed, hpc]
  have hleft : s.left = 3 * (FD_SETSIZE - i) - 1 := by rw [State.left, hpc]
  have hcount : (s.reply k).nready = (readyAfter s.client s.rset (i + 1)).length + 1 := by
    have hcount := h.count
    rw [hdue, howed] at hcount
    exact hcount
  have hl : readyAfter (s.reply k).client (s.reply k).rset (i + 1) =
    readyAfter s.client s.rset (i + 1) := rfl
  have hscan : scanStep s (.write k) =
      some (((s.reply k).countDown .select (.check (i + 1))).goOn (i + 1)) := by
    simp only [scanStep, hpc]
  have hbook : Bookkeeping (s.reply k) := h.book.of_eq rfl rfl rfl rfl rfl rfl
  obtain ⟨hdue', -, -, -⟩ := countDown_due hl hcount
  have hlast := left_countDown hl hcount
  refine ⟨.countDown hbook h.ranged hl hcount, rfl, ?_, ?_, countDown_not_accept _ _,
    fun _ => Act.noConfusion, by omega, scan_countDown (by omega) hl hcount hscan⟩
  · rw [hdue', hdue]
    rfl
  · rw [hpc]
    exact iff_of_false Bool.noConfusion Pc.noConfusion

/-- Every step of a pass. -/
theorem Counted.step (h : Counted s) (henv : Env s a) (hpc : s.pc ≠ .select)
    (hs : step s a = some t) : Advances s a t := by
  obtain ⟨_, _, -, hsel, -⟩ | ⟨_, _, -, hsel, -⟩ | ⟨_, rfl, hacc, rfl⟩ | ⟨_, rfl, hcheck, rfl⟩ |
    ⟨_, r, rfl, hread, rfl⟩ | ⟨_, k, rfl, hwrite, rfl⟩ := step_cases hs
  · exact absurd hsel hpc
  · exact absurd hsel hpc
  · exact h.accept hacc henv
  · exact h.next hcheck
  · exact h.read hread r
  · exact h.write hwrite k

/-! ## A whole pass -/

/-- A pass is under way. -/
def Passing (s : State) (a : Act) : Prop := Env s a ∧ s.pc ≠ .select

/-- The step at the head of the main loop. -/
theorem step_of_select (hpc : s.pc = .select) (hs : step s a = some t) :
    ∃ nready r, a = .select nready r := by
  obtain ⟨nready, r, rfl, -⟩ | ⟨nready, r, rfl, -⟩ | ⟨_, -, hpc', -⟩ | ⟨_, -, hpc', -⟩ |
    ⟨_, _, -, hpc', -⟩ | ⟨_, _, -, hpc', -⟩ := step_cases hs
  · exact ⟨nready, r, rfl⟩
  · exact ⟨nready, r, rfl⟩
  all_goals
    rw [hpc] at hpc'
    cases hpc'

/-- A pass is a run from what `select` leaves. -/
theorem Passes.passing {as : List Act} (h : Passes s rset as t) (hpc : s.pc = .select) :
    machine.Run Passing (s.selected rset.card rset) as t := by
  obtain ⟨hr, hnone⟩ := h
  obtain ⟨u, -, hu, hr⟩ := hr.uncons
  have hstart : u = s.selected rset.card rset := by
    have hstep : step s (.select rset.card rset) = some u := hu
    simp only [step, hpc, if_neg (not_lt.2 (Int.natCast_nonneg rset.card))] at hstep
    exact (Option.some.inj hstep).symm
  rw [hstart] at hr
  have hlabels := hr.of_labels (P := fun a => ∀ nready r, a ≠ .select nready r) (by
    rintro a ha nready r rfl
    exact hnone nready r ha)
  refine ((hr.and hlabels).guarded (I := fun _ => True) trivial (fun _ _ _ _ _ _ => trivial)
    fun v a _ _ hC hs => ⟨hC.1, fun hsel => ?_⟩).1
  obtain ⟨nready, r, rfl⟩ := step_of_select hsel hs
  exact hC.2 nready r rfl

/-- Whether `accept` is due. -/
def State.accepting (s : State) : Nat := if s.pc = .accept then 1 else 0

/-- What is known of the calls of a pass so far, from `s` to `t`. -/
structure SoFar (s : State) (as : List Act) (t : State) : Prop where
  counted : Counted t
  rset : t.rset = s.rset
  due : s.due = machine.events readOf s as ++ t.due
  accepts : s.accepting = as.countP Act.isAccept + t.accepting
  fresh : ∀ connfd, .accept connfd ∈ as → connfd ∉ s.rset
  left : as.length + t.left ≤ s.left
  scan : t.pc ≠ .select ∧ scanMachine.runFrom s as = some t ∨
    t.pc = .select ∧ ∃ i ≤ FD_SETSIZE, scanMachine.runFrom s as = some { t with pc := .check i } ∧
      readyAfter t.client t.rset i = []

theorem Counted.soFar {as : List Act} (h : Counted s) (hpc : s.pc ≠ .select)
    (hr : machine.Run Passing s as t) : SoFar s as t := by
  induction hr with
  | nil =>
    exact ⟨h, rfl, rfl, (Nat.zero_add _).symm, fun _ hmem => absurd hmem List.not_mem_nil,
      (Nat.zero_add _).le, .inl ⟨hpc, rfl⟩⟩
  | @snoc as u t a hr hpass hs ih =>
    have hstep := ih.counted.step hpass.1 hpass.2 hs
    have hscan : scanMachine.runFrom s as = some u :=
      ih.scan.elim And.right fun hsel => absurd hsel.1 hpass.2
    have hrun : scanMachine.runFrom s (as ++ [a]) = scanStep u a := by
      rw [Machine.runFrom_append, hscan, Option.bind_some, Machine.runFrom_singleton]
      rfl
    refine ⟨hstep.counted, hstep.rset.trans ih.rset, ?_, ?_, ?_, ?_, ?_⟩
    · rw [hr.events_snoc readOf hs, List.append_assoc, ← hstep.due]
      exact ih.due
    · have hnow : u.accepting = [a].countP Act.isAccept := by
        rw [State.accepting, List.countP_singleton]
        exact if_congr hstep.accept.symm rfl rfl
      have hthen : t.accepting = 0 := if_neg hstep.notAccept
      rw [List.countP_append, ← hnow, hthen]
      exact ih.accepts
    · intro connfd hmem
      rcases List.mem_append.1 hmem with hmem | hmem
      · exact ih.fresh connfd hmem
      · rw [← ih.rset]
        exact hstep.fresh connfd (List.mem_singleton.1 hmem).symm
    · have hleft := hstep.left
      have hsofar := ih.left
      rw [List.length_append, List.length_singleton]
      omega
    · rw [hrun]
      exact hstep.scan

/-- The rest of a full scan after a pass has ended: nothing is read. -/
theorem scan_rest (hi : i ≤ FD_SETSIZE) (hrest : readyAfter s.client s.rset i = [])
    (hpc : s.pc = .check i) : ∃ k u, scanMachine.runFrom s (List.replicate k .next) = some u ∧
      u = { s with pc := .select, sockfd := u.sockfd } := by
  obtain ⟨m, hm⟩ : ∃ m, m = FD_SETSIZE - i := ⟨_, rfl⟩
  induction m generalizing s i with
  | zero =>
    have hend : scanStep s .next = some { s with pc := .select } := by
      simp only [scanStep, hpc]
      rw [State.checkAll, if_pos (by omega)]
    exact ⟨1, _, (Machine.runFrom_singleton ..).trans hend, rfl⟩
  | succ m ih =>
    have hin : i < FD_SETSIZE := by omega
    rw [readyAfter_eq _ _ hin, List.append_eq_nil_iff] at hrest
    have hnot : ¬ (0 ≤ s.client i ∧ s.client i ∈ s.rset) := by
      intro hready
      rw [if_pos hready] at hrest
      exact absurd hrest.1 (List.cons_ne_nil _ _)
    have hnext : scanStep s .next = some { s with sockfd := s.client i, pc := .check (i + 1) } := by
      simp only [scanStep, hpc]
      rw [State.checkAll, if_neg (not_le.2 hin)]
      split
      · rfl
      · next hpos => rw [if_neg fun hmem => hnot ⟨not_lt.1 hpos, hmem⟩]
    obtain ⟨k, u, hu, heq⟩ := ih (s := { s with sockfd := s.client i, pc := .check (i + 1) })
      hin hrest.2 rfl (by omega)
    refine ⟨k + 1, u, ?_, heq⟩
    rw [List.replicate_succ, Machine.runFrom]
    exact (congrArg (Option.bind · _) hnext).trans hu

/-- The ready clients are the ready descriptors other than `listenfd`. -/
theorem Bookkeeping.mem_ready (h : Bookkeeping s) (hsub : rset ⊆ s.allset) (fd : Int) :
    fd ∈ readyAfter s.client rset 0 ↔ fd ∈ rset ∧ fd ≠ s.listenfd := by
  rw [mem_readyAfter (Nat.zero_le _)]
  refine and_congr_right fun hfd => ⟨?_, fun hne => ?_⟩
  · rintro ⟨j, -, hj⟩ rfl
    exact h.notListen j hj
  · obtain ⟨j, hj⟩ := ((h.watched fd).1 (hsub hfd)).resolve_left hne
    exact ⟨j, Nat.zero_le j, hj⟩

/-- What `select` returns counts the ready clients, and `listenfd`. -/
theorem Bookkeeping.card_ready (h : Bookkeeping s) (hsub : rset ⊆ s.allset) :
    rset.card = (readyAfter s.client rset 0).length + if s.listenfd ∈ rset then 1 else 0 := by
  have hnodup : (readyAfter s.client rset 0).Nodup :=
    readyFrom_nodup (by omega) h.distinct
  have hset : (readyAfter s.client rset 0).toFinset = rset.erase s.listenfd := by
    ext fd
    rw [List.mem_toFinset, h.mem_ready hsub, Finset.mem_erase, and_comm]
  rw [← List.toFinset_card_of_nodup hnodup, hset]
  split
  · next hmem => exact (Finset.card_erase_add_one hmem).symm
  · next hmem => rw [Finset.erase_eq_of_notMem hmem, Nat.add_zero]

theorem selected_accept (hmem : s.listenfd ∈ rset) :
    (s.selected rset.card rset).pc = .accept := if_pos hmem

theorem selected_check (hmem : s.listenfd ∉ rset) :
    (s.selected rset.card rset).pc = .check 0 := if_neg hmem

/-- What `select` leaves is counted. -/
theorem Counted.selected (hbook : Bookkeeping s) (hranged : Ranged s.client)
    (hne : rset.Nonempty) (hsub : rset ⊆ s.allset) : Counted (s.selected rset.card rset) := by
  have hcard := hbook.card_ready hsub
  have hpos := Finset.card_pos.2 hne
  have hsel : Bookkeeping (s.selected rset.card rset) := hbook.of_eq rfl rfl rfl rfl rfl rfl
  by_cases hmem : s.listenfd ∈ rset
  · rw [if_pos hmem] at hcard
    have hpc := selected_accept hmem
    have hcases : ∀ pc, pc ≠ .accept → (s.selected rset.card rset).pc ≠ pc := fun pc hne heq =>
      hne (heq.symm.trans hpc)
    have hdue : (s.selected rset.card rset).due = readyAfter s.client rset 0 := due_eq hpc
    have howed : (s.selected rset.card rset).owed = 1 := by rw [State.owed, hpc]
    refine ⟨fun _ => hcases _ Pc.noConfusion, hsel,
      .of_pc fun _ => ⟨hcases _ Pc.noConfusion, hcases _ Pc.noConfusion⟩, hranged, ?_,
      fun _ h => absurd h (hcases _ Pc.noConfusion), fun _ => hsub,
      fun _ h => absurd h (hcases _ Pc.noConfusion)⟩
    rw [hdue, howed]
    exact congrArg Int.ofNat hcard
  · rw [if_neg hmem] at hcard
    have hpc := selected_check hmem
    have hcases : ∀ pc, pc ≠ .check 0 → (s.selected rset.card rset).pc ≠ pc := fun pc hne heq =>
      hne (heq.symm.trans hpc)
    have hdue : (s.selected rset.card rset).due = readyAfter s.client rset 0 := due_eq hpc
    have howed : (s.selected rset.card rset).owed = 0 := by rw [State.owed, hpc]
    refine ⟨fun _ => hcases _ Pc.noConfusion, hsel,
      .of_pc fun _ => ⟨hcases _ Pc.noConfusion, hcases _ Pc.noConfusion⟩, hranged, ?_,
      fun _ _ => Int.natCast_pos.2 hpos, fun h => absurd h (hcases _ Pc.noConfusion),
      fun _ h => absurd h (hcases _ Pc.noConfusion)⟩
    rw [hdue, howed]
    exact congrArg Int.ofNat hcard

/-- The slots hold descriptors in range at every moment. -/
theorem Ranged.of_reach (h : machine.Reach Env s) : Ranged s.client := by
  refine h.invariant ?_ fun _ _ _ hI henv hs => Ranged.step hI ?_ hs
  · rintro _ ⟨listenfd, buf, rfl⟩ i fd hi
    exact absurd hi (not_slot_empty i fd)
  · rintro connfd rfl
    exact ⟨henv.1, henv.2.1⟩

/-- A pass that has not ended can go on, if `accept` returns a fresh descriptor in range. -/
theorem Counted.progress (h : Counted s) :
    s.pc = .select ∨ s.pc = .accept ∨ ∃ a t, Env s a ∧ Select.step s a = some t := by
  cases hpc : s.pc with
  | select => exact .inl rfl
  | accept => exact .inr (.inl rfl)
  | check i => exact .inr (.inr ⟨.next, s.checkClient i, trivial, by rw [Select.step, hpc]⟩)
  | read i => exact .inr (.inr ⟨.read none, _, trivial, by rw [Select.step, hpc]⟩)
  | write i => exact .inr (.inr ⟨.write 0, _, trivial, by rw [Select.step, hpc]⟩)
  | exit status => exact absurd hpc (h.running status)

/-- **One pass is exact.** It accepts once if and only if `listenfd` is ready, it reads from each
ready client once and from nothing else, as a full scan of `client[]` would, and it ends. -/
theorem pass_exact (h : machine.Reach Env s) (hpc : s.pc = .select) (hne : rset.Nonempty)
    (hsub : rset ⊆ s.allset) :
    (∀ as t, Passes s rset as t → t.pc = .select → ExactPass s rset as t) ∧
    ∀ as t, Passes s rset as t → as.length ≤ 3 * FD_SETSIZE + 2 ∧
      (t.pc = .select ∨ t.pc = .accept ∨ ∃ a u, Env t a ∧ step t a = some u) := by
  obtain ⟨hbook, -⟩ := bookkeeping_of_reach h hpc
  have hcounted := Counted.selected hbook (.of_reach h) hne hsub
  have hstart : (s.selected rset.card rset).pc ≠ .select := by
    by_cases hmem : s.listenfd ∈ rset
    · rw [selected_accept hmem]
      exact Pc.noConfusion
    · rw [selected_check hmem]
      exact Pc.noConfusion
  have hdue : (s.selected rset.card rset).due = readyAfter s.client rset 0 := by
    by_cases hmem : s.listenfd ∈ rset
    · exact due_eq (selected_accept hmem)
    · exact due_eq (selected_check hmem)
  refine ⟨fun as t hpass hend => ?_, fun as t hpass => ?_⟩
  · have hsofar := hcounted.soFar hstart (hpass.passing hpc)
    have hdone : t.due = [] := due_eq hend
    have haccepted : t.accepting = 0 := if_neg (by rw [hend]; exact Pc.noConfusion)
    refine ⟨?_, ?_, readyFrom_nodup (by omega) hbook.distinct, hbook.mem_ready hsub, ?_, ?_⟩
    · have hcount := hsofar.accepts
      rw [haccepted, Nat.add_zero] at hcount
      rw [← hcount, State.accepting]
      by_cases hmem : s.listenfd ∈ rset
      · rw [if_pos hmem, selected_accept hmem, if_pos rfl]
      · rw [if_neg hmem, selected_check hmem, if_neg Pc.noConfusion]
    · rw [← hdue, hsofar.due, hdone, List.append_nil]
    · intro connfd hmem hready
      exact hsofar.fresh connfd hmem ((hbook.mem_ready hsub connfd).1 hready).1
    · obtain ⟨hnot, -⟩ | ⟨-, i, hi, hrun, hrest⟩ := hsofar.scan
      · exact absurd hend hnot
      · obtain ⟨k, u, hu, heq⟩ := scan_rest (s := { t with pc := .check i }) hi hrest rfl
        refine ⟨k, u, ?_, by rw [heq], ?_⟩
        · rw [Machine.runFrom_append, hrun]
          exact hu
        · rw [← hend] at heq
          exact heq
  · have hsofar := hcounted.soFar hstart (hpass.passing hpc)
    refine ⟨?_, hsofar.counted.progress⟩
    have hleft := hsofar.left
    have hbound : (s.selected rset.card rset).left ≤ 3 * FD_SETSIZE + 2 := by
      rw [State.left]
      split <;> omega
    omega

end

/-- A pass in which `4` is accepted and the client on `5` has sent a byte. -/
def acceptAndRead : List Act := [.accept 4, .next, .next, .read (some [97]), .write 1]

/-- The descriptor that is accepted is not read from. -/
theorem acceptAndRead_exact :
    ∃ s t, machine.Reach Env s ∧ Passes s {3, 5} acceptAndRead t ∧
      ExactPass s {3, 5} acceptAndRead t := by
  have hrun : (machine.runChecked (fun s a => decide (Env s a)) (.init 3 fun _ => 0)
      (reuse.take 7)).map (fun s => (s.pc, decide ({3, 5} ⊆ s.allset),
        (machine.runChecked (fun s a => decide (Env s a)) s
          (.select (({3, 5} : Finset Int).card) {3, 5} :: acceptAndRead)).map (·.pc))) =
      some (.select, true, some .select) := by
    decide +kernel
  obtain ⟨s, hs, hend⟩ := Option.map_eq_some_iff.1 hrun
  simp only [Prod.mk.injEq, decide_eq_true_eq] at hend
  obtain ⟨hpc, hsub, hpass⟩ := hend
  obtain ⟨t, ht, htpc⟩ := Option.map_eq_some_iff.1 hpass
  have hreach : machine.Reach Env s := .of_decided ⟨3, _, rfl⟩ hs
  have hpasses : Passes s {3, 5} acceptAndRead t := by
    refine ⟨.of_decided ht, fun nready r hmem => ?_⟩
    simp [acceptAndRead] at hmem
  exact ⟨s, t, hreach, hpasses,
    (pass_exact hreach hpc ⟨3, by decide⟩ hsub).1 acceptAndRead t hpasses htpc⟩

end LinuxTraining.IoModels.Select
