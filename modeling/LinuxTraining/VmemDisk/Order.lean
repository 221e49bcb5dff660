import LinuxTraining.Lib.Settle
import LinuxTraining.VmemDisk.Torn

/-!
# `vmem_disk.c`: bios take effect in the order in which they end

Each copy ends, and a call of `vmem_disk_request` returns when it finds the queue empty: with a
bound on the steps that a bio has left (`Progress.left`), the contexts come to rest whenever the
block layer pauses. Under the lock, or without conflicts, the device then holds what the bios that
have ended leave when they are made one after the other in the order of their ends
(`asCompleted`). So a bio that is submitted after another has ended takes effect after it.
-/

namespace LinuxTraining.VmemDisk

open Lib

variable {k : Nat}

/-- A step in `vmem_disk_request` or `vmem_disk_xfer_bio`; the others are the block layer's. -/
def Act.isDriver : Act k → Bool
  | .peek _ | .copy _ _ | .finish _ => true
  | .add _ _ | .enter _ | .call _ _ => false

/-- The bio that ends by a step. -/
def endedBio (s : Shared k) : Act k → Option (Fin k)
  | .finish c =>
    match s.ctx c with
    | .xfer p => some p
    | .out | .loop => none
  | .add _ _ | .enter _ | .peek _ | .call _ _ | .copy _ _ => none

/-- The bios that have ended, in the order of their ends. -/
def completions (W : LongWidth) (h : Handler) (job : Fin k → Job) (data : Mem Byte)
    (page : Fin k → Mem Byte) (as : List (Act k)) : List (Fin k) :=
  (shared W h job data page).events endedBio (.start data page) as

/-- The steps that are left of a bio that copies `n` bytes. -/
def Progress.left (n : Nat) : Progress → Nat
  | .idle | .ended => 0
  | .queued => n + 2
  | .copying copied => (Finset.range n \ copied).card + 1

/-- The steps that are left of all bios, and of the loop of `vmem_disk_request`. -/
def Shared.left (W : LongWidth) (job : Fin k → Job) (s : Shared k) : Nat :=
  ∑ p, (s.progress p).left ((job p).nbytes W) + if s.lock = none then 0 else 1

/-- The steps that a label pays for. -/
def Act.cost (W : LongWidth) (job : Fin k → Job) : Act k → Nat
  | .add p _ => (job p).nbytes W + 2
  | .call _ p => (job p).nbytes W + 1
  | .enter _ => 1
  | .peek _ | .copy _ _ | .finish _ => 0

/-- Who holds the lock is in `vmem_disk_request`, and a context that copies has a bio of its own. -/
structure Shared.Owned (h : Handler) (s : Shared k) : Prop extends s.Wf h where
  locked : ∀ c, s.lock = some c → h = .request ∧ s.ctx c ≠ .out
  loop : ∀ c, s.ctx c = .loop → h = .request
  xfer : ∀ c p, s.ctx c = .xfer p → ∃ copied, s.progress p = .copying copied
  unique : ∀ c c' p, s.ctx c = .xfer p → s.ctx c' = .xfer p → c = c'

section
variable {W : LongWidth} {h : Handler} {job : Fin k → Job} {data : Mem Byte}
  {page : Fin k → Mem Byte} {order : List (Fin k)} {s t : Shared k} {a : Act k} {c d : Nat}
  {p q : Fin k} {g : Progress} {x : Ctx k}

/-! ## Who has what -/

theorem Shared.Owned.start : (Shared.start data page).Owned h where
  toWf := .start
  locked c hc := by cases hc
  loop c hc := by cases hc
  xfer c p hc := by cases hc
  unique c c' p hc := by cases hc

/-- A context that goes on without a bio takes none from another. -/
theorem xfer_of_update (hx : ∀ q, x ≠ .xfer q) (hd : Function.update s.ctx c x d = .xfer q) :
    d ≠ c ∧ s.ctx d = .xfer q := by
  rcases eq_or_ne d c with rfl | hne
  · rw [Function.update_self] at hd
    exact absurd hd (hx q)
  · rw [Function.update_of_ne hne] at hd
    exact ⟨hne, hd⟩

/-- A context takes a bio that no other has. -/
theorem Shared.Owned.take (ho : s.Owned h) (hp : ∀ copied, s.progress p ≠ .copying copied)
    (hctx : t.ctx = Function.update s.ctx c (.xfer p))
    (hprogress : t.progress = Function.update s.progress p (.copying ∅)) :
    (∀ d q, t.ctx d = .xfer q → ∃ copied, t.progress q = .copying copied) ∧
      ∀ d e q, t.ctx d = .xfer q → t.ctx e = .xfer q → d = e := by
  have hold : ∀ {d q}, d ≠ c → t.ctx d = .xfer q → s.ctx d = .xfer q ∧ q ≠ p := by
    intro d q hne hd
    rw [hctx, Function.update_of_ne hne] at hd
    refine ⟨hd, ?_⟩
    rintro rfl
    obtain ⟨copied, hq⟩ := ho.xfer d q hd
    exact hp copied hq
  have hself : ∀ {q}, t.ctx c = .xfer q → q = p := by
    intro q hq
    rw [hctx, Function.update_self] at hq
    exact (Ctx.xfer.inj hq).symm
  refine ⟨fun d q hd => ?_, fun d e q hd he => ?_⟩
  · rw [hprogress]
    rcases eq_or_ne d c with rfl | hne
    · obtain rfl := hself hd
      exact ⟨∅, Function.update_self ..⟩
    · obtain ⟨hd, hqp⟩ := hold hne hd
      rw [Function.update_of_ne hqp]
      exact ho.xfer d q hd
  · rcases eq_or_ne d c with rfl | hdc
    · rcases eq_or_ne e d with rfl | hec
      · rfl
      · exact absurd (hself hd) (hold hec he).2
    · rcases eq_or_ne e c with rfl | hec
      · exact absurd (hself he) (hold hdc hd).2
      · exact ho.unique d e q (hold hdc hd).1 (hold hec he).1

theorem Shared.Owned.step (ho : s.Owned h) (hs : s.step W h job a = some t) : t.Owned h := by
  have hw := ho.toWf.step hs
  cases a with
  | add p pos =>
    simp only [Shared.step, Option.ite_none_right_eq_some, Option.some.injEq] at hs
    obtain ⟨⟨-, -, hp⟩, rfl⟩ := hs
    refine ⟨hw, ho.locked, ho.loop, fun c q hq => ?_, ho.unique⟩
    obtain ⟨copied, hcopied⟩ := ho.xfer c q hq
    have hne : q ≠ p := by
      rintro rfl
      cases hp.symm.trans hcopied
    exact ⟨copied, (Function.update_of_ne hne ..).trans hcopied⟩
  | enter c =>
    simp only [Shared.step, Option.ite_none_right_eq_some, Option.some.injEq] at hs
    obtain ⟨⟨hreq, -, hc⟩, rfl⟩ := hs
    have hold : ∀ {d q}, Function.update s.ctx c .loop d = .xfer q → s.ctx d = .xfer q :=
      fun hd => (xfer_of_update (by simp) hd).2
    refine ⟨hw, fun d hd => ⟨hreq, ?_⟩, fun _ _ => hreq, fun d q hd => ho.xfer d q (hold hd),
      fun d e q hd he => ho.unique d e q (hold hd) (hold he)⟩
    obtain rfl : c = d := Option.some.inj hd
    simp
  | peek c =>
    simp only [Shared.step, Option.ite_none_right_eq_some, Option.some.injEq] at hs
    obtain ⟨hc, rfl⟩ := hs
    have hreq := ho.loop c hc
    have hlock := ho.lock hreq c (by simp [hc])
    unfold Shared.peek at hw ⊢
    split at hw
    · have hold : ∀ {d q}, Function.update s.ctx c .out d = .xfer q → s.ctx d = .xfer q :=
        fun hd => (xfer_of_update (by simp) hd).2
      exact ⟨hw, fun d hd => (by cases hd), fun _ _ => hreq, fun d q hd => ho.xfer d q (hold hd),
        fun d e q hd he => ho.unique d e q (hold hd) (hold he)⟩
    · next p rest hq =>
      have hp : s.progress p = .queued := (ho.queued p).1 (by simp [hq])
      obtain ⟨hxfer, hunique⟩ := ho.take (t := s.move c (.xfer p) p (.copying ∅)) (c := c) (p := p)
        (fun copied hcopied => by cases hp.symm.trans hcopied) rfl rfl
      refine ⟨hw, fun d hd => ⟨hreq, ?_⟩, fun _ _ => hreq, hxfer, hunique⟩
      obtain rfl : c = d := Option.some.inj (hlock.symm.trans hd)
      simp [Shared.move]
  | call c p =>
    simp only [Shared.step, Option.ite_none_right_eq_some, Option.some.injEq] at hs
    obtain ⟨⟨hmake, hc, hp⟩, rfl⟩ := hs
    obtain ⟨hxfer, hunique⟩ := ho.take (t := s.move c (.xfer p) p (.copying ∅)) (c := c) (p := p)
      (fun copied hcopied => by cases hp.symm.trans hcopied) rfl rfl
    refine ⟨hw, fun d hd => ?_, fun d hd => ?_, hxfer, hunique⟩
    · cases hmake.symm.trans (ho.locked d hd).1
    · rcases eq_or_ne d c with rfl | hne
      · simp [Shared.move] at hd
      · exact ho.loop d (by simpa [Shared.move, hne] using hd)
  | copy c i =>
    obtain ⟨p, copied, -, hp, -, rfl⟩ := Shared.step_copy hs
    refine ⟨hw, by simpa using ho.locked, by simpa using ho.loop, fun d q hd => ?_,
      by simpa using ho.unique⟩
    rw [Shared.copyByte_progress]
    rcases eq_or_ne q p with rfl | hne
    · exact ⟨_, Function.update_self ..⟩
    · rw [Function.update_of_ne hne]
      exact ho.xfer d q (by simpa using hd)
  | finish c =>
    obtain ⟨p, copied, hc, hp, -, rfl⟩ := Shared.step_finish hs
    have hold : ∀ {d q}, Function.update s.ctx c h.next d = .xfer q → d ≠ c ∧ s.ctx d = .xfer q :=
      fun hd => xfer_of_update (by cases h <;> simp [Handler.next]) hd
    refine ⟨hw, fun d hd => ?_, fun d hd => ?_, fun d q hd => ?_, fun d e q hd he =>
      ho.unique d e q (hold hd).2 (hold he).2⟩
    · obtain ⟨rfl, hout⟩ := ho.locked d hd
      refine ⟨rfl, ?_⟩
      rcases eq_or_ne d c with rfl | hne
      · simp [Shared.move, Handler.next]
      · simpa [Shared.move, hne] using hout
    · rcases eq_or_ne d c with rfl | hne
      · cases h with
        | request => rfl
        | makeRequest => simp [Shared.move, Handler.next] at hd
      · exact ho.loop d (by simpa [Shared.move, hne] using hd)
    · obtain ⟨hne, hq⟩ := hold hd
      have hqp : q ≠ p := by
        rintro rfl
        exact hne (ho.unique d c q hq hc)
      obtain ⟨copied', hq⟩ := ho.xfer d q hq
      exact ⟨copied', (Function.update_of_ne hqp ..).trans hq⟩

/-! ## The steps that are left -/

/-- A bio that goes on has fewer steps left. -/
theorem sum_left_lt (hprogress : t.progress = Function.update s.progress p g)
    (hlt : g.left ((job p).nbytes W) < (s.progress p).left ((job p).nbytes W)) :
    ∑ q, (t.progress q).left ((job q).nbytes W) < ∑ q, (s.progress q).left ((job q).nbytes W) := by
  refine Finset.sum_lt_sum (fun q _ => ?_) ⟨p, Finset.mem_univ p, ?_⟩
  · rw [hprogress]
    rcases eq_or_ne q p with rfl | hne
    · rw [Function.update_self]
      exact hlt.le
    · rw [Function.update_of_ne hne]
  · rwa [hprogress, Function.update_self]

/-- A step of the driver leaves fewer steps. -/
theorem Shared.Owned.left_lt (ho : s.Owned h) (ha : a.isDriver = true)
    (hs : s.step W h job a = some t) : t.left W job < s.left W job := by
  cases a with
  | peek c =>
    simp only [Shared.step, Option.ite_none_right_eq_some, Option.some.injEq] at hs
    obtain ⟨hc, rfl⟩ := hs
    have hlock := ho.lock (ho.loop c hc) c (by simp [hc])
    unfold Shared.peek
    split
    · rw [Shared.left, Shared.left, hlock]
      simp
    · next p rest hq =>
      have hp : s.progress p = .queued := (ho.queued p).1 (by simp [hq])
      refine Nat.add_lt_add_right (sum_left_lt rfl ?_) _
      rw [hp, Progress.left, Progress.left, Finset.sdiff_empty, Finset.card_range]
      omega
  | copy c i =>
    obtain ⟨p, copied, hc, hp, hi, rfl⟩ := Shared.step_copy hs
    simp only [Shared.step, hc, hp, Option.ite_none_right_eq_some] at hs
    rw [Shared.left, Shared.left, Shared.copyByte_lock]
    refine Nat.add_lt_add_right (sum_left_lt (Shared.copyByte_progress ..) ?_) _
    rw [hp, Progress.left, Progress.left]
    refine Nat.add_lt_add_right (Finset.card_lt_card ?_) 1
    refine (Finset.ssubset_iff_of_subset ?_).2 ⟨i, ?_, ?_⟩
    · exact Finset.sdiff_subset_sdiff subset_rfl (Finset.subset_insert i copied)
    · simp [hs.1]
    · simp
  | finish c =>
    obtain ⟨p, copied, hc, hp, -, rfl⟩ := Shared.step_finish hs
    refine Nat.add_lt_add_right (sum_left_lt rfl ?_) _
    rw [hp, Progress.left, Progress.left]
    exact Nat.succ_pos _
  | add | enter | call => cases ha

variable (W job) in
/-- A bio that the block layer submits has no more steps left than have been paid for. -/
theorem sum_left_le {n : Nat} (hprogress : t.progress = Function.update s.progress p g)
    (hle : g.left ((job p).nbytes W) ≤ (s.progress p).left ((job p).nbytes W) + n) :
    ∑ q, (t.progress q).left ((job q).nbytes W) ≤
      ∑ q, (s.progress q).left ((job q).nbytes W) + n := by
  refine sum_gain (Finset.mem_univ p) ?_ fun q hne => ?_
  · rwa [hprogress, Function.update_self]
  · rw [hprogress, Function.update_of_ne hne]

/-- What the block layer adds has been paid for. -/
theorem Shared.left_le (ha : a.isDriver = false) (hs : s.step W h job a = some t) :
    t.left W job ≤ s.left W job + a.cost W job := by
  cases a with
  | add p pos =>
    simp only [Shared.step, Option.ite_none_right_eq_some, Option.some.injEq] at hs
    obtain ⟨⟨-, -, hp⟩, rfl⟩ := hs
    have hle := sum_left_le W job (s := s) (p := p) (g := .queued)
      (t := { s with
        queue := s.queue.take pos ++ p :: s.queue.drop pos,
        progress := Function.update s.progress p .queued }) (n := (job p).nbytes W + 2) rfl
      (Nat.le_add_left ..)
    rw [Shared.left, Shared.left, Act.cost]
    dsimp only at hle ⊢
    omega
  | enter c =>
    simp only [Shared.step, Option.ite_none_right_eq_some, Option.some.injEq] at hs
    obtain ⟨⟨-, hlock, -⟩, rfl⟩ := hs
    rw [Shared.left, Shared.left, Act.cost, hlock]
    simp
  | call c p =>
    simp only [Shared.step, Option.ite_none_right_eq_some, Option.some.injEq] at hs
    obtain ⟨-, rfl⟩ := hs
    have hle := sum_left_le W job (s := s) (p := p) (g := .copying ∅)
      (t := s.move c (.xfer p) p (.copying ∅)) (n := (job p).nbytes W + 1) rfl (by
        rw [Progress.left, Finset.sdiff_empty, Finset.card_range]
        exact Nat.le_add_left ..)
    have hlock : (s.move c (.xfer p) p (.copying ∅)).lock = s.lock := rfl
    rw [Shared.left, Shared.left, Act.cost, hlock]
    omega
  | peek | copy | finish => cases ha

/-! ## Rest -/

/-- **What rest is.** The driver has a step exactly while a context is in it. -/
theorem Shared.Owned.settled_iff (ho : s.Owned h) :
    (∀ a, a.isDriver = true → s.step W h job a = none) ↔ ∀ c, s.ctx c = .out := by
  constructor
  · intro hset c
    cases hc : s.ctx c with
    | out => rfl
    | loop =>
      have hpeek := hset (.peek c) rfl
      rw [Shared.step, if_pos hc] at hpeek
      cases hpeek
    | xfer p =>
      obtain ⟨copied, hp⟩ := ho.xfer c p hc
      by_cases hall : ∀ i < (job p).nbytes W, i ∈ copied
      · have hfinish := hset (.finish c) rfl
        simp only [Shared.step, hc, hp, if_pos hall] at hfinish
        cases hfinish
      · push Not at hall
        obtain ⟨i, hi, hnot⟩ := hall
        have hcopy := hset (.copy c i) rfl
        simp only [Shared.step, hc, hp, if_pos (And.intro hi hnot)] at hcopy
        cases hcopy
  · intro hout a ha
    cases a with
    | peek c | copy c i | finish c => simp [Shared.step, hout c]
    | add | enter | call => cases ha

/-- A call of `vmem_disk_request` holds the lock until it has emptied the queue. -/
theorem Shared.Owned.emptied (ho : s.Owned h) (ha : a.isDriver = true)
    (hs : s.step W h job a = some t) (hkept : s.lock ≠ none ∨ s.queue = []) :
    t.lock ≠ none ∨ t.queue = [] := by
  cases a with
  | peek c =>
    simp only [Shared.step, Option.ite_none_right_eq_some, Option.some.injEq] at hs
    obtain ⟨hc, rfl⟩ := hs
    have hlock := ho.lock (ho.loop c hc) c (by simp [hc])
    unfold Shared.peek
    split
    · next hq => exact .inr hq
    · exact .inl (by simp [Shared.move, hlock])
  | copy c i =>
    obtain ⟨p, copied, -, -, -, rfl⟩ := Shared.step_copy hs
    simpa using hkept
  | finish c =>
    obtain ⟨p, copied, -, -, -, rfl⟩ := Shared.step_finish hs
    exact hkept
  | add | enter | call => cases ha

/-- From every reached state the driver comes to rest, with the queue empty if a context was going
through it. -/
theorem Shared.Owned.exists_rest (ho : s.Owned h) : ∃ bs t,
    (shared W h job data page).Run (fun _ a => a.isDriver = true) s bs t ∧
      (∀ c, t.ctx c = .out) ∧ (s.lock ≠ none → t.queue = []) := by
  obtain ⟨bs, t, hown, hset⟩ := Machine.exists_settled (M := shared W h job data page)
    (I := Shared.Owned h) (P := Shared.left W job) ho
    (fun _ _ _ hI _ hs => hI.step hs) fun _ _ _ hI ha hs => hI.left_lt ha hs
  obtain ⟨hto, hkept⟩ := hown.invariant
    (I := fun u => u.Owned h ∧ (s.lock ≠ none → u.lock ≠ none ∨ u.queue = []))
    ⟨ho, .inl⟩ fun _ _ _ hI ha hs => ⟨hI.1.step hs, fun hlock => hI.1.emptied ha hs (hI.2 hlock)⟩
  have hout := hto.settled_iff.1 hset
  refine ⟨bs, t, hown, hout, fun hlock => (hkept hlock).resolve_left fun hne => ?_⟩
  obtain ⟨c, hc⟩ := Option.ne_none_iff_exists'.1 hne
  exact (hto.locked c hc).2 (hout c)

/-! ## The order of the ends -/

/-- **One step** keeps the overlay, and adds the bio that ends to the order. -/
theorem Overlay.step_ends (ho : Overlay W job data page order s) (hw : s.Wf h)
    (hcalm : s.Calm job) (hin : ∀ p, (job p).InRange) (hs : s.step W h job a = some t) :
    Overlay W job data page (order ++ (endedBio s a).toList) t := by
  cases a with
  | add p pos =>
    simp only [Shared.step, Option.ite_none_right_eq_some, Option.some.injEq] at hs
    obtain ⟨⟨-, -, hp⟩, rfl⟩ := hs
    rw [endedBio, Option.toList_none, List.append_nil]
    exact ho.advance (.inl hp) (.inl rfl) rfl rfl rfl
  | enter c =>
    simp only [Shared.step, Option.ite_none_right_eq_some, Option.some.injEq] at hs
    obtain ⟨-, rfl⟩ := hs
    rw [endedBio, Option.toList_none, List.append_nil]
    exact ⟨ho.nodup, ho.ended, ho.rest, ho.bio⟩
  | peek c =>
    simp only [Shared.step, Option.ite_none_right_eq_some, Option.some.injEq] at hs
    obtain ⟨-, rfl⟩ := hs
    rw [endedBio, Option.toList_none, List.append_nil]
    unfold Shared.peek
    split
    · exact ⟨ho.nodup, ho.ended, ho.rest, ho.bio⟩
    · next p rest hq =>
      have hp : s.progress p = .queued := (hw.queued p).1 (by simp [hq])
      exact ho.advance (.inr hp) (.inr rfl) rfl rfl rfl
  | call c p =>
    simp only [Shared.step, Option.ite_none_right_eq_some, Option.some.injEq] at hs
    obtain ⟨⟨-, -, hp⟩, rfl⟩ := hs
    rw [endedBio, Option.toList_none, List.append_nil]
    exact ho.advance (.inl hp) (.inr rfl) rfl rfl rfl
  | copy c i =>
    obtain ⟨p, copied, -, hp, hi, ht⟩ := Shared.step_copy hs
    rw [endedBio, Option.toList_none, List.append_nil]
    rw [(hin p).offset_nbytes.2] at hi
    cases hw : (job p).write with
    | true =>
      rw [copyByte_of_write (hin p) hw] at ht
      subst ht
      exact ho.copyWrite hcalm hp hi hw rfl rfl rfl
    | false =>
      rw [copyByte_of_read (hin p) hw] at ht
      subst ht
      exact ho.copyRead hcalm hp hi hw rfl rfl rfl
  | finish c =>
    obtain ⟨p, copied, hc, hp, hall, rfl⟩ := Shared.step_finish hs
    rw [(hin p).offset_nbytes.2] at hall
    have hends : endedBio s (.finish c) = some p := by rw [endedBio, hc]
    rw [hends]
    exact ho.finish hcalm (hin p) hp hall rfl rfl rfl

/-- **A whole run**: the bios are as if made in the order in which they have ended, up to the bytes
that bios in progress have copied. -/
theorem overlay_of_run {mode : Int} {as : List (Act k)} (hin : ∀ p, (job p).InRange)
    (hcalm : mode ≠ VMEMD_NOQUEUE ∨ ∀ p q, p ≠ q → ¬ (job p).Conflicts (job q))
    (hr : (shared W (handlerOf mode) job data page).Run Machine.anyStep (.start data page) as s) :
    s.Owned (handlerOf mode) ∧
      Overlay W job data page (completions W (handlerOf mode) job data page as) s := by
  refine hr.events_invariant
    (J := fun l u => u.Owned (handlerOf mode) ∧ Overlay W job data page l u) ⟨.start, .start⟩ ?_
  rintro l u a u' ⟨ho, hover⟩ - hs
  refine ⟨ho.step hs, hover.step_ends ho.toWf ?_ hin hs⟩
  intro p q copied copied' hp hq hne
  rcases hcalm with hmode | hcalm
  · have hw := ho.toWf
    rw [handlerOf, if_neg hmode] at hw
    exact absurd (hw.copying_unique hp hq) hne
  · exact hcalm p q hne

/-- While no bio is being copied, nothing is left of the overlay. -/
theorem Overlay.inOrder_eq (ho : Overlay W job data page order s)
    (hidle : ∀ p copied, s.progress p ≠ .copying copied) :
    inOrder W job data page order = (s.data, s.page) := by
  refine Prod.ext (funext fun x => ?_) (funext fun p => ?_)
  · refine (ho.rest x ?_).symm
    rintro ⟨p, copied, hp, -⟩
    exact hidle p copied hp
  · have hwaits : s.progress p = .idle ∨ s.progress p = .queued →
        (inOrder W job data page order).2 p = s.page p := by
      intro hp
      have hnot : p ∉ order := by
        rw [ho.ended]
        rcases hp with hp | hp <;> simp [hp]
      rw [inOrder_page_of_notMem hnot, (ho.bio p).waiting hp]
    cases hp : s.progress p with
    | idle => exact hwaits (.inl hp)
    | queued => exact hwaits (.inr hp)
    | copying copied => exact absurd hp (hidle p copied)
    | ended => exact ((ho.bio p).done hp).symm

/-- **Bios take effect in the order in which they end.** For any number of bios of one segment
within the device, and any schedule, on a device whose `request_mode` gives the queue a request
function or whose bios do not conflict: the steps of the driver are at most one for each byte and
two for each bio, and one for each call of `vmem_disk_request`; from every reached state its steps
lead to where no context is in it, and a call of `vmem_disk_request` that was under way has emptied
the queue; it has no step exactly there; and there the data and the segments are those of the bios
that have ended, made one after the other in the order of their ends. -/
theorem asCompleted {mode : Int} {as : List (Act k)} (hin : ∀ p, (job p).shape.Within devSize)
    (hcalm : mode ≠ VMEMD_NOQUEUE ∨ ∀ p q, p ≠ q → ¬ (job p).Conflicts (job q))
    (hr : (shared W (handlerOf mode) job data page).Run Machine.anyStep (.start data page) as s) :
    (∀ bs t, (shared W (handlerOf mode) job data page).Run (fun _ a => a.isDriver = true) s bs t →
      as.countP Act.isDriver + bs.length ≤ (as.map (Act.cost W job)).sum) ∧
    (∃ bs t, (shared W (handlerOf mode) job data page).Run (fun _ a => a.isDriver = true) s bs t ∧
      (∀ c, t.ctx c = .out) ∧ (s.lock ≠ none → t.queue = [])) ∧
    ((∀ a, a.isDriver = true → s.step W (handlerOf mode) job a = none) ↔ ∀ c, s.ctx c = .out) ∧
    ((∀ c, s.ctx c = .out) →
      (∀ p, p ∈ completions W (handlerOf mode) job data page as ↔ s.progress p = .ended) ∧
      (completions W (handlerOf mode) job data page as).Nodup ∧
      inOrder W job data page (completions W (handlerOf mode) job data page as) =
        (s.data, s.page)) := by
  obtain ⟨ho, hover⟩ := overlay_of_run hin hcalm hr
  obtain ⟨hbound, -⟩ := hr.settles (I := fun u => u.Owned (handlerOf mode)) (P := Shared.left W job)
    .start (fun _ _ _ hI _ hs => hI.step hs) (fun _ _ _ hI ha hs => hI.left_lt ha hs)
    fun _ _ _ _ _ ha hs => Shared.left_le ha hs
  have hzero : (Shared.start data page).left W job = 0 := by
    simp [Shared.left, Shared.start, Progress.left]
  refine ⟨fun bs t hown => ?_, ho.exists_rest, ho.settled_iff,
    fun hout => ⟨hover.ended, hover.nodup, hover.inOrder_eq fun p copied hp => ?_⟩⟩
  · have hle := hbound bs t hown
    rwa [hzero, Nat.zero_add] at hle
  · obtain ⟨c, hc⟩ := ho.held p copied hp
    cases (hout c).symm.trans hc

end

/-- Two writes of the first sector are queued, the second in front, and a context goes through the
queue. -/
def bothQueued : List (Act 2) := [.add 0 0, .add 1 0, .enter 5]

/-- It comes to the end of the queue, and the writes have been made in the order of their ends. -/
theorem bothQueued_asCompleted : ∃ bs t,
    (shared .w64 (handlerOf 0) firstSector (fun _ => 0) (onesAt 0)).Run Machine.anyStep
        (.start (fun _ => 0) (onesAt 0)) (bothQueued ++ bs) t ∧ t.queue = [] ∧
      inOrder .w64 firstSector (fun _ => 0) (onesAt 0)
        (completions .w64 (handlerOf 0) firstSector (fun _ => 0) (onesAt 0) (bothQueued ++ bs)) =
          (t.data, t.page) := by
  have hrun : ((shared .w64 (handlerOf 0) firstSector (fun _ => 0) (onesAt 0)).runFrom
      (.start (fun _ => 0) (onesAt 0)) bothQueued).map Shared.lock = some (some 5) := by
    decide +kernel
  obtain ⟨s, hs, hlock⟩ := Option.map_eq_some_iff.1 hrun
  have hr : (shared .w64 (handlerOf 0) firstSector (fun _ => 0) (onesAt 0)).Run Machine.anyStep
      (.start (fun _ => 0) (onesAt 0)) bothQueued s := .of_runFrom (fun _ _ _ => trivial) hs
  have hmode : (0 : Int) ≠ VMEMD_NOQUEUE := by decide
  obtain ⟨-, ⟨bs, t, hown, hout, hempty⟩, -, -⟩ := asCompleted firstSector_inRange (.inl hmode) hr
  have hall := hr.trans (hown.imp fun _ _ _ => trivial)
  obtain ⟨-, -, -, hrest⟩ := asCompleted firstSector_inRange (.inl hmode) hall
  exact ⟨bs, t, hall, hempty (by rw [hlock]; simp), (hrest hout).2.2⟩

end LinuxTraining.VmemDisk
