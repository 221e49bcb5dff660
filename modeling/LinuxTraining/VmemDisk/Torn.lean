import LinuxTraining.VmemDisk.Concurrent

/-!
# `vmem_disk.c`: when concurrent bios are serializable

Transfers made one after the other keep the bytes of a sector together (`Whole`). Without the lock
one bio can stop after the first byte of a sector, and another go through it as a whole
(`leads_torn`), so two bios that conflict leave or read a mixture.
-/

namespace LinuxTraining.VmemDisk

open Lib

/-! ## A torn sector -/

section
variable {W : LongWidth} {job : Fin k → Job} {data : Mem Byte} {page : Fin k → Mem Byte}
  {s t : Shared k}

/-- The bytes from `m` to `m + d` of a bio are copied. -/
def Shared.copyTo (job : Fin k → Job) (s : Shared k) (p : Fin k) (m d : Nat) : Shared k :=
  { s with
    data := if (job p).write then s.data.store ((job p).addr m) ((s.page p).slice m d) else s.data
    page := if (job p).write then s.page else
      Function.update s.page p ((s.page p).store m (s.data.slice ((job p).addr m) d))
    progress := Function.update s.progress p (.copying (Finset.range (m + d))) }

/-- A device with the function of `VMEMD_NOQUEUE` gets from a state to another. -/
def Leads (W : LongWidth) (job : Fin k → Job) (data : Mem Byte) (page : Fin k → Mem Byte)
    (s t : Shared k) : Prop :=
  ∃ as, (shared W .makeRequest job data page).Run Machine.anyStep s as t

theorem Leads.refl : Leads W job data page s s := ⟨[], .nil⟩

theorem Leads.trans {u : Shared k} (h : Leads W job data page s t)
    (h' : Leads W job data page t u) : Leads W job data page s u := by
  obtain ⟨as, h⟩ := h
  obtain ⟨bs, h'⟩ := h'
  exact ⟨as ++ bs, h.trans h'⟩

theorem Leads.step {a : Act k} (h : s.step W .makeRequest job a = some t) :
    Leads W job data page s t :=
  ⟨[a], .cons a trivial h .nil⟩

theorem leads_call {c : Nat} {p : Fin k} (hc : s.ctx c = .out) (hp : s.progress p = .idle) :
    Leads W job data page s (s.move c (.xfer p) p (.copying ∅)) := by
  refine .step (a := .call c p) ?_
  simp [Shared.step, hc, hp]

theorem leads_finish {c : Nat} {p : Fin k} {r : Finset Nat} (hin : (job p).InRange)
    (hc : s.ctx c = .xfer p) (hp : s.progress p = .copying r)
    (hall : ∀ i < (job p).len, i ∈ r) :
    Leads W job data page s (s.move c .out p .ended) := by
  refine .step (a := .finish c) ?_
  simp only [Shared.step, hc, hp, hin.offset_nbytes.2, if_pos hall]
  rfl

theorem copyTo_zero {p : Fin k} {m : Nat} (hp : s.progress p = .copying (Finset.range m)) :
    s.copyTo job p m 0 = s := by
  rw [Shared.copyTo]
  simp [← hp]

/-- A context copies any number of bytes. -/
theorem leads_copyTo {c : Nat} {p : Fin k} {m d : Nat} (hin : (job p).InRange)
    (hc : s.ctx c = .xfer p) (hp : s.progress p = .copying (Finset.range m))
    (hd : m + d ≤ (job p).len) : Leads W job data page s (s.copyTo job p m d) := by
  induction d with
  | zero =>
    rw [copyTo_zero hp]
    exact .refl
  | succ d ih =>
    refine (ih (by omega)).trans (.step (a := .copy c (m + d)) ?_)
    have hprogress : (s.copyTo job p m d).progress p = .copying (Finset.range (m + d)) := by
      simp [Shared.copyTo]
    have hctx : (s.copyTo job p m d).ctx c = .xfer p := hc
    simp only [Shared.step, hctx, hprogress, hin.offset_nbytes.2]
    rw [if_pos ⟨by omega, by simp⟩, Option.some.injEq]
    have haddr : (job p).addr m + d = (job p).addr (m + d) := Nat.add_assoc ..
    have hrange : Finset.range (m + (d + 1)) = insert (m + d) (Finset.range (m + d)) :=
      Finset.range_add_one
    cases hw : (job p).write with
    | true =>
      rw [copyByte_of_write hin hw]
      simp only [Shared.copyTo, hw, if_true, Mem.store_slice_succ, haddr, hrange,
        Function.update_idem]
    | false =>
      rw [copyByte_of_read hin hw]
      simp only [Shared.copyTo, hw, Bool.false_eq_true, if_false, Mem.store_slice_succ, haddr,
        hrange, Function.update_idem, Function.update_self]

/-- A bio from its call to its end, without any other in between. -/
def Shared.alone (job : Fin k → Job) (s : Shared k) (c : Nat) (p : Fin k) : Shared k :=
  ((s.move c (.xfer p) p (.copying ∅)).copyTo job p 0 (job p).len).move c .out p .ended

theorem leads_alone {c : Nat} {p : Fin k} (hin : (job p).InRange) (hc : s.ctx c = .out)
    (hp : s.progress p = .idle) : Leads W job data page s (s.alone job c p) := by
  refine (leads_call hc hp).trans ?_
  refine (leads_copyTo (c := c) (p := p) (m := 0) (d := (job p).len) hin ?_ ?_ (by omega)).trans ?_
  · simp [Shared.move]
  · simp [Shared.move]
  · refine leads_finish (r := Finset.range (job p).len) hin ?_ ?_ ?_
    · simp [Shared.copyTo, Shared.move]
    · simp [Shared.copyTo, Shared.move]
    · intro i hi
      exact Finset.mem_range.2 hi

/-- A list of bios, one after the other, on a device full of zeros; those that write are full of
zeros too. -/
theorem leads_zeros {l : List (Fin k)} (hin : ∀ p, (job p).InRange) (hnodup : l.Nodup)
    (hidle : ∀ p ∈ l, s.progress p = .idle) (hctx : s.ctx = fun _ => .out)
    (hdata : s.data = fun _ => 0) (hpage : ∀ p ∈ l, s.page p = fun _ => 0) :
    ∃ t, Leads W job data page s t ∧ t.ctx = s.ctx ∧ t.data = s.data ∧
      (∀ q ∈ l, t.progress q = .ended) ∧
      ∀ q ∉ l, t.progress q = s.progress q ∧ t.page q = s.page q := by
  induction l generalizing s with
  | nil => exact ⟨s, .refl, rfl, rfl, by simp, fun _ _ => ⟨rfl, rfl⟩⟩
  | cons p l ih =>
    obtain ⟨hnot, hnodup⟩ := List.nodup_cons.1 hnodup
    have hp : s.progress p = .idle := hidle p (.head _)
    have hfirst : Leads W job data page s (s.alone job 0 p) :=
      leads_alone (hin p) (by rw [hctx]) hp
    have hctx' : (s.alone job 0 p).ctx = s.ctx := by
      simp [Shared.alone, Shared.move, Shared.copyTo, hctx]
    have hdata' : (s.alone job 0 p).data = s.data := by
      show (if (job p).write then s.data.store _ ((s.page p).slice 0 _) else s.data) = s.data
      split
      · funext x
        rw [Mem.store_slice_apply, hpage p (.head _), hdata]
        exact ite_self 0
      · rfl
    have hother : ∀ q, q ≠ p → (s.alone job 0 p).progress q = s.progress q ∧
        (s.alone job 0 p).page q = s.page q := by
      intro q hne
      refine ⟨by simp [Shared.alone, Shared.move, Shared.copyTo, hne], ?_⟩
      show (if (job p).write then s.page else Function.update s.page p _) q = s.page q
      split
      · rfl
      · exact Function.update_of_ne hne ..
    have hne : ∀ q ∈ l, q ≠ p := by
      rintro q hq rfl
      exact hnot hq
    obtain ⟨t, hleads, hctxt, hdatat, hended, hrest⟩ := ih hnodup
      (fun q hq => (hother q (hne q hq)).1.trans (hidle q (.tail _ hq))) (hctx'.trans hctx)
      (hdata'.trans hdata) (fun q hq => (hother q (hne q hq)).2.trans (hpage q (.tail _ hq)))
    refine ⟨t, hfirst.trans hleads, hctxt.trans hctx', hdatat.trans hdata', ?_, ?_⟩
    · intro q hq
      rcases List.mem_cons.1 hq with rfl | hq
      · rw [(hrest q hnot).1]
        simp [Shared.alone, Shared.move]
      · exact hended q hq
    · intro q hq
      rw [List.mem_cons, not_or] at hq
      obtain ⟨hprogress, hpage'⟩ := hrest q hq.2
      exact ⟨hprogress.trans (hother q hq.1).1, hpage'.trans (hother q hq.1).2⟩

/-- A bio copies its first `n` bytes, another goes from its call to its end, and the first copies
the others. -/
def Shared.torn (job : Fin k → Job) (s : Shared k) (p q : Fin k) (n : Nat) : Shared k :=
  let s₁ := (s.move 0 (.xfer p) p (.copying ∅)).copyTo job p 0 n
  ((s₁.alone job 1 q).copyTo job p n ((job p).len - n)).move 0 .out p .ended

theorem leads_torn {p q : Fin k} {n : Nat} (hp : (job p).InRange) (hq : (job q).InRange)
    (hne : p ≠ q) (hn : n ≤ (job p).len) (hctx : s.ctx = fun _ => .out)
    (hidle : s.progress p = .idle ∧ s.progress q = .idle) :
    Leads W job data page s (s.torn job p q n) := by
  refine (leads_call (c := 0) (by rw [hctx]) hidle.1).trans ?_
  refine (leads_copyTo (c := 0) (p := p) (m := 0) (d := n) hp ?_ ?_ (by omega)).trans ?_
  · simp [Shared.move]
  · simp [Shared.move]
  · refine (leads_alone (c := 1) (p := q) hq ?_ ?_).trans ?_
    · simp [Shared.move, Shared.copyTo, hctx]
    · simp [Shared.move, Shared.copyTo, hne.symm, hidle.2]
    · have hlen : n + ((job p).len - n) = (job p).len := by omega
      refine (leads_copyTo (c := 0) (p := p) (m := n) (d := (job p).len - n) hp ?_ ?_
        (by omega)).trans ?_
      · simp [Shared.alone, Shared.move, Shared.copyTo]
      · simp [Shared.alone, Shared.move, Shared.copyTo, hne]
      · refine leads_finish (r := Finset.range (job p).len) hp ?_ ?_ ?_
        · simp [Shared.alone, Shared.move, Shared.copyTo]
        · simp [Shared.copyTo, hlen]
        · intro i hi
          exact Finset.mem_range.2 hi

theorem torn_progress {p q : Fin k} {n : Nat} (r : Fin k) : (s.torn job p q n).progress r =
    if r = p ∨ r = q then .ended else s.progress r := by
  simp only [Shared.torn, Shared.alone, Shared.move, Shared.copyTo, Function.update_apply]
  by_cases hp : r = p
  · simp [hp]
  · by_cases hq : r = q <;> simp [hp, hq]

/-- A write that is torn by a write. -/
theorem torn_data {p q : Fin k} {n x : Nat} (hp : (job p).write) (hq : (job q).write)
    (hx : (job q).addr 0 ≤ x ∧ x < (job q).addr (job q).len) :
    (s.torn job p q n).data x =
      if (job p).addr n ≤ x ∧ x < (job p).addr n + ((job p).len - n) then
        s.page p (n + (x - (job p).addr n))
      else s.page q (x - (job q).addr 0) := by
  simp only [Shared.torn, Shared.alone, Shared.move, Shared.copyTo, hp, hq, if_true]
  rw [Mem.store_slice_apply]
  congr 1
  rw [Mem.store_slice_apply, if_pos ⟨hx.1, hx.2⟩, Nat.zero_add]

/-- A read that is torn by a write. -/
theorem torn_page {p q : Fin k} {n i : Nat} (hp : (job p).write = false) (hq : (job q).write)
    (hi : i < (job p).len) : (s.torn job p q n).page p i =
      if i < n then s.data ((job p).addr i)
      else (s.data.store ((job q).addr 0) ((s.page q).slice 0 (job q).len)) ((job p).addr i) := by
  have hne : q ≠ p := by
    rintro rfl
    cases hp.symm.trans hq
  have haddr : (job p).addr 0 + i = (job p).addr i ∧ ∀ m, m ≤ i →
      (job p).addr m + (i - m) = (job p).addr i := by
    simp only [Job.addr]
    refine ⟨by omega, ?_⟩
    intro m hm
    omega
  simp only [Shared.torn, Shared.alone, Shared.move, Shared.copyTo, hp, hq, if_true,
    Bool.false_eq_true, if_false, Function.update_self, Function.update_of_ne hne]
  rw [Mem.store_slice_apply]
  by_cases hin : i < n
  · rw [if_neg (by omega), if_pos hin, Mem.store_slice_apply, if_pos (by omega), Nat.sub_zero,
      haddr.1]
  · rw [if_pos (by omega), if_neg hin, haddr.2 n (by omega)]

/-! ## Whole sectors -/

/-- The bytes of each sector are equal. -/
def Whole (m : Mem Byte) : Prop := ∀ t i, i < 512 → m (512 * t + i) = m (512 * t)

/-- A transfer of whole sectors between memories whose sectors are whole. -/
theorem Whole.store {m m' : Mem Byte} (hm : Whole m) (hm' : Whole m') (a b n : Nat) :
    Whole (m.store (512 * a) (m'.slice (512 * b) (512 * n))) := by
  intro t i hi
  rw [Mem.store_slice_apply, Mem.store_slice_apply]
  by_cases ht : a ≤ t ∧ t < a + n
  · have hoff : 512 * b + (512 * t + i - 512 * a) = 512 * (b + (t - a)) + i := by omega
    have hoff' : 512 * b + (512 * t - 512 * a) = 512 * (b + (t - a)) := by omega
    rw [if_pos (by omega), if_pos (by omega), hoff, hoff']
    exact hm' _ i hi
  · rw [if_neg (by omega), if_neg (by omega)]
    exact hm t i hi

/-- Transfers made one after the other keep sectors whole. -/
theorem inOrder_whole (hin : ∀ p, (job p).InRange) (hdata : Whole data)
    (hpage : ∀ p, Whole (page p)) (order : List (Fin k)) :
    Whole (inOrder W job data page order).1 ∧ ∀ p, Whole ((inOrder W job data page order).2 p) := by
  induction order using List.reverseRecOn with
  | nil => exact ⟨hdata, hpage⟩
  | append_singleton order p ih =>
    obtain ⟨n, hn⟩ := (hin p).dvd
    rw [inOrder_snoc, xferAlone_of_inRange (hin p), hn]
    split
    · exact ⟨ih.1.store (ih.2 p) _ 0 n, ih.2⟩
    · refine ⟨ih.1, ?_⟩
      intro q
      rcases eq_or_ne q p with rfl | hne
      · simp only [Function.update_self]
        exact (ih.2 q).store ih.1 0 _ n
      · simp only [Function.update_of_ne hne]
        exact ih.2 q

/-- Bios of which one is full of ones and the others are full of zeros. -/
def onesAt (p : Fin k) (q : Fin k) : Mem Byte := fun _ => if q = p then 1 else 0

theorem onesAt_whole (p q : Fin k) : Whole (onesAt p q) := fun _ _ _ => rfl

/-- **A torn sector.** Without the lock, two bios that conflict can leave or read a sector as a
mixture, whatever else has been submitted. -/
theorem exists_torn (hin : ∀ p, (job p).InRange) {p q : Fin k} (hne : p ≠ q)
    (hw : (job p).write) (hc : (job p).Conflicts (job q)) :
    ∃ s, (shared W .makeRequest job (fun _ => 0) (onesAt p)).Reach Machine.anyStep s ∧
      (∀ r, s.progress r = .ended) ∧ ¬ (Whole s.data ∧ ∀ r, Whole (s.page r)) := by
  obtain ⟨-, hpq, hqp⟩ := hc
  obtain ⟨a, ha⟩ := (hin p).dvd
  obtain ⟨b, hb⟩ := (hin q).dvd
  have hapos := (hin p).pos
  have hbpos := (hin q).pos
  -- the others first
  let l := (List.finRange k).filter fun r => r ≠ p ∧ r ≠ q
  have hmem : ∀ r, r ∈ l ↔ r ≠ p ∧ r ≠ q := by simp [l]
  obtain ⟨t, hleads, hctx, hdata, hended, hrest⟩ := @leads_zeros k W job (fun _ => 0) (onesAt p)
    (.start (fun _ => 0) (onesAt p)) l hin ((List.nodup_finRange k).filter _) (fun _ _ => rfl) rfl
    rfl fun r hr => funext fun _ => if_neg ((hmem r).1 hr).1
  have hp := hrest p (by simp [hmem])
  have hq := hrest q (by simp [hmem])
  have hpage_p : t.page p = fun _ => 1 := hp.2.trans (funext fun _ => if_pos rfl)
  have hpage_q : t.page q = fun _ => 0 := hq.2.trans (funext fun _ => if_neg hne.symm)
  have hreach : ∀ {u}, Leads W job (fun _ => 0) (onesAt p) t u →
      (shared W .makeRequest job (fun _ => 0) (onesAt p)).Reach Machine.anyStep u := by
    intro u hu
    obtain ⟨as, hrun⟩ := hleads.trans hu
    exact ⟨_, as, rfl, hrun⟩
  have hall : ∀ p' q' n, (p' = p ∧ q' = q) ∨ (p' = q ∧ q' = p) →
      ∀ r, (t.torn job p' q' n).progress r = .ended := by
    intro p' q' n hpair r
    rw [torn_progress]
    by_cases hr : r ∈ l
    · rw [hended r hr, ite_self]
    · rw [if_pos]
      rw [hmem] at hr
      rcases hpair with ⟨rfl, rfl⟩ | ⟨rfl, rfl⟩ <;> tauto
  -- the first sector that they have in common
  obtain ⟨T, hT⟩ : ∃ T, T = max (job p).sector (job q).sector := ⟨_, rfl⟩
  cases hwq : (job q).write with
  | true =>
    let n := 512 * T - 512 * (job p).sector + 1
    refine ⟨t.torn job p q n, hreach (leads_torn (hin p) (hin q) hne (by omega) hctx
      ⟨hp.1, hq.1⟩), hall p q n (.inl ⟨rfl, rfl⟩), ?_⟩
    rintro ⟨hwhole, -⟩
    have heq := hwhole T 1 (by omega)
    rw [torn_data hw hwq (by simp only [Job.addr]; omega),
      torn_data hw hwq (by simp only [Job.addr]; omega), if_pos (by simp only [Job.addr]; omega),
      if_neg (by simp only [Job.addr]; omega), hpage_p, hpage_q] at heq
    exact UInt8.zero_ne_one heq.symm
  | false =>
    let i := 512 * (T - (job q).sector)
    refine ⟨t.torn job q p (i + 1), hreach (leads_torn (hin q) (hin p) hne.symm (by omega) hctx
      ⟨hq.1, hp.1⟩), hall q p _ (.inr ⟨rfl, rfl⟩), ?_⟩
    rintro ⟨-, hwhole⟩
    have heq := hwhole q (T - (job q).sector) 1 (by omega)
    rw [torn_page hwq hw (by omega), torn_page hwq hw (by omega), if_neg (by omega),
      if_pos (by omega), Mem.store_slice_apply, if_pos (by simp only [Job.addr]; omega), hpage_p,
      hdata] at heq
    exact UInt8.zero_ne_one heq.symm

/-- Two bios that conflict are not serializable without the lock. -/
theorem exists_not_serializable (hin : ∀ p, (job p).InRange) {p q : Fin k} (hne : p ≠ q)
    (hc : (job p).Conflicts (job q)) :
    ∃ data page s, (shared W .makeRequest job data page).Reach Machine.anyStep s ∧
      (∀ r, s.progress r = .ended) ∧ ¬ Serializable W job data page s := by
  obtain ⟨p, q, hne, hw, hc⟩ : ∃ p q, p ≠ q ∧ (job p).write ∧ (job p).Conflicts (job q) := by
    rcases hc.1 with hw | hw
    · exact ⟨p, q, hne, hw, hc⟩
    · exact ⟨q, p, hne.symm, hw, hc.symm⟩
  obtain ⟨s, hreach, hended, htorn⟩ := exists_torn (W := W) hin hne hw hc
  refine ⟨_, _, s, hreach, hended, ?_⟩
  rintro ⟨order, -, -, horder⟩
  have hzero : Whole fun _ => 0 := fun _ _ _ => rfl
  have hwhole := inOrder_whole (W := W) hin hzero (onesAt_whole p) order
  rw [horder] at hwhole
  exact htorn hwhole

end

/-- **Concurrent bios are serializable exactly under the lock or without conflicts.** For any
number of bios of one segment within the device: every schedule, on a device with any data and with
any contents of the segments, ends with the data and the segments of some order of the transfers, if
and only if `request_mode` gives the queue a request function, or no two of the bios overlap with
one of them writing. -/
theorem serializable_iff {W : LongWidth} {mode : Int} {job : Fin k → Job}
    (hin : ∀ p, (job p).shape.Within devSize) :
    (∀ data page s, (shared W (handlerOf mode) job data page).Reach Machine.anyStep s →
        (∀ p, s.progress p = .ended) → Serializable W job data page s) ↔
      mode ≠ VMEMD_NOQUEUE ∨ ∀ p q, p ≠ q → ¬ (job p).Conflicts (job q) := by
  constructor
  · intro hall
    by_contra hnot
    rw [not_or, not_ne_iff] at hnot
    obtain ⟨rfl, hconflict⟩ := hnot
    push Not at hconflict
    obtain ⟨p, q, hne, hc⟩ := hconflict
    obtain ⟨data, page, s, hreach, hended, hnot⟩ := exists_not_serializable (W := W) hin hne hc
    exact hnot (hall data page s hreach hended)
  · intro hcalm data page s hreach hended
    obtain ⟨hw, order, ho⟩ := overlay_of_reach hin hcalm hreach
    refine ⟨order, ho.nodup, fun p => (ho.ended p).2 (hended p), Prod.ext ?_ (funext ?_)⟩
    · funext x
      refine (ho.rest x ?_).symm
      rintro ⟨p, copied, hp, -⟩
      cases (hended p).symm.trans hp
    · intro p
      exact ((ho.bio p).done (hended p)).symm

/-- Writes of the first sector. -/
def firstSector (_ : Fin 2) : Job := ⟨0, true, 512⟩

theorem firstSector_inRange (p : Fin 2) : (firstSector p).shape.Within devSize where
  nonempty := by simp [Job.shape]
  sectors := by simp [Job.shape, firstSector]
  fits := show 512 * 0 + 512 ≤ devSize by decide

/-- With a request queue the two writes are serializable. -/
theorem firstSector_serializable : handlerOf 0 = .request ∧ ∀ data page s,
    (shared .w64 (handlerOf 0) firstSector data page).Reach Machine.anyStep s →
      (∀ p, s.progress p = .ended) → Serializable .w64 firstSector data page s :=
  ⟨rfl, (serializable_iff firstSector_inRange).2 (.inl (by decide))⟩

/-- **Without one they are not.** -/
theorem firstSector_not_serializable :
    ¬ ∀ (W : LongWidth) (mode : Int) (k : Nat) (job : Fin k → Job),
      (∀ p, (job p).shape.Within devSize) → ∀ data page s,
        (shared W (handlerOf mode) job data page).Reach Machine.anyStep s →
          (∀ p, s.progress p = .ended) → Serializable W job data page s := by
  intro hall
  obtain ⟨data, page, s, hreach, hended, hnot⟩ :=
    exists_not_serializable (W := .w64) firstSector_inRange (show (0 : Fin 2) ≠ 1 by decide)
      (by decide)
  exact hnot (hall .w64 VMEMD_NOQUEUE 2 firstSector firstSector_inRange data page s hreach hended)

end LinuxTraining.VmemDisk
