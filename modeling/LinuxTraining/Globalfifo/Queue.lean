import LinuxTraining.Globalfifo.Driver

/-!
# The abstract device: a bounded byte queue

What the calls of globalfifo do to a byte queue of capacity `GLOBALFIFO_SIZE` when each of them
happens in one instant. A call that fails leaves the queue alone. Over any sequence of calls the
bytes accepted since the last clear are the bytes delivered since, followed by the queue
(`passed_of_legal`): nothing is lost, duplicated or reordered.
-/

namespace LinuxTraining.Globalfifo

open Lib

/-- One call on the queue `q`, with its result and the queue it leaves. -/
inductive QueueStep (q : List Byte) : Call → Result → List Byte → Prop
  /-- A read of a non-empty queue takes its first bytes. -/
  | read (count : Nat) (nonblock : Bool) : q ≠ [] →
      QueueStep q (.read count nonblock)
        ⟨(min count q.length : Nat), q.take (min count q.length)⟩ (q.drop (min count q.length))
  /-- A read whose user copy faults has delivered less than it was to take. -/
  | readFault (count k : Nat) (nonblock : Bool) : q ≠ [] → k < min count q.length →
      QueueStep q (.read count nonblock) ⟨-EFAULT, q.take k⟩ q
  | readAgain (count : Nat) : q = [] → QueueStep q (.read count true) ⟨-EAGAIN, []⟩ q
  | readSignal (count : Nat) : QueueStep q (.read count false) ⟨-ERESTARTSYS, []⟩ q
  /-- A write to a queue that is not full appends the first bytes of the buffer. -/
  | write (buf : Mem Byte) (count : Nat) (nonblock : Bool) : q.length < GLOBALFIFO_SIZE →
      QueueStep q (.write buf count nonblock)
        ⟨(min count (GLOBALFIFO_SIZE - q.length) : Nat), []⟩
        (q ++ buf.slice 0 (min count (GLOBALFIFO_SIZE - q.length)))
  | writeFault (buf : Mem Byte) (count : Nat) (nonblock : Bool) : q.length < GLOBALFIFO_SIZE →
      QueueStep q (.write buf count nonblock) ⟨-EFAULT, []⟩ q
  | writeAgain (buf : Mem Byte) (count : Nat) : q.length = GLOBALFIFO_SIZE →
      QueueStep q (.write buf count true) ⟨-EAGAIN, []⟩ q
  | writeSignal (buf : Mem Byte) (count : Nat) :
      QueueStep q (.write buf count false) ⟨-ERESTARTSYS, []⟩ q
  | clear : QueueStep q (.ioctl FIFO_CLEAR) ⟨0, []⟩ []
  | ioctl (cmd : Nat) : cmd ≠ FIFO_CLEAR → QueueStep q (.ioctl cmd) ⟨-EINVAL, []⟩ q
  | poll : QueueStep q .poll ⟨pollMask q.length, []⟩ q
  | fasync (mode : Bool) (r : Int) : QueueStep q (.fasync mode) ⟨r, []⟩ q
  | release : QueueStep q .release ⟨0, []⟩ q

/-- A read that does not fail takes as many bytes as it returns from a queue that is not empty. -/
theorem QueueStep.of_read {q q' : List Byte} {count : Nat} {nonblock : Bool} {r : Result}
    (h : QueueStep q (.read count nonblock) r q') (hr : 0 ≤ r.ret) :
    q ≠ [] ∧ q' = q.drop r.ret.toNat := by
  cases h with
  | read _ _ hq => exact ⟨hq, rfl⟩
  | readFault | readAgain | readSignal => simp [EFAULT, EAGAIN, ERESTARTSYS] at hr

/-- A write that does not fail appends as many bytes of its buffer as it returns. -/
theorem QueueStep.of_write {q q' : List Byte} {buf : Mem Byte} {count : Nat} {nonblock : Bool}
    {r : Result} (h : QueueStep q (.write buf count nonblock) r q') (hr : 0 ≤ r.ret) :
    q' = q ++ buf.slice 0 r.ret.toNat := by
  cases h with
  | write => rfl
  | writeFault | writeAgain | writeSignal => simp [EFAULT, EAGAIN, ERESTARTSYS] at hr

/-- The bounded byte queue. -/
def byteQueue : Obj (List Byte) Call Result where
  init := []
  step := QueueStep

/-- The bytes accepted and the bytes delivered since the last clear, after one more call. -/
def passedStep (acc : List Byte × List Byte) (e : Nat × Call × Result) : List Byte × List Byte :=
  match e.2.1 with
  | .write buf _ _ => if 0 ≤ e.2.2.ret then (acc.1 ++ buf.slice 0 e.2.2.ret.toNat, acc.2) else acc
  | .read _ _ => if 0 ≤ e.2.2.ret then (acc.1, acc.2 ++ e.2.2.data) else acc
  | .ioctl cmd => if cmd = FIFO_CLEAR then ([], []) else acc
  | .poll | .fasync _ | .release => acc

/-- The bytes accepted and the bytes delivered by the calls of a log since its last clear. -/
def passed (log : List (Nat × Call × Result)) : List Byte × List Byte :=
  log.foldl passedStep ([], [])

/-- One call keeps what was accepted equal to what was delivered followed by the queue. -/
theorem QueueStep.passed {q q' : List Byte} {p : Nat} {c : Call} {r : Result}
    (h : QueueStep q c r q') {acc : List Byte × List Byte} (hacc : acc.1 = acc.2 ++ q) :
    (passedStep acc (p, c, r)).1 = (passedStep acc (p, c, r)).2 ++ q' := by
  cases h with
  | read count nonblock _ =>
    simp only [passedStep, Int.natCast_nonneg, if_true]
    rw [hacc, List.append_assoc, List.take_append_drop]
  | write buf count nonblock _ =>
    simp only [passedStep, Int.natCast_nonneg, if_true, Int.toNat_natCast]
    rw [hacc, List.append_assoc]
  | clear => rfl
  | ioctl cmd hne => simpa only [passedStep, if_neg hne] using hacc
  | readFault | readAgain | readSignal | writeFault | writeAgain | writeSignal | poll | fasync
  | release => exact hacc

/-- **Nothing is lost, duplicated or reordered.** After any sequence of calls on an empty queue,
what was accepted since the last clear is what was delivered since, followed by the queue. -/
theorem passed_of_legal {log : List (Nat × Call × Result)} {q : List Byte}
    (h : byteQueue.Legal [] log q) : (passed log).1 = (passed log).2 ++ q := by
  have key : ∀ (log : List (Nat × Call × Result)) (q₀ : List Byte) (acc : List Byte × List Byte),
      acc.1 = acc.2 ++ q₀ → byteQueue.Legal q₀ log q →
      (log.foldl passedStep acc).1 = (log.foldl passedStep acc).2 ++ q := by
    intro log
    induction log with
    | nil => intro q₀ acc hacc hl; cases hl; exact hacc
    | cons e log ih =>
      rintro q₀ acc hacc ⟨q₁, hs, hl⟩
      exact ih q₁ _ (QueueStep.passed hs hacc) hl
  exact key log [] ([], []) rfl h

end LinuxTraining.Globalfifo
