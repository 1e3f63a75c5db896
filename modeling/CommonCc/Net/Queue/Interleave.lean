import CommonCc.Net.Queue.Fifo

/-!
# One producer and one consumer without locks

The two parties run `Push` and `Pop` over the same ring.  An atomic step is one
read of an index, one copy, or one assignment to an index; the steps of a party
come in program order and see all earlier steps of the other.  `m_tail` and
`m_head` are each assigned twice, first the raw end of the message and then zero
when that is the end of the buffer, so the other party can observe `m_buffer_len`.
`pushed` and `popped` record the messages at the assignment that publishes them.
-/

namespace CommonCc

namespace Spsc

open Memory

inductive Producer where
  | idle
  /-- `head` has been read, `m_tail` is next. -/
  | readTail (data : Bytes) (head : Nat)
  /-- The copies left, and the value to assign to `m_tail` after them. -/
  | copying (data : Bytes) (todo : List (Nat × Bytes)) (tail : Nat)
  /-- `if (m_tail >= m_buffer_len) m_tail = 0;` is next. -/
  | wrapping
deriving Repr, DecidableEq

inductive Consumer where
  | idle
  /-- `head` has been read, `m_tail` is next. -/
  | readTail (buf_size head : Nat)
  /-- The copies of the length left, and the bytes of it read so far. -/
  | length (buf_size head tail : Nat) (got : Bytes) (todo : List (Nat × Nat))
  /-- The copies of the payload left, the bytes of it read so far, and the value to
  assign to `m_head` after them. -/
  | payload (head : Nat) (got : Bytes) (todo : List (Nat × Nat))
  /-- `if (m_head >= m_buffer_len) m_head = 0;` is next. -/
  | wrapping
deriving Repr, DecidableEq

structure State where
  m_buffer : Memory UInt8
  m_buffer_len : Nat
  m_head : Nat
  m_tail : Nat
  producer : Producer
  consumer : Consumer
  pushed : List Bytes
  popped : List Bytes
  fault : Option Fault

def init (buffer : Nat → UInt8) (buffer_size : Nat) : State where
  m_buffer := ⟨buffer_size, buffer⟩
  m_buffer_len := buffer_size
  m_head := 0
  m_tail := 0
  producer := .idle
  consumer := .idle
  pushed := []
  popped := []
  fault := none

/-! ## Steps -/

/-- The next step of `EnQueue`. -/
def State.produce (s : State) : Option State :=
  match s.producer with
  | .idle => none
  | .readTail data head =>
      match EnQueue.plan s.m_buffer_len head s.m_tail data with
      | none => some { s with producer := .idle }
      | some p => some { s with producer := .copying data p.copies p.tail }
  | .copying data ((off, src) :: todo) tail =>
      match s.m_buffer.store off src with
      | none => some { s with fault := some .outOfBounds }
      | some m => some { s with m_buffer := m, producer := .copying data todo tail }
  | .copying data [] tail =>
      some { s with m_tail := tail, pushed := s.pushed ++ [data], producer := .wrapping }
  | .wrapping => some { s with m_tail := wrapIndex s.m_buffer_len s.m_tail, producer := .idle }

/-- The next step of `DeQueue`. -/
def State.consume (s : State) : Option State :=
  match s.consumer with
  | .idle => none
  | .readTail buf_size head =>
      if head = s.m_tail then some { s with consumer := .idle }
      else if buf_size < 4 then some { s with consumer := .idle }
      else some { s with
        consumer := .length buf_size head s.m_tail [] (DeQueue.lenPlan s.m_buffer_len head).1 }
  | .length buf_size head tail got ((off, n) :: todo) =>
      match s.m_buffer.load off n with
      | none => some { s with fault := some .outOfBounds }
      | some bs => some { s with consumer := .length buf_size head tail (got ++ bs) todo }
  | .length buf_size head tail got [] =>
      let real_len := leValue got
      if DeQueue.usedLen s.m_buffer_len head tail < real_len + 4 then
        some { s with fault := some .assertion }
      else if buf_size < real_len + 4 then some { s with consumer := .idle }
      else
        let p := DeQueue.bodyPlan s.m_buffer_len (DeQueue.lenPlan s.m_buffer_len head).2 real_len
        some { s with consumer := .payload p.2 [] p.1 }
  | .payload head got ((off, n) :: todo) =>
      match s.m_buffer.load off n with
      | none => some { s with fault := some .outOfBounds }
      | some bs => some { s with consumer := .payload head (got ++ bs) todo }
  | .payload head got [] =>
      some { s with m_head := head, popped := s.popped ++ [got], consumer := .wrapping }
  | .wrapping => some { s with m_head := wrapIndex s.m_buffer_len s.m_head, consumer := .idle }

inductive Act where
  | push (data : Bytes)
  | produce
  | pop (buf_size : Nat)
  | consume
deriving Repr, DecidableEq

/-- One atomic step.  Nothing runs after a fault, and a call starts only when the
party is between two calls. -/
def step (s : State) (a : Act) : Option State :=
  if s.fault.isSome then none
  else
    match a with
    | .push data =>
        if s.producer = .idle then some { s with producer := .readTail data s.m_head } else none
    | .produce => s.produce
    | .pop buf_size =>
        if s.consumer = .idle then some { s with consumer := .readTail buf_size s.m_head } else none
    | .consume => s.consume

/-! ## A schedule that repeats a message -/

/-- Two messages fill a ring of ten cells to its end.  The consumer takes both
while the producer is held between its two assignments to `m_tail`. -/
def repeatingSchedule : List Act :=
  [.push [1]] ++ List.replicate 5 .produce ++
  [.pop 10] ++ List.replicate 6 .consume ++
  [.push [2]] ++ List.replicate 4 .produce ++
  [.pop 10] ++ List.replicate 6 .consume ++
  [.pop 10] ++ List.replicate 6 .consume

/-- The consumer reads `m_tail = m_buffer_len` with its own index already wrapped to
zero, takes the empty ring for a full one and returns the first message again. -/
theorem repeatingSchedule_duplicates :
    ∃ s, runSteps step (init (fun _ => 0) 10) repeatingSchedule = some s ∧
      s.pushed = [[1], [2]] ∧ s.popped = [[1], [2], [1]] ∧ ¬ s.popped <+: s.pushed := by
  have hrun : (runSteps step (init (fun _ => 0) 10) repeatingSchedule).map
      (fun s => (s.pushed, s.popped)) = some ([[1], [2]], [[1], [2], [1]]) := by decide +kernel
  obtain ⟨s, hs, hlogs⟩ := Option.map_eq_some_iff.mp hrun
  obtain ⟨hpushed, hpopped⟩ := Prod.mk.inj hlogs
  exact ⟨s, hs, hpushed, hpopped, by simp [hpushed, hpopped]⟩

end Spsc

end CommonCc
