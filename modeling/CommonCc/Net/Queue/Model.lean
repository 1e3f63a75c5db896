import CommonCc.Base
import CommonCc.Lib.Ring

/-!
# The byte queue between threads

`CNetQueue` keeps messages of bytes in one ring buffer, each behind its length in
four bytes.  `EnQueue` and `DeQueue` first settle from the two indexes which
copies they make and which value they publish (`EnQueue.plan`, `DeQueue.lenPlan`,
`DeQueue.bodyPlan`) and then make them.  The plans are shared with the model in
which a producer and a consumer interleave.  The mutexes of `Push` and `Pop` never
fail and do not change the result of a call, so they are left out.
-/

namespace CommonCc

/-! ## The notification pipe -/

/-- A non-blocking pipe, as a count of the bytes it holds. -/
structure Pipe where
  bytes : Nat
  capacity : Nat
deriving Repr, DecidableEq

/-- `write(m_fd[1], "\0", 1)`. -/
def Pipe.put (p : Pipe) : Pipe :=
  if p.bytes < p.capacity then { p with bytes := p.bytes + 1 } else p

/-- `read(m_fd[0], &c, 1)`. -/
def Pipe.take (p : Pipe) : Pipe := { p with bytes := p.bytes - 1 }

/-! ## State -/

structure CNetQueue where
  m_buffer : Memory UInt8
  m_buffer_len : Nat
  m_head : Nat
  m_tail : Nat
  m_enqueue_num : Nat
  m_dequeue_num : Nat
  m_fd : Pipe

/-- The constructor.  The buffer comes from `new char[]`, so its cells hold
anything. -/
def CNetQueue.init (buffer : Nat → UInt8) (buffer_size capacity : Nat) : CNetQueue where
  m_buffer := ⟨buffer_size, buffer⟩
  m_buffer_len := buffer_size
  m_head := 0
  m_tail := 0
  m_enqueue_num := 0
  m_dequeue_num := 0
  m_fd := ⟨0, capacity⟩

/-! ## Copies -/

/-- `memcpy(m_buffer + off, src, n)` for each entry in turn. -/
def copyIn (m : Memory UInt8) : List (Nat × Bytes) → Except Fault (Memory UInt8)
  | [] => .ok m
  | (off, src) :: rest =>
      match m.store off src with
      | none => .error .outOfBounds
      | some m' => copyIn m' rest

/-- `memcpy(dst, m_buffer + off, n)` for each entry in turn, `dst` advancing. -/
def copyOut (m : Memory UInt8) : List (Nat × Nat) → Except Fault Bytes
  | [] => .ok []
  | (off, n) :: rest =>
      match m.load off n with
      | none => .error .outOfBounds
      | some bs =>
          match copyOut m rest with
          | .error e => .error e
          | .ok more => .ok (bs ++ more)

/-! ## EnQueue -/

/-- The copies of one `EnQueue` call and the value it first assigns to `m_tail`. -/
structure EnQueuePlan where
  copies : List (Nat × Bytes)
  tail : Nat
deriving Repr, DecidableEq

def EnQueue.plan (m_buffer_len head tail : Nat) (data : Bytes) : Option EnQueuePlan :=
  let data_len := data.length
  let total_len := u32 (data_len + 4)
  let free_len :=
    if tail < head then u32Sub head tail else u32Sub (u32 (head + m_buffer_len)) tail
  let tail_len := u32Sub m_buffer_len tail
  if free_len ≤ total_len then none
  else if total_len ≤ tail_len then
    some ⟨[(tail, u32Bytes data_len), (tail + 4, data)], u32 (tail + (data_len + 4))⟩
  else if 4 ≤ tail_len then
    let first_len := tail_len - 4
    some ⟨[(tail, u32Bytes data_len), (tail + 4, data.take first_len), (0, data.drop first_len)],
      u32Sub (u32 (tail + data_len + 4)) m_buffer_len⟩
  else
    let second_len := 4 - tail_len
    some ⟨[(tail, (u32Bytes data_len).take tail_len), (0, (u32Bytes data_len).drop tail_len),
      (second_len, data)], u32 (second_len + data_len)⟩

/-- `if (m_tail >= m_buffer_len) m_tail = 0;` and its twin for `m_head`. -/
def wrapIndex (m_buffer_len index : Nat) : Nat :=
  if m_buffer_len ≤ index then 0 else index

def CNetQueue.EnQueue (q : CNetQueue) (data : Bytes) : Except Fault (Int × CNetQueue) :=
  match EnQueue.plan q.m_buffer_len q.m_head q.m_tail data with
  | none => .ok (-1, q)
  | some p =>
      match copyIn q.m_buffer p.copies with
      | .error e => .error e
      | .ok m => .ok (0,
          { q with
            m_buffer := m
            m_tail := wrapIndex q.m_buffer_len p.tail
            m_fd := q.m_fd.put })

def CNetQueue.Push (q : CNetQueue) (data : Bytes) : Except Fault (Int × CNetQueue) :=
  match q.EnQueue data with
  | .error e => .error e
  | .ok (ret, q') =>
      .ok (ret, if ret = 0 then { q' with m_enqueue_num := u32 (q'.m_enqueue_num + 1) } else q')

/-! ## DeQueue -/

/-- The copies that bring in the length, and the offset of the payload. -/
def DeQueue.lenPlan (m_buffer_len head : Nat) : List (Nat × Nat) × Nat :=
  if m_buffer_len ≤ head + 4 then
    let first_len := u32Sub m_buffer_len head
    let second_len := u32Sub 4 first_len
    ([(head, first_len), (0, second_len)], second_len)
  else ([(head, 4)], u32 (head + 4))

/-- The copies that bring in the payload, and the value first assigned to
`m_head`. -/
def DeQueue.bodyPlan (m_buffer_len next real_len : Nat) : List (Nat × Nat) × Nat :=
  if u32 (next + real_len) ≤ m_buffer_len then
    ([(next, real_len)], u32 (next + real_len))
  else
    let first_len := u32Sub m_buffer_len next
    ([(next, first_len), (0, u32Sub real_len first_len)], u32Sub real_len first_len)

def DeQueue.usedLen (m_buffer_len head tail : Nat) : Nat :=
  if head < tail then u32Sub tail head else u32Sub (u32 (tail + m_buffer_len)) head

/-- What a caller of `Pop` sees: the return value, `*data_len`, and the bytes
stored from `buf` on. -/
structure PopResult where
  ret : Int
  data_len : Nat
  buf : Bytes
deriving Repr, DecidableEq

def CNetQueue.DeQueue (q : CNetQueue) (buf_size data_len : Nat) :
    Except Fault (PopResult × CNetQueue) :=
  if q.m_head = q.m_tail then .ok (⟨-1, 0, []⟩, { q with m_fd := q.m_fd.take })
  else if buf_size < 4 then .ok (⟨-2, data_len, []⟩, q)
  else
    let (lenCopies, next) := DeQueue.lenPlan q.m_buffer_len q.m_head
    match copyOut q.m_buffer lenCopies with
    | .error e => .error e
    | .ok lenBytes =>
        let real_len := leValue lenBytes
        if DeQueue.usedLen q.m_buffer_len q.m_head q.m_tail < real_len + 4 then .error .assertion
        else if buf_size < real_len + 4 then .ok (⟨-3, u32 (real_len + 4), []⟩, q)
        else
          let (copies, head) := DeQueue.bodyPlan q.m_buffer_len next real_len
          match copyOut q.m_buffer copies with
          | .error e => .error e
          | .ok buf => .ok (⟨0, real_len, buf⟩,
              { q with
                m_head := wrapIndex q.m_buffer_len head
                m_fd := q.m_fd.take })

def CNetQueue.Pop (q : CNetQueue) (buf_size data_len : Nat) :
    Except Fault (PopResult × CNetQueue) :=
  match q.DeQueue buf_size data_len with
  | .error e => .error e
  | .ok (r, q') =>
      .ok (r, if r.ret = 0 then { q' with m_dequeue_num := u32 (q'.m_dequeue_num + 1) } else q')

/-! ## Calls -/

inductive QueueCall where
  | push (data : Bytes)
  | pop (buf_size data_len : Nat)
deriving Repr, DecidableEq

inductive QueueAnswer where
  | pushed (ret : Int)
  | popped (result : PopResult)
deriving Repr, DecidableEq

def CNetQueue.call (q : CNetQueue) : QueueCall → Except Fault (QueueAnswer × CNetQueue)
  | .push data =>
      match q.Push data with
      | .error e => .error e
      | .ok (ret, q') => .ok (.pushed ret, q')
  | .pop buf_size data_len =>
      match q.Pop buf_size data_len with
      | .error e => .error e
      | .ok (r, q') => .ok (.popped r, q')

end CommonCc
