import CommonCc.Net.Queue.Interleave

/-!
# Safety of the lock-free queue

The invariant speaks about wrapped indexes, so it holds between the two assignments
to an index as well.  A producer that reads `m_head` too early or at the end of the
buffer still sees room that is free.  A consumer that reads `m_tail` at the end of
the buffer sees the messages there are, unless its own index is already zero: that
one step is what `Undisturbed` rules out.
-/

namespace CommonCc

namespace Spsc

open Memory

/-! ## The invariant -/

/-- Every message starts where `DeQueue` can add up the end of its payload. -/
def Placed (L : Nat) : Nat → List Bytes → Prop
  | _, [] => True
  | t, m :: rest =>
      (t + 4 < L → t + 4 + m.length < 4294967296) ∧ Placed L (ringIndex L t (m.length + 4)) rest

theorem Placed.append {L : Nat} {msgs : List Bytes} {data : Bytes} {t : Nat} (ht : t < L)
    (hload : Fifo.load msgs < L) (h : Placed L t msgs)
    (hd : ringIndex L t (Fifo.load msgs) + 4 < L →
      ringIndex L t (Fifo.load msgs) + 4 + data.length < 4294967296) :
    Placed L t (msgs ++ [data]) := by
  induction msgs generalizing t with
  | nil =>
      rw [Fifo.load_nil, ringIndex_zero ht] at hd
      exact ⟨hd, trivial⟩
  | cons m rest ih =>
      rw [Fifo.load_cons] at hload
      refine ⟨h.1, ih (ringIndex_lt ht (by omega)) (by omega) h.2 ?_⟩
      rw [ringIndex_add (by omega) ht]
      simpa using hd

/-- What the producer relies on, over a ring whose messages `msgs` start at `head`
and end at `m_tail`: the room it has seen is still free, and the part of the new
frame it has written lies behind the messages. -/
def Producer.Inv (L : Nat) (m : Memory UInt8) (head m_tail : Nat) (msgs : List Bytes) :
    Producer → Prop
  | .idle => m_tail < L
  | .readTail data seen =>
      m_tail < L ∧ seen ≤ L ∧ data.length + 4 < 4294967296 ∧
        Fifo.load msgs ≤ ringDist L (wrapIndex L seen) m_tail
  | .copying data todo tail =>
      m_tail < L ∧ Fifo.load msgs + (data.length + 4) < L ∧
        (m_tail + 4 < L → m_tail + 4 + data.length < 4294967296) ∧
        tail ≤ L ∧ wrapIndex L tail = ringIndex L m_tail (data.length + 4) ∧
        ∃ done, done + (copiedIn todo).length = data.length + 4 ∧
          Scatter L (ringIndex L m_tail done) todo ∧
          m.ringRead L head (Fifo.load msgs + done) ++ copiedIn todo =
            msgs.flatMap frame ++ frame data
  | .wrapping => True

/-- What the consumer relies on: once past the empty check there is an oldest
message, and what has been read is a prefix of its frame. -/
def Consumer.Inv (L m_head : Nat) (msgs : List Bytes) : Consumer → Prop
  | .idle => m_head < L
  | .readTail _ head => m_head < L ∧ head = m_head
  | .length _ head tail got todo =>
      m_head < L ∧ head = m_head ∧ ∃ m rest, msgs = m :: rest ∧
        m.length + 4 ≤ DeQueue.usedLen L head tail ∧
        Gather L (ringIndex L m_head got.length) todo ∧ got.length + copiedOut todo = 4 ∧
        got = (frame m).take got.length
  | .payload head got todo =>
      m_head < L ∧ ∃ m rest, msgs = m :: rest ∧
        head ≤ L ∧ wrapIndex L head = ringIndex L m_head (m.length + 4) ∧
        Gather L (ringIndex L m_head (4 + got.length)) todo ∧
        got.length + copiedOut todo = m.length ∧ got = m.take got.length
  | .wrapping => True

/-- The invariant of a run.  An index that stands at the end of the buffer means
zero, so the region of the messages is bounded by the wrapped indexes. -/
structure Inv (L : Nat) (s : State) (msgs : List Bytes) : Prop where
  len : s.m_buffer_len = L
  size : s.m_buffer.size = L
  fault : s.fault = none
  log : s.pushed = s.popped ++ msgs
  head_le : s.m_head ≤ L
  tail_le : s.m_tail ≤ L
  load_lt : Fifo.load msgs < L
  tail : wrapIndex L s.m_tail = ringIndex L (wrapIndex L s.m_head) (Fifo.load msgs)
  bytes : s.m_buffer.ringRead L (wrapIndex L s.m_head) (Fifo.load msgs) = msgs.flatMap frame
  placed : Placed L (wrapIndex L s.m_head) msgs
  producer : s.producer.Inv L s.m_buffer (wrapIndex L s.m_head) s.m_tail msgs
  consumer : s.consumer.Inv L s.m_head msgs

theorem init_inv (buffer : Nat → UInt8) {L : Nat} (hL : 0 < L) :
    Inv L (init buffer L) [] where
  len := rfl
  size := rfl
  fault := rfl
  log := rfl
  head_le := Nat.zero_le L
  tail_le := Nat.zero_le L
  load_lt := hL
  tail := by simp [init, ringIndex_zero (wrapIndex_lt hL)]
  bytes := rfl
  placed := trivial
  producer := hL
  consumer := hL

/-! ## The condition on steps -/

/-- A step away from the defects of the code.  A `Push` is called with a length to
which four can be added, and one that finds room does not put the payload so high
that the offset of its end passes `2 ^ 32` (with a buffer of at most `2 ^ 31` bytes
it never does).  A `Pop` that stands at the start of the buffer does not read
`m_tail` between its two assignments, while it equals the buffer length. -/
def Undisturbed (s : State) : Act → Prop
  | .push data => data.length + 4 < 4294967296
  | .produce =>
      match s.producer with
      | .readTail data head =>
          ringDist s.m_buffer_len (wrapIndex s.m_buffer_len head) s.m_tail + (data.length + 4) <
              s.m_buffer_len →
            s.m_tail + 4 < s.m_buffer_len → s.m_tail + 4 + data.length < 4294967296
      | _ => True
  | .pop _ => True
  | .consume =>
      match s.consumer with
      | .readTail buf_size head =>
          4 ≤ buf_size → head ≠ s.m_tail → ¬ (head = 0 ∧ s.m_tail = s.m_buffer_len)
      | _ => True

/-! ## Steps of the producer -/

section Produce

variable {L : Nat} {s s' : State} {msgs : List Bytes}

theorem Inv.head_lt_wrapped (h : Inv L s msgs) : wrapIndex L s.m_head < L := by
  have := h.load_lt
  exact wrapIndex_lt (by omega)

/-- `EnQueue` refuses the message or finds the room for its copies. -/
theorem Inv.produce_readTail {data : Bytes} {head : Nat} (hL : L < 4294967296) (h : Inv L s msgs)
    (hg : Undisturbed s .produce) (hprod : s.producer = .readTail data head)
    (hs : s.produce = some s') : Inv L s' msgs := by
  have hpc := h.producer
  rw [hprod] at hpc
  obtain ⟨htail, hhead, hdata, hseen⟩ := hpc
  unfold State.produce at hs
  simp only [hprod, h.len] at hs
  cases hplan : EnQueue.plan L head s.m_tail data with
  | none =>
      simp only [hplan, Option.some.injEq] at hs
      subst hs
      exact { h with len := rfl, producer := htail }
  | some p =>
      simp only [hplan, Option.some.injEq] at hs
      subst hs
      have hfill := EnQueue.plan_fills hL hhead htail hdata hplan
      have hroom : ringDist L (wrapIndex L head) s.m_tail + (data.length + 4) < L := by
        have hnone := EnQueue.plan_eq_none hL hhead htail hdata
        rw [hplan] at hnone
        simp only [reduceCtorEq, false_iff] at hnone
        omega
      have hplace : s.m_tail + 4 < L → s.m_tail + 4 + data.length < 4294967296 := by
        simp only [Undisturbed, hprod, h.len] at hg
        exact hg hroom
      have hlen : (copiedIn p.copies).length = data.length + 4 := by
        rw [hfill.copied, frame_length]
      refine { h with len := rfl, producer := ?_ }
      refine ⟨htail, by omega, hplace, hfill.le, hfill.next, 0, by omega, ?_, ?_⟩
      · rw [ringIndex_zero htail]
        exact hfill.scatter
      · rw [Nat.add_zero, h.bytes, hfill.copied]

/-- The frame that is being copied starts behind the messages. -/
theorem Inv.behind (h : Inv L s msgs) (htail : s.m_tail < L) :
    ringIndex L (wrapIndex L s.m_head) (Fifo.load msgs) = s.m_tail := by
  rw [← h.tail, wrapIndex_of_lt htail]

/-- A copy leaves the bytes of the messages and of the earlier copies. -/
theorem Inv.produce_copy {data src : Bytes} {off tail : Nat} {todo : List (Nat × Bytes)}
    (h : Inv L s msgs) (hprod : s.producer = .copying data ((off, src) :: todo) tail)
    (hs : s.produce = some s') : Inv L s' msgs := by
  have hH := h.head_lt_wrapped
  have hpc := h.producer
  rw [hprod] at hpc
  obtain ⟨htail, hroom, hplace, hraw, hnext, done, hdone, hscatter, hbytes⟩ := hpc
  obtain ⟨hfit, hoff, hrest⟩ := hscatter
  have hcopied : copiedIn ((off, src) :: todo) = src ++ copiedIn todo := rfl
  rw [hcopied, List.length_append] at hdone
  have hat : ringIndex L s.m_tail done =
      ringIndex L (wrapIndex L s.m_head) (Fifo.load msgs + done) := by
    rw [← h.behind htail, ringIndex_add (by omega) hH]
  rw [hat] at hoff
  have hkeep := ringRead_write_before s.m_buffer (by omega) hoff hfit
  unfold State.produce at hs
  simp only [hprod, s.m_buffer.store_eq_some (h.size ▸ hfit), Option.some.injEq] at hs
  subst hs
  refine { h with
    size := by simpa using h.size
    bytes := ?_
    producer := ?_ }
  · show (s.m_buffer.write off src).ringRead L (wrapIndex L s.m_head) _ = _
    rw [← take_ringRead _ hH (n := Fifo.load msgs + done) (by omega) (by omega), hkeep,
      take_ringRead _ hH (by omega) (by omega), h.bytes]
  · refine ⟨htail, hroom, hplace, hraw, hnext, done + src.length, by omega, ?_, ?_⟩
    · rw [← ringIndex_add (by omega) htail]
      exact hrest
    · rw [← Nat.add_assoc, ringRead_append _ hH (by omega), hkeep,
        ringRead_write_self _ hoff hfit, List.append_assoc, ← hcopied]
      exact hbytes

/-- A message behind the oldest one changes nothing for the consumer. -/
theorem Consumer.Inv.append {c : Consumer} {m_head : Nat} (h : c.Inv L m_head msgs)
    (data : Bytes) : c.Inv L m_head (msgs ++ [data]) := by
  cases c with
  | idle => exact h
  | readTail buf_size head => exact h
  | length buf_size head tail got todo =>
      obtain ⟨hlt, heq, m, rest, rfl, hrest⟩ := h
      exact ⟨hlt, heq, m, rest ++ [data], rfl, hrest⟩
  | payload head got todo =>
      obtain ⟨hlt, m, rest, rfl, hrest⟩ := h
      exact ⟨hlt, m, rest ++ [data], rfl, hrest⟩
  | wrapping => trivial

/-- After the last copy the first assignment to `m_tail` publishes the message. -/
theorem Inv.produce_publish {data : Bytes} {tail : Nat} (h : Inv L s msgs)
    (hprod : s.producer = .copying data [] tail) (hs : s.produce = some s') :
    Inv L s' (msgs ++ [data]) := by
  have hH := h.head_lt_wrapped
  have hpc := h.producer
  rw [hprod] at hpc
  obtain ⟨htail, hroom, hplace, hraw, hnext, done, hdone, -, hbytes⟩ := hpc
  have hmt := h.behind htail
  have hfull : done = data.length + 4 := by simpa [copiedIn] using hdone
  have hload : Fifo.load (msgs ++ [data]) = Fifo.load msgs + (data.length + 4) := by simp
  unfold State.produce at hs
  simp only [hprod, Option.some.injEq] at hs
  subst hs
  refine { h with
    log := by simp [h.log]
    tail_le := hraw
    load_lt := by rw [hload]; exact hroom
    tail := ?_
    bytes := ?_
    placed := h.placed.append hH h.load_lt (by rw [hmt]; exact hplace)
    producer := trivial
    consumer := h.consumer.append data }
  · show wrapIndex L tail = _
    rw [hnext, hload, ← hmt, ringIndex_add (by omega) hH]
  · show s.m_buffer.ringRead L (wrapIndex L s.m_head) _ = _
    rw [hload, ← hfull]
    simpa [copiedIn] using hbytes

theorem Inv.produce_wrapping (h : Inv L s msgs) (hprod : s.producer = .wrapping)
    (hs : s.produce = some s') : Inv L s' msgs := by
  unfold State.produce at hs
  simp only [hprod, h.len, Option.some.injEq] at hs
  subst hs
  have hlt : wrapIndex L s.m_tail < L := wrapIndex_lt (by have := h.load_lt; omega)
  refine { h with
    len := rfl
    tail_le := Nat.le_of_lt hlt
    tail := ?_
    producer := hlt }
  show wrapIndex L (wrapIndex L s.m_tail) = _
  rw [wrapIndex_of_lt hlt, h.tail]

/-- A producer step keeps the messages or appends the one it publishes. -/
theorem Inv.produce (hL : L < 4294967296) (h : Inv L s msgs) (hg : Undisturbed s .produce)
    (hs : s.produce = some s') : ∃ msgs', Inv L s' msgs' := by
  cases hprod : s.producer with
  | idle => simp [State.produce, hprod] at hs
  | readTail data head => exact ⟨msgs, h.produce_readTail hL hg hprod hs⟩
  | copying data todo tail =>
      cases todo with
      | nil => exact ⟨msgs ++ [data], h.produce_publish hprod hs⟩
      | cons c todo => exact ⟨msgs, h.produce_copy hprod hs⟩
  | wrapping => exact ⟨msgs, h.produce_wrapping hprod hs⟩

end Produce

/-! ## Steps of the consumer -/

section Consume

variable {L : Nat} {s s' : State} {msgs : List Bytes}

/-- The frame of the oldest message, as it lies in the ring. -/
theorem Inv.oldest {m : Bytes} (h : Inv L s (m :: msgs)) :
    s.m_buffer.ringRead L (wrapIndex L s.m_head) (m.length + 4) = frame m := by
  have hload := h.load_lt
  rw [Fifo.load_cons] at hload
  have hb := h.bytes
  rw [Fifo.load_cons, List.flatMap_cons, ringRead_append _ h.head_lt_wrapped (by omega)] at hb
  exact (List.append_inj hb (by simp)).1

/-- Seeing different indexes, the consumer sees a queue with messages in it, of the
length that lies between them. -/
theorem Inv.nonempty (hL : L < 4294967296) (h : Inv L s msgs) (hhead : s.m_head < L)
    (hne : s.m_head ≠ s.m_tail) (hraw : ¬ (s.m_head = 0 ∧ s.m_tail = L)) :
    ∃ m rest, msgs = m :: rest ∧
      DeQueue.usedLen L s.m_head s.m_tail = m.length + 4 + Fifo.load rest := by
  have htail := h.tail
  rw [wrapIndex_of_lt hhead] at htail
  cases msgs with
  | nil =>
      rw [Fifo.load_nil, ringIndex_zero hhead] at htail
      unfold wrapIndex at htail
      have := h.tail_le
      split at htail <;> omega
  | cons m rest =>
      refine ⟨m, rest, rfl, ?_⟩
      rw [DeQueue.usedLen_eq hL hhead h.tail_le hne (fun ht h0 => hraw ⟨h0, ht⟩), htail,
        ringDist_ringIndex hhead h.load_lt, Fifo.load_cons]

/-- Past the empty check the consumer goes on to the length of the oldest message. -/
theorem Inv.consume_readTail {buf_size head : Nat} (hL : L < 4294967296) (h : Inv L s msgs)
    (hg : Undisturbed s .consume) (hcons : s.consumer = .readTail buf_size head)
    (hs : s.consume = some s') : Inv L s' msgs := by
  have hpc := h.consumer
  rw [hcons] at hpc
  obtain ⟨hhead, rfl⟩ := hpc
  unfold State.consume at hs
  simp only [hcons] at hs
  split at hs
  · cases hs
    exact { h with consumer := hhead }
  rename_i hne
  split at hs
  · cases hs
    exact { h with consumer := hhead }
  rename_i h4
  cases hs
  simp only [Undisturbed, hcons, h.len] at hg
  obtain ⟨m, rest, rfl, hused⟩ := h.nonempty hL hhead hne (hg (by omega) hne)
  have hload := h.load_lt
  rw [Fifo.load_cons] at hload
  obtain ⟨hgather, hsum, -⟩ := DeQueue.lenPlan_gathers hL (by omega) hhead
  refine { h with consumer := ?_ }
  rw [h.len]
  refine ⟨hhead, rfl, m, rest, rfl, by omega, ?_, ?_, rfl⟩
  · rw [List.length_nil, ringIndex_zero hhead]
    exact hgather
  · rw [hsum]
    rfl

theorem Inv.consume_length_copy {buf_size head tail off n : Nat} {got : Bytes}
    {todo : List (Nat × Nat)} (h : Inv L s msgs)
    (hcons : s.consumer = .length buf_size head tail got ((off, n) :: todo))
    (hs : s.consume = some s') : Inv L s' msgs := by
  have hpc := h.consumer
  rw [hcons] at hpc
  obtain ⟨hhead, rfl, m, rest, rfl, hused, hgather, hsum, hgot⟩ := hpc
  have hold := h.oldest
  have hload := h.load_lt
  rw [Fifo.load_cons] at hload
  rw [wrapIndex_of_lt hhead] at hold
  obtain ⟨hfit, hoff, hrest⟩ := hgather
  have hcopied : copiedOut ((off, n) :: todo) = n + copiedOut todo := by simp [copiedOut]
  rw [hcopied] at hsum
  unfold State.consume at hs
  simp only [hcons, s.m_buffer.load_eq_some (h.size ▸ hfit), Option.some.injEq] at hs
  subst hs
  refine { h with consumer := ?_ }
  refine ⟨hhead, rfl, m, rest, rfl, hused, ?_, ?_, ?_⟩
  · rw [List.length_append, read_length, ← ringIndex_add (by omega) hhead]
    exact hrest
  · rw [List.length_append, read_length]
    omega
  · rw [read_eq_ringRead _ hoff hfit, List.length_append, ringRead_length,
      ← take_append_ringRead _ hhead (by omega) (by omega) hold, ← hgot]

/-- The four bytes read are the length of the oldest message, so the assertion holds. -/
theorem Inv.consume_length_done {buf_size head tail : Nat} {got : Bytes} (hL : L < 4294967296)
    (h : Inv L s msgs) (hcons : s.consumer = .length buf_size head tail got [])
    (hs : s.consume = some s') : Inv L s' msgs := by
  have hpc := h.consumer
  rw [hcons] at hpc
  obtain ⟨hhead, rfl, m, rest, rfl, hused, hgather, hsum, hgot⟩ := hpc
  have hload := h.load_lt
  rw [Fifo.load_cons] at hload
  have hfour : got.length = 4 := by simpa [copiedOut] using hsum
  have hval : leValue got = m.length := by
    rw [hgot, hfour, frame_take_four, leValue_u32Bytes (by omega)]
  unfold State.consume at hs
  simp only [hcons, h.len, hval] at hs
  rw [if_neg (by omega)] at hs
  split at hs
  · cases hs
    exact { h with len := rfl, consumer := hhead }
  · cases hs
    have hplace := h.placed.1
    rw [wrapIndex_of_lt hhead] at hplace
    obtain ⟨-, -, hnext⟩ := DeQueue.lenPlan_gathers hL (by omega) hhead
    have hlt : ringIndex L s.m_head 4 < L := ringIndex_lt hhead (by omega)
    have hfits : ringIndex L s.m_head 4 + m.length < 4294967296 := by
      unfold ringIndex
      split <;> omega
    obtain ⟨hg', hs', hle, hwrap⟩ :=
      DeQueue.bodyPlan_gathers hL hlt (by omega) hfits
    refine { h with len := rfl, consumer := ?_ }
    simp only [hnext]
    refine ⟨hhead, m, rest, rfl, hle, ?_, hg', ?_, rfl⟩
    · rw [hwrap, ringIndex_add (by omega) hhead, Nat.add_comm]
    · rw [hs']
      simp

theorem Inv.consume_payload_copy {head off n : Nat} {got : Bytes} {todo : List (Nat × Nat)}
    (h : Inv L s msgs) (hcons : s.consumer = .payload head got ((off, n) :: todo))
    (hs : s.consume = some s') : Inv L s' msgs := by
  have hpc := h.consumer
  rw [hcons] at hpc
  obtain ⟨hhead, m, rest, rfl, hle, hwrap, hgather, hsum, hgot⟩ := hpc
  have hload := h.load_lt
  rw [Fifo.load_cons] at hload
  obtain ⟨hfit, hoff, hrest⟩ := hgather
  have hcopied : copiedOut ((off, n) :: todo) = n + copiedOut todo := by simp [copiedOut]
  rw [hcopied] at hsum
  have hbody : s.m_buffer.ringRead L (ringIndex L s.m_head 4) m.length = m := by
    have hold := h.oldest
    rw [wrapIndex_of_lt hhead, Nat.add_comm, ringRead_append _ hhead (by omega), frame] at hold
    exact (List.append_inj hold (by simp)).2
  unfold State.consume at hs
  simp only [hcons, s.m_buffer.load_eq_some (h.size ▸ hfit), Option.some.injEq] at hs
  subst hs
  refine { h with consumer := ?_ }
  refine ⟨hhead, m, rest, rfl, hle, hwrap, ?_, ?_, ?_⟩
  · rw [List.length_append, read_length, ← Nat.add_assoc, ← ringIndex_add (by omega) hhead]
    exact hrest
  · rw [List.length_append, read_length]
    omega
  · rw [← ringIndex_add (by omega) hhead] at hoff
    rw [read_eq_ringRead _ hoff hfit, List.length_append, ringRead_length,
      ← take_append_ringRead _ (ringIndex_lt hhead (by omega)) (by omega) (by omega) hbody,
      ← hgot]

/-- When the oldest message goes the producer's room only grows, and what it writes lies
behind the others. -/
theorem Producer.Inv.drop {c : Producer} {memory : Memory UInt8} {m_head m_tail : Nat} {m : Bytes}
    (h : c.Inv L memory m_head m_tail (m :: msgs)) (hhead : m_head < L) :
    c.Inv L memory (ringIndex L m_head (m.length + 4)) m_tail msgs := by
  cases c with
  | idle => exact h
  | readTail data seen =>
      obtain ⟨htail, hseen, hdata, hroom⟩ := h
      rw [Fifo.load_cons] at hroom
      exact ⟨htail, hseen, hdata, by omega⟩
  | copying data todo tail =>
      obtain ⟨htail, hroom, hplace, hraw, hnext, done, hdone, hscatter, hbytes⟩ := h
      rw [Fifo.load_cons] at hroom
      refine ⟨htail, by omega, hplace, hraw, hnext, done, hdone, hscatter, ?_⟩
      rw [Fifo.load_cons, Nat.add_assoc, ringRead_append _ hhead (by omega),
        List.append_assoc, List.flatMap_cons, List.append_assoc] at hbytes
      exact (List.append_inj hbytes (by simp)).2
  | wrapping => trivial

/-- After the last copy the first assignment to `m_head` takes the oldest message away. -/
theorem Inv.consume_take {head : Nat} {got : Bytes} (h : Inv L s msgs)
    (hcons : s.consumer = .payload head got []) (hs : s.consume = some s') :
    Inv L s' msgs.tail := by
  have hpc := h.consumer
  rw [hcons] at hpc
  obtain ⟨hhead, m, rest, rfl, hle, hwrap, -, hsum, hgot⟩ := hpc
  have hload := h.load_lt
  rw [Fifo.load_cons] at hload
  have hall : got = m := by
    have hlen : got.length = m.length := by simpa [copiedOut] using hsum
    rw [hgot, hlen, List.take_length]
  unfold State.consume at hs
  simp only [hcons, Option.some.injEq] at hs
  subst hs
  have hH : wrapIndex L s.m_head = s.m_head := wrapIndex_of_lt hhead
  refine { h with
    log := by simp [h.log, hall]
    head_le := hle
    load_lt := by rw [List.tail_cons]; omega
    tail := ?_
    bytes := ?_
    placed := ?_
    producer := ?_
    consumer := trivial }
  · show wrapIndex L s.m_tail = ringIndex L (wrapIndex L head) (Fifo.load rest)
    rw [hwrap, ringIndex_add (by omega) hhead, h.tail, hH, Fifo.load_cons]
  · show s.m_buffer.ringRead L (wrapIndex L head) (Fifo.load rest) = rest.flatMap frame
    have hb := h.bytes
    rw [hH, Fifo.load_cons, List.flatMap_cons, ringRead_append _ hhead (by omega)] at hb
    rw [hwrap]
    exact (List.append_inj hb (by simp)).2
  · show Placed L (wrapIndex L head) rest
    rw [hwrap, ← hH]
    exact h.placed.2
  · show s.producer.Inv L s.m_buffer (wrapIndex L head) s.m_tail rest
    have hp := h.producer
    rw [hH] at hp
    rw [hwrap]
    exact hp.drop hhead

theorem Inv.consume_wrapping (h : Inv L s msgs) (hcons : s.consumer = .wrapping)
    (hs : s.consume = some s') : Inv L s' msgs := by
  unfold State.consume at hs
  simp only [hcons, h.len, Option.some.injEq] at hs
  subst hs
  have hlt : wrapIndex L s.m_head < L := h.head_lt_wrapped
  have hwrap : wrapIndex L (wrapIndex L s.m_head) = wrapIndex L s.m_head := wrapIndex_of_lt hlt
  refine { h with
    len := rfl
    head_le := Nat.le_of_lt hlt
    tail := ?_
    bytes := ?_
    placed := ?_
    producer := ?_
    consumer := hlt }
  · simpa only [hwrap] using h.tail
  · simpa only [hwrap] using h.bytes
  · simpa only [hwrap] using h.placed
  · simpa only [hwrap] using h.producer

/-- A consumer step keeps the messages or drops the oldest, which it returns. -/
theorem Inv.consume (hL : L < 4294967296) (h : Inv L s msgs) (hg : Undisturbed s .consume)
    (hs : s.consume = some s') : ∃ msgs', Inv L s' msgs' := by
  cases hcons : s.consumer with
  | idle => simp [State.consume, hcons] at hs
  | readTail buf_size head => exact ⟨msgs, h.consume_readTail hL hg hcons hs⟩
  | length buf_size head tail got todo =>
      cases todo with
      | nil => exact ⟨msgs, h.consume_length_done hL hcons hs⟩
      | cons c todo => exact ⟨msgs, h.consume_length_copy hcons hs⟩
  | payload head got todo =>
      cases todo with
      | nil => exact ⟨msgs.tail, h.consume_take hcons hs⟩
      | cons c todo => exact ⟨msgs, h.consume_payload_copy hcons hs⟩
  | wrapping => exact ⟨msgs, h.consume_wrapping hcons hs⟩

end Consume

/-! ## Every run -/

/-- One undisturbed step of either party. -/
theorem Inv.step {L : Nat} (hL : L < 4294967296) {s s' : State} {a : Act}
    (h : ∃ msgs, Inv L s msgs) (hg : Undisturbed s a) (hs : step s a = some s') :
    ∃ msgs, Inv L s' msgs := by
  obtain ⟨msgs, h⟩ := h
  unfold Spsc.step at hs
  rw [if_neg (by simp [h.fault])] at hs
  cases a with
  | push data =>
      simp only [Option.ite_none_right_eq_some, Option.some.injEq] at hs
      obtain ⟨hidle, rfl⟩ := hs
      have htail : s.m_tail < L := by
        have hp := h.producer
        rw [hidle] at hp
        exact hp
      refine ⟨msgs, { h with producer := ⟨htail, h.head_le, hg, ?_⟩ }⟩
      have hdist := h.tail
      rw [wrapIndex_of_lt htail] at hdist
      have hload := ringDist_ringIndex h.head_lt_wrapped h.load_lt
      rw [← hdist] at hload
      exact hload.ge
  | produce => exact h.produce hL hg hs
  | pop buf_size =>
      simp only [Option.ite_none_right_eq_some, Option.some.injEq] at hs
      obtain ⟨hidle, rfl⟩ := hs
      have hhead : s.m_head < L := by
        have hc := h.consumer
        rw [hidle] at hc
        exact hc
      exact ⟨msgs, { h with consumer := ⟨hhead, rfl⟩ }⟩
  | consume => exact h.consume hL hg hs

/-- Without a buffer every `Push` is refused and every `Pop` finds nothing. -/
structure NoBuffer (s : State) : Prop where
  len : s.m_buffer_len = 0
  head : s.m_head = 0
  tail : s.m_tail = 0
  fault : s.fault = none
  popped : s.popped = []
  producer : s.producer = .idle ∨ ∃ data head, s.producer = .readTail data head ∧ head = 0
  consumer : s.consumer = .idle ∨ ∃ buf_size, s.consumer = .readTail buf_size 0

theorem NoBuffer.step {s s' : State} {a : Act} (h : NoBuffer s) (hs : step s a = some s') :
    NoBuffer s' := by
  unfold Spsc.step at hs
  rw [if_neg (by simp [h.fault])] at hs
  cases a with
  | push data =>
      simp only [Option.ite_none_right_eq_some, Option.some.injEq] at hs
      obtain ⟨-, rfl⟩ := hs
      exact { h with producer := .inr ⟨data, s.m_head, rfl, h.head⟩ }
  | produce =>
      rcases h.producer with hp | ⟨data, head, hp, hhead⟩
      · simp [State.produce, hp] at hs
      · have hplan : EnQueue.plan s.m_buffer_len head s.m_tail data = none := by
          rw [h.len, hhead, h.tail, EnQueue.plan_no_buffer]
        simp only [State.produce, hp, hplan, Option.some.injEq] at hs
        subst hs
        exact { h with producer := .inl rfl }
  | pop buf_size =>
      simp only [Option.ite_none_right_eq_some, Option.some.injEq] at hs
      obtain ⟨-, rfl⟩ := hs
      exact { h with consumer := .inr ⟨buf_size, by rw [h.head]⟩ }
  | consume =>
      rcases h.consumer with hc | ⟨buf_size, hc⟩
      · simp [State.consume, hc] at hs
      · simp only [State.consume, hc, h.tail, if_true, Option.some.injEq] at hs
        subst hs
        exact { h with tail := rfl, consumer := .inl rfl }

/-- For every buffer size and every interleaving whose steps are undisturbed, no
fault occurs and the messages `Pop` returned are, in order, the first of those
`Push` published. -/
theorem undisturbed_pops_in_order {L : Nat} (hL : L < 4294967296) (buffer : Nat → UInt8)
    (schedule : List Act) {s : State} (hg : Allowed step Undisturbed (init buffer L) schedule)
    (hrun : runSteps step (init buffer L) schedule = some s) :
    s.fault = none ∧ s.popped <+: s.pushed := by
  by_cases hzero : L = 0
  · subst hzero
    have h₀ : NoBuffer (init buffer 0) :=
      ⟨rfl, rfl, rfl, rfl, rfl, .inl rfl, .inl rfl⟩
    have h := runSteps_invariant (fun _ _ _ h _ hs => h.step hs) h₀ hg hrun
    exact ⟨h.fault, h.popped ▸ List.nil_prefix⟩
  · obtain ⟨msgs, h⟩ := runSteps_invariant (I := fun s => ∃ msgs, Inv L s msgs)
      (fun _ _ _ h hg hs => Inv.step hL h hg hs) ⟨[], init_inv buffer (by omega)⟩ hg hrun
    exact ⟨h.fault, h.log ▸ List.prefix_append _ _⟩

instance (s : State) : ∀ a, Decidable (Undisturbed s a)
  | .push data => inferInstanceAs (Decidable (data.length + 4 < 4294967296))
  | .produce => by
      unfold Undisturbed
      cases s.producer <;> dsimp only <;> infer_instance
  | .pop _ => .isTrue trivial
  | .consume => by
      unfold Undisturbed
      cases s.consumer <;> dsimp only <;> infer_instance

/-- The schedule of `repeatingSchedule_duplicates` with the second `Push` run to
its end before the consumer goes on. -/
def settledSchedule : List Act :=
  [.push [1]] ++ List.replicate 5 .produce ++
  [.pop 10] ++ List.replicate 6 .consume ++
  [.push [2]] ++ List.replicate 5 .produce ++
  [.pop 10] ++ List.replicate 6 .consume ++
  [.pop 10, .consume]

theorem undisturbed_pops_in_order_ten :
    ∃ s, runSteps step (init (fun _ => 0) 10) settledSchedule = some s ∧
      s.pushed = [[1], [2]] ∧ s.popped = [[1], [2]] ∧ s.fault = none ∧ s.popped <+: s.pushed := by
  have hrun : (runSteps step (init (fun _ => 0) 10) settledSchedule).map
      (fun s => (s.pushed, s.popped)) = some ([[1], [2]], [[1], [2]]) := by decide +kernel
  obtain ⟨s, hs, hlogs⟩ := Option.map_eq_some_iff.mp hrun
  obtain ⟨hpushed, hpopped⟩ := Prod.mk.inj hlogs
  exact ⟨s, hs, hpushed, hpopped,
    undisturbed_pops_in_order (by decide) (fun _ => 0) settledSchedule (by decide +kernel) hs⟩

end Spsc

end CommonCc
