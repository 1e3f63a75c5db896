import CommonCc.Lib.Transition
import CommonCc.Net.Queue.Layout

/-!
# The queue is a bounded FIFO

`Fifo` is the purpose of the component: a list of messages whose frames together
stay shorter than the buffer.  `CNetQueue.Holds` relates a ring to the messages in
it; every call keeps it and answers as the list does.
-/

namespace CommonCc

open Memory

/-! ## The abstract queue -/

namespace Fifo

/-- Bytes the queued messages take, with their lengths. -/
def load (msgs : List Bytes) : Nat := (msgs.map fun m => m.length + 4).sum

@[simp] theorem load_nil : load [] = 0 := rfl

@[simp] theorem load_cons (m : Bytes) (msgs : List Bytes) :
    load (m :: msgs) = m.length + 4 + load msgs := by
  simp [load]

@[simp] theorem load_append (xs ys : List Bytes) : load (xs ++ ys) = load xs + load ys := by
  simp [load]

def push (L : Nat) (msgs : List Bytes) (data : Bytes) : Int × List Bytes :=
  if load msgs + (data.length + 4) < L then (0, msgs ++ [data]) else (-1, msgs)

def pop (msgs : List Bytes) (buf_size data_len : Nat) : PopResult × List Bytes :=
  match msgs with
  | [] => (⟨-1, 0, []⟩, [])
  | m :: rest =>
      if buf_size < 4 then (⟨-2, data_len, []⟩, m :: rest)
      else if buf_size < m.length + 4 then (⟨-3, m.length + 4, []⟩, m :: rest)
      else (⟨0, m.length, m⟩, rest)

def call (L : Nat) (msgs : List Bytes) : QueueCall → QueueAnswer × List Bytes
  | .push data => (.pushed (push L msgs data).1, (push L msgs data).2)
  | .pop buf_size data_len =>
      (.popped (pop msgs buf_size data_len).1, (pop msgs buf_size data_len).2)

end Fifo

/-! ## The ring and its messages -/

/-- The ring `q` of `L` cells holds exactly the messages `msgs`. -/
structure CNetQueue.Holds (q : CNetQueue) (L : Nat) (msgs : List Bytes) : Prop where
  len : q.m_buffer_len = L
  size : q.m_buffer.size = L
  head_lt : q.m_head < L
  load_lt : Fifo.load msgs < L
  tail : q.m_tail = ringIndex L q.m_head (Fifo.load msgs)
  bytes : q.m_buffer.ringRead L q.m_head (Fifo.load msgs) = msgs.flatMap frame

namespace CNetQueue.Holds

variable {q : CNetQueue} {L : Nat} {msgs : List Bytes}

theorem tail_lt (h : q.Holds L msgs) : q.m_tail < L := by
  rw [h.tail]
  exact ringIndex_lt h.head_lt (Nat.le_of_lt h.load_lt)

theorem dist (h : q.Holds L msgs) : ringDist L q.m_head q.m_tail = Fifo.load msgs := by
  rw [h.tail, ringDist_ringIndex h.head_lt h.load_lt]

/-- The two indexes meet exactly when nothing is queued. -/
theorem head_eq_tail (h : q.Holds L msgs) : q.m_head = q.m_tail ↔ msgs = [] := by
  have hh := h.head_lt
  have hload := h.load_lt
  rw [h.tail]
  cases msgs with
  | nil => simp [ringIndex_zero hh]
  | cons m rest =>
      simp only [Fifo.load_cons] at hload ⊢
      simp only [reduceCtorEq, iff_false]
      unfold ringIndex
      split <;> omega

end CNetQueue.Holds

theorem CNetQueue.init_holds (buffer : Nat → UInt8) {L : Nat} (hL : 0 < L) (capacity : Nat) :
    (CNetQueue.init buffer L capacity).Holds L [] :=
  ⟨rfl, rfl, hL, hL, by simp [CNetQueue.init, hL], rfl⟩

/-! ## One call -/

section Calls

variable {q : CNetQueue} {L : Nat} {msgs : List Bytes}

theorem CNetQueue.push_rejects (h : q.Holds L msgs) (hL : L < 4294967296) {data : Bytes}
    (hd : data.length + 4 < 4294967296) (hfull : L ≤ Fifo.load msgs + (data.length + 4)) :
    q.Push data = .ok (-1, q) := by
  have hplan : EnQueue.plan L q.m_head q.m_tail data = none := by
    rw [EnQueue.plan_eq_none hL (Nat.le_of_lt h.head_lt) h.tail_lt hd,
      wrapIndex_of_lt h.head_lt, h.dist]
    exact hfull
  simp [Push, EnQueue, h.len, hplan]

theorem CNetQueue.push_accepts (h : q.Holds L msgs) (hL : L < 4294967296) {data : Bytes}
    (hroom : Fifo.load msgs + (data.length + 4) < L) :
    ∃ q', q.Push data = .ok (0, q') ∧ q'.Holds L (msgs ++ [data]) := by
  have hd : data.length + 4 < 4294967296 := by omega
  have hh := h.head_lt
  obtain ⟨p, hp⟩ : ∃ p, EnQueue.plan L q.m_head q.m_tail data = some p := by
    rw [← Option.ne_none_iff_exists']
    rw [Ne, EnQueue.plan_eq_none hL (Nat.le_of_lt h.head_lt) h.tail_lt hd,
      wrapIndex_of_lt h.head_lt, h.dist]
    omega
  have hfill := EnQueue.plan_fills hL (Nat.le_of_lt h.head_lt) h.tail_lt hd hp
  have hlen : (copiedIn p.copies).length = data.length + 4 := by rw [hfill.copied, frame_length]
  obtain ⟨m', hcopy, hsize, hread, hframe⟩ :=
    copyIn_scatter h.size h.tail_lt hfill.scatter (by omega)
  rw [hlen, hfill.copied] at hread
  rw [hlen] at hframe
  -- the queued messages are the ring cells that end where the new frame starts
  have hold : m'.ringRead L q.m_head (Fifo.load msgs) = msgs.flatMap frame := by
    have hback : ringIndex L q.m_tail (L - Fifo.load msgs) = q.m_head := by
      have := h.load_lt
      rw [h.tail, ringIndex_add (by omega) hh]
      unfold ringIndex
      split <;> omega
    have hr := hframe (L - Fifo.load msgs) (Fifo.load msgs) (by omega) (by omega)
    rw [hback] at hr
    rw [hr, h.bytes]
  refine ⟨{ q with
      m_buffer := m'
      m_tail := wrapIndex L p.tail
      m_fd := q.m_fd.put
      m_enqueue_num := u32 (q.m_enqueue_num + 1) }, ?_, ?_⟩
  · simp [Push, EnQueue, h.len, hp, hcopy]
  · refine ⟨h.len, hsize, hh, ?_, ?_, ?_⟩
    · simpa using hroom
    · simp only [Fifo.load_append, Fifo.load_cons, Fifo.load_nil, Nat.add_zero]
      rw [hfill.next, h.tail, ringIndex_add (by omega) hh]
    · simp only [Fifo.load_append, Fifo.load_cons, Fifo.load_nil, Nat.add_zero]
      rw [ringRead_append m' hh (by omega), hold, ← h.tail, hread]
      simp

theorem CNetQueue.pop_empty (h : q.Holds L []) (buf_size data_len : Nat) :
    q.Pop buf_size data_len = .ok (⟨-1, 0, []⟩, { q with m_fd := q.m_fd.take }) := by
  have hemp : q.m_head = q.m_tail := h.head_eq_tail.mpr rfl
  simp [Pop, DeQueue, hemp]

/-- The length read at the head is that of the oldest message. -/
theorem CNetQueue.read_len {m : Bytes} (h : q.Holds L (m :: msgs)) (hL : L < 4294967296) :
    ∃ lenBytes, copyOut q.m_buffer (DeQueue.lenPlan L q.m_head).1 = .ok lenBytes ∧
      leValue lenBytes = m.length := by
  have hload := h.load_lt
  have hh := h.head_lt
  simp only [Fifo.load_cons] at hload
  obtain ⟨hg, hsum, -⟩ := DeQueue.lenPlan_gathers hL (by omega) hh
  refine ⟨u32Bytes m.length, ?_, leValue_u32Bytes (by omega)⟩
  have hbytes := h.bytes
  simp only [Fifo.load_cons] at hbytes
  rw [copyOut_gather h.size hh hg (by omega), hsum]
  rw [show m.length + 4 + Fifo.load msgs = 4 + (m.length + Fifo.load msgs) by omega,
    ringRead_append _ hh (by omega), List.flatMap_cons, frame, List.append_assoc] at hbytes
  rw [(List.append_inj hbytes (by simp)).1]

/-- The payload read behind the length is the oldest message, as long as the end of the
payload is computed without overflow. -/
theorem CNetQueue.read_body_of_lt {m : Bytes} (h : q.Holds L (m :: msgs)) (hL : L < 4294967296)
    (hsum : ringIndex L q.m_head 4 + m.length < 4294967296) :
    copyOut q.m_buffer
      (DeQueue.bodyPlan L (DeQueue.lenPlan L q.m_head).2 m.length).1 = .ok m ∧
    wrapIndex L (DeQueue.bodyPlan L (DeQueue.lenPlan L q.m_head).2 m.length).2 =
      ringIndex L q.m_head (m.length + 4) := by
  have hload := h.load_lt
  have hh := h.head_lt
  simp only [Fifo.load_cons] at hload
  obtain ⟨-, -, hnext⟩ := DeQueue.lenPlan_gathers (L := L) (by omega) (by omega) hh
  have hlt : ringIndex L q.m_head 4 < L := ringIndex_lt hh (by omega)
  obtain ⟨hg, hcount, -, hwrap⟩ :=
    DeQueue.bodyPlan_gathers (by omega) hlt (by omega : m.length ≤ L) hsum
  rw [hnext]
  constructor
  · have hbytes := h.bytes
    simp only [Fifo.load_cons] at hbytes
    rw [copyOut_gather h.size hlt hg (by omega), hcount]
    rw [show m.length + 4 + Fifo.load msgs = 4 + (m.length + Fifo.load msgs) by omega,
      ringRead_append _ hh (by omega), ringRead_append _ hlt (by omega), List.flatMap_cons,
      frame, List.append_assoc] at hbytes
    have htail := (List.append_inj hbytes (by simp)).2
    rw [(List.append_inj htail (by simp)).1]
  · rw [hwrap, ringIndex_add (by omega) hh, Nat.add_comm]

/-- Taking the oldest frame off the front leaves the other messages. -/
theorem CNetQueue.Holds.advance {m : Bytes} (h : q.Holds L (m :: msgs)) {q' : CNetQueue}
    (hlen : q'.m_buffer_len = L) (hbuf : q'.m_buffer = q.m_buffer) (htail : q'.m_tail = q.m_tail)
    (hhead : q'.m_head = ringIndex L q.m_head (m.length + 4)) : q'.Holds L msgs := by
  have hload := h.load_lt
  have hh := h.head_lt
  simp only [Fifo.load_cons] at hload
  refine ⟨hlen, by rw [hbuf, h.size], ?_, by omega, ?_, ?_⟩
  · rw [hhead]
    exact ringIndex_lt hh (by omega)
  · rw [htail, h.tail, hhead, ringIndex_add (by omega) hh, Fifo.load_cons]
  · have hbytes := h.bytes
    rw [Fifo.load_cons, ringRead_append _ hh (by omega), List.flatMap_cons] at hbytes
    rw [hbuf, hhead]
    exact (List.append_inj hbytes (by simp)).2

/-- The used length that `DeQueue` asserts covers the oldest message. -/
theorem CNetQueue.oldest_used {m : Bytes} (h : q.Holds L (m :: msgs)) (hL : L < 4294967296) :
    ¬ DeQueue.usedLen L q.m_head q.m_tail < m.length + 4 := by
  have hne : q.m_head ≠ q.m_tail := by simp [h.head_eq_tail]
  rw [DeQueue.usedLen_eq hL h.head_lt (Nat.le_of_lt h.tail_lt) hne
      (fun he => absurd h.tail_lt (by omega)), wrapIndex_of_lt h.tail_lt, h.dist, Fifo.load_cons]
  omega

theorem CNetQueue.pop_oldest_of_lt {m : Bytes} (h : q.Holds L (m :: msgs)) (hL : L < 4294967296)
    {buf_size : Nat}
    (hsum : m.length + 4 ≤ buf_size → ringIndex L q.m_head 4 + m.length < 4294967296)
    (data_len : Nat) :
    ∃ q', q.Pop buf_size data_len = .ok ((Fifo.pop (m :: msgs) buf_size data_len).1, q') ∧
      q'.Holds L (Fifo.pop (m :: msgs) buf_size data_len).2 := by
  have hload := h.load_lt
  simp only [Fifo.load_cons] at hload
  have hne : q.m_head ≠ q.m_tail := by simp [h.head_eq_tail]
  obtain ⟨lenBytes, hcopy, hval⟩ := CNetQueue.read_len h hL
  have hassert := CNetQueue.oldest_used h hL
  by_cases h4 : buf_size < 4
  · refine ⟨q, ?_, by simpa [Fifo.pop, h4] using h⟩
    simp [Pop, DeQueue, hne, h4, Fifo.pop]
  by_cases hsmall : buf_size < m.length + 4
  · refine ⟨q, ?_, by simpa [Fifo.pop, h4, hsmall] using h⟩
    simp [Pop, DeQueue, hne, h4, h.len, hcopy, hval, hassert, hsmall, Fifo.pop,
      u32_of_lt (show m.length + 4 < 4294967296 by omega)]
  · obtain ⟨hbody, hwrap⟩ := CNetQueue.read_body_of_lt h hL (hsum (by omega))
    refine ⟨{ q with
        m_head := wrapIndex L (DeQueue.bodyPlan L (DeQueue.lenPlan L q.m_head).2 m.length).2
        m_fd := q.m_fd.take
        m_dequeue_num := u32 (q.m_dequeue_num + 1) }, ?_, ?_⟩
    · simp [Pop, DeQueue, hne, h4, h.len, hcopy, hval, hassert, hsmall, hbody, Fifo.pop]
    · simp only [Fifo.pop, h4, hsmall, if_false]
      exact h.advance h.len rfl rfl hwrap

theorem CNetQueue.pop_oldest {m : Bytes} (h : q.Holds L (m :: msgs)) (hL : L < 2147483648)
    (buf_size data_len : Nat) :
    ∃ q', q.Pop buf_size data_len = .ok ((Fifo.pop (m :: msgs) buf_size data_len).1, q') ∧
      q'.Holds L (Fifo.pop (m :: msgs) buf_size data_len).2 := by
  have hload := h.load_lt
  simp only [Fifo.load_cons] at hload
  have hlt : ringIndex L q.m_head 4 < L := ringIndex_lt h.head_lt (by omega)
  exact CNetQueue.pop_oldest_of_lt h (by omega) (fun _ => by omega) data_len

/-- A message larger than the caller's buffer stays where it is. -/
theorem CNetQueue.pop_too_small {buf_size data_len : Nat} {r : PopResult} {q' : CNetQueue}
    (hpop : q.Pop buf_size data_len = .ok (r, q')) (hret : r.ret = -3) : q' = q := by
  unfold Pop DeQueue at hpop
  by_cases hemp : q.m_head = q.m_tail
  · simp [hemp] at hpop
    obtain ⟨rfl, -⟩ := hpop
    simp at hret
  by_cases h4 : buf_size < 4
  · simp [hemp, h4] at hpop
    exact hpop.2.symm
  simp only [hemp, h4, if_false] at hpop
  cases hlen : copyOut q.m_buffer (DeQueue.lenPlan q.m_buffer_len q.m_head).1 with
  | error e => simp [hlen] at hpop
  | ok lenBytes =>
      simp only [hlen] at hpop
      split at hpop
      · cases hpop
      · rename_i hdeq
        split at hdeq
        · cases hdeq
        split at hdeq
        · cases hdeq
          cases hpop
          rfl
        split at hdeq
        · cases hdeq
        · cases hdeq
          cases hpop
          simp at hret

end Calls

/-! ## Every run -/

/-- What a caller may pass: `data_len + 4` fits the `uint32_t` it is computed in. -/
def QueueCall.Fits : QueueCall → Prop
  | .push data => data.length ≤ 4294967291
  | .pop _ _ => True

theorem CNetQueue.call_simulates {L : Nat} (hL : L < 2147483648) :
    Simulates CNetQueue.call (Fifo.call L) (fun q msgs => q.Holds L msgs) QueueCall.Fits := by
  intro q msgs c h hfit
  cases c with
  | push data =>
      have hd : data.length ≤ 4294967291 := hfit
      by_cases hroom : Fifo.load msgs + (data.length + 4) < L
      · obtain ⟨q', hpush, hq'⟩ := CNetQueue.push_accepts h (by omega) hroom
        refine ⟨q', ?_, by simpa [Fifo.call, Fifo.push, hroom] using hq'⟩
        simp [CNetQueue.call, hpush, Fifo.call, Fifo.push, hroom]
      · have hpush := CNetQueue.push_rejects h (by omega)
          (by omega : data.length + 4 < 4294967296) (by omega)
        refine ⟨q, ?_, by simpa [Fifo.call, Fifo.push, hroom] using h⟩
        simp [CNetQueue.call, hpush, Fifo.call, Fifo.push, hroom]
  | pop buf_size data_len =>
      cases msgs with
      | nil =>
          refine ⟨{ q with m_fd := q.m_fd.take }, ?_, ⟨h.1, h.2, h.3, h.4, h.5, h.6⟩⟩
          simp [CNetQueue.call, CNetQueue.pop_empty h, Fifo.call, Fifo.pop]
      | cons m rest =>
          obtain ⟨q', hpop, hq'⟩ := CNetQueue.pop_oldest h hL buf_size data_len
          refine ⟨q', ?_, hq'⟩
          simp [CNetQueue.call, hpop, Fifo.call]

/-- Every sequence of calls on a fresh queue is answered as the bounded FIFO
answers it.  No call fails, so the assertion of `DeQueue` never fires, both indexes
stay inside the buffer, and a refused call leaves the queue as it was. -/
theorem CNetQueue.calls_refine_fifo {L : Nat} (hL : 1 ≤ L) (hmax : L < 2147483648)
    (buffer : Nat → UInt8) (capacity : Nat) (calls : List QueueCall)
    (hfit : ∀ c ∈ calls, c.Fits) :
    ∃ q, runCalls CNetQueue.call (CNetQueue.init buffer L capacity) calls =
        .ok ((runSpec (Fifo.call L) [] calls).1, q) ∧
      q.m_head < L ∧ q.m_tail < L ∧
      (∀ data q', data.length ≤ 4294967291 → q.Push data = .ok (-1, q') → q' = q) ∧
      (∀ buf_size data_len r q', q.Pop buf_size data_len = .ok (r, q') → r.ret = -3 → q' = q) := by
  obtain ⟨q, hrun, h⟩ :=
    (CNetQueue.call_simulates hmax).run (CNetQueue.init_holds buffer hL capacity) hfit
  refine ⟨q, hrun, h.head_lt, h.tail_lt, ?_, ?_⟩
  · intro data q' hd hpush
    by_cases hroom : Fifo.load (runSpec (Fifo.call L) [] calls).2 + (data.length + 4) < L
    · obtain ⟨q₁, hok, -⟩ := CNetQueue.push_accepts h (by omega) hroom
      simp [hok] at hpush
    · rw [CNetQueue.push_rejects h (by omega) (by omega) (by omega)] at hpush
      simp at hpush
      exact hpush.symm
  · intro buf_size data_len r q' hpop hret
    exact CNetQueue.pop_too_small hpop hret

/-- Two messages pass through a ring of twelve cells, the second over its end. -/
theorem CNetQueue.calls_refine_fifo_twelve :
    ∃ q, runCalls CNetQueue.call (CNetQueue.init (fun _ => 0) 12 65536)
        [.push [7, 8], .pop 3 9, .push [1, 2, 3], .pop 6 0, .push [4, 5, 6], .pop 7 0, .pop 7 0] =
        .ok ([.pushed 0, .popped ⟨-2, 9, []⟩, .pushed (-1), .popped ⟨0, 2, [7, 8]⟩, .pushed 0,
          .popped ⟨0, 3, [4, 5, 6]⟩, .popped ⟨-1, 0, []⟩], q) ∧ q.m_head < 12 ∧ q.m_tail < 12 := by
  obtain ⟨q, hrun, hhead, htail, -⟩ := CNetQueue.calls_refine_fifo (L := 12) (by decide) (by decide)
    (fun _ => 0) 65536
    [.push [7, 8], .pop 3 9, .push [1, 2, 3], .pop 6 0, .push [4, 5, 6], .pop 7 0, .pop 7 0]
    (by simp [QueueCall.Fits])
  exact ⟨q, hrun, hhead, htail⟩

end CommonCc
