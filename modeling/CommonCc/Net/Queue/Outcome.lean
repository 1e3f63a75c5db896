import CommonCc.Net.Queue.Fifo

/-!
# What a completed call did

For rings of every size a `uint32_t` can give, a call on the queue either fails or
answers as the bounded FIFO does.  A completed call moves the notification pipe by one
byte at most.
-/

namespace CommonCc

namespace CNetQueue

variable {q q' : CNetQueue}

/-! ## The pipe -/

/-- A completed `Push` changes nothing, or copies in what the plan says. -/
theorem push_cases {data : Bytes} {ret : Int} (h : q.Push data = .ok (ret, q')) :
    (EnQueue.plan q.m_buffer_len q.m_head q.m_tail data = none ∧ ret = -1 ∧ q' = q) ∨
    ∃ p m, EnQueue.plan q.m_buffer_len q.m_head q.m_tail data = some p ∧
      copyIn q.m_buffer p.copies = .ok m ∧ ret = 0 ∧
      q' = { q with
        m_buffer := m
        m_tail := wrapIndex q.m_buffer_len p.tail
        m_fd := q.m_fd.put
        m_enqueue_num := u32 (q.m_enqueue_num + 1) } := by
  unfold Push EnQueue at h
  cases hplan : EnQueue.plan q.m_buffer_len q.m_head q.m_tail data with
  | none =>
      simp only [hplan] at h
      cases h
      exact .inl ⟨rfl, rfl, rfl⟩
  | some p =>
      cases hcopy : copyIn q.m_buffer p.copies with
      | error e => simp [hplan, hcopy] at h
      | ok m =>
          simp only [hplan, hcopy] at h
          cases h
          exact .inr ⟨p, m, rfl, hcopy, rfl, rfl⟩

theorem push_pipe {data : Bytes} {ret : Int} (h : q.Push data = .ok (ret, q')) :
    q'.m_fd = if ret = 0 then q.m_fd.put else q.m_fd := by
  rcases push_cases h with ⟨-, rfl, rfl⟩ | ⟨p, m, -, -, rfl, rfl⟩
  · rfl
  · rfl

theorem pop_pipe {buf_size data_len : Nat} {r : PopResult}
    (h : q.Pop buf_size data_len = .ok (r, q')) :
    q'.m_fd = if r.ret = 0 ∨ r.ret = -1 then q.m_fd.take else q.m_fd := by
  unfold Pop at h
  cases hdeq : q.DeQueue buf_size data_len with
  | error e => simp [hdeq] at h
  | ok out =>
      simp only [hdeq] at h
      cases h
      unfold DeQueue at hdeq
      by_cases hemp : q.m_head = q.m_tail
      · rw [if_pos hemp] at hdeq
        cases hdeq
        rfl
      rw [if_neg hemp] at hdeq
      by_cases h4 : buf_size < 4
      · rw [if_pos h4] at hdeq
        cases hdeq
        rfl
      rw [if_neg h4] at hdeq
      dsimp only at hdeq
      cases hlen : copyOut q.m_buffer (DeQueue.lenPlan q.m_buffer_len q.m_head).1 with
      | error e => simp [hlen] at hdeq
      | ok lenBytes =>
          simp only [hlen] at hdeq
          split at hdeq
          · cases hdeq
          split at hdeq
          · cases hdeq
            rfl
          split at hdeq
          · cases hdeq
          · cases hdeq
            rfl

/-! ## The answer -/

variable {L : Nat} {msgs : List Bytes}

/-- A copy that leaves the buffer fails, whatever is copied before it. -/
theorem copyIn_last_outside (copies : List (Nat × Bytes)) {m : Memory UInt8} {off : Nat}
    {src : Bytes} (h : m.size < off + src.length) :
    copyIn m (copies ++ [(off, src)]) = .error .outOfBounds := by
  induction copies generalizing m with
  | nil =>
      have hstore : m.store off src = none := if_neg (by omega)
      simp [copyIn, hstore]
  | cons c copies ih =>
      cases hstore : m.store c.1 c.2 with
      | none => simp [copyIn, hstore]
      | some m' =>
          have hsize : m'.size = m.size := by
            rw [Memory.store] at hstore
            split at hstore
            · cases hstore
              rfl
            · cases hstore
          simpa [copyIn, hstore] using ih (by omega)

/-- The length field of the payload overflows `total_len`: the payload is still copied
in one piece, to a place where it does not fit. -/
theorem plan_too_long {head tail : Nat} {data : Bytes} {p : EnQueuePlan} (hL : L < 4294967296)
    (ht : tail < L) (hd : data.length < 4294967296) (hlong : 4294967292 ≤ data.length)
    (hplan : EnQueue.plan L head tail data = some p) :
    ∃ copies off, p.copies = copies ++ [(off, data)] ∧ L < off + data.length := by
  have htotal : u32 (data.length + 4) = data.length - 4294967292 := by
    unfold u32
    omega
  have htail : u32Sub L tail = L - tail := u32Sub_of_le (by omega) hL
  unfold EnQueue.plan at hplan
  dsimp only at hplan
  rw [htotal, htail] at hplan
  by_cases hfree : (if tail < head then u32Sub head tail
      else u32Sub (u32 (head + L)) tail) ≤ data.length - 4294967292
  · rw [if_pos hfree] at hplan
    cases hplan
  rw [if_neg hfree] at hplan
  by_cases hone : data.length - 4294967292 ≤ L - tail
  · rw [if_pos hone] at hplan
    cases hplan
    exact ⟨[(tail, u32Bytes data.length)], tail + 4, rfl, by omega⟩
  · rw [if_neg hone, if_neg (by omega)] at hplan
    cases hplan
    exact ⟨[(tail, (u32Bytes data.length).take (L - tail)),
      (0, (u32Bytes data.length).drop (L - tail))], 4 - (L - tail), rfl, by omega⟩

theorem push_too_long {data : Bytes} {ret : Int} (h : q.Holds L msgs) (hL : L < 4294967296)
    (hd : data.length < 4294967296) (hlong : 4294967292 ≤ data.length)
    (hpush : q.Push data = .ok (ret, q')) : ret = -1 ∧ q' = q := by
  rcases push_cases hpush with ⟨-, hret, hq⟩ | ⟨p, m, hplan, hcopy, -, -⟩
  · exact ⟨hret, hq⟩
  · rw [h.len] at hplan
    cases plan_too_long hL h.tail_lt hd hlong hplan with
    | intro copies hcopies =>
        cases hcopies with
        | intro off hoff =>
            have hfail := copyIn_last_outside copies (m := q.m_buffer) (h.size ▸ hoff.2)
            rw [hoff.1, hfail] at hcopy
            cases hcopy

/-- A completed `Push` answers as the bounded FIFO does. -/
theorem push_completed {data : Bytes} {ret : Int} (h : q.Holds L msgs) (hL : L < 4294967296)
    (hd : data.length < 4294967296) (hpush : q.Push data = .ok (ret, q')) :
    ret = (Fifo.push L msgs data).1 ∧ q'.Holds L (Fifo.push L msgs data).2 := by
  unfold Fifo.push
  by_cases hroom : Fifo.load msgs + (data.length + 4) < L
  · cases push_accepts h hL hroom with
    | intro q₁ hq₁ =>
        have hsame := hq₁.1.symm.trans hpush
        cases hsame
        simpa [hroom] using hq₁.2
  · have hrefused : ret = -1 ∧ q' = q := by
      by_cases hlong : 4294967292 ≤ data.length
      · exact push_too_long h hL hd hlong hpush
      · have hsame := (push_rejects h hL (by omega) (by omega)).symm.trans hpush
        cases hsame
        exact ⟨rfl, rfl⟩
    rw [hrefused.1, hrefused.2]
    simpa [hroom] using h

/-- A payload that ends behind the last 32-bit offset is copied from outside the
buffer. -/
theorem read_body_overflow {m : Bytes} (h : q.Holds L (m :: msgs)) (hL : L < 4294967296)
    (hsum : ¬ ringIndex L q.m_head 4 + m.length < 4294967296) :
    copyOut q.m_buffer (DeQueue.bodyPlan L (DeQueue.lenPlan L q.m_head).2 m.length).1 =
      .error .outOfBounds := by
  have hload := h.load_lt
  have hh := h.head_lt
  have hsize := h.size
  simp only [Fifo.load_cons] at hload
  cases DeQueue.lenPlan_gathers (L := L) (by omega) (by omega) hh with
  | intro _ hplan =>
      have hlt : ringIndex L q.m_head 4 < L := ringIndex_lt hh (by omega)
      have hwrap : u32 (ringIndex L q.m_head 4 + m.length) ≤ L := by
        unfold u32
        omega
      have hout : ¬ ringIndex L q.m_head 4 + m.length ≤ q.m_buffer.size := by omega
      rw [hplan.2, DeQueue.bodyPlan, if_pos hwrap]
      simp [copyOut, Memory.load, hout]

theorem pop_overflow {m : Bytes} (h : q.Holds L (m :: msgs)) (hL : L < 4294967296)
    {buf_size data_len : Nat} (hbuf : m.length + 4 ≤ buf_size)
    (hsum : ¬ ringIndex L q.m_head 4 + m.length < 4294967296) :
    q.Pop buf_size data_len = .error .outOfBounds := by
  have hne : q.m_head ≠ q.m_tail := by simp [h.head_eq_tail]
  have hbody := read_body_overflow h hL hsum
  have hassert := oldest_used h hL
  have h4 : ¬ buf_size < 4 := by omega
  have hsmall : ¬ buf_size < m.length + 4 := by omega
  cases read_len h hL with
  | intro lenBytes hlen =>
      simp [Pop, DeQueue, hne, h4, h.len, hlen.1, hlen.2, hassert, hsmall, hbody]

/-- A completed `Pop` answers as the bounded FIFO does. -/
theorem pop_completed {buf_size data_len : Nat} {r : PopResult} (h : q.Holds L msgs)
    (hL : L < 4294967296) (hpop : q.Pop buf_size data_len = .ok (r, q')) :
    r = (Fifo.pop msgs buf_size data_len).1 ∧ q'.Holds L (Fifo.pop msgs buf_size data_len).2 := by
  cases msgs with
  | nil =>
      have hsame := (pop_empty h buf_size data_len).symm.trans hpop
      cases hsame
      exact ⟨rfl, h.1, h.2, h.3, h.4, h.5, h.6⟩
  | cons m rest =>
      by_cases hsum : m.length + 4 ≤ buf_size → ringIndex L q.m_head 4 + m.length < 4294967296
      · cases pop_oldest_of_lt h hL hsum data_len with
        | intro q₁ hq₁ =>
            have hsame := hq₁.1.symm.trans hpop
            cases hsame
            exact ⟨rfl, hq₁.2⟩
      · rw [Classical.not_imp] at hsum
        rw [pop_overflow h hL hsum.1 hsum.2] at hpop
        cases hpop

end CNetQueue

end CommonCc
