import CommonCc.Net.Queue.Outcome

/-!
# Lengths near the limits of 32 bits

`EnQueue` and `DeQueue` add lengths in `uint32_t` before they compare them.  A sum that
wraps around passes the comparison, and the copies that follow leave the buffer.
-/

namespace CommonCc

namespace CNetQueue

/-- The buffer of `L` cells with both indexes inside. -/
structure Ring (q : CNetQueue) (L : Nat) : Prop where
  len : q.m_buffer_len = L
  size : q.m_buffer.size = L
  head_lt : q.m_head < L
  tail_lt : q.m_tail < L

/-- The cells from the tail up to the head. -/
def freeSpace (q : CNetQueue) : Nat := q.m_buffer_len - ringDist q.m_buffer_len q.m_head q.m_tail

/-- `EnQueue` makes its copies inside the buffer, and accepts only what is smaller than the
free space. -/
def EnQueuesInside (q : CNetQueue) (data : Bytes) : Prop :=
  ∃ ret q', q.EnQueue data = .ok (ret, q') ∧ (ret = 0 → data.length + 4 < q.freeSpace)

/-- `DeQueue` makes its copies inside the buffer. -/
def DeQueuesInside (q : CNetQueue) (buf_size data_len : Nat) : Prop :=
  ∃ r q', q.DeQueue buf_size data_len = .ok (r, q')

section Limits

variable {q : CNetQueue} {L : Nat} {data m : Bytes} {msgs : List Bytes} {buf_size data_len : Nat}

theorem Ring.free_le (h : q.Ring L) : q.freeSpace ≤ L := by
  unfold freeSpace
  rw [h.len]
  exact Nat.sub_le _ _

/-- What `free_len` is computed to be. -/
theorem Ring.free_len (h : q.Ring L) (hL : L < 4294967296) :
    (if q.m_tail < q.m_head then u32Sub q.m_head q.m_tail
      else u32Sub (u32 (q.m_head + L)) q.m_tail) = q.freeSpace := by
  rw [free_len_eq hL (Nat.le_of_lt h.head_lt) h.tail_lt, wrapIndex_of_lt h.head_lt]
  unfold freeSpace
  rw [h.len]

theorem Ring.enQueue_refuses (h : q.Ring L) (hL : L < 4294967296)
    (hfull : q.freeSpace ≤ u32 (data.length + 4)) : q.EnQueue data = .ok (-1, q) := by
  have hplan : EnQueue.plan q.m_buffer_len q.m_head q.m_tail data = none := by
    rw [h.len]
    unfold EnQueue.plan
    dsimp only
    rw [h.free_len hL, if_pos hfull]
  rw [EnQueue, hplan]

theorem Ring.enQueue_accepts (h : q.Ring L) (hL : L < 4294967296)
    (hroom : data.length + 4 < q.freeSpace) : ∃ q', q.EnQueue data = .ok (0, q') := by
  have hfree := h.free_le
  have hd : data.length + 4 < 4294967296 := by omega
  have hhead := Nat.le_of_lt h.head_lt
  cases hplan : EnQueue.plan L q.m_head q.m_tail data with
  | none =>
      rw [EnQueue.plan_eq_none hL hhead h.tail_lt hd, wrapIndex_of_lt h.head_lt] at hplan
      unfold freeSpace at hroom
      rw [h.len] at hroom
      omega
  | some p =>
      have hfill := EnQueue.plan_fills hL hhead h.tail_lt hd hplan
      have hlen : (copiedIn p.copies).length ≤ L := by
        rw [hfill.copied, frame_length]
        omega
      cases copyIn_scatter h.size h.tail_lt hfill.scatter hlen with
      | intro m' hcopy =>
          rw [EnQueue, h.len, hplan]
          dsimp only
          rw [hcopy.1]
          exact ⟨_, rfl⟩

/-- A length to which four cannot be added is refused only when there is no more room than
what is left of the sum. -/
theorem Ring.enQueuesInside_iff (h : q.Ring L) (hL : L < 4294967296)
    (hd : data.length < 4294967296) :
    q.EnQueuesInside data ↔
      (4294967296 ≤ data.length + 4 → q.freeSpace ≤ data.length + 4 - 4294967296) := by
  have hfree := h.free_le
  have hrefuse : q.freeSpace ≤ u32 (data.length + 4) → q.EnQueuesInside data := fun hfull =>
    ⟨-1, q, h.enQueue_refuses hL hfull, fun hret => absurd hret (by decide)⟩
  by_cases hlong : 4294967296 ≤ data.length + 4
  · have hwrap : u32 (data.length + 4) = data.length + 4 - 4294967296 := by
      unfold u32
      omega
    rw [hwrap] at hrefuse
    constructor
    · rintro ⟨ret, q', hrun, hret⟩ -
      by_contra hroom
      have hzero : ret = 0 := by
        unfold EnQueue at hrun
        cases hplan : EnQueue.plan q.m_buffer_len q.m_head q.m_tail data with
        | none =>
            rw [h.len] at hplan
            unfold EnQueue.plan at hplan
            dsimp only at hplan
            rw [h.free_len hL, hwrap, if_neg hroom] at hplan
            split at hplan
            · cases hplan
            · split at hplan <;> cases hplan
        | some p =>
            rw [hplan] at hrun
            dsimp only at hrun
            split at hrun
            · cases hrun
            · cases hrun
              rfl
      have hlt := hret hzero
      omega
    · exact fun hfull => hrefuse (hfull hlong)
  · refine iff_of_true ?_ fun h => absurd h hlong
    rw [u32_of_lt (by omega)] at hrefuse
    by_cases hroom : data.length + 4 < q.freeSpace
    · cases h.enQueue_accepts hL hroom with
      | intro q' hrun => exact ⟨0, q', hrun, fun _ => hroom⟩
    · exact hrefuse (by omega)

theorem deQueue_of_pop {r : PopResult} {q' : CNetQueue}
    (h : q.Pop buf_size data_len = .ok (r, q')) :
    q.DeQueuesInside buf_size data_len := by
  unfold Pop at h
  cases hrun : q.DeQueue buf_size data_len with
  | error e =>
      rw [hrun] at h
      cases h
  | ok out => exact ⟨out.1, out.2, hrun⟩

theorem pop_of_deQueue (h : q.DeQueuesInside buf_size data_len) :
    ∃ r, q.Pop buf_size data_len = .ok r := by
  cases h with
  | intro r h =>
      cases h with
      | intro q' hrun =>
          rw [Pop, hrun]
          exact ⟨_, rfl⟩

/-- The oldest message is read inside the buffer unless the offset of its end is at least
`2 ^ 32`. -/
theorem Holds.deQueuesInside_iff (h : q.Holds L (m :: msgs)) (hL : L < 4294967296) :
    q.DeQueuesInside buf_size data_len ↔
      (m.length + 4 ≤ buf_size → ringIndex L q.m_head 4 + m.length < 4294967296) := by
  constructor
  · intro hinside hbuf
    by_contra hsum
    cases pop_of_deQueue hinside with
    | intro r hrun =>
        rw [pop_overflow h hL hbuf hsum] at hrun
        cases hrun
  · intro hsum
    cases pop_oldest_of_lt h hL hsum data_len with
    | intro q' hrun => exact deQueue_of_pop hrun.1

end Limits

/-- For every buffer, the exact limits within which `EnQueue` and `DeQueue` keep to it. -/
theorem inside_iff {L : Nat} (hL : L < 4294967296) :
    (∀ (q : CNetQueue) (data : Bytes), q.Ring L → data.length < 4294967296 →
      (q.EnQueuesInside data ↔
        (4294967296 ≤ data.length + 4 → q.freeSpace ≤ data.length + 4 - 4294967296))) ∧
    ∀ (q : CNetQueue) (m : Bytes) (msgs : List Bytes) (buf_size data_len : Nat),
      q.Holds L (m :: msgs) →
        (q.DeQueuesInside buf_size data_len ↔
          (m.length + 4 ≤ buf_size → ringIndex L q.m_head 4 + m.length < 4294967296)) :=
  ⟨fun _ _ h hd => h.enQueuesInside_iff hL hd, fun _ _ _ _ _ h => h.deQueuesInside_iff hL⟩

theorem init_ring (buffer : Nat → UInt8) {L : Nat} (hL : 0 < L) (capacity : Nat) :
    (init buffer L capacity).Ring L :=
  ⟨rfl, rfl, hL, hL⟩

theorem inside_iff_twelve :
    (init (fun _ => 0) 12 8).EnQueuesInside [1, 2] ∧
      ∃ q : CNetQueue, q.Holds 12 [[1, 2]] ∧ q.DeQueuesInside 64 0 := by
  have h := inside_iff (L := 12) (by decide)
  constructor
  · exact (h.1 _ [1, 2] (init_ring _ (by decide) 8) (by decide)).mpr (by decide)
  · have hempty := init_holds (fun _ => 0) (show 0 < 12 by decide) 8
    have hroom : Fifo.load [] + (([1, 2] : Bytes).length + 4) < 12 := by decide
    cases push_accepts hempty (by decide) hroom with
    | intro q hq =>
        have hstart : ringIndex 12 q.m_head 4 < 12 := ringIndex_lt hq.2.head_lt (by decide)
        refine ⟨q, hq.2, (h.2 q [1, 2] [] 64 0 hq.2).mpr fun _ => ?_⟩
        exact Nat.lt_trans (Nat.add_lt_add_right hstart 2) (by decide)

/-- A length of `2 ^ 32 - 1` passes for one of three bytes, header included. -/
theorem huge_length_accepted :
    ¬ (init (fun _ => 0) 8 1).EnQueuesInside (List.replicate 4294967295 0) := by
  rw [(init_ring (fun _ => 0) (show 0 < 8 by decide) 1).enQueuesInside_iff (by decide)]
  · rw [List.length_replicate]
    intro h
    exact absurd (h (by decide)) (by decide)
  · rw [List.length_replicate]
    decide

end CNetQueue

end CommonCc
