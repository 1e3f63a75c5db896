import CommonCc.Net.Queue.Model

/-!
# Layout of one message in the ring

Writer and reader choose their copies independently, each from its own index.
Both choices are scatters and gathers of the same ring region, so they agree for
every head, tail and length.
-/

namespace CommonCc

open Memory

/-- A message as it lies in the ring. -/
def frame (data : Bytes) : Bytes := u32Bytes data.length ++ data

@[simp] theorem frame_length (data : Bytes) : (frame data).length = data.length + 4 := by
  simp [frame, Nat.add_comm]

theorem frame_take_four (data : Bytes) : (frame data).take 4 = u32Bytes data.length := rfl

/-! ## Bulk copies -/

/-- The bytes a list of copies brings into the ring. -/
def copiedIn (copies : List (Nat × Bytes)) : Bytes := copies.flatMap Prod.snd

/-- How many bytes a list of copies takes out of the ring. -/
def copiedOut (copies : List (Nat × Nat)) : Nat := (copies.map Prod.snd).sum

/-- A scatter stores its bytes in the region and nothing outside it. -/
theorem copyIn_scatter {L : Nat} {copies : List (Nat × Bytes)} {m : Memory UInt8} {t : Nat}
    (hsize : m.size = L) (ht : t < L) (hs : Scatter L t copies)
    (hlen : (copiedIn copies).length ≤ L) :
    ∃ m', copyIn m copies = .ok m' ∧ m'.size = L ∧
      m'.ringRead L t (copiedIn copies).length = copiedIn copies ∧
      ∀ a n, (copiedIn copies).length ≤ a → a + n ≤ L →
        m'.ringRead L (ringIndex L t a) n = m.ringRead L (ringIndex L t a) n := by
  induction copies generalizing m t with
  | nil => exact ⟨m, rfl, hsize, rfl, fun _ _ _ _ => rfl⟩
  | cons c rest ih =>
      obtain ⟨off, src⟩ := c
      obtain ⟨hfit, hoff, hrest⟩ := hs
      have hcons : copiedIn ((off, src) :: rest) = src ++ copiedIn rest := rfl
      rw [hcons, List.length_append] at hlen ⊢
      have hsrc : src.length ≤ L := by omega
      obtain ⟨m', hcopy, hsize', hread, hframe⟩ :=
        ih (m := m.write off src) (by simpa using hsize) (ringIndex_lt ht hsrc) hrest (by omega)
      refine ⟨m', ?_, hsize', ?_, ?_⟩
      · rw [copyIn, m.store_eq_some (by omega)]
        exact hcopy
      · -- the cells of `src` come last in the ring that starts after them
        have hback : ringIndex L (ringIndex L t src.length) (L - src.length) = t := by
          rw [ringIndex_add (by omega) ht]
          unfold ringIndex
          split <;> omega
        have hfirst := hframe (L - src.length) src.length (by omega) (by omega)
        rw [hback] at hfirst
        rw [ringRead_append m' ht (by omega), hread, hfirst, ringRead_write_self m hoff hfit]
      · intro a n ha hn
        have hstep : ringIndex L t a = ringIndex L (ringIndex L t src.length) (a - src.length) := by
          rw [ringIndex_add (by omega) ht]
          congr 1
          omega
        have hr := hframe (a - src.length) n (by omega) (by omega)
        rw [← hstep] at hr
        rw [hr, ringRead_write_outside m ht (by omega) hn hoff hfit]

/-- A gather returns its region. -/
theorem copyOut_gather {L : Nat} {copies : List (Nat × Nat)} {m : Memory UInt8} {t : Nat}
    (hsize : m.size = L) (ht : t < L) (hg : Gather L t copies) (hlen : copiedOut copies ≤ L) :
    copyOut m copies = .ok (m.ringRead L t (copiedOut copies)) := by
  induction copies generalizing t with
  | nil => rfl
  | cons c rest ih =>
      obtain ⟨off, n⟩ := c
      obtain ⟨hfit, hoff, hrest⟩ := hg
      have hcons : copiedOut ((off, n) :: rest) = n + copiedOut rest := by simp [copiedOut]
      rw [hcons] at hlen ⊢
      have hr := ih (ringIndex_lt ht (by omega)) hrest (by omega)
      rw [copyOut, m.load_eq_some (by omega), hr, read_eq_ringRead m hoff hfit,
        ringRead_append m ht hlen]

/-! ## The plan of `EnQueue` -/

theorem wrapIndex_lt {L i : Nat} (hL : 0 < L) : wrapIndex L i < L := by
  unfold wrapIndex
  split <;> omega

theorem wrapIndex_of_lt {L i : Nat} (h : i < L) : wrapIndex L i = i := by
  unfold wrapIndex
  split <;> omega

/-- The free length is what the distance from head to tail leaves, whether the
reader's index has been wrapped yet or still stands at the end of the buffer. -/
theorem free_len_eq {L head tail : Nat} (hL : L < 4294967296) (hh : head ≤ L) (ht : tail < L) :
    (if tail < head then u32Sub head tail else u32Sub (u32 (head + L)) tail) =
      L - ringDist L (wrapIndex L head) tail := by
  unfold ringDist wrapIndex u32Sub u32
  split <;> split <;> split <;> omega

theorem EnQueue.plan_eq_none {L head tail : Nat} {data : Bytes} (hL : L < 4294967296)
    (hh : head ≤ L) (ht : tail < L) (hd : data.length + 4 < 4294967296) :
    EnQueue.plan L head tail data = none ↔
      L ≤ ringDist L (wrapIndex L head) tail + (data.length + 4) := by
  have hdist : ringDist L (wrapIndex L head) tail < L := ringDist_lt (wrapIndex_lt (by omega)) ht
  simp only [EnQueue.plan, free_len_eq hL hh ht, u32_of_lt hd]
  split
  · simp only [true_iff]
    omega
  · constructor
    · intro h
      split at h
      · cases h
      · split at h <;> cases h
    · intro h
      omega

structure EnQueuePlan.Fills (p : EnQueuePlan) (L tail : Nat) (data : Bytes) : Prop where
  scatter : Scatter L tail p.copies
  copied : copiedIn p.copies = frame data
  le : p.tail ≤ L
  next : wrapIndex L p.tail = ringIndex L tail (data.length + 4)

/-- Without a buffer there is never room. -/
theorem EnQueue.plan_no_buffer (data : Bytes) : EnQueue.plan 0 0 0 data = none := by
  have hfree : u32Sub (u32 (0 + 0)) 0 = 0 := by decide
  unfold EnQueue.plan
  dsimp only
  rw [if_neg (Nat.lt_irrefl 0), hfree, if_pos (Nat.zero_le _)]

/-- Each of the three write layouts fills the ring region after the tail with the
frame of the message. -/
theorem EnQueue.plan_fills {L head tail : Nat} {data : Bytes} {p : EnQueuePlan}
    (hL : L < 4294967296) (hh : head ≤ L) (ht : tail < L) (hd : data.length + 4 < 4294967296)
    (hp : EnQueue.plan L head tail data = some p) : p.Fills L tail data := by
  have hdist : ringDist L (wrapIndex L head) tail < L := ringDist_lt (wrapIndex_lt (by omega)) ht
  have htail : u32Sub L tail = L - tail := u32Sub_of_le (by omega) hL
  simp only [EnQueue.plan, free_len_eq hL hh ht, u32_of_lt hd, htail] at hp
  split at hp
  · cases hp
  split at hp
  · -- the message ends before the end of the buffer
    cases hp
    have hraw : u32 (tail + (data.length + 4)) = tail + (data.length + 4) := u32_of_lt (by omega)
    refine ⟨?_, ?_, ?_, ?_⟩
    · refine ⟨by simp; omega, .inr rfl, by omega, ?_, trivial⟩
      by_cases hnil : data = []
      · exact .inl hnil
      · have hpos : 0 < data.length := List.length_pos_iff.mpr hnil
        right
        rw [u32Bytes_length, ringIndex_of_lt (by omega)]
    · simp [copiedIn, frame]
    · simp only [hraw]
      omega
    · simp only [hraw, wrapIndex, ringIndex]
      split <;> split <;> omega
  split at hp
  · -- the payload runs over the end
    cases hp
    have hraw : u32Sub (u32 (tail + data.length + 4)) L = tail + data.length + 4 - L := by
      unfold u32Sub u32
      omega
    refine ⟨?_, ?_, ?_, ?_⟩
    · refine ⟨by simp; omega, .inr rfl, by simp; omega, ?_, by simp; omega, ?_, trivial⟩
      · by_cases hnil : data.take (L - tail - 4) = []
        · exact .inl hnil
        · have hpos := List.length_pos_iff.mpr hnil
          right
          rw [List.length_take] at hpos
          rw [u32Bytes_length, ringIndex_of_lt (by omega)]
      · right
        rw [u32Bytes_length, List.length_take, ringIndex_add (by omega) ht,
          ringIndex_of_le (by omega)]
        omega
    · simp [copiedIn, frame]
    · simp only [hraw]
      omega
    · simp only [hraw, wrapIndex, ringIndex]
      split <;> split <;> omega
  · -- the length itself runs over the end
    cases hp
    have hraw : u32 (4 - (L - tail) + data.length) = 4 - (L - tail) + data.length :=
      u32_of_lt (by omega)
    refine ⟨?_, ?_, ?_, ?_⟩
    · refine ⟨by simp; omega, .inr rfl, by simp; omega, ?_, by omega, ?_, trivial⟩
      · right
        rw [List.length_take, u32Bytes_length, ringIndex_of_le (by omega)]
        omega
      · right
        rw [List.length_take, List.length_drop, u32Bytes_length, ringIndex_add (by omega) ht,
          ringIndex_of_le (by omega)]
        omega
    · simp only [copiedIn, frame, List.flatMap_cons, List.flatMap_nil, List.append_nil,
        ← List.append_assoc, List.take_append_drop]
    · simp only [hraw]
      omega
    · simp only [hraw, wrapIndex, ringIndex]
      split <;> split <;> omega

/-! ## The plans of `DeQueue` -/

/-- Both length layouts read the four bytes after the head. -/
theorem DeQueue.lenPlan_gathers {L head : Nat} (hL : L < 4294967296) (h4 : 4 ≤ L)
    (hh : head < L) :
    Gather L head (DeQueue.lenPlan L head).1 ∧ copiedOut (DeQueue.lenPlan L head).1 = 4 ∧
      (DeQueue.lenPlan L head).2 = ringIndex L head 4 := by
  unfold DeQueue.lenPlan
  split
  · have h1 : u32Sub L head = L - head := u32Sub_of_le (by omega) hL
    have h2 : u32Sub 4 (L - head) = 4 - (L - head) := u32Sub_of_le (by omega) (by omega)
    simp only [h1, h2]
    refine ⟨⟨by omega, .inr rfl, by omega, ?_, trivial⟩, ?_, ?_⟩
    · right
      unfold ringIndex
      split <;> omega
    · simp only [copiedOut, List.map_cons, List.map_nil, List.sum_cons, List.sum_nil]
      omega
    · unfold ringIndex
      split <;> omega
  · have h1 : u32 (head + 4) = head + 4 := u32_of_lt (by omega)
    simp only [h1]
    refine ⟨⟨by omega, .inr rfl, trivial⟩, rfl, ?_⟩
    unfold ringIndex
    split <;> omega

/-- Both payload layouts read the `real_len` bytes behind the length. -/
theorem DeQueue.bodyPlan_gathers {L next real_len : Nat} (hL : L < 4294967296) (hn : next < L)
    (hr : real_len ≤ L) (hsum : next + real_len < 4294967296) :
    Gather L next (DeQueue.bodyPlan L next real_len).1 ∧
      copiedOut (DeQueue.bodyPlan L next real_len).1 = real_len ∧
      (DeQueue.bodyPlan L next real_len).2 ≤ L ∧
      wrapIndex L (DeQueue.bodyPlan L next real_len).2 = ringIndex L next real_len := by
  unfold DeQueue.bodyPlan
  rw [u32_of_lt hsum]
  split
  · refine ⟨⟨by omega, .inr rfl, trivial⟩, by simp [copiedOut], by omega, ?_⟩
    unfold wrapIndex ringIndex
    split <;> split <;> omega
  · have h1 : u32Sub L next = L - next := u32Sub_of_le (by omega) hL
    have h2 : u32Sub real_len (L - next) = real_len - (L - next) :=
      u32Sub_of_le (by omega) (by omega)
    simp only [h1, h2]
    refine ⟨⟨by omega, .inr rfl, by omega, ?_, trivial⟩, ?_, by omega, ?_⟩
    · right
      unfold ringIndex
      split <;> omega
    · simp only [copiedOut, List.map_cons, List.map_nil, List.sum_cons, List.sum_nil]
      omega
    · unfold wrapIndex ringIndex
      split <;> split <;> omega

/-- The used length seen by the reader, for a tail that may still stand at the
end of the buffer. -/
theorem DeQueue.usedLen_eq {L head tail : Nat} (hL : L < 4294967296) (hh : head < L)
    (ht : tail ≤ L) (hne : head ≠ tail) (hraw : tail = L → head ≠ 0) :
    DeQueue.usedLen L head tail = ringDist L head (wrapIndex L tail) := by
  unfold DeQueue.usedLen ringDist wrapIndex u32Sub u32
  split <;> split <;> split <;> omega

end CommonCc
