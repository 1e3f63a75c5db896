import CommonCc.Utils.Sha1.Model

/-!
# Padding

The blocks that `SHA_GO` processes, against the padded message of the standard.  Behind a tail
of more than 55 bytes the second block still holds what the first one began with.
-/

namespace CommonCc

namespace SHA1

section

variable (s : SHA1)

@[simp] theorem ProcessMessageBlock_processed :
    s.ProcessMessageBlock.processed = s.processed ++ [s.Message_Block] := by rw [ProcessMessageBlock]

@[simp] theorem ProcessMessageBlock_block :
    s.ProcessMessageBlock.Message_Block = s.Message_Block := by rw [ProcessMessageBlock]

@[simp] theorem ProcessMessageBlock_index :
    s.ProcessMessageBlock.Message_Block_Index = s.Message_Block_Index := by rw [ProcessMessageBlock]

@[simp] theorem ProcessMessageBlock_low :
    s.ProcessMessageBlock.Length_Low = s.Length_Low := by rw [ProcessMessageBlock]

@[simp] theorem ProcessMessageBlock_high :
    s.ProcessMessageBlock.Length_High = s.Length_High := by rw [ProcessMessageBlock]

end

/-! ## The digest -/

/-- `H` is what the processed blocks make of the first words. -/
def Hashed (s : SHA1) : Prop := s.H = s.processed.foldl compress SHAInit.H

section

variable {s t : SHA1}

/-- Steps that leave `H` and the processed blocks alone. -/
theorem Hashed.of_eq (h : s.Hashed) (hH : t.H = s.H) (hprocessed : t.processed = s.processed) :
    t.Hashed := by
  rw [Hashed, hH, hprocessed]
  exact h

theorem Hashed.block (h : s.Hashed) : s.ProcessMessageBlock.Hashed := by
  unfold Hashed at h ⊢
  rw [ProcessMessageBlock_processed, List.foldl_append, ← h, ProcessMessageBlock]
  rfl

theorem Hashed.put (h : s.Hashed) (c : UInt8) : (s.put c).Hashed := h.of_eq rfl rfl

theorem Hashed.putLength (h : s.Hashed) : s.putLength.Hashed := h.of_eq rfl rfl

theorem Hashed.fill (h : s.Hashed) (bytes : Bytes) : (s.fill bytes).Hashed := h.of_eq rfl rfl

theorem Hashed.addDataLen (h : s.Hashed) (n : Nat) : (s.AddDataLen n).Hashed :=
  h.of_eq (by rw [AddDataLen]) (by rw [AddDataLen])

theorem Hashed.zeros (h : s.Hashed) (n : Nat) : (s.zeros n).Hashed := by
  induction n generalizing s with
  | zero => exact h
  | succ n ih => exact ih (h.put 0)

theorem Hashed.zerosTo (h : s.Hashed) (bound : Nat) : (s.zerosTo bound).Hashed := h.zeros _

theorem Hashed.pad (h : s.Hashed) : s.PadMessage.Hashed := by
  unfold PadMessage
  split
  · exact (((h.put 128).zerosTo 64).block.zerosTo 56).putLength.block
  · exact ((h.put 128).zerosTo 56).putLength.block

theorem Hashed.round (h : s.Hashed) (data : Bytes) (pos : Nat) :
    (blockRound data pos s).Hashed := by
  unfold blockRound
  split
  · exact ((h.fill _).addDataLen 64).block.addDataLen 0
  · exact ((h.fill _).addDataLen _).pad

theorem Hashed.blocksFrom (h : s.Hashed) (data : Bytes) (pos : Nat) :
    (blocksFrom data pos s).Hashed := by
  induction pos, s using blocksFrom.induct data with
  | case1 pos s hpos ih =>
      rw [SHA1.blocksFrom, if_pos hpos]
      exact ih (h.round data pos)
  | case2 pos s hpos =>
      rw [SHA1.blocksFrom, if_neg hpos]
      exact h

end

/-- The digest is that of the processed blocks. -/
theorem Sha1_eq (str : Bytes) :
    Sha1 str = digestText ((SHA_GO str).processed.foldl compress SHAInit.H) := by
  have hinit : SHAInit.Hashed := rfl
  have hgo : (SHA_GO str).Hashed := hinit.blocksFrom (str.takeWhile (· ≠ 0)) 0
  rw [Sha1, hgo]

/-! ## Writes into the block -/

section

variable {s : SHA1} {a b : Bytes}

theorem put_spec {x : UInt8} (c : UInt8) (hblock : s.Message_Block = a ++ x :: b)
    (hindex : s.Message_Block_Index = a.length) :
    s.put c = { s with Message_Block := (a ++ [c]) ++ b
                       Message_Block_Index := (a ++ [c]).length } := by
  rw [put, hblock, hindex, List.set_append_right _ _ (Nat.le_refl _), Nat.sub_self,
    List.set_cons_zero, List.append_assoc, List.length_append]
  rfl

/-- A run of zeros behind `a`. -/
theorem zeros_spec {n : Nat} (hblock : s.Message_Block = a ++ b)
    (hindex : s.Message_Block_Index = a.length) (hn : n ≤ b.length) :
    s.zeros n = { s with Message_Block := a ++ List.replicate n 0 ++ b.drop n
                         Message_Block_Index := a.length + n } := by
  induction n generalizing s a b with
  | zero =>
      rw [zeros, List.replicate_zero, List.append_nil, List.drop_zero, ← hblock, Nat.add_zero,
        ← hindex]
  | succ n ih =>
      cases b with
      | nil => exact absurd hn (Nat.not_succ_le_zero n)
      | cons x b =>
          rw [zeros, put_spec 0 hblock hindex, ih rfl rfl (Nat.le_of_succ_le_succ hn),
            List.replicate_succ, List.length_append, List.append_assoc a]
          simp [Nat.add_assoc, Nat.add_comm 1 n]

/-- No zeros are written when the index is already behind the bound. -/
theorem zerosTo_of_le {bound : Nat} (h : bound ≤ s.Message_Block_Index) : s.zerosTo bound = s := by
  rw [zerosTo, Nat.sub_eq_zero_of_le h, zeros]

/-- The eight octets of the length. -/
def lengthBytes (s : SHA1) : Bytes :=
  [(s.Length_High / 16777216).toUInt8, (s.Length_High / 65536).toUInt8,
    (s.Length_High / 256).toUInt8, s.Length_High.toUInt8, (s.Length_Low / 16777216).toUInt8,
    (s.Length_Low / 65536).toUInt8, (s.Length_Low / 256).toUInt8, s.Length_Low.toUInt8]

theorem lengthBytes_ProcessMessageBlock (s : SHA1) :
    s.ProcessMessageBlock.lengthBytes = s.lengthBytes := by
  simp only [lengthBytes, ProcessMessageBlock_low, ProcessMessageBlock_high]

theorem putLength_spec (hblock : s.Message_Block = a ++ b) (ha : a.length = 56)
    (hb : b.length = 8) :
    s.putLength = { s with Message_Block := a ++ s.lengthBytes } := by
  have hset : ∀ (i : Nat) (c : UInt8) (l : Bytes),
      (a ++ l).set (56 + i) c = a ++ l.set i c := by
    intro i c l
    rw [List.set_append_right _ _ (by omega), ha, Nat.add_sub_cancel_left]
  match b, hb with
  | [b0, b1, b2, b3, b4, b5, b6, b7], _ =>
      rw [putLength, hblock, hset 0, hset 1, hset 2, hset 3, hset 4, hset 5, hset 6, hset 7]
      rfl

end

/-! ## The last blocks -/

section

variable {s : SHA1} {tail : Bytes}

/-- A tail that leaves room for the length. -/
theorem PadMessage_short (hblock : s.Message_Block = tail ++ List.replicate (64 - tail.length) 0)
    (hindex : s.Message_Block_Index = tail.length) (hshort : tail.length ≤ 55) :
    s.PadMessage.processed =
      s.processed ++ [tail ++ 128 :: List.replicate (55 - tail.length) 0 ++ s.lengthBytes] := by
  have hroom : 64 - tail.length = (55 - tail.length) + 8 + 1 := by omega
  rw [hroom, List.replicate_succ] at hblock
  have hlen : (tail ++ [128]).length = tail.length + 1 := List.length_append
  have hto : 56 - (tail ++ [128]).length = 55 - tail.length := by omega
  rw [PadMessage, if_neg (by omega), put_spec 128 hblock hindex, zerosTo, hto,
    zeros_spec rfl rfl (by rw [List.length_replicate]; omega),
    putLength_spec rfl (by rw [List.length_append, List.length_replicate]; omega)
      (by rw [List.length_drop, List.length_replicate]; omega)]
  simp [lengthBytes]

/-- The second block, where the buffer holds `first` and the index is behind it. -/
theorem putLength_behind {first : Bytes} (hblock : s.Message_Block = first)
    (hindex : s.Message_Block_Index = 64) (hlen : first.length = 64) :
    (s.zerosTo 56).putLength.ProcessMessageBlock.processed =
      s.processed ++ [first.take 56 ++ s.lengthBytes] := by
  have hsplit : s.Message_Block = first.take 56 ++ first.drop 56 := by
    rw [hblock, List.take_append_drop]
  rw [zerosTo_of_le (by omega), putLength_spec hsplit (by rw [List.length_take]; omega)
    (by rw [List.length_drop]; omega), ProcessMessageBlock_processed]

/-- A tail that does not. -/
theorem PadMessage_long (hblock : s.Message_Block = tail ++ List.replicate (64 - tail.length) 0)
    (hindex : s.Message_Block_Index = tail.length) (hlong : 55 < tail.length)
    (hlen : tail.length < 64) :
    s.PadMessage.processed =
      s.processed ++ [tail ++ 128 :: List.replicate (63 - tail.length) 0,
        tail.take 56 ++ s.lengthBytes] := by
  have hroom : 64 - tail.length = (63 - tail.length) + 1 := by omega
  rw [hroom, List.replicate_succ] at hblock
  have hsum : (tail ++ [128]).length + (63 - tail.length) = 64 := by
    rw [List.length_append, List.length_singleton]
    omega
  have hto : 64 - (tail ++ [128]).length = 63 - tail.length := by omega
  generalize hfirst : tail ++ 128 :: List.replicate (63 - tail.length) 0 = first
  have hzeros : (s.put 128).zerosTo 64 =
      { s with Message_Block := first, Message_Block_Index := 64 } := by
    rw [put_spec 128 hblock hindex, zerosTo, hto,
      zeros_spec rfl rfl (by rw [List.length_replicate]), hsum, ← hfirst]
    simp
  have htake : first.take 56 = tail.take 56 := by
    rw [← hfirst, List.take_append_of_le_length hlong]
  have hlength : first.length = 64 := by
    rw [← hfirst, List.length_append, List.length_cons, List.length_replicate]
    omega
  rw [PadMessage, if_pos (by omega), hzeros]
  generalize hs : ({ s with Message_Block := first, Message_Block_Index := 64 } : SHA1) = s₁
  have hblock₁ : s₁.Message_Block = first := by rw [← hs]
  have hindex₁ : s₁.Message_Block_Index = 64 := by rw [← hs]
  have hprocessed : s₁.processed = s.processed := by rw [← hs]
  have hbytes : s₁.lengthBytes = s.lengthBytes := by rw [← hs]; rfl
  rw [putLength_behind (s := s₁.ProcessMessageBlock) (by rw [ProcessMessageBlock_block, hblock₁])
    (by rw [ProcessMessageBlock_index, hindex₁]) hlength, ProcessMessageBlock_processed,
    lengthBytes_ProcessMessageBlock, hblock₁, hprocessed, hbytes, htake, List.append_assoc]
  rfl

end

/-! ## The loop -/

/-- The eight octets of a number below 2^64, the highest first. -/
def octets (n : Nat) : Bytes := (List.range 8).map fun i => (n / 256 ^ (7 - i)).toUInt8

/-- `m` blocks from the beginning of a text. -/
def chunks : Nat → Bytes → List Bytes
  | 0, _ => []
  | m + 1, s => s.take 64 :: chunks m (s.drop 64)

/-- What becomes of the last bytes of a message of `n` bytes. -/
def lastBlocks (n : Nat) (tail : Bytes) : List Bytes :=
  if tail.length ≤ 55 then
    [tail ++ 128 :: List.replicate (55 - tail.length) 0 ++ octets (8 * n)]
  else
    [tail ++ 128 :: List.replicate (63 - tail.length) 0, tail.take 56 ++ octets (8 * n)]

theorem flatten_chunks (m : Nat) (s : Bytes) : (chunks m s).flatten = s.take (64 * m) := by
  induction m generalizing s with
  | zero => rw [chunks, Nat.mul_zero, List.take_zero, List.flatten_nil]
  | succ m ih =>
      rw [chunks, List.flatten_cons, ih, Nat.mul_succ, Nat.add_comm, List.take_add]

theorem length_of_mem_chunks {m : Nat} {s b : Bytes} (h : b ∈ chunks m s)
    (hlen : 64 * m ≤ s.length) : b.length = 64 := by
  induction m generalizing s with
  | zero => exact absurd h List.not_mem_nil
  | succ m ih =>
      rcases List.mem_cons.mp h with h | h
      · rw [h, List.length_take]
        omega
      · exact ih h (by rw [List.length_drop]; omega)

section

variable {s : SHA1} {data : Bytes} {pos : Nat}

/-- The length so far, in bits, without wrapping. -/
theorem AddDataLen_eq {low n : Nat} (hlow : s.Length_Low = low) (hhigh : s.Length_High = 0)
    (h : low + 8 * n < 4294967296) :
    s.AddDataLen n =
      { s with Message_Block_Index := n, Length_Low := low + 8 * n, Length_High := 0 } := by
  have hbits : u32 (n * 8) = 8 * n := by
    rw [u32_of_lt (by omega)]
    omega
  have hsum : u32 (low + 8 * n) = low + 8 * n := u32_of_lt h
  have hdiv : n / 536870912 = 0 := Nat.div_eq_of_lt (by omega)
  rw [AddDataLen, hlow, hbits, hsum, hhigh, if_neg (by omega), hdiv]
  rfl

theorem lengthBytes_eq (hhigh : s.Length_High = 0) (hlow : s.Length_Low < 4294967296) :
    s.lengthBytes = octets s.Length_Low := by
  have h7 : s.Length_Low / 72057594037927936 = 0 := Nat.div_eq_of_lt (by omega)
  have h6 : s.Length_Low / 281474976710656 = 0 := Nat.div_eq_of_lt (by omega)
  have h5 : s.Length_Low / 1099511627776 = 0 := Nat.div_eq_of_lt (by omega)
  have h4 : s.Length_Low / 4294967296 = 0 := Nat.div_eq_of_lt (by omega)
  rw [lengthBytes, hhigh]
  simp only [octets, List.range, List.range.loop, List.map_cons, List.map_nil, h7, h6, h5, h4,
    Nat.sub_zero, Nat.reduceSub, Nat.reducePow, Nat.zero_div, Nat.div_one]

/-- A round on a full block. -/
theorem blockRound_full (hlow : s.Length_Low = 8 * pos) (hhigh : s.Length_High = 0)
    (hpos : pos + 64 ≤ data.length) (hlen : data.length < 268435456) :
    (blockRound data pos s).processed = s.processed ++ [(data.drop pos).take 64] ∧
      (blockRound data pos s).Length_Low = 8 * (pos + 64) ∧
      (blockRound data pos s).Length_High = 0 := by
  have htake : ((data.drop pos).take 64).length = 64 := by
    rw [List.length_take, List.length_drop]
    omega
  have hfill : s.fill ((data.drop pos).take 64) =
      { s with Message_Block := (data.drop pos).take 64 } := by
    rw [fill, htake, Nat.sub_self, List.replicate_zero, List.append_nil]
  generalize hfilled : ({ s with Message_Block := (data.drop pos).take 64 } : SHA1) = s₀ at hfill
  have hlow₀ : s₀.Length_Low = 8 * pos := by rw [← hfilled, hlow]
  have hhigh₀ : s₀.Length_High = 0 := by rw [← hfilled, hhigh]
  rw [blockRound, if_pos (by omega), hfill, AddDataLen_eq hlow₀ hhigh₀ (by omega), ← hfilled]
  generalize hs : ({ s with
    Message_Block := (data.drop pos).take 64
    Message_Block_Index := 64
    Length_Low := 8 * pos + 8 * 64
    Length_High := 0 } : SHA1) = s₁
  have hlow₁ : s₁.ProcessMessageBlock.Length_Low = 8 * pos + 8 * 64 := by
    rw [ProcessMessageBlock_low, ← hs]
  have hhigh₁ : s₁.ProcessMessageBlock.Length_High = 0 := by rw [ProcessMessageBlock_high, ← hs]
  rw [AddDataLen_eq hlow₁ hhigh₁ (by omega)]
  refine ⟨?_, by dsimp only; omega, rfl⟩
  rw [ProcessMessageBlock_processed, ← hs]

/-- The round on the last bytes. -/
theorem blockRound_last (hlow : s.Length_Low = 8 * pos) (hhigh : s.Length_High = 0)
    (hpos : pos ≤ data.length) (hlast : data.length < pos + 64) (hlen : data.length < 268435456) :
    (blockRound data pos s).processed =
      s.processed ++ lastBlocks data.length (data.drop pos) := by
  have htake : (data.drop pos).take (data.length - pos) = data.drop pos := by
    rw [List.take_of_length_le (by rw [List.length_drop])]
  have htail : (data.drop pos).length = data.length - pos := List.length_drop
  rw [blockRound, if_neg (by omega)]
  dsimp only
  rw [htake]
  generalize hfilled : s.fill (data.drop pos) = s₀
  have hlow₀ : s₀.Length_Low = 8 * pos := by rw [← hfilled, fill, hlow]
  have hhigh₀ : s₀.Length_High = 0 := by rw [← hfilled, fill, hhigh]
  rw [AddDataLen_eq hlow₀ hhigh₀ (by omega)]
  generalize hs : ({ s₀ with
    Message_Block_Index := data.length - pos
    Length_Low := 8 * pos + 8 * (data.length - pos)
    Length_High := 0 } : SHA1) = s₁
  have hblock : s₁.Message_Block =
      data.drop pos ++ List.replicate (64 - (data.drop pos).length) 0 := by
    rw [← hs, ← hfilled, fill]
  have hindex : s₁.Message_Block_Index = (data.drop pos).length := by rw [← hs, htail]
  have hprocessed : s₁.processed = s.processed := by rw [← hs, ← hfilled, fill]
  have hlow₁ : s₁.Length_Low = 8 * data.length := by
    rw [← hs]
    dsimp only
    omega
  have hbytes : s₁.lengthBytes = octets (8 * data.length) := by
    rw [lengthBytes_eq (by rw [← hs]) (by omega), hlow₁]
  rw [lastBlocks]
  split
  · next hshort => rw [PadMessage_short hblock hindex hshort, hprocessed, hbytes]
  · next hlong =>
      rw [PadMessage_long hblock hindex (by omega) (by omega), hprocessed, hbytes]

/-- The loop from `pos` on, with `m` full blocks to come. -/
theorem blocksFrom_processed {m : Nat} (hlow : s.Length_Low = 8 * pos) (hhigh : s.Length_High = 0)
    (hfull : pos + 64 * m ≤ data.length) (hlast : data.length < pos + 64 * m + 64)
    (hlen : data.length < 268435456) :
    (blocksFrom data pos s).processed = s.processed ++ chunks m (data.drop pos) ++
      lastBlocks data.length (data.drop (pos + 64 * m)) := by
  induction m generalizing pos s with
  | zero =>
      rw [blocksFrom, if_pos (by omega), blocksFrom, if_neg (by omega),
        blockRound_last hlow hhigh (by omega) (by omega) hlen, chunks, List.append_nil,
        Nat.mul_zero, Nat.add_zero]
  | succ m ih =>
      have hround := blockRound_full hlow hhigh (by omega) hlen
      have hend : pos + 64 + 64 * m = pos + 64 * (m + 1) := by omega
      rw [blocksFrom, if_pos (by omega), ih hround.2.1 hround.2.2 (by omega) (by omega),
        hround.1, chunks, List.drop_drop, hend]
      simp only [List.append_assoc, List.cons_append, List.nil_append]

end

/-! ## The standard -/

/-- `k` is the least number of zero bytes behind a message of `n` bytes. -/
def LeastZeros (n k : Nat) : Prop :=
  64 ∣ n + 1 + k + 8 ∧ ∀ j, 64 ∣ n + 1 + j + 8 → k ≤ j

/-- The blocks of 64 bytes that the standard prescribes for a message. -/
def Fips (msg : Bytes) (blocks : List Bytes) : Prop :=
  (∀ b ∈ blocks, b.length = 64) ∧ ∃ k, LeastZeros msg.length k ∧
    blocks.flatten = msg ++ 128 :: List.replicate k 0 ++ octets (8 * msg.length)

theorem leastZeros_iff {n k : Nat} : LeastZeros n k ↔ k = (119 - n % 64) % 64 := by
  constructor
  · intro h
    have hle := h.2 ((119 - n % 64) % 64) (by omega)
    have hdvd := h.1
    omega
  · intro h
    exact ⟨by omega, fun j hj => by omega⟩

@[simp] theorem octets_length (n : Nat) : (octets n).length = 8 := by
  rw [octets, List.length_map, List.length_range]

section

variable {msg : Bytes}

/-- The blocks of a message without zeros. -/
theorem SHA_GO_processed (hnul : 0 ∉ msg) (hlen : msg.length < 268435456) :
    (SHA_GO msg).processed = chunks (msg.length / 64) msg ++
      lastBlocks msg.length (msg.drop (64 * (msg.length / 64))) := by
  have hdata : msg.takeWhile (· ≠ 0) = msg := by
    apply List.takeWhile_eq_self_iff.mpr
    intro c hc
    exact decide_eq_true fun h0 => hnul (h0 ▸ hc)
  have hblocks : (blocksFrom msg 0 SHAInit).processed =
      SHAInit.processed ++ chunks (msg.length / 64) (msg.drop 0) ++
        lastBlocks msg.length (msg.drop (0 + 64 * (msg.length / 64))) :=
    blocksFrom_processed rfl rfl (by omega) (by omega) hlen
  rw [Nat.zero_add, List.drop_zero] at hblocks
  rw [SHA_GO, hdata, hblocks]
  rfl

/-- A short tail is padded as it should be. -/
theorem fips_of_short {n : Nat} (hn : n = 64 * (msg.length / 64))
    (hshort : (msg.drop n).length ≤ 55) :
    Fips msg (chunks (msg.length / 64) msg ++ lastBlocks msg.length (msg.drop n)) := by
  have htail : (msg.drop n).length = msg.length - n := List.length_drop
  have hzeros : 55 - (msg.drop n).length = (119 - msg.length % 64) % 64 := by omega
  rw [lastBlocks, if_pos hshort]
  constructor
  · intro b hb
    rcases List.mem_append.mp hb with hb | hb
    · exact length_of_mem_chunks hb (by omega)
    · rw [List.mem_singleton.mp hb, List.length_append, List.length_append, List.length_cons,
        List.length_replicate, octets_length]
      omega
  · exists 55 - (msg.drop n).length
    refine ⟨leastZeros_iff.mpr hzeros, ?_⟩
    rw [List.flatten_append, flatten_chunks, List.flatten_singleton, ← hn, List.append_assoc,
      ← List.append_assoc, List.take_append_drop, List.append_assoc]

/-- A long tail comes back in the second block. -/
theorem not_fips_of_long {n : Nat} (hnul : 0 ∉ msg) (hn : n = 64 * (msg.length / 64))
    (hlong : 55 < (msg.drop n).length) :
    ¬ Fips msg (chunks (msg.length / 64) msg ++ lastBlocks msg.length (msg.drop n)) := by
  intro h
  obtain ⟨-, k, hk, hflat⟩ := h
  have htail : (msg.drop n).length = msg.length - n := List.length_drop
  have hk₁ : k = (63 - (msg.drop n).length) + 56 := by
    have hk₀ := leastZeros_iff.mp hk
    omega
  have hwhole : ∀ t : Bytes, msg.take n ++ (msg.drop n ++ t) = msg ++ t := by
    intro t
    rw [← List.append_assoc, List.take_append_drop]
  rw [lastBlocks, if_neg (by omega), List.flatten_append, flatten_chunks, ← hn,
    List.flatten_cons, List.flatten_singleton, hk₁, ← List.replicate_append_replicate] at hflat
  simp only [List.append_assoc, List.cons_append, hwhole] at hflat
  have hrest := List.append_cancel_left (List.cons.inj (List.append_cancel_left hflat)).2
  have hzeros := List.append_cancel_right hrest
  -- the second block starts with a byte of the message, which is not zero
  cases hdrop : msg.drop n with
  | nil =>
      rw [hdrop] at hlong
      exact absurd hlong (by decide)
  | cons c tail =>
      rw [hdrop] at hzeros
      have hc : c = 0 := (List.cons.inj hzeros).1
      have hmem : c ∈ msg := List.mem_of_mem_drop (hdrop ▸ List.mem_cons_self)
      exact hnul (hc ▸ hmem)

/-- The blocks are those of the standard exactly when the last bytes leave room for the length. -/
theorem fips_iff (msg : Bytes) (hnul : 0 ∉ msg) (hlen : msg.length < 268435456) :
    Fips msg (SHA_GO msg).processed ↔ msg.length % 64 < 56 := by
  have htail : (msg.drop (64 * (msg.length / 64))).length = msg.length % 64 := by
    rw [List.length_drop]
    omega
  rw [SHA_GO_processed hnul hlen]
  by_cases hshort : msg.length % 64 < 56
  · exact iff_of_true (fips_of_short rfl (by omega)) hshort
  · exact iff_of_false (not_fips_of_long hnul rfl (by omega)) hshort

theorem fips_iff_seventy :
    Fips (List.replicate 70 97) (SHA_GO (List.replicate 70 97)).processed :=
  (fips_iff (List.replicate 70 97) (by decide) (by decide)).mpr (by decide)

/-- A message of 56 bytes comes back in its second block. -/
theorem fips_false :
    (SHA_GO (List.replicate 56 97)).processed =
        [List.replicate 56 97 ++ 128 :: List.replicate 7 0,
          List.replicate 56 97 ++ octets 448] ∧
      ¬ Fips (List.replicate 56 97) (SHA_GO (List.replicate 56 97)).processed := by
  have hnul : (0 : UInt8) ∉ List.replicate 56 97 := by decide
  have hblocks := SHA_GO_processed hnul (by decide)
  have hlong := not_fips_of_long (n := 0) hnul (by decide) (by decide)
  refine ⟨hblocks.trans (by decide), fun h => ?_⟩
  rw [hblocks] at h
  exact hlong h

end

end SHA1

end CommonCc
