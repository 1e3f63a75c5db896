import CommonCc.Lib.BlockHash
import CommonCc.Lib.Transition
import CommonCc.Utils.Md5.Model

/-!
# `MD5` of a stream

The object against the message that its calls have passed so far, whatever the pieces are that
the message comes in.
-/

namespace CommonCc

namespace MD5

open BlockHash

variable {s : MD5} {input msg : Bytes} {length i : Nat}

theorem readBytes_of_le {n : Nat} (h : i + n ≤ input.length) :
    readBytes input i n = .ok ((input.drop i).take n) := if_pos h

/-! ## One update -/

/-- The index of the loop does not wrap around, where it has the remainder `index` modulo 64. -/
def Fits (index length : Nat) : Prop := length + 64 < 4294967296 + index % 64

instance : DecidableRel Fits := fun _ _ => inferInstanceAs (Decidable (_ < _))

theorem fits_of_lt {index : Nat} (h : length < 4294967232) : Fits index length := by
  unfold Fits
  omega

theorem Fits.step (h : Fits i length) (hi : i ≤ length) :
    u32 (i + 64) = i + 64 ∧ Fits (i + 64) length := by
  unfold Fits at h ⊢
  constructor
  · exact u32_of_lt (by omega)
  · omega

theorem transformFrom_succ (fuel : Nat) :
    transformFrom input length (fuel + 1) i s =
      if u32 (i + 64) ≤ length then do
        let block ← readBytes input i 64
        transformFrom input length fuel (u32 (i + 64)) (s.transform block)
      else .ok (s, i) := by
  rw [transformFrom.eq_def]

/-- The whole blocks of the input are taken in. -/
theorem transformFrom_spec {fuel : Nat} (hi : i ≤ length) (hlen : length ≤ input.length)
    (hfit : Fits i length) (hfuel : (length - i) / 64 ≤ fuel) :
    transformFrom input length fuel i s =
      .ok ({ s with state := absorb 64 compress s.state ((input.take length).drop i) },
        i + (length - i) / 64 * 64) := by
  induction fuel generalizing i s with
  | zero =>
      have hshort : length - i < 64 := by omega
      rw [transformFrom.eq_def, (hfit.step hi).1, if_neg (by omega), absorb_short,
        Nat.div_eq_of_lt hshort, Nat.zero_mul, Nat.add_zero]
      rw [List.length_drop, List.length_take]
      omega
  | succ fuel ih =>
      rw [transformFrom_succ, (hfit.step hi).1]
      by_cases hblock : i + 64 ≤ length
      · rw [if_pos hblock, readBytes_of_le (by omega)]
        have hsplit : (input.take length).drop i =
            (input.drop i).take 64 ++ (input.take length).drop (i + 64) := by
          have htake : ((input.take length).drop i).take 64 = (input.drop i).take 64 := by
            rw [List.drop_take, List.take_take, Nat.min_eq_left (by omega)]
          rw [← List.drop_drop, ← htake, List.take_append_drop]
        have hwidth : ((input.drop i).take 64).length = 64 := by
          rw [List.length_take, List.length_drop]
          omega
        have hindex : i + 64 + (length - (i + 64)) / 64 * 64 = i + (length - i) / 64 * 64 := by
          omega
        have hnext := @ih (s.transform ((input.drop i).take 64)) (i + 64) hblock (hfit.step hi).2
          (by omega)
        rw [hsplit, absorb_block (by decide) hwidth, ← hindex]
        rw [except_ok_bind, hnext, transform]
      · rw [if_neg hblock, absorb_short, Nat.div_eq_of_lt (by omega), Nat.zero_mul, Nat.add_zero]
        rw [List.length_drop, List.length_take]
        omega

/-- What the buffer holds in front of `index`. -/
def held (s : MD5) : Bytes := s.buffer.take (s.count0 / 8 % 64)

/-- What one `update` does: the bytes in front of the index of the buffer, and the input behind
them, are taken in. -/
structure Updated (s : MD5) (bytes : Bytes) (s' : MD5) : Prop where
  finalized : s'.finalized = s.finalized
  digest : s'.digest = s.digest
  count0 : s'.count0 = (s.addCount bytes.length).count0
  count1 : s'.count1 = (s.addCount bytes.length).count1
  size : s'.buffer.length = 64
  state : s'.state = absorb 64 compress s.state (s.held ++ bytes)
  tail : tail 64 (s.held ++ bytes) <+: s'.buffer

theorem fill_length {index : Nat} {bytes : Bytes} (hs : s.buffer.length = 64)
    (h : index + bytes.length ≤ 64) : (s.fill index bytes).buffer.length = 64 := by
  rw [fill]
  simp only [List.length_append, List.length_take, List.length_drop]
  omega

theorem fill_to_end {index : Nat} {bytes : Bytes} (hs : s.buffer.length = 64)
    (h : index + bytes.length = 64) : (s.fill index bytes).buffer = s.buffer.take index ++ bytes := by
  have hbehind : s.buffer.drop (index + bytes.length) = [] :=
    List.drop_eq_nil_of_le (by omega)
  rw [fill, hbehind, List.append_nil]

theorem prefix_fill_zero (s : MD5) (bytes : Bytes) : bytes <+: (s.fill 0 bytes).buffer :=
  List.prefix_append _ _

/-- Where the input fits, `update` takes it in. -/
theorem update_spec (hs : s.buffer.length = 64) (hlen : length ≤ input.length)
    (hlt : length < 4294967296) (hfit : Fits (64 - s.count0 / 8 % 64) length) :
    ∃ s', s.update input length = .ok s' ∧ Updated s (input.take length) s' := by
  have hheld : s.held.length = s.count0 / 8 % 64 := by
    rw [held, List.length_take]
    omega
  have hbytes : (input.take length).length = length := by
    rw [List.length_take]
    omega
  have hindex : s.count0 / 8 % 64 < 64 := Nat.mod_lt _ (by decide)
  have hheld_eq : s.held = s.buffer.take (s.count0 / 8 % 64) := rfl
  unfold update
  generalize s.count0 / 8 % 64 = index at *
  by_cases hfirst : 64 - index ≤ length
  · simp only [if_pos hfirst]
    rw [readBytes_of_le (by omega), except_ok_bind,
      transformFrom_spec hfirst hlen hfit (by omega), except_ok_bind]
    dsimp only
    rw [readBytes_of_le (by omega), except_ok_bind]
    refine ⟨_, rfl, ?_⟩
    generalize hi : 64 - index + (length - (64 - index)) / 64 * 64 = i
    have hwidth : ((input.drop 0).take (64 - index)).length = 64 - index := by
      rw [List.length_take, List.length_drop]
      omega
    have hchunk : s.held ++ input.take length =
        (s.held ++ (input.drop 0).take (64 - index)) ++ (input.take length).drop (64 - index) := by
      have htake : (input.take length).take (64 - index) = (input.drop 0).take (64 - index) := by
        rw [List.take_take, Nat.min_eq_left hfirst, List.drop_zero]
      rw [List.append_assoc, ← htake, List.take_append_drop]
    have hblock : (s.held ++ (input.drop 0).take (64 - index)).length = 64 := by
      rw [List.length_append]
      omega
    have hbuffer : ((s.addCount length).fill index ((input.drop 0).take (64 - index))).buffer =
        s.held ++ (input.drop 0).take (64 - index) := by
      rw [hheld_eq]
      exact fill_to_end hs (by omega)
    have hrest : tail 64 (s.held ++ input.take length) = (input.drop i).take (length - i) := by
      rw [hchunk, tail_block (by decide) hblock, tail, List.length_drop, hbytes, List.drop_drop,
        List.drop_take, hi]
    have hsize : ((input.drop i).take (length - i)).length < 64 := by
      rw [← hrest]
      exact tail_length_lt (by decide) _
    exact {
      finalized := rfl
      digest := rfl
      count0 := by rw [hbytes]; rfl
      count1 := by rw [hbytes]; rfl
      size := by
        apply fill_length
        · have hfilled := congrArg List.length hbuffer
          rw [hblock] at hfilled
          exact hfilled
        · omega
      state := by
        rw [hchunk, absorb_block (by decide) hblock, ← hbuffer]
        rfl
      tail := by
        rw [hrest]
        exact prefix_fill_zero _ _ }
  · simp only [if_neg hfirst]
    rw [readBytes_of_le (by omega)]
    refine ⟨_, rfl, ?_⟩
    have hshort : (s.held ++ input.take length).length < 64 := by
      rw [List.length_append]
      omega
    exact {
      finalized := rfl
      digest := rfl
      count0 := by rw [hbytes]; rfl
      count1 := by rw [hbytes]; rfl
      size := fill_length hs (by rw [List.drop_zero, hbytes]; omega)
      state := (absorb_short hshort).symm
      tail := by
        rw [tail_short hshort, hheld_eq]
        exact List.prefix_append _ _ }

/-! ## The message so far -/

/-- The object has taken in a message. -/
structure Absorbed (s : MD5) (msg : Bytes) : Prop where
  size : s.buffer.length = 64
  count0 : s.count0 = u32 (msg.length * 8)
  count1 : s.count1 = u32 (msg.length * 8 / 4294967296)
  state : s.state = absorb 64 compress firstWords msg
  tail : tail 64 msg <+: s.buffer

theorem absorbed_init (hs : s.buffer.length = 64) : s.init.Absorbed [] where
  size := hs
  count0 := rfl
  count1 := rfl
  state := (absorb_short (by decide)).symm
  tail := List.nil_prefix

/-- The 64-bit counter of bits. -/
theorem addCount_eq {n : Nat} (h0 : s.count0 = u32 (n * 8))
    (h1 : s.count1 = u32 (n * 8 / 4294967296)) (m : Nat) :
    (s.addCount m).count0 = u32 ((n + m) * 8) ∧
      (s.addCount m).count1 = u32 ((n + m) * 8 / 4294967296) := by
  unfold addCount
  simp only [h0, h1, u32]
  constructor
  · omega
  · split <;> omega

theorem Absorbed.held (h : s.Absorbed msg) : s.held = BlockHash.tail 64 msg := by
  have hlen : s.count0 / 8 % 64 = (BlockHash.tail 64 msg).length := by
    rw [h.count0, length_tail, u32]
    omega
  rw [MD5.held, hlen, ← List.prefix_iff_eq_take.mp h.tail]

theorem Absorbed.update {s' : MD5} {bytes : Bytes} (h : s.Absorbed msg) (hs : Updated s bytes s') :
    s'.Absorbed (msg ++ bytes) := by
  have hcount := addCount_eq h.count0 h.count1 bytes.length
  constructor
  · exact hs.size
  · rw [hs.count0, hcount.1, List.length_append]
  · rw [hs.count1, hcount.2, List.length_append]
  · rw [hs.state, h.held, h.state, absorb_append (by decide) firstWords msg bytes]
  · rw [tail_append (by decide), ← h.held]
    exact hs.tail

/-! ## The digest -/

/-- The padding of a message: a bit, and zeros up to the eight bytes of its length in bits. -/
def pad (length : Nat) : Bytes := 0x80 :: List.replicate ((119 - length % 64) % 64) 0

def lengthBytes (length : Nat) : Bytes :=
  u32Bytes (u32 (length * 8)) ++ u32Bytes (u32 (length * 8 / 4294967296))

/-- The digest of a message, by the blocks of the padded message. -/
def md5 (msg : Bytes) : Bytes :=
  encodeWords (absorb 64 compress firstWords (msg ++ pad msg.length ++ lengthBytes msg.length))

/-- The padded message is one of whole blocks. -/
theorem padded_length (msg : Bytes) :
    (msg ++ pad msg.length ++ lengthBytes msg.length).length % 64 = 0 := by
  simp only [pad, lengthBytes, List.length_append, List.length_cons, List.length_replicate,
    u32Bytes_length]
  omega

theorem padding_take {n : Nat} (h : n < 64) :
    padding.take (if n < 56 then 56 - n else 120 - n) = pad n := by
  have hlen : (if n < 56 then 56 - n else 120 - n) = (119 - n % 64) % 64 + 1 := by
    split <;> omega
  rw [hlen, padding, pad, List.take_succ_cons, List.take_replicate, Nat.min_eq_left (by omega)]

theorem pad_mod (n : Nat) : pad (n % 64) = pad n := by
  rw [pad, pad, Nat.mod_mod]

theorem Absorbed.index (h : s.Absorbed msg) : s.count0 / 8 % 64 = msg.length % 64 := by
  rw [h.count0, u32]
  omega

/-- `finalize` passes the padding and the length on to `update`. -/
theorem finalize_spec (h : s.Absorbed msg) (hs : s.finalized = false) :
    ∃ s', s.finalize = .ok s' ∧ s'.finalized = true ∧ s'.digest = md5 msg ∧
      s'.buffer.length = 64 := by
  have hlt : msg.length % 64 < 64 := Nat.mod_lt _ (by decide)
  have hpad := padding_take hlt
  rw [pad_mod] at hpad
  have hlen : (if msg.length % 64 < 56 then 56 - msg.length % 64 else 120 - msg.length % 64) ≤ 64 := by
    split <;> omega
  have hbits : u32Bytes s.count0 ++ u32Bytes s.count1 = lengthBytes msg.length := by
    rw [h.count0, h.count1, lengthBytes]
  have hpadding : padding.length = 64 := rfl
  unfold finalize
  rw [if_neg (by rw [hs]; decide), h.index, hbits]
  dsimp only
  generalize (if msg.length % 64 < 56 then 56 - msg.length % 64 else 120 - msg.length % 64) = padLen
    at hpad hlen ⊢
  obtain ⟨s₁, hupdate₁, hs₁⟩ : ∃ s₁, s.update padding padLen = .ok s₁ ∧
      Updated s (padding.take padLen) s₁ :=
    update_spec h.size (by omega) (by omega) (fits_of_lt (by omega))
  rw [hpad] at hs₁
  obtain ⟨s₂, hupdate₂, hs₂⟩ : ∃ s₂, s₁.update (lengthBytes msg.length) 8 = .ok s₂ ∧
      Updated s₁ ((lengthBytes msg.length).take 8) s₂ :=
    update_spec hs₁.size (Nat.le_refl 8) (by decide) (fits_of_lt (by decide))
  rw [hupdate₁, except_ok_bind, hupdate₂, except_ok_bind]
  refine ⟨_, rfl, rfl, ?_, List.length_replicate⟩
  have hall := (h.update hs₁).update hs₂
  have htake : (lengthBytes msg.length).take 8 = lengthBytes msg.length := rfl
  rw [htake] at hall
  rw [md5, ← hall.state]

end MD5

end CommonCc
