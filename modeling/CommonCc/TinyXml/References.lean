import CommonCc.TinyXml.Texts
import Mathlib.Data.Nat.Digits.Defs

/-!
# References to characters

A character that is written as a number is read as the character itself, however many zeros its
digits begin with.
-/

namespace CommonCc

namespace TinyXml

variable {s ds : Bytes} {base n : Nat} {digit : UInt8 → Option Nat} {stop : UInt8}

/-- The number that digits stand for. -/
def number (base : Nat) (digit : UInt8 → Option Nat) (ds : Bytes) : Option Nat :=
  (ds.reverse.mapM digit).map (Nat.ofDigits base)

/-! ## Digits -/

/-- A sum of products that stays within 32 bits is not cut. -/
theorem u32_mul_digit {k d : Nat} (hlt : base ^ k * d < 4294967296) :
    u32 (u32 (base ^ k) * d) = base ^ k * d := by
  rcases Nat.eq_zero_or_pos d with rfl | hd
  · rfl
  · have hpow : base ^ k < 4294967296 := Nat.lt_of_le_of_lt (Nat.le_mul_of_pos_right _ hd) hlt
    rw [u32_of_lt hpow, u32_of_lt hlt]

/-- From the last digit on, behind `k` digits that were read. -/
theorem referenceValue_digits {l : Bytes} {values : List Nat} {k ucs : Nat}
    (hstop : digit stop = none) (hvalues : l.mapM digit = some values)
    (hlt : ucs + base ^ k * Nat.ofDigits base values < 4294967296) :
    referenceValue base digit stop l (u32 (base ^ k)) ucs =
      some (ucs + base ^ k * Nat.ofDigits base values) := by
  induction l generalizing values k ucs with
  | nil =>
      rw [List.mapM_nil] at hvalues
      cases hvalues
      rw [Nat.ofDigits_nil, Nat.mul_zero, Nat.add_zero, referenceValue]
  | cons c l ih =>
      rw [List.mapM_cons] at hvalues
      cases hc : digit c with
      | none =>
          rw [hc] at hvalues
          cases hvalues
      | some d =>
          rw [hc] at hvalues
          cases hl : l.mapM digit with
          | none =>
              rw [hl] at hvalues
              cases hvalues
          | some vs =>
              rw [hl] at hvalues
              cases hvalues
              have hne : c ≠ stop := by
                intro he
                rw [he, hstop] at hc
                cases hc
              have hsplit : base ^ k * Nat.ofDigits base (d :: vs) =
                  base ^ k * d + base ^ (k + 1) * Nat.ofDigits base vs := by
                rw [Nat.ofDigits_cons, Nat.mul_add, Nat.pow_succ, Nat.mul_assoc]
              rw [hsplit] at hlt ⊢
              have hmult : u32 (u32 (base ^ k) * base) = u32 (base ^ (k + 1)) := by
                rw [u32, u32, u32, Nat.mod_mul_mod, Nat.pow_succ]
              have hucs : u64 (ucs + u32 (u32 (base ^ k) * d)) = ucs + base ^ k * d := by
                rw [u32_mul_digit (by omega), u64, Nat.mod_eq_of_lt (by omega)]
              rw [referenceValue, if_neg hne, hc]
              simp only
              rw [hmult, hucs, ih hl (by omega), Nat.add_assoc]

theorem mem_of_mapM {l : Bytes} {values : List Nat} (h : l.mapM digit = some values) {c : UInt8}
    (hc : c ∈ l) : digit c ≠ none := by
  induction l generalizing values with
  | nil => cases hc
  | cons b l ih =>
      rw [List.mapM_cons] at h
      intro hnone
      cases hb : digit b with
      | none =>
          rw [hb] at h
          cases h
      | some d =>
          rw [hb] at h
          cases hl : l.mapM digit with
          | none =>
              rw [hl] at h
              cases h
          | some vs =>
              rcases List.mem_cons.mp hc with rfl | hin
              · rw [hb] at hnone
                cases hnone
              · exact ih hl hin hnone

/-- A reference whose digits stand for a number that 32 bits hold. -/
theorem getReference_number {encoding : TiXmlEncoding} (hstop : digit stop = none)
    (hend : digit 59 = none) (h : number base digit ds = some n) (hlt : n < 4294967296) :
    GetReference base digit stop encoding (ds ++ 59 :: s) = (referenceChar encoding n, some s) := by
  rw [number, Option.map_eq_some_iff] at h
  obtain ⟨values, hvalues, hn⟩ := h
  have hdigits : ∀ c ∈ ds, (decide (c ≠ 59)) = true := by
    intro c hc
    apply decide_eq_true
    intro he
    exact mem_of_mapM hvalues (List.mem_reverse.mpr hc) (he ▸ hend)
  have hlt' : 0 + base ^ 0 * Nat.ofDigits base values < 4294967296 := by
    rwa [Nat.pow_zero, Nat.one_mul, Nat.zero_add, hn]
  have hvalue := referenceValue_digits hstop hvalues hlt'
  rw [Nat.pow_zero, Nat.one_mul, Nat.zero_add, hn] at hvalue
  have hstart : referenceValue base digit stop ds.reverse 1 0 = some n := hvalue
  unfold GetReference
  rw [List.dropWhile_append_of_pos hdigits, List.takeWhile_append_of_pos hdigits,
    List.dropWhile_cons_of_neg (by decide), List.takeWhile_cons_of_neg (by decide),
    List.append_nil]
  simp only
  rw [hstart]

/-! ## Characters -/

theorem markByte_eq (input : Nat) : markByte input = UInt8.ofNat (input % 64 + 128) := by
  have htable : ∀ b : UInt8, (b ||| 0x80) &&& 0xbf = UInt8.ofNat (b.toNat % 64 + 128) :=
    forall_byte (by decide +kernel)
  have hbyte := htable (UInt8.ofNat input)
  have hmod : (UInt8.ofNat input).toNat % 64 = input % 64 := by
    rw [UInt8.toNat_ofNat']
    omega
  rw [hmod] at hbyte
  rw [markByte, ← hbyte, Nat.toUInt8_eq, UInt8.ofNat_and, UInt8.ofNat_or]
  rfl

/-- The mark of a first byte and the bits behind it. -/
theorem firstByte_eq : ∀ v, (v < 32 → firstByte v 2 = UInt8.ofNat (v % 32 + 0xc0)) ∧
    (v < 16 → firstByte v 3 = UInt8.ofNat (v % 16 + 0xe0)) ∧
    (v < 8 → firstByte v 4 = UInt8.ofNat (v % 8 + 0xf0)) := by
  intro v
  by_cases hv : v < 32
  · revert v
    decide
  · exact ⟨fun h => absurd h hv, fun h => by omega, fun h => by omega⟩

/-- The conversion is the one to UTF-8. -/
theorem convertUTF32ToUTF8_eq (c : Char) : ConvertUTF32ToUTF8 c.toNat = String.utf8EncodeChar c := by
  have hmax : c.toNat < 0x110000 := by
    rcases c.valid with h | h
    · exact Nat.lt_trans h (by decide)
    · exact h.2
  have hval : c.val.toNat = c.toNat := rfl
  unfold ConvertUTF32ToUTF8 String.utf8EncodeChar
  rw [hval]
  simp only [Nat.shiftRight_eq_div_pow, Nat.div_div_eq_div_mul, markByte_eq]
  by_cases h1 : c.toNat < 0x80
  · rw [if_pos h1, if_pos (show c.toNat ≤ 0x7f by omega)]
    simp [firstByte, firstByteMark]
  · rw [if_neg h1, if_neg (show ¬ c.toNat ≤ 0x7f by omega)]
    by_cases h2 : c.toNat < 0x800
    · rw [if_pos h2, if_pos (show c.toNat ≤ 0x7ff by omega), (firstByte_eq _).1 (by omega)]
    · rw [if_neg h2, if_neg (show ¬ c.toNat ≤ 0x7ff by omega)]
      by_cases h3 : c.toNat < 0x10000
      · rw [if_pos h3, if_pos (show c.toNat ≤ 0xffff by omega), (firstByte_eq _).2.1 (by omega)]
      · rw [if_neg h3, if_neg (show ¬ c.toNat ≤ 0xffff by omega),
          if_pos (show c.toNat < 0x200000 by omega), (firstByte_eq _).2.2 (by omega)]

theorem charLength_ofNat {n : Nat} (h : n < 256) : charLength .utf8 (UInt8.ofNat n) =
    if n < 0xc2 then 1 else if n < 0xe0 then 2 else if n < 0xf0 then 3 else if n < 0xf5 then 4
    else 1 := by
  simp [charLength, utf8ByteTable, UInt8.lt_iff_toNat_lt, Nat.mod_eq_of_lt h]

/-- The first byte of a character tells how many it has. -/
theorem exists_cons_utf8 (c : Char) : ∃ b cs, String.utf8EncodeChar c = b :: cs ∧
    charLength .utf8 b = cs.length + 1 ∧ (b = 38 → c = '&') := by
  have hmax : c.toNat < 0x110000 := by
    rcases c.valid with h | h
    · exact Nat.lt_trans h (by decide)
    · exact h.2
  have hval : c.val.toNat = c.toNat := rfl
  have hne : ∀ {n}, 38 < n → n < 256 → UInt8.ofNat n = 38 → c = '&' := by
    intro n hlow hhigh he
    have hnat := congrArg UInt8.toNat he
    rw [UInt8.toNat_ofNat', Nat.mod_eq_of_lt hhigh] at hnat
    exact absurd hnat (Nat.ne_of_gt hlow)
  unfold String.utf8EncodeChar
  rw [hval]
  by_cases h1 : c.toNat ≤ 0x7f
  · refine ⟨_, _, if_pos h1, ?_, ?_⟩
    · rw [charLength_ofNat (by omega), if_pos (by omega)]
      rfl
    · intro he
      have hnat := congrArg UInt8.toNat he
      rw [UInt8.toNat_ofNat', Nat.mod_eq_of_lt (by omega)] at hnat
      exact Char.ext (UInt32.toNat_inj.mp hnat)
  · rw [if_neg h1]
    by_cases h2 : c.toNat ≤ 0x7ff
    · refine ⟨_, _, if_pos h2, ?_, hne (by omega) (by omega)⟩
      rw [charLength_ofNat (by omega), if_neg (by omega), if_pos (by omega)]
      rfl
    · rw [if_neg h2]
      by_cases h3 : c.toNat ≤ 0xffff
      · refine ⟨_, _, if_pos h3, ?_, hne (by omega) (by omega)⟩
        rw [charLength_ofNat (by omega), if_neg (by omega), if_neg (by omega), if_pos (by omega)]
        rfl
      · refine ⟨_, _, if_neg h3, ?_, hne (by omega) (by omega)⟩
        rw [charLength_ofNat (by omega), if_neg (by omega), if_neg (by omega), if_neg (by omega),
          if_pos (by omega)]
        rfl

theorem getChar_utf8 {c : Char} (hc : c ≠ '&') :
    GetChar (String.utf8EncodeChar c ++ s) .utf8 = .ok (String.utf8EncodeChar c, some s) := by
  obtain ⟨b, cs, hcs, hlen, hamp⟩ := exists_cons_utf8 c
  rw [hcs]
  exact getChar_cons (fun he => hc (hamp he)) hlen

/-! ## References -/

theorem getChar_ampersand (s : Bytes) (encoding : TiXmlEncoding) :
    GetChar (38 :: s) encoding = .ok (GetEntity (38 :: s) encoding) := by
  have hone : charLength encoding 38 = 1 := charLength_ascii (by decide)
  unfold charLength at hone
  rw [GetChar]
  simp only [hone, if_true]

theorem referenceChar_utf8 (c : Char) :
    referenceChar .utf8 c.toNat = String.utf8EncodeChar c := by
  rw [referenceChar, if_pos rfl, convertUTF32ToUTF8_eq]

theorem char_lt (c : Char) : c.toNat < 4294967296 := c.val.toNat_lt

theorem getChar_hexadecimal {c : Char} (h : number 16 hexadecimalDigit ds = some c.toNat) :
    GetChar (ascii ['&', '#', 'x'] ++ (ds ++ 59 :: s)) .utf8 =
      .ok (String.utf8EncodeChar c, some s) := by
  have hread : GetEntity (38 :: 35 :: 120 :: (ds ++ 59 :: s)) .utf8 =
      (String.utf8EncodeChar c, some s) := by
    rw [GetEntity, if_pos rfl, if_neg (by simp), getReference_number rfl rfl h (char_lt c),
      referenceChar_utf8]
  rw [← hread]
  exact getChar_ampersand _ _

theorem getChar_decimal {c : Char} (h : number 10 decimalDigit ds = some c.toNat) :
    GetChar (ascii ['&', '#'] ++ (ds ++ 59 :: s)) .utf8 =
      .ok (String.utf8EncodeChar c, some s) := by
  have hread : GetEntity (38 :: 35 :: (ds ++ 59 :: s)) .utf8 =
      (String.utf8EncodeChar c, some s) := by
    have hstop : decimalDigit 35 = none := rfl
    have hreference : GetReference 10 decimalDigit 35 .utf8 (ds ++ 59 :: s) = _ :=
      getReference_number hstop rfl h (char_lt c)
    rw [referenceChar_utf8] at hreference
    rw [← hreference]
    -- no digit is the letter of a hexadecimal reference
    cases ds with
    | nil => rw [List.nil_append, GetEntity, if_neg (by decide)]
    | cons d ds =>
        have hd : d ≠ 120 := by
          intro he
          rw [number, Option.map_eq_some_iff] at h
          obtain ⟨values, hvalues, _⟩ := h
          have hin : d ∈ (d :: ds).reverse := by simp
          have hnone : decimalDigit d = none := by rw [he]; rfl
          exact mem_of_mapM hvalues hin hnone
        rw [List.cons_append, GetEntity, if_neg hd]
  rw [← hread]
  exact getChar_ampersand _ _

/-- **A numeric reference is read as its character**, as the character itself is. -/
theorem getChar_reference (c : Char) (ds s : Bytes) :
    (number 16 hexadecimalDigit ds = some c.toNat →
      GetChar (ascii ['&', '#', 'x'] ++ (ds ++ 59 :: s)) .utf8 =
        .ok (String.utf8EncodeChar c, some s)) ∧
    (number 10 decimalDigit ds = some c.toNat →
      GetChar (ascii ['&', '#'] ++ (ds ++ 59 :: s)) .utf8 =
        .ok (String.utf8EncodeChar c, some s)) ∧
    (c ≠ '&' →
      GetChar (String.utf8EncodeChar c ++ s) .utf8 = .ok (String.utf8EncodeChar c, some s)) :=
  ⟨getChar_hexadecimal, getChar_decimal, getChar_utf8⟩

theorem getChar_reference_zeros :
    GetChar (ascii ['&', '#', 'x'] ++ (ascii ['0', '0', 'e', '9'] ++ [59, 33])) .utf8 =
        .ok ([0xc3, 0xa9], some [33]) ∧
      GetChar (ascii ['&', '#'] ++ (ascii ['2', '3', '3'] ++ [59, 33])) .utf8 =
        .ok ([0xc3, 0xa9], some [33]) ∧
      GetChar [0xc3, 0xa9, 33] .utf8 = .ok ([0xc3, 0xa9], some [33]) :=
  ⟨(getChar_reference 'é' (ascii ['0', '0', 'e', '9']) [33]).1 rfl,
    (getChar_reference 'é' (ascii ['2', '3', '3']) [33]).2.1 rfl,
    (getChar_reference 'é' [] [33]).2.2 (by decide)⟩

end TinyXml

end CommonCc
