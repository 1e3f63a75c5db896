import CommonCc.Base

/-!
# URL encoding

`CUrl::Encode` and `CUrl::Decode`, with `isalnum` of the C locale.
-/

namespace CommonCc

def ToHex (x : UInt8) : UInt8 := if 9 < x then x + 55 else x + 48

def FromHex (x : UInt8) : Except Fault UInt8 :=
  if 65 ≤ x ∧ x ≤ 90 then .ok (x - 65 + 10)
  else if 97 ≤ x ∧ x ≤ 122 then .ok (x - 97 + 10)
  else if 48 ≤ x ∧ x ≤ 57 then .ok (x - 48)
  else .error .assertion

def isAlnum (c : UInt8) : Bool :=
  isDigit c || (65 ≤ c && c ≤ 90) || (97 ≤ c && c ≤ 122)

namespace CUrl

/-- The characters that `Encode` copies. -/
def kept (c : UInt8) : Bool := isAlnum c || c = 45 || c = 95 || c = 46 || c = 126

def Encode : Bytes → Bytes
  | [] => []
  | c :: str =>
      if kept c then c :: Encode str
      else if c = 32 then 43 :: Encode str
      else 37 :: ToHex (c >>> 4) :: ToHex (c % 16) :: Encode str

/-- The two characters behind a `%` must be there. -/
def Decode : Bytes → Except Fault Bytes
  | [] => .ok []
  | c :: str =>
      if c = 43 then (Decode str).map (32 :: ·)
      else if c = 37 then
        match str with
        | x :: y :: str => do
            let high ← FromHex x
            let low ← FromHex y
            (Decode str).map ((high * 16 + low) :: ·)
        | _ => .error .assertion
      else (Decode str).map (c :: ·)

/-! ## The alphabet -/

def upperHex (c : UInt8) : Bool := isDigit c || (65 ≤ c && c ≤ 70)

/-- Letters, digits, `-`, `_`, `.`, `~`, `+`, and `%` in front of two hex digits. -/
inductive Escaped : Bytes → Prop
  | nil : Escaped []
  | plain {c : UInt8} {str : Bytes} (hc : kept c = true ∨ c = 43) (h : Escaped str) :
      Escaped (c :: str)
  | percent {x y : UInt8} {str : Bytes} (hx : upperHex x = true) (hy : upperHex y = true)
      (h : Escaped str) : Escaped (37 :: x :: y :: str)

section Digits

variable {x : UInt8}

theorem exists_digit (h : x < 16) : ∃ n : Fin 16, x = UInt8.ofNat n := by
  have hlt : x.toNat < 16 := UInt8.lt_iff_toNat_lt.mp h
  exact ⟨⟨x.toNat, hlt⟩, by simp⟩

theorem FromHex_ToHex (h : x < 16) : FromHex (ToHex x) = .ok x := by
  have hall : ∀ n : Fin 16, FromHex (ToHex (UInt8.ofNat n)) = .ok (UInt8.ofNat n) := by decide
  cases exists_digit h with
  | intro n hn => rw [hn, hall]

theorem upperHex_ToHex (h : x < 16) : upperHex (ToHex x) = true := by
  have hall : ∀ n : Fin 16, upperHex (ToHex (UInt8.ofNat n)) = true := by decide
  cases exists_digit h with
  | intro n hn => rw [hn, hall]

theorem high_lt (c : UInt8) : c >>> 4 < 16 := by
  have hc := c.toNat_lt
  rw [UInt8.lt_iff_toNat_lt, UInt8.toNat_shiftRight]
  simp [Nat.shiftRight_eq_div_pow]
  omega

theorem low_lt (c : UInt8) : c % 16 < 16 := by
  rw [UInt8.lt_iff_toNat_lt, UInt8.toNat_mod]
  exact Nat.mod_lt _ (by decide)

/-- The two digits of a byte are put together again. -/
theorem high_low (c : UInt8) : (c >>> 4) * 16 + c % 16 = c := by
  have hc := c.toNat_lt
  apply UInt8.toNat_inj.mp
  rw [UInt8.toNat_add, UInt8.toNat_mul, UInt8.toNat_shiftRight, UInt8.toNat_mod]
  simp [Nat.shiftRight_eq_div_pow]
  omega

end Digits

/-- A copied character is none of those that `Decode` treats differently. -/
theorem kept_plain {c : UInt8} (h : kept c = true) : c ≠ 43 ∧ c ≠ 37 := by
  constructor
  · intro he
    rw [he] at h
    exact absurd h (by decide)
  · intro he
    rw [he] at h
    exact absurd h (by decide)

theorem Decode_percent {x y : UInt8} {high low : UInt8} (hx : FromHex x = .ok high)
    (hy : FromHex y = .ok low) (str : Bytes) :
    Decode (37 :: x :: y :: str) = (Decode str).map ((high * 16 + low) :: ·) := by
  rw [Decode, if_neg (by decide), if_pos rfl]
  simp only [bind, Except.bind, hx, hy]

theorem Decode_plain {c : UInt8} (hplus : c ≠ 43) (hpercent : c ≠ 37) (str : Bytes) :
    Decode (c :: str) = (Decode str).map (c :: ·) := by
  rw [Decode.eq_def]
  dsimp only
  rw [if_neg hplus, if_neg hpercent]

theorem Decode_plus (str : Bytes) : Decode (43 :: str) = (Decode str).map (32 :: ·) := by
  rw [Decode.eq_def]
  exact if_pos rfl

/-- An encoded string is made of the alphabet, and is decoded to what was encoded. -/
theorem Decode_Encode (str : Bytes) : Escaped (Encode str) ∧ Decode (Encode str) = .ok str := by
  induction str with
  | nil => exact ⟨.nil, rfl⟩
  | cons c str ih =>
      rw [Encode]
      by_cases hkept : kept c = true
      · rw [if_pos hkept]
        have hplain := kept_plain hkept
        constructor
        · exact .plain (.inl hkept) ih.1
        · rw [Decode_plain hplain.1 hplain.2, ih.2]
          rfl
      rw [if_neg hkept]
      by_cases hblank : c = 32
      · rw [if_pos hblank]
        constructor
        · exact .plain (.inr rfl) ih.1
        · rw [Decode_plus, ih.2, hblank]
          rfl
      · rw [if_neg hblank]
        constructor
        · exact .percent (upperHex_ToHex (high_lt c)) (upperHex_ToHex (low_lt c)) ih.1
        · rw [Decode_percent (FromHex_ToHex (high_lt c)) (FromHex_ToHex (low_lt c)), ih.2, high_low]
          rfl

/-! ## Digits behind a `%` -/

def isHex (c : UInt8) : Bool := isDigit c || (65 ≤ c && c ≤ 70) || (97 ≤ c && c ≤ 102)

/-- Of a hexadecimal digit. -/
def hexValue (c : UInt8) : Nat :=
  if isDigit c then c.toNat - 48 else if c ≤ 70 then c.toNat - 55 else c.toNat - 87

/-- Every `%` that a scan from the left meets is followed by two characters with `p`. -/
def allMet (p : UInt8 → Bool) : Bytes → Bool
  | [] => true
  | c :: str =>
      if c = 37 then
        match str with
        | x :: y :: str => p x && p y && allMet p str
        | _ => false
      else allMet p str

/-- The text that the scan stands for. -/
def decodedText : Bytes → Bytes
  | [] => []
  | c :: str =>
      if c = 43 then 32 :: decodedText str
      else if c = 37 then
        match str with
        | x :: y :: str => (16 * hexValue x + hexValue y).toUInt8 :: decodedText str
        | _ => []
      else c :: decodedText str

theorem FromHex_ok_iff (x : UInt8) : (∃ y, FromHex x = .ok y) ↔ isAlnum x = true := by
  have hbool : isAlnum x = true ↔ (48 ≤ x ∧ x ≤ 57 ∨ 65 ≤ x ∧ x ≤ 90) ∨ 97 ≤ x ∧ x ≤ 122 := by
    simp [isAlnum, isDigit]
  rw [hbool, FromHex]
  split_ifs with hupper hlower hdigit
  · exact ⟨fun _ => .inl (.inr hupper), fun _ => ⟨_, rfl⟩⟩
  · exact ⟨fun _ => .inr hlower, fun _ => ⟨_, rfl⟩⟩
  · exact ⟨fun _ => .inl (.inl hdigit), fun _ => ⟨_, rfl⟩⟩
  · constructor
    · rintro ⟨y, hy⟩
      cases hy
    · rintro ((h | h) | h)
      · exact absurd h hdigit
      · exact absurd h hupper
      · exact absurd h hlower

theorem FromHex_isHex {x : UInt8} (h : isHex x = true) : FromHex x = .ok (hexValue x).toUInt8 := by
  simp only [isHex, isDigit, Bool.or_eq_true, Bool.and_eq_true, decide_eq_true_eq,
    UInt8.le_iff_toNat_le, UInt8.toNat_ofNat] at h
  simp only [FromHex, hexValue, isDigit, Bool.and_eq_true, decide_eq_true_eq,
    UInt8.le_iff_toNat_le, UInt8.toNat_ofNat]
  have hx := x.toNat_lt
  rcases h with (h | h) | h
  · rw [if_neg (by omega), if_neg (by omega), if_pos h, if_pos h]
    congr 1
    apply UInt8.toNat_inj.mp
    rw [UInt8.toNat_sub_of_le _ _ (by rw [UInt8.le_iff_toNat_le]; exact h.1), Nat.toUInt8_eq,
      UInt8.toNat_ofNat', Nat.mod_eq_of_lt (by omega)]
    rfl
  · rw [if_pos (by omega), if_neg (by omega), if_pos h.2]
    congr 1
    apply UInt8.toNat_inj.mp
    rw [UInt8.toNat_add, UInt8.toNat_sub_of_le _ _ (by rw [UInt8.le_iff_toNat_le]; exact h.1),
      Nat.toUInt8_eq, UInt8.toNat_ofNat']
    simp only [UInt8.toNat_ofNat]
    omega
  · rw [if_neg (by omega), if_pos (by omega), if_neg (by omega), if_neg (by omega)]
    congr 1
    apply UInt8.toNat_inj.mp
    rw [UInt8.toNat_add, UInt8.toNat_sub_of_le _ _ (by rw [UInt8.le_iff_toNat_le]; exact h.1),
      Nat.toUInt8_eq, UInt8.toNat_ofNat']
    simp only [UInt8.toNat_ofNat]
    omega

section

variable {p : UInt8 → Bool} {c x y : UInt8} (str : Bytes)

theorem allMet_plain (hc : c ≠ 37) : allMet p (c :: str) = allMet p str := by
  rw [allMet.eq_def]
  exact if_neg hc

theorem allMet_percent : allMet p (37 :: x :: y :: str) = (p x && p y && allMet p str) := by
  rw [allMet]
  exact if_pos rfl

/-- A scan goes over one character, or over a `%` and the two behind it. -/
theorem scan_induction {motive : Bytes → Prop} (nil : motive [])
    (plain : ∀ c str, c ≠ 37 → motive str → motive (c :: str))
    (percent : ∀ x y str, motive str → motive (37 :: x :: y :: str))
    (short : ∀ str, str.length < 2 → motive (37 :: str)) : motive str := by
  induction hn : str.length using Nat.strongRecOn generalizing str with
  | ind n ih =>
      cases str with
      | nil => exact nil
      | cons c str =>
          by_cases hc : c = 37
          · rw [hc]
            rcases str with _ | ⟨x, _ | ⟨y, str⟩⟩
            · exact short [] (by decide)
            · exact short [x] (Nat.lt_succ_self 1)
            · exact percent x y str (ih str.length (by simp at hn; omega) str rfl)
          · exact plain c str hc (ih str.length (by simp at hn; omega) str rfl)

end

theorem map_ok_iff (f : Bytes → Bytes) (r : Except Fault Bytes) :
    (∃ t, r.map f = .ok t) ↔ ∃ t, r = .ok t := by
  cases r with
  | error e => exact ⟨fun ⟨_, h⟩ => (nomatch h), fun ⟨_, h⟩ => (nomatch h)⟩
  | ok t => exact ⟨fun _ => ⟨t, rfl⟩, fun _ => ⟨f t, rfl⟩⟩

/-- The assertion about the length, and so nothing decoded. -/
theorem Decode_short {str : Bytes} (h : str.length < 2) (p : UInt8 → Bool) :
    Decode (37 :: str) = .error .assertion ∧ allMet p (37 :: str) = false := by
  rcases str with _ | ⟨x, _ | ⟨y, str⟩⟩
  · exact ⟨rfl, rfl⟩
  · exact ⟨rfl, rfl⟩
  · rw [List.length_cons, List.length_cons] at h
    omega

theorem Decode_ok_iff (str : Bytes) : (∃ t, Decode str = .ok t) ↔ allMet isAlnum str = true := by
  induction str using scan_induction with
  | nil => exact ⟨fun _ => rfl, fun _ => ⟨[], rfl⟩⟩
  | plain c str hc ih =>
      rw [allMet_plain str hc, ← ih]
      by_cases hplus : c = 43
      · rw [hplus, Decode_plus, map_ok_iff]
      · rw [Decode_plain hplus hc, map_ok_iff]
  | percent x y str ih =>
      rw [allMet_percent, Bool.and_eq_true, Bool.and_eq_true, ← FromHex_ok_iff, ← FromHex_ok_iff,
        ← ih]
      constructor
      · rintro ⟨t, h⟩
        rw [Decode, if_neg (by decide), if_pos rfl] at h
        obtain ⟨high, hhigh, h⟩ := bind_eq_ok.mp h
        obtain ⟨low, hlow, h⟩ := bind_eq_ok.mp h
        exact ⟨⟨⟨high, hhigh⟩, ⟨low, hlow⟩⟩, (map_ok_iff _ _).mp ⟨t, h⟩⟩
      · rintro ⟨⟨⟨high, hhigh⟩, ⟨low, hlow⟩⟩, hrest⟩
        rw [Decode_percent hhigh hlow, map_ok_iff]
        exact hrest
  | short str h =>
      obtain ⟨hfault, hnot⟩ := Decode_short h isAlnum
      rw [hfault, hnot]
      exact ⟨fun ⟨_, h⟩ => (nomatch h), fun h => (nomatch h)⟩

/-- Two digits make the byte of their value. -/
theorem high_low_value (high low : Nat) :
    high.toUInt8 * 16 + low.toUInt8 = (16 * high + low).toUInt8 := by
  apply UInt8.toNat_inj.mp
  rw [UInt8.toNat_add, UInt8.toNat_mul]
  simp only [Nat.toUInt8_eq, UInt8.toNat_ofNat', UInt8.toNat_ofNat]
  omega

theorem Decode_isHex {str : Bytes} (h : allMet isHex str = true) :
    Decode str = .ok (decodedText str) := by
  induction str using scan_induction with
  | nil => rfl
  | plain c str hc ih =>
      rw [allMet_plain str hc] at h
      by_cases hplus : c = 43
      · rw [hplus, Decode_plus, ih h, decodedText.eq_def (43 :: str)]
        rfl
      · have htext : decodedText (c :: str) = c :: decodedText str := by
          rw [decodedText.eq_def]
          dsimp only
          rw [if_neg hplus, if_neg hc]
        rw [Decode_plain hplus hc, ih h, htext]
        rfl
  | percent x y str ih =>
      rw [allMet_percent, Bool.and_eq_true, Bool.and_eq_true] at h
      rw [Decode_percent (FromHex_isHex h.1.1) (FromHex_isHex h.1.2), ih h.2, high_low_value]
      rfl
  | short str hlen =>
      rw [(Decode_short hlen isHex).2] at h
      cases h

theorem allMet_isAlnum {str : Bytes} (h : allMet isHex str = true) : allMet isAlnum str = true :=
  (Decode_ok_iff str).mp ⟨_, Decode_isHex h⟩

/-- What `Decode` promises: only hexadecimal digits are accepted behind a `%`, and their value is
decoded. -/
structure StrictDecode (str : Bytes) : Prop where
  accepts : (∃ t, Decode str = .ok t) ↔ allMet isHex str = true
  value : allMet isHex str = true → Decode str = .ok (decodedText str)

/-- The letters behind `F` are accepted as well. -/
theorem StrictDecode_iff (str : Bytes) :
    StrictDecode str ↔ (allMet isAlnum str = true → allMet isHex str = true) := by
  constructor
  · intro h halnum
    exact h.accepts.mp ((Decode_ok_iff str).mpr halnum)
  · intro h
    refine ⟨?_, Decode_isHex⟩
    rw [Decode_ok_iff]
    exact ⟨h, allMet_isAlnum⟩

/-- `%GZ` is decoded. -/
theorem StrictDecode_letters : ¬ StrictDecode [37, 71, 90] := by
  intro h
  exact absurd (h.accepts.mp ⟨[35], by decide⟩) (by decide)

end CUrl

end CommonCc
