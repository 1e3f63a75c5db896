import CommonCc.Base

/-!
# Lower and upper case

`StringUtility::ToLower` and `ToUpper`, which pass over the double-byte characters of GBK.
-/

namespace CommonCc

namespace StringUtility

def IsGbk (high low : UInt8) : Bool :=
  (129 ≤ high && high ≤ 254) && ((64 ≤ low && low ≤ 126) || (128 ≤ low && low ≤ 254))

def CharToLower (c : UInt8) : UInt8 := if 65 ≤ c ∧ c ≤ 90 then c + 32 else c

def CharToUpper (c : UInt8) : UInt8 := if 97 ≤ c ∧ c ≤ 122 then c - 32 else c

/-- The loop of both functions, with the text from `i` on. -/
def mapChars (f : UInt8 → UInt8) : Bytes → Bytes
  | [] => []
  | [c] => [f c]
  | c :: d :: rest =>
      if IsGbk c d then c :: d :: mapChars f rest else f c :: mapChars f (d :: rest)

def ToLower (pszValue : Bytes) : Bytes := mapChars CharToLower pszValue

def ToUpper (pszValue : Bytes) : Bytes := mapChars CharToUpper pszValue

/-! ## Double-byte characters -/

/-- A double-byte character starts at index `i` of a text that is read from the left. -/
inductive DoubleAt : Bytes → Nat → Prop
  | here {c d : UInt8} {rest : Bytes} (h : IsGbk c d) : DoubleAt (c :: d :: rest) 0
  | double {c d : UInt8} {rest : Bytes} {i : Nat} (h : IsGbk c d) (hrest : DoubleAt rest i) :
      DoubleAt (c :: d :: rest) (i + 2)
  | single {c d : UInt8} {rest : Bytes} {i : Nat} (h : ¬ IsGbk c d)
      (hrest : DoubleAt (d :: rest) i) : DoubleAt (c :: d :: rest) (i + 1)

/-- Both bytes of every double-byte character of `s` are in `s'`, too. -/
def KeepsDoubles (s s' : Bytes) : Prop :=
  ∀ i, DoubleAt s i → s'[i]? = s[i]? ∧ s'[i + 1]? = s[i + 1]?

section

variable (f : UInt8 → UInt8) {c d : UInt8} {rest : Bytes}

theorem mapChars_double (h : IsGbk c d) :
    mapChars f (c :: d :: rest) = c :: d :: mapChars f rest := by
  rw [mapChars, if_pos h]

theorem mapChars_single (h : ¬ IsGbk c d) :
    mapChars f (c :: d :: rest) = f c :: mapChars f (d :: rest) := by
  rw [mapChars, if_neg h]

theorem mapChars_length (s : Bytes) : (mapChars f s).length = s.length := by
  fun_induction mapChars f s with
  | case1 => rfl
  | case2 c => rfl
  | case3 c d rest h ih => simp [ih]
  | case4 c d rest h ih => simpa using ih

theorem mapChars_keeps (s : Bytes) : KeepsDoubles s (mapChars f s) := by
  intro i h
  induction h with
  | here h =>
      rw [mapChars_double f h]
      exact ⟨rfl, rfl⟩
  | double h hrest ih =>
      rw [mapChars_double f h]
      exact ih
  | single h hrest ih =>
      rw [mapChars_single f h]
      exact ih

/-- The first byte is mapped or belongs to a double-byte character. -/
theorem mapChars_cons (c : UInt8) (rest : Bytes) :
    ∃ c' rest', mapChars f (c :: rest) = c' :: rest' ∧ (c' = c ∨ c' = f c) := by
  cases rest with
  | nil => exact ⟨f c, [], rfl, .inr rfl⟩
  | cons d rest =>
      by_cases h : IsGbk c d
      · exact ⟨c, _, mapChars_double f h, .inl rfl⟩
      · exact ⟨f c, _, mapChars_single f h, .inr rfl⟩

end

/-! ## Two mappings in a row -/

/-- A mapping of characters that leaves the double-byte characters where they are. -/
structure KeepsGbk (g : UInt8 → UInt8) : Prop where
  high : ∀ c d, IsGbk (g c) d = IsGbk c d
  low : ∀ c d, IsGbk c (g d) = IsGbk c d

theorem mapChars_comp (f : UInt8 → UInt8) {g : UInt8 → UInt8} (hg : KeepsGbk g) (s : Bytes) :
    mapChars f (mapChars g s) = mapChars (f ∘ g) s := by
  fun_induction mapChars g s with
  | case1 => rfl
  | case2 c => rfl
  | case3 c d rest h ih => rw [mapChars_double f h, mapChars_double (f ∘ g) h, ih]
  | case4 c d rest h ih =>
      obtain ⟨d', rest', hmap, hd'⟩ := mapChars_cons g d rest
      -- the byte behind `c` may be mapped, and makes no double-byte character then, either
      have hsingle : ¬ IsGbk (g c) d' := by
        rw [hg.high]
        rcases hd' with hd' | hd'
        · rwa [hd']
        · rwa [hd', hg.low]
      rw [hmap] at ih ⊢
      rw [mapChars_single f hsingle, mapChars_single (f ∘ g) h, ih]
      rfl

/-! ## The two mappings -/

theorem CharToLower_toNat (c : UInt8) : (CharToLower c).toNat =
    if 65 ≤ c.toNat ∧ c.toNat ≤ 90 then c.toNat + 32 else c.toNat := by
  have hrange : (65 ≤ c ∧ c ≤ 90) ↔ (65 ≤ c.toNat ∧ c.toNat ≤ 90) := Iff.rfl
  unfold CharToLower
  split
  · next h =>
      have hletter := hrange.mp h
      rw [if_pos hletter, UInt8.toNat_add]
      exact Nat.mod_eq_of_lt (Nat.lt_of_le_of_lt (Nat.add_le_add_right hletter.2 32) (by decide))
  · next h => rw [if_neg (mt hrange.mpr h)]

theorem CharToUpper_toNat (c : UInt8) : (CharToUpper c).toNat =
    if 97 ≤ c.toNat ∧ c.toNat ≤ 122 then c.toNat - 32 else c.toNat := by
  have hrange : (97 ≤ c ∧ c ≤ 122) ↔ (97 ≤ c.toNat ∧ c.toNat ≤ 122) := Iff.rfl
  unfold CharToUpper
  split
  · next h =>
      have hletter := hrange.mp h
      have hle : 32 ≤ c := UInt8.le_iff_toNat_le.mpr (Nat.le_trans (by decide) hletter.1)
      rw [if_pos hletter, UInt8.toNat_sub_of_le c 32 hle]
      rfl
  · next h => rw [if_neg (mt hrange.mpr h)]

theorem IsGbk_iff (c d : UInt8) : IsGbk c d ↔ (129 ≤ c.toNat ∧ c.toNat ≤ 254) ∧
    (64 ≤ d.toNat ∧ d.toNat ≤ 126 ∨ 128 ≤ d.toNat ∧ d.toNat ≤ 254) := by
  simp [IsGbk, UInt8.le_iff_toNat_le]

theorem CharToLower_keepsGbk : KeepsGbk CharToLower where
  high c d := by
    rw [Bool.eq_iff_iff, IsGbk_iff, IsGbk_iff, CharToLower_toNat]
    split <;> omega
  low c d := by
    rw [Bool.eq_iff_iff, IsGbk_iff, IsGbk_iff, CharToLower_toNat]
    split <;> omega

theorem CharToUpper_keepsGbk : KeepsGbk CharToUpper where
  high c d := by
    rw [Bool.eq_iff_iff, IsGbk_iff, IsGbk_iff, CharToUpper_toNat]
    split <;> omega
  low c d := by
    rw [Bool.eq_iff_iff, IsGbk_iff, IsGbk_iff, CharToUpper_toNat]
    split <;> omega

/-- Of two mappings in a row the second one decides. -/
theorem case_comp : CharToLower ∘ CharToLower = CharToLower ∧
    CharToUpper ∘ CharToUpper = CharToUpper ∧ CharToLower ∘ CharToUpper = CharToLower ∧
    CharToUpper ∘ CharToLower = CharToUpper := by
  refine ⟨?_, ?_, ?_, ?_⟩ <;> funext c <;> apply UInt8.toNat_inj.mp <;>
    simp only [Function.comp_apply, CharToLower_toNat, CharToUpper_toNat] <;> split_ifs <;> omega

/-- The length and the double-byte characters stay, and of two calls in a row the second one
decides. -/
theorem case_laws (s : Bytes) :
    (ToLower s).length = s.length ∧ (ToUpper s).length = s.length ∧
    KeepsDoubles s (ToLower s) ∧ KeepsDoubles s (ToUpper s) ∧
    ToLower (ToLower s) = ToLower s ∧ ToUpper (ToUpper s) = ToUpper s ∧
    ToLower (ToUpper s) = ToLower s ∧ ToUpper (ToLower s) = ToUpper s := by
  obtain ⟨hll, huu, hlu, hul⟩ := case_comp
  unfold ToLower ToUpper
  refine ⟨mapChars_length _ s, mapChars_length _ s, mapChars_keeps _ s, mapChars_keeps _ s,
    ?_, ?_, ?_, ?_⟩
  · rw [mapChars_comp _ CharToLower_keepsGbk, hll]
  · rw [mapChars_comp _ CharToUpper_keepsGbk, huu]
  · rw [mapChars_comp _ CharToUpper_keepsGbk, hlu]
  · rw [mapChars_comp _ CharToLower_keepsGbk, hul]

/-- The second byte of a double-byte character may be a letter. -/
example : ToLower [65, 176, 65, 65] = [97, 176, 65, 97] := by decide

end StringUtility

end CommonCc
