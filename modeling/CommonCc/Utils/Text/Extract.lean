import CommonCc.StdString

/-!
# The text at the place of a `*`

`StringUtility::ExtractSubstr`.  Its positions are `size_t` values that may wrap around.
-/

namespace CommonCc

namespace StringUtility

/-- The greatest value of `size_t`, which no string is as long as. -/
def npos : Nat := 18446744073709551615

/-- `leftPos`, behind the first `strLeft`. -/
def leftPos (strInput strLeft : Bytes) : Nat :=
  if strLeft = [] then 0
  else
    match find strInput strLeft 0 with
    | none => 0
    | some leftPos => u64 (leftPos + strLeft.length)

/-- `rightPos`, in front of the last `strRight`. -/
def rightPos (strInput strRight : Bytes) : Nat :=
  if strRight = [] then u64Sub strInput.length 1
  else
    match rfind strInput strRight with
    | none => u64Sub strInput.length 1
    | some rightPos => u64Sub rightPos 1

def ExtractSubstr (strInput strPattern : Bytes) : Except Fault Bytes := do
  if strPattern = [] ∨ strPattern = [42] then .ok strInput
  else
    match find strPattern [42] 0 with
    | none => .ok strInput
    | some pos =>
        let strLeft ← substrLen strPattern 0 pos
        let strRight ← substrLen strPattern (pos + 1) (u64 (u64Sub strPattern.length pos + 1))
        let left := leftPos strInput strLeft
        let right := rightPos strInput strRight
        substrLen strInput left (u64 (u64Sub right left + 1))

/-! ## What is extracted -/

/-- The end of the first `L`. -/
def leftEnd (L s : Bytes) : Nat :=
  match search L s with
  | none => 0
  | some i => i + L.length

/-- The bytes from the end of the first `L` up to the last `R`, or to the end. -/
def extracted (L R s : Bytes) : Bytes :=
  match searchLast R s with
  | none => s.drop (leftEnd L s)
  | some q =>
      if R ≠ [] ∧ leftEnd L s ≤ q then (s.take q).drop (leftEnd L s) else s.drop (leftEnd L s)

variable {s L R : Bytes}

theorem leftEnd_le (L s : Bytes) : leftEnd L s ≤ s.length := by
  unfold leftEnd
  cases hs : search L s with
  | none => exact Nat.zero_le _
  | some i => exact search_fits hs

theorem leftPos_eq (hs : s.length < npos) (L : Bytes) : leftPos s L = leftEnd L s := by
  have hle := leftEnd_le L s
  unfold leftPos leftEnd at *
  split
  · next hnil => rw [hnil, search_here List.nil_prefix]; rfl
  · rw [find_zero_eq]
    cases hfind : search L s with
    | none => rfl
    | some i =>
        simp only [hfind] at hle
        exact Nat.mod_eq_of_lt (by unfold npos at hs; omega)

/-- The number of bytes in front of position `q`, which is harmlessly large when `q` is in front
of `b`. -/
theorem substrLen_section {b q : Nat} (hs : s.length < npos) (hb : b ≤ s.length)
    (hq : q ≤ s.length) : substrLen s b (u64 (u64Sub (u64Sub q 1) b + 1)) =
      .ok (if b ≤ q then (s.take q).drop b else s.drop b) := by
  unfold npos at hs
  rw [substrLen, if_pos hb]
  split
  · next hle =>
      have hcount : u64 (u64Sub (u64Sub q 1) b + 1) = q - b := by
        unfold u64 u64Sub
        omega
      rw [hcount, List.drop_take]
  · next hlt =>
      have hcount : s.length - b ≤ u64 (u64Sub (u64Sub q 1) b + 1) := by
        unfold u64 u64Sub
        omega
      rw [List.take_of_length_le (by rw [List.length_drop]; exact hcount)]

/-- The part of the input that is cut out for the pattern's parts. -/
theorem substrLen_extracted (hs : s.length < npos) (L R : Bytes) :
    substrLen s (leftPos s L) (u64 (u64Sub (rightPos s R) (leftPos s L) + 1)) =
      .ok (extracted L R s) := by
  have hb := leftEnd_le L s
  have hwhole : substrLen s (leftEnd L s) (u64 (u64Sub (u64Sub s.length 1) (leftEnd L s) + 1)) =
      .ok (s.drop (leftEnd L s)) := by
    rw [substrLen_section hs hb (Nat.le_refl _), if_pos hb, List.take_length]
  rw [leftPos_eq hs, rightPos, extracted, rfind]
  split
  · next hnil =>
      rw [hwhole]
      cases searchLast R s with
      | none => rfl
      | some q => simp [hnil]
  · next hne =>
      cases hlast : searchLast R s with
      | none => exact hwhole
      | some q =>
          simp only [substrLen_section hs hb (searchLast_spec hlast).1, hne, ne_eq,
            not_false_eq_true, true_and]

/-- The two parts of the pattern. -/
theorem substrLen_pattern (hp : (L ++ 42 :: R).length < npos) :
    substrLen (L ++ 42 :: R) 0 L.length = .ok L ∧
    substrLen (L ++ 42 :: R) (L.length + 1)
      (u64 (u64Sub (L ++ 42 :: R).length L.length + 1)) = .ok R := by
  have hlen : (L ++ 42 :: R).length = L.length + (R.length + 1) := by
    rw [List.length_append, List.length_cons]
  rw [hlen] at hp ⊢
  unfold npos at hp
  constructor
  · rw [substrLen, if_pos (Nat.zero_le _), List.drop_zero, List.take_left]
  · have hcount : R.length ≤ u64 (u64Sub (L.length + (R.length + 1)) L.length + 1) := by
      unfold u64 u64Sub
      omega
    have hrest : (L ++ 42 :: R).drop (L.length + 1) = R := by
      rw [← List.drop_drop, List.drop_left]
      rfl
    rw [substrLen, if_pos (by omega), hrest, List.take_of_length_le hcount]

theorem extracted_nil (s : Bytes) : extracted [] [] s = s := by
  have hleft : leftEnd [] s = 0 := by
    rw [leftEnd, search_here List.nil_prefix]
    rfl
  unfold extracted
  rw [hleft, List.drop_zero]
  cases searchLast ([] : Bytes) s with
  | none => rfl
  | some q => exact if_neg fun h => h.1 rfl

/-- No exception is thrown, wherever the two parts are found. -/
theorem ExtractSubstr_eq_extracted (hs : s.length < npos) (hL : 42 ∉ L)
    (hp : (L ++ 42 :: R).length < npos) :
    ExtractSubstr s (L ++ 42 :: R) = .ok (extracted L R s) := by
  obtain ⟨hleft, hright⟩ := substrLen_pattern hp
  have hfind : find (L ++ 42 :: R) [42] 0 = some L.length := @find_zero L R 42 [] hL
  unfold ExtractSubstr
  split
  · next hall =>
      have hstar : L = [] ∧ R = [] := by
        cases L with
        | nil => simpa using hall
        | cons c L => simp at hall
      rw [hstar.1, hstar.2, extracted_nil]
  · simp only [hfind, hleft, hright, bind, Except.bind]
    exact substrLen_extracted hs L R

/-- The last `]` is in front of the first `[`. -/
theorem ExtractSubstr_crossed :
    ExtractSubstr [93, 91, 65] ([91] ++ 42 :: [93]) = .ok (extracted [91] [93] [93, 91, 65]) ∧
      extracted [91] [93] [93, 91, 65] = [65] :=
  ⟨ExtractSubstr_eq_extracted (by decide) (by decide) (by decide), by decide⟩

end StringUtility

end CommonCc
