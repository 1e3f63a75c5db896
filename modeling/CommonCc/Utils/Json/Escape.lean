import CommonCc.Utils.Json.Model

/-!
# Escaped strings

For text without a backslash the four passes of `encode` are one substitution,
character by character.  The scanner of string tokens stops behind the text it
gives, and `decode` takes it back.
-/

namespace CommonCc

namespace Json

/-- Neither NUL, which ends a C string, nor a backslash. -/
def PlainText (s : Bytes) : Prop := 0 ∉ s ∧ 92 ∉ s

instance (s : Bytes) : Decidable (PlainText s) := inferInstanceAs (Decidable (_ ∧ _))

/-- How `encode` writes a character that is not a backslash. -/
def escape (c : UInt8) : Bytes :=
  if c = 13 then [92, 114] else if c = 10 then [92, 110] else if c = 34 then [92, 34] else [c]

theorem replacePass_eq {pat : Bytes} (hne : pat ≠ []) (rep src : Bytes) :
    replacePass pat rep src = replaceAll pat rep src :=
  @replaceLoop_eq _ _ pat rep hne (src.length + 1) [] src (Nat.lt_succ_self src.length)

/-- The passes of `encode` put a backslash before every character that is marked. -/
theorem encode_flatMap (s : Bytes) :
    encode s = s.flatMap fun c => if c = 92 then [92, 92] else escape c := by
  have hone : ∀ a : UInt8, [a] ≠ [] := fun a => List.cons_ne_nil a []
  simp only [encode, replacePass_eq (hone _)]
  rw [replaceAll_singleton, replaceAll_singleton, replaceAll_singleton, replaceAll_singleton,
    List.flatMap_assoc, List.flatMap_assoc, List.flatMap_assoc]
  apply List.flatMap_congr
  intro c _
  unfold escape
  by_cases h92 : c = 92
  · simp [h92]
  · by_cases h13 : c = 13
    · simp [h13]
    · by_cases h10 : c = 10
      · simp [h10]
      · simp [h92, h13, h10]

theorem encode_eq {s : Bytes} (h : 92 ∉ s) : encode s = s.flatMap escape := by
  rw [encode_flatMap]
  apply List.flatMap_congr
  intro c hc
  have hne : c ≠ 92 := fun e => h (e ▸ hc)
  exact if_neg hne

/-! ## Reading back -/

/-- Each character is written as itself or as a pair with a backslash. -/
def Paired (code : UInt8 → Bytes) (s : Bytes) : Prop :=
  ∀ c ∈ s, (∃ d, code c = [d] ∧ d ≠ 92) ∨ ∃ d, code c = [92, d] ∧ d ≠ 92

theorem escape_paired {s : Bytes} (h : 92 ∉ s) : Paired escape s := by
  intro c hc
  have hne : c ≠ 92 := fun e => h (e ▸ hc)
  unfold escape
  split
  · exact .inr ⟨114, rfl, by decide⟩
  · split
    · exact .inr ⟨110, rfl, by decide⟩
    · split
      · exact .inr ⟨34, rfl, by decide⟩
      · exact .inl ⟨c, rfl, hne⟩

/-- One pass of `decode` leaves the other pairs. -/
theorem Paired.replace {code : UInt8 → Bytes} {s : Bytes} (h : Paired code s) (x : UInt8)
    {y : UInt8} (hy : y ≠ 92) : Paired (fun c => if code c = [92, x] then [y] else code c) s := by
  intro c hc
  by_cases hx : code c = [92, x]
  · exact .inl ⟨y, if_pos hx, hy⟩
  · simpa only [hx, if_false] using h c hc

theorem decode_flatMap_escape {s : Bytes} (h : 92 ∉ s) : decode (s.flatMap escape) = s := by
  have hpair : ∀ x : UInt8, [92, x] ≠ [] := fun x => List.cons_ne_nil 92 [x]
  have h1 := escape_paired h
  have h2 := h1.replace 34 (by decide : (34 : UInt8) ≠ 92)
  have h3 := h2.replace 114 (by decide : (13 : UInt8) ≠ 92)
  simp only [decode, replacePass_eq (hpair _)]
  rw [replaceAll_pair h1, replaceAll_pair h2, replaceAll_pair h3]
  have hback : ∀ c ∈ s, (if (if (if escape c = [92, 34] then [34] else escape c) = [92, 114]
      then [13] else if escape c = [92, 34] then [34] else escape c) = [92, 110] then [10]
      else if (if escape c = [92, 34] then [34] else escape c) = [92, 114] then [13]
      else if escape c = [92, 34] then [34] else escape c) = [c] := by
    intro c _
    unfold escape
    by_cases h13 : c = 13
    · simp [h13]
    · by_cases h10 : c = 10
      · simp [h10]
      · by_cases h34 : c = 34
        · simp [h34]
        · simp [h13, h10, h34]
  rw [List.flatMap_congr hback, List.flatMap_singleton', replaceAll_of_not_mem h]

theorem decode_encode {s : Bytes} (h : 92 ∉ s) : decode (encode s) = s := by
  rw [encode_eq h, decode_flatMap_escape h]

/-! ## Scanning -/

/-- The scanner passes over the text of a character. -/
theorem scanString_escape {c : UInt8} (h0 : c ≠ 0) (h92 : c ≠ 92) {s ord index : Bytes}
    (h : scanString false s = .ok (ord, index)) :
    scanString false (escape c ++ s) = .ok (escape c ++ ord, index) := by
  unfold escape
  by_cases h13 : c = 13
  · simp [h13, scanString, h, bind, Except.bind, pure, Except.pure]
  · by_cases h10 : c = 10
    · simp [h10, scanString, h, bind, Except.bind, pure, Except.pure]
    · by_cases h34 : c = 34
      · simp [h34, scanString, h, bind, Except.bind, pure, Except.pure]
      · simp [h13, h10, h34, h0, h92, scanString, h, bind, Except.bind, pure, Except.pure]

/-- The scanner stops at the closing quote. -/
theorem scanString_encode {s : Bytes} (h : 0 ∉ s) (rest : Bytes) :
    scanString false (encode s ++ 34 :: rest) = .ok (encode s, 34 :: rest) := by
  rw [encode_flatMap]
  induction s with
  | nil => simp [scanString]
  | cons c s ih =>
      rw [List.mem_cons, not_or] at h
      rw [List.flatMap_cons, List.append_assoc]
      by_cases h92 : c = 92
      · -- the second one of the two backslashes is passed over
        simp [h92, scanString, ih h.2, bind, Except.bind, pure, Except.pure]
      · rw [if_neg h92]
        exact scanString_escape (Ne.symm h.1) h92 (ih h.2)

end Json

end CommonCc
