import CommonCc.Utils.Json.Escape

/-!
# Tokens

What `Token` gives for each kind of text at the index.
-/

namespace CommonCc

namespace Json

/-- What starts a number. -/
def startsNumber (c : UInt8) : Bool := c = 45 || isDigit c

theorem Token_blanks {b : Bytes} (hb : ∀ c ∈ b, isBlank c = true) (s : Bytes) :
    Token (b ++ s) = Token s := by
  rw [Token, Token, List.dropWhile_append_of_pos hb]

theorem Token_cons {c : UInt8} (hc : isBlank c = false) (s : Bytes) :
    Token (c :: s) = tokenAt c s := by
  rw [Token, List.dropWhile_cons_of_neg (by simp [hc])]

theorem not_blank_of_startsNumber {c : UInt8} (h : startsNumber c = true) : isBlank c = false := by
  simp only [startsNumber, isDigit, Bool.or_eq_true, Bool.and_eq_true, decide_eq_true_eq,
    UInt8.le_iff_toNat_le] at h
  simp only [isBlank, Bool.or_eq_false_iff, decide_eq_false_iff_not]
  refine ⟨⟨⟨?_, ?_⟩, ?_⟩, ?_⟩ <;> rintro rfl <;> simp at h

theorem isNumberChar_of_isDigit {c : UInt8} (h : isDigit c = true) : isNumberChar c = true := by
  simp [isNumberChar, h]

/-- The type of a number by its characters. -/
def numberType (ord : Bytes) : JsonType := if 46 ∈ ord then .real else .integer

theorem Token_number {c d : UInt8} {ds rest : Bytes} (hc : startsNumber c = true)
    (hds : ∀ x ∈ ds, isNumberChar x = true) (hd : isNumberChar d = false) :
    Token (c :: ds ++ d :: rest) =
      .ok ⟨-(numberType (c :: ds)).code, c :: ds, numberType (c :: ds), false, d :: rest⟩ := by
  have htake : ∀ {l : Bytes}, (∀ x ∈ l, isNumberChar x = true) →
      (l ++ d :: rest).takeWhile isNumberChar = l ∧
      (l ++ d :: rest).dropWhile isNumberChar = d :: rest := by
    intro l hl
    have hstop : ¬ isNumberChar d = true := by simp [hd]
    rw [List.takeWhile_append_of_pos hl, List.dropWhile_append_of_pos hl,
      List.takeWhile_cons_of_neg hstop, List.dropWhile_cons_of_neg hstop, List.append_nil]
    exact ⟨rfl, rfl⟩
  have hstart : c = 45 ∨ isDigit c = true := by simpa [startsNumber] using hc
  rw [List.cons_append, Token_cons (not_blank_of_startsNumber hc), tokenAt, if_pos hstart]
  by_cases h45 : c = 45
  · have hall := htake hds
    simp [h45, hall, numberType]
  · have hdigit : isDigit c = true := hstart.resolve_left h45
    have hchars : ∀ x ∈ c :: ds, isNumberChar x = true := by
      simpa [isNumberChar_of_isDigit hdigit] using hds
    have hall := htake hchars
    rw [List.cons_append] at hall
    simp only [h45, if_false, hall, numberType, List.nil_append]

/-- A string up to the place where its scanner stops. -/
theorem Token_string {s ord rest : Bytes} {q : UInt8}
    (h : scanString false s = .ok (ord, q :: rest)) :
    Token (34 :: s) = .ok ⟨-JsonType.string.code, decode ord, .string, false, rest⟩ := by
  rw [Token_cons (by decide), tokenAt, if_neg (by decide), if_pos rfl, h]
  rfl

theorem Token_null (rest : Bytes) : Token (nullText ++ rest) =
    .ok ⟨-JsonType.unknown.code, nullText, .unknown, false, rest⟩ := by
  have hpre : nullText <+: nullText ++ rest := List.prefix_append _ _
  rw [show nullText ++ rest = 110 :: (ascii ['u', 'l', 'l'] ++ rest) from rfl] at hpre ⊢
  rw [Token_cons (by decide), tokenAt, if_neg (by decide), if_neg (by decide), if_pos hpre]
  rfl

theorem Token_true (rest : Bytes) : Token (trueText ++ rest) =
    .ok ⟨-JsonType.boolean.code, trueText, .boolean, true, rest⟩ := by
  have hpre : trueText <+: trueText ++ rest := List.prefix_append _ _
  have hnull : ¬ nullText <+: trueText ++ rest := by
    simp [nullText, trueText, ascii]
  rw [show trueText ++ rest = 116 :: (ascii ['r', 'u', 'e'] ++ rest) from rfl] at hpre hnull ⊢
  rw [Token_cons (by decide), tokenAt, if_neg (by decide), if_neg (by decide), if_neg hnull,
    if_pos hpre]
  rfl

theorem Token_false (rest : Bytes) : Token (falseText ++ rest) =
    .ok ⟨-JsonType.boolean.code, falseText, .boolean, false, rest⟩ := by
  have hpre : falseText <+: falseText ++ rest := List.prefix_append _ _
  have hnull : ¬ nullText <+: falseText ++ rest := by
    simp [nullText, falseText, ascii]
  have htrue : ¬ trueText <+: falseText ++ rest := by
    simp [trueText, falseText, ascii]
  rw [show falseText ++ rest = 102 :: (ascii ['a', 'l', 's', 'e'] ++ rest) from rfl]
    at hpre hnull htrue ⊢
  rw [Token_cons (by decide), tokenAt, if_neg (by decide), if_neg (by decide), if_neg hnull,
    if_neg htrue, if_pos hpre]
  rfl

/-- Any other character is its own token. -/
theorem Token_char {c : UInt8} (hblank : isBlank c = false) (hnumber : startsNumber c = false)
    (hquote : c ≠ 34) {s : Bytes} (hnull : ¬ nullText <+: c :: s) (htrue : ¬ trueText <+: c :: s)
    (hfalse : ¬ falseText <+: c :: s) :
    Token (c :: s) = .ok ⟨signedChar c, [], .unknown, false, s⟩ := by
  have hstart : ¬ (c = 45 ∨ isDigit c = true) := by
    simpa [startsNumber] using hnumber
  rw [Token_cons hblank, tokenAt, if_neg hstart, if_neg hquote, if_neg hnull, if_neg htrue, if_neg hfalse]

/-- The brackets, the comma and the colon. -/
def isMark (c : UInt8) : Bool := c = 91 || c = 93 || c = 123 || c = 125 || c = 44 || c = 58

theorem Token_mark {c : UInt8} (h : isMark c = true) (s : Bytes) :
    Token (c :: s) = .ok ⟨signedChar c, [], .unknown, false, s⟩ := by
  simp only [isMark, Bool.or_eq_true, decide_eq_true_eq] at h
  have hfirst : ∀ {a : UInt8} {l : Bytes}, c ≠ a → ¬ a :: l <+: c :: s := by
    intro a l hne hpre
    exact hne (List.cons_prefix_cons.mp hpre).1.symm
  rcases h with ((((rfl | rfl) | rfl) | rfl) | rfl) | rfl <;>
    exact Token_char (by decide) (by decide) (by decide) (hfirst (by decide))
      (hfirst (by decide)) (hfirst (by decide))

end Json

end CommonCc
