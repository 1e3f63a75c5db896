import CommonCc.Utils.Json.RoundTrip

/-!
# The first token of a text

`lexeme` is the kind of the first token of a text without NUL, and the text behind it.
In a buffer the text is followed by a NUL, which ends a number and an unclosed string
and is a token of its own where no other is left.
-/

namespace CommonCc

namespace Json

inductive Lexeme where
  | ending
  | scalar
  | string
  | unclosed
  | mark (c : UInt8)
  | other
deriving DecidableEq

/-- The text behind the closing quote of a string. -/
def closeQuote : Bool → Bytes → Option Bytes
  | _, [] => none
  | ign, c :: s =>
      if ign then closeQuote false s else if c = 34 then some s else closeQuote (c = 92) s

/-- The signed characters from -5 to -1 have the codes of the types and pass for a value. -/
def isTypeCode (c : UInt8) : Bool := 251 ≤ c

def lexemeAt (c : UInt8) (s : Bytes) : Lexeme × Bytes :=
  if startsNumber c then (.scalar, s.dropWhile isNumberChar)
  else if c = 34 then
    match closeQuote false s with
    | some rest => (.string, rest)
    | none => (.unclosed, [])
  else if nullText <+: c :: s ∨ trueText <+: c :: s then (.scalar, s.drop 3)
  else if falseText <+: c :: s then (.scalar, s.drop 4)
  else if isTypeCode c then (.scalar, s)
  else if isMark c then (.mark c, s)
  else (.other, s)

def lexeme (t : Bytes) : Lexeme × Bytes :=
  match t.dropWhile isBlank with
  | [] => (.ending, [])
  | c :: s => lexemeAt c s

/-! ## Texts and buffers -/

/-- A word without NUL does not reach over the end of the text. -/
theorem prefix_text_iff {p : Bytes} (hp : 0 ∉ p) (t more : Bytes) :
    p <+: t ++ 0 :: more ↔ p <+: t := by
  induction p generalizing t with
  | nil => simp
  | cons a p ih =>
      rw [List.mem_cons, not_or] at hp
      cases t with
      | nil => simp [Ne.symm hp.1]
      | cons b t => rw [List.cons_append, List.cons_prefix_cons, List.cons_prefix_cons, ih hp.2]

theorem scanString_text {s : Bytes} (h : 0 ∉ s) (ign : Bool) :
    ∃ ord, ∀ more, scanString ign (s ++ 0 :: more) =
      .ok (ord, match closeQuote ign s with
        | some rest => 34 :: (rest ++ 0 :: more)
        | none => 0 :: more) := by
  induction s generalizing ign with
  | nil => exact ⟨[], fun more => by simp [scanString, closeQuote]⟩
  | cons c s ih =>
      rw [List.mem_cons, not_or] at h
      have hc : c ≠ 0 := Ne.symm h.1
      cases ign with
      | true =>
          obtain ⟨ord, hord⟩ := ih h.2 false
          exact ⟨c :: ord, fun more => by
            simp [scanString, hc, closeQuote, hord more, bind, Except.bind, pure, Except.pure]⟩
      | false =>
          by_cases hq : c = 34
          · exact ⟨[], fun more => by simp [scanString, hq, closeQuote]⟩
          · obtain ⟨ord, hord⟩ := ih h.2 (c = 92)
            exact ⟨c :: ord, fun more => by
              simp [scanString, hc, hq, closeQuote, hord more, bind, Except.bind, pure,
                Except.pure]⟩

/-- What is left behind a token is a shorter text. -/
structure Shorter (rest t : Bytes) : Prop where
  length_lt : rest.length < t.length
  text : 0 ∉ rest

theorem closeQuote_suffix {ign : Bool} {s rest : Bytes} (h : closeQuote ign s = some rest) :
    rest <:+ s := by
  induction s generalizing ign with
  | nil => simp [closeQuote] at h
  | cons c s ih =>
      rw [closeQuote] at h
      split at h
      · exact (ih h).trans (List.suffix_cons c s)
      · split at h
        · exact Option.some.inj h ▸ List.suffix_cons c s
        · exact (ih h).trans (List.suffix_cons c s)

theorem lexemeAt_suffix (c : UInt8) (s : Bytes) : (lexemeAt c s).2 <:+ s := by
  unfold lexemeAt
  split
  · exact List.dropWhile_suffix _
  · split
    · cases hclose : closeQuote false s with
      | some rest => exact closeQuote_suffix hclose
      | none => exact List.nil_suffix
    · split
      · exact List.drop_suffix 3 s
      · split
        · exact List.drop_suffix 4 s
        · split
          · exact List.suffix_rfl
          · split <;> exact List.suffix_rfl

theorem lexeme_shorter {t rest : Bytes} {k : Lexeme} (ht : 0 ∉ t) (h : lexeme t = (k, rest))
    (hk : k ≠ .ending) : Shorter rest t := by
  unfold lexeme at h
  cases hdrop : t.dropWhile isBlank with
  | nil =>
      rw [hdrop] at h
      exact absurd (Prod.mk.inj h).1.symm hk
  | cons c s =>
      rw [hdrop] at h
      have hlong : c :: s <:+ t := hdrop ▸ List.dropWhile_suffix _
      have hrest : rest <:+ s := by
        have hsuffix := lexemeAt_suffix c s
        change lexemeAt c s = (k, rest) at h
        rwa [h] at hsuffix
      have hlen := hlong.length_le
      rw [List.length_cons] at hlen
      have hall := hrest.trans ((List.suffix_cons c s).trans hlong)
      exact ⟨Nat.lt_of_le_of_lt hrest.length_le hlen, fun h0 => ht (hall.subset h0)⟩

/-! ## The parser at a token -/

section Parser

variable {δ : Type} (D : DoubleText δ)

/-- What the parser does at the first token of a text, whatever is behind the NUL. -/
def AtLexeme (t : Bytes) : Lexeme × Bytes → Prop
  | (.ending, _) => ∀ fuel, parse D (fuel + 1) (t ++ [0]) = .error (.fault .outOfBounds)
  | (.scalar, rest) => ∃ v : Json δ, (∀ s, v ≠ .string s) ∧
      ∀ fuel more, parse D (fuel + 1) (t ++ 0 :: more) = .ok (0, v, rest ++ 0 :: more)
  | (.string, rest) => ∃ s,
      ∀ fuel more, parse D (fuel + 1) (t ++ 0 :: more) = .ok (0, .string s, rest ++ 0 :: more)
  | (.unclosed, _) => ∃ s,
      ∀ fuel more, parse D (fuel + 1) (t ++ 0 :: more) = .ok (0, .string s, more)
  | (.mark c, rest) => isMark c = true ∧
      ∀ fuel more, parse D fuel (t ++ 0 :: more) = parse D fuel (c :: (rest ++ 0 :: more))
  | (.other, _) => ∃ message,
      ∀ fuel more, parse D (fuel + 1) (t ++ 0 :: more) = .error (.thrown message)

theorem parse_blanks {b : Bytes} (hb : ∀ c ∈ b, isBlank c = true) (fuel : Nat) (s : Bytes) :
    parse D fuel (b ++ s) = parse D fuel s := by
  cases fuel with
  | zero => rw [parse, parse]
  | succ fuel => rw [parse, parse, Token_blanks hb]

theorem atLexeme_number {c : UInt8} (hc : startsNumber c = true) (s : Bytes) :
    AtLexeme D (c :: s) (.scalar, s.dropWhile isNumberChar) := by
  have hall : ∀ x ∈ s.takeWhile isNumberChar, isNumberChar x = true :=
    fun x hx => List.mem_takeWhile_imp hx
  have htoken : ∀ more, Token (c :: s ++ 0 :: more) =
      .ok ⟨-(numberType (c :: s.takeWhile isNumberChar)).code, c :: s.takeWhile isNumberChar,
        numberType (c :: s.takeWhile isNumberChar), false,
        s.dropWhile isNumberChar ++ 0 :: more⟩ := by
    intro more
    obtain ⟨d, r, hd, hstop⟩ : ∃ d r, s.dropWhile isNumberChar ++ 0 :: more = d :: r ∧
        isNumberChar d = false := by
      cases hdrop : s.dropWhile isNumberChar with
      | nil => exact ⟨0, more, rfl, by decide⟩
      | cons d r =>
          have hhead := List.head?_dropWhile_not isNumberChar s
          rw [hdrop] at hhead
          exact ⟨d, r ++ 0 :: more, rfl, by simpa using hhead⟩
    have hsplit : c :: s ++ 0 :: more = c :: s.takeWhile isNumberChar ++ d :: r := by
      rw [← hd, List.cons_append, List.cons_append, ← List.append_assoc,
        List.takeWhile_append_dropWhile]
    rw [hsplit, Token_number hc hall hstop, hd]
  have htype : numberType (c :: s.takeWhile isNumberChar) = .real ∨
      numberType (c :: s.takeWhile isNumberChar) = .integer := by
    unfold numberType
    split <;> simp
  refine ⟨TokenResult.value D ⟨0, c :: s.takeWhile isNumberChar,
    numberType (c :: s.takeWhile isNumberChar), false, []⟩, ?_, fun fuel more => ?_⟩
  · intro x
    rcases htype with h | h <;> simp [TokenResult.value, h]
  · rcases htype with h | h <;> rw [parse_token (htoken more) rfl (by simp [h]) (by simp [h])] <;>
      simp [TokenResult.value, h]

theorem atLexeme_quote {s : Bytes} (h0 : 0 ∉ s) :
    AtLexeme D (34 :: s) (match closeQuote false s with
      | some rest => (.string, rest)
      | none => (.unclosed, [])) := by
  obtain ⟨ord, hscan⟩ := scanString_text h0 false
  cases hclose : closeQuote false s with
  | none =>
      refine ⟨decode ord, fun fuel more => ?_⟩
      have htoken := Token_string (by simpa [hclose] using hscan more)
      rw [List.cons_append, parse_token htoken rfl (by simp) (by simp)]
      rfl
  | some rest =>
      refine ⟨decode ord, fun fuel more => ?_⟩
      have htoken := Token_string (by simpa [hclose] using hscan more)
      rw [List.cons_append, parse_token htoken rfl (by simp) (by simp)]
      rfl

theorem atLexeme_literal {word s : Bytes} {m_type : JsonType} {m_b_value : Bool}
    (htoken : ∀ rest, Token (word ++ rest) =
      .ok ⟨-m_type.code, word, m_type, m_b_value, rest⟩)
    (htype : m_type = .unknown ∨ m_type = .boolean) (hpre : word <+: s) :
    AtLexeme D s (.scalar, s.drop word.length) := by
  obtain ⟨rest, rfl⟩ := hpre
  rw [List.drop_left]
  refine ⟨TokenResult.value D ⟨0, word, m_type, m_b_value, []⟩, ?_, fun fuel more => ?_⟩
  · intro x
    rcases htype with h | h <;> simp [TokenResult.value, h]
  · rw [List.append_assoc]
    rcases htype with h | h <;>
      rw [parse_token (htoken (rest ++ 0 :: more)) rfl (by simp [h]) (by simp [h])] <;>
      simp [TokenResult.value, h]

theorem signedChar_eq_iff (c d : UInt8) : signedChar c = signedChar d ↔ c = d := by
  constructor
  · intro h
    apply UInt8.toNat_inj.mp
    have hc := c.toNat_lt
    have hd := d.toNat_lt
    simp only [signedChar, UInt8.lt_iff_toNat_lt, UInt8.toNat_ofNat] at h
    split at h <;> split at h <;> omega
  · exact fun h => h ▸ rfl

/-- The characters whose signed value is that of a kind of value. -/
theorem isTypeCode_iff (c : UInt8) : isTypeCode c = true ↔
    (signedChar c = -JsonType.real.code ∨ signedChar c = -JsonType.integer.code ∨
      signedChar c = -JsonType.string.code ∨ signedChar c = -JsonType.unknown.code ∨
      signedChar c = -JsonType.boolean.code) := by
  have hlt := c.toNat_lt
  simp only [isTypeCode, decide_eq_true_eq, UInt8.le_iff_toNat_le, UInt8.toNat_ofNat, signedChar,
    UInt8.lt_iff_toNat_lt, JsonType.code]
  split <;> omega

theorem parse_typeCode {c : UInt8} {t s : Bytes} (hcode : isTypeCode c = true)
    (htoken : Token t = .ok ⟨signedChar c, [], .unknown, false, s⟩) (fuel : Nat) :
    parse D (fuel + 1) t = .ok (0, .unknown, s) := by
  rw [parse, htoken]
  exact if_pos ((isTypeCode_iff c).mp hcode)

/-- A character that no value and no mark starts with. -/
theorem parse_other {c : UInt8} {t s : Bytes} (hcode : ¬ isTypeCode c = true)
    (hmark : ¬ isMark c = true)
    (htoken : Token t = .ok ⟨signedChar c, [], .unknown, false, s⟩) (fuel : Nat) :
    parse D (fuel + 1) t =
      (cString s).bind (throwText "Can't parse Json representation: ".toList) := by
  have hne : ∀ d : UInt8, isMark d = true → signedChar c ≠ signedChar d := by
    intro d hd h
    rw [(signedChar_eq_iff c d).mp h] at hmark
    exact hmark hd
  have h91 : signedChar c ≠ 91 := hne 91 rfl
  have h93 : signedChar c ≠ 93 := hne 93 rfl
  have h123 : signedChar c ≠ 123 := hne 123 rfl
  have h125 : signedChar c ≠ 125 := hne 125 rfl
  have h44 : signedChar c ≠ 44 := hne 44 rfl
  have h58 : signedChar c ≠ 58 := hne 58 rfl
  rw [parse, htoken]
  simp only [bind, Except.bind]
  rw [if_neg (mt (isTypeCode_iff c).mpr hcode), if_neg h91, if_neg h93, if_neg h123, if_neg h125,
    if_neg h44, if_neg h58]

theorem atLexeme_typeCode {c : UInt8} {s : Bytes} (hcode : isTypeCode c = true)
    (htoken : ∀ more, Token (c :: s ++ 0 :: more) =
      .ok ⟨signedChar c, [], .unknown, false, s ++ 0 :: more⟩) :
    AtLexeme D (c :: s) (.scalar, s) :=
  ⟨.unknown, by simp, fun fuel more => parse_typeCode D hcode (htoken more) fuel⟩

theorem atLexeme_mark {c : UInt8} (h : isMark c = true) (s : Bytes) :
    AtLexeme D (c :: s) (.mark c, s) := by
  refine ⟨h, fun fuel more => ?_⟩
  rw [List.cons_append]

theorem atLexeme_other {c : UInt8} {s : Bytes} (hs : 0 ∉ s)
    (hcode : isTypeCode c = false) (hmark : isMark c = false)
    (htoken : ∀ more, Token (c :: s ++ 0 :: more) =
      .ok ⟨signedChar c, [], .unknown, false, s ++ 0 :: more⟩) :
    AtLexeme D (c :: s) (.other, s) := by
  refine ⟨ascii "Can't parse Json representation: ".toList ++ s, fun fuel more => ?_⟩
  have hrest : cString (s ++ 0 :: more) = .ok s := by
    have hstop : s.takeWhile (· ≠ 0) = s :=
      List.takeWhile_eq_self_iff.mpr fun x hx => by simpa using fun e : x = 0 => hs (e ▸ hx)
    rw [cString, if_pos (by simp), List.takeWhile_append_of_pos fun x hx => by
      simpa using fun e : x = 0 => hs (e ▸ hx)]
    simp
  rw [parse_other D (by rw [hcode]; decide) (by rw [hmark]; decide) (htoken more) fuel, hrest]
  rfl

theorem atLexemeAt {c : UInt8} {s : Bytes} (hs : 0 ∉ s) (hblank : isBlank c = false) :
    AtLexeme D (c :: s) (lexemeAt c s) := by
  unfold lexemeAt
  by_cases hnumber : startsNumber c = true
  · rw [if_pos hnumber]
    exact atLexeme_number D hnumber s
  rw [if_neg hnumber]
  by_cases hquote : c = 34
  · rw [if_pos hquote, hquote]
    exact atLexeme_quote D hs
  rw [if_neg hquote]
  by_cases hnull : nullText <+: c :: s
  · rw [if_pos (.inl hnull)]
    exact atLexeme_literal D Token_null (.inl rfl) hnull
  by_cases htrue : trueText <+: c :: s
  · rw [if_pos (.inr htrue)]
    exact atLexeme_literal D Token_true (.inr rfl) htrue
  rw [if_neg (not_or.mpr ⟨hnull, htrue⟩)]
  by_cases hfalse : falseText <+: c :: s
  · rw [if_pos hfalse]
    exact atLexeme_literal D Token_false (.inr rfl) hfalse
  rw [if_neg hfalse]
  have htoken : ∀ more, Token (c :: s ++ 0 :: more) =
      .ok ⟨signedChar c, [], .unknown, false, s ++ 0 :: more⟩ := by
    intro more
    exact Token_char hblank (Bool.not_eq_true _ ▸ hnumber) hquote
      (mt (prefix_text_iff (by decide) (c :: s) more).mp hnull)
      (mt (prefix_text_iff (by decide) (c :: s) more).mp htrue)
      (mt (prefix_text_iff (by decide) (c :: s) more).mp hfalse)
  by_cases hcode : isTypeCode c = true
  · rw [if_pos hcode]
    exact atLexeme_typeCode D hcode htoken
  rw [if_neg hcode]
  by_cases hmark : isMark c = true
  · rw [if_pos hmark]
    exact atLexeme_mark D hmark s
  rw [if_neg hmark]
  exact atLexeme_other D hs (by simpa using hcode) (by simpa using hmark) htoken

/-- Blanks before a token do not matter. -/
theorem AtLexeme.blanks {b t : Bytes} {k : Lexeme × Bytes} (hb : ∀ c ∈ b, isBlank c = true)
    (h : AtLexeme D t k) : AtLexeme D (b ++ t) k := by
  have hskip : ∀ fuel more, parse D fuel (b ++ t ++ 0 :: more) = parse D fuel (t ++ 0 :: more) :=
    fun fuel more => by rw [List.append_assoc, parse_blanks D hb]
  obtain ⟨kind, rest⟩ := k
  cases kind <;> simpa only [AtLexeme, hskip] using h

/-- The parser at the first token of any text. -/
theorem atLexeme {t : Bytes} (ht : 0 ∉ t) : AtLexeme D t (lexeme t) := by
  have hb : ∀ c ∈ t.takeWhile isBlank, isBlank c = true := fun c hc => List.mem_takeWhile_imp hc
  have hsplit := List.takeWhile_append_dropWhile (p := isBlank) (l := t)
  rw [← hsplit] at ht
  rw [lexeme]
  cases hdrop : t.dropWhile isBlank with
  | nil =>
      rw [hdrop, List.append_nil] at hsplit
      intro fuel
      rw [← hsplit, parse_blanks D hb]
      rfl
  | cons c s =>
      rw [hdrop] at hsplit ht
      rw [List.mem_append, List.mem_cons, not_or, not_or] at ht
      have hhead := List.head?_dropWhile_not isBlank t
      rw [hdrop] at hhead
      have hc := atLexemeAt D ht.2.2 (by simpa using hhead)
      have hall := hc.blanks D hb
      rwa [hsplit] at hall

end Parser

end Json

end CommonCc
