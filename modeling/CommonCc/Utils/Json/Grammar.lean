import CommonCc.Utils.Json.Lexemes

/-!
# The grammar of JSON

`Denotes` is the grammar, with the tree that each text denotes.  `Reads` is what the parser
takes for a value; `clean` says whether the reading uses only what the grammar has.
-/

namespace CommonCc

namespace Json

variable {δ : Type}

/-! ## Texts and what they denote -/

def Blanks (b : Bytes) : Prop := ∀ c ∈ b, isBlank c = true

def IsDigits (ds : Bytes) : Prop := ds ≠ [] ∧ ∀ d ∈ ds, isDigit d = true

inductive IsInteger : Bytes → Prop where
  | plain {ds : Bytes} (h : IsDigits ds) : IsInteger ds
  | minus {ds : Bytes} (h : IsDigits ds) : IsInteger (45 :: ds)

inductive IsReal : Bytes → Prop where
  | mk {whole frac : Bytes} (h : IsInteger whole) (hfrac : IsDigits frac) :
      IsReal (whole ++ 46 :: frac)

/-- What stands between the quotes of a string. -/
inductive StringBody : Bytes → Prop where
  | nil : StringBody []
  | plain {c : UInt8} {body : Bytes} (hnul : c ≠ 0) (hquote : c ≠ 34) (hslash : c ≠ 92)
      (h : StringBody body) : StringBody (c :: body)
  | escape {c : UInt8} {body : Bytes} (hnul : c ≠ 0) (h : StringBody body) :
      StringBody (92 :: c :: body)

/-- A value, or what stands between brackets: values, or pairs of a name and a value. -/
inductive Part (δ : Type) where
  | value (v : Json δ)
  | elements (l : List (Json δ))
  | members (l : List (Bytes × Json δ))

/-- The text of a value without blanks around it, or of what stands between brackets.  The last
member of a name counts. -/
inductive Denotes (D : DoubleText δ) : Part δ → Bytes → Prop where
  | null : Denotes D (.value .unknown) nullText
  | true : Denotes D (.value (.boolean true)) trueText
  | false : Denotes D (.value (.boolean false)) falseText
  | integer {n : Bytes} (h : IsInteger n) : Denotes D (.value (.integer (atoi n))) n
  | real {n : Bytes} (h : IsReal n) : Denotes D (.value (.real (D.atof n))) n
  | string {body : Bytes} (h : StringBody body) :
      Denotes D (.value (.string (decode body))) (34 :: (body ++ [34]))
  | emptyArray {b : Bytes} (hb : Blanks b) : Denotes D (.value (.array [])) (91 :: (b ++ [93]))
  | array {l : List (Json δ)} {g : Bytes} (h : Denotes D (.elements l) g) :
      Denotes D (.value (.array l)) (91 :: (g ++ [93]))
  | emptyObject {b : Bytes} (hb : Blanks b) :
      Denotes D (.value (.object [])) (123 :: (b ++ [125]))
  | object {l : List (Bytes × Json δ)} {g : Bytes} (h : Denotes D (.members l) g) :
      Denotes D (.value (.object (l.foldl (fun m p => insertOrAssign p.1 p.2 m) [])))
        (123 :: (g ++ [125]))
  | lastElement {v : Json δ} {b g b' : Bytes} (hb : Blanks b) (h : Denotes D (.value v) g)
      (hb' : Blanks b') : Denotes D (.elements [v]) (b ++ (g ++ b'))
  | element {v : Json δ} {l : List (Json δ)} {b g b' g' : Bytes} (hb : Blanks b)
      (h : Denotes D (.value v) g) (hb' : Blanks b') (hl : Denotes D (.elements l) g') :
      Denotes D (.elements (v :: l)) (b ++ (g ++ (b' ++ 44 :: g')))
  | lastMember {body : Bytes} {v : Json δ} {b b' b'' g b₃ : Bytes} (hb : Blanks b)
      (hbody : StringBody body) (hb' : Blanks b') (hb'' : Blanks b'') (h : Denotes D (.value v) g)
      (hb₃ : Blanks b₃) :
      Denotes D (.members [(decode body, v)])
        (b ++ 34 :: (body ++ 34 :: (b' ++ 58 :: (b'' ++ (g ++ b₃)))))
  | member {body : Bytes} {v : Json δ} {l : List (Bytes × Json δ)} {b b' b'' g b₃ g' : Bytes}
      (hb : Blanks b) (hbody : StringBody body) (hb' : Blanks b') (hb'' : Blanks b'')
      (h : Denotes D (.value v) g) (hb₃ : Blanks b₃) (hl : Denotes D (.members l) g') :
      Denotes D (.members ((decode body, v) :: l))
        (b ++ 34 :: (body ++ 34 :: (b' ++ 58 :: (b'' ++ (g ++ (b₃ ++ 44 :: g'))))))

/-! ## Tokens of a buffer -/

/-- A token that the parser takes for a value, or a bracket, comma or colon. -/
inductive Tok (δ : Type) where
  | value (clean : Bool) (v : Json δ)
  | mark (c : UInt8)

def unsigned : Bytes → Bytes
  | [] => []
  | c :: n => if c = 45 then n else c :: n

def digits (ds : Bytes) : Bool := ds ≠ [] && ds.all isDigit

/-- A number of JSON. -/
def strictNumber (n : Bytes) : Bool :=
  digits ((unsigned n).takeWhile isDigit) &&
    match (unsigned n).dropWhile isDigit with
    | [] => true
    | c :: frac => c = 46 && digits frac

def numberValue (D : DoubleText δ) (n : Bytes) : Json δ :=
  if 46 ∈ n then .real (D.atof n) else .integer (atoi n)

/-- The token that starts with `c`.  Digits and dots in any order pass for a number, the NUL for
the closing quote, and a character whose code is that of a type for a value. -/
def lexAt (D : DoubleText δ) (c : UInt8) (s : Bytes) : Option (Tok δ × Bytes) :=
  if startsNumber c then
    match s.dropWhile isNumberChar with
    | [] => none
    | d :: rest =>
        let n := c :: s.takeWhile isNumberChar
        some (.value (strictNumber n) (numberValue D n), d :: rest)
  else if c = 34 then
    match scanString false s with
    | .ok (body, q :: rest) => some (.value (q = 34) (.string (decode body)), rest)
    | _ => none
  else if nullText <+: c :: s then some (.value true .unknown, s.drop 3)
  else if trueText <+: c :: s then some (.value true (.boolean true), s.drop 3)
  else if falseText <+: c :: s then some (.value true (.boolean false), s.drop 4)
  else if isTypeCode c then some (.value false .unknown, s)
  else if isMark c then some (.mark c, s)
  else none

def lex (D : DoubleText δ) (t : Bytes) : Option (Tok δ × Bytes) :=
  match t.dropWhile isBlank with
  | [] => none
  | c :: s => lexAt D c s

/-! ## Lenient readings -/

/-- What stands in front of a place in an array or an object: the bracket, an element or a
comma. -/
inductive Prev where
  | bracket
  | item
  | comma
deriving DecidableEq

/-- What is read: a value, or the rest of an array or an object with its closing bracket. -/
inductive Task (δ : Type) where
  | value (v : Json δ)
  | elements (prev : Prev) (l : List (Json δ))
  | members (prev : Prev) (l : List (Bytes × Json δ))

/-- A buffer is read up to `rest`.  Commas may be missing, repeated or left over. -/
inductive Reads (D : DoubleText δ) : (clean : Bool) → Task δ → Bytes → Bytes → Prop where
  | scalar {clean : Bool} {v : Json δ} {t rest : Bytes}
      (h : lex D t = some (.value clean v, rest)) : Reads D clean (.value v) t rest
  | array {clean : Bool} {l : List (Json δ)} {t s rest : Bytes}
      (h : lex D t = some (.mark 91, s)) (hs : Reads D clean (.elements .bracket l) s rest) :
      Reads D clean (.value (.array l)) t rest
  | object {clean : Bool} {l : List (Bytes × Json δ)} {t s rest : Bytes}
      (h : lex D t = some (.mark 123, s)) (hs : Reads D clean (.members .bracket l) s rest) :
      Reads D clean (.value (.object (l.foldl (fun m p => insertOrAssign p.1 p.2 m) []))) t rest
  | arrayClose {prev : Prev} {t rest : Bytes} (h : lex D t = some (.mark 93, rest)) :
      Reads D (prev ≠ .comma) (.elements prev []) t rest
  | arrayComma {clean : Bool} {prev : Prev} {l : List (Json δ)} {t s rest : Bytes}
      (h : lex D t = some (.mark 44, s)) (hs : Reads D clean (.elements .comma l) s rest) :
      Reads D (prev = .item && clean) (.elements prev l) t rest
  | element {clean clean' : Bool} {prev : Prev} {v : Json δ} {l : List (Json δ)}
      {t s rest : Bytes} (h : Reads D clean (.value v) t s)
      (hs : Reads D clean' (.elements .item l) s rest) :
      Reads D (prev ≠ .item && (clean && clean')) (.elements prev (v :: l)) t rest
  | objectClose {prev : Prev} {t rest : Bytes} (h : lex D t = some (.mark 125, rest)) :
      Reads D (prev ≠ .comma) (.members prev []) t rest
  | objectComma {clean : Bool} {prev : Prev} {l : List (Bytes × Json δ)} {t s rest : Bytes}
      (h : lex D t = some (.mark 44, s)) (hs : Reads D clean (.members .comma l) s rest) :
      Reads D (prev = .item && clean) (.members prev l) t rest
  | member {clean clean' clean'' : Bool} {prev : Prev} {name : Bytes} {v : Json δ}
      {l : List (Bytes × Json δ)} {t s s' s'' rest : Bytes}
      (h : lex D t = some (.value clean (.string name), s))
      (hcolon : lex D s = some (.mark 58, s')) (hv : Reads D clean' (.value v) s' s'')
      (hs : Reads D clean'' (.members .item l) s'' rest) :
      Reads D (prev ≠ .item && (clean && (clean' && clean'')))
        (.members prev ((name, v) :: l)) t rest

/-! ## The parser at a token -/

section Tokens

variable {D : DoubleText δ}

theorem exists_blanks (t : Bytes) : ∃ b, Blanks b ∧ t = b ++ t.dropWhile isBlank :=
  ⟨t.takeWhile isBlank, fun _ hc => List.mem_takeWhile_imp hc,
    List.takeWhile_append_dropWhile.symm⟩

theorem lex_blanks {b : Bytes} (hb : Blanks b) (t : Bytes) : lex D (b ++ t) = lex D t := by
  rw [lex, lex, List.dropWhile_append_of_pos hb]

theorem lex_cons {c : UInt8} (hc : isBlank c = false) (s : Bytes) : lex D (c :: s) = lexAt D c s := by
  rw [lex, List.dropWhile_cons_of_neg (by simp [hc])]

theorem scanString_spec {ign : Bool} {s body rest : Bytes}
    (h : scanString ign s = .ok (body, rest)) : s = body ++ rest ∧ rest ≠ [] := by
  induction s generalizing ign body rest with
  | nil => cases h
  | cons c s ih =>
      rw [scanString] at h
      split at h
      · cases hs : scanString (if ign = true then false else decide (c = 92)) s with
        | error e => rw [hs] at h; cases h
        | ok r =>
            rw [hs] at h
            cases h
            have hr := @ih _ r.1 r.2 hs
            exact ⟨by rw [List.cons_append, ← hr.1], hr.2⟩
      · cases h
        exact ⟨rfl, List.cons_ne_nil _ _⟩

theorem lexAt_shorter {c : UInt8} {s rest : Bytes} {k : Tok δ} (h : lexAt D c s = some (k, rest)) :
    rest.length ≤ s.length := by
  unfold lexAt at h
  split at h
  · have hle := (List.dropWhile_suffix isNumberChar (l := s)).length_le
    cases hdrop : s.dropWhile isNumberChar with
    | nil => rw [hdrop] at h; cases h
    | cons d r =>
        rw [hdrop] at h hle
        cases h
        exact hle
  split at h
  · cases hscan : scanString false s with
    | error e => rw [hscan] at h; cases h
    | ok r =>
        cases r with
        | mk body tail =>
            rw [hscan] at h
            cases tail with
            | nil => cases h
            | cons q tail =>
                cases h
                rw [(scanString_spec hscan).1, List.length_append, List.length_cons]
                omega
  repeat' split at h
  all_goals cases h
  all_goals simp

theorem lex_shorter {t rest : Bytes} {k : Tok δ} (h : lex D t = some (k, rest)) :
    rest.length < t.length := by
  unfold lex at h
  have hle := (List.dropWhile_suffix isBlank (l := t)).length_le
  cases hdrop : t.dropWhile isBlank with
  | nil => rw [hdrop] at h; cases h
  | cons c s =>
      rw [hdrop] at h hle
      have hs := lexAt_shorter h
      rw [List.length_cons] at hle
      omega

/-- What `parse` does at a token. -/
def ParsesAs (D : DoubleText δ) (t : Bytes) : Option (Tok δ × Bytes) → Prop
  | some (.value _ v, rest) => ∀ fuel, parse D (fuel + 1) t = .ok (0, v, rest)
  | some (.mark c, rest) => isMark c = true ∧ ∀ fuel, parse D fuel t = parse D fuel (c :: rest)
  | none => ∀ fuel, ∃ e, parse D (fuel + 1) t = .error e

theorem parse_of_Token_error {t : Bytes} {e : Stop} (h : Token t = .error e) (fuel : Nat) :
    parse D (fuel + 1) t = .error e := by
  rw [parse, h]
  rfl

theorem numberValue_eq (n : Bytes) : numberValue D n =
    TokenResult.value D ⟨-(numberType n).code, n, numberType n, false, []⟩ := by
  unfold numberValue numberType TokenResult.value
  split <;> rfl

theorem parsesAs_number {c : UInt8} (hc : startsNumber c = true) (s : Bytes) :
    ParsesAs D (c :: s) (lexAt D c s) := by
  rw [lexAt, if_pos hc]
  cases hdrop : s.dropWhile isNumberChar with
  | nil =>
      intro fuel
      exists .fault .outOfBounds
      apply parse_of_Token_error
      have hstart : c = 45 ∨ isDigit c = true := by simpa [startsNumber] using hc
      rw [Token_cons (not_blank_of_startsNumber hc), tokenAt, if_pos hstart]
      by_cases h45 : c = 45
      · simp only [h45, if_true, hdrop]
      · have hnumber := isNumberChar_of_isDigit (hstart.resolve_left h45)
        simp only [h45, if_false, List.dropWhile_cons_of_pos hnumber, hdrop]
  | cons d rest =>
      intro fuel
      have hd : isNumberChar d = false := by
        have hhead := List.head?_dropWhile_not isNumberChar s
        rw [hdrop] at hhead
        simpa using hhead
      have hchars : ∀ x ∈ s.takeWhile isNumberChar, isNumberChar x = true :=
        fun x hx => List.mem_takeWhile_imp hx
      have hsplit : c :: s = c :: s.takeWhile isNumberChar ++ d :: rest := by
        rw [← hdrop, List.cons_append, List.takeWhile_append_dropWhile]
      have htoken := @Token_number c d _ rest hc hchars hd
      rw [← hsplit] at htoken
      have htype : ∀ n, numberType n ≠ .array ∧ numberType n ≠ .object := by
        intro n
        unfold numberType
        split <;> decide
      rw [parse_token htoken rfl (htype _).1 (htype _).2, numberValue_eq]
      rfl

theorem parsesAs_quote (s : Bytes) : ParsesAs D (34 :: s) (lexAt D 34 s) := by
  rw [lexAt, if_neg (by decide), if_pos rfl]
  cases hscan : scanString false s with
  | error e =>
      intro fuel
      exists e
      apply parse_of_Token_error
      rw [Token_cons (by decide), tokenAt, if_neg (by decide), if_pos rfl, hscan]
      rfl
  | ok r =>
      cases r with
      | mk body tail =>
          cases tail with
          | nil => exact absurd rfl (scanString_spec hscan).2
          | cons q rest =>
              intro fuel
              rw [parse_token (Token_string hscan) rfl (by simp) (by simp)]
              rfl

theorem parsesAs_word {word t : Bytes} {m_type : JsonType} {m_b_value : Bool}
    (htoken : ∀ rest, Token (word ++ rest) =
      .ok ⟨-m_type.code, word, m_type, m_b_value, rest⟩)
    (htype : m_type = .unknown ∨ m_type = .boolean) (hpre : word <+: t) (clean : Bool) :
    ParsesAs D t (some (.value clean
      (TokenResult.value D ⟨-m_type.code, word, m_type, m_b_value, []⟩), t.drop word.length)) := by
  cases hpre with
  | intro rest ht =>
      intro fuel
      rw [← ht, List.drop_left]
      cases htype with
      | inl h => rw [parse_token (htoken rest) rfl (by simp [h]) (by simp [h])]; rfl
      | inr h => rw [parse_token (htoken rest) rfl (by simp [h]) (by simp [h])]; rfl

/-- The token of a character that starts no other token. -/
theorem parsesAs_char {c : UInt8} {s : Bytes}
    (htoken : Token (c :: s) = .ok ⟨signedChar c, [], .unknown, false, s⟩) :
    ParsesAs D (c :: s) (if isTypeCode c then some (.value false .unknown, s)
      else if isMark c then some (.mark c, s) else none) := by
  split
  · next hcode => exact parse_typeCode D hcode htoken
  · next hcode =>
      split
      · next hmark => exact ⟨hmark, fun _ => rfl⟩
      · next hmark =>
          intro fuel
          rw [parse_other D hcode hmark htoken fuel]
          cases cString s with
          | error e => exact ⟨e, rfl⟩
          | ok rest => exact ⟨_, rfl⟩

theorem parsesAs_lexAt {c : UInt8} (hblank : isBlank c = false) (s : Bytes) :
    ParsesAs D (c :: s) (lexAt D c s) := by
  by_cases hnumber : startsNumber c = true
  · exact parsesAs_number hnumber s
  by_cases hquote : c = 34
  · rw [hquote]
    exact parsesAs_quote s
  rw [lexAt, if_neg hnumber, if_neg hquote]
  by_cases hnull : nullText <+: c :: s
  · rw [if_pos hnull]
    exact parsesAs_word Token_null (.inl rfl) hnull true
  rw [if_neg hnull]
  by_cases htrue : trueText <+: c :: s
  · rw [if_pos htrue]
    exact parsesAs_word Token_true (.inr rfl) htrue true
  rw [if_neg htrue]
  by_cases hfalse : falseText <+: c :: s
  · rw [if_pos hfalse]
    exact parsesAs_word Token_false (.inr rfl) hfalse true
  rw [if_neg hfalse]
  exact parsesAs_char (Token_char hblank (by simpa using hnumber) hquote hnull htrue hfalse)

theorem parsesAs_lex (t : Bytes) : ParsesAs D t (lex D t) := by
  obtain ⟨b, hb, ht⟩ := exists_blanks t
  rw [lex]
  cases hdrop : t.dropWhile isBlank with
  | nil =>
      intro fuel
      exact ⟨_, parse_of_Token_error (by rw [Token, hdrop]) fuel⟩
  | cons c s =>
      have hhead := List.head?_dropWhile_not isBlank t
      rw [hdrop] at hhead ht
      have hparse := parsesAs_lexAt (D := D) (c := c) (by simpa using hhead) s
      have hskip : ∀ fuel, parse D fuel t = parse D fuel (c :: s) := by
        intro fuel
        rw [ht, parse_blanks D hb]
      show ParsesAs D t (lexAt D c s)
      generalize lexAt D c s = r at hparse ⊢
      cases r with
      | none => exact fun fuel => (hparse fuel).imp fun e he => (hskip _).trans he
      | some k =>
          cases k with
          | mk tok rest =>
              cases tok with
              | value _ _ => exact fun fuel => (hskip _).trans (hparse fuel)
              | mark _ => exact ⟨hparse.1, fun fuel => (hskip fuel).trans (hparse.2 fuel)⟩

end Tokens

end Json

end CommonCc
