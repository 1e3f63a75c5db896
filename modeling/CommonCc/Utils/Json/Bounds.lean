import CommonCc.Utils.Json.Lexemes

/-!
# Texts that end too early

A parse leaves its buffer on exactly one kind of text: one that is unfinished, where
the parser still asks for a token behind the end.
-/

namespace CommonCc

namespace Json

/-- What the parser is reading: a value, the elements of an array, or the members of an
object in one of the three states. -/
inductive Place where
  | value
  | array
  | name
  | colon
  | content
deriving DecidableEq

/-- A text that is read up to `rest`. -/
inductive Complete : Place → Bytes → Bytes → Prop where
  | scalar {t rest : Bytes} (h : lexeme t = (.scalar, rest)) : Complete .value t rest
  | string {t rest : Bytes} (h : lexeme t = (.string, rest)) : Complete .value t rest
  | array {t s rest : Bytes} (h : lexeme t = (.mark 91, s)) (hs : Complete .array s rest) :
      Complete .value t rest
  | object {t s rest : Bytes} (h : lexeme t = (.mark 123, s)) (hs : Complete .name s rest) :
      Complete .value t rest
  | arrayClose {t rest : Bytes} (h : lexeme t = (.mark 93, rest)) : Complete .array t rest
  | arrayComma {t s rest : Bytes} (h : lexeme t = (.mark 44, s)) (hs : Complete .array s rest) :
      Complete .array t rest
  | element {t s rest : Bytes} (h : Complete .value t s) (hs : Complete .array s rest) :
      Complete .array t rest
  | objectClose {t rest : Bytes} (h : lexeme t = (.mark 125, rest)) : Complete .name t rest
  | objectComma {t s rest : Bytes} (h : lexeme t = (.mark 44, s)) (hs : Complete .name s rest) :
      Complete .name t rest
  | name {t s rest : Bytes} (h : lexeme t = (.string, s)) (hs : Complete .colon s rest) :
      Complete .name t rest
  | colon {t s rest : Bytes} (h : lexeme t = (.mark 58, s)) (hs : Complete .content s rest) :
      Complete .colon t rest
  | content {t s rest : Bytes} (h : Complete .value t s) (hs : Complete .name s rest) :
      Complete .content t rest

/-- A text that ends where another token is wanted: nothing but blanks is left, or a string
without its closing quote takes the end of the text inside an array or an object. -/
inductive Unfinished : Place → Bytes → Prop where
  | ending {p : Place} {t s : Bytes} (h : lexeme t = (.ending, s)) : Unfinished p t
  | unclosed {p : Place} {t s : Bytes} (hvalue : p ≠ .value) (hcolon : p ≠ .colon)
      (h : lexeme t = (.unclosed, s)) : Unfinished p t
  | array {p : Place} {t s : Bytes} (h : lexeme t = (.mark 91, s)) (hs : Unfinished .array s) :
      Unfinished p t
  | object {p : Place} {t s : Bytes} (h : lexeme t = (.mark 123, s)) (hs : Unfinished .name s) :
      Unfinished p t
  | arrayComma {t s : Bytes} (h : lexeme t = (.mark 44, s)) (hs : Unfinished .array s) :
      Unfinished .array t
  | element {t s : Bytes} (h : Complete .value t s) (hs : Unfinished .array s) :
      Unfinished .array t
  | objectComma {t s : Bytes} (h : lexeme t = (.mark 44, s)) (hs : Unfinished .name s) :
      Unfinished .name t
  | name {t s : Bytes} (h : lexeme t = (.string, s)) (hs : Unfinished .colon s) :
      Unfinished .name t
  | colon {t s : Bytes} (h : lexeme t = (.mark 58, s)) (hs : Unfinished .content s) :
      Unfinished .colon t
  | content {t s : Bytes} (h : Complete .value t s) (hs : Unfinished .name s) :
      Unfinished .content t

theorem Unfinished.of_value {t : Bytes} (h : Unfinished .value t) (p : Place) :
    Unfinished p t := by
  cases h with
  | ending h => exact .ending h
  | unclosed hvalue _ _ => exact absurd rfl hvalue
  | array h hs => exact .array h hs
  | object h hs => exact .object h hs

theorem Complete.shorter {p : Place} {t rest : Bytes} (h : Complete p t rest) (ht : 0 ∉ t) :
    Shorter rest t := by
  have hmark : ∀ {t s rest : Bytes} {k : Lexeme}, 0 ∉ t → lexeme t = (k, s) → k ≠ .ending →
      (0 ∉ s → Shorter rest s) → Shorter rest t := by
    intro t s rest k ht hl hk hs
    have hfirst := lexeme_shorter ht hl hk
    have hlast := hs hfirst.text
    exact ⟨hlast.length_lt.trans hfirst.length_lt, hlast.text⟩
  induction h with
  | scalar h => exact lexeme_shorter ht h (by simp)
  | string h => exact lexeme_shorter ht h (by simp)
  | arrayClose h => exact lexeme_shorter ht h (by simp)
  | objectClose h => exact lexeme_shorter ht h (by simp)
  | array h _ ih => exact hmark ht h (by simp) ih
  | object h _ ih => exact hmark ht h (by simp) ih
  | arrayComma h _ ih => exact hmark ht h (by simp) ih
  | objectComma h _ ih => exact hmark ht h (by simp) ih
  | name h _ ih => exact hmark ht h (by simp) ih
  | colon h _ ih => exact hmark ht h (by simp) ih
  | element _ _ ih ihs =>
      have hfirst := ih ht
      have hlast := ihs hfirst.text
      exact ⟨hlast.length_lt.trans hfirst.length_lt, hlast.text⟩
  | content _ _ ih ihs =>
      have hfirst := ih ht
      have hlast := ihs hfirst.text
      exact ⟨hlast.length_lt.trans hfirst.length_lt, hlast.text⟩

/-! ## One turn of a loop -/

variable {δ : Type} {D : DoubleText δ}

/-- What the loops have collected. -/
structure Collected (δ : Type) where
  m_array : List (Json δ)
  element_name : Bytes
  m_object : List (Bytes × Json δ)

/-- The part of the parser that reads a place. -/
def parseAt (D : DoubleText δ) (p : Place) (a : Collected δ) (fuel : Nat) (index : Bytes) :
    Except Stop (UInt8 × Json δ × Bytes) :=
  match p with
  | .value => parse D fuel index
  | .array => parseArray D fuel index a.m_array
  | .name => parseObject D fuel index 0 a.element_name a.m_object
  | .colon => parseObject D fuel index 1 a.element_name a.m_object
  | .content => parseObject D fuel index 2 a.element_name a.m_object

/-- The steps that are enough for a text. -/
def Place.steps : Place → Bytes → Nat
  | .value, t => 2 * t.length + 1
  | _, t => 2 * t.length + 2

/-- What a loop does with a value or a mark that the parser returned: the place it goes on at
and what it has collected, or the result of the loop. -/
def turn (p : Place) (a : Collected δ) (res : UInt8) (o : Json δ) (index : Bytes) :
    (Place × Collected δ) ⊕ Except Stop (UInt8 × Json δ × Bytes) :=
  match p with
  | .value => .inr (.ok (res, o, index))
  | .array =>
      if res = 0 then .inl (.array, { a with m_array := a.m_array ++ [o] })
      else if res = 93 then .inr (.ok (0, .array a.m_array, index))
      else if res = 44 then .inl (.array, a)
      else .inr (throwText "Unexpected end of Array: ".toList [res])
  | .name =>
      if res = 44 then .inl (.name, a)
      else if res = 125 then .inr (.ok (0, .object a.m_object, index))
      else
        match res, o with
        | 0, .string s => .inl (.colon, { a with element_name := s })
        | _, _ => .inr (throwText "Object element name missing".toList [])
  | .colon =>
      if res ≠ 58 then .inr (throwText "Object element separator missing".toList [])
      else .inl (.content, a)
  | .content =>
      if res ≠ 0 then .inr (throwText "Unexpected character when parsing anytype: ".toList [res])
      else .inl (.name, { a with m_object := insertOrAssign a.element_name o a.m_object })

theorem parseAt_ok {p : Place} (hp : p ≠ .value) (a : Collected δ) {fuel : Nat}
    {index rest : Bytes} {res : UInt8} {o : Json δ}
    (h : parse D fuel index = .ok (res, o, rest)) :
    parseAt D p a (fuel + 1) index =
      match turn p a res o rest with
      | .inl (p', a') => parseAt D p' a' fuel rest
      | .inr r => r := by
  cases p with
  | value => exact absurd rfl hp
  | array =>
      rw [parseAt, parseArray, h]
      by_cases h0 : res = 0
      · simp [bind, Except.bind, turn, parseAt, h0]
      · by_cases h93 : res = 93
        · simp [bind, Except.bind, pure, Except.pure, turn, h93]
        · by_cases h44 : res = 44
          · simp [bind, Except.bind, turn, parseAt, h44]
          · simp [bind, Except.bind, turn, h0, h93, h44]
  | name =>
      rw [parseAt, parseObject, h]
      by_cases h44 : res = 44
      · simp [bind, Except.bind, turn, parseAt, h44]
      · by_cases h125 : res = 125
        · simp [bind, Except.bind, pure, Except.pure, turn, h125]
        · by_cases h0 : res = 0
          · cases o <;> simp [bind, Except.bind, turn, parseAt, h0]
          · simp [bind, Except.bind, turn, h44, h125, h0]
  | colon =>
      rw [parseAt, parseObject, h]
      by_cases h58 : res = 58
      · simp [bind, Except.bind, turn, parseAt, h58]
      · simp [bind, Except.bind, turn, h58]
  | content =>
      rw [parseAt, parseObject, h]
      by_cases h0 : res = 0
      · simp [bind, Except.bind, turn, parseAt, h0]
      · simp [bind, Except.bind, turn, h0]

theorem parseAt_error {p : Place} (hp : p ≠ .value) (a : Collected δ) {fuel : Nat}
    {index : Bytes} {e : Stop} (h : parse D fuel index = .error e) :
    parseAt D p a (fuel + 1) index = .error e := by
  cases p with
  | value => exact absurd rfl hp
  | array => rw [parseAt, parseArray, h]; rfl
  | name => rw [parseAt, parseObject, h]; rfl
  | colon => rw [parseAt, parseObject, h]; rfl
  | content => rw [parseAt, parseObject, h]; rfl

/-! ## Results that do not depend on the steps -/

/-- With enough steps the place is read with result `r`, where `more` is behind the NUL. -/
def Gives (D : DoubleText δ) (more : Bytes) (p : Place) (a : Collected δ) (t : Bytes)
    (r : Except Stop (UInt8 × Json δ × Bytes)) : Prop :=
  ∀ fuel, p.steps t ≤ fuel → parseAt D p a fuel (t ++ 0 :: more) = r

section Gives

variable {more : Bytes} {p : Place} {a : Collected δ} {t s : Bytes}
  {r : Except Stop (UInt8 × Json δ × Bytes)}

theorem Place.steps_eq (hp : p ≠ .value) (t : Bytes) : p.steps t = 2 * t.length + 2 := by
  cases p <;> first | exact absurd rfl hp | rfl

theorem gives_of_parse (h : ∀ fuel, parse D (fuel + 1) (t ++ 0 :: more) = r) :
    Gives D more .value a t r := by
  intro fuel hfuel
  obtain ⟨fuel, rfl⟩ : ∃ f, fuel = f + 1 := ⟨fuel - 1, by simp only [Place.steps] at hfuel; omega⟩
  exact h fuel

theorem gives_array (ht : 0 ∉ t) (h : lexeme t = (.mark 91, s))
    (hs : Gives D more .array ⟨[], [], []⟩ s r) : Gives D more .value a t r := by
  have hmark := atLexeme D ht
  rw [h] at hmark
  have hlen := (lexeme_shorter ht h (by simp)).length_lt
  intro fuel hfuel
  simp only [Place.steps] at hfuel
  obtain ⟨fuel, rfl⟩ : ∃ f, fuel = f + 1 := ⟨fuel - 1, by omega⟩
  rw [parseAt, hmark.2, parse_open_array]
  exact hs fuel (by rw [Place.steps_eq (by simp)]; omega)

theorem gives_object (ht : 0 ∉ t) (h : lexeme t = (.mark 123, s))
    (hs : Gives D more .name ⟨[], [], []⟩ s r) : Gives D more .value a t r := by
  have hmark := atLexeme D ht
  rw [h] at hmark
  have hlen := (lexeme_shorter ht h (by simp)).length_lt
  intro fuel hfuel
  simp only [Place.steps] at hfuel
  obtain ⟨fuel, rfl⟩ : ∃ f, fuel = f + 1 := ⟨fuel - 1, by omega⟩
  rw [parseAt, hmark.2, parse_open_object]
  exact hs fuel (by rw [Place.steps_eq (by simp)]; omega)

theorem gives_closer (ht : 0 ∉ t) {c : UInt8} (h : lexeme t = (.mark c, s))
    (hc : c = 93 ∨ c = 125 ∨ c = 44 ∨ c = 58) :
    Gives D more .value a t (.ok (c, .unknown, s ++ 0 :: more)) := by
  have hmark := atLexeme D ht
  rw [h] at hmark
  exact gives_of_parse fun fuel => by rw [hmark.2, parse_mark hc]

/-- A loop hands on what stopped the parser. -/
theorem Gives.error {e : Stop} (hp : p ≠ .value) (h : Gives D more .value a t (.error e)) :
    Gives D more p a t (.error e) := by
  intro fuel hfuel
  rw [Place.steps_eq hp] at hfuel
  obtain ⟨fuel, rfl⟩ : ∃ f, fuel = f + 1 := ⟨fuel - 1, by omega⟩
  exact parseAt_error hp a (h fuel (by simp only [Place.steps]; omega))

/-- A turn that ends the loop. -/
theorem Gives.stop {res : UInt8} {o : Json δ} {index : Bytes} (hp : p ≠ .value)
    (h : Gives D more .value a t (.ok (res, o, index))) (hturn : turn p a res o index = .inr r) :
    Gives D more p a t r := by
  intro fuel hfuel
  rw [Place.steps_eq hp] at hfuel
  obtain ⟨fuel, rfl⟩ : ∃ f, fuel = f + 1 := ⟨fuel - 1, by omega⟩
  rw [parseAt_ok hp a (h fuel (by simp only [Place.steps]; omega)), hturn]

/-- A turn after which the loop goes on. -/
theorem Gives.turn {res : UInt8} {o : Json δ} {p' : Place} {a' : Collected δ} (hp : p ≠ .value)
    (h : Gives D more .value a t (.ok (res, o, s ++ 0 :: more)))
    (hturn : turn p a res o (s ++ 0 :: more) = .inl (p', a')) (hp' : p' ≠ .value)
    (hlen : s.length < t.length) (hs : Gives D more p' a' s r) : Gives D more p a t r := by
  intro fuel hfuel
  rw [Place.steps_eq hp] at hfuel
  obtain ⟨fuel, rfl⟩ : ∃ f, fuel = f + 1 := ⟨fuel - 1, by omega⟩
  rw [parseAt_ok hp a (h fuel (by simp only [Place.steps]; omega)), hturn]
  exact hs fuel (by rw [Place.steps_eq hp']; omega)

end Gives

/-- A complete text is read, and only a string token gives a string. -/
theorem Complete.gives {p : Place} {t rest : Bytes} (h : Complete p t rest) (ht : 0 ∉ t)
    (D : DoubleText δ) (a : Collected δ) :
    ∃ v : Json δ, (∀ s, v = .string s → p = .value ∧ lexeme t = (.string, rest)) ∧
      ∀ more, Gives D more p a t (.ok (0, v, rest ++ 0 :: more)) := by
  induction h generalizing a with
  | @scalar t rest h =>
      have hat := atLexeme D ht
      rw [h] at hat
      obtain ⟨v, hv, hrun⟩ := hat
      exact ⟨v, fun s hs => absurd hs (hv s), fun more => gives_of_parse fun fuel => hrun fuel more⟩
  | @string t rest h =>
      have hat := atLexeme D ht
      rw [h] at hat
      obtain ⟨s, hrun⟩ := hat
      exact ⟨.string s, fun _ _ => ⟨rfl, h⟩, fun more => gives_of_parse fun fuel => hrun fuel more⟩
  | array h _ ih =>
      obtain ⟨v, hv, hrun⟩ := ih (lexeme_shorter ht h (by simp)).text ⟨[], [], []⟩
      exact ⟨v, fun s hs => by simpa using (hv s hs).1, fun more => gives_array ht h (hrun more)⟩
  | object h _ ih =>
      obtain ⟨v, hv, hrun⟩ := ih (lexeme_shorter ht h (by simp)).text ⟨[], [], []⟩
      exact ⟨v, fun s hs => by simpa using (hv s hs).1, fun more => gives_object ht h (hrun more)⟩
  | arrayClose h =>
      exact ⟨.array a.m_array, by simp, fun more =>
        (gives_closer ht h (by simp)).stop (by simp) rfl⟩
  | arrayComma h _ ih =>
      have hs := lexeme_shorter ht h (by simp)
      obtain ⟨v, hv, hrun⟩ := ih hs.text a
      exact ⟨v, fun s hs => by simpa using (hv s hs).1, fun more =>
        (gives_closer ht h (by simp)).turn (by simp) rfl (by simp) hs.length_lt (hrun more)⟩
  | element h _ ih ihs =>
      have hs := h.shorter ht
      obtain ⟨o, -, hvalue⟩ := ih ht a
      obtain ⟨v, hv, hrun⟩ := ihs hs.text { a with m_array := a.m_array ++ [o] }
      exact ⟨v, fun s hs => by simpa using (hv s hs).1, fun more =>
        (hvalue more).turn (by simp) rfl (by simp) hs.length_lt (hrun more)⟩
  | objectClose h =>
      exact ⟨.object a.m_object, by simp, fun more =>
        (gives_closer ht h (by simp)).stop (by simp) rfl⟩
  | objectComma h _ ih =>
      have hs := lexeme_shorter ht h (by simp)
      obtain ⟨v, hv, hrun⟩ := ih hs.text a
      exact ⟨v, fun s hs => by simpa using (hv s hs).1, fun more =>
        (gives_closer ht h (by simp)).turn (by simp) rfl (by simp) hs.length_lt (hrun more)⟩
  | name h _ ih =>
      have hs := lexeme_shorter ht h (by simp)
      have hat := atLexeme D ht
      rw [h] at hat
      obtain ⟨key, hkey⟩ := hat
      obtain ⟨v, hv, hrun⟩ := ih hs.text { a with element_name := key }
      exact ⟨v, fun s hs => by simpa using (hv s hs).1, fun more =>
        (gives_of_parse fun fuel => hkey fuel more).turn (by simp) rfl (by simp) hs.length_lt
          (hrun more)⟩
  | colon h _ ih =>
      have hs := lexeme_shorter ht h (by simp)
      obtain ⟨v, hv, hrun⟩ := ih hs.text a
      exact ⟨v, fun s hs => by simpa using (hv s hs).1, fun more =>
        (gives_closer ht h (by simp)).turn (by simp) rfl (by simp) hs.length_lt (hrun more)⟩
  | content h _ ih ihs =>
      have hs := h.shorter ht
      obtain ⟨o, -, hvalue⟩ := ih ht a
      obtain ⟨v, hv, hrun⟩ := ihs hs.text
        { a with m_object := insertOrAssign a.element_name o a.m_object }
      exact ⟨v, fun s hs => by simpa using (hv s hs).1, fun more =>
        (hvalue more).turn (by simp) rfl (by simp) hs.length_lt (hrun more)⟩

/-- An unfinished text makes the parser read behind the NUL. -/
theorem Unfinished.gives {p : Place} {t : Bytes} (h : Unfinished p t) (ht : 0 ∉ t)
    (D : DoubleText δ) (a : Collected δ) :
    Gives D [] p a t (.error (.fault .outOfBounds)) := by
  have hany : ∀ {p : Place} {t : Bytes} {a : Collected δ},
      Gives D [] .value a t (.error (.fault .outOfBounds)) →
        Gives D [] p a t (.error (.fault .outOfBounds)) := by
    intro p t a h
    by_cases hp : p = .value
    · exact hp ▸ h
    · exact h.error hp
  induction h generalizing a with
  | ending h =>
      have hat := atLexeme D ht
      rw [h] at hat
      exact hany (gives_of_parse hat)
  | @unclosed p t s hvalue hcolon h =>
      have hat := atLexeme D ht
      rw [h] at hat
      obtain ⟨o, hrun⟩ := hat
      have hpos := (lexeme_shorter ht h (by simp)).length_lt
      intro fuel hfuel
      rw [Place.steps_eq hvalue] at hfuel
      obtain ⟨fuel, rfl⟩ : ∃ f, fuel = f + 3 := ⟨fuel - 3, by omega⟩
      -- the next turn starts behind the NUL
      have hleft : ∀ p' (a' : Collected δ), p' ≠ .value →
          parseAt D p' a' (fuel + 2) [] = .error (.fault .outOfBounds) :=
        fun p' a' hp' => parseAt_error hp' a' rfl
      rw [parseAt_ok hvalue a (hrun (fuel + 1) [])]
      cases p with
      | value => exact absurd rfl hvalue
      | colon => exact absurd rfl hcolon
      | array => exact hleft .array _ (by simp)
      | name => exact hleft .colon _ (by simp)
      | content => exact hleft .name _ (by simp)
  | array h _ ih => exact hany (gives_array ht h (ih (lexeme_shorter ht h (by simp)).text _))
  | object h _ ih => exact hany (gives_object ht h (ih (lexeme_shorter ht h (by simp)).text _))
  | arrayComma h _ ih =>
      have hs := lexeme_shorter ht h (by simp)
      exact (gives_closer ht h (by simp)).turn (by simp) rfl (by simp) hs.length_lt (ih hs.text a)
  | element h _ ih =>
      have hs := h.shorter ht
      obtain ⟨o, -, hvalue⟩ := h.gives ht D a
      exact (hvalue []).turn (by simp) rfl (by simp) hs.length_lt (ih hs.text _)
  | objectComma h _ ih =>
      have hs := lexeme_shorter ht h (by simp)
      exact (gives_closer ht h (by simp)).turn (by simp) rfl (by simp) hs.length_lt (ih hs.text a)
  | name h _ ih =>
      have hs := lexeme_shorter ht h (by simp)
      have hat := atLexeme D ht
      rw [h] at hat
      obtain ⟨key, hkey⟩ := hat
      exact (gives_of_parse fun fuel => hkey fuel []).turn (by simp) rfl (by simp) hs.length_lt
        (ih hs.text _)
  | colon h _ ih =>
      have hs := lexeme_shorter ht h (by simp)
      exact (gives_closer ht h (by simp)).turn (by simp) rfl (by simp) hs.length_lt (ih hs.text a)
  | content h _ ih =>
      have hs := h.shorter ht
      obtain ⟨o, -, hvalue⟩ := h.gives ht D a
      exact (hvalue []).turn (by simp) rfl (by simp) hs.length_lt (ih hs.text _)

/-! ## Every text -/

/-- The parser throws, whatever is behind the NUL. -/
def Throws (D : DoubleText δ) (p : Place) (t : Bytes) : Prop :=
  ∀ a : Collected δ, ∃ message, ∀ more, Gives D more p a t (.error (.thrown message))

/-- What can come of reading a place. -/
def Read (D : DoubleText δ) (p : Place) (t : Bytes) : Prop :=
  Unfinished p t ∨ (∃ rest, Complete p t rest) ∨ Throws D p t

/-- What can come of a call of the parser: also an unclosed string, or a mark for the loop that
made the call. -/
def Called (D : DoubleText δ) (t : Bytes) : Prop :=
  Read D .value t ∨ (∃ s, lexeme t = (.unclosed, s)) ∨
    ∃ c s, lexeme t = (.mark c, s) ∧ (c = 93 ∨ c = 125 ∨ c = 44 ∨ c = 58)

theorem Throws.at {p : Place} {t : Bytes} (h : Throws D .value t) (hp : p ≠ .value) :
    Throws D p t := by
  intro a
  obtain ⟨message, hm⟩ := h a
  exact ⟨message, fun more => (hm more).error hp⟩

theorem called {t : Bytes} (ht : 0 ∉ t)
    (ih : ∀ s, Shorter s t → ∀ p, p ≠ .value → Read D p s) : Called D t := by
  have hat := atLexeme D ht
  rcases hl : lexeme t with ⟨k, s⟩
  rw [hl] at hat
  cases k with
  | ending => exact .inl (.inl (.ending hl))
  | scalar => exact .inl (.inr (.inl ⟨s, .scalar hl⟩))
  | string => exact .inl (.inr (.inl ⟨s, .string hl⟩))
  | unclosed => exact .inr (.inl ⟨s, hl⟩)
  | other =>
      obtain ⟨message, hm⟩ := hat
      exact .inl (.inr (.inr fun a => ⟨message, fun more => gives_of_parse fun fuel =>
        hm fuel more⟩))
  | mark c =>
      have hs := lexeme_shorter ht hl (by simp)
      have hc := hat.1
      simp only [isMark, Bool.or_eq_true, decide_eq_true_eq] at hc
      by_cases h91 : c = 91
      · subst h91
        rcases ih s hs .array (by simp) with h | ⟨rest, h⟩ | h
        · exact .inl (.inl (.array hl h))
        · exact .inl (.inr (.inl ⟨rest, .array hl h⟩))
        · obtain ⟨message, hm⟩ := h ⟨[], [], []⟩
          exact .inl (.inr (.inr fun a => ⟨message, fun more => gives_array ht hl (hm more)⟩))
      · by_cases h123 : c = 123
        · subst h123
          rcases ih s hs .name (by simp) with h | ⟨rest, h⟩ | h
          · exact .inl (.inl (.object hl h))
          · exact .inl (.inr (.inl ⟨rest, .object hl h⟩))
          · obtain ⟨message, hm⟩ := h ⟨[], [], []⟩
            exact .inl (.inr (.inr fun a => ⟨message, fun more => gives_object ht hl (hm more)⟩))
        · exact .inr (.inr ⟨c, s, hl, by tauto⟩)

section Places

variable {t s : Bytes}

/-- A mark that ends a loop with an exception. -/
theorem throws_closer {p : Place} {c : UInt8} (hp : p ≠ .value) (ht : 0 ∉ t)
    (h : lexeme t = (.mark c, s)) (hc : c = 93 ∨ c = 125 ∨ c = 44 ∨ c = 58)
    (hturn : ∀ a : Collected δ, ∃ message, ∀ index, turn p a c .unknown index =
      .inr (.error (.thrown message))) : Throws D p t := by
  intro a
  obtain ⟨message, hm⟩ := hturn a
  exact ⟨message, fun more => (gives_closer ht h hc).stop hp (hm _)⟩

/-- After a mark that a loop skips, or the colon, the rest decides. -/
theorem throws_next {p p' : Place} {c : UInt8} (hp : p ≠ .value) (hp' : p' ≠ .value) (ht : 0 ∉ t)
    (h : lexeme t = (.mark c, s)) (hc : c = 93 ∨ c = 125 ∨ c = 44 ∨ c = 58)
    (hturn : ∀ (a : Collected δ) index, turn p a c .unknown index = .inl (p', a))
    (hs : Throws D p' s) : Throws D p t := by
  intro a
  obtain ⟨message, hm⟩ := hs a
  exact ⟨message, fun more => (gives_closer ht h hc).turn hp (hturn a _) hp'
    (lexeme_shorter ht h (by simp)).length_lt (hm more)⟩

theorem read_array (ht : 0 ∉ t) (hcall : Called D t)
    (ih : ∀ s, Shorter s t → Read D .array s) : Read D .array t := by
  rcases hcall with (h | ⟨s, h⟩ | h) | ⟨s, h⟩ | ⟨c, s, h, hc⟩
  · exact .inl (h.of_value .array)
  · have hs := h.shorter ht
    rcases ih s hs with hrest | ⟨rest, hrest⟩ | hrest
    · exact .inl (.element h hrest)
    · exact .inr (.inl ⟨rest, .element h hrest⟩)
    · refine .inr (.inr fun a => ?_)
      obtain ⟨o, -, hvalue⟩ := h.gives ht D a
      obtain ⟨message, hm⟩ := hrest { a with m_array := a.m_array ++ [o] }
      exact ⟨message, fun more =>
        (hvalue more).turn (by simp) rfl (by simp) hs.length_lt (hm more)⟩
  · exact .inr (.inr (h.at (by simp)))
  · exact .inl (.unclosed (by simp) (by simp) h)
  · have hs := lexeme_shorter ht h (by simp)
    rcases hc with rfl | rfl | rfl | rfl
    · exact .inr (.inl ⟨s, .arrayClose h⟩)
    · exact .inr (.inr (throws_closer (by simp) ht h (by simp) fun _ => ⟨_, fun _ => rfl⟩))
    · rcases ih s hs with hrest | ⟨rest, hrest⟩ | hrest
      · exact .inl (.arrayComma h hrest)
      · exact .inr (.inl ⟨rest, .arrayComma h hrest⟩)
      · exact .inr (.inr (throws_next (by simp) (by simp) ht h (by simp) (fun _ _ => rfl) hrest))
    · exact .inr (.inr (throws_closer (by simp) ht h (by simp) fun _ => ⟨_, fun _ => rfl⟩))

theorem read_name (ht : 0 ∉ t) (hcall : Called D t)
    (ih : ∀ s, Shorter s t → Read D .name s ∧ Read D .colon s) : Read D .name t := by
  rcases hcall with (h | ⟨s, h⟩ | h) | ⟨s, h⟩ | ⟨c, s, h, hc⟩
  · exact .inl (h.of_value .name)
  · have hs := h.shorter ht
    by_cases hstring : lexeme t = (.string, s)
    · rcases (ih s hs).2 with hrest | ⟨rest, hrest⟩ | hrest
      · exact .inl (.name hstring hrest)
      · exact .inr (.inl ⟨rest, .name hstring hrest⟩)
      · refine .inr (.inr fun a => ?_)
        have hat := atLexeme D ht
        rw [hstring] at hat
        obtain ⟨key, hkey⟩ := hat
        obtain ⟨message, hm⟩ := hrest { a with element_name := key }
        exact ⟨message, fun more =>
          (gives_of_parse fun fuel => hkey fuel more).turn (by simp) rfl (by simp) hs.length_lt
            (hm more)⟩
    · refine .inr (.inr fun a => ?_)
      obtain ⟨v, hv, hvalue⟩ := h.gives ht D a
      have hmissing : ∀ index, turn .name a 0 v index =
          .inr (throwText "Object element name missing".toList []) := by
        intro index
        cases v with
        | string key => exact absurd (hv key rfl).2 hstring
        | _ => rfl
      exact ⟨_, fun more => (hvalue more).stop (by simp) (hmissing _)⟩
  · exact .inr (.inr (h.at (by simp)))
  · exact .inl (.unclosed (by simp) (by simp) h)
  · have hs := lexeme_shorter ht h (by simp)
    rcases hc with rfl | rfl | rfl | rfl
    · exact .inr (.inr (throws_closer (by simp) ht h (by simp) fun _ => ⟨_, fun _ => rfl⟩))
    · exact .inr (.inl ⟨s, .objectClose h⟩)
    · rcases (ih s hs).1 with hrest | ⟨rest, hrest⟩ | hrest
      · exact .inl (.objectComma h hrest)
      · exact .inr (.inl ⟨rest, .objectComma h hrest⟩)
      · exact .inr (.inr (throws_next (by simp) (by simp) ht h (by simp) (fun _ _ => rfl) hrest))
    · exact .inr (.inr (throws_closer (by simp) ht h (by simp) fun _ => ⟨_, fun _ => rfl⟩))

theorem read_colon (ht : 0 ∉ t) (hcall : Called D t)
    (ih : ∀ s, Shorter s t → Read D .content s) : Read D .colon t := by
  rcases hcall with (h | ⟨s, h⟩ | h) | ⟨s, h⟩ | ⟨c, s, h, hc⟩
  · exact .inl (h.of_value .colon)
  · refine .inr (.inr fun a => ?_)
    obtain ⟨v, -, hvalue⟩ := h.gives ht D a
    exact ⟨_, fun more => (hvalue more).stop (by simp) rfl⟩
  · exact .inr (.inr (h.at (by simp)))
  · refine .inr (.inr fun a => ?_)
    have hat := atLexeme D ht
    rw [h] at hat
    obtain ⟨o, hrun⟩ := hat
    exact ⟨_, fun more => (gives_of_parse fun fuel => hrun fuel more).stop (by simp) rfl⟩
  · rcases hc with rfl | rfl | rfl | rfl
    · exact .inr (.inr (throws_closer (by simp) ht h (by simp) fun _ => ⟨_, fun _ => rfl⟩))
    · exact .inr (.inr (throws_closer (by simp) ht h (by simp) fun _ => ⟨_, fun _ => rfl⟩))
    · exact .inr (.inr (throws_closer (by simp) ht h (by simp) fun _ => ⟨_, fun _ => rfl⟩))
    · rcases ih s (lexeme_shorter ht h (by simp)) with hrest | ⟨rest, hrest⟩ | hrest
      · exact .inl (.colon h hrest)
      · exact .inr (.inl ⟨rest, .colon h hrest⟩)
      · exact .inr (.inr (throws_next (by simp) (by simp) ht h (by simp) (fun _ _ => rfl) hrest))

theorem read_content (ht : 0 ∉ t) (hcall : Called D t)
    (ih : ∀ s, Shorter s t → Read D .name s) : Read D .content t := by
  rcases hcall with (h | ⟨s, h⟩ | h) | ⟨s, h⟩ | ⟨c, s, h, hc⟩
  · exact .inl (h.of_value .content)
  · have hs := h.shorter ht
    rcases ih s hs with hrest | ⟨rest, hrest⟩ | hrest
    · exact .inl (.content h hrest)
    · exact .inr (.inl ⟨rest, .content h hrest⟩)
    · refine .inr (.inr fun a => ?_)
      obtain ⟨o, -, hvalue⟩ := h.gives ht D a
      obtain ⟨message, hm⟩ :=
        hrest { a with m_object := insertOrAssign a.element_name o a.m_object }
      exact ⟨message, fun more =>
        (hvalue more).turn (by simp) rfl (by simp) hs.length_lt (hm more)⟩
  · exact .inr (.inr (h.at (by simp)))
  · exact .inl (.unclosed (by simp) (by simp) h)
  · rcases hc with rfl | rfl | rfl | rfl <;>
      exact .inr (.inr (throws_closer (by simp) ht h (by simp) fun _ => ⟨_, fun _ => rfl⟩))

end Places

/-- Every text is unfinished, or is read, or makes the parser throw. -/
theorem reads (D : DoubleText δ) (n : Nat) :
    ∀ t, t.length < n → 0 ∉ t → Called D t ∧ ∀ p, p ≠ .value → Read D p t := by
  induction n with
  | zero => exact fun t hn => absurd hn (Nat.not_lt_zero _)
  | succ n ih =>
      intro t hn ht
      have hshort : ∀ s, Shorter s t → ∀ p, p ≠ .value → Read D p s := fun s hs =>
        (ih s (Nat.lt_of_lt_of_le hs.length_lt (Nat.le_of_lt_succ hn)) hs.text).2
      have hcall := called ht hshort
      refine ⟨hcall, fun p hp => ?_⟩
      cases p with
      | value => exact absurd rfl hp
      | array => exact read_array ht hcall fun s hs => hshort s hs .array (by simp)
      | name =>
          exact read_name ht hcall fun s hs =>
            ⟨hshort s hs .name (by simp), hshort s hs .colon (by simp)⟩
      | colon => exact read_colon ht hcall fun s hs => hshort s hs .content (by simp)
      | content => exact read_content ht hcall fun s hs => hshort s hs .name (by simp)

/-! ## The whole buffer -/

/-- The text of a C string. -/
def text (data : Bytes) : Bytes := data.takeWhile (· ≠ 0)

/-- The parse needs only the text and its first NUL: on these alone it ends as on the whole
string, with a value or an exception. -/
def StaysInside (D : DoubleText δ) (data : Bytes) : Prop :=
  ∃ r, parseBuffer D (text data ++ [0]) = r ∧ Parse D data = r ∧
    ((∃ v, r = .ok v) ∨ ∃ message, r = .error (.thrown message))

theorem text_notMem (data : Bytes) : 0 ∉ text data := by
  intro h
  simpa using List.mem_takeWhile_imp h

theorem data_split (data : Bytes) : ∃ more, data ++ [0] = text data ++ 0 :: more := by
  cases hdrop : data.dropWhile (· ≠ 0) with
  | nil =>
      have hsplit := List.takeWhile_append_dropWhile (p := (· ≠ 0)) (l := data)
      rw [hdrop, List.append_nil] at hsplit
      exact ⟨[], by rw [text, hsplit]⟩
  | cons c s =>
      have hhead := List.head?_dropWhile_not (· ≠ 0) data
      rw [hdrop] at hhead
      obtain rfl : c = 0 := by simpa using hhead
      have hsplit := List.takeWhile_append_dropWhile (p := (· ≠ 0)) (l := data)
      rw [hdrop] at hsplit
      refine ⟨s ++ [0], ?_⟩
      conv_lhs => rw [← hsplit]
      simp [text]

/-- A buffer whose parse does not depend on what is behind the NUL. -/
theorem parseBuffer_eq {t more : Bytes} {r : Except Stop (UInt8 × Json δ × Bytes)}
    (h : Gives D more .value ⟨[], [], []⟩ t r) :
    parseBuffer D (t ++ 0 :: more) = r.map fun x => x.2.1 := by
  have hrun := h (2 * (t ++ 0 :: more).length + 1)
    (by simp only [Place.steps, List.length_append, List.length_cons]; omega)
  rw [parseBuffer]
  change (parse D _ _ >>= _) = _
  rw [show parse D (2 * (t ++ 0 :: more).length + 1) (t ++ 0 :: more) = r from hrun]
  cases r <;> rfl

theorem parseBuffer_called (t : Bytes) (ht : 0 ∉ t) (h : ¬ Unfinished .value t) :
    ∃ r : Except Stop (Json δ), (∀ more, parseBuffer D (t ++ 0 :: more) = r) ∧
      ((∃ v, r = .ok v) ∨ ∃ message, r = .error (.thrown message)) := by
  rcases (reads D (t.length + 1) t (Nat.lt_succ_self _) ht).1 with
    (hu | ⟨rest, hc⟩ | hthrow) | ⟨s, hl⟩ | ⟨c, s, hl, hc⟩
  · exact absurd hu h
  · obtain ⟨v, -, hrun⟩ := hc.gives ht D ⟨[], [], []⟩
    exact ⟨.ok v, fun more => parseBuffer_eq (hrun more), .inl ⟨v, rfl⟩⟩
  · obtain ⟨message, hm⟩ := hthrow ⟨[], [], []⟩
    exact ⟨.error (.thrown message), fun more => parseBuffer_eq (hm more), .inr ⟨message, rfl⟩⟩
  · have hat := atLexeme D ht
    rw [hl] at hat
    obtain ⟨o, hrun⟩ := hat
    exact ⟨.ok (.string o), fun more => parseBuffer_eq (gives_of_parse fun fuel => hrun fuel more),
      .inl ⟨_, rfl⟩⟩
  · exact ⟨.ok .unknown, fun more => parseBuffer_eq (gives_closer ht hl hc), .inl ⟨_, rfl⟩⟩

/-- The parser stays inside the text and its NUL exactly when the text is not unfinished. -/
theorem Parse_inside_iff (D : DoubleText δ) (data : Bytes) :
    StaysInside D data ↔ ¬ Unfinished .value (text data) := by
  have ht := text_notMem data
  constructor
  · rintro ⟨r, hrun, -, hr⟩ hu
    rw [parseBuffer_eq (hu.gives ht D ⟨[], [], []⟩)] at hrun
    subst hrun
    rcases hr with ⟨v, hv⟩ | ⟨message, hm⟩
    · cases hv
    · cases hm
  · intro h
    obtain ⟨r, hrun, hr⟩ := parseBuffer_called (D := D) (text data) ht h
    obtain ⟨more, hmore⟩ := data_split data
    exact ⟨r, hrun [], by rw [Parse, hmore, hrun more], hr⟩

/-- An array that is never closed. -/
theorem open_array_leaves : ¬ StaysInside wholeDoubles [91] := by
  rintro ⟨r, hrun, -, hr⟩
  have hleft : parseBuffer wholeDoubles (text [91] ++ [0]) = .error (.fault .outOfBounds) := rfl
  rw [hleft] at hrun
  subst hrun
  simp at hr

end Json

end CommonCc
