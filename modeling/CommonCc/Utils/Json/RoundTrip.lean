import CommonCc.Utils.Json.Tokens
import Mathlib.Data.List.Forall2

/-!
# What is printed is parsed back

`Plain` trees hold no real numbers and no text with a NUL or a backslash.  Their text
is read back with the tree they came from, whatever follows it.
-/

namespace CommonCc

namespace Json

variable {δ : Type} {D : DoubleText δ}

/-- The trees whose text is unambiguous.  A `std::map` keeps its keys in order. -/
inductive Plain : Json δ → Prop where
  | unknown : Plain .unknown
  | integer {i : Int} (hmin : -2147483648 ≤ i) (hmax : i < 2147483648) : Plain (.integer i)
  | string {s : Bytes} (hs : PlainText s) : Plain (.string s)
  | boolean (b : Bool) : Plain (.boolean b)
  | array {l : List (Json δ)} (hl : ∀ v ∈ l, Plain v) : Plain (.array l)
  | object {l : List (Bytes × Json δ)} (hsorted : KeysSorted l) (hkeys : ∀ p ∈ l, PlainText p.1)
      (hl : ∀ p ∈ l, Plain p.2) : Plain (.object l)

/-! ## One call of the parser -/

theorem parse_token {s : Bytes} {t : TokenResult} (h : Token s = .ok t)
    (hcode : t.token = -t.m_type.code) (harray : t.m_type ≠ .array) (hobject : t.m_type ≠ .object)
    (fuel : Nat) : parse D (fuel + 1) s = .ok (0, t.value D, t.index) := by
  have hvalue : t.token = -JsonType.real.code ∨ t.token = -JsonType.integer.code ∨
      t.token = -JsonType.string.code ∨ t.token = -JsonType.unknown.code ∨
      t.token = -JsonType.boolean.code := by
    rw [hcode]
    cases hm : t.m_type <;> simp_all
  rw [parse, h]
  exact if_pos hvalue

theorem parse_open_array (fuel : Nat) (s : Bytes) :
    parse D (fuel + 1) (91 :: s) = parseArray D fuel s [] := by
  rw [parse, Token_mark (by decide)]
  rfl

theorem parse_open_object (fuel : Nat) (s : Bytes) :
    parse D (fuel + 1) (123 :: s) = parseObject D fuel s 0 [] [] := by
  rw [parse, Token_mark (by decide)]
  rfl

/-- A closing bracket, a comma or a colon is returned to the caller. -/
theorem parse_mark {c : UInt8} (h : c = 93 ∨ c = 125 ∨ c = 44 ∨ c = 58) (fuel : Nat) (s : Bytes) :
    parse D (fuel + 1) (c :: s) = .ok (c, .unknown, s) := by
  rcases h with rfl | rfl | rfl | rfl <;> rw [parse, Token_mark (by decide)] <;> rfl

theorem parse_string {s : Bytes} (h : 0 ∉ s) (fuel : Nat) (rest : Bytes) :
    parse D (fuel + 1) ([34] ++ encode s ++ [34] ++ rest) =
      .ok (0, .string (decode (encode s)), rest) := by
  have htoken := Token_string (scanString_encode h rest)
  rw [List.append_assoc, List.append_assoc, List.singleton_append, List.singleton_append,
    parse_token htoken rfl (by simp) (by simp)]
  rfl

/-! ## Elements -/

section Elements

variable {s rest : Bytes} {v : Json δ} {fuel : Nat}

theorem parseArray_value (h : parse D fuel s = .ok (0, v, rest)) (l : List (Json δ)) :
    parseArray D (fuel + 1) s l = parseArray D fuel rest (l ++ [v]) := by
  rw [parseArray, h]
  rfl

theorem parseArray_comma (fuel : Nat) (s : Bytes) (l : List (Json δ)) :
    parseArray D (fuel + 2) (44 :: s) l = parseArray D (fuel + 1) s l := by
  rw [parseArray, parse_mark (by simp)]
  rfl

theorem parseArray_close (fuel : Nat) (rest : Bytes) (l : List (Json δ)) :
    parseArray D (fuel + 2) (93 :: rest) l = .ok (0, .array l, rest) := by
  rw [parseArray, parse_mark (by simp)]
  rfl

theorem parseObject_comma (fuel : Nat) (s name : Bytes) (l : List (Bytes × Json δ)) :
    parseObject D (fuel + 2) (44 :: s) 0 name l = parseObject D (fuel + 1) s 0 name l := by
  rw [parseObject, parse_mark (by simp)]
  rfl

theorem parseObject_close (fuel : Nat) (rest name : Bytes) (l : List (Bytes × Json δ)) :
    parseObject D (fuel + 2) (125 :: rest) 0 name l = .ok (0, .object l, rest) := by
  rw [parseObject, parse_mark (by simp)]
  rfl

/-- The three turns of the loop that read a name, the colon and a value. -/
theorem parseObject_member {key : Bytes} (hkey : 0 ∉ key) (name : Bytes)
    (h : parse D fuel s = .ok (0, v, rest)) (l : List (Bytes × Json δ)) :
    parseObject D (fuel + 3) ([34] ++ encode key ++ [34] ++ 58 :: s) 0 name l =
      parseObject D fuel rest 0 (decode (encode key))
        (insertOrAssign (decode (encode key)) v l) := by
  rw [parseObject, parse_string hkey]
  change parseObject D (fuel + 2) (58 :: s) 1 (decode (encode key)) l = _
  rw [parseObject, parse_mark (by simp)]
  change parseObject D (fuel + 1) s 2 (decode (encode key)) l = _
  rw [parseObject, h]
  rfl

end Elements

/-! ## The round trip -/

/-- What follows a value is not taken for a part of it. -/
def Follows (rest : Bytes) : Prop := ∃ c r, rest = c :: r ∧ isNumberChar c = false

theorem follows_cons {c : UInt8} (h : isNumberChar c = false) (r : Bytes) : Follows (c :: r) :=
  ⟨c, r, rfl, h⟩

theorem elements_follows (q : Bool) (l : List (Json δ)) (rest : Bytes) :
    Follows (elements D q false l ++ 93 :: rest) := by
  cases l with
  | nil => exact follows_cons (by decide) rest
  | cons v l => exact follows_cons (c := 44) (by decide) _

theorem members_follows (q : Bool) (l : List (Bytes × Json δ)) (rest : Bytes) :
    Follows (members D q false l ++ 125 :: rest) := by
  cases l with
  | nil => exact follows_cons (by decide) rest
  | cons p l => exact follows_cons (c := 44) (by decide) _

/-- The text of `v` is read as `w`. -/
def ReadAs (D : DoubleText δ) (v w : Json δ) : Prop :=
  ∀ fuel rest, Follows rest → 2 * (ToString D true v ++ rest).length < fuel →
    parse D fuel (ToString D true v ++ rest) = .ok (0, w, rest)

/-- The text of `v` is read back. -/
def ReadBack (D : DoubleText δ) (v : Json δ) : Prop :=
  ∀ fuel rest, Follows rest → 2 * (ToString D true v ++ rest).length < fuel →
    parse D fuel (ToString D true v ++ rest) = .ok (0, v, rest)

theorem ReadAs.text_length {v w : Json δ} (h : ReadAs D v w) :
    0 < (ToString D true v).length := by
  apply List.length_pos_iff.mpr
  intro hnil
  have hread := h 3 [93] (follows_cons (by decide) []) (by simp [hnil])
  rw [hnil, List.nil_append, parse_mark (by simp)] at hread
  simp at hread

theorem readAs_token {v w : Json δ} (h : ∀ rest, Follows rest → ∃ t,
    Token (ToString D true v ++ rest) = .ok t ∧ t.token = -t.m_type.code ∧ t.m_type ≠ .array ∧
      t.m_type ≠ .object ∧ t.value D = w ∧ t.index = rest) : ReadAs D v w := by
  intro fuel rest hrest hfuel
  obtain ⟨fuel, rfl⟩ : ∃ f, fuel = f + 1 := ⟨fuel - 1, by omega⟩
  obtain ⟨t, htoken, hcode, harray, hobject, hvalue, hindex⟩ := h rest hrest
  rw [parse_token htoken hcode harray hobject, hvalue, hindex]

theorem printLong_cons (z : Int) : ∃ c ds, printLong z = c :: ds ∧ startsNumber c = true ∧
    (∀ d ∈ ds, isDigit d = true) ∧ 46 ∉ c :: ds := by
  have hdot : ∀ d : UInt8, isDigit d = true → d ≠ 46 := by
    rintro d hd rfl
    exact absurd hd (by decide)
  unfold printLong
  split
  · refine ⟨45, decimal z.natAbs, rfl, by decide, fun d hd => isDigit_of_mem_decimal hd, ?_⟩
    rw [List.mem_cons, not_or]
    exact ⟨by decide, fun hd => hdot _ (isDigit_of_mem_decimal hd) rfl⟩
  · obtain ⟨c, ds, hc⟩ := List.exists_cons_of_ne_nil (decimal_ne_nil z.natAbs)
    have hall : ∀ d ∈ c :: ds, isDigit d = true := fun d hd =>
      isDigit_of_mem_decimal (hc ▸ hd)
    obtain ⟨hfirst, hrest⟩ := List.forall_mem_cons.mp hall
    exact ⟨c, ds, hc, by simp [startsNumber, hfirst], hrest, fun hd => hdot _ (hall _ hd) rfl⟩

/-- A number is converted to `int`. -/
theorem readAs_integer {i : Int} (hmin : -9223372036854775808 ≤ i)
    (hmax : i < 9223372036854775808) : ReadAs D (.integer i) (.integer (toInt i)) := by
  apply readAs_token
  rintro rest ⟨d, r, rfl, hd⟩
  obtain ⟨c, ds, hc, hstart, hds, hdot⟩ := printLong_cons i
  have htoken := @Token_number _ _ _ r hstart
    (fun x hx => isNumberChar_of_isDigit (hds x hx)) hd
  have htype : numberType (c :: ds) = .integer := if_neg hdot
  rw [htype] at htoken
  refine ⟨_, by rw [ToString, hc]; exact htoken, rfl, by simp, by simp, ?_, rfl⟩
  simp only [TokenResult.value, ← hc, atoi, strtol_printLong hmin hmax]

theorem readAs_unknown : ReadAs D .unknown .unknown :=
  readAs_token fun rest _ =>
    ⟨_, by rw [ToString]; exact Token_null rest, rfl, by simp, by simp, rfl, rfl⟩

theorem readAs_boolean (b : Bool) : ReadAs D (.boolean b) (.boolean b) := by
  apply readAs_token
  intro rest _
  cases b with
  | false =>
      exact ⟨_, by rw [ToString]; exact Token_false rest, rfl, by simp, by simp, rfl, rfl⟩
  | true =>
      exact ⟨_, by rw [ToString]; exact Token_true rest, rfl, by simp, by simp, rfl, rfl⟩

theorem readAs_string {s : Bytes} (h : 0 ∉ s) :
    ReadAs D (.string s) (.string (decode (encode s))) := by
  intro fuel rest _ hfuel
  obtain ⟨fuel, rfl⟩ : ∃ f, fuel = f + 1 := ⟨fuel - 1, by omega⟩
  rw [ToString, parse_string h]

theorem parseArray_elements {l l' : List (Json δ)} (hl : List.Forall₂ (ReadAs D) l l')
    (rest : Bytes) (first : Bool) (acc : List (Json δ)) {fuel : Nat}
    (hfuel : 2 * (elements D true first l ++ 93 :: rest).length + 1 < fuel) :
    parseArray D fuel (elements D true first l ++ 93 :: rest) acc =
      .ok (0, .array (acc ++ l'), rest) := by
  induction hl generalizing first acc fuel with
  | nil =>
      obtain ⟨fuel, rfl⟩ : ∃ f, fuel = f + 2 := ⟨fuel - 2, by omega⟩
      rw [elements, List.nil_append, parseArray_close, List.append_nil]
  | @cons v w l l' hv hl ih =>
      have hvalue : ∀ {f : Nat}, 2 * (ToString D true v ++
          (elements D true false l ++ 93 :: rest)).length + 1 < f →
          parseArray D f (ToString D true v ++ (elements D true false l ++ 93 :: rest)) acc =
            .ok (0, .array (acc ++ w :: l'), rest) := by
        intro f hf
        obtain ⟨f, rfl⟩ : ∃ g, f = g + 1 := ⟨f - 1, by omega⟩
        have htext := hv.text_length
        rw [parseArray_value (hv f _ (elements_follows true l rest) (by omega)),
          ih false (acc ++ [w]), List.append_assoc, List.singleton_append]
        rw [List.length_append] at hf
        omega
      cases first with
      | true =>
          simp only [elements, if_true, List.nil_append, List.append_assoc] at hfuel ⊢
          exact hvalue hfuel
      | false =>
          obtain ⟨fuel, rfl⟩ : ∃ f, fuel = f + 2 := ⟨fuel - 2, by omega⟩
          simp only [elements, Bool.false_eq_true, if_false, List.append_assoc, List.cons_append,
            List.nil_append, List.length_cons] at hfuel ⊢
          rw [parseArray_comma]
          exact hvalue (by omega)

theorem readAs_array {l l' : List (Json δ)} (hl : List.Forall₂ (ReadAs D) l l') :
    ReadAs D (.array l) (.array l') := by
  intro fuel rest _ hfuel
  obtain ⟨fuel, rfl⟩ : ∃ f, fuel = f + 1 := ⟨fuel - 1, by omega⟩
  simp only [ToString, List.append_assoc, List.cons_append, List.nil_append,
    List.length_cons] at hfuel ⊢
  rw [parse_open_array, parseArray_elements hl rest true [] (by omega), List.nil_append]

/-- A member with its name, as it is read. -/
def MemberReadAs (D : DoubleText δ) (p q : Bytes × Json δ) : Prop :=
  0 ∉ p.1 ∧ q.1 = decode (encode p.1) ∧ ReadAs D p.2 q.2

theorem parseObject_members {l l' : List (Bytes × Json δ)}
    (hl : List.Forall₂ (MemberReadAs D) l l') (rest : Bytes) (first : Bool) (name : Bytes)
    (acc : List (Bytes × Json δ)) {fuel : Nat}
    (hfuel : 2 * (members D true first l ++ 125 :: rest).length + 1 < fuel) :
    parseObject D fuel (members D true first l ++ 125 :: rest) 0 name acc =
      .ok (0, .object (l'.foldl (fun m p => insertOrAssign p.1 p.2 m) acc), rest) := by
  induction hl generalizing first name acc fuel with
  | nil =>
      obtain ⟨fuel, rfl⟩ : ∃ f, fuel = f + 2 := ⟨fuel - 2, by omega⟩
      rw [members, List.nil_append, parseObject_close]
      rfl
  | @cons p q l l' hp hl ih =>
      obtain ⟨key, v⟩ := p
      obtain ⟨key', w⟩ := q
      obtain ⟨hkey, hkey', hv⟩ := hp
      change key' = decode (encode key) at hkey'
      have hmember : ∀ {f : Nat}, 2 * ([34] ++ encode key ++ [34] ++ 58 :: (ToString D true v ++
          (members D true false l ++ 125 :: rest))).length + 1 < f →
          parseObject D f ([34] ++ encode key ++ [34] ++ 58 :: (ToString D true v ++
            (members D true false l ++ 125 :: rest))) 0 name acc =
            .ok (0, .object (l'.foldl (fun m p => insertOrAssign p.1 p.2 m)
              (insertOrAssign key' w acc)), rest) := by
        intro f hf
        simp only [List.length_append, List.length_cons, List.length_nil] at hf
        obtain ⟨f, rfl⟩ : ∃ g, f = g + 3 := ⟨f - 3, by omega⟩
        have hread := hv f _ (members_follows (D := D) true l rest)
          (by simp only [List.length_append, List.length_cons]; omega)
        rw [parseObject_member hkey name hread, ih, hkey']
        simp only [List.length_append, List.length_cons]
        omega
      cases first with
      | true =>
          simp only [members, if_true, List.nil_append, List.append_assoc, List.cons_append]
            at hfuel hmember ⊢
          exact hmember (by simpa only [List.length_cons] using hfuel)
      | false =>
          obtain ⟨fuel, rfl⟩ : ∃ f, fuel = f + 2 := ⟨fuel - 2, by omega⟩
          simp only [members, if_true, Bool.false_eq_true, if_false, List.nil_append,
            List.append_assoc, List.cons_append, List.length_cons] at hfuel hmember ⊢
          rw [parseObject_comma]
          exact hmember (by omega)

theorem readAs_object {l l' : List (Bytes × Json δ)} (hl : List.Forall₂ (MemberReadAs D) l l') :
    ReadAs D (.object l) (.object (l'.foldl (fun m p => insertOrAssign p.1 p.2 m) [])) := by
  intro fuel rest _ hfuel
  obtain ⟨fuel, rfl⟩ : ∃ f, fuel = f + 1 := ⟨fuel - 1, by omega⟩
  simp only [ToString, List.append_assoc, List.cons_append, List.nil_append,
    List.length_cons] at hfuel ⊢
  rw [parse_open_object, parseObject_members hl rest true [] [] (by omega)]

theorem Plain.readBack {v : Json δ} (h : v.Plain) : ReadBack D v := by
  induction h with
  | unknown => exact readAs_unknown
  | @integer i hmin hmax =>
      have h := readAs_integer (D := D) (i := i) (by omega) (by omega)
      rwa [toInt_of_mem hmin hmax] at h
  | @string s hs =>
      have h := readAs_string (D := D) hs.1
      rwa [decode_encode hs.2] at h
  | boolean b => exact readAs_boolean b
  | array _ ih => exact readAs_array (List.forall₂_same.mpr ih)
  | object hsorted hkeys _ ih =>
      have h := readAs_object (D := D) (List.forall₂_same.mpr fun p hp =>
        ⟨(hkeys p hp).1, (decode_encode (hkeys p hp).2).symm, ih p hp⟩)
      rwa [foldl_insertOrAssign hsorted] at h

theorem Parse_of_readAs {v w : Json δ} (h : ReadAs D v w) : Parse D (ToString D true v) = .ok w := by
  have hread := h (2 * (ToString D true v ++ [0]).length + 1) [0]
    (follows_cons (by decide) []) (Nat.lt_succ_self _)
  rw [Parse, parseBuffer, hread]
  rfl

/-- Parsing the text of a plain tree gives the tree. -/
theorem Parse_ToString (D : DoubleText δ) {v : Json δ} (h : v.Plain) :
    Parse D (ToString D true v) = .ok v :=
  Parse_of_readAs h.readBack

/-- The text of a `double` without a fraction. -/
def wholeDoubles : DoubleText Int where
  format i := printLong i ++ ascii ['.', '0', '0', '0', '0', '0', '0']
  atof := strtol

/-- An object with an array, and with quotes and line ends in its texts. -/
theorem Parse_ToString_nested :
    Parse wholeDoubles (ToString wholeDoubles true (.object
      [([34, 10], .array [.integer (-7), .boolean true, .unknown]), ([97], .string [13, 120])])) =
      .ok (.object
        [([34, 10], .array [.integer (-7), .boolean true, .unknown]),
          ([97], .string [13, 120])]) := by
  apply Parse_ToString
  apply Plain.object
  · simp only [KeysSorted, List.pairwise_cons, List.mem_singleton, List.not_mem_nil]
    refine ⟨?_, ?_, List.Pairwise.nil⟩
    · rintro p rfl
      decide
    · simp
  · simp only [List.mem_cons, List.not_mem_nil, or_false]
    rintro p (rfl | rfl) <;> decide
  · simp only [List.mem_cons, List.not_mem_nil, or_false]
    rintro p (rfl | rfl)
    · apply Plain.array
      simp only [List.mem_cons, List.not_mem_nil, or_false]
      rintro v (rfl | rfl | rfl)
      · exact .integer (by decide) (by decide)
      · exact .boolean true
      · exact .unknown
    · exact .string (by decide)

end Json

end CommonCc
