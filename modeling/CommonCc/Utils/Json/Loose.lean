import CommonCc.Numbers
import CommonCc.Utils.Json.Derivations

/-!
# Texts that are not JSON but are accepted

What `Parse` accepts is JSON unless the text is loosely written: a bracket, comma or colon of
its own, or a value that is read with a token or a comma that the grammar does not have.
-/

namespace CommonCc

namespace Json

variable {δ : Type} {D : DoubleText δ}

/-- What `Parse` accepts starts with a text of the grammar, and the tree is what it denotes. -/
def AcceptsJson (D : DoubleText δ) (data : Bytes) : Prop :=
  ∀ v, Parse D data = .ok v →
    ∃ b g rest, Blanks b ∧ data = b ++ (g ++ rest) ∧ Denotes D (.value v) g

/-- The text starts with a number that has a fraction. -/
def StartsReal (data : Bytes) : Prop :=
  ∃ b n rest, Blanks b ∧ data = b ++ (n ++ rest) ∧ IsReal n

/-- A text that is accepted without being JSON.  A number with a second dot is none of these: it
starts with the number up to that dot. -/
inductive Loose (D : DoubleText δ) (data : Bytes) : Prop where
  | mark {c : UInt8} {rest : Bytes} (h : Returned D (data ++ [0]) c rest)
  | value {v : Json δ} {rest : Bytes} (h : Reads D false (.value v) (data ++ [0]) rest)
      (hreal : ¬ StartsReal data)

theorem Parse_inv {data : Bytes} {v : Json δ} (h : Parse D data = .ok v) :
    (v = .unknown ∧ ∃ c rest, Returned D (data ++ [0]) c rest) ∨
      ∃ clean rest, Reads D clean (.value v) (data ++ [0]) rest := by
  unfold Parse parseBuffer at h
  cases hparse : parse D (2 * (data ++ [0]).length + 1) (data ++ [0]) with
  | error e => rw [hparse] at h; cases h
  | ok r =>
      rw [hparse] at h
      match r, hparse, h with
      | (res, o, rest), hparse, h =>
          cases h
          cases (runsRead _).value _ res v rest hparse with
          | inl hread => exact .inr (hread.2.imp fun clean hclean => ⟨rest, hclean⟩)
          | inr hmark => exact .inl ⟨hmark.1, res, rest, hmark.2⟩

theorem Parse_of_reads {data rest : Bytes} {clean : Bool} {v : Json δ}
    (h : Reads D clean (.value v) (data ++ [0]) rest) : Parse D data = .ok v := by
  rw [Parse, parseBuffer, h.parses.2 _ (Nat.le_refl _)]
  rfl

theorem Parse_of_returned {data rest : Bytes} {c : UInt8} (h : Returned D (data ++ [0]) c rest) :
    Parse D data = .ok .unknown := by
  rw [Parse, parseBuffer, parse_lex_closer h.1 h.2]
  rfl

/-! ## Numbers with a second dot -/

theorem IsDigits.append {ds ds' : Bytes} (h : IsDigits ds) (h' : ∀ d ∈ ds', isDigit d = true) :
    IsDigits (ds ++ ds') := by
  constructor
  · simp [h.1]
  · intro d hd
    cases List.mem_append.mp hd with
    | inl hd => exact h.2 d hd
    | inr hd => exact h' d hd

theorem IsReal.append {n ds : Bytes} (h : IsReal n) (hds : ∀ d ∈ ds, isDigit d = true) :
    IsReal (n ++ ds) := by
  cases h with
  | mk hwhole hfrac =>
      rw [List.append_assoc, List.cons_append]
      exact .mk hwhole (hfrac.append hds)

theorem NumberText.append {n m : Bytes} (h : NumberText n)
    (hm : ∀ x ∈ m, isNumberChar x = true) : NumberText (n ++ m) := by
  obtain ⟨c, s, hn, hc, hs⟩ := h
  refine ⟨c, s ++ m, by rw [hn]; rfl, hc, fun x hx => ?_⟩
  cases List.mem_append.mp hx with
  | inl hx => exact hs x hx
  | inr hx => exact hm x hx

/-- The buffer behind a number at its start: the rest of the token, and a character that ends
it. -/
theorem number_split {data b n rest : Bytes} (h : data ++ [0] = b ++ (n ++ rest))
    (hb : Blanks b) (hn : NumberText n) :
    ∃ m tail, rest = m ++ tail ∧ (∀ x ∈ m, isNumberChar x = true) ∧
      lex D (data ++ [0]) =
        some (.value (strictNumber (n ++ m)) (numberValue D (n ++ m)), tail) := by
  refine ⟨rest.takeWhile isNumberChar, rest.dropWhile isNumberChar,
    List.takeWhile_append_dropWhile.symm, fun x hx => List.mem_takeWhile_imp hx, ?_⟩
  have hfollows : Follows (rest.dropWhile isNumberChar) := by
    obtain ⟨rest', hrest', -⟩ := text_of_buffer h hb.noNul hn.noNul
    cases hdrop : rest.dropWhile isNumberChar with
    | nil =>
        rw [List.dropWhile_eq_nil_iff] at hdrop
        have hzero := hdrop 0 (hrest' ▸ List.mem_append_right rest' List.mem_cons_self)
        exact absurd hzero (by decide)
    | cons d r =>
        have hhead := List.head?_dropWhile_not isNumberChar rest
        rw [hdrop] at hhead
        exact follows_cons (by simpa using hhead) r
  have hchars : ∀ x ∈ rest.takeWhile isNumberChar, isNumberChar x = true :=
    fun x hx => List.mem_takeWhile_imp hx
  have hlex := (hn.append hchars).lex (D := D) hfollows
  rw [List.append_assoc, List.takeWhile_append_dropWhile] at hlex
  rw [h, lex_blanks hb, hlex]

/-- A text that starts with a number with a fraction is read as the longest such number. -/
theorem acceptsJson_of_real (hatof : ∀ n x, IsReal n → D.atof (n ++ 46 :: x) = D.atof n)
    {data : Bytes} (h : StartsReal data) : AcceptsJson D data := by
  intro v hv
  obtain ⟨b, n, rest, hb, hdata, hn⟩ := h
  have hbuffer : data ++ [0] = b ++ (n ++ (rest ++ [0])) := by rw [hdata]; simp
  obtain ⟨m, tail, hrest, hm, hlex⟩ := number_split (D := D) hbuffer hb hn.text
  rw [Parse_of_reads (.scalar hlex)] at hv
  have hdot : numberValue D (n ++ m) = .real (D.atof (n ++ m)) := by
    have hmem : 46 ∈ n := by
      cases hn with
      | mk hwhole hfrac => simp
    exact if_pos (List.mem_append_left m hmem)
  have hlong : IsReal (n ++ m.takeWhile isDigit) :=
    hn.append fun d hd => List.mem_takeWhile_imp hd
  have hsplit := List.takeWhile_append_dropWhile (p := isDigit) (l := m)
  have hatof' : D.atof (n ++ m) = D.atof (n ++ m.takeWhile isDigit) := by
    cases hdrop : m.dropWhile isDigit with
    | nil => rw [hdrop, List.append_nil] at hsplit; rw [hsplit]
    | cons x m' =>
        have hhead := List.head?_dropWhile_not isDigit m
        rw [hdrop] at hhead hsplit
        have hx := hm x (hsplit ▸ List.mem_append_right _ List.mem_cons_self)
        have hx46 : x = 46 := by
          have hnot : isDigit x = false := by simpa using hhead
          simpa [isNumberChar, hnot] using hx
        rw [hx46] at hsplit
        have hstop := hatof _ m' hlong
        rwa [List.append_assoc, hsplit] at hstop
  have hbuffer' : data ++ [0] =
      b ++ ((n ++ m.takeWhile isDigit) ++ (m.dropWhile isDigit ++ tail)) := by
    rw [hbuffer, hrest]
    conv_lhs => rw [← hsplit]
    simp only [List.append_assoc]
  obtain ⟨rest', -, hrest'⟩ := text_of_buffer hbuffer' hb.noNul hlong.text.noNul
  refine ⟨b, _, rest', hb, hrest', ?_⟩
  rw [← Except.ok.inj hv, hdot, hatof']
  exact .real hlong

/-! ## All texts -/

theorem IsInteger.append {n m : Bytes} (h : IsInteger n) (hm : ∀ x ∈ m, isNumberChar x = true)
    (hdot : 46 ∉ m) : IsInteger (n ++ m) := by
  have hdigits : ∀ d ∈ m, isDigit d = true := by
    intro d hd
    have hne : d ≠ 46 := fun he => hdot (he ▸ hd)
    simpa [isNumberChar, hne] using hm d hd
  cases h with
  | plain h => exact .plain (h.append hdigits)
  | minus h => exact .minus (h.append hdigits)

/-- A value of the grammar at the start of the text is read cleanly, or the text starts with a
number with a fraction. -/
theorem clean_of_denotes {data b g rest : Bytes} {v : Json δ} (hb : Blanks b)
    (hdata : data = b ++ (g ++ rest)) (h : Denotes D (.value v) g) (hv : Parse D data = .ok v) :
    StartsReal data ∨ ∃ rest', Reads D true (.value v) (data ++ [0]) rest' := by
  have hbuffer : data ++ [0] = b ++ (g ++ (rest ++ [0])) := by rw [hdata]; simp
  by_cases hnumber : NumberText g
  · obtain ⟨m, tail, -, hm, hlex⟩ := number_split (D := D) hbuffer hb hnumber
    have hvalue := Except.ok.inj ((Parse_of_reads (.scalar hlex)).symm.trans hv)
    have hother : ∀ {c : UInt8} {s : Bytes}, g = c :: s → startsNumber c = true := by
      intro c s hg
      obtain ⟨c', s', hg', hc', -⟩ := hnumber
      rw [hg] at hg'
      rw [(List.cons.inj hg').1]
      exact hc'
    cases h with
    | integer hn =>
        right
        have hdot : 46 ∉ m := by
          intro hmem
          rw [numberValue, if_pos (List.mem_append_right g hmem)] at hvalue
          cases hvalue
        rw [strictNumber_of_integer (hn.append hm hdot), hvalue] at hlex
        exact ⟨tail, .scalar hlex⟩
    | real hn => exact .inl ⟨b, g, rest, hb, hdata, hn⟩
    | null => exact absurd (hother (c := 110) rfl) (by decide)
    | true => exact absurd (hother (c := 116) rfl) (by decide)
    | false => exact absurd (hother (c := 102) rfl) (by decide)
    | string _ => exact absurd (hother (c := 34) rfl) (by decide)
    | emptyArray _ => exact absurd (hother (c := 91) rfl) (by decide)
    | array _ => exact absurd (hother (c := 91) rfl) (by decide)
    | emptyObject _ => exact absurd (hother (c := 123) rfl) (by decide)
    | object _ => exact absurd (hother (c := 123) rfl) (by decide)
  · right
    refine ⟨rest ++ [0], ?_⟩
    rw [hbuffer]
    exact .blanks hb (h.isRead _ fun hg => absurd hg hnumber)

/-- What is read as a value does not start with a mark that is returned. -/
theorem not_returned_of_reads {data rest rest' : Bytes} {clean : Bool} {v : Json δ} {c : UInt8}
    (h : Reads D clean (.value v) (data ++ [0]) rest) (hc : Returned D (data ++ [0]) c rest') :
    False := by
  apply h.not_mark _ hc.1
  rcases hc.2 with hc | hc | hc | hc <;> rw [hc] <;> decide

/-- A number with a fraction is a token of a value. -/
theorem StartsReal.token {data : Bytes} (h : StartsReal data) :
    ∃ clean v rest, Reads D clean (.value v) (data ++ [0]) rest := by
  obtain ⟨b, n, rest, hb, hdata, hn⟩ := h
  have hbuffer : data ++ [0] = b ++ (n ++ (rest ++ [0])) := by rw [hdata]; simp
  obtain ⟨m, tail, -, -, hlex⟩ := number_split (D := D) hbuffer hb hn.text
  exact ⟨_, _, tail, .scalar hlex⟩

theorem wholeDoubles_stop {n : Bytes} (x : Bytes) (h : IsReal n) :
    wholeDoubles.atof (n ++ 46 :: x) = wholeDoubles.atof n := by
  have hstop : ∀ r s : Bytes, strtol (r ++ 46 :: s) = strtol r :=
    strtol_append_stop (by decide) (by decide) (by decide) (by decide)
  cases h with
  | mk hwhole hfrac =>
      rw [List.append_assoc, List.cons_append]
      exact (hstop _ _).trans (hstop _ _).symm

end Json

end CommonCc
