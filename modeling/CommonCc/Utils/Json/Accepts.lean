import CommonCc.Utils.Json.Bounds
import CommonCc.Utils.Json.Grammar

/-!
# What the parser accepts

The parser accepts what `Reads` reads, and a clean reading is a derivation of the grammar.
-/

namespace CommonCc

namespace Json

variable {δ : Type} {D : DoubleText δ}

/-! ## Readings and runs -/

section Runs

variable {t s rest : Bytes} {clean : Bool} {v : Json δ}

theorem parse_lex_value (h : lex D t = some (.value clean v, rest)) (fuel : Nat) :
    parse D (fuel + 1) t = .ok (0, v, rest) := by
  have hparse := parsesAs_lex (D := D) t
  rw [h] at hparse
  exact hparse fuel

theorem parse_lex_mark {c : UInt8} (h : lex D t = some (.mark c, rest)) (fuel : Nat) :
    parse D fuel t = parse D fuel (c :: rest) := by
  have hparse := parsesAs_lex (D := D) t
  rw [h] at hparse
  exact hparse.2 fuel

theorem parse_lex_closer {c : UInt8} (h : lex D t = some (.mark c, rest))
    (hc : c = 93 ∨ c = 125 ∨ c = 44 ∨ c = 58) (fuel : Nat) :
    parse D (fuel + 1) t = .ok (c, .unknown, rest) := by
  rw [parse_lex_mark h, parse_mark hc]

/-- What a reading means for the parser: with enough steps it ends with what was read. -/
def Task.Parses (D : DoubleText δ) (t rest : Bytes) : Task δ → Prop
  | .value v => ∀ fuel, 2 * t.length + 1 ≤ fuel → parse D fuel t = .ok (0, v, rest)
  | .elements _ l => ∀ fuel acc, 2 * t.length + 2 ≤ fuel →
      parseArray D fuel t acc = .ok (0, .array (acc ++ l), rest)
  | .members _ l => ∀ fuel name acc, 2 * t.length + 2 ≤ fuel →
      parseObject D fuel t 0 name acc =
        .ok (0, .object (l.foldl (fun m p => insertOrAssign p.1 p.2 m) acc), rest)

theorem exists_steps {n fuel : Nat} (h : n ≤ fuel) : ∃ f, fuel = f + n :=
  ⟨fuel - n, (Nat.sub_add_cancel h).symm⟩

/-- The turns of the loop over an object that read a member. -/
theorem parseObject_read {name name' : Bytes} {s' s'' : Bytes} {fuel : Nat}
    (h : parse D (fuel + 2) t = .ok (0, .string name, s))
    (hcolon : parse D (fuel + 1) s = .ok (58, .unknown, s'))
    (hv : parse D fuel s' = .ok (0, v, s'')) (acc : List (Bytes × Json δ)) :
    parseObject D (fuel + 3) t 0 name' acc =
      parseObject D fuel s'' 0 name (insertOrAssign name v acc) := by
  rw [parseObject, h]
  change parseObject D (fuel + 2) s 1 name acc = _
  rw [parseObject, hcolon]
  change parseObject D (fuel + 1) s' 2 name acc = _
  rw [parseObject, hv]
  rfl

theorem Reads.parses {task : Task δ} (h : Reads D clean task t rest) :
    rest.length < t.length ∧ task.Parses D t rest := by
  induction h with
  | scalar h =>
      constructor
      · exact lex_shorter h
      · intro fuel hfuel
        obtain ⟨f, rfl⟩ := exists_steps (n := 1) (Nat.le_trans (Nat.le_add_left 1 _) hfuel)
        exact parse_lex_value h f
  | array h _ ih =>
      have hlen := lex_shorter h
      constructor
      · omega
      · intro fuel hfuel
        obtain ⟨f, rfl⟩ := exists_steps (n := 1) (Nat.le_trans (Nat.le_add_left 1 _) hfuel)
        rw [parse_lex_mark h, parse_open_array]
        exact ih.2 f [] (by omega)
  | object h _ ih =>
      have hlen := lex_shorter h
      constructor
      · omega
      · intro fuel hfuel
        obtain ⟨f, rfl⟩ := exists_steps (n := 1) (Nat.le_trans (Nat.le_add_left 1 _) hfuel)
        rw [parse_lex_mark h, parse_open_object]
        exact ih.2 f [] [] (by omega)
  | arrayClose h =>
      constructor
      · exact lex_shorter h
      · intro fuel acc hfuel
        obtain ⟨f, rfl⟩ := exists_steps (n := 2) (Nat.le_trans (Nat.le_add_left 2 _) hfuel)
        rw [parseArray, parse_lex_closer h (by simp), List.append_nil]
        rfl
  | arrayComma h _ ih =>
      have hlen := lex_shorter h
      constructor
      · omega
      · intro fuel acc hfuel
        obtain ⟨f, rfl⟩ := exists_steps (n := 2) (Nat.le_trans (Nat.le_add_left 2 _) hfuel)
        rw [parseArray, parse_lex_closer h (by simp)]
        exact ih.2 (f + 1) acc (by omega)
  | element _ _ ih ihs =>
      constructor
      · exact Nat.lt_trans ihs.1 ih.1
      · intro fuel acc hfuel
        obtain ⟨f, rfl⟩ := exists_steps (n := 1) (Nat.le_trans (by omega) hfuel)
        have hlen := ih.1
        rw [parseArray_value (ih.2 f (by omega)), ihs.2 f _ (by omega), List.append_assoc]
        rfl
  | objectClose h =>
      constructor
      · exact lex_shorter h
      · intro fuel name acc hfuel
        obtain ⟨f, rfl⟩ := exists_steps (n := 2) (Nat.le_trans (Nat.le_add_left 2 _) hfuel)
        rw [parseObject, parse_lex_closer h (by simp)]
        rfl
  | objectComma h _ ih =>
      have hlen := lex_shorter h
      constructor
      · omega
      · intro fuel name acc hfuel
        obtain ⟨f, rfl⟩ := exists_steps (n := 2) (Nat.le_trans (Nat.le_add_left 2 _) hfuel)
        rw [parseObject, parse_lex_closer h (by simp)]
        exact ih.2 (f + 1) name acc (by omega)
  | member h hcolon _ _ ih ihs =>
      have hname := lex_shorter h
      have hmark := lex_shorter hcolon
      have hvalue := ih.1
      constructor
      · exact Nat.lt_trans ihs.1 (by omega)
      · intro fuel name acc hfuel
        obtain ⟨f, rfl⟩ := exists_steps (n := 3) (Nat.le_trans (by omega) hfuel)
        rw [parseObject_read (parse_lex_value h _) (parse_lex_closer hcolon (by simp) _)
          (ih.2 f (by omega)), ihs.2 f _ _ (by omega)]
        rfl

/-- A mark that `parse` returns to a loop. -/
def Returned (D : DoubleText δ) (t : Bytes) (c : UInt8) (rest : Bytes) : Prop :=
  lex D t = some (.mark c, rest) ∧ (c = 93 ∨ c = 125 ∨ c = 44 ∨ c = 58)

/-- What a run of the parser has read. -/
structure RunsRead (D : DoubleText δ) (fuel : Nat) : Prop where
  value : ∀ t res v rest, parse D fuel t = .ok (res, v, rest) →
    (res = 0 ∧ ∃ clean, Reads D clean (.value v) t rest) ∨ (v = .unknown ∧ Returned D t res rest)
  array : ∀ t acc res v rest, parseArray D fuel t acc = .ok (res, v, rest) →
    res = 0 ∧ ∃ l, v = .array (acc ++ l) ∧ ∀ prev, ∃ clean, Reads D clean (.elements prev l) t rest
  object : ∀ t name acc res v rest, parseObject D fuel t 0 name acc = .ok (res, v, rest) →
    res = 0 ∧ ∃ l, v = .object (l.foldl (fun m p => insertOrAssign p.1 p.2 m) acc) ∧
      ∀ prev, ∃ clean, Reads D clean (.members prev l) t rest

/-- A loop that ends with a result has read a token or a value. -/
theorem parseAt_inv {p : Place} (hp : p ≠ .value) {a : Collected δ} {fuel : Nat}
    {r : UInt8 × Json δ × Bytes} (h : parseAt D p a (fuel + 1) t = .ok r) :
    ∃ res o s, parse D fuel t = .ok (res, o, s) ∧
      (match turn p a res o s with
        | .inl (p', a') => parseAt D p' a' fuel s
        | .inr r => r) = .ok r := by
  cases hparse : parse D fuel t with
  | error e =>
      rw [parseAt_error hp a hparse] at h
      cases h
  | ok x => exact ⟨x.1, x.2.1, x.2.2, rfl, (parseAt_ok hp a hparse).symm.trans h⟩

theorem read_parse {fuel : Nat} (ih : RunsRead D fuel) {res : UInt8}
    (h : parse D (fuel + 1) t = .ok (res, v, rest)) :
    (res = 0 ∧ ∃ clean, Reads D clean (.value v) t rest) ∨
      (v = .unknown ∧ Returned D t res rest) := by
  have hat := parsesAs_lex (D := D) t
  cases hlex : lex D t with
  | none =>
      rw [hlex] at hat
      cases hat fuel with
      | intro e he => rw [he] at h; cases h
  | some k =>
      match k, hlex with
      | (.value clean o, s), hlex =>
          rw [parse_lex_value hlex] at h
          cases h
          exact .inl ⟨rfl, clean, .scalar hlex⟩
      | (.mark c, s), hlex =>
          rw [hlex] at hat
          have hc := hat.1
          rw [parse_lex_mark hlex] at h
          by_cases h91 : c = 91
          · rw [h91, parse_open_array] at h
            obtain ⟨hres, l, hl, hread⟩ := ih.array s [] res v rest h
            obtain ⟨clean, hclean⟩ := hread .bracket
            rw [hl]
            exact .inl ⟨hres, clean, .array (h91 ▸ hlex) hclean⟩
          by_cases h123 : c = 123
          · rw [h123, parse_open_object] at h
            obtain ⟨hres, l, hl, hread⟩ := ih.object s [] [] res v rest h
            obtain ⟨clean, hclean⟩ := hread .bracket
            rw [hl]
            exact .inl ⟨hres, clean, .object (h123 ▸ hlex) hclean⟩
          have hcloser : c = 93 ∨ c = 125 ∨ c = 44 ∨ c = 58 := by
            simp only [isMark, Bool.or_eq_true, decide_eq_true_eq] at hc
            tauto
          rw [parse_mark hcloser] at h
          cases h
          exact .inr ⟨rfl, hlex, hcloser⟩

theorem read_array_turn {fuel : Nat} (ih : RunsRead D fuel) {acc : List (Json δ)} {res : UInt8}
    (h : parseArray D (fuel + 1) t acc = .ok (res, v, rest)) :
    res = 0 ∧ ∃ l, v = .array (acc ++ l) ∧
      ∀ prev, ∃ clean, Reads D clean (.elements prev l) t rest := by
  obtain ⟨c, o, s, hparse, hturn⟩ := parseAt_inv (p := .array) (a := ⟨acc, [], []⟩) (by simp) h
  cases ih.value t c o s hparse with
  | inl hvalue =>
      obtain ⟨hc, clean, hread⟩ := hvalue
      rw [hc] at hturn
      obtain ⟨hres, l, hl, hreads⟩ := ih.array s (acc ++ [o]) res v rest hturn
      obtain ⟨clean', hread'⟩ := hreads .item
      exact ⟨hres, o :: l, by rw [hl, List.append_assoc]; rfl, fun prev => ⟨_, .element hread hread'⟩⟩
  | inr hmark =>
      obtain ⟨-, hlex, hc⟩ := hmark
      rcases hc with hc | hc | hc | hc <;> rw [hc] at hturn hlex
      · cases hturn
        exact ⟨rfl, [], by rw [List.append_nil], fun prev => ⟨_, .arrayClose hlex⟩⟩
      · cases hturn
      · obtain ⟨hres, l, hl, hreads⟩ := ih.array s acc res v rest hturn
        obtain ⟨clean, hread⟩ := hreads .comma
        exact ⟨hres, l, hl, fun prev => ⟨_, .arrayComma hlex hread⟩⟩
      · cases hturn

/-- A string that was read is a token. -/
theorem Reads.string {name : Bytes} (h : Reads D clean (.value (.string name)) t rest) :
    lex D t = some (.value clean (.string name), rest) := by
  cases h with
  | scalar h => exact h

theorem read_object_turn {fuel : Nat} (ih : ∀ f, f ≤ fuel → RunsRead D f) {name : Bytes}
    {acc : List (Bytes × Json δ)} {res : UInt8}
    (h : parseObject D (fuel + 1) t 0 name acc = .ok (res, v, rest)) :
    res = 0 ∧ ∃ l, v = .object (l.foldl (fun m p => insertOrAssign p.1 p.2 m) acc) ∧
      ∀ prev, ∃ clean, Reads D clean (.members prev l) t rest := by
  obtain ⟨c, o, s, hparse, hturn⟩ := parseAt_inv (p := .name) (a := ⟨[], name, acc⟩) (by simp) h
  cases (ih fuel (Nat.le_refl _)).value t c o s hparse with
  | inl hvalue =>
      obtain ⟨hc, clean, hread⟩ := hvalue
      rw [hc] at hturn
      cases o with
      | string key =>
          -- the colon and the value are read in the next two turns
          change parseAt D .colon ⟨[], key, acc⟩ fuel s = _ at hturn
          cases fuel with
          | zero => cases hturn
          | succ fuel =>
              obtain ⟨c', o', s', hparse', hturn'⟩ := parseAt_inv (by simp) hturn
              have hcolon : c' = 58 := by
                apply Decidable.byContradiction
                intro hne
                rw [turn, if_pos hne] at hturn'
                cases hturn'
              rw [hcolon] at hparse' hturn'
              change parseAt D .content ⟨[], key, acc⟩ fuel s' = _ at hturn'
              cases (ih fuel (by omega)).value s 58 o' s' hparse' with
              | inl hzero => exact absurd hzero.1 (by decide)
              | inr hmark =>
                  cases fuel with
                  | zero => cases hturn'
                  | succ fuel =>
                      obtain ⟨c'', x, s'', hparse'', hturn''⟩ := parseAt_inv (by simp) hturn'
                      have hzero : c'' = 0 := by
                        apply Decidable.byContradiction
                        intro hne
                        rw [turn, if_pos hne] at hturn''
                        cases hturn''
                      rw [hzero] at hparse'' hturn''
                      change parseObject D fuel s'' 0 key (insertOrAssign key x acc) = _ at hturn''
                      cases (ih fuel (by omega)).value s' 0 x s'' hparse'' with
                      | inr hmark' => exact absurd hmark'.2.2 (by decide)
                      | inl hvalue' =>
                          obtain ⟨-, clean', hread'⟩ := hvalue'
                          obtain ⟨hres, l, hl, hreads⟩ :=
                            (ih fuel (by omega)).object s'' key _ res v rest hturn''
                          obtain ⟨clean'', hread''⟩ := hreads .item
                          exact ⟨hres, (key, x) :: l, hl, fun prev =>
                            ⟨_, .member hread.string hmark.2.1 hread' hread''⟩⟩
      | _ => cases hturn
  | inr hmark =>
      obtain ⟨-, hlex, hc⟩ := hmark
      rcases hc with hc | hc | hc | hc <;> rw [hc] at hturn hlex
      · cases hturn
      · cases hturn
        exact ⟨rfl, [], rfl, fun prev => ⟨_, .objectClose hlex⟩⟩
      · obtain ⟨hres, l, hl, hreads⟩ :=
          (ih fuel (Nat.le_refl _)).object s name acc res v rest hturn
        obtain ⟨clean, hread⟩ := hreads .comma
        exact ⟨hres, l, hl, fun prev => ⟨_, .objectComma hlex hread⟩⟩
      · cases hturn

theorem runsRead (fuel : Nat) : RunsRead D fuel := by
  induction fuel using Nat.strong_induction_on with
  | h fuel ih =>
      cases fuel with
      | zero =>
          constructor
          · intro t res v rest h
            cases h
          · intro t acc res v rest h
            cases h
          · intro t name acc res v rest h
            cases h
      | succ fuel =>
          have hsmall : ∀ f, f ≤ fuel → RunsRead D f := fun f hf => ih f (Nat.lt_succ_of_le hf)
          constructor
          · intro t res v rest h
            exact read_parse (hsmall fuel (Nat.le_refl _)) h
          · intro t acc res v rest h
            exact read_array_turn (hsmall fuel (Nat.le_refl _)) h
          · intro t name acc res v rest h
            exact read_object_turn hsmall h

end Runs

/-! ## Numbers and strings -/

section Numbers

variable {n ds rest : Bytes}

theorem digits_iff : digits ds = true ↔ IsDigits ds := by
  simp [digits, IsDigits, List.all_eq_true]

theorem IsDigits.takeWhile (h : IsDigits ds) {s : Bytes} (hs : ∀ c ∈ s.head?, isDigit c = false) :
    (ds ++ s).takeWhile isDigit = ds ∧ (ds ++ s).dropWhile isDigit = s := by
  rw [List.takeWhile_append_of_pos h.2, List.dropWhile_append_of_pos h.2]
  cases s with
  | nil => simp
  | cons c s =>
      have hc : ¬ isDigit c = true := by simpa using hs c rfl
      simp [hc]

theorem IsInteger.split (h : IsInteger n) :
    ∃ ds, IsDigits ds ∧ ∀ s, unsigned (n ++ s) = ds ++ s := by
  cases h with
  | plain h =>
      refine ⟨n, h, fun s => ?_⟩
      cases n with
      | nil => exact absurd rfl h.1
      | cons c n =>
          have hc : c ≠ 45 := (plain_of_isDigit (h.2 c List.mem_cons_self)).2.1
          exact if_neg hc
  | @minus ds h =>
      refine ⟨ds, h, fun s => ?_⟩
      rw [List.cons_append, unsigned, if_pos rfl]

theorem strictNumber_of_integer (h : IsInteger n) : strictNumber n = true := by
  obtain ⟨ds, hds, hsplit⟩ := h.split
  have hall := hds.takeWhile (s := []) (by simp)
  have hn := hsplit []
  rw [List.append_nil, List.append_nil] at hn
  rw [List.append_nil] at hall
  rw [strictNumber, hn, hall.1, hall.2, digits_iff.mpr hds]
  rfl

theorem strictNumber_of_real (h : IsReal n) : strictNumber n = true := by
  cases h with
  | @mk whole frac hwhole hfrac =>
      obtain ⟨ds, hds, hsplit⟩ := hwhole.split
      have hall := hds.takeWhile (s := 46 :: frac) (by simp; decide)
      rw [strictNumber, hsplit, hall.1, hall.2, digits_iff.mpr hds]
      simp [digits_iff.mpr hfrac]

theorem number_of_strict (h : strictNumber n = true) : IsInteger n ∨ IsReal n := by
  have hsign : ∃ sgn, n = sgn ++ unsigned n ∧ ∀ ds, IsDigits ds → IsInteger (sgn ++ ds) := by
    cases n with
    | nil => exact ⟨[], rfl, fun ds hds => .plain hds⟩
    | cons c n =>
        by_cases hc : c = 45
        · refine ⟨[45], ?_, fun ds hds => .minus hds⟩
          rw [unsigned, if_pos hc, hc]
          rfl
        · refine ⟨[], ?_, fun ds hds => .plain hds⟩
          rw [unsigned, if_neg hc]
          rfl
  obtain ⟨sgn, hn, hint⟩ := hsign
  rw [strictNumber, Bool.and_eq_true, digits_iff] at h
  have hsplit := List.takeWhile_append_dropWhile (p := isDigit) (l := unsigned n)
  have hwhole := hint _ h.1
  have hrest := h.2
  cases hdrop : (unsigned n).dropWhile isDigit with
  | nil =>
      rw [hdrop, List.append_nil] at hsplit
      rw [hsplit, ← hn] at hwhole
      exact .inl hwhole
  | cons c frac =>
      rw [hdrop] at hrest hsplit
      simp only [Bool.and_eq_true, decide_eq_true_eq, digits_iff] at hrest
      rw [hrest.1] at hsplit
      right
      rw [hn, ← hsplit, ← List.append_assoc]
      exact .mk hwhole hrest.2

theorem IsDigits.noDot (h : IsDigits ds) : 46 ∉ ds := by
  intro hdot
  exact absurd (h.2 46 hdot) (by decide)

theorem IsInteger.noDot (h : IsInteger n) : 46 ∉ n := by
  cases h with
  | plain h => exact h.noDot
  | minus h => simp [h.noDot]

theorem IsInteger.value (h : IsInteger n) : numberValue D n = .integer (atoi n) :=
  if_neg h.noDot

theorem IsReal.value (h : IsReal n) : numberValue D n = .real (D.atof n) := by
  cases h with
  | mk hwhole hfrac => exact if_pos (by simp)

/-- The characters of a number. -/
def NumberText (n : Bytes) : Prop :=
  ∃ c s, n = c :: s ∧ startsNumber c = true ∧ ∀ x ∈ s, isNumberChar x = true

theorem IsDigits.text (h : IsDigits ds) : ∀ x ∈ ds, isNumberChar x = true :=
  fun x hx => isNumberChar_of_isDigit (h.2 x hx)

theorem IsInteger.text (h : IsInteger n) : NumberText n := by
  cases h with
  | plain h =>
      cases n with
      | nil => exact absurd rfl h.1
      | cons c n =>
          refine ⟨c, n, rfl, ?_, fun x hx => h.text x (List.mem_cons_of_mem _ hx)⟩
          simp [startsNumber, h.2 c List.mem_cons_self]
  | minus h => exact ⟨45, _, rfl, by decide, h.text⟩

theorem IsReal.text (h : IsReal n) : NumberText n := by
  cases h with
  | @mk whole frac hwhole hfrac =>
      obtain ⟨c, s, hn, hc, hs⟩ := hwhole.text
      refine ⟨c, s ++ 46 :: frac, by rw [hn]; rfl, hc, fun x hx => ?_⟩
      cases List.mem_append.mp hx with
      | inl hx => exact hs x hx
      | inr hx =>
          cases List.mem_cons.mp hx with
          | inl hx => rw [hx]; decide
          | inr hx => exact hfrac.text x hx

/-- A number is read to its end. -/
theorem NumberText.lex (h : NumberText n) (hrest : Follows rest) :
    lex D (n ++ rest) = some (.value (strictNumber n) (numberValue D n), rest) := by
  obtain ⟨c, s, hn, hc, hs⟩ := h
  obtain ⟨d, r, hr, hd⟩ := hrest
  have hstop : ¬ isNumberChar d = true := by simp [hd]
  have htake : (s ++ d :: r).takeWhile isNumberChar = s := by
    rw [List.takeWhile_append_of_pos hs, List.takeWhile_cons_of_neg hstop, List.append_nil]
  have hdrop : (s ++ d :: r).dropWhile isNumberChar = d :: r := by
    rw [List.dropWhile_append_of_pos hs, List.dropWhile_cons_of_neg hstop]
  rw [hn, hr, List.cons_append, lex_cons (not_blank_of_startsNumber hc), lexAt, if_pos hc, hdrop]
  dsimp only
  rw [htake]

end Numbers

theorem scanString_body {body : Bytes} (h : StringBody body) (rest : Bytes) :
    scanString false (body ++ 34 :: rest) = .ok (body, 34 :: rest) := by
  induction h with
  | nil => simp [scanString]
  | plain hnul hquote hslash _ ih =>
      simp [scanString, hnul, hquote, hslash, ih, bind, Except.bind, pure, Except.pure]
  | escape hnul _ ih =>
      simp [scanString, hnul, ih, bind, Except.bind, pure, Except.pure]

theorem stringBody_of_scanString {ign : Bool} {s body rest : Bytes}
    (h : scanString ign s = .ok (body, 34 :: rest)) :
    if ign then ∃ c body', body = c :: body' ∧ c ≠ 0 ∧ StringBody body' else StringBody body := by
  induction s generalizing ign body with
  | nil => cases h
  | cons c s ih =>
      rw [scanString] at h
      split at h
      · next hgo =>
          cases hs : scanString (if ign = true then false else decide (c = 92)) s with
          | error e => rw [hs] at h; cases h
          | ok r =>
              rw [hs] at h
              cases r with
              | mk body' tail =>
                  cases h
                  have hbody := ih hs
                  cases ign with
                  | true => exact ⟨c, body', rfl, hgo.1, hbody⟩
                  | false =>
                      by_cases hslash : c = 92
                      · rw [hslash] at hbody ⊢
                        obtain ⟨d, body'', hd, hnul, hrest⟩ := hbody
                        rw [hd]
                        exact .escape hnul hrest
                      · simp only [Bool.false_eq_true, if_false, hslash, decide_false] at hbody
                        exact .plain hgo.1 (by simpa using hgo.2) hslash hbody
      · next hstop =>
          cases h
          cases ign with
          | true => exact absurd ⟨by decide, .inl rfl⟩ hstop
          | false => exact .nil

end Json

end CommonCc
