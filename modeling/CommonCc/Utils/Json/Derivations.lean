import CommonCc.Utils.Json.Accepts

/-!
# Derivations and clean readings

A text of the grammar is read cleanly, and what is read cleanly is a text of the grammar.
Which texts the parser accepts as if they were JSON.
-/

namespace CommonCc

namespace Json

variable {δ : Type} {D : DoubleText δ}

section Tokens

variable {t s rest b : Bytes} {clean : Bool} {v : Json δ}

theorem Reads.blanks {task : Task δ} (hb : Blanks b) (h : Reads D clean task t rest) :
    Reads D clean task (b ++ t) rest := by
  induction h with
  | scalar h => exact .scalar ((lex_blanks hb _).trans h)
  | array h hs _ => exact .array ((lex_blanks hb _).trans h) hs
  | object h hs _ => exact .object ((lex_blanks hb _).trans h) hs
  | arrayClose h => exact .arrayClose ((lex_blanks hb _).trans h)
  | arrayComma h hs _ => exact .arrayComma ((lex_blanks hb _).trans h) hs
  | element _ hs ih _ => exact .element ih hs
  | objectClose h => exact .objectClose ((lex_blanks hb _).trans h)
  | objectComma h hs _ => exact .objectComma ((lex_blanks hb _).trans h) hs
  | member h hcolon hv hs _ _ => exact .member ((lex_blanks hb _).trans h) hcolon hv hs

theorem lex_mark {c : UInt8} (hc : isMark c = true) (hb : Blanks b) (rest : Bytes) :
    lex D (b ++ c :: rest) = some (.mark c, rest) := by
  have hall : ∀ c, isMark c = true → isBlank c = false ∧ startsNumber c = false ∧ c ≠ 34 ∧
      isTypeCode c = false ∧ c ≠ 110 ∧ c ≠ 116 ∧ c ≠ 102 := by
    intro c hc
    simp only [isMark, Bool.or_eq_true, decide_eq_true_eq] at hc
    rcases hc with ((((h | h) | h) | h) | h) | h <;> rw [h] <;> decide
  obtain ⟨hblank, hnumber, hquote, hcode, hn, ht, hf⟩ := hall c hc
  have hword : ∀ {a : UInt8} {l : Bytes}, c ≠ a → ¬ a :: l <+: c :: rest := by
    intro a l hne hpre
    exact hne (List.cons_prefix_cons.mp hpre).1.symm
  have hnull : ¬ nullText <+: c :: rest := hword hn
  have htrue : ¬ trueText <+: c :: rest := hword ht
  have hfalse : ¬ falseText <+: c :: rest := hword hf
  rw [lex_blanks hb, lex_cons hblank, lexAt, if_neg (by simp [hnumber]), if_neg hquote,
    if_neg hnull, if_neg htrue, if_neg hfalse, if_neg (by simp [hcode]), if_pos hc]

theorem lex_string {body : Bytes} (h : StringBody body) (hb : Blanks b) (rest : Bytes) :
    lex D (b ++ 34 :: (body ++ 34 :: rest)) = some (.value true (.string (decode body)), rest) := by
  rw [lex_blanks hb, lex_cons (by decide), lexAt, if_neg (by decide), if_pos rfl,
    scanString_body h]
  rfl

theorem lex_null (rest : Bytes) : lex D (nullText ++ rest) = some (.value true .unknown, rest) := by
  have hpre : nullText <+: nullText ++ rest := List.prefix_append _ _
  rw [show nullText ++ rest = 110 :: (ascii ['u', 'l', 'l'] ++ rest) from rfl] at hpre ⊢
  rw [lex_cons (by decide), lexAt, if_neg (by decide), if_neg (by decide), if_pos hpre]
  rfl

theorem lex_true (rest : Bytes) :
    lex D (trueText ++ rest) = some (.value true (.boolean true), rest) := by
  have hpre : trueText <+: trueText ++ rest := List.prefix_append _ _
  have hnull : ¬ nullText <+: trueText ++ rest := by simp [nullText, trueText, ascii]
  rw [show trueText ++ rest = 116 :: (ascii ['r', 'u', 'e'] ++ rest) from rfl] at hpre hnull ⊢
  rw [lex_cons (by decide), lexAt, if_neg (by decide), if_neg (by decide), if_neg hnull,
    if_pos hpre]
  rfl

theorem lex_false (rest : Bytes) :
    lex D (falseText ++ rest) = some (.value true (.boolean false), rest) := by
  have hpre : falseText <+: falseText ++ rest := List.prefix_append _ _
  have hnull : ¬ nullText <+: falseText ++ rest := by simp [nullText, falseText, ascii]
  have htrue : ¬ trueText <+: falseText ++ rest := by simp [trueText, falseText, ascii]
  rw [show falseText ++ rest = 102 :: (ascii ['a', 'l', 's', 'e'] ++ rest) from rfl]
    at hpre hnull htrue ⊢
  rw [lex_cons (by decide), lexAt, if_neg (by decide), if_neg (by decide), if_neg hnull,
    if_neg htrue, if_pos hpre]
  rfl

/-- A token that is a mark is the mark behind some blanks. -/
theorem mark_of_lex {c : UInt8} (h : lex D t = some (.mark c, rest)) :
    ∃ b, Blanks b ∧ t = b ++ c :: rest := by
  obtain ⟨b, hb, ht⟩ := exists_blanks t
  rw [lex] at h
  cases hdrop : t.dropWhile isBlank with
  | nil => rw [hdrop] at h; cases h
  | cons d s =>
      rw [hdrop] at h ht
      dsimp only at h
      rw [lexAt] at h
      split at h
      · cases hs : s.dropWhile isNumberChar with
        | nil => rw [hs] at h; cases h
        | cons x r => rw [hs] at h; cases h
      split at h
      · cases hs : scanString false s with
        | error e => rw [hs] at h; cases h
        | ok r =>
            rw [hs] at h
            cases r with
            | mk body tail =>
                cases tail with
                | nil => cases h
                | cons q tail => cases h
      repeat' split at h
      all_goals cases h
      exact ⟨b, hb, ht⟩

/-- A clean token of a value is a text of the grammar. -/
theorem denotes_of_lex (h : lex D t = some (.value true v, rest)) :
    ∃ b g, Blanks b ∧ t = b ++ (g ++ rest) ∧ Denotes D (.value v) g := by
  obtain ⟨b, hb, ht⟩ := exists_blanks t
  refine ⟨b, ?_⟩
  rw [lex] at h
  cases hdrop : t.dropWhile isBlank with
  | nil => rw [hdrop] at h; cases h
  | cons c s =>
      rw [hdrop] at h ht
      dsimp only at h
      have hword : ∀ {word : Bytes} {v : Json δ}, word <+: c :: s → Denotes D (.value v) word →
          ∃ g, Blanks b ∧ t = b ++ (g ++ (c :: s).drop word.length) ∧ Denotes D (.value v) g := by
        intro word v hpre hden
        refine ⟨word, hb, ?_, hden⟩
        rw [ht, List.prefix_iff_eq_append.mp hpre]
      rw [lexAt] at h
      split at h
      · cases hs : s.dropWhile isNumberChar with
        | nil => rw [hs] at h; cases h
        | cons d r =>
            rw [hs] at h
            simp only [Option.some.injEq, Prod.mk.injEq, Tok.value.injEq] at h
            obtain ⟨⟨hstrict, hv⟩, hrest⟩ := h
            refine ⟨c :: s.takeWhile isNumberChar, hb, ?_, ?_⟩
            · rw [ht, ← hrest, ← hs, List.cons_append, List.takeWhile_append_dropWhile]
            · cases number_of_strict hstrict with
              | inl hn => rw [← hv, hn.value]; exact .integer hn
              | inr hn => rw [← hv, hn.value]; exact .real hn
      split at h
      · next hquote =>
          cases hs : scanString false s with
          | error e => rw [hs] at h; cases h
          | ok r =>
              rw [hs] at h
              cases r with
              | mk body tail =>
                  cases tail with
                  | nil => cases h
                  | cons q tail =>
                      simp only [Option.some.injEq, Prod.mk.injEq, Tok.value.injEq,
                        decide_eq_true_eq] at h
                      obtain ⟨⟨hq, hv⟩, hrest⟩ := h
                      rw [hq] at hs
                      refine ⟨34 :: (body ++ [34]), hb, ?_, ?_⟩
                      · rw [ht, (scanString_spec hs).1, hquote, hrest]
                        simp
                      · rw [← hv]
                        exact .string (stringBody_of_scanString hs)
      split at h
      · next hpre => cases h; exact hword hpre .null
      split at h
      · next hpre => cases h; exact hword hpre .true
      split at h
      · next hpre => cases h; exact hword hpre .false
      repeat' split at h
      all_goals cases h

end Tokens

/-! ## From the grammar to the parser -/

theorem follows_mark {b rest : Bytes} {c : UInt8} (hb : Blanks b) (hc : isMark c = true) :
    Follows (b ++ c :: rest) := by
  cases b with
  | nil =>
      refine follows_cons ?_ rest
      simp only [isMark, Bool.or_eq_true, decide_eq_true_eq] at hc
      rcases hc with ((((h | h) | h) | h) | h) | h <;> rw [h] <;> decide
  | cons d b =>
      refine follows_cons ?_ _
      have hd := hb d List.mem_cons_self
      simp only [isBlank, Bool.or_eq_true, decide_eq_true_eq] at hd
      rcases hd with ((h | h) | h) | h <;> rw [h] <;> decide

theorem blanks_nil : Blanks [] := by
  intro c hc
  cases hc

section Clean

variable {t s rest : Bytes} {prev : Prev}

theorem Reads.arrayClose_clean (hprev : prev ≠ .comma) (h : lex D t = some (.mark 93, rest)) :
    Reads D true (.elements prev []) t rest := by
  have hread : Reads D (prev ≠ .comma) (.elements prev []) t rest := .arrayClose h
  rwa [decide_eq_true hprev] at hread

theorem Reads.objectClose_clean (hprev : prev ≠ .comma) (h : lex D t = some (.mark 125, rest)) :
    Reads D true (.members prev []) t rest := by
  have hread : Reads D (prev ≠ .comma) (.members prev []) t rest := .objectClose h
  rwa [decide_eq_true hprev] at hread

theorem Reads.arrayComma_clean {l : List (Json δ)} (h : lex D t = some (.mark 44, s))
    (hs : Reads D true (.elements .comma l) s rest) : Reads D true (.elements .item l) t rest := by
  have hread : Reads D (.item = Prev.item && true) (.elements .item l) t rest := .arrayComma h hs
  exact hread

theorem Reads.objectComma_clean {l : List (Bytes × Json δ)} (h : lex D t = some (.mark 44, s))
    (hs : Reads D true (.members .comma l) s rest) : Reads D true (.members .item l) t rest := by
  have hread : Reads D (.item = Prev.item && true) (.members .item l) t rest := .objectComma h hs
  exact hread

theorem Reads.element_clean {v : Json δ} {l : List (Json δ)} (hprev : prev ≠ .item)
    (h : Reads D true (.value v) t s) (hs : Reads D true (.elements .item l) s rest) :
    Reads D true (.elements prev (v :: l)) t rest := by
  have hread : Reads D (prev ≠ .item && (true && true)) (.elements prev (v :: l)) t rest :=
    .element h hs
  rwa [decide_eq_true hprev] at hread

theorem Reads.member_clean {name : Bytes} {v : Json δ} {l : List (Bytes × Json δ)}
    {s' s'' : Bytes} (hprev : prev ≠ .item) (h : lex D t = some (.value true (.string name), s))
    (hcolon : lex D s = some (.mark 58, s')) (hv : Reads D true (.value v) s' s'')
    (hs : Reads D true (.members .item l) s'' rest) :
    Reads D true (.members prev ((name, v) :: l)) t rest := by
  have hread : Reads D (prev ≠ .item && (true && (true && true)))
      (.members prev ((name, v) :: l)) t rest := .member h hcolon hv hs
  rwa [decide_eq_true hprev] at hread

end Clean

/-- What a text of the grammar is for the parser. -/
def Part.IsRead (D : DoubleText δ) (g : Bytes) : Part δ → Prop
  | .value v => ∀ rest, (NumberText g → Follows rest) → Reads D true (.value v) (g ++ rest) rest
  | .elements l => ∀ rest prev, prev ≠ .item → Reads D true (.elements prev l) (g ++ 93 :: rest) rest
  | .members l => ∀ rest prev, prev ≠ .item → Reads D true (.members prev l) (g ++ 125 :: rest) rest

theorem Denotes.isRead {part : Part δ} {g : Bytes} (h : Denotes D part g) : part.IsRead D g := by
  induction h with
  | null => exact fun rest _ => .scalar (lex_null rest)
  | true => exact fun rest _ => .scalar (lex_true rest)
  | false => exact fun rest _ => .scalar (lex_false rest)
  | integer h =>
      intro rest hrest
      have hlex := h.text.lex (D := D) (hrest h.text)
      rw [strictNumber_of_integer h, h.value] at hlex
      exact .scalar hlex
  | real h =>
      intro rest hrest
      have hlex := h.text.lex (D := D) (hrest h.text)
      rw [strictNumber_of_real h, h.value] at hlex
      exact .scalar hlex
  | string h =>
      intro rest _
      rw [List.cons_append, List.append_assoc]
      exact .scalar (lex_string h blanks_nil rest)
  | emptyArray hb =>
      intro rest _
      rw [List.cons_append, List.append_assoc]
      exact .array (lex_mark rfl blanks_nil _) (.arrayClose_clean (by decide) (lex_mark rfl hb rest))
  | array _ ih =>
      intro rest _
      rw [List.cons_append, List.append_assoc]
      exact .array (lex_mark rfl blanks_nil _) (ih rest .bracket (by decide))
  | emptyObject hb =>
      intro rest _
      rw [List.cons_append, List.append_assoc]
      exact .object (lex_mark rfl blanks_nil _) (.objectClose_clean (by decide) (lex_mark rfl hb rest))
  | object _ ih =>
      intro rest _
      rw [List.cons_append, List.append_assoc]
      exact .object (lex_mark rfl blanks_nil _) (ih rest .bracket (by decide))
  | lastElement hb _ hb' ih =>
      intro rest prev hprev
      rw [List.append_assoc, List.append_assoc]
      apply Reads.blanks hb
      exact .element_clean hprev (ih _ fun _ => follows_mark hb' rfl)
        (.arrayClose_clean (by decide) (lex_mark rfl hb' rest))
  | element hb _ hb' _ ih ihl =>
      intro rest prev hprev
      rw [List.append_assoc, List.append_assoc, List.append_assoc, List.cons_append]
      apply Reads.blanks hb
      exact .element_clean hprev (ih _ fun _ => follows_mark hb' rfl)
        (.arrayComma_clean (lex_mark rfl hb' _) (ihl rest .comma (by decide)))
  | lastMember hb hbody hb' hb'' _ hb₃ ih =>
      intro rest prev hprev
      simp only [List.append_assoc, List.cons_append]
      exact .member_clean hprev (lex_string hbody hb _) (lex_mark rfl hb' _)
        (.blanks hb'' (ih _ fun _ => follows_mark hb₃ rfl))
        (.objectClose_clean (by decide) (lex_mark rfl hb₃ rest))
  | member hb hbody hb' hb'' _ hb₃ _ ih ihl =>
      intro rest prev hprev
      simp only [List.append_assoc, List.cons_append]
      exact .member_clean hprev (lex_string hbody hb _) (lex_mark rfl hb' _)
        (.blanks hb'' (ih _ fun _ => follows_mark hb₃ rfl))
        (.objectComma_clean (lex_mark rfl hb₃ _) (ihl rest .comma (by decide)))

/-! ## From the parser to the grammar -/

/-- The rest of an array or an object: its closing bracket, elements, or a comma and elements. -/
def Part.Follows (D : DoubleText δ) (prev : Prev) (close : UInt8) (t rest : Bytes) (empty : Prop)
    (part : Part δ) : Prop :=
  (prev ≠ .comma ∧ empty ∧ ∃ b, Blanks b ∧ t = b ++ close :: rest) ∨
    (prev ≠ .item ∧ ∃ g, t = g ++ close :: rest ∧ Denotes D part g) ∨
    (prev = .item ∧ ∃ b g, Blanks b ∧ t = b ++ 44 :: (g ++ close :: rest) ∧ Denotes D part g)

def Task.Derives (D : DoubleText δ) (t rest : Bytes) : Task δ → Prop
  | .value v => ∃ b g, Blanks b ∧ t = b ++ (g ++ rest) ∧ Denotes D (.value v) g
  | .elements prev l => Part.Follows D prev 93 t rest (l = []) (.elements l)
  | .members prev l => Part.Follows D prev 125 t rest (l = []) (.members l)

/-- A comma is followed by an element. -/
theorem follows_comma {prev : Prev} {close : UInt8} {t s rest : Bytes} {empty : Prop}
    {part : Part δ} (hprev : prev = .item) (h : lex D t = some (.mark 44, s))
    (hs : Part.Follows D .comma close s rest empty part) :
    Part.Follows D prev close t rest empty part := by
  obtain ⟨b, hb, ht⟩ := mark_of_lex h
  rcases hs with hs | hs | hs
  · exact absurd rfl hs.1
  · obtain ⟨-, g, hg, hden⟩ := hs
    exact .inr (.inr ⟨hprev, b, g, hb, by rw [ht, hg], hden⟩)
  · exact absurd hs.1 (by decide)

theorem Reads.derives {clean : Bool} {task : Task δ} {t rest : Bytes}
    (h : Reads D clean task t rest) (hclean : clean = true) : task.Derives D t rest := by
  induction h with
  | scalar h => exact denotes_of_lex (hclean ▸ h)
  | array h _ ih =>
      obtain ⟨b, hb, ht⟩ := mark_of_lex h
      rcases ih hclean with hs | hs | hs
      · obtain ⟨-, hl, b', hb', hs⟩ := hs
        refine ⟨b, 91 :: (b' ++ [93]), hb, by rw [ht, hs]; simp, ?_⟩
        rw [hl]
        exact .emptyArray hb'
      · obtain ⟨-, g, hs, hden⟩ := hs
        exact ⟨b, 91 :: (g ++ [93]), hb, by rw [ht, hs]; simp, .array hden⟩
      · exact absurd hs.1 (by decide)
  | object h _ ih =>
      obtain ⟨b, hb, ht⟩ := mark_of_lex h
      rcases ih hclean with hs | hs | hs
      · obtain ⟨-, hl, b', hb', hs⟩ := hs
        refine ⟨b, 123 :: (b' ++ [125]), hb, by rw [ht, hs]; simp, ?_⟩
        rw [hl]
        exact .emptyObject hb'
      · obtain ⟨-, g, hs, hden⟩ := hs
        exact ⟨b, 123 :: (g ++ [125]), hb, by rw [ht, hs]; simp, .object hden⟩
      · exact absurd hs.1 (by decide)
  | arrayClose h =>
      obtain ⟨b, hb, ht⟩ := mark_of_lex h
      exact .inl ⟨of_decide_eq_true hclean, rfl, b, hb, ht⟩
  | arrayComma h _ ih =>
      rw [Bool.and_eq_true, decide_eq_true_eq] at hclean
      exact follows_comma hclean.1 h (ih hclean.2)
  | element _ _ ih ihs =>
      simp only [Bool.and_eq_true, decide_eq_true_eq] at hclean
      obtain ⟨b, g, hb, ht, hden⟩ := ih hclean.2.1
      rcases ihs hclean.2.2 with hs | hs | hs
      · obtain ⟨-, hl, b', hb', hs⟩ := hs
        refine .inr (.inl ⟨hclean.1, b ++ (g ++ b'), by rw [ht, hs]; simp, ?_⟩)
        rw [hl]
        exact .lastElement hb hden hb'
      · exact absurd rfl hs.1
      · obtain ⟨-, b', g', hb', hs, hden'⟩ := hs
        exact .inr (.inl ⟨hclean.1, b ++ (g ++ (b' ++ 44 :: g')), by rw [ht, hs]; simp,
          .element hb hden hb' hden'⟩)
  | objectClose h =>
      obtain ⟨b, hb, ht⟩ := mark_of_lex h
      exact .inl ⟨of_decide_eq_true hclean, rfl, b, hb, ht⟩
  | objectComma h _ ih =>
      rw [Bool.and_eq_true, decide_eq_true_eq] at hclean
      exact follows_comma hclean.1 h (ih hclean.2)
  | member h hcolon _ _ ih ihs =>
      simp only [Bool.and_eq_true, decide_eq_true_eq] at hclean
      obtain ⟨hprev, hname, hv, hrest⟩ := hclean
      rw [hname] at h
      obtain ⟨b, k, hb, ht, hk⟩ := denotes_of_lex h
      cases hk with
      | @string body hbody =>
          obtain ⟨b', hb', hs⟩ := mark_of_lex hcolon
          obtain ⟨b'', g, hb'', hs', hden⟩ := ih hv
          rcases ihs hrest with hs'' | hs'' | hs''
          · obtain ⟨-, hl, b₃, hb₃, hs''⟩ := hs''
            refine .inr (.inl ⟨hprev, b ++ 34 :: (body ++ 34 :: (b' ++ 58 :: (b'' ++ (g ++ b₃)))),
              by rw [ht, hs, hs', hs'']; simp, ?_⟩)
            rw [hl]
            exact .lastMember hb hbody hb' hb'' hden hb₃
          · exact absurd rfl hs''.1
          · obtain ⟨-, b₃, g', hb₃, hs'', hden'⟩ := hs''
            exact .inr (.inl ⟨hprev,
              b ++ 34 :: (body ++ 34 :: (b' ++ 58 :: (b'' ++ (g ++ (b₃ ++ 44 :: g'))))),
              by rw [ht, hs, hs', hs'']; simp, .member hb hbody hb' hb'' hden hb₃ hden'⟩)

/-! ## One reading -/

/-- Tasks of one kind at one place. -/
def Task.Same : Task δ → Task δ → Prop
  | .value _, .value _ => True
  | .elements prev _, .elements prev' _ => prev = prev'
  | .members prev _, .members prev' _ => prev = prev'
  | _, _ => False

/-- A value starts with a token of a value or an opening bracket. -/
theorem Reads.not_mark {clean : Bool} {v : Json δ} {t s rest : Bytes} {c : UInt8}
    (h : Reads D clean (.value v) t rest) (hc : c ≠ 91 ∧ c ≠ 123) :
    lex D t ≠ some (.mark c, s) := by
  intro hlex
  cases h with
  | scalar h => rw [h] at hlex; cases hlex
  | array h _ => rw [h] at hlex; cases hlex; exact hc.1 rfl
  | object h _ => rw [h] at hlex; cases hlex; exact hc.2 rfl

/-- A buffer is read in one way. -/
theorem Reads.deterministic {clean clean' : Bool} {task task' : Task δ} {t rest rest' : Bytes}
    (h : Reads D clean task t rest) (h' : Reads D clean' task' t rest')
    (hsame : task.Same task') : clean = clean' ∧ rest = rest' := by
  induction h generalizing clean' task' rest' with
  | scalar h =>
      cases h' with
      | scalar h' => rw [h] at h'; cases h'; exact ⟨rfl, rfl⟩
      | array h' _ => rw [h] at h'; cases h'
      | object h' _ => rw [h] at h'; cases h'
      | _ => cases hsame
  | array h _ ih =>
      cases h' with
      | scalar h' => rw [h] at h'; cases h'
      | array h' hs' => rw [h] at h'; cases h'; exact ih hs' rfl
      | object h' _ => rw [h] at h'; cases h'
      | _ => cases hsame
  | object h _ ih =>
      cases h' with
      | scalar h' => rw [h] at h'; cases h'
      | array h' _ => rw [h] at h'; cases h'
      | object h' hs' => rw [h] at h'; cases h'; exact ih hs' rfl
      | _ => cases hsame
  | arrayClose h =>
      cases h' with
      | arrayClose h' => rw [h] at h'; cases h'; cases hsame; exact ⟨rfl, rfl⟩
      | arrayComma h' _ => rw [h] at h'; cases h'
      | element h' _ => exact absurd h (h'.not_mark (by decide))
      | _ => cases hsame
  | arrayComma h _ ih =>
      cases h' with
      | arrayClose h' => rw [h] at h'; cases h'
      | arrayComma h' hs' =>
          rw [h] at h'
          cases h'
          cases hsame
          have hrest := ih hs' rfl
          exact ⟨by rw [hrest.1], hrest.2⟩
      | element h' _ => exact absurd h (h'.not_mark (by decide))
      | _ => cases hsame
  | element h _ ih ihs =>
      cases h' with
      | arrayClose h' => exact absurd h' (h.not_mark (by decide))
      | arrayComma h' _ => exact absurd h' (h.not_mark (by decide))
      | element h' hs' =>
          have hvalue := ih h' trivial
          rw [← hvalue.2] at hs'
          have hrest := ihs hs' rfl
          cases hsame
          exact ⟨by rw [hvalue.1, hrest.1], hrest.2⟩
      | _ => cases hsame
  | objectClose h =>
      cases h' with
      | objectClose h' => rw [h] at h'; cases h'; cases hsame; exact ⟨rfl, rfl⟩
      | objectComma h' _ => rw [h] at h'; cases h'
      | member h' _ _ _ => rw [h] at h'; cases h'
      | _ => cases hsame
  | objectComma h _ ih =>
      cases h' with
      | objectClose h' => rw [h] at h'; cases h'
      | objectComma h' hs' =>
          rw [h] at h'
          cases h'
          cases hsame
          have hrest := ih hs' rfl
          exact ⟨by rw [hrest.1], hrest.2⟩
      | member h' _ _ _ => rw [h] at h'; cases h'
      | _ => cases hsame
  | member h hcolon _ _ ih ihs =>
      cases h' with
      | objectClose h' => rw [h] at h'; cases h'
      | objectComma h' _ => rw [h] at h'; cases h'
      | member h' hcolon' hv' hs' =>
          rw [h] at h'
          cases h'
          rw [hcolon] at hcolon'
          cases hcolon'
          have hvalue := ih hv' trivial
          rw [← hvalue.2] at hs'
          have hrest := ihs hs' rfl
          cases hsame
          exact ⟨by rw [hvalue.1, hrest.1], hrest.2⟩
      | _ => cases hsame

/-! ## Texts without a NUL -/

theorem Blanks.noNul {b : Bytes} (h : Blanks b) : 0 ∉ b := fun h0 => absurd (h 0 h0) (by decide)

theorem NumberText.noNul {n : Bytes} (h : NumberText n) : 0 ∉ n := by
  obtain ⟨c, s, hn, hc, hs⟩ := h
  rw [hn, List.mem_cons, not_or]
  constructor
  · intro h0
    rw [← h0] at hc
    exact absurd hc (by decide)
  · exact fun h0 => absurd (hs 0 h0) (by decide)

theorem StringBody.noNul {body : Bytes} (h : StringBody body) : 0 ∉ body := by
  induction h with
  | nil => exact List.not_mem_nil
  | plain hnul _ _ _ ih => simp [hnul.symm, ih]
  | escape hnul _ ih => simp [hnul.symm, ih]

theorem Denotes.noNul {part : Part δ} {g : Bytes} (h : Denotes D part g) : 0 ∉ g := by
  induction h with
  | null => decide
  | true => decide
  | false => decide
  | integer h => exact h.text.noNul
  | real h => exact h.text.noNul
  | string h => simp [h.noNul]
  | emptyArray hb => simp [hb.noNul]
  | array _ ih => simp [ih]
  | emptyObject hb => simp [hb.noNul]
  | object _ ih => simp [ih]
  | lastElement hb _ hb' ih => simp [hb.noNul, ih, hb'.noNul]
  | element hb _ hb' _ ih ihl => simp [hb.noNul, ih, hb'.noNul, ihl]
  | lastMember hb hbody hb' hb'' _ hb₃ ih =>
      simp [hb.noNul, hbody.noNul, hb'.noNul, hb''.noNul, ih, hb₃.noNul]
  | member hb hbody hb' hb'' _ hb₃ _ ih ihl =>
      simp [hb.noNul, hbody.noNul, hb'.noNul, hb''.noNul, ih, hb₃.noNul, ihl]

/-- A text without NUL at the start of a buffer lies in the string. -/
theorem text_of_buffer {data b g rest : Bytes} (h : data ++ [0] = b ++ (g ++ rest))
    (hb : 0 ∉ b) (hg : 0 ∉ g) : ∃ rest', rest = rest' ++ [0] ∧ data = b ++ (g ++ rest') := by
  cases rest using List.reverseRecOn with
  | nil =>
      have hmem : (0 : UInt8) ∈ b ++ (g ++ []) := h ▸ List.mem_append_right data List.mem_cons_self
      simp [hb, hg] at hmem
  | append_singleton rest x =>
      rw [← List.append_assoc, ← List.append_assoc] at h
      have hsplit := List.append_inj' h rfl
      exact ⟨rest, by rw [(List.cons.inj hsplit.2).1], by rw [hsplit.1, List.append_assoc]⟩

end Json

end CommonCc
