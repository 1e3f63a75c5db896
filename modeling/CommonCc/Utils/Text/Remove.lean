import CommonCc.Lib.Cut
import CommonCc.Lib.Loop
import CommonCc.StdString

/-!
# Removing a text

`StringUtility::RemoveStr`.  The loop cuts off what it has read, and keeps positions in an `int`.
-/

namespace CommonCc

namespace StringUtility

/-- A blank, a tab, a line end, or one of `-_[](){}:.,=*&^%$#@!~?<>/|'"`. -/
def IsSeparator (c : UInt8) : Bool :=
  decide (c ∈ ([32, 9, 13, 10, 45, 95, 91, 93, 40, 41, 123, 125, 58, 46, 44, 61, 42, 38, 94, 37,
    36, 35, 64, 33, 126, 63, 60, 62, 47, 124, 39, 34] : Bytes))

/-- `bHasPreSeparator`. -/
def hasPreSeparator (strTemp : Bytes) (dwPos : Int) : Bool :=
  dwPos = 0 || (0 < dwPos && (strTemp[(dwPos - 1).toNat]?).any IsSeparator)

/-- `bHasPostSeparator`. -/
def hasPostSeparator (strTemp strSubStr : Bytes) (dwPos : Int) : Bool :=
  match sizeAdd dwPos strSubStr.length with
  | none => true
  | some pos => strTemp.length ≤ pos || (strTemp[pos]?).any IsSeparator

/-- `while (!strTemp.empty())` at the end of a round. -/
def whileNotEmpty (strTemp strRet : Bytes) : (Bytes × Bytes) ⊕ Bytes :=
  if strTemp = [] then .inr strRet else .inl (strTemp, strRet)

/-- One round of the loop, with `strTemp` and `strRet`. -/
def removeRound (strSubStr : Bytes) (bNeedSeparator : Bool) :
    Bytes × Bytes → Except Fault ((Bytes × Bytes) ⊕ Bytes)
  | (strTemp, strRet) => do
      let dwPos := findInt strTemp strSubStr
      if dwPos = -1 then .ok (.inr (strRet ++ strTemp))
      else
        let strRet := strRet ++
          if bNeedSeparator then
            if hasPreSeparator strTemp dwPos && hasPostSeparator strTemp strSubStr dwPos then
              substrHead strTemp (sizeAdd dwPos 0)
            else substrHead strTemp (sizeAdd dwPos strSubStr.length)
          else substrHead strTemp (sizeAdd dwPos 0)
        let strTemp ← substrFrom strTemp (sizeAdd dwPos strSubStr.length)
        .ok (whileNotEmpty strTemp strRet)

def RemoveStr (strRawData strSubStr : Bytes) (bNeedSeparator : Bool) : Rounds Fault Bytes :=
  loop (removeRound strSubStr bNeedSeparator) (strRawData, [])

/-! ## Whole words -/

/-- An occurrence between two texts stands between separators or the ends. -/
def isolated (before after : Bytes) : Bool :=
  before.getLast?.all IsSeparator && after.head?.all IsSeparator

/-- The text `left ++ strSubStr.intercalate pieces` from behind `left` on, without the
occurrences between the pieces that are isolated in it. -/
def withoutWords (strSubStr : Bytes) : Bytes → List Bytes → Bytes
  | _, [] => []
  | _, [p] => p
  | left, p :: q :: ps =>
      p ++ (if isolated (left ++ p) (strSubStr.intercalate (q :: ps)) then [] else strSubStr) ++
        withoutWords strSubStr (left ++ p ++ strSubStr) (q :: ps)

/-- What the loop makes of the pieces: an occurrence is removed when it is isolated in the text
behind the occurrence before. -/
def loopWords (strSubStr : Bytes) : List Bytes → Bytes
  | [] => []
  | [p] => p
  | p :: q :: ps =>
      p ++ (if isolated p (strSubStr.intercalate (q :: ps)) then [] else strSubStr) ++
        loopWords strSubStr (q :: ps)

/-! ## One round -/

theorem hasPreSeparator_eq (a c : Bytes) :
    hasPreSeparator (a ++ c) a.length = a.getLast?.all IsSeparator := by
  cases a using List.reverseRecOn with
  | nil => rfl
  | append_singleton a x =>
      have hpos : ¬ (a.length : Int) + 1 = 0 := by omega
      simp [hasPreSeparator, hpos]

theorem hasPostSeparator_eq (a sub c : Bytes) :
    hasPostSeparator (a ++ (sub ++ c)) sub a.length = c.head?.all IsSeparator := by
  rw [hasPostSeparator, sizeAdd_of_nat]
  cases c with
  | nil => simp
  | cons x c => simp

section

variable {strSubStr a c : Bytes}

/-- A round that finds an occurrence between `a` and `c`. -/
theorem removeRound_found (h : search strSubStr (a ++ (strSubStr ++ c)) = some a.length)
    (hi : a.length < 2147483648) (strRet : Bytes) :
    removeRound strSubStr true (a ++ (strSubStr ++ c), strRet) =
      .ok (whileNotEmpty c (strRet ++ (a ++ if isolated a c then [] else strSubStr))) := by
  have hpos := findInt_of_some h hi
  have hfront : substrHead (a ++ (strSubStr ++ c)) (sizeAdd a.length 0) = a := by
    rw [sizeAdd_of_nat a.length 0]
    exact List.take_left
  have hboth : substrHead (a ++ (strSubStr ++ c)) (sizeAdd a.length strSubStr.length) =
      a ++ strSubStr := by
    rw [sizeAdd_of_nat, substrHead, ← List.append_assoc, ← List.length_append, List.take_left]
  have hrest : substrFrom (a ++ (strSubStr ++ c)) (sizeAdd a.length strSubStr.length) = .ok c := by
    rw [sizeAdd_of_nat, substrFrom, ← List.append_assoc, ← List.length_append, substr_append]
  have hkept : (if isolated a c then a else a ++ strSubStr) =
      a ++ if isolated a c then [] else strSubStr := by
    split
    · exact (List.append_nil a).symm
    · rfl
  have hcontext : (hasPreSeparator (a ++ (strSubStr ++ c)) a.length &&
      hasPostSeparator (a ++ (strSubStr ++ c)) strSubStr a.length) = isolated a c := by
    rw [hasPreSeparator_eq, hasPostSeparator_eq, isolated]
  have hne : ¬ (a.length : Int) = -1 := by omega
  simp only [removeRound, hpos, if_neg hne, if_true, hcontext, hfront, hboth, hkept, hrest, bind,
    Except.bind]

theorem removeRound_none {t : Bytes} (h : search strSubStr t = none) (bNeedSeparator : Bool)
    (strRet : Bytes) :
    removeRound strSubStr bNeedSeparator (t, strRet) = .ok (.inr (strRet ++ t)) := by
  simp only [removeRound, findInt_of_none h, if_true]

end

/-! ## The whole loop -/

/-- Every position that is looked at fits into an `int`. -/
def PiecesFit (pieces : List Bytes) : Prop := ∀ p ∈ pieces.dropLast, p.length < 2147483648

theorem removeLoop_yields {sub : Bytes} (hne : sub ≠ []) (t : Bytes) (hfit : PiecesFit (cut sub t))
    (strRet : Bytes) : Yields (loop (removeRound sub true) (t, strRet))
      (.ok (strRet ++ loopWords sub (cut sub t))) := by
  induction t using cut_induction hne generalizing strRet with
  | hnone t h =>
      rw [cut_of_none h, loopWords]
      exact yields_leave (removeRound_none h true strRet)
  | hsome t i h ih =>
      obtain ⟨ht, hi⟩ := split_of_search h
      obtain ⟨q, ps, hcut⟩ := List.exists_cons_of_ne_nil (cut_ne_nil hne (t.drop (i + sub.length)))
      have hafter : sub.intercalate (q :: ps) = t.drop (i + sub.length) := by
        rw [← hcut, intercalate_cut hne]
      rw [cut_of_some hne h, hcut] at hfit ⊢
      have hshort : (t.take i).length < 2147483648 := hfit _ List.mem_cons_self
      have hround := removeRound_found (a := t.take i) (c := t.drop (i + sub.length))
        (by rw [← ht, hi]; exact h) hshort strRet
      rw [← ht] at hround
      rw [loopWords, hafter, ← List.append_assoc, ← hcut]
      unfold whileNotEmpty at hround
      split at hround
      · next hend =>
          rw [hend, cut_of_none (search_nil hne), loopWords, List.append_nil]
          rw [hend] at hround
          exact yields_leave hround
      · rw [yields_next hround]
        apply ih
        rw [hcut]
        exact fun p hp => hfit p (List.mem_cons_of_mem _ hp)

/-! ## Both texts -/

/-- An occurrence that is isolated in the whole text is isolated in the rest of it, too. -/
theorem isolated_of_append {left p after : Bytes} (h : isolated (left ++ p) after = true) :
    isolated p after = true := by
  cases p using List.reverseRecOn with
  | nil =>
      unfold isolated at h ⊢
      simp only [Bool.and_eq_true] at h
      simpa using h.2
  | append_singleton p x => simpa [isolated, ← List.append_assoc] using h

theorem loopWords_length_le (sub left : Bytes) (ps : List Bytes) :
    (loopWords sub ps).length ≤ (withoutWords sub left ps).length := by
  fun_induction withoutWords sub left ps with
  | case1 left => exact Nat.le_refl 0
  | case2 left p => exact Nat.le_refl _
  | case3 left p q ps ih =>
      have hmore := @isolated_of_append left p (sub.intercalate (q :: ps))
      simp only [loopWords, List.length_append]
      split
      · split
        · omega
        · simp only [List.length_nil]
          omega
      · next hkept =>
          rw [if_neg (mt hmore hkept)]
          omega

/-- Between the pieces, an occurrence that starts right behind another one and ends before a
separator stands behind a separator; `last` is the character in front of the pieces. -/
def TouchingFrom (sub : Bytes) (last : Option UInt8) (pieces : List Bytes) : Prop :=
  ∀ pre next post, pieces = pre ++ [] :: next :: post →
    (sub.intercalate (next :: post)).head?.all IsSeparator →
    (if pre = [] then last else sub.getLast?).all IsSeparator

theorem touchingFrom_short {sub : Bytes} {last : Option UInt8} {pieces : List Bytes}
    (h : pieces.length ≤ 1) : TouchingFrom sub last pieces := by
  rintro pre next post rfl
  simp only [List.length_append, List.length_cons] at h
  omega

theorem touchingFrom_cons (sub : Bytes) (last : Option UInt8) (p q : Bytes) (ps : List Bytes) :
    TouchingFrom sub last (p :: q :: ps) ↔
      (p = [] → (sub.intercalate (q :: ps)).head?.all IsSeparator → last.all IsSeparator) ∧
        TouchingFrom sub sub.getLast? (q :: ps) := by
  constructor
  · intro h
    constructor
    · intro hp hafter
      exact h [] q ps (by rw [hp]; rfl) hafter
    · intro pre next post hpieces hafter
      have htail := h (p :: pre) next post (by rw [hpieces]; rfl) hafter
      rw [if_neg (List.cons_ne_nil _ _)] at htail
      rwa [ite_self]
  · rintro ⟨hhead, htail⟩ pre next post hpieces hafter
    cases pre with
    | nil =>
        cases hpieces
        exact hhead rfl hafter
    | cons p' pre =>
        obtain ⟨-, hrest⟩ := List.cons.inj hpieces
        have hlast := htail pre next post hrest hafter
        rw [ite_self] at hlast
        rwa [if_neg (List.cons_ne_nil _ _)]

/-- The context of an occurrence is the same in both texts. -/
theorem isolated_eq_iff (left p after : Bytes) :
    isolated p after = isolated (left ++ p) after ↔
      (p = [] → after.head?.all IsSeparator → left.getLast?.all IsSeparator) := by
  cases p using List.reverseRecOn with
  | nil =>
      rw [List.append_nil, isolated, isolated]
      cases after.head?.all IsSeparator <;> cases left.getLast?.all IsSeparator <;> simp
  | append_singleton p x => simp [isolated, ← List.append_assoc]

theorem loopWords_eq_iff {sub : Bytes} (hne : sub ≠ []) (left : Bytes) (ps : List Bytes) :
    loopWords sub ps = withoutWords sub left ps ↔ TouchingFrom sub left.getLast? ps := by
  fun_induction withoutWords sub left ps with
  | case1 left => exact iff_of_true rfl (touchingFrom_short (Nat.zero_le 1))
  | case2 left p => exact iff_of_true rfl (touchingFrom_short (Nat.le_refl 1))
  | case3 left p q ps ih =>
      have hlast : (left ++ p ++ sub).getLast? = sub.getLast? :=
        List.getLast?_append_of_ne_nil _ hne
      rw [touchingFrom_cons, ← isolated_eq_iff, ← hlast, ← ih, loopWords]
      have hmore := @isolated_of_append left p (sub.intercalate (q :: ps))
      constructor
      · intro h
        cases hkept : isolated p (sub.intercalate (q :: ps)) with
        | false =>
            have hkept' := mt hmore (by rw [hkept]; exact Bool.false_ne_true)
            rw [Bool.not_eq_true] at hkept'
            rw [hkept, hkept'] at h
            exact ⟨hkept'.symm, List.append_cancel_left h⟩
        | true =>
            cases hkept' : isolated (left ++ p) (sub.intercalate (q :: ps)) with
            | true =>
                rw [hkept, hkept'] at h
                exact ⟨rfl, List.append_cancel_left h⟩
            | false =>
                -- the loop removes more here, and never less behind it
                have hless := loopWords_length_le sub (left ++ p ++ sub) (q :: ps)
                have hpos := List.length_pos_iff.mpr hne
                have hlen := congrArg List.length h
                rw [hkept, hkept'] at hlen
                simp only [if_true, Bool.false_eq_true, if_false, List.length_append,
                  List.length_nil] at hlen
                omega
      · rintro ⟨hhead, htail⟩
        rw [hhead, htail]

/-! ## Whole words are removed -/

/-- An occurrence that starts right behind another one, and ends at the end of the text or before
a separator, stands behind a separator. -/
def TouchingWords (strRawData strSubStr : Bytes) : Prop :=
  ∀ pre next post, cut strSubStr strRawData = pre ++ [] :: next :: post → pre ≠ [] →
    (strSubStr.intercalate (next :: post)).head?.all IsSeparator →
    strSubStr.getLast?.all IsSeparator

theorem touchingFrom_none_iff (sub raw : Bytes) :
    TouchingFrom sub none (cut sub raw) ↔ TouchingWords raw sub := by
  constructor
  · intro h pre next post hpieces hpre hafter
    have hlast := h pre next post hpieces hafter
    rwa [if_neg hpre] at hlast
  · intro h pre next post hpieces hafter
    split
    · rfl
    · next hpre => exact h pre next post hpieces hpre hafter

/-- The occurrences that stand between separators of the text are removed unless one of them only
seems to stand so. -/
theorem RemoveStr_words_iff {strRawData strSubStr : Bytes} (hne : strSubStr ≠ [])
    (hfit : PiecesFit (cut strSubStr strRawData)) :
    Yields (RemoveStr strRawData strSubStr true)
      (.ok (withoutWords strSubStr [] (cut strSubStr strRawData))) ↔
    TouchingWords strRawData strSubStr := by
  have hloop := removeLoop_yields hne strRawData hfit []
  rw [List.nil_append] at hloop
  have hwords := loopWords_eq_iff hne [] (cut strSubStr strRawData)
  rw [← touchingFrom_none_iff, ← List.getLast?_nil, ← hwords]
  exact hloop.iff_eq.trans (by rw [Except.ok.injEq])

/-- A word between a blank and a comma. -/
theorem RemoveStr_words_sample :
    Yields (RemoveStr [97, 32, 99, 44, 98] [99] true)
      (.ok (withoutWords [99] [] (cut [99] [97, 32, 99, 44, 98]))) := by
  have hcut : cut [99] ([97, 32, 99, 44, 98] : Bytes) = [[97, 32], [44, 98]] := by
    rw [cut_of_some (i := 2) (by decide) (by decide), cut_of_none (by decide)]
    rfl
  apply (RemoveStr_words_iff (by decide) (by rw [hcut]; unfold PiecesFit; decide)).mpr
  intro pre next post hpieces
  rw [hcut] at hpieces
  have hmem : ([] : Bytes) ∈ ([[97, 32], [44, 98]] : List Bytes) := by
    rw [hpieces]
    simp
  exact absurd hmem (by decide)

/-- Of two words without a separator between them the second one is removed. -/
theorem RemoveStr_words_false :
    ¬ ∀ strRawData strSubStr, strSubStr ≠ [] →
      Yields (RemoveStr strRawData strSubStr true)
        (.ok (withoutWords strSubStr [] (cut strSubStr strRawData))) := by
  intro h
  have hcode : Yields (RemoveStr [99, 99] [99] true) (.ok [99]) := ⟨2, by decide⟩
  have hcut : cut [99] ([99, 99] : Bytes) = [[], [], []] := by
    rw [cut_of_some (i := 0) (by decide) (by decide), cut_of_some (i := 0) (by decide) (by decide),
      cut_of_none (by decide)]
    rfl
  have hwords := hcode.unique (h [99, 99] [99] (by decide))
  rw [hcut] at hwords
  revert hwords
  decide

end StringUtility

end CommonCc
