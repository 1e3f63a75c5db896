import CommonCc.Utils.Text.Replace
import CommonCc.Utils.Text.Sections

/-!
# Where the editing loops end

`ReplaceStr`, `ReplaceStrSet`, `RemoveStr` and `DeleteSubstr`.  The last two end unless they come
to a text of which a round cuts off nothing.
-/

namespace CommonCc

namespace StringUtility

theorem substrFrom_eq_ok {s r : Bytes} {pos : Option Nat} (h : substrFrom s pos = .ok r) :
    ∃ n, pos = some n ∧ r = s.drop n := by
  cases pos with
  | none => cases h
  | some n =>
      simp only [substrFrom, substr] at h
      split at h
      · cases h
        exact ⟨n, rfl, rfl⟩
      · cases h

theorem whileNotEmpty_eq_inl {t strRet : Bytes} {st : Bytes × Bytes}
    (h : whileNotEmpty t strRet = .inl st) : t ≠ [] ∧ st.1 = t := by
  unfold whileNotEmpty at h
  split at h
  · cases h
  · next hne =>
      cases h
      exact ⟨hne, rfl⟩

theorem sizeAdd_eq_zero {dwPos : Int} {n : Nat} : sizeAdd dwPos n = some 0 ↔ dwPos + n = 0 := by
  unfold sizeAdd
  split
  · rw [Option.some.injEq]
    omega
  · next hneg =>
      apply iff_of_false
      · intro h
        cases h
      · omega

/-- A round that cuts something off makes the text shorter. -/
theorem length_drop_lt {t : Bytes} {n : Nat} (hne : t.drop n ≠ []) (hn : n ≠ 0) :
    (t.drop n).length < t.length := by
  have hpos := List.length_pos_iff.mpr hne
  rw [List.length_drop] at hpos ⊢
  omega

/-! ## `RemoveStr` -/

section

variable {strSubStr t strRet : Bytes} (bNeedSeparator : Bool)

/-- The round finds `strSubStr` and cuts off nothing. -/
def RemoveStuck (strSubStr t : Bytes) : Prop :=
  t ≠ [] ∧ findInt t strSubStr ≠ -1 ∧ findInt t strSubStr + strSubStr.length = 0

theorem removeRound_stuck (h : RemoveStuck strSubStr t) (strRet : Bytes) :
    ∃ strRet', removeRound strSubStr bNeedSeparator (t, strRet) = .ok (.inl (t, strRet')) := by
  obtain ⟨hne, hfound, hzero⟩ := h
  have hrest : substrFrom t (sizeAdd (findInt t strSubStr) strSubStr.length) = .ok t := by
    rw [sizeAdd_eq_zero.mpr hzero]
    exact substr_ok (Nat.zero_le _)
  simp only [removeRound, if_neg hfound, hrest, bind, Except.bind, whileNotEmpty, if_neg hne]
  exact ⟨_, rfl⟩

theorem removeRound_inl {bNeedSeparator : Bool} {st : Bytes × Bytes}
    (h : removeRound strSubStr bNeedSeparator (t, strRet) = .ok (.inl st)) :
    ∃ n, sizeAdd (findInt t strSubStr) strSubStr.length = some n ∧ findInt t strSubStr ≠ -1 ∧
      st.1 = t.drop n ∧ t.drop n ≠ [] := by
  simp only [removeRound] at h
  split at h
  · cases h
  · next hfound =>
      obtain ⟨rest, hrest, hround⟩ := bind_eq_ok.mp h
      obtain ⟨n, hn, rfl⟩ := substrFrom_eq_ok hrest
      obtain ⟨hne, hst⟩ := whileNotEmpty_eq_inl (Except.ok.inj hround)
      exact ⟨n, hn, hfound, hst, hne⟩

theorem RemoveStr_ends_iff (strRawData strSubStr : Bytes) (bNeedSeparator : Bool) :
    Ends (RemoveStr strRawData strSubStr bNeedSeparator) ↔
      ∀ t, LoopReaches (removeRound strSubStr bNeedSeparator) (strRawData, []) t →
        ¬ RemoveStuck strSubStr t.1 := by
  apply ends_iff_never_stuck (fun st : Bytes × Bytes => RemoveStuck strSubStr st.1)
    (fun st => st.1.length)
  · intro st hstuck
    obtain ⟨strRet', hround⟩ := removeRound_stuck bNeedSeparator hstuck st.2
    exact ⟨_, hround, hstuck⟩
  · intro st st' hstuck hround
    obtain ⟨n, hn, hfound, hrest, hne⟩ := removeRound_inl hround
    have hcut : n ≠ 0 := by
      rintro rfl
      exact hstuck ⟨hne, hfound, sizeAdd_eq_zero.mp hn⟩
    show st'.1.length < st.1.length
    rw [hrest]
    exact length_drop_lt hne hcut

end

/-! ## `DeleteSubstr` -/

section

variable {strBegin strEnd t strRet : Bytes}

/-- The round finds a section and cuts off nothing. -/
def DeleteStuck (strBegin strEnd t : Bytes) : Prop :=
  t ≠ [] ∧ (findInt t strBegin ≠ -1 ∧ findInt t strEnd ≠ -1 ∧
    findInt t strEnd > findInt t strBegin) ∧ findInt t strEnd + strEnd.length = 0

theorem deleteRound_stuck (h : DeleteStuck strBegin strEnd t) (strRet : Bytes) :
    ∃ strRet', deleteRound strBegin strEnd (t, strRet) = .ok (.inl (t, strRet')) := by
  obtain ⟨hne, hfound, hzero⟩ := h
  have hrest : substrFrom t (sizeAdd (findInt t strEnd) strEnd.length) = .ok t := by
    rw [sizeAdd_eq_zero.mpr hzero]
    exact substr_ok (Nat.zero_le _)
  simp only [deleteRound, if_pos hfound, hrest, bind, Except.bind, whileNotEmpty, if_neg hne]
  exact ⟨_, rfl⟩

theorem deleteRound_inl {st : Bytes × Bytes}
    (h : deleteRound strBegin strEnd (t, strRet) = .ok (.inl st)) :
    ∃ n, sizeAdd (findInt t strEnd) strEnd.length = some n ∧
      (findInt t strBegin ≠ -1 ∧ findInt t strEnd ≠ -1 ∧
        findInt t strEnd > findInt t strBegin) ∧
      st.1 = t.drop n ∧ t.drop n ≠ [] := by
  simp only [deleteRound] at h
  split at h
  · next hfound =>
      obtain ⟨rest, hrest, hround⟩ := bind_eq_ok.mp h
      obtain ⟨n, hn, rfl⟩ := substrFrom_eq_ok hrest
      obtain ⟨hne, hst⟩ := whileNotEmpty_eq_inl (Except.ok.inj hround)
      exact ⟨n, hn, hfound, hst, hne⟩
  · cases h

theorem DeleteSubstr_ends_iff (strRawData strBegin strEnd : Bytes) :
    Ends (DeleteSubstr strRawData strBegin strEnd) ↔
      ∀ t, LoopReaches (deleteRound strBegin strEnd) (strRawData, []) t →
        ¬ DeleteStuck strBegin strEnd t.1 := by
  apply ends_iff_never_stuck (fun st : Bytes × Bytes => DeleteStuck strBegin strEnd st.1)
    (fun st => st.1.length)
  · intro st hstuck
    obtain ⟨strRet', hround⟩ := deleteRound_stuck hstuck st.2
    exact ⟨_, hround, hstuck⟩
  · intro st st' hstuck hround
    obtain ⟨n, hn, hfound, hrest, hne⟩ := deleteRound_inl hround
    have hcut : n ≠ 0 := by
      rintro rfl
      exact hstuck ⟨hne, hfound, sizeAdd_eq_zero.mp hn⟩
    show st'.1.length < st.1.length
    rw [hrest]
    exact length_drop_lt hne hcut

end

/-! ## Texts whose positions fit into an `int` -/

section

variable {round : Bytes × Bytes → Except Fault ((Bytes × Bytes) ⊕ Bytes)}

/-- The texts that remain get no longer. -/
theorem length_le_of_reaches (hround : ∀ t strRet st, round (t, strRet) = .ok (.inl st) →
    ∃ n, st.1 = t.drop n) {st st' : Bytes × Bytes} (h : LoopReaches round st st') :
    st'.1.length ≤ st.1.length := by
  induction h with
  | here st => exact Nat.le_refl _
  | @next st mid _ h _ ih =>
      obtain ⟨n, hn⟩ := hround st.1 st.2 mid h
      rw [hn, List.length_drop] at ih
      omega

theorem findInt_nonneg {t pat : Bytes} (h : t.length < 2147483648) (hfound : findInt t pat ≠ -1) :
    0 ≤ findInt t pat := by
  cases hs : search pat t with
  | none => exact absurd (findInt_of_none hs) hfound
  | some i =>
      have hfits := search_fits hs
      rw [findInt_of_some hs (by omega)]
      exact Int.natCast_nonneg i

theorem not_removeStuck {t strSubStr : Bytes} (h : t.length < 2147483648) (hne : strSubStr ≠ []) :
    ¬ RemoveStuck strSubStr t := by
  rintro ⟨-, hfound, hzero⟩
  have hnonneg := findInt_nonneg h hfound
  have hpos := List.length_pos_iff.mpr hne
  omega

theorem not_deleteStuck {t strBegin strEnd : Bytes} (h : t.length < 2147483648) :
    ¬ DeleteStuck strBegin strEnd t := by
  rintro ⟨-, ⟨hbegin, hend, hlt⟩, hzero⟩
  have hnonneg := findInt_nonneg h hbegin
  omega

theorem removeStuck_of_empty {t : Bytes} (hne : t ≠ []) : RemoveStuck [] t := by
  have hpos : findInt t [] = 0 := findInt_of_some (search_here List.nil_prefix) (by decide)
  refine ⟨hne, ?_, ?_⟩
  · rw [hpos]
    decide
  · rw [hpos]
    rfl

theorem RemoveStr_ends_of_short {strRawData : Bytes} (h : strRawData.length < 2147483648)
    (strSubStr : Bytes) (bNeedSeparator : Bool) :
    Ends (RemoveStr strRawData strSubStr bNeedSeparator) ↔ strRawData = [] ∨ strSubStr ≠ [] := by
  have hround : ∀ t strRet st, removeRound strSubStr bNeedSeparator (t, strRet) = .ok (.inl st) →
      ∃ n, st.1 = t.drop n := by
    intro t strRet st hst
    obtain ⟨n, -, -, hrest, -⟩ := removeRound_inl hst
    exact ⟨n, hrest⟩
  rw [RemoveStr_ends_iff]
  constructor
  · intro hnever
    by_cases hnil : strSubStr = []
    · left
      by_contra hne
      subst hnil
      exact hnever _ (.here _) (removeStuck_of_empty hne)
    · exact .inr hnil
  · intro hinput st hst
    have hle := length_le_of_reaches hround hst
    rcases hinput with rfl | hne
    · exact fun hstuck => hstuck.1 (List.eq_nil_of_length_eq_zero (Nat.le_zero.mp hle))
    · exact not_removeStuck (Nat.lt_of_le_of_lt hle h) hne

theorem DeleteSubstr_ends_of_short {strRawData : Bytes} (h : strRawData.length < 2147483648)
    (strBegin strEnd : Bytes) : Ends (DeleteSubstr strRawData strBegin strEnd) := by
  have hround : ∀ t strRet st, deleteRound strBegin strEnd (t, strRet) = .ok (.inl st) →
      ∃ n, st.1 = t.drop n := by
    intro t strRet st hst
    obtain ⟨n, -, -, hrest, -⟩ := deleteRound_inl hst
    exact ⟨n, hrest⟩
  rw [DeleteSubstr_ends_iff]
  intro st hst
  exact not_deleteStuck (Nat.lt_of_le_of_lt (length_le_of_reaches hround hst) h)

end

/-- Where each of the loops ends.  A text of which nothing is cut off is one that has an empty
`strSubStr` at its begin, or one whose positions do not fit into an `int`. -/
theorem editing_loops_end_iff (strRawData oldStr newStr strSubStr strBegin strEnd : Bytes)
    (mSet : List (Bytes × Bytes)) (bNeedSeparator : Bool) :
    (Ends (ReplaceStr strRawData oldStr newStr) ↔ oldStr ≠ []) ∧
    (Ends (ReplaceStrSet strRawData mSet) ↔ ∀ it ∈ mSet, it.1 ≠ []) ∧
    (Ends (RemoveStr strRawData strSubStr bNeedSeparator) ↔
      ∀ t, LoopReaches (removeRound strSubStr bNeedSeparator) (strRawData, []) t →
        ¬ RemoveStuck strSubStr t.1) ∧
    (Ends (DeleteSubstr strRawData strBegin strEnd) ↔
      ∀ t, LoopReaches (deleteRound strBegin strEnd) (strRawData, []) t →
        ¬ DeleteStuck strBegin strEnd t.1) ∧
    (strRawData.length < 2147483648 →
      (Ends (RemoveStr strRawData strSubStr bNeedSeparator) ↔
        strRawData = [] ∨ strSubStr ≠ []) ∧
      Ends (DeleteSubstr strRawData strBegin strEnd)) := by
  refine ⟨ReplaceStr_ends_iff _ _ _, ReplaceStrSet_ends_iff _ _, RemoveStr_ends_iff _ _ _,
    DeleteSubstr_ends_iff _ _ _, fun hshort => ⟨?_, ?_⟩⟩
  · exact RemoveStr_ends_of_short hshort strSubStr bNeedSeparator
  · exact DeleteSubstr_ends_of_short hshort strBegin strEnd

/-- An empty text is found for ever. -/
theorem editing_loops_repeat :
    ¬ Ends (ReplaceStr [97] [] [98]) ∧
      ∀ bNeedSeparator, ¬ Ends (RemoveStr [97] [] bNeedSeparator) := by
  constructor
  · rw [ReplaceStr_ends_iff]
    exact fun hne => hne rfl
  · intro bNeedSeparator
    rw [RemoveStr_ends_of_short (by decide)]
    decide

end StringUtility

end CommonCc
