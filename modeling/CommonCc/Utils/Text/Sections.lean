import CommonCc.Lib.Regions
import CommonCc.Utils.Text.Remove

/-!
# Removing sections

`StringUtility::DeleteSubstr`.  Both marks are searched from the begin of the rest.
-/

namespace CommonCc

namespace StringUtility

/-- One round of the loop, with `strTemp` and `strRet`. -/
def deleteRound (strBegin strEnd : Bytes) :
    Bytes × Bytes → Except Fault ((Bytes × Bytes) ⊕ Bytes)
  | (strTemp, strRet) => do
      let dwPosBegin := findInt strTemp strBegin
      let dwPosEnd := findInt strTemp strEnd
      if dwPosBegin ≠ -1 ∧ dwPosEnd ≠ -1 ∧ dwPosEnd > dwPosBegin then
        let strRet := strRet ++ substrHead strTemp (sizeAdd dwPosBegin 0)
        let strTemp ← substrFrom strTemp (sizeAdd dwPosEnd strEnd.length)
        .ok (whileNotEmpty strTemp strRet)
      else .ok (.inr (strRet ++ strTemp))

def DeleteSubstr (strRawData strBegin strEnd : Bytes) : Rounds Fault Bytes :=
  loop (deleteRound strBegin strEnd) (strRawData, [])

/-! ## Sections -/

/-- The length of the section at the begin of a text, from a `strBegin` through the first `strEnd`
that starts after it. -/
def sectionAt (strBegin strEnd t : Bytes) : Option Nat :=
  if strBegin <+: t then (search strEnd (t.drop 1)).map (1 + · + strEnd.length) else none

/-- The text that is left when a scan has passed some of the sections. -/
def Remains (strBegin strEnd strRawData t : Bytes) : Prop :=
  t = strRawData ∨ AfterRegion (sectionAt strBegin strEnd) strRawData t

section

variable {strBegin strEnd t u : Bytes} {i k : Nat}

theorem sectionAt_front (h : search strBegin t = some i) (strEnd : Bytes) :
    ∀ j < (t.take i).length, sectionAt strBegin strEnd ((t.take i ++ t.drop i).drop j) = none := by
  intro j hj
  rw [List.length_take_of_le (search_spec h).1] at hj
  rw [List.take_append_drop]
  exact if_neg (search_first h hj)

theorem sectionAt_of_some (h : search strBegin t = some i)
    (hend : search strEnd (t.drop (i + 1)) = some k) :
    sectionAt strBegin strEnd (t.drop i) = some (1 + k + strEnd.length) := by
  rw [sectionAt, if_pos (search_spec h).2, List.drop_drop, hend]
  rfl

/-- There is no section when there is no `strEnd` behind the first `strBegin`. -/
theorem sectionAt_of_none
    (h : ∀ i, search strBegin t = some i → search strEnd (t.drop (i + 1)) = none) (j : Nat) :
    sectionAt strBegin strEnd (t.drop j) = none := by
  cases hs : search strBegin t with
  | none => exact if_neg (not_prefix_of_search_eq_none hs j)
  | some i =>
      by_cases hj : j < i
      · exact if_neg (search_first hs hj)
      · have hrest := search_drop_of_none (h i hs) (j - i)
        rw [List.drop_drop, show i + 1 + (j - i) = j + 1 by omega] at hrest
        rw [sectionAt, List.drop_drop, hrest]
        exact ite_self none

theorem deleteSections_of_none
    (h : ∀ i, search strBegin t = some i → search strEnd (t.drop (i + 1)) = none) :
    deleteRegions (sectionAt strBegin strEnd) t = t :=
  deleteRegions_eq_self fun j _ => sectionAt_of_none h j

/-- The text in front of the first section, and the rest without sections. -/
theorem deleteSections_of_some (h : search strBegin t = some i)
    (hend : search strEnd (t.drop (i + 1)) = some k) :
    deleteRegions (sectionAt strBegin strEnd) t = t.take i ++
      deleteRegions (sectionAt strBegin strEnd) (t.drop (i + 1 + k + strEnd.length)) := by
  conv_lhs => rw [← List.take_append_drop i t]
  rw [deleteRegions_append (sectionAt_front h strEnd),
    deleteRegions_region (sectionAt_of_some h hend) (by omega), List.drop_drop]
  congr 3
  omega

theorem remains_of_none
    (h : ∀ i, search strBegin t = some i → search strEnd (t.drop (i + 1)) = none) :
    Remains strBegin strEnd t u ↔ u = t :=
  or_iff_left (not_afterRegion fun j _ => sectionAt_of_none h j)

theorem remains_of_some (h : search strBegin t = some i)
    (hend : search strEnd (t.drop (i + 1)) = some k) :
    Remains strBegin strEnd t u ↔
      u = t ∨ Remains strBegin strEnd (t.drop (i + 1 + k + strEnd.length)) u := by
  have hafter := afterRegion_append_iff (t := u) (sectionAt_front h strEnd)
  rw [List.take_append_drop, afterRegion_region_iff (sectionAt_of_some h hend), List.drop_drop,
    show i + (1 + k + strEnd.length) = i + 1 + k + strEnd.length by omega] at hafter
  rw [Remains, Remains, hafter]

end

/-! ## One round -/

section

variable {strBegin strEnd t : Bytes} {i j : Nat}

theorem deleteRound_section (hbegin : search strBegin t = some i) (hend : search strEnd t = some j)
    (hij : i < j) (hj : j < 2147483648) (strRet : Bytes) :
    deleteRound strBegin strEnd (t, strRet) =
      .ok (whileNotEmpty (t.drop (j + strEnd.length)) (strRet ++ t.take i)) := by
  have hposBegin := findInt_of_some hbegin (Nat.lt_trans hij hj)
  have hposEnd := findInt_of_some hend hj
  have hboth : (i : Int) ≠ -1 ∧ (j : Int) ≠ -1 ∧ (j : Int) > i := by omega
  have hfront : substrHead t (sizeAdd i 0) = t.take i := by
    rw [sizeAdd_of_nat i 0]
    rfl
  have hrest : substrFrom t (sizeAdd j strEnd.length) = .ok (t.drop (j + strEnd.length)) := by
    rw [sizeAdd_of_nat]
    exact substr_ok (search_fits hend)
  simp only [deleteRound, hposBegin, hposEnd, if_pos hboth, hfront, hrest, bind, Except.bind]

/-- The loop stops at an `strEnd` that is not behind the first `strBegin`. -/
theorem deleteRound_leave
    (hnone : ∀ i j, search strBegin t = some i → search strEnd t = some j → j ≤ i)
    (hfit : ∀ i, search strBegin t = some i → i < 2147483648)
    (hfit' : ∀ j, search strEnd t = some j → j < 2147483648) (strRet : Bytes) :
    deleteRound strBegin strEnd (t, strRet) = .ok (.inr (strRet ++ t)) := by
  have hstop : ¬ (findInt t strBegin ≠ -1 ∧ findInt t strEnd ≠ -1 ∧
      findInt t strEnd > findInt t strBegin) := by
    rintro ⟨hbegin, hend, hlt⟩
    cases hb : search strBegin t with
    | none => exact hbegin (findInt_of_none hb)
    | some i =>
        cases he : search strEnd t with
        | none => exact hend (findInt_of_none he)
        | some j =>
            rw [findInt_of_some hb (hfit i hb), findInt_of_some he (hfit' j he)] at hlt
            have hle := hnone i j hb he
            omega
  simp only [deleteRound, if_neg hstop]

end

/-! ## The whole loop -/

variable {strBegin strEnd strRawData : Bytes}

/-- Every position that is found fits into an `int`. -/
def PositionsFit (strBegin strEnd strRawData : Bytes) : Prop :=
  ∀ t, Remains strBegin strEnd strRawData t → ∀ i,
    search strBegin t = some i ∨ search strEnd t = some i → i < 2147483648

/-- In front of a section that remains there is no `strEnd`, nor does one start with it. -/
def NoStrayEnd (strBegin strEnd strRawData : Bytes) : Prop :=
  ∀ t, Remains strBegin strEnd strRawData t → ∀ i k, search strBegin t = some i →
    search strEnd (t.drop (i + 1)) = some k → search strEnd t = some (i + 1 + k)

/-- What happens at a section that the loop finds. -/
theorem noStrayEnd_of_section {t : Bytes} {i j : Nat} (hbegin : search strBegin t = some i)
    (hend : search strEnd t = some j) (hij : i < j) :
    deleteRegions (sectionAt strBegin strEnd) t =
        t.take i ++ deleteRegions (sectionAt strBegin strEnd) (t.drop (j + strEnd.length)) ∧
      (∀ u, Remains strBegin strEnd t u ↔
        u = t ∨ Remains strBegin strEnd (t.drop (j + strEnd.length)) u) ∧
      (NoStrayEnd strBegin strEnd t ↔ NoStrayEnd strBegin strEnd (t.drop (j + strEnd.length))) := by
  have hsection := search_drop_of_some hend (Nat.succ_le_of_lt hij)
  have hplace : i + 1 + (j - (i + 1)) = j := by omega
  have hremains := fun u => remains_of_some (u := u) hbegin hsection
  have hdelete := deleteSections_of_some hbegin hsection
  rw [hplace] at hremains hdelete
  refine ⟨hdelete, hremains, ?_, ?_⟩
  · intro h u hu
    exact h u ((hremains u).mpr (.inr hu))
  · intro h u hu i' k hb hk
    rcases (hremains u).mp hu with rfl | hu
    · rw [hbegin] at hb
      cases hb
      rw [hsection] at hk
      cases hk
      rw [hplace, hend]
    · exact h u hu i' k hb hk

/-- What happens where the loop stops. -/
theorem noStrayEnd_of_leave (hend : strEnd ≠ []) {t : Bytes}
    (hnone : ∀ i j, search strBegin t = some i → search strEnd t = some j → j ≤ i) :
    t = deleteRegions (sectionAt strBegin strEnd) t ↔ NoStrayEnd strBegin strEnd t := by
  by_cases hsection : ∀ i, search strBegin t = some i → search strEnd (t.drop (i + 1)) = none
  · apply iff_of_true (deleteSections_of_none hsection).symm
    intro u hu i k hb hk
    rw [(remains_of_none hsection).mp hu] at hb hk
    rw [hsection i hb] at hk
    cases hk
  · push Not at hsection
    obtain ⟨i, hb, hsome⟩ := hsection
    obtain ⟨k, hk⟩ := Option.ne_none_iff_exists'.mp hsome
    apply iff_of_false
    · intro heq
      have hlen := congrArg List.length heq
      have hle := deleteRegions_length_le (sectionAt strBegin strEnd)
        (t.drop (i + 1 + k + strEnd.length))
      have hfits := search_fits hk
      have hpos := List.length_pos_iff.mpr hend
      rw [deleteSections_of_some hb hk, List.length_append, List.length_take] at hlen
      rw [List.length_drop] at hle hfits
      omega
    · intro h
      have hstray := h t (.inl rfl) i k hb hk
      have hle := hnone i _ hb hstray
      omega

/-- The loop comes to a text, which is the one without sections unless a stray `strEnd` stops it
before. -/
theorem deleteLoop_yields (hend : strEnd ≠ []) (t : Bytes)
    (hfit : PositionsFit strBegin strEnd t) :
    ∃ r, (∀ strRet, Yields (loop (deleteRound strBegin strEnd) (t, strRet)) (.ok (strRet ++ r))) ∧
      (r = deleteRegions (sectionAt strBegin strEnd) t ↔ NoStrayEnd strBegin strEnd t) := by
  induction hn : t.length using Nat.strongRecOn generalizing t with
  | ind n ih =>
      have hpos := hfit t (.inl rfl)
      by_cases hnone : ∀ i j, search strBegin t = some i → search strEnd t = some j → j ≤ i
      · refine ⟨t, fun strRet => ?_, noStrayEnd_of_leave hend hnone⟩
        exact yields_leave (deleteRound_leave hnone (fun i h => hpos i (.inl h))
          (fun j h => hpos j (.inr h)) strRet)
      · push Not at hnone
        obtain ⟨i, j, hb, he, hij⟩ := hnone
        obtain ⟨hdelete, hremains, hstray⟩ := noStrayEnd_of_section hb he hij
        have hless : (t.drop (j + strEnd.length)).length < n := by
          have hfits := search_fits he
          have hlen := List.length_pos_iff.mpr hend
          rw [List.length_drop]
          omega
        obtain ⟨r, hyields, hr⟩ := ih _ hless (t.drop (j + strEnd.length))
          (fun u hu => hfit u ((hremains u).mpr (.inr hu))) rfl
        have hround := deleteRound_section hb he hij (hpos j (.inr he))
        unfold whileNotEmpty at hround
        split at hround
        · next hlast =>
            refine ⟨t.take i, fun strRet => yields_leave (hround strRet), ?_⟩
            rw [hdelete, hstray, hlast, deleteRegions_nil, List.append_nil]
            apply iff_of_true rfl
            apply (noStrayEnd_of_leave hend _).mp (deleteRegions_nil _).symm
            intro i j _ hj
            rw [search_nil hend] at hj
            cases hj
        · refine ⟨t.take i ++ r, fun strRet => ?_, ?_⟩
          · rw [yields_next (hround strRet), ← List.append_assoc]
            exact hyields (strRet ++ t.take i)
          · rw [hdelete, List.append_cancel_left_eq, hstray]
            exact hr

theorem positionsFit_of_short (strBegin strEnd : Bytes) (h : strRawData.length < 2147483648) :
    PositionsFit strBegin strEnd strRawData := by
  intro t ht i hi
  have hle : t.length ≤ strRawData.length := by
    rcases ht with rfl | ht
    · exact Nat.le_refl _
    · exact ht.suffix.length_le
  rcases hi with hi | hi
  · have hfits := search_fits hi
    omega
  · have hfits := search_fits hi
    omega

end StringUtility

end CommonCc
