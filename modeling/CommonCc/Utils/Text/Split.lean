import CommonCc.Lib.Cut
import CommonCc.Lib.Loop
import CommonCc.StdString
import CommonCc.Utils.Text.Trim

/-!
# Splitting at a separator

`StringUtility::SplitString` with a separator.  The rest of the text is trimmed after every cut.
-/

namespace CommonCc

namespace StringUtility

/-- `" \r\n\t"`. -/
def blanks : Bytes := [32, 13, 10, 9]

/-- One round of the loop, with `strMainTemp`, `nPos` and `strList`, and what follows the loop. -/
def splitRound (strSpliter : Bytes) : Bytes × Option Nat × List Bytes →
    Except Fault ((Bytes × Option Nat × List Bytes) ⊕ List Bytes)
  | (strMainTemp, none, strList) =>
      let strMainTemp := TrimBothSides strMainTemp blanks
      .ok (.inr (if strMainTemp = [] then strList else strList ++ [strMainTemp]))
  | (strMainTemp, some nPos, strList) => do
      let strList := strList ++ [strMainTemp.take nPos]
      let strMainTemp ← eraseAt strMainTemp 0 (nPos + strSpliter.length)
      let strMainTemp := TrimBothSides strMainTemp blanks
      .ok (.inl (strMainTemp, find strMainTemp strSpliter 0, strList))

def SplitString (strMain strSpliter : Bytes) : Rounds Fault (List Bytes) :=
  if strMain = [] ∨ strSpliter = [] then now []
  else
    let strMainTemp := TrimBothSides strMain blanks
    if strMainTemp = [] ∨ strSpliter = [] then now []
    else loop (splitRound strSpliter) (strMainTemp, find strMainTemp strSpliter 0, [])

/-! ## The pieces -/

/-- Only the last piece is left out when it is empty. -/
def dropLastEmpty (pieces : List Bytes) : List Bytes :=
  if pieces.getLast? = some [] then pieces.dropLast else pieces

/-- The pieces of the trimmed text, trimmed on the left. -/
def splitPieces (strMain strSpliter : Bytes) : List Bytes :=
  dropLastEmpty ((cut strSpliter (strip (inTarget blanks) strMain)).map
    (List.dropWhile (inTarget blanks)))

theorem dropLastEmpty_singleton (p : Bytes) :
    dropLastEmpty [p] = if p = [] then [] else [p] := by
  simp only [dropLastEmpty, List.getLast?_singleton, Option.some.injEq, List.dropLast_singleton]

theorem dropLastEmpty_cons (p : Bytes) {ps : List Bytes} (h : ps ≠ []) :
    dropLastEmpty (p :: ps) = p :: dropLastEmpty ps := by
  obtain ⟨q, qs, rfl⟩ := List.exists_cons_of_ne_nil h
  unfold dropLastEmpty
  rw [List.getLast?_cons_cons]
  split <;> rfl

/-! ## One round -/

section

variable {t : Bytes} (strSpliter : Bytes) (strList : List Bytes)

theorem splitRound_last (ht : strip (inTarget blanks) t = t) :
    splitRound strSpliter (t, none, strList) = .ok (.inr (strList ++ dropLastEmpty [t])) := by
  simp only [splitRound, TrimBothSides_eq, ht, dropLastEmpty_singleton]
  split
  · rw [List.append_nil]
  · rfl

theorem splitRound_next (i : Nat) :
    splitRound strSpliter (t, some i, strList) =
      .ok (.inl (strip (inTarget blanks) (t.drop (i + strSpliter.length)),
        search strSpliter (strip (inTarget blanks) (t.drop (i + strSpliter.length))),
        strList ++ [t.take i])) := by
  have herase : eraseAt t 0 (i + strSpliter.length) = .ok (t.drop (i + strSpliter.length)) := by
    rw [eraseAt, if_pos (Nat.zero_le _), List.take_zero, List.nil_append, Nat.zero_add]
  simp only [splitRound, herase, TrimBothSides_eq, find_zero_eq, bind, Except.bind]

end

/-! ## The loop -/

theorem splitLoop_yields {strSpliter : Bytes} (hne : strSpliter ≠ [])
    (hblank : ∀ c ∈ strSpliter, c ∉ blanks) (s : Bytes)
    (hright : s.rdropWhile (inTarget blanks) = s) (strList : List Bytes) :
    Yields (loop (splitRound strSpliter) (s.dropWhile (inTarget blanks),
      search strSpliter (s.dropWhile (inTarget blanks)), strList))
      (.ok (strList ++
        dropLastEmpty ((cut strSpliter s).map (List.dropWhile (inTarget blanks))))) := by
  have hdisjoint : ∀ s : Bytes, ∀ c ∈ s.takeWhile (inTarget blanks), c ∉ strSpliter := by
    intro s c hc hmem
    apply hblank c hmem
    simpa [inTarget] using List.mem_takeWhile_imp hc
  induction s using cut_induction hne generalizing strList with
  | hnone s h =>
      have hsearch := search_append_of_disjoint hne (hdisjoint s) (s.dropWhile (inTarget blanks))
      rw [List.takeWhile_append_dropWhile, h] at hsearch
      rw [cut_of_none h, Option.map_eq_none_iff.mp hsearch.symm, List.map_singleton]
      apply yields_leave (splitRound_last _ strList _)
      rw [strip_dropWhile, strip_eq_dropWhile hright]
  | hsome s i h ih =>
      have hsearch := search_append_of_disjoint hne (hdisjoint s) (s.dropWhile (inTarget blanks))
      rw [List.takeWhile_append_dropWhile, h] at hsearch
      obtain ⟨k, hk, hi⟩ := Option.map_eq_some_iff.mp hsearch.symm
      have hrest := rdropWhile_drop hright (i + strSpliter.length)
      have hnext := splitRound_next (t := s.dropWhile (inTarget blanks)) strSpliter strList k
      have hpiece := dropWhile_take_add (inTarget blanks) s k
      have hcut := drop_takeWhile_add (inTarget blanks) s (k + strSpliter.length)
      rw [← Nat.add_assoc, hi] at hcut
      rw [hi] at hpiece
      rw [hk, yields_next hnext, ← hcut, strip_eq_dropWhile hrest, cut_of_some hne h, List.map_cons,
        hpiece, dropLastEmpty_cons _ (by simp [cut_ne_nil hne])]
      have hyields := ih hrest (strList ++ [(s.dropWhile (inTarget blanks)).take k])
      rw [List.append_assoc] at hyields
      exact hyields

theorem splitPieces_of_strip_nil {strMain strSpliter : Bytes} (hne : strSpliter ≠ [])
    (h : strip (inTarget blanks) strMain = []) : splitPieces strMain strSpliter = [] := by
  rw [splitPieces, h, cut_of_none (search_nil hne), List.map_singleton, dropLastEmpty_singleton]
  rfl

theorem SplitString_of_strip_nil {strMain : Bytes} (h : strip (inTarget blanks) strMain = [])
    (strSpliter : Bytes) : SplitString strMain strSpliter = now [] := by
  rw [SplitString]
  split
  · rfl
  · rw [TrimBothSides_eq, if_pos (.inl h)]

theorem SplitString_of_strip {strMain strSpliter : Bytes} (hne : strSpliter ≠ [])
    (h : strip (inTarget blanks) strMain ≠ []) :
    SplitString strMain strSpliter = loop (splitRound strSpliter) (strip (inTarget blanks) strMain,
      search strSpliter (strip (inTarget blanks) strMain), []) := by
  have hmain : strMain ≠ [] := by
    rintro rfl
    exact h (strip_nil _)
  rw [SplitString, if_neg (not_or.mpr ⟨hmain, hne⟩), TrimBothSides_eq,
    if_neg (not_or.mpr ⟨h, hne⟩), find_zero_eq]

theorem SplitString_pieces {strSpliter : Bytes} (hne : strSpliter ≠ [])
    (hblank : ∀ c ∈ strSpliter, c ∉ blanks) (strMain : Bytes) :
    Yields (SplitString strMain strSpliter) (.ok (splitPieces strMain strSpliter)) := by
  by_cases h : strip (inTarget blanks) strMain = []
  · rw [SplitString_of_strip_nil h, splitPieces_of_strip_nil hne h]
    exact yields_now []
  · have hloop := splitLoop_yields hne hblank (strip (inTarget blanks) strMain)
      (rdropWhile_strip _ _) []
    rw [strip, List.dropWhile_idempotent, ← strip, List.nil_append] at hloop
    rw [SplitString_of_strip hne h]
    exact hloop

theorem settles_SplitString (strMain strSpliter : Bytes) :
    Settles (SplitString strMain strSpliter) := by
  unfold SplitString
  dsimp only
  split
  · exact settles_now _
  · split
    · exact settles_now _
    · exact settles_loop _ _

/-- The pieces of the trimmed text, and none of a text of blanks only. -/
theorem SplitString_yields {strSpliter : Bytes} (hne : strSpliter ≠ [])
    (hblank : ∀ c ∈ strSpliter, c ∉ blanks) (strMain : Bytes) :
    Yields (SplitString strMain strSpliter) (.ok (splitPieces strMain strSpliter)) ∧
      ((∀ c ∈ strMain, c ∈ blanks) → splitPieces strMain strSpliter = []) := by
  constructor
  · exact SplitString_pieces hne hblank strMain
  · intro hall
    apply splitPieces_of_strip_nil hne
    rw [strip, List.rdropWhile_eq_nil_iff.mpr fun c hc => by simpa [inTarget] using hall c hc]
    rfl

/-- Blanks on the right of a piece stay. -/
theorem SplitString_yields_sample :
    Yields (SplitString [32, 97, 32, 44, 32, 98, 44, 32] [44])
        (.ok (splitPieces [32, 97, 32, 44, 32, 98, 44, 32] [44])) ∧
      splitPieces [32, 97, 32, 44, 32, 98, 44, 32] [44] = [[97, 32], [98]] := by
  have hcomma : ∀ c ∈ ([44] : Bytes), c ∉ blanks := by
    intro c hc
    rw [List.mem_singleton.mp hc]
    decide
  refine ⟨(SplitString_yields (by decide) hcomma _).1, ?_⟩
  have htrim : strip (inTarget blanks) [32, 97, 32, 44, 32, 98, 44, 32] =
      [97, 32, 44, 32, 98, 44] := by
    decide
  rw [splitPieces, htrim, cut_of_some (i := 2) (by decide) (by decide),
    cut_of_some (i := 2) (by decide) (by decide), cut_of_none (by decide)]
  rfl

end StringUtility

end CommonCc
