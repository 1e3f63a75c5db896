import CommonCc.Lib.Cut
import CommonCc.Lib.Loop
import CommonCc.StdString

/-!
# Replacing texts

`StringUtility::ReplaceStr` and `ReplaceStrSet`.
-/

namespace CommonCc

namespace StringUtility

/-- One round of the loop, with `strRet` and `dwPos`. -/
def replaceRound (oldStr newStr : Bytes) :
    Bytes × Option Nat → Except Fault ((Bytes × Option Nat) ⊕ Bytes)
  | (strRet, none) => .ok (.inr strRet)
  | (strRet, some dwPos) => do
      let dwNextPos := dwPos + oldStr.length
      let strRet ←
        if dwNextPos ≤ strRet.length then do
          let rest ← eraseAt strRet dwPos oldStr.length
          insertAt rest dwPos newStr
        else .ok strRet
      .ok (.inl (strRet, find strRet oldStr (dwPos + newStr.length)))

def ReplaceStr (strValue oldStr newStr : Bytes) : Rounds Fault Bytes :=
  loop (replaceRound oldStr newStr) (strValue, find strValue oldStr 0)

/-- `ReplaceStrSet` with the entries of the map in their order. -/
def ReplaceStrSet : Bytes → List (Bytes × Bytes) → Rounds Fault Bytes
  | strRet, [] => now strRet
  | strRet, it :: rest =>
      andThen (ReplaceStr strRet it.1 it.2) fun strRet => ReplaceStrSet strRet rest

/-! ## What is replaced -/

theorem replaceRound_leave (oldStr newStr strRet : Bytes) :
    replaceRound oldStr newStr (strRet, none) = .ok (.inr strRet) := rfl

/-- The text in front of the position and the text behind what is replaced. -/
theorem replaceRound_next (oldStr newStr out rest : Bytes) :
    replaceRound oldStr newStr (out ++ (oldStr ++ rest), some out.length) =
      .ok (.inl (out ++ newStr ++ rest,
        (search oldStr rest).map ((out ++ newStr).length + ·))) := by
  have hlen : out.length + oldStr.length ≤ (out ++ (oldStr ++ rest)).length := by
    rw [List.length_append, List.length_append]
    omega
  have hfind : find (out ++ newStr ++ rest) oldStr (out.length + newStr.length) =
      (search oldStr rest).map ((out ++ newStr).length + ·) := by
    rw [find, ← List.length_append, searchFrom_append]
  simp only [replaceRound, if_pos hlen, eraseAt_append, insertAt_append, bind, Except.bind, hfind]

/-- The loop from a position on: the text behind it is cut at the occurrences. -/
theorem replaceLoop_yields {oldStr : Bytes} (hne : oldStr ≠ []) (newStr s out : Bytes) :
    Yields (loop (replaceRound oldStr newStr)
      (out ++ s, (search oldStr s).map (out.length + ·)))
      (.ok (out ++ newStr.intercalate (cut oldStr s))) := by
  induction s using cut_induction hne generalizing out with
  | hnone s h =>
      rw [h, cut_of_none h, List.intercalate_singleton]
      exact yields_leave (replaceRound_leave oldStr newStr _)
  | hsome s i h ih =>
      obtain ⟨hs, hi⟩ := split_of_search h
      have hplace : out.length + i = (out ++ s.take i).length := by
        rw [List.length_append, hi]
      have htext : out ++ s = out ++ s.take i ++ (oldStr ++ s.drop (i + oldStr.length)) := by
        rw [List.append_assoc, ← hs]
      have hrest := ih (out ++ s.take i ++ newStr)
      have hpieces : out ++ newStr.intercalate (cut oldStr s) = out ++ s.take i ++ newStr ++
          newStr.intercalate (cut oldStr (s.drop (i + oldStr.length))) := by
        rw [cut_of_some hne h, List.intercalate_cons_of_ne_nil (cut_ne_nil hne _)]
        simp only [List.append_assoc]
      rw [h, Option.map_some, hplace, htext, hpieces,
        yields_next (replaceRound_next oldStr newStr _ _)]
      exact hrest

theorem ReplaceStr_eq_loop (strValue oldStr newStr : Bytes) :
    ReplaceStr strValue oldStr newStr = loop (replaceRound oldStr newStr)
      ([] ++ strValue, (search oldStr strValue).map (([] : Bytes).length + ·)) := by
  rw [ReplaceStr, find_zero_eq]
  cases search oldStr strValue with
  | none => rfl
  | some i => rw [Option.map_some, List.length_nil, Nat.zero_add, List.nil_append]

/-- The pieces with the new text between them, whatever the two texts are to each other. -/
theorem ReplaceStr_yields {oldStr : Bytes} (hne : oldStr ≠ []) (strValue newStr : Bytes) :
    Yields (ReplaceStr strValue oldStr newStr)
      (.ok (newStr.intercalate (cut oldStr strValue))) := by
  rw [ReplaceStr_eq_loop]
  exact replaceLoop_yields hne newStr strValue []

/-- The new text has the old one in it. -/
theorem ReplaceStr_yields_nested : Yields (ReplaceStr [97, 98, 97] [97] [97, 97])
    (.ok (List.intercalate [97, 97] (cut [97] [97, 98, 97]))) :=
  ReplaceStr_yields (by decide) [97, 98, 97] [97, 97]

/-! ## Termination -/

/-- The loop finds the empty text at every position. -/
theorem replaceRound_empty (newStr strRet : Bytes) {dwPos : Nat} (h : dwPos ≤ strRet.length) :
    ∃ strRet', replaceRound [] newStr (strRet, some dwPos) =
      .ok (.inl (strRet', some (dwPos + newStr.length))) ∧
      dwPos + newStr.length ≤ strRet'.length := by
  obtain ⟨out, rest, htext, hlen⟩ : ∃ out rest, strRet = out ++ ([] ++ rest) ∧ out.length = dwPos :=
    ⟨strRet.take dwPos, strRet.drop dwPos, by simp, List.length_take_of_le h⟩
  have hround := replaceRound_next [] newStr out rest
  rw [search_here List.nil_prefix, Option.map_some, Nat.add_zero, List.length_append] at hround
  refine ⟨out ++ newStr ++ rest, ?_, ?_⟩
  · rw [htext, ← hlen]
    exact hround
  · simp [hlen]

theorem ReplaceStr_comes {oldStr : Bytes} (hne : oldStr ≠ []) (strValue newStr : Bytes) :
    ∃ strRet, Yields (ReplaceStr strValue oldStr newStr) (.ok strRet) := by
  rw [ReplaceStr_eq_loop]
  exact ⟨_, replaceLoop_yields hne newStr strValue []⟩

theorem ReplaceStr_ends_iff (strValue oldStr newStr : Bytes) :
    Ends (ReplaceStr strValue oldStr newStr) ↔ oldStr ≠ [] := by
  constructor
  · intro h hnil
    subst hnil
    apply not_ends_of_stuck
      (fun st : Bytes × Option Nat => ∃ dwPos ≤ st.1.length, st.2 = some dwPos) _ _ h
    · rintro ⟨strRet, -⟩ ⟨dwPos, hle, rfl⟩
      obtain ⟨strRet', hround, hle'⟩ := replaceRound_empty newStr strRet hle
      exact ⟨_, hround, _, hle', rfl⟩
    · refine ⟨0, Nat.zero_le _, ?_⟩
      rw [find_zero_eq, search_here List.nil_prefix]
  · intro hne
    obtain ⟨strRet, hyields⟩ := ReplaceStr_comes hne strValue newStr
    exact ⟨_, hyields⟩

theorem settles_ReplaceStrSet (strRet : Bytes) (mSet : List (Bytes × Bytes)) :
    Settles (ReplaceStrSet strRet mSet) := by
  induction mSet generalizing strRet with
  | nil => exact settles_now strRet
  | cons it rest ih => exact settles_andThen (settles_loop _ _) ih

theorem ReplaceStrSet_ends_iff (strRawData : Bytes) (mSet : List (Bytes × Bytes)) :
    Ends (ReplaceStrSet strRawData mSet) ↔ ∀ it ∈ mSet, it.1 ≠ [] := by
  induction mSet generalizing strRawData with
  | nil => exact ⟨fun _ _ h => absurd h List.not_mem_nil, fun _ => ⟨_, yields_now strRawData⟩⟩
  | cons it rest ih =>
      have hnext : it.1 ≠ [] → (Ends (ReplaceStrSet strRawData (it :: rest)) ↔
          ∀ it ∈ rest, it.1 ≠ []) := by
        intro hne
        obtain ⟨strRet, hyields⟩ := ReplaceStr_comes hne strRawData it.2
        rw [← ih strRet]
        exact ends_andThen (settles_loop _ _) (settles_ReplaceStrSet · rest) hyields
      rw [List.forall_mem_cons]
      constructor
      · intro h
        have hfirst : Ends (ReplaceStr strRawData it.1 it.2) := h.of_andThen
        have hne := (ReplaceStr_ends_iff strRawData it.1 it.2).mp hfirst
        exact ⟨hne, (hnext hne).mp h⟩
      · rintro ⟨hne, hrest⟩
        exact (hnext hne).mpr hrest

end StringUtility

end CommonCc
