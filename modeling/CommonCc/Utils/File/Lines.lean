import CommonCc.Lib.Loop
import CommonCc.StdStream
import CommonCc.Utils.File
import CommonCc.Utils.Ini

/-!
# `FileUtility::LoadLines`

The loop keeps a line while the stream is still good behind it, which it is not behind a last
line without line end.  `OpenIniFile` goes on while `getline` has extracted something.
-/

namespace CommonCc

namespace FileUtility

/-- The stream, the line read last and the lines kept so far. -/
abbrev LinesState : Type := IStream × Bytes × List Bytes

/-- A round of `LoadLines`. -/
def loadRound : LinesState → Except Fault (LinesState ⊕ Bool × List Bytes)
  | (in_file, tmp, lines) =>
      if in_file.good then
        let next := in_file.getline tmp
        .ok (.inl (next.1, next.2, lines ++ [tmp]))
      else .ok (.inr (true, lines))

/-- The result, and the lines afterwards.  `disk` holds the regular files. -/
def LoadLines (disk : Bytes → Option Bytes) (opens : Bool) (path : Bytes) (lines : List Bytes) :
    Rounds Fault (Bool × List Bytes) :=
  match disk (c_str path) with
  | none => now (false, lines)
  | some content =>
      if opens then
        let first := (IStream.ofContent content).getline []
        loop loadRound (first.1, first.2, [])
      else now (false, lines)

/-- A round of the loop of `OpenIniFile`, which keeps the lines instead of reading them. -/
def whileRound : LinesState → Except Fault (LinesState ⊕ List Bytes)
  | (inifile, line, lines) =>
      let next := inifile.getline line
      if next.1.ok then .ok (.inl (next.1, next.2, lines ++ [next.2]))
      else .ok (.inr lines)

section

variable {texts : List Bytes} {a : Bytes}

/-- The loop keeps the whole lines and drops the rest. -/
theorem yields_loadRound (htexts : ∀ t ∈ texts, 10 ∉ t) (ha : 10 ∉ a) (lines : List Bytes)
    (str : Bytes) :
    let next := (IStream.ofContent (texts.flatMap (· ++ [10]) ++ a)).getline str
    Yields (loop loadRound (next.1, next.2, lines)) (.ok (true, lines ++ texts)) := by
  dsimp only
  induction texts generalizing lines str with
  | nil =>
      rw [List.flatMap_nil, List.nil_append, IStream.getline_last ha, List.append_nil]
      exact yields_leave rfl
  | cons t texts ih =>
      have ht := List.forall_mem_cons.mp htexts
      have hnext := ih ht.2 (lines ++ [t]) t
      rw [List.append_assoc, List.singleton_append] at hnext
      rw [List.flatMap_cons, List.append_assoc, List.append_assoc, List.singleton_append,
        IStream.getline_line ht.1]
      exact (yields_next rfl).mpr hnext

/-- The loop of `OpenIniFile` keeps the rest too. -/
theorem yields_whileRound (htexts : ∀ t ∈ texts, 10 ∉ t) (ha : 10 ∉ a) (lines : List Bytes)
    (str : Bytes) :
    Yields (loop whileRound (IStream.ofContent (texts.flatMap (· ++ [10]) ++ a), str, lines))
      (.ok (lines ++ texts ++ if a = [] then [] else [a])) := by
  induction texts generalizing lines str with
  | nil =>
      rw [List.flatMap_nil, List.nil_append, List.append_nil]
      by_cases hempty : a = []
      · have hround : whileRound (IStream.ofContent a, str, lines) = .ok (.inr lines) := by
          rw [hempty]
          rfl
        rw [if_pos hempty, List.append_nil]
        exact yields_leave hround
      · have hround : whileRound (IStream.ofContent a, str, lines) =
            .ok (.inl (⟨[], true, false⟩, a, lines ++ [a])) := by
          have hfalse : a.isEmpty = false := by simpa using hempty
          rw [whileRound, IStream.getline_last ha, hfalse]
          rfl
        rw [if_neg hempty]
        exact (yields_next hround).mpr (yields_leave rfl)
  | cons t texts ih =>
      have ht := List.forall_mem_cons.mp htexts
      have hnext := ih ht.2 (lines ++ [t]) t
      rw [List.append_assoc lines, List.singleton_append] at hnext
      have hround : whileRound
          (IStream.ofContent ((t :: texts).flatMap (· ++ [10]) ++ a), str, lines) =
            .ok (.inl (IStream.ofContent (texts.flatMap (· ++ [10]) ++ a), t, lines ++ [t])) := by
        rw [List.flatMap_cons, List.append_assoc, List.append_assoc, List.singleton_append,
          whileRound, IStream.getline_line ht.1]
        rfl
      exact (yields_next hround).mpr hnext

theorem getlines_lines (htexts : ∀ t ∈ texts, 10 ∉ t) (ha : 10 ∉ a) :
    getlines (texts.flatMap (· ++ [10]) ++ a) = texts ++ if a = [] then [] else [a] := by
  rw [CIniFile.getlines_append htexts, getlines, CIniFile.getlinesFrom_last ha, List.nil_append]

/-- The rest is empty when the text is empty or ends with a line end. -/
theorem rest_eq_nil_iff (ha : 10 ∉ a) :
    a = [] ↔ texts.flatMap (· ++ [10]) ++ a = [] ∨
      (texts.flatMap (· ++ [10]) ++ a).getLast? = some 10 := by
  constructor
  · intro h
    rw [h, List.append_nil]
    cases texts using List.reverseRecOn with
    | nil => exact .inl rfl
    | append_singleton texts t =>
        right
        rw [List.flatMap_append, List.flatMap_singleton, ← List.append_assoc,
          List.getLast?_concat]
  · intro h
    rcases h with h | h
    · exact (List.append_eq_nil_iff.mp h).2
    · cases a using List.reverseRecOn with
      | nil => rfl
      | append_singleton a c =>
          rw [← List.append_assoc, List.getLast?_concat] at h
          exact absurd (Option.some.inj h ▸ List.mem_append_right a List.mem_cons_self) ha

end

/-- What `getline` delivers as the condition of a loop are the lines of the text. -/
theorem yields_getlines (content : Bytes) :
    Yields (loop whileRound (IStream.ofContent content, [], [])) (.ok (getlines content)) := by
  obtain ⟨texts, a, htexts, ha, rfl⟩ := exists_lines content
  have hloop := yields_whileRound htexts ha [] []
  rwa [List.nil_append, ← getlines_lines htexts ha] at hloop

/-- `LoadLines` delivers all lines exactly when the text is empty or ends with a line end. -/
theorem LoadLines_complete_iff (disk : Bytes → Option Bytes) (path content : Bytes)
    (lines : List Bytes) (h : disk (c_str path) = some content) :
    Yields (LoadLines disk true path lines) (.ok (true, getlines content)) ↔
      content = [] ∨ content.getLast? = some 10 := by
  obtain ⟨texts, a, htexts, ha, rfl⟩ := exists_lines content
  have hloop := yields_loadRound htexts ha [] []
  have hload : LoadLines disk true path lines =
      loop loadRound ((IStream.ofContent (texts.flatMap (· ++ [10]) ++ a)).getline [] |>.1,
        (IStream.ofContent (texts.flatMap (· ++ [10]) ++ a)).getline [] |>.2, []) := by
    rw [LoadLines, h]
    rfl
  rw [hload, hloop.iff_eq, ← rest_eq_nil_iff ha, getlines_lines htexts ha, List.nil_append]
  by_cases hempty : a = []
  · simp [hempty]
  · simp [hempty]

theorem LoadLines_complete_iff_empty_line :
    Yields (LoadLines (fun _ => some (ascii ['a', '\n', '\n', 'b', '\n'])) true [47] [[1]])
      (.ok (true, getlines (ascii ['a', '\n', '\n', 'b', '\n']))) :=
  (LoadLines_complete_iff (fun _ => some (ascii ['a', '\n', '\n', 'b', '\n'])) [47] _ [[1]] rfl).mpr
    (.inr (by decide))

/-- The last line is lost when it has no line end. -/
theorem LoadLines_complete_false :
    Yields (LoadLines (fun _ => some (ascii ['a', '\n', 'b'])) true [47] [])
        (.ok (true, [ascii ['a']])) ∧
      getlines (ascii ['a', '\n', 'b']) = [ascii ['a'], ascii ['b']] ∧
      ¬ Yields (LoadLines (fun _ => some (ascii ['a', '\n', 'b'])) true [47] [])
        (.ok (true, getlines (ascii ['a', '\n', 'b']))) := by
  have hends : ∀ t ∈ [ascii ['a']], 10 ∉ t := by decide
  have hlast : 10 ∉ ascii ['b'] := by decide
  have hloop := yields_loadRound hends hlast [] []
  refine ⟨hloop, by decide, fun h => ?_⟩
  exact absurd (Yields.unique hloop h) (by decide)

end FileUtility

end CommonCc
