import CommonCc.Utils.MemFile.Tracks

/-!
# `MemFile::Fgets` line by line

A line ends at its LF, which is read and dropped, or where there is nothing left to read.  Only the
second end sets `Eof`.
-/

namespace CommonCc

open Memory

namespace LinkedFile

variable {raw : Nat → Nat → UInt8} {f f₁ : LinkedFile} {before after : List Nat} {content s : Bytes}

/-! ## One character -/

section Loop

variable {read : LinkedFile → Except Fault ((Bytes × Nat) × LinkedFile)} {c : UInt8} {size : Int}
  {fuel : Nat}

theorem fgetsLoop_eof (heof : f.m_b_read_caused_eof = true) :
    fgetsLoop read size (fuel + 1) f s = .ok (s, f) := by
  rw [fgetsLoop, if_neg]
  intro hgo
  rw [heof] at hgo
  exact absurd hgo.2 (by decide)

theorem fgetsLoop_nothing (hroom : s.length < size - 1) (heof : f.m_b_read_caused_eof = false)
    (hread : read f = .ok (([], 0), f₁)) :
    fgetsLoop read size (fuel + 1) f s = fgetsLoop read size fuel f₁ s := by
  rw [fgetsLoop, if_pos ⟨hroom, heof⟩, hread]
  exact if_pos rfl

theorem fgetsLoop_newline (hroom : s.length < size - 1) (heof : f.m_b_read_caused_eof = false)
    (hread : read f = .ok (([10], 1), f₁)) :
    fgetsLoop read size (fuel + 1) f s = .ok (s, f₁) := by
  rw [fgetsLoop, if_pos ⟨hroom, heof⟩, hread]
  exact (if_neg Nat.one_ne_zero).trans (if_pos rfl)

theorem fgetsLoop_char (hroom : s.length < size - 1) (heof : f.m_b_read_caused_eof = false)
    (hread : read f = .ok (([c], 1), f₁)) (hc : c ≠ 10) :
    fgetsLoop read size (fuel + 1) f s = fgetsLoop read size fuel f₁ (s ++ [c]) := by
  rw [fgetsLoop, if_pos ⟨hroom, heof⟩, hread]
  refine (if_neg Nat.one_ne_zero).trans (if_neg ?_)
  intro heq
  exact hc (List.cons.inj heq).1

end Loop

/-- What is left to read, for a reader that has not met the end yet. -/
structure Unread (f : LinkedFile) (before after : List Nat) (content rest : Bytes) : Prop where
  tracks : Tracks f before after content
  inStep : InStep f before after content
  rest : content.drop f.m_read_ptr = rest
  eof : f.m_b_read_caused_eof = false

variable {rest line : Bytes}

theorem Unread.Fread_nil (h : Unread f before after content []) :
    ∃ f₁, f.Fread 1 1 = .ok (([], 0), f₁) ∧ f₁.m_b_read_caused_eof = true := by
  have hend : content.length - f.m_read_ptr = 0 := by
    rw [← List.length_drop, h.rest, List.length_nil]
  have hmod := Nat.mod_lt f.m_read_ptr blocksize_pos
  rcases h.inStep.Fread h.tracks 1 1 0 (by rw [hend, Nat.min_zero]) (Nat.le_of_lt hmod)
    with ⟨f₁, hread, -, -, -, heof⟩
  rw [List.take_zero] at hread
  exact ⟨f₁, hread, heof.mpr (.inr (by rw [hend]; decide))⟩

theorem Unread.Fread_cons {c : UInt8} (h : Unread f before after content (c :: rest)) :
    ∃ f₁, f.Fread 1 1 = .ok (([c], 1), f₁) ∧ Unread f₁ before after content rest := by
  have hlen : content.length - f.m_read_ptr = rest.length + 1 := by
    rw [← List.length_drop, h.rest, List.length_cons]
  have hone : u64 (1 * 1) = 1 := rfl
  have hmod := Nat.mod_lt f.m_read_ptr blocksize_pos
  rcases h.inStep.Fread h.tracks 1 1 1 (by rw [hlen, hone]; omega) hmod
    with ⟨f₁, hread, h₁, hs₁, hptr, heof⟩
  rw [h.rest] at hread
  refine ⟨f₁, hread, h₁, hs₁, ?_, ?_⟩
  · rw [hptr, ← List.drop_drop, h.rest]
    rfl
  · rw [← Bool.not_eq_true, heof, h.eof, hlen, hone]
    simp

/-! ## One line -/

/-- A line that fits ends at its LF. -/
theorem Unread.fgetsLoop_line {size : Int} {fuel : Nat}
    (h : Unread f before after content (line ++ 10 :: rest)) (hline : 10 ∉ line)
    (hsize : s.length + line.length ≤ size - 2) (hfuel : line.length < fuel) :
    ∃ f₁, fgetsLoop (fun f => f.Fread 1 1) size fuel f s = .ok (s ++ line, f₁) ∧
      Unread f₁ before after content rest := by
  induction line generalizing f s fuel with
  | nil =>
      obtain ⟨fuel, rfl⟩ := Nat.exists_eq_succ_of_ne_zero (Nat.ne_of_gt hfuel)
      rw [List.length_nil] at hsize
      rcases h.Fread_cons with ⟨f₁, hread, h₁⟩
      refine ⟨f₁, ?_, h₁⟩
      rw [fgetsLoop_newline (by omega) h.eof hread, List.append_nil]
  | cons c line ih =>
      obtain ⟨fuel, rfl⟩ := Nat.exists_eq_succ_of_ne_zero (Nat.ne_zero_of_lt hfuel)
      rw [List.length_cons] at hsize hfuel
      rcases List.ne_and_not_mem_of_not_mem_cons hline with ⟨hc, hline⟩
      rcases Unread.Fread_cons h with ⟨f₁, hread, h₁⟩
      have hsize₁ : (s ++ [c]).length + line.length ≤ size - 2 := by
        rw [List.length_append, List.length_singleton]
        omega
      rcases ih h₁ hline hsize₁ (Nat.lt_of_succ_lt_succ hfuel) with ⟨f₂, hloop, h₂⟩
      refine ⟨f₂, ?_, h₂⟩
      rw [fgetsLoop_char (by omega) h.eof hread (Ne.symm hc), hloop, List.append_assoc]
      rfl

/-- The last line ends with the content. -/
theorem Unread.fgetsLoop_last {size : Int} {fuel : Nat} (h : Unread f before after content line)
    (hline : 10 ∉ line) (hsize : s.length + line.length ≤ size - 2)
    (hfuel : line.length + 1 < fuel) :
    ∃ f₁, fgetsLoop (fun f => f.Fread 1 1) size fuel f s = .ok (s ++ line, f₁) ∧
      f₁.m_b_read_caused_eof = true := by
  induction line generalizing f s fuel with
  | nil =>
      obtain ⟨fuel, rfl⟩ : ∃ k, fuel = k + 2 := Nat.exists_eq_add_of_le' hfuel
      rw [List.length_nil] at hsize
      rcases h.Fread_nil with ⟨f₁, hread, heof⟩
      refine ⟨f₁, ?_, heof⟩
      rw [fgetsLoop_nothing (by omega) h.eof hread, fgetsLoop_eof heof, List.append_nil]
  | cons c line ih =>
      obtain ⟨fuel, rfl⟩ := Nat.exists_eq_succ_of_ne_zero (Nat.ne_zero_of_lt hfuel)
      rw [List.length_cons] at hsize hfuel
      rcases List.ne_and_not_mem_of_not_mem_cons hline with ⟨hc, hline⟩
      rcases h.Fread_cons with ⟨f₁, hread, h₁⟩
      have hsize₁ : (s ++ [c]).length + line.length ≤ size - 2 := by
        rw [List.length_append, List.length_singleton]
        omega
      rcases ih h₁ hline hsize₁ (Nat.lt_of_succ_lt_succ hfuel) with ⟨f₂, hloop, heof⟩
      refine ⟨f₂, ?_, heof⟩
      rw [fgetsLoop_char (by omega) h.eof hread (Ne.symm hc), hloop, List.append_assoc]
      rfl

theorem Unread.Fgets_line {size : Int} (h : Unread f before after content (line ++ 10 :: rest))
    (hline : 10 ∉ line) (hsize : line.length ≤ size - 2) :
    ∃ f₁, f.Fgets size = .ok (line, f₁) ∧ Unread f₁ before after content rest :=
  h.fgetsLoop_line hline (by rw [List.length_nil]; omega) (by omega)

theorem Unread.Fgets_last {size : Int} (h : Unread f before after content line)
    (hline : 10 ∉ line) (hsize : line.length ≤ size - 2) :
    ∃ f₁, f.Fgets size = .ok (line, f₁) ∧ f₁.m_b_read_caused_eof = true :=
  h.fgetsLoop_last hline (by rw [List.length_nil]; omega) (by omega)

/-! ## All lines -/

/-- The lines that are read until `Eof`. -/
def readLines (readLine : LinkedFile → Except Fault (Bytes × LinkedFile)) :
    Nat → LinkedFile → Except Fault (List Bytes × LinkedFile)
  | 0, _ => .error .diverges
  | fuel + 1, f =>
      if f.m_b_read_caused_eof then .ok ([], f)
      else
        match readLine f with
        | .error e => .error e
        | .ok (s, f) =>
            match readLines readLine fuel f with
            | .error e => .error e
            | .ok (lines, f) => .ok (s :: lines, f)

section Loop

variable {readLine : LinkedFile → Except Fault (Bytes × LinkedFile)} {lines : List Bytes}
  {f₂ : LinkedFile} {fuel : Nat}

theorem readLines_eof (heof : f.m_b_read_caused_eof = true) :
    readLines readLine (fuel + 1) f = .ok ([], f) := by
  rw [readLines]
  exact if_pos heof

theorem readLines_line (heof : f.m_b_read_caused_eof = false) (hline : readLine f = .ok (s, f₁))
    (hlines : readLines readLine fuel f₁ = .ok (lines, f₂)) :
    readLines readLine (fuel + 1) f = .ok (s :: lines, f₂) := by
  rw [readLines, if_neg (Bool.eq_false_iff.mp heof), hline]
  dsimp only
  rw [hlines]

end Loop

/-- What is left to read is read line by line. -/
theorem Unread.readLines {size : Int} {fuel : Nat} (h : Unread f before after content rest)
    (hsize : ∀ line ∈ rest.splitOn 10, line.length ≤ size - 2) (hfuel : rest.length + 1 < fuel) :
    ∃ f₁, readLines (fun f => f.Fgets size) fuel f = .ok (rest.splitOn 10, f₁) ∧
      f₁.m_b_read_caused_eof = true := by
  induction hn : rest.length using Nat.strongRecOn generalizing f rest fuel with
  | ind n ih =>
      obtain ⟨fuel, rfl⟩ : ∃ k, fuel = k + 2 := Nat.exists_eq_add_of_le' (by omega)
      by_cases hlf : 10 ∈ rest
      · rcases List.eq_append_cons_of_mem hlf with ⟨line, rest', rfl, hline⟩
        rw [List.splitOn_append_cons_self_of_not_mem hline] at hsize ⊢
        rcases List.forall_mem_cons.mp hsize with ⟨hfits, hsize'⟩
        rw [List.length_append, List.length_cons] at hn hfuel
        rcases h.Fgets_line hline hfits with ⟨f₁, hread, h₁⟩
        have hfuel' : rest'.length + 1 < fuel + 1 := by omega
        rcases ih rest'.length (by omega) h₁ hsize' hfuel' rfl with ⟨f₂, hlines, heof⟩
        exact ⟨f₂, readLines_line h.eof hread hlines, heof⟩
      · rw [List.splitOn_eq_singleton hlf] at hsize ⊢
        rcases h.Fgets_last hlf (hsize rest List.mem_cons_self) with ⟨f₁, hread, heof⟩
        exact ⟨f₁, readLines_line h.eof hread (readLines_eof heof), heof⟩

/-- The lines of a file in a new `MemFile`. -/
theorem Fgets_splitOn (raw : Nat → Nat → UInt8) (content : Bytes) (size : Int)
    (hlen : content.length < 2147483648)
    (hsize : ∀ line ∈ content.splitOn 10, line.length ≤ size - 2) :
    ∃ f f₁, (new raw).Load raw (some content) = .ok (true, f) ∧
      fromPath raw (some content) = .ok (true, f) ∧
      LinkedFile.readLines (fun f => f.Fgets size) (content.length + 2) f =
        .ok (content.splitOn 10, f₁) ∧
      f₁.m_b_read_caused_eof = true := by
  rcases (sound_new raw).Load_some raw (Nat.le_of_lt hlen) with
    ⟨f, before, after, hload, htracks, hcur, hptr, heof⟩
  have hunread : Unread f before after content content :=
    ⟨htracks, htracks.inStep hcur hptr, by rw [hptr]; exact List.drop_zero, heof⟩
  rcases hunread.readLines hsize (Nat.lt_succ_self _) with ⟨f₁, hlines, heof₁⟩
  exact ⟨f, f₁, hload, hload, hlines, heof₁⟩

/-- Two lines and the empty one behind the last LF. -/
theorem Fgets_splitOn_two :
    ∃ f f₁, fromPath (fun _ _ => 0) (some [97, 98, 10, 99, 10]) = .ok (true, f) ∧
      LinkedFile.readLines (fun f => f.Fgets 4) 7 f = .ok ([[97, 98], [99], []], f₁) ∧
      f₁.m_b_read_caused_eof = true := by
  rcases Fgets_splitOn (fun _ _ => 0) [97, 98, 10, 99, 10] 4 (by decide)
    (by decide) with ⟨f, f₁, -, hload, hlines, heof⟩
  exact ⟨f, f₁, hload, hlines, heof⟩

end LinkedFile

end CommonCc
