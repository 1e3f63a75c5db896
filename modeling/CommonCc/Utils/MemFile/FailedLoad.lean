import CommonCc.Utils.MemFile.NullReader
import CommonCc.Utils.MemFile.SaveLoad

/-!
# `Load` of a file that cannot be opened

`Load` empties the file before `fopen`, and sets the reader behind it.
-/

namespace CommonCc

open Memory

namespace LinkedFile

variable {raw : Nat → Nat → UInt8} {f g : LinkedFile}

/-! ## A write of one byte -/

/-- At the position 0 a byte goes to the block that is written, whichever that is. -/
theorem Placed.Fwrite_one (h : Placed f) (raw : Nat → Nat → UInt8) (hptr : f.m_write_ptr = 0)
    (c : UInt8) : f.Fwrite raw [c] 1 1 = .ok (1, f.fill 0 [c]) := by
  have hone : u64 (1 * 1) = 1 := rfl
  have hnr : f.writeNr = 0 := by
    rw [writeNr, hptr]
    rfl
  have hsum : u64 (0 % BLOCKSIZE + 1) = 1 := rfl
  have hcopy : f.copyIn (0 % BLOCKSIZE) [c] = .ok (f.fill 0 [c]) := by
    refine copyIn_iff.mpr ⟨?_, rfl⟩
    rw [h.size]
    exact blocksize_pos
  rw [LinkedFile.Fwrite]
  dsimp only
  rw [hone, if_neg (by simp), hnr, if_neg (Int.not_lt.mpr h.writeNr_nonneg), hptr, hsum,
    if_pos (by decide), List.take_of_length_le (by simp), hcopy]

/-- A read beyond the end gets what is left. -/
theorem Fread_beyond {size nmemb : Nat} (hle : f.m_read_ptr ≤ f.m_write_ptr)
    (hbound : f.m_write_ptr < 18446744073709551616)
    (hmore : f.m_write_ptr - f.m_read_ptr < u64 (size * nmemb)) :
    f.Fread size nmemb =
      { f with m_b_read_caused_eof := true }.readBytes (f.m_write_ptr - f.m_read_ptr) := by
  rw [LinkedFile.Fread, u64Sub_of_le hle hbound, if_pos hmore]

/-- The first byte of the first block. -/
theorem readBytes_first (hsize : (f.data 0).size = BLOCKSIZE) (hcur : f.m_current_read = some 0)
    (hptr : f.m_read_ptr = 0) :
    f.readBytes 1 = .ok (((f.data 0).read 0 1, 1), f.seek (some 0) 1) := by
  have hcopy : f.copyOut (0 % BLOCKSIZE) 1 = .ok ((f.data 0).read 0 1, f.seek (some 0) 1) := by
    refine copyOut_iff.mpr ⟨0, hcur, ?_, rfl, ?_⟩
    · rw [hsize]
      exact blocksize_pos
    · rw [hcur, hptr]
      rfl
  have hsum : u64 (0 % BLOCKSIZE + 1) < BLOCKSIZE := by decide
  rw [LinkedFile.readBytes]
  dsimp only
  rw [hptr, if_neg Nat.one_ne_zero, if_pos hsum, hcopy]

theorem saveLoop_once {read : LinkedFile → Except Fault ((Bytes × Nat) × LinkedFile)}
    {f₁ f₂ : LinkedFile} {slask : Bytes} (hlen : slask.length = 1)
    (hfirst : read f = .ok ((slask, 1), f₁)) (hsecond : read f₁ = .ok (([], 0), f₂)) :
    saveLoop read 2 f [] = .ok (slask, f₂) := by
  rw [saveLoop_more hfirst Nat.one_ne_zero, saveLoop_done hsecond rfl, List.nil_append,
    List.take_of_length_le (Nat.le_of_eq hlen)]

/-- `Save` of one byte takes it from the first block. -/
theorem Save_one (hsize : (f.data 0).size = BLOCKSIZE) (hptr : f.m_write_ptr = 1) :
    ∃ f₁, f.Save true = .ok (some ((f.data 0).read 0 1), f₁) := by
  have hmore : f.m_write_ptr - 0 < u64 (1 * BLOCKSIZE) := by
    rw [hptr]
    decide
  have hbound : f.m_write_ptr < 18446744073709551616 := by
    rw [hptr]
    decide
  let g := { f.ResetRead with m_b_read_caused_eof := true }
  have hfirst : f.ResetRead.Fread 1 BLOCKSIZE =
      .ok (((f.data 0).read 0 1, 1), g.seek (some 0) 1) := by
    have hbeyond := @Fread_beyond f.ResetRead 1 BLOCKSIZE (Nat.zero_le _) hbound hmore
    have hleft : f.ResetRead.m_write_ptr - f.ResetRead.m_read_ptr = 1 := by
      rw [show f.ResetRead.m_read_ptr = 0 from rfl, Nat.sub_zero]
      exact hptr
    rw [hbeyond, hleft]
    exact @readBytes_first g hsize rfl rfl
  have hsecond : ∃ f₁, (g.seek (some 0) 1).Fread 1 BLOCKSIZE = .ok (([], 0), f₁) := by
    have hleft : (g.seek (some 0) 1).m_write_ptr - (g.seek (some 0) 1).m_read_ptr = 0 :=
      Nat.sub_eq_zero_of_le (Nat.le_of_eq hptr)
    have hbeyond := @Fread_beyond (g.seek (some 0) 1) 1 BLOCKSIZE (Nat.le_of_eq hptr.symm)
      hbound (by rw [hleft]; decide)
    rw [hleft] at hbeyond
    exact ⟨_, hbeyond.trans (readBytes_zero _)⟩
  rcases hsecond with ⟨f₁, hsecond⟩
  refine ⟨f₁, ?_⟩
  have hloop : saveLoop (fun f => f.Fread 1 BLOCKSIZE) (f.m_write_ptr + 1) f.ResetRead [] =
      .ok ((f.data 0).read 0 1, f₁) := by
    rw [hptr]
    exact saveLoop_once (Memory.read_length _ _ _) hfirst hsecond
  rw [LinkedFile.Save, if_pos rfl, hloop]

/-! ## The writer is reset -/

/-- A query that reads, writes or saves. -/
def Query.Uses : Query → Prop
  | .call (.Fread _ _) => True
  | .call (.Fgets _) => True
  | .call (.Fwrite _ _ _) => True
  | .call (.Save _) => True
  | _ => False

/-- `g` has the size of `f`, and cannot be told from it by reads and writes. -/
def LeftAlone (raw : Nat → Nat → UInt8) (f g : LinkedFile) : Prop :=
  g.Size = f.Size ∧
    ∀ qs : List Query, (∀ q ∈ qs, q.Uses) → answers (ask raw) g qs = answers (ask raw) f qs

theorem Placed.ResetWrite_eq (h : Placed f) (hptr : f.m_write_ptr = 0)
    (hcur : f.m_current_write = 0) : f.ResetWrite = f := by
  have hnr := h.writeNr_eq_zero hcur
  unfold ResetWrite
  cases f
  simp_all

theorem Size_ResetWrite (f : LinkedFile) : f.ResetWrite.Size = 0 := by
  have hptr : f.ResetWrite.m_write_ptr = 0 := rfl
  rw [Size, hptr]
  decide

theorem Size_eq_zero (hbound : f.m_write_ptr < 18446744073709551616) (h : f.Size = 0) :
    f.m_write_ptr = 0 := by
  unfold Size at h
  omega

/-- What is written at the position 0 and saved. -/
theorem Placed.answers_write_save (h : Placed f) (raw : Nat → Nat → UInt8) (hptr : f.m_write_ptr = 0)
    (c : UInt8) :
    answers (ask raw) f [.call (.Fwrite [c] 1 1), .call (.Save true)] =
      [.ok (.written 1), .ok (.saved (some (((f.fill 0 [c]).data 0).read 0 1)))] := by
  have hwritten : (f.fill 0 [c]).m_write_ptr = 1 := by
    show u64 (f.m_write_ptr + 1) = 1
    rw [hptr]
    rfl
  have hfill : Placed (f.fill 0 [c]) := (placed_kept raw).fill h 0 [c]
  rcases Save_one (hfill.size 0) hwritten with ⟨f₁, hsave⟩
  have hask : f.ask raw (.call (.Fwrite [c] 1 1)) = .ok (.written 1, f.fill 0 [c]) := by
    rw [LinkedFile.ask, h.Fwrite_one raw hptr c]
    rfl
  have hask' : (f.fill 0 [c]).ask raw (.call (.Save true)) =
      .ok (.saved (some (((f.fill 0 [c]).data 0).read 0 1)), f₁) := by
    rw [LinkedFile.ask, hsave]
    rfl
  rw [answers_ok hask, answers_ok hask', answers]

/-- `ResetWrite` changes nothing exactly when the writer is at the start. -/
theorem Placed.ResetWrite_leftAlone_iff (h : Placed f) (raw : Nat → Nat → UInt8) :
    LeftAlone raw f f.ResetWrite ↔ f.m_write_ptr = 0 ∧ f.m_current_write = 0 := by
  constructor
  · intro halone
    rcases halone with ⟨hsize, hanswers⟩
    have hptr : f.m_write_ptr = 0 := Size_eq_zero h.writePtr (hsize.symm.trans f.Size_ResetWrite)
    constructor
    · exact hptr
    · by_contra hcur
      -- a byte that the first block does not begin with
      have hboth := hanswers [.call (.Fwrite [(f.data 0).cell 0 + 1] 1 1), .call (.Save true)]
        (by simp [Query.Uses])
      have hreset : Placed f.ResetWrite := (placed_kept raw).ResetWrite h
      rw [h.answers_write_save raw hptr, hreset.answers_write_save raw rfl] at hboth
      have hnew : (f.ResetWrite.fill 0 [(f.data 0).cell 0 + 1]).data 0 =
          (f.data 0).write 0 [(f.data 0).cell 0 + 1] := fill_data_self f.ResetWrite 0 _
      rw [hnew, fill_data_of_ne (Ne.symm hcur)] at hboth
      simp [Memory.read, Memory.write] at hboth
  · intro hstart
    rw [h.ResetWrite_eq hstart.1 hstart.2]
    exact ⟨rfl, fun _ _ => rfl⟩

/-! ## Both constructors -/

/-- A `Load` that fails leaves a file alone exactly when its writer is at the start, and a file
that is made by one answers like a new file exactly when no byte is read before the reader is
set. -/
theorem failed_Load_iff (raw : Nat → Nat → UInt8) :
    (∀ s s' calls, Contents.Made raw s → runSteps (Contents.next raw) s calls = some s' →
      ((∃ f, s'.file.Load raw none = .ok (false, f) ∧ LeftAlone raw s'.file f) ↔
        s'.file.m_write_ptr = 0 ∧ s'.file.m_current_write = 0)) ∧
    ∃ f, fromPath raw none = .ok (false, f) ∧ ∀ qs : List Query,
      (answers (ask raw) f qs = answers (ask raw) (new raw) qs ↔ RewindsFirst raw (new raw) qs) := by
  constructor
  · intro s s' calls hmade hrun
    have hplaced : Placed s'.file :=
      (placed_kept raw).run ((placed_kept raw).made (placed_new raw) hmade) hrun
    rw [← hplaced.ResetWrite_leftAlone_iff raw]
    constructor
    · intro hfailed
      rcases hfailed with ⟨f, hload, halone⟩
      cases hload
      exact halone
    · intro halone
      exact ⟨_, rfl, halone⟩
  · exact ⟨_, rfl, fun qs => (nullPair_new raw).answers_iff raw qs⟩

/-- A byte is written and the writer reset; a file is saved before it is read. -/
theorem failed_Load_iff_empty :
    ∃ s' f, runSteps (Contents.next fun _ _ => 0) ⟨new fun _ _ => 0, []⟩
        [.Fwrite [1] 1 1, .ResetWrite] = some s' ∧
      ((∃ f, s'.file.Load (fun _ _ => 0) none = .ok (false, f) ∧
          LeftAlone (fun _ _ => 0) s'.file f) ↔
        s'.file.m_write_ptr = 0 ∧ s'.file.m_current_write = 0) ∧
      fromPath (fun _ _ => 0) none = .ok (false, f) ∧
      (answers (ask fun _ _ => 0) f [.call (.Save true), .call (.Fread 1 1)] =
          answers (ask fun _ _ => 0) (new fun _ _ => 0) [.call (.Save true), .call (.Fread 1 1)] ↔
        RewindsFirst (fun _ _ => 0) (new fun _ _ => 0) [.call (.Save true), .call (.Fread 1 1)]) := by
  have hrun : ∃ s', runSteps (Contents.next fun _ _ => 0) ⟨new fun _ _ => 0, []⟩
      [.Fwrite [1] 1 1, .ResetWrite] = some s' := Option.isSome_iff_exists.mp (by decide +kernel)
  rcases hrun with ⟨s', hrun⟩
  have hboth := failed_Load_iff fun _ _ => 0
  rcases hboth.2 with ⟨f, hpath, hiff⟩
  exact ⟨s', f, hrun, hboth.1 _ s' _ .new hrun, hpath, hiff _⟩

/-- The byte of a file is gone after a `Load` that fails, and a byte that is written to a file
made by one cannot be read. -/
theorem failed_Load_empties :
    (∃ s' f, runSteps (Contents.next fun _ _ => 0) ⟨new fun _ _ => 0, []⟩
        [.Fwrite [1] 1 1] = some s' ∧ s'.file.Load (fun _ _ => 0) none = .ok (false, f) ∧
      s'.file.Size = 1 ∧ f.Size = 0 ∧
      answers (ask fun _ _ => 0) s'.file [.call (.Fread 1 1)] = [.ok (.read [1] 1)] ∧
      answers (ask fun _ _ => 0) f [.call (.Fread 1 1)] = [.ok (.read [] 0)]) ∧
    ∃ f, fromPath (fun _ _ => 0) none = .ok (false, f) ∧
      answers (ask fun _ _ => 0) (new fun _ _ => 0) [.call (.Fwrite [7] 1 1), .call (.Fread 1 1)] =
        [.ok (.written 1), .ok (.read [7] 1)] ∧
      answers (ask fun _ _ => 0) f [.call (.Fwrite [7] 1 1), .call (.Fread 1 1)] =
        [.ok (.written 1), .error .outOfBounds] := by
  have hloaded : ∃ s' ∈ runSteps (Contents.next fun _ _ => 0) ⟨new fun _ _ => 0, []⟩
      [.Fwrite [1] 1 1], s'.file.Size = 1 ∧ s'.file.ResetWrite.Size = 0 ∧
      answers (ask fun _ _ => 0) s'.file [.call (.Fread 1 1)] = [.ok (.read [1] 1)] ∧
      answers (ask fun _ _ => 0) s'.file.ResetWrite [.call (.Fread 1 1)] = [.ok (.read [] 0)] := by
    decide +kernel
  constructor
  · rcases hloaded with ⟨s', hrun, hsize, hsize', hread, hread'⟩
    exact ⟨s', _, hrun, rfl, hsize, hsize', hread, hread'⟩
  · exact ⟨_, rfl, by decide +kernel, by decide +kernel⟩

end LinkedFile

end CommonCc
