import CommonCc.Utils.MemFile.Tracks

/-!
# `MemFile::Load` and `MemFile::Save`

`Load` uses the blocks of an earlier content up to its first boundary and then makes new ones, and
`Save` reads the chain from `m_base` on, a block at a time.
-/

namespace CommonCc

open Memory

namespace LinkedFile

variable {raw : Nat → Nat → UInt8} {f : LinkedFile} {before after : List Nat} {content : Bytes}

theorem blocksize_u64 : u64 (1 * BLOCKSIZE) = BLOCKSIZE := u64_one_mul (by decide)

section Loop

variable {read : LinkedFile → Except Fault ((Bytes × Nat) × LinkedFile)} {f₁ : LinkedFile}
  {slask fil : Bytes} {n fuel : Nat}

theorem saveLoop_done (hread : read f = .ok ((slask, n), f₁)) (hn : n = 0) :
    saveLoop read (fuel + 1) f fil = .ok (fil, f₁) := by
  rw [saveLoop, hread]
  exact if_pos hn

theorem saveLoop_more (hread : read f = .ok ((slask, n), f₁)) (hn : n ≠ 0) :
    saveLoop read (fuel + 1) f fil = saveLoop read fuel f₁ (fil ++ slask.take n) := by
  rw [saveLoop, hread]
  exact if_neg hn

end Loop

/-- From a boundary on, or at the end, the loop of `Save` writes what is left. -/
theorem InStep.saveLoop (hs : InStep f before after content) (h : Tracks f before after content)
    (hstart : f.m_read_ptr % BLOCKSIZE = 0 ∨ f.m_read_ptr = content.length) {fuel : Nat}
    (hfuel : content.length - f.m_read_ptr < fuel) (fil : Bytes) :
    ∃ f₁, saveLoop (fun f => f.Fread 1 BLOCKSIZE) fuel f fil =
      .ok (fil ++ content.drop f.m_read_ptr, f₁) := by
  induction fuel generalizing f fil with
  | zero => exact absurd hfuel (Nat.not_lt_zero _)
  | succ fuel ih =>
      have hpos := blocksize_pos
      have hmod := Nat.mod_lt f.m_read_ptr hpos
      have hle := hs.le
      rcases hs.Fread h 1 BLOCKSIZE (min BLOCKSIZE (content.length - f.m_read_ptr))
          (by rw [blocksize_u64]) (by omega) with ⟨f₁, hread, h₁, hs₁, hptr, -⟩
      have hlen : ((content.drop f.m_read_ptr).take
          (min BLOCKSIZE (content.length - f.m_read_ptr))).length =
          min BLOCKSIZE (content.length - f.m_read_ptr) := by
        rw [List.length_take, List.length_drop]
        omega
      by_cases hzero : min BLOCKSIZE (content.length - f.m_read_ptr) = 0
      · have hend : f.m_read_ptr = content.length := by omega
        refine ⟨f₁, ?_⟩
        rw [saveLoop_done hread hzero, hend, List.drop_length, List.append_nil]
      · have hstart₁ : f₁.m_read_ptr % BLOCKSIZE = 0 ∨ f₁.m_read_ptr = content.length := by
          rw [hptr]
          cases Nat.le_total BLOCKSIZE (content.length - f.m_read_ptr) with
          | inl hfull =>
              rw [Nat.min_eq_left hfull, Nat.add_mod_right]
              exact .inl (hstart.resolve_right (by omega))
          | inr hlast => exact .inr (by omega)
        rcases ih hs₁ h₁ hstart₁ (by omega) (fil ++ (content.drop f.m_read_ptr).take
            (min BLOCKSIZE (content.length - f.m_read_ptr))) with ⟨f₂, hrest⟩
        refine ⟨f₂, ?_⟩
        rw [saveLoop_more hread hzero, List.take_of_length_le (Nat.le_of_eq hlen), hrest, hptr,
          List.append_assoc, ← List.drop_drop, List.take_append_drop]

/-- `Save` writes the content, wherever the reader was. -/
theorem Tracks.Save (h : Tracks f before after content) :
    ∃ f₁, f.Save true = .ok (some content, f₁) := by
  have hreset := h.readOnly (readOnly_seek f (some 0) 0)
  have hfuel : content.length - (f.seek (some 0) 0).m_read_ptr < f.m_write_ptr + 1 := by
    rw [h.writePtr]
    exact Nat.lt_succ_of_le (Nat.sub_le _ _)
  rcases (hreset.inStep rfl rfl).saveLoop hreset (.inl rfl) hfuel [] with ⟨f₁, hloop⟩
  have hstart : f.ResetRead = f.seek (some 0) 0 := rfl
  refine ⟨f₁, ?_⟩
  rw [LinkedFile.Save, if_pos rfl, hstart, hloop]
  rfl

/-- In every state that can be reached, `Save` writes to one file what `Load` reads from another. -/
theorem Save_Load {s s' : Contents} {calls : List FileCall} (hmade : Contents.Made raw s)
    (hrun : runSteps (Contents.next raw) s calls = some s') (fil : Bytes)
    (hlen : fil.length < 2147483648) :
    ∃ f f₁, s'.file.Load raw (some fil) = .ok (true, f) ∧ f.Save true = .ok (some fil, f₁) := by
  rcases ((sound_kept raw).run hmade.sound hrun).Load_some raw (Nat.le_of_lt hlen) with
    ⟨f, before, after, hload, htracks, -⟩
  rcases htracks.Save with ⟨f₁, hsave⟩
  exact ⟨f, f₁, hload, hsave⟩

/-- A file of seven bytes over nine bytes that have been read in part. -/
theorem Save_Load_seven :
    ∃ s' f f₁, runSteps (Contents.next fun _ _ => 0) ⟨new fun _ _ => 0, []⟩
        [.Fwrite [1, 2, 3, 4, 5, 6, 7, 8, 9] 3 3, .Fread 2 2, .ResetWrite] = some s' ∧
      s'.file.Load (fun _ _ => 0) (some [9, 8, 7, 6, 5, 4, 3]) = .ok (true, f) ∧
      f.Save true = .ok (some [9, 8, 7, 6, 5, 4, 3], f₁) := by
  have hrun : ∃ s', runSteps (Contents.next fun _ _ => 0) ⟨new fun _ _ => 0, []⟩
      [.Fwrite [1, 2, 3, 4, 5, 6, 7, 8, 9] 3 3, .Fread 2 2, .ResetWrite] = some s' :=
    Option.isSome_iff_exists.mp (by decide +kernel)
  rcases hrun with ⟨s', hrun⟩
  rcases Save_Load .new hrun [9, 8, 7, 6, 5, 4, 3] (by decide) with ⟨f, f₁, hload, hsave⟩
  exact ⟨s', f, f₁, hrun, hload, hsave⟩

end LinkedFile

end CommonCc
