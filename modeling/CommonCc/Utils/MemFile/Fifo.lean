import CommonCc.Lib.Blocks
import CommonCc.Lib.Transition
import CommonCc.Utils.MemFile.Model

/-!
# `MemFile` as a queue of bytes

The writer leaves a full block only when it writes again, and the reader leaves it when it has
read its last byte.
-/

namespace CommonCc

open Memory

namespace MemFile

variable {raw : Nat → Nat → UInt8} {f : MemFile} {written src : Bytes}

/-! ## The writer -/

/-- The blocks up to the one that is written hold what has been written. -/
structure Filled (f : MemFile) (written : Bytes) : Prop where
  holds : Holds BLOCKSIZE f.blocks written
  writePtr : f.m_write_ptr = written.length
  last : f.m_current_write + 1 = f.blocks.length
  writeNr : f.m_current_write_nr = f.m_current_write
  low : f.m_current_write * BLOCKSIZE ≤ written.length
  high : written.length ≤ (f.m_current_write + 1) * BLOCKSIZE

/-- What a write leaves alone. -/
structure Grows (f f' : MemFile) : Prop where
  readPtr : f'.m_read_ptr = f.m_read_ptr
  currentRead : f'.m_current_read = f.m_current_read
  blocks : f.blocks.length ≤ f'.blocks.length

theorem Grows.refl (f : MemFile) : Grows f f := ⟨rfl, rfl, Nat.le_refl _⟩

theorem Grows.trans {f f' f'' : MemFile} (h : Grows f f') (h' : Grows f' f'') : Grows f f'' :=
  ⟨h'.readPtr.trans h.readPtr, h'.currentRead.trans h.currentRead, h.blocks.trans h'.blocks⟩

theorem filled_new (raw : Nat → Nat → UInt8) : Filled (new raw) [] where
  holds := {
    size := fun m hm => by rw [List.mem_singleton.mp hm]; rfl
    cell := fun i hi => absurd hi (Nat.not_lt_zero i) }
  writePtr := rfl
  last := rfl
  writeNr := rfl
  low := Nat.le_of_eq (Nat.zero_mul _)
  high := Nat.zero_le _

theorem Filled.addBlock (h : Filled f written) (raw : Nat → Nat → UInt8)
    (hfull : written.length = (f.m_current_write + 1) * BLOCKSIZE) :
    Filled (f.addBlock raw) written ∧ Grows f (f.addBlock raw) := by
  have hblocks : (f.addBlock raw).blocks = f.blocks ++ [newBlock raw (f.m_current_write + 1)] := by
    rw [MemFile.addBlock, h.last, List.take_length]
  have hlen : (f.addBlock raw).blocks.length = f.blocks.length + 1 := by
    rw [hblocks, List.length_append, List.length_singleton]
  constructor
  · exact {
      holds := by rw [hblocks]; exact h.holds.append rfl
      writePtr := h.writePtr
      last := by rw [hlen, ← h.last]; rfl
      writeNr := by
        show f.m_current_write_nr + 1 = ((f.m_current_write + 1 : Nat) : Int)
        rw [h.writeNr, Int.natCast_add]
        rfl
      low := Nat.le_of_eq hfull.symm
      high := by
        rw [hfull]
        exact Nat.mul_le_mul_right _ (Nat.le_succ _) }
  · exact ⟨rfl, rfl, by rw [hlen]; exact Nat.le_succ _⟩

theorem Filled.nextWrite (h : Filled f written) : f.nextWrite raw = f.addBlock raw :=
  if_neg (by rw [h.last]; exact Nat.lt_irrefl _)

theorem Filled.copyIn (h : Filled f written) (src : Bytes) {off : Nat}
    (hoff : written.length = f.m_current_write * BLOCKSIZE + off)
    (hfit : off + src.length ≤ BLOCKSIZE) :
    ∃ f', f.copyIn off src = .ok f' ∧ Filled f' (written ++ src) ∧ Grows f f' ∧
      f'.m_current_write = f.m_current_write := by
  have hcw : f.m_current_write < f.blocks.length := by
    rw [← h.last]
    exact Nat.lt_succ_self _
  have hblock := List.getElem?_eq_getElem hcw
  generalize f.blocks[f.m_current_write] = block at hblock
  have hsize : block.size = BLOCKSIZE := h.holds.size block (List.mem_of_getElem? hblock)
  have hstore : block.store off src = some (block.write off src) :=
    store_eq_some block (by rw [hsize]; exact hfit)
  refine ⟨{ f with
      blocks := f.blocks.set f.m_current_write (block.write off src)
      m_write_ptr := f.m_write_ptr + src.length }, ?_, ?_, ?_, rfl⟩
  · rw [MemFile.copyIn, hblock]
    dsimp only
    rw [hstore]
  · exact {
      holds := h.holds.write hblock hoff hfit
      writePtr := by
        show f.m_write_ptr + src.length = (written ++ src).length
        rw [h.writePtr, List.length_append]
      last := by
        show f.m_current_write + 1 = (f.blocks.set _ _).length
        rw [List.length_set, h.last]
      writeNr := h.writeNr
      low := by
        show f.m_current_write * BLOCKSIZE ≤ (written ++ src).length
        rw [List.length_append]
        exact Nat.le_add_right_of_le h.low
      high := by
        show (written ++ src).length ≤ (f.m_current_write + 1) * BLOCKSIZE
        rw [List.length_append, hoff, Nat.add_assoc, Nat.succ_mul]
        exact Nat.add_le_add_left hfit _ }
  · exact ⟨rfl, rfl, Nat.le_of_eq (List.length_set ..).symm⟩

/-- A block behind a full one is filled from its start. -/
theorem Filled.copyIn_next (h : Filled f written) (raw : Nat → Nat → UInt8)
    (hfull : written.length = (f.m_current_write + 1) * BLOCKSIZE)
    (hfit : src.length ≤ BLOCKSIZE) :
    ∃ f', (f.nextWrite raw).copyIn 0 src = .ok f' ∧ Filled f' (written ++ src) ∧ Grows f f' ∧
      f'.m_current_write = f.m_current_write + 1 := by
  have hnext := h.addBlock raw hfull
  rw [h.nextWrite]
  have hoff : written.length = (f.addBlock raw).m_current_write * BLOCKSIZE + 0 :=
    hfull.trans (Nat.add_zero _).symm
  obtain ⟨f', hcopy, hfilled, hgrows, hcurrent⟩ := hnext.1.copyIn src hoff
    (by rw [Nat.zero_add]; exact hfit)
  exact ⟨f', hcopy, hfilled, hnext.2.trans hgrows, hcurrent⟩

theorem Filled.fwriteBlocks (h : Filled f written) (raw : Nat → Nat → UInt8) (src : Bytes)
    (hfull : written.length = (f.m_current_write + 1) * BLOCKSIZE) :
    ∃ f', fwriteBlocks raw f src = .ok f' ∧ Filled f' (written ++ src) ∧ Grows f f' := by
  generalize hlen : src.length = n
  induction n using Nat.strongRecOn generalizing f written src with
  | ind n ih =>
      rw [MemFile.fwriteBlocks]
      split
      · next hlong =>
        have htake : (src.take BLOCKSIZE).length = BLOCKSIZE :=
          List.length_take_of_le (Nat.le_of_lt hlong)
        obtain ⟨f₁, hcopy, hfilled, hgrows, hcurrent⟩ :=
          h.copyIn_next raw hfull (Nat.le_of_eq htake)
        have hfull₁ : (written ++ src.take BLOCKSIZE).length =
            (f₁.m_current_write + 1) * BLOCKSIZE := by
          rw [List.length_append, htake, hfull, hcurrent, Nat.succ_mul (f.m_current_write + 1)]
        have hshort : (src.drop BLOCKSIZE).length < n := by
          have hpos := blocksize_pos
          rw [List.length_drop]
          omega
        obtain ⟨f', hrest, hfilled', hgrows'⟩ := ih _ hshort hfilled _ hfull₁ rfl
        rw [List.append_assoc, List.take_append_drop] at hfilled'
        exact ⟨f', by rw [hcopy]; exact hrest, hfilled', hgrows.trans hgrows'⟩
      · next hshort =>
        obtain ⟨f', hcopy, hfilled, hgrows, -⟩ :=
          h.copyIn_next raw hfull (Nat.le_of_not_lt hshort)
        exact ⟨f', hcopy, hfilled, hgrows⟩

/-- The first step of a write: a block with room for a byte. -/
theorem Filled.room (h : Filled f written) (raw : Nat → Nat → UInt8)
    (hlen : written.length < 2147483648) :
    ∃ f₁, (if f.m_current_write_nr < (toInt f.m_write_ptr).tdiv BLOCKSIZE then f.addBlock raw
        else f) = f₁ ∧
      Filled f₁ written ∧ Grows f f₁ ∧
      written.length = f₁.m_current_write * BLOCKSIZE + written.length % BLOCKSIZE := by
  have hnr : (toInt f.m_write_ptr).tdiv BLOCKSIZE = ((written.length / BLOCKSIZE : Nat) : Int) := by
    rw [h.writePtr, toInt_of_mem (by omega) (by omega)]
    rfl
  have hlow := h.low
  have hhigh := h.high
  rw [hnr, h.writeNr]
  split
  · next hlt =>
    have hfull : written.length = (f.m_current_write + 1) * BLOCKSIZE := by
      unfold BLOCKSIZE at *
      omega
    have hnext := h.addBlock raw hfull
    refine ⟨_, rfl, hnext.1, hnext.2, ?_⟩
    show written.length = (f.m_current_write + 1) * BLOCKSIZE + written.length % BLOCKSIZE
    rw [hfull, Nat.mul_mod_left]
    exact (Nat.add_zero _).symm
  · next hge =>
    refine ⟨f, rfl, h, .refl f, ?_⟩
    unfold BLOCKSIZE at *
    omega

/-- A write puts its bytes behind those that were written before. -/
theorem Filled.Fwrite (h : Filled f written) (raw : Nat → Nat → UInt8) {ptr : Bytes} {size nmemb : Nat}
    (hptr : size * nmemb ≤ ptr.length) (hlen : written.length + size * nmemb < 2147483648) :
    ∃ f', f.Fwrite raw ptr size nmemb = .ok (size * nmemb, f') ∧
      Filled f' (written ++ ptr.take (size * nmemb)) ∧ Grows f f' := by
  have hsz : u64 (size * nmemb) = size * nmemb := by
    unfold u64
    omega
  have htake : (ptr.take (size * nmemb)).length = size * nmemb := List.length_take_of_le hptr
  obtain ⟨f₁, hroom, hfilled, hgrows, hoff⟩ := h.room raw (by omega)
  rw [MemFile.Fwrite, hsz, if_neg (Nat.not_lt.mpr hptr)]
  dsimp only
  rw [hroom, h.writePtr]
  have hmod : written.length % BLOCKSIZE < BLOCKSIZE := Nat.mod_lt _ blocksize_pos
  generalize ptr.take (size * nmemb) = src at htake ⊢
  split
  · next hfit =>
    obtain ⟨f', hcopy, hfilled', hgrows', -⟩ := hfilled.copyIn src hoff (by rw [htake]; exact hfit)
    exact ⟨f', by rw [hcopy], hfilled', hgrows.trans hgrows'⟩
  · next hlong =>
    generalize written.length % BLOCKSIZE = p at *
    have hfirst : (src.take (BLOCKSIZE - p)).length = BLOCKSIZE - p :=
      List.length_take_of_le (by omega)
    obtain ⟨f₂, hcopy, hfilled₂, hgrows₂, hcurrent⟩ :=
      hfilled.copyIn (src.take (BLOCKSIZE - p)) hoff (by rw [hfirst]; omega)
    have hfull : (written ++ src.take (BLOCKSIZE - p)).length =
        (f₂.m_current_write + 1) * BLOCKSIZE := by
      rw [List.length_append, hfirst, hoff, hcurrent, Nat.succ_mul]
      omega
    obtain ⟨f', hrest, hfilled', hgrows'⟩ :=
      hfilled₂.fwriteBlocks raw (src.drop (BLOCKSIZE - p)) hfull
    rw [List.append_assoc, List.take_append_drop] at hfilled'
    exact ⟨f', by rw [hcopy]; dsimp only; rw [hrest], hfilled', hgrows.trans (hgrows₂.trans hgrows')⟩

/-! ## The reader -/

/-- The file with its reader at another place. -/
def seek (f : MemFile) (current ptr : Nat) : MemFile :=
  { f with m_current_read := current, m_read_ptr := ptr }

theorem Filled.seek (h : Filled f written) (current ptr : Nat) :
    Filled (f.seek current ptr) written :=
  ⟨h.holds, h.writePtr, h.last, h.writeNr, h.low, h.high⟩

/-- The bytes of the block that is read, wherever the reader should be. -/
theorem Filled.copyOut_block (h : Filled f written) (off n : Nat)
    (hin : f.m_current_read < f.blocks.length) (hfit : off + n ≤ BLOCKSIZE)
    (hlen : f.m_current_read * BLOCKSIZE + off + n ≤ written.length) :
    f.copyOut off n = .ok ((written.drop (f.m_current_read * BLOCKSIZE + off)).take n,
      f.seek f.m_current_read (f.m_read_ptr + n)) := by
  have hblock := List.getElem?_eq_getElem hin
  generalize f.blocks[f.m_current_read] = block at hblock
  have hload := h.holds.load hblock hfit hlen
  rw [MemFile.copyOut, hblock]
  dsimp only
  rw [hload]
  rfl

theorem Filled.copyOut (h : Filled f written) {off n : Nat}
    (hin : f.m_current_read < f.blocks.length)
    (hoff : f.m_read_ptr = f.m_current_read * BLOCKSIZE + off) (hfit : off + n ≤ BLOCKSIZE)
    (hlen : f.m_read_ptr + n ≤ written.length) :
    f.copyOut off n = .ok ((written.drop f.m_read_ptr).take n,
      f.seek f.m_current_read (f.m_read_ptr + n)) := by
  have hcopy := h.copyOut_block off n hin hfit (by rw [← hoff]; exact hlen)
  rw [← hoff] at hcopy
  exact hcopy

/-- Behind a block that has been read to its end, the rest of the bytes is read.  The block that
is left is the right one when the last byte is not the last of its block. -/
theorem Filled.freadBlocks (h : Filled f written) {sz sz1 sz2 : Nat}
    (hend : f.m_read_ptr = (f.m_current_read + 1) * BLOCKSIZE)
    (hlen : f.m_read_ptr + sz2 ≤ written.length) (hsz : sz = sz1 + sz2) (ptr : Bytes) :
    ∃ current, freadBlocks sz f ptr sz1 sz2 =
        .ok ((ptr ++ (written.drop f.m_read_ptr).take sz2, sz),
          f.seek current (f.m_read_ptr + sz2)) ∧
      (sz2 % BLOCKSIZE ≠ 0 ∨ (sz2 = 0 ∧ f.HasNext) →
        current = (f.m_read_ptr + sz2) / BLOCKSIZE) := by
  induction sz2 using Nat.strongRecOn generalizing f ptr sz1 with
  | ind sz2 ih =>
      have hnext : 0 < sz2 → f.HasNext := by
        intro hpos
        apply h.holds.exists_block blocksize_pos
        rw [← hend]
        omega
      have hoff : f.nextRead.m_read_ptr = f.nextRead.m_current_read * BLOCKSIZE + 0 :=
        hend.trans (Nat.add_zero _).symm
      have hnextRead : Filled f.nextRead written := h.seek _ _
      rw [MemFile.freadBlocks]
      split
      · next hlong =>
        have hpos := blocksize_pos
        have hcopy := hnextRead.copyOut (n := BLOCKSIZE) (hnext (by omega)) hoff
          (by rw [Nat.zero_add]) (Nat.le_trans (Nat.add_le_add_left (Nat.le_of_lt hlong) _) hlen)
        have hend' : f.m_read_ptr + BLOCKSIZE = (f.m_current_read + 1 + 1) * BLOCKSIZE := by
          rw [hend, Nat.succ_mul (f.m_current_read + 1)]
        have hsum : f.m_read_ptr + BLOCKSIZE + (sz2 - BLOCKSIZE) = f.m_read_ptr + sz2 := by omega
        obtain ⟨current, hrest, hcurrent⟩ := ih (sz2 - BLOCKSIZE) (by omega)
          (h.seek (f.m_current_read + 1) (f.m_read_ptr + BLOCKSIZE)) hend'
          (by show f.m_read_ptr + BLOCKSIZE + (sz2 - BLOCKSIZE) ≤ _; rw [hsum]; exact hlen)
          (show sz = sz1 + BLOCKSIZE + (sz2 - BLOCKSIZE) by omega)
          (ptr ++ (written.drop f.m_read_ptr).take BLOCKSIZE)
        refine ⟨current, ?_, ?_⟩
        · rw [if_pos (hnext (by omega)), hcopy]
          have htake : (written.drop f.m_read_ptr).take BLOCKSIZE ++
              (written.drop (f.m_read_ptr + BLOCKSIZE)).take (sz2 - BLOCKSIZE) =
              (written.drop f.m_read_ptr).take sz2 := by
            rw [← List.drop_drop, ← List.take_add, Nat.add_sub_cancel' (Nat.le_of_lt hlong)]
          rw [← htake, ← hsum, ← List.append_assoc]
          exact hrest
        · intro hcond
          rw [← hsum]
          apply hcurrent
          cases hcond with
          | inl hmod =>
              rw [Nat.mod_eq_sub_mod (Nat.le_of_lt hlong)] at hmod
              exact .inl hmod
          | inr hzero => omega
      · next hshort =>
        by_cases hhas : f.HasNext
        · have hcopy := hnextRead.copyOut (n := sz2) hhas hoff
            (by rw [Nat.zero_add]; exact Nat.le_of_not_lt hshort) hlen
          refine ⟨f.m_current_read + 1, ?_, ?_⟩
          · rw [if_pos hhas, hcopy]
            rfl
          · intro hcond
            have hlt : sz2 < BLOCKSIZE := by
              apply Nat.lt_of_le_of_ne (Nat.le_of_not_lt hshort)
              intro heq
              cases hcond with
              | inl hmod => exact hmod (by rw [heq, Nat.mod_self])
              | inr hzero => exact absurd blocksize_pos (by omega)
            rw [hend, Nat.mul_comm, Nat.mul_add_div blocksize_pos, Nat.div_eq_of_lt hlt,
              Nat.add_zero]
        · have hzero : sz2 = 0 := Nat.eq_zero_of_not_pos fun hpos => hhas (hnext hpos)
          refine ⟨f.m_current_read, ?_, ?_⟩
          · rw [if_neg hhas, hsz, hzero, List.take_zero, List.append_nil]
            rfl
          · intro hcond
            cases hcond with
            | inl hmod => exact absurd (by rw [hzero, Nat.zero_mod]) hmod
            | inr h => exact absurd h.2 hhas

/-- The reader is in the block of the next byte. -/
structure KeptUp (f : MemFile) (written : Bytes) : Prop where
  readPtr : f.m_read_ptr ≤ written.length
  current : f.m_current_read = f.m_read_ptr / BLOCKSIZE
  inBlocks : f.m_current_read < f.blocks.length

/-- A read of `n` bytes leaves the reader in the block of the next byte. -/
def KeepsUp (f : MemFile) (n : Nat) : Prop :=
  n = 0 ∨ (f.m_read_ptr + n) % BLOCKSIZE ≠ 0 ∨
    (f.m_read_ptr % BLOCKSIZE + n = BLOCKSIZE ∧ f.HasNext)

instance (f : MemFile) (n : Nat) : Decidable (f.KeepsUp n) := instDecidableOr

theorem KeptUp.seek (h : KeptUp f written) (hfilled : Filled f written) {n : Nat}
    (hlen : f.m_read_ptr + n ≤ written.length) (hkeeps : f.KeepsUp n) :
    KeptUp (f.seek ((f.m_read_ptr + n) / BLOCKSIZE) (f.m_read_ptr + n)) written where
  readPtr := hlen
  current := rfl
  inBlocks := by
    have hin := h.inBlocks
    show (f.m_read_ptr + n) / BLOCKSIZE < f.blocks.length
    rcases hkeeps with hzero | hinside | hend
    · rwa [hzero, Nat.add_zero, ← h.current]
    · have hle := Nat.le_trans hlen (hfilled.holds.length_le blocksize_pos)
      rw [Nat.div_lt_iff_lt_mul blocksize_pos]
      apply Nat.lt_of_le_of_ne hle
      intro heq
      exact hinside (by rw [heq, Nat.mul_mod_left])
    · have hsum : f.m_read_ptr + n = (f.m_current_read + 1) * BLOCKSIZE := by
        have hdecomp := Nat.div_add_mod f.m_read_ptr BLOCKSIZE
        rw [← h.current] at hdecomp
        rw [Nat.succ_mul, Nat.mul_comm]
        omega
      rw [hsum, Nat.mul_div_cancel _ blocksize_pos]
      exact hend.2

/-- A reader that has kept up reads the next bytes, however many there are to read. -/
theorem Filled.readBytes (h : Filled f written) (hk : KeptUp f written) {n : Nat}
    (hlen : f.m_read_ptr + n ≤ written.length) :
    ∃ current, f.readBytes n = .ok (((written.drop f.m_read_ptr).take n, n),
        f.seek current (f.m_read_ptr + n)) ∧
      (f.KeepsUp n → current = (f.m_read_ptr + n) / BLOCKSIZE) := by
  have hdecomp : f.m_read_ptr = f.m_current_read * BLOCKSIZE + f.m_read_ptr % BLOCKSIZE := by
    rw [hk.current, Nat.div_add_mod']
  have hmod : f.m_read_ptr % BLOCKSIZE < BLOCKSIZE := Nat.mod_lt _ blocksize_pos
  have hunit : f.KeepsUp n ↔ n = 0 ∨ (f.m_read_ptr + n) % BLOCKSIZE ≠ 0 ∨
      (f.m_read_ptr % BLOCKSIZE + n = BLOCKSIZE ∧ f.HasNext) := Iff.rfl
  rw [hunit, MemFile.readBytes]
  generalize f.m_read_ptr % BLOCKSIZE = p at hdecomp hmod ⊢
  split
  · next hzero =>
    refine ⟨f.m_current_read, ?_, ?_⟩
    · rw [hzero, List.take_zero]
      rfl
    · intro _
      rw [hzero, Nat.add_zero, hk.current]
  split
  · next hinside =>
    refine ⟨f.m_current_read, ?_, ?_⟩
    · rw [h.copyOut hk.inBlocks hdecomp (Nat.le_of_lt hinside) hlen]
    · intro _
      rw [hdecomp, Nat.add_assoc, Nat.mul_comm, Nat.mul_add_div blocksize_pos,
        Nat.div_eq_of_lt hinside, Nat.add_zero]
  · next hpos hpast =>
    have hcopy := h.copyOut (n := BLOCKSIZE - p) hk.inBlocks hdecomp (by omega) (by omega)
    have hend : f.m_read_ptr + (BLOCKSIZE - p) = (f.m_current_read + 1) * BLOCKSIZE := by
      rw [Nat.succ_mul]
      omega
    have hsum : f.m_read_ptr + (BLOCKSIZE - p) + (n - (BLOCKSIZE - p)) = f.m_read_ptr + n := by
      omega
    obtain ⟨current, hrest, hcurrent⟩ :=
      (h.seek f.m_current_read (f.m_read_ptr + (BLOCKSIZE - p))).freadBlocks hend
        (by show f.m_read_ptr + (BLOCKSIZE - p) + (n - (BLOCKSIZE - p)) ≤ _; rw [hsum]; exact hlen)
        (show n = BLOCKSIZE - p + (n - (BLOCKSIZE - p)) by omega)
        ((written.drop f.m_read_ptr).take (BLOCKSIZE - p))
    refine ⟨current, ?_, ?_⟩
    · have htake : (written.drop f.m_read_ptr).take (BLOCKSIZE - p) ++
          (written.drop (f.m_read_ptr + (BLOCKSIZE - p))).take (n - (BLOCKSIZE - p)) =
          (written.drop f.m_read_ptr).take n := by
        rw [← List.drop_drop, ← List.take_add, Nat.add_sub_cancel' (by omega)]
      dsimp only
      rw [hcopy, ← htake, ← hsum]
      exact hrest
    · intro hkeeps
      rw [← hsum]
      apply hcurrent
      rcases hkeeps with hzero | hinside | hlast
      · exact absurd hzero hpos
      · left
        rwa [← hsum, hend, Nat.mul_comm, Nat.mul_add_mod] at hinside
      · right
        exact ⟨by omega, hlast.2⟩

theorem Filled.of_eof (h : Filled f written) (eof : Bool) :
    Filled { f with m_b_read_caused_eof := eof } written :=
  ⟨h.holds, h.writePtr, h.last, h.writeNr, h.low, h.high⟩

/-- How many bytes a read is to return. -/
def toRead (f : MemFile) (size nmemb : Nat) : Nat :=
  min (size * nmemb) (f.m_write_ptr - f.m_read_ptr)

theorem Filled.Fread (h : Filled f written) (hk : KeptUp f written)
    (hlen : written.length < 2147483648) {size nmemb : Nat}
    (hn : size * nmemb < 18446744073709551616) :
    ∃ f', f.Fread size nmemb = .ok (((written.drop f.m_read_ptr).take (f.toRead size nmemb),
        f.toRead size nmemb), f') ∧
      Filled f' written ∧ f'.m_read_ptr = f.m_read_ptr + f.toRead size nmemb ∧
      (f.KeepsUp (f.toRead size nmemb) → KeptUp f' written) := by
  have hread := hk.readPtr
  have hwrite := h.writePtr
  have havailable : u64Sub f.m_write_ptr f.m_read_ptr = f.m_write_ptr - f.m_read_ptr :=
    u64Sub_of_le (by omega) (by omega)
  have hsz : u64 (size * nmemb) = size * nmemb := Nat.mod_eq_of_lt hn
  have hfit : f.m_read_ptr + f.toRead size nmemb ≤ written.length := by
    unfold toRead
    omega
  -- the flag for the end of the file changes nothing else
  have hbody : ∃ eof, f.Fread size nmemb =
      { f with m_b_read_caused_eof := eof }.readBytes (f.toRead size nmemb) := by
    rw [MemFile.Fread, havailable, hsz]
    split
    · next hbeyond =>
      exact ⟨true, by rw [toRead, Nat.min_eq_right (Nat.le_of_lt hbeyond)]⟩
    · next hwithin =>
      exact ⟨f.m_b_read_caused_eof, by rw [toRead, Nat.min_eq_left (Nat.le_of_not_lt hwithin)]⟩
  cases hbody with
  | intro eof hbody =>
      have hk' : KeptUp { f with m_b_read_caused_eof := eof } written :=
        ⟨hk.readPtr, hk.current, hk.inBlocks⟩
      obtain ⟨current, hresult, hcurrent⟩ := (h.of_eof eof).readBytes hk' hfit
      refine ⟨_, hbody.trans hresult, (h.of_eof eof).seek _ _, rfl, fun hkeeps => ?_⟩
      rw [hcurrent hkeeps]
      exact hk'.seek (h.of_eof eof) hfit hkeeps

/-! ## Runs -/

inductive Call where
  | Fread (size nmemb : Nat)
  | Fwrite (ptr : Bytes) (size nmemb : Nat)

/-- A file with all that has been written to it and all that has been read from it. -/
structure History where
  file : MemFile
  written : Bytes
  returned : Bytes

def History.start (raw : Nat → Nat → UInt8) : History := ⟨new raw, [], []⟩

/-- Only the bytes that a call reports count as read or written. -/
def History.afterRead (s : History) : Except Fault ((Bytes × Nat) × MemFile) → Option History
  | .error _ => none
  | .ok ((ptr, count), file) =>
      some { s with file := file, returned := s.returned ++ ptr.take count }

def History.afterWrite (s : History) (ptr : Bytes) : Except Fault (Nat × MemFile) → Option History
  | .error _ => none
  | .ok (count, file) => some { s with file := file, written := s.written ++ ptr.take count }

def History.step (raw : Nat → Nat → UInt8) (s : History) : Call → Option History
  | .Fread size nmemb => s.afterRead (s.file.Fread size nmemb)
  | .Fwrite ptr size nmemb => s.afterWrite ptr (s.file.Fwrite raw ptr size nmemb)

/-- What the callers promise: there is room for what is read, there is what is written, and it
stays below 2 GiB. -/
def History.Fits (s : History) : Call → Prop
  | .Fread size nmemb => size * nmemb < 18446744073709551616
  | .Fwrite ptr size nmemb =>
      size * nmemb ≤ ptr.length ∧ s.written.length + size * nmemb < 2147483648

/-- The call leaves the reader in the block of the next byte. -/
def History.KeepsUp (s : History) : Call → Prop
  | .Fread size nmemb => s.file.KeepsUp (s.file.toRead size nmemb)
  | .Fwrite _ _ _ => True

instance (s : History) (a : Call) : Decidable (s.Fits a) :=
  match a with
  | .Fread _ _ => Nat.decLt _ _
  | .Fwrite _ _ _ => instDecidableAnd

instance (s : History) (a : Call) : Decidable (s.KeepsUp a) :=
  match a with
  | .Fread size nmemb => inferInstanceAs (Decidable (s.file.KeepsUp (s.file.toRead size nmemb)))
  | .Fwrite _ _ _ => .isTrue trivial

/-- What has been read is what was written first, and so will be what is read next. -/
structure History.IsFifo (s : History) : Prop where
  returned : s.returned <+: s.written
  next : ∀ size nmemb, size * nmemb < 18446744073709551616 →
    ∃ ptr file, s.file.Fread size nmemb =
        .ok ((ptr, min (size * nmemb) (s.written.length - s.returned.length)), file) ∧
      ptr.length = min (size * nmemb) (s.written.length - s.returned.length) ∧
      s.returned ++ ptr <+: s.written

/-- The files whose reader has kept up. -/
structure History.Sound (s : History) : Prop where
  filled : Filled s.file s.written
  keptUp : KeptUp s.file s.written
  returned : s.returned = s.written.take s.file.m_read_ptr
  short : s.written.length < 2147483648

theorem History.sound_start (raw : Nat → Nat → UInt8) : (History.start raw).Sound where
  filled := filled_new raw
  keptUp := ⟨Nat.le_refl _, (Nat.zero_div _).symm, Nat.zero_lt_one⟩
  returned := rfl
  short := by
    show 0 < 2147483648
    decide

theorem History.Sound.returned_length {s : History} (h : s.Sound) :
    s.returned.length = s.file.m_read_ptr := by
  rw [h.returned, List.length_take_of_le h.keptUp.readPtr]

/-- The next bytes behind what has been read. -/
theorem History.Sound.returned_append {s : History} (h : s.Sound) (n : Nat) :
    s.returned ++ (s.written.drop s.file.m_read_ptr).take n =
      s.written.take (s.file.m_read_ptr + n) := by
  rw [h.returned, ← List.take_add]

theorem History.Sound.toRead {s : History} (h : s.Sound) (size nmemb : Nat) :
    s.file.toRead size nmemb = min (size * nmemb) (s.written.length - s.returned.length) := by
  rw [MemFile.toRead, h.filled.writePtr, h.returned_length]

theorem History.Sound.length_next {s : History} (h : s.Sound) (size nmemb : Nat) :
    ((s.written.drop s.file.m_read_ptr).take (s.file.toRead size nmemb)).length =
      s.file.toRead size nmemb := by
  apply List.length_take_of_le
  rw [List.length_drop, MemFile.toRead, h.filled.writePtr]
  exact Nat.min_le_right _ _

theorem History.Sound.isFifo {s : History} (h : s.Sound) : s.IsFifo where
  returned := by
    rw [h.returned]
    exact List.take_prefix _ _
  next size nmemb hn := by
    obtain ⟨file, hread, -⟩ := h.filled.Fread h.keptUp h.short hn
    rw [← h.toRead]
    refine ⟨_, file, hread, h.length_next size nmemb, ?_⟩
    rw [h.returned_append]
    exact List.take_prefix _ _

theorem History.Sound.step {s : History} {a : Call} (h : s.Sound)
    (raw : Nat → Nat → UInt8) (hfits : s.Fits a)
    (hkeeps : s.KeepsUp a) : ∃ s', s.step raw a = some s' ∧ s'.Sound := by
  cases a with
  | Fread size nmemb =>
      obtain ⟨file, hread, hfilled, hptr, hkept⟩ := h.filled.Fread h.keptUp h.short hfits
      refine ⟨_, by rw [History.step, hread, History.afterRead], ?_⟩
      exact {
        filled := hfilled
        keptUp := hkept hkeeps
        returned := by
          dsimp only
          rw [List.take_of_length_le (Nat.le_of_eq (h.length_next size nmemb)),
            h.returned_append, hptr]
        short := h.short }
  | Fwrite ptr size nmemb =>
      obtain ⟨file, hwrite, hfilled, hgrows⟩ := h.filled.Fwrite raw hfits.1 hfits.2
      have hlong : s.written.length ≤ (s.written ++ ptr.take (size * nmemb)).length := by
        rw [List.length_append]
        exact Nat.le_add_right _ _
      refine ⟨_, by rw [History.step, hwrite, History.afterWrite], ?_⟩
      exact {
        filled := hfilled
        keptUp := {
          readPtr := by
            rw [hgrows.readPtr]
            exact Nat.le_trans h.keptUp.readPtr hlong
          current := by rw [hgrows.readPtr, hgrows.currentRead, h.keptUp.current]
          inBlocks := by
            rw [hgrows.currentRead]
            exact Nat.lt_of_lt_of_le h.keptUp.inBlocks hgrows.blocks }
        returned := by
          dsimp only
          rw [hgrows.readPtr, List.take_append_of_le_length h.keptUp.readPtr, h.returned]
        short := by
          show (s.written ++ ptr.take (size * nmemb)).length < 2147483648
          rw [List.length_append, List.length_take_of_le hfits.1]
          exact hfits.2 }

/-- As long as the reader keeps up, the file is a queue of bytes. -/
theorem isFifo_of_keepsUp {calls : List Call}
    (hfits : Allowed (History.step raw) History.Fits (.start raw) calls)
    (hkeeps : Allowed (History.step raw) History.KeepsUp (.start raw) calls) :
    ∃ s, runSteps (History.step raw) (.start raw) calls = some s ∧ s.IsFifo := by
  obtain ⟨s, hrun, hsound⟩ := runSteps_total
    (fun s a (h : s.Sound) hguard => h.step raw hguard.1 hguard.2)
    (History.sound_start raw) (hfits.and hkeeps)
  exact ⟨s, hrun, hsound.isFifo⟩

theorem isFifo_of_keepsUp_three :
    ∃ s, runSteps (History.step fun _ _ => 0) (.start fun _ _ => 0)
      [.Fwrite [1, 2, 3] 1 3, .Fread 2 1, .Fread 1 5] = some s ∧ s.IsFifo :=
  isFifo_of_keepsUp (by decide +kernel) (by decide +kernel)

/-! ## A reader that falls behind -/

/-- A block that is filled from its start to its end is the only one. -/
theorem Fwrite_new (raw : Nat → Nat → UInt8) (hsrc : src.length = BLOCKSIZE) :
    ∃ f', (new raw).Fwrite raw src 1 BLOCKSIZE = .ok (BLOCKSIZE, f') ∧ Filled f' src ∧
      f'.m_read_ptr = 0 ∧ f'.m_current_read = 0 ∧ f'.blocks.length = 1 := by
  have hoff : ([] : Bytes).length = (new raw).m_current_write * BLOCKSIZE + 0 := by
    show 0 = 0 * BLOCKSIZE + 0
    rw [Nat.zero_mul]
  obtain ⟨f', hcopy, hfilled, hgrows, hcurrent⟩ :=
    (filled_new raw).copyIn src hoff (by rw [Nat.zero_add, hsrc])
  refine ⟨f', ?_, hfilled, hgrows.readPtr, hgrows.currentRead, ?_⟩
  · have hsz : u64 (1 * BLOCKSIZE) = BLOCKSIZE := rfl
    have hzero : ¬ (0 : Int) < (toInt (0 : Nat)).tdiv BLOCKSIZE := by decide
    have hnr : ¬ (new raw).m_current_write_nr <
        (toInt (new raw).m_write_ptr).tdiv BLOCKSIZE := hzero
    rw [MemFile.Fwrite, hsz, if_neg (by rw [hsrc]; exact Nat.lt_irrefl _), if_neg hnr]
    dsimp only
    rw [show (new raw).m_write_ptr % BLOCKSIZE = 0 from Nat.zero_mod _, Nat.zero_add,
      if_pos (Nat.le_refl _), List.take_of_length_le (Nat.le_of_eq hsrc), hcopy]
  · rw [← hfilled.last, hcurrent]
    rfl

/-- The reader stays in a full block that has none behind it. -/
theorem Filled.readBytes_full (h : Filled f src) (hsrc : src.length = BLOCKSIZE)
    (hptr : f.m_read_ptr = 0) (hcurrent : f.m_current_read = 0) (hlast : f.blocks.length = 1) :
    f.readBytes BLOCKSIZE = .ok ((src, BLOCKSIZE), f.seek 0 BLOCKSIZE) := by
  have hin : f.m_current_read < f.blocks.length := by
    rw [hcurrent, hlast]
    exact Nat.zero_lt_one
  have hoff : f.m_read_ptr = f.m_current_read * BLOCKSIZE + 0 := by
    rw [hptr, hcurrent, Nat.zero_mul]
  have hcopy := h.copyOut (n := BLOCKSIZE) hin hoff (Nat.le_of_eq (Nat.zero_add _))
    (by rw [hptr, Nat.zero_add, hsrc])
  rw [hptr, hcurrent, List.drop_zero, List.take_of_length_le (Nat.le_of_eq hsrc),
    Nat.zero_add] at hcopy
  rw [MemFile.readBytes, hptr, Nat.zero_mod, if_neg (Nat.ne_of_gt blocksize_pos), Nat.zero_add,
    if_neg (Nat.lt_irrefl _)]
  dsimp only
  rw [Nat.sub_zero, hcopy]
  dsimp only
  rw [Nat.sub_self, MemFile.freadBlocks, dif_neg (Nat.not_lt_zero _), if_neg]
  show ¬ 0 + 1 < f.blocks.length
  rw [hlast]
  exact Nat.lt_irrefl _

/-- A read that stays within what has been written. -/
theorem Filled.Fread_within (h : Filled f written) (hlen : written.length < 2147483648)
    {size nmemb : Nat} (hn : f.m_read_ptr + size * nmemb ≤ written.length) :
    f.Fread size nmemb = f.readBytes (size * nmemb) := by
  have hwrite := h.writePtr
  have havailable : u64Sub f.m_write_ptr f.m_read_ptr = f.m_write_ptr - f.m_read_ptr :=
    u64Sub_of_le (by omega) (by omega)
  have hsz : u64 (size * nmemb) = size * nmemb := Nat.mod_eq_of_lt (by omega)
  rw [MemFile.Fread, havailable, hsz, if_neg (by omega)]

/-- The reader is at the end of the one block that is full. -/
structure Behind (f : MemFile) (src : Bytes) : Prop where
  filled : Filled f src
  full : src.length = BLOCKSIZE
  readPtr : f.m_read_ptr = BLOCKSIZE
  current : f.m_current_read = 0
  inBlocks : 0 < f.blocks.length

theorem steps_to_behind (raw : Nat → Nat → UInt8) (hsrc : src.length = BLOCKSIZE) :
    ∃ f₁ f₂, (History.start raw).step raw (.Fwrite src 1 BLOCKSIZE) = some ⟨f₁, src, []⟩ ∧
      History.step raw ⟨f₁, src, []⟩ (.Fread 1 BLOCKSIZE) = some ⟨f₂, src, src⟩ ∧
      Behind f₂ src := by
  obtain ⟨f₁, hwrite, hfilled, hptr, hcurrent, hlast⟩ := Fwrite_new raw hsrc
  have hshort : src.length < 2147483648 := by
    rw [hsrc]
    decide
  refine ⟨f₁, f₁.seek 0 BLOCKSIZE, ?_, ?_, ?_⟩
  · rw [History.step, History.start, hwrite, History.afterWrite, List.nil_append,
      List.take_of_length_le (Nat.le_of_eq hsrc)]
  · rw [History.step, hfilled.Fread_within hshort (by rw [hptr, Nat.zero_add, Nat.one_mul, hsrc]),
      Nat.one_mul, hfilled.readBytes_full hsrc hptr hcurrent hlast, History.afterRead,
      List.nil_append, List.take_of_length_le (Nat.le_of_eq hsrc)]
  · have hblocks : 0 < f₁.blocks.length := by
      rw [hlast]
      exact Nat.zero_lt_one
    exact ⟨hfilled.seek 0 BLOCKSIZE, hsrc, rfl, rfl, hblocks⟩

theorem Behind.steps (h : Behind f src) (raw : Nat → Nat → UInt8) (y : UInt8) :
    ∃ f₃ f₄, History.step raw ⟨f, src, src⟩ (.Fwrite [y] 1 1) = some ⟨f₃, src ++ [y], src⟩ ∧
      History.step raw ⟨f₃, src ++ [y], src⟩ (.Fread 1 1) =
        some ⟨f₄, src ++ [y], src ++ src.take 1⟩ := by
  have hlen : (src ++ [y]).length = BLOCKSIZE + 1 := by
    rw [List.length_append, h.full]
    rfl
  have hshort : (src ++ [y]).length < 2147483648 := by
    rw [hlen]
    decide
  obtain ⟨f₃, hwrite, hfilled, hgrows⟩ := h.filled.Fwrite raw
    (show 1 * 1 ≤ [y].length from Nat.le_refl 1) (by rw [h.full]; decide)
  have hfilled₃ : Filled f₃ (src ++ [y]) := hfilled
  have hptr : f₃.m_read_ptr = BLOCKSIZE := hgrows.readPtr.trans h.readPtr
  have hcurrent : f₃.m_current_read = 0 := hgrows.currentRead.trans h.current
  -- the first byte of the block is read again
  have hcopy := hfilled₃.copyOut_block 0 1
    (by rw [hcurrent]; exact Nat.lt_of_lt_of_le h.inBlocks hgrows.blocks) blocksize_pos
    (by rw [hcurrent, Nat.zero_mul, hlen]; omega)
  rw [hcurrent, Nat.zero_mul, Nat.zero_add, List.drop_zero,
    List.take_append_of_le_length (by rw [h.full]; exact blocksize_pos)] at hcopy
  refine ⟨f₃, f₃.seek 0 (f₃.m_read_ptr + 1), ?_, ?_⟩
  · rw [History.step, hwrite, History.afterWrite]
    rfl
  · have hread : f₃.readBytes 1 = .ok ((src.take 1, 1), f₃.seek 0 (f₃.m_read_ptr + 1)) := by
      rw [MemFile.readBytes, hptr, Nat.mod_self, if_neg Nat.one_ne_zero, if_pos (by decide),
        hcopy, hptr]
    rw [History.step, hfilled₃.Fread_within hshort (by rw [hptr, hlen]), Nat.one_mul, hread,
      History.afterRead, List.take_of_length_le (List.length_take_le _ _)]

/-- A block that is written and read to its end, and then one byte. -/
def blockAndByte (src : Bytes) (y : UInt8) : List Call :=
  [.Fwrite src 1 BLOCKSIZE, .Fread 1 BLOCKSIZE, .Fwrite [y] 1 1, .Fread 1 1]

/-- Instead of the byte behind the block, the first byte of the block is read again. -/
theorem run_blockAndByte (raw : Nat → Nat → UInt8) (hsrc : src.length = BLOCKSIZE) (y : UInt8) :
    Allowed (History.step raw) History.Fits (.start raw) (blockAndByte src y) ∧
      ∃ file, runSteps (History.step raw) (.start raw) (blockAndByte src y) =
        some ⟨file, src ++ [y], src ++ src.take 1⟩ := by
  obtain ⟨f₁, f₂, hfirst, hsecond, hbehind⟩ := steps_to_behind raw hsrc
  obtain ⟨f₃, f₄, hthird, hfourth⟩ := hbehind.steps raw y
  have hblock : (History.start raw).Fits (.Fwrite src 1 BLOCKSIZE) := by
    constructor
    · rw [Nat.one_mul, hsrc]
    · show 0 + 1 * BLOCKSIZE < 2147483648
      decide
  have hbyte : History.Fits ⟨f₂, src, src⟩ (.Fwrite [y] 1 1) := by
    constructor
    · exact Nat.le_refl 1
    · show src.length + 1 * 1 < 2147483648
      rw [hsrc]
      decide
  have hread : ∀ s : History, s.Fits (.Fread 1 BLOCKSIZE) ∧ s.Fits (.Fread 1 1) := by
    intro s
    constructor
    · show 1 * BLOCKSIZE < 18446744073709551616
      decide
    · show 1 * 1 < 18446744073709551616
      decide
  constructor
  · rw [blockAndByte, allowed_cons hfirst, allowed_cons hsecond, allowed_cons hthird,
      allowed_cons hfourth]
    exact ⟨hblock, (hread _).1, hbyte, (hread _).2, trivial⟩
  · exact ⟨f₄, by
      rw [blockAndByte, runSteps_cons hfirst, runSteps_cons hsecond, runSteps_cons hthird,
        runSteps_cons hfourth, runSteps]⟩

theorem reads_block_again : ¬ ∀ raw calls,
    Allowed (History.step raw) History.Fits (.start raw) calls →
      ∃ s, runSteps (History.step raw) (.start raw) calls = some s ∧ s.IsFifo := by
  intro h
  have hblock : ∃ src : Bytes, src.length = BLOCKSIZE ∧ src.take 1 = [0] :=
    ⟨List.replicate BLOCKSIZE 0, List.length_replicate, by rw [List.take_replicate]; rfl⟩
  obtain ⟨src, hsrc, hfirst⟩ := hblock
  obtain ⟨hfits, file, hrun⟩ := run_blockAndByte (fun _ _ => 0) hsrc 1
  obtain ⟨s, hs, hfifo⟩ := h _ _ hfits
  rw [hrun] at hs
  cases hs
  have hprefix := hfifo.returned
  rw [List.prefix_append_right_inj, hfirst] at hprefix
  exact absurd hprefix (by decide)

end MemFile

end CommonCc
