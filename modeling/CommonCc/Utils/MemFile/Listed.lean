import CommonCc.Utils.MemFile.Chain
import CommonCc.Utils.MemFile.Fifo

/-!
# A `MemFile` that is never emptied

Without `ResetWrite` the blocks are made and linked in the order of their addresses, and the list of
blocks stands for the pointers.
-/

namespace CommonCc

open Memory

namespace LinkedFile

variable {raw : Nat → Nat → UInt8} {f : LinkedFile} {g g' : MemFile} {src : Bytes}

/-- The block at position `k` of the list is at the address `k`. -/
structure ListedAs (f : LinkedFile) (g : MemFile) : Prop where
  length : g.blocks.length = f.fresh
  block : ∀ a, a < f.fresh → g.blocks[a]? = some (f.data a)
  next : ∀ a, a < f.fresh → f.next a = if a + 1 < f.fresh then some (a + 1) else none
  currentRead : f.m_current_read = some g.m_current_read
  readMade : g.m_current_read < f.fresh
  currentWrite : f.m_current_write = g.m_current_write
  last : g.m_current_write + 1 = f.fresh
  writeNr : f.m_current_write_nr = g.m_current_write_nr
  readPtr : f.m_read_ptr = g.m_read_ptr
  writePtr : f.m_write_ptr = g.m_write_ptr
  eof : f.m_b_read_caused_eof = g.m_b_read_caused_eof

theorem listedAs_new (raw : Nat → Nat → UInt8) : ListedAs (new raw) (MemFile.new raw) where
  length := rfl
  block a ha := by
    obtain rfl : a = 0 := Nat.lt_one_iff.mp ha
    rfl
  next a ha := by
    obtain rfl : a = 0 := Nat.lt_one_iff.mp ha
    rfl
  currentRead := rfl
  readMade := Nat.one_pos
  currentWrite := rfl
  last := rfl
  writeNr := rfl
  readPtr := rfl
  writePtr := rfl
  eof := rfl

/-! ## Reading -/

theorem ListedAs.seek (h : ListedAs f g) {k : Nat} (hk : k < f.fresh) (ptr : Nat) :
    ListedAs (f.seek (some k) ptr) (g.seek k ptr) :=
  { h with
    currentRead := rfl
    readMade := hk
    readPtr := rfl }

theorem ListedAs.copyOut (h : ListedAs f g) {off n : Nat} {bytes : Bytes}
    (hptr : g.m_read_ptr + n < 18446744073709551616)
    (hcopy : g.copyOut off n = .ok (bytes, g')) :
    ∃ f', f.copyOut off n = .ok (bytes, f') ∧ ListedAs f' g' ∧
      g'.m_read_ptr = g.m_read_ptr + n := by
  rw [MemFile.copyOut, h.block _ h.readMade] at hcopy
  dsimp only at hcopy
  split at hcopy
  · cases hcopy
  · next hload =>
    cases hcopy
    have hread := load_iff.mp hload
    have hmod : u64 (f.m_read_ptr + n) = g.m_read_ptr + n := by
      rw [h.readPtr]
      exact Nat.mod_eq_of_lt hptr
    refine ⟨_, copyOut_iff.mpr ⟨_, h.currentRead, hread.1, hread.2.symm, rfl⟩, ?_, rfl⟩
    rw [hmod, h.currentRead]
    exact h.seek h.readMade _

theorem ListedAs.nextRead (h : ListedAs f g) :
    f.nextRead = if g.HasNext then some (g.m_current_read + 1) else none := by
  rw [LinkedFile.nextRead, h.currentRead, Option.bind_some, h.next _ h.readMade, ← h.length]
  rfl

theorem ListedAs.goNext (h : ListedAs f g) (hnext : g.HasNext) :
    ListedAs (f.seek (some (g.m_current_read + 1)) f.m_read_ptr) g.nextRead :=
  { h with
    currentRead := rfl
    readMade := by
      show g.m_current_read + 1 < f.fresh
      rw [← h.length]
      exact hnext }

theorem ListedAs.freadBlocks (h : ListedAs f g) {sz sz1 sz2 : Nat} {ptr : Bytes} {r : Bytes × Nat}
    (hptr : g.m_read_ptr + sz2 < 18446744073709551616)
    (hread : MemFile.freadBlocks sz g ptr sz1 sz2 = .ok (r, g')) :
    ∃ f', freadBlocks sz f ptr sz1 sz2 = .ok (r, f') ∧ ListedAs f' g' ∧
      g'.m_read_ptr ≤ g.m_read_ptr + sz2 := by
  induction sz2 using Nat.strongRecOn generalizing f g ptr sz1 with
  | ind sz2 ih =>
      have hpos := blocksize_pos
      rw [MemFile.freadBlocks] at hread
      by_cases hnext : g.HasNext
      · have hgo := h.goNext hnext
        have hsome : f.nextRead = some (g.m_current_read + 1) := h.nextRead.trans (if_pos hnext)
        rw [if_pos hnext, if_pos hnext] at hread
        split at hread
        · next hlong =>
          split at hread
          · cases hread
          · next bytes g₁ hcopy =>
            rcases hgo.copyOut (by show g.m_read_ptr + BLOCKSIZE < _; omega) hcopy with
              ⟨f₁, hcopy₁, h₁, hptr₁⟩
            have hmoved : g₁.m_read_ptr = g.m_read_ptr + BLOCKSIZE := hptr₁
            rcases ih (sz2 - BLOCKSIZE) (by omega) h₁ (by omega) hread with ⟨f₂, hrest, h₂, hle⟩
            refine ⟨f₂, ?_, h₂, by omega⟩
            rw [freadBlocks_block hsome hlong hcopy₁, hrest]
        · next hshort =>
          split at hread
          · cases hread
          · next bytes g₁ hcopy =>
            cases hread
            rcases hgo.copyOut (by show g.m_read_ptr + sz2 < _; omega) hcopy with
              ⟨f₁, hcopy₁, h₁, hptr₁⟩
            exact ⟨f₁, freadBlocks_last hsome hshort hcopy₁, h₁, Nat.le_of_eq hptr₁⟩
      · rw [if_neg hnext, if_neg hnext, dite_eq_ite, ite_self] at hread
        cases hread
        exact ⟨f, freadBlocks_end (h.nextRead.trans (if_neg hnext)), h, Nat.le_add_right _ _⟩

theorem ListedAs.readBytes (h : ListedAs f g) {sz : Nat} {r : Bytes × Nat}
    (hptr : g.m_read_ptr + sz < 18446744073709551616) (hread : g.readBytes sz = .ok (r, g')) :
    ∃ f', f.readBytes sz = .ok (r, f') ∧ ListedAs f' g' ∧ g'.m_read_ptr ≤ g.m_read_ptr + sz := by
  have hle := Nat.mod_le g.m_read_ptr BLOCKSIZE
  rw [MemFile.readBytes] at hread
  rw [LinkedFile.readBytes, h.readPtr]
  dsimp only at hread ⊢
  have hsum : u64 (g.m_read_ptr % BLOCKSIZE + sz) = g.m_read_ptr % BLOCKSIZE + sz :=
    Nat.mod_eq_of_lt (by omega)
  rw [hsum]
  by_cases hzero : sz = 0
  · rw [if_pos hzero] at hread ⊢
    cases hread
    exact ⟨f, rfl, h, Nat.le_add_right _ _⟩
  rw [if_neg hzero] at hread ⊢
  by_cases hinside : g.m_read_ptr % BLOCKSIZE + sz < BLOCKSIZE
  · rw [if_pos hinside] at hread ⊢
    split at hread
    · cases hread
    · next bytes g₁ hcopy =>
      cases hread
      rcases h.copyOut hptr hcopy with ⟨f₁, hcopy₁, h₁, hptr₁⟩
      refine ⟨f₁, ?_, h₁, Nat.le_of_eq hptr₁⟩
      rw [hcopy₁]
  · rw [if_neg hinside] at hread ⊢
    split at hread
    · cases hread
    · next bytes g₁ hcopy =>
      rcases h.copyOut (by omega) hcopy with ⟨f₁, hcopy₁, h₁, hptr₁⟩
      rcases h₁.freadBlocks (by omega) hread with ⟨f₂, hrest, h₂, hle₂⟩
      refine ⟨f₂, ?_, h₂, by omega⟩
      rw [hcopy₁]
      exact hrest

theorem ListedAs.Fread (h : ListedAs f g) {size nmemb : Nat} {r : Bytes × Nat}
    (hle : g.m_read_ptr ≤ g.m_write_ptr) (hbound : g.m_write_ptr < 18446744073709551616)
    (hread : g.Fread size nmemb = .ok (r, g')) :
    ∃ f', f.Fread size nmemb = .ok (r, f') ∧ ListedAs f' g' ∧ g'.m_read_ptr ≤ g.m_write_ptr := by
  have hsub : u64Sub g.m_write_ptr g.m_read_ptr = g.m_write_ptr - g.m_read_ptr :=
    u64Sub_of_le hle hbound
  rw [MemFile.Fread, hsub] at hread
  have hsub' : u64Sub f.m_write_ptr f.m_read_ptr = g.m_write_ptr - g.m_read_ptr := by
    rw [h.writePtr, h.readPtr, hsub]
  rw [LinkedFile.Fread, hsub']
  split at hread
  · next hless =>
    have heof : ListedAs { f with m_b_read_caused_eof := true }
        { g with m_b_read_caused_eof := true } := { h with eof := rfl }
    rcases heof.readBytes (by show g.m_read_ptr + _ < _; omega) hread with ⟨f', hread', h', hle'⟩
    have hle' : g'.m_read_ptr ≤ g.m_read_ptr + (g.m_write_ptr - g.m_read_ptr) := hle'
    refine ⟨f', ?_, h', by omega⟩
    rw [if_pos hless]
    exact hread'
  · next henough =>
    rcases h.readBytes (by omega) hread with ⟨f', hread', h', hle'⟩
    refine ⟨f', ?_, h', by omega⟩
    rw [if_neg henough]
    exact hread'

/-! ## Writing -/

theorem ListedAs.copyIn (h : ListedAs f g) {off : Nat}
    (hptr : g.m_write_ptr + src.length < 18446744073709551616)
    (hcopy : g.copyIn off src = .ok g') : ∃ f', f.copyIn off src = .ok f' ∧ ListedAs f' g' ∧
      g'.m_write_ptr = g.m_write_ptr + src.length ∧ g'.m_read_ptr = g.m_read_ptr := by
  have hlt : g.m_current_write < f.fresh := by
    rw [← h.last]
    exact Nat.lt_succ_self _
  rw [MemFile.copyIn, h.block _ hlt] at hcopy
  dsimp only at hcopy
  split at hcopy
  · cases hcopy
  · next block hstore =>
    cases hcopy
    have hfit : off + src.length ≤ (f.data g.m_current_write).size := by
      apply Classical.byContradiction
      intro hlong
      rw [store, if_neg hlong] at hstore
      cases hstore
    rw [store_eq_some _ hfit] at hstore
    cases hstore
    refine ⟨f.fill off src, copyIn_iff.mpr ⟨by rw [h.currentWrite]; exact hfit, rfl⟩, ?_, rfl, rfl⟩
    exact { h with
      length := by
        rw [List.length_set]
        exact h.length
      block := by
        intro a ha
        by_cases hcur : a = g.m_current_write
        · rw [hcur, List.getElem?_set_self (by rw [h.length]; exact hlt), ← h.currentWrite,
            fill_data_self]
        · have hne : a ≠ f.m_current_write := by rwa [h.currentWrite]
          rw [List.getElem?_set_ne (Ne.symm hcur), fill_data_of_ne hne]
          exact h.block a ha
      next := by
        rw [fill_next]
        exact h.next
      writePtr := by
        show u64 (f.m_write_ptr + src.length) = g.m_write_ptr + src.length
        rw [h.writePtr]
        exact Nat.mod_eq_of_lt hptr }

theorem ListedAs.addBlock (h : ListedAs f g) (raw : Nat → Nat → UInt8) :
    ListedAs (f.addBlock raw) (g.addBlock raw) := by
  have hcur : f.m_current_write < f.fresh := by
    rw [h.currentWrite, ← h.last]
    exact Nat.lt_succ_self _
  have hsucc : f.m_current_write + 1 = f.fresh := by rw [h.currentWrite, h.last]
  have hblocks : (g.addBlock raw).blocks = g.blocks ++ [MemFile.newBlock raw f.fresh] := by
    rw [MemFile.addBlock, h.last, ← h.length, List.take_length]
  have hnew := addBlock_heap_fresh raw (Nat.ne_of_gt hcur)
  exact {
    length := by
      rw [hblocks, List.length_append, List.length_singleton, h.length]
      rfl
    block := by
      intro a ha
      rw [hblocks]
      cases Nat.lt_or_eq_of_le (Nat.le_of_lt_succ ha) with
      | inl hold =>
          rw [List.getElem?_append_left (by rw [h.length]; exact hold), h.block a hold]
          by_cases ha : a = f.m_current_write
          · rw [ha, addBlock_data_current (Nat.ne_of_lt hcur)]
          · rw [data, data, addBlock_heap_of_ne ha (Nat.ne_of_lt hold)]
      | inr hlast =>
          rw [hlast, List.getElem?_append_right (by rw [h.length]), h.length, Nat.sub_self, data,
            hnew]
          rfl
    next := by
      intro a ha
      show _ = if a + 1 < f.fresh + 1 then some (a + 1) else none
      cases Nat.lt_or_eq_of_le (Nat.le_of_lt_succ ha) with
      | inl hold =>
          rw [if_pos (Nat.succ_lt_succ hold)]
          by_cases hlast : a = f.m_current_write
          · rw [hlast, addBlock_next_current, hsucc]
          · rw [LinkedFile.next, addBlock_heap_of_ne hlast (Nat.ne_of_lt hold), ← LinkedFile.next,
              h.next a hold, if_pos (by omega)]
      | inr hlast =>
          rw [hlast, if_neg (Nat.lt_irrefl _), LinkedFile.next, hnew]
          rfl
    currentRead := h.currentRead
    readMade := Nat.lt_succ_of_lt h.readMade
    currentWrite := by
      show f.fresh = g.m_current_write + 1
      rw [h.last]
    last := by
      show g.m_current_write + 1 + 1 = f.fresh + 1
      rw [h.last]
    writeNr := by
      show f.m_current_write_nr + 1 = g.m_current_write_nr + 1
      rw [h.writeNr]
    readPtr := h.readPtr
    writePtr := h.writePtr
    eof := h.eof }

theorem ListedAs.nextWrite (h : ListedAs f g) (raw : Nat → Nat → UInt8) :
    ListedAs (f.nextWrite raw) (g.nextWrite raw) := by
  have hlast : f.next f.m_current_write = none := by
    rw [h.currentWrite, h.next _ (by rw [← h.last]; exact Nat.lt_succ_self _), h.last,
      if_neg (Nat.lt_irrefl _)]
  have hback : ¬ g.m_current_write + 1 < g.blocks.length := by
    rw [h.last, h.length]
    exact Nat.lt_irrefl _
  rw [LinkedFile.nextWrite, hlast, MemFile.nextWrite, if_neg hback]
  exact h.addBlock raw

theorem ListedAs.fwriteBlocks (h : ListedAs f g) (raw : Nat → Nat → UInt8)
    (hptr : g.m_write_ptr + src.length < 18446744073709551616)
    (hwrite : MemFile.fwriteBlocks raw g src = .ok g') :
    ∃ f', fwriteBlocks raw f src = .ok f' ∧ ListedAs f' g' ∧
      g'.m_write_ptr = g.m_write_ptr + src.length ∧ g'.m_read_ptr = g.m_read_ptr := by
  have hkeeps : ∀ g : MemFile, (g.nextWrite raw).m_write_ptr = g.m_write_ptr ∧
      (g.nextWrite raw).m_read_ptr = g.m_read_ptr := by
    intro g
    unfold MemFile.nextWrite
    split <;> exact ⟨rfl, rfl⟩
  generalize hn : src.length = n at hptr ⊢
  induction n using Nat.strongRecOn generalizing f g src with
  | ind n ih =>
      rcases hkeeps g with ⟨hw, hr⟩
      have hpos := blocksize_pos
      rw [MemFile.fwriteBlocks] at hwrite
      rw [LinkedFile.fwriteBlocks]
      split at hwrite
      · next hlong =>
        have htake : (src.take BLOCKSIZE).length = BLOCKSIZE :=
          List.length_take_of_le (Nat.le_of_lt hlong)
        have hdrop : (src.drop BLOCKSIZE).length = src.length - BLOCKSIZE := List.length_drop
        rw [dif_pos hlong]
        split at hwrite
        · cases hwrite
        · next g₁ hcopy =>
          rcases (h.nextWrite raw).copyIn (by omega) hcopy with ⟨f₁, hcopy₁, h₁, hw₁, hr₁⟩
          rcases ih _ (by omega) h₁ hwrite rfl (by omega) with ⟨f₂, hrest, h₂, hw₂, hr₂⟩
          refine ⟨f₂, ?_, h₂, by omega, by omega⟩
          rw [hcopy₁]
          exact hrest
      · next hshort =>
        rcases (h.nextWrite raw).copyIn (by omega) hwrite with ⟨f₁, hcopy₁, h₁, hw₁, hr₁⟩
        refine ⟨f₁, ?_, h₁, by omega, by omega⟩
        rw [dif_neg hshort]
        exact hcopy₁

theorem ListedAs.room (h : ListedAs f g) (raw : Nat → Nat → UInt8) :
    ∃ g₁, (if g.m_current_write_nr < (toInt g.m_write_ptr).tdiv BLOCKSIZE then g.addBlock raw
        else g) = g₁ ∧
      ListedAs (if f.m_current_write_nr < f.writeNr then f.addBlock raw else f) g₁ ∧
      g₁.m_write_ptr = g.m_write_ptr ∧ g₁.m_read_ptr = g.m_read_ptr := by
  rw [LinkedFile.writeNr, h.writeNr, h.writePtr]
  by_cases hfull : g.m_current_write_nr < (toInt g.m_write_ptr).tdiv BLOCKSIZE
  · rw [if_pos hfull, if_pos hfull]
    exact ⟨_, rfl, h.addBlock raw, rfl, rfl⟩
  · rw [if_neg hfull, if_neg hfull]
    exact ⟨_, rfl, h, rfl, rfl⟩

theorem ListedAs.Fwrite (h : ListedAs f g) {ptr : Bytes} {size nmemb n : Nat}
    (hptr : g.m_write_ptr + u64 (size * nmemb) < 18446744073709551616)
    (hwrite : g.Fwrite raw ptr size nmemb = .ok (n, g')) :
    ∃ f', f.Fwrite raw ptr size nmemb = .ok (n, f') ∧ ListedAs f' g' ∧
      n = u64 (size * nmemb) ∧ g'.m_write_ptr = g.m_write_ptr + n ∧
      g'.m_read_ptr = g.m_read_ptr := by
  rcases h.room raw with ⟨g₁, hroom, h₁, hw₁, hr₁⟩
  have hle := Nat.mod_le g.m_write_ptr BLOCKSIZE
  have hsum : u64 (f.m_write_ptr % BLOCKSIZE + u64 (size * nmemb)) =
      g.m_write_ptr % BLOCKSIZE + u64 (size * nmemb) := by
    rw [h.writePtr]
    exact Nat.mod_eq_of_lt (by omega)
  rw [MemFile.Fwrite] at hwrite
  rw [LinkedFile.Fwrite]
  dsimp only at hwrite ⊢
  rw [hroom] at hwrite
  rw [hsum]
  generalize (if f.m_current_write_nr < f.writeNr then f.addBlock raw else f) = f₁ at h₁ ⊢
  rw [h.writePtr]
  generalize u64 (size * nmemb) = sz at *
  by_cases hlong : ptr.length < sz
  · rw [if_pos hlong] at hwrite
    cases hwrite
  rw [if_neg hlong] at hwrite ⊢
  have htake : (ptr.take sz).length = sz := List.length_take_of_le (Nat.le_of_not_lt hlong)
  generalize ptr.take sz = src at hwrite htake ⊢
  have hdrop : (src.drop (BLOCKSIZE - g.m_write_ptr % BLOCKSIZE)).length =
      src.length - (BLOCKSIZE - g.m_write_ptr % BLOCKSIZE) := List.length_drop
  have hfirst : (src.take (BLOCKSIZE - g.m_write_ptr % BLOCKSIZE)).length =
      min (BLOCKSIZE - g.m_write_ptr % BLOCKSIZE) src.length := List.length_take
  by_cases hfit : g.m_write_ptr % BLOCKSIZE + sz ≤ BLOCKSIZE
  · rw [if_pos hfit] at hwrite ⊢
    split at hwrite
    · cases hwrite
    · next g₂ hcopy =>
      cases hwrite
      rcases h₁.copyIn (by omega) hcopy with ⟨f₂, hcopy₂, h₂, hw₂, hr₂⟩
      refine ⟨f₂, ?_, h₂, rfl, by omega, by omega⟩
      rw [hcopy₂]
  · rw [if_neg hfit] at hwrite ⊢
    split at hwrite
    · cases hwrite
    · next g₂ hcopy =>
      split at hwrite
      · cases hwrite
      · next g₃ hblocks =>
        cases hwrite
        rcases h₁.copyIn (by omega) hcopy with ⟨f₂, hcopy₂, h₂, hw₂, hr₂⟩
        rcases h₂.fwriteBlocks raw (by omega) hblocks with ⟨f₃, hblocks₃, h₃, hw₃, hr₃⟩
        refine ⟨f₃, ?_, h₃, rfl, by omega, by omega⟩
        rw [hcopy₂]
        dsimp only
        rw [hblocks₃]

/-! ## Runs -/

/-- The same call of the file with pointers. -/
def FileCall.ofCall : MemFile.Call → FileCall
  | .Fread size nmemb => .Fread size nmemb
  | .Fwrite ptr size nmemb => .Fwrite ptr size nmemb

/-- The positions do not wrap around. -/
def WritesFit (s : MemFile.History) : MemFile.Call → Prop
  | .Fread _ _ => True
  | .Fwrite _ size nmemb => s.file.m_write_ptr + u64 (size * nmemb) < 18446744073709551616

/-- Both files have been given the same bytes. -/
structure Matches (c : Contents) (s : MemFile.History) : Prop where
  listed : ListedAs c.file s.file
  content : c.content = s.written
  readPtr : s.file.m_read_ptr ≤ s.file.m_write_ptr
  bound : s.file.m_write_ptr < 18446744073709551616

theorem Matches.step {c : Contents} {s s' : MemFile.History} {call : MemFile.Call}
    (h : Matches c s) (hfits : WritesFit s call) (hstep : s.step raw call = some s') :
    ∃ c', c.next raw (.ofCall call) = some c' ∧ Matches c' s' := by
  cases call with
  | Fread size nmemb =>
      rw [MemFile.History.step] at hstep
      cases hread : s.file.Fread size nmemb with
      | error e =>
          rw [hread] at hstep
          cases hstep
      | ok r =>
          rw [hread] at hstep
          cases hstep
          rcases h.listed.Fread h.readPtr h.bound hread with ⟨f', hread', h', hle⟩
          have hsame : r.2.m_write_ptr = s.file.m_write_ptr := by
            rw [← h'.writePtr, (Fread_readOnly hread').writePtr, h.listed.writePtr]
          refine ⟨⟨f', c.content⟩, ?_, h', h.content, ?_, ?_⟩
          · rw [Contents.next, FileCall.ofCall, Contents.step, hread']
            rfl
          · show r.2.m_read_ptr ≤ r.2.m_write_ptr
            rw [hsame]
            exact hle
          · show r.2.m_write_ptr < _
            rw [hsame]
            exact h.bound
  | Fwrite ptr size nmemb =>
      rw [MemFile.History.step] at hstep
      cases hwrite : s.file.Fwrite raw ptr size nmemb with
      | error e =>
          rw [hwrite] at hstep
          cases hstep
      | ok r =>
          rw [hwrite] at hstep
          cases hstep
          have hbound : s.file.m_write_ptr + u64 (size * nmemb) < 18446744073709551616 := hfits
          rcases h.listed.Fwrite hbound hwrite with ⟨f', hwrite', h', hn, hw, hr⟩
          have hle := h.readPtr
          refine ⟨⟨f', c.content ++ ptr.take r.1⟩, ?_, h', ?_, ?_, ?_⟩
          · rw [Contents.next, FileCall.ofCall, Contents.step, hwrite']
            rfl
          · rw [h.content]
          · show r.2.m_read_ptr ≤ r.2.m_write_ptr
            omega
          · show r.2.m_write_ptr < _
            omega

theorem matches_start (raw : Nat → Nat → UInt8) : Matches ⟨new raw, []⟩ (.start raw) where
  listed := listedAs_new raw
  content := rfl
  readPtr := Nat.le_refl _
  bound := by
    show 0 < 18446744073709551616
    decide

/-- A run of the list of blocks is a run of the blocks with their pointers. -/
theorem matches_run {calls : List MemFile.Call} {s : MemFile.History}
    (hfits : Allowed (MemFile.History.step raw) WritesFit (.start raw) calls)
    (hrun : runSteps (MemFile.History.step raw) (.start raw) calls = some s) :
    ∃ c, runSteps (Contents.next raw) ⟨new raw, []⟩ (calls.map .ofCall) = some c ∧ Matches c s :=
  runSteps_follows (R := Matches) (fun _ _ _ _ h hfits hs => h.step hfits hs) (matches_start raw)
    hfits hrun

end LinkedFile

end CommonCc
