import CommonCc.Utils.MemFile.Chain

/-!
# The content of a `MemFile`

The blocks of the chain up to the one that is written hold what was written, and a reader that
stands on one of them gets it from there.
-/

namespace CommonCc

open Memory

namespace LinkedFile

variable {raw : Nat → Nat → UInt8} {f f₁ f₂ : LinkedFile}
  {before before₁ before₂ after after₁ : List Nat} {content src : Bytes}

/-! ## The writer -/

/-- The blocks up to the one that is written hold `content`. -/
structure Tracks (f : LinkedFile) (before after : List Nat) (content : Bytes) : Prop extends
    Chained f before after where
  holds : Holds BLOCKSIZE ((f.written before).map f.data) content
  writePtr : f.m_write_ptr = content.length
  writeNr : f.m_current_write_nr = before.length
  low : before.length * BLOCKSIZE ≤ content.length
  high : content.length ≤ (before.length + 1) * BLOCKSIZE
  bound : content.length < 18446744073709551616

/-- What a write leaves alone. -/
structure Grows (f f₁ : LinkedFile) (before before₁ : List Nat) : Prop where
  written : f.written before <+: f₁.written before₁
  readPtr : f₁.m_read_ptr = f.m_read_ptr
  currentRead : f₁.m_current_read = f.m_current_read
  eof : f₁.m_b_read_caused_eof = f.m_b_read_caused_eof

theorem Grows.refl (f : LinkedFile) (before : List Nat) : Grows f f before before :=
  ⟨List.prefix_rfl, rfl, rfl, rfl⟩

theorem Grows.trans (h : Grows f f₁ before before₁) (h' : Grows f₁ f₂ before₁ before₂) :
    Grows f f₂ before before₂ where
  written := h.written.trans h'.written
  readPtr := h'.readPtr.trans h.readPtr
  currentRead := h'.currentRead.trans h.currentRead
  eof := h'.eof.trans h.eof

theorem Chained.tracks_nil (h : Chained f [] after) (hptr : f.m_write_ptr = 0)
    (hnr : f.m_current_write_nr = 0) : Tracks f [] after [] where
  toChained := h
  holds := {
    size := by
      intro m hm
      rw [List.mem_singleton.mp hm]
      exact h.size _
    cell := fun i hi => absurd hi (Nat.not_lt_zero i) }
  writePtr := hptr
  writeNr := hnr
  low := Nat.le_of_eq (Nat.zero_mul _)
  high := Nat.zero_le _
  bound := by decide

theorem Tracks.readOnly (h : Tracks f before after content) (hread : ReadOnly f f₁) :
    Tracks f₁ before after content where
  toChained := h.toChained.readOnly hread
  holds := by
    have hdata : f₁.data = f.data := funext fun a => by rw [data, hread.heap, data]
    rw [written, hread.currentWrite, hdata]
    exact h.holds
  writePtr := hread.writePtr.trans h.writePtr
  writeNr := hread.writeNr.trans h.writeNr
  low := h.low
  high := h.high
  bound := h.bound

theorem Tracks.fill (h : Tracks f before after content) {off : Nat}
    (hoff : content.length = before.length * BLOCKSIZE + off) (hfit : off + src.length ≤ BLOCKSIZE)
    (hbound : content.length + src.length < 18446744073709551616) :
    Tracks (f.fill off src) before after (content ++ src) where
  toChained := h.toChained.fill off src
  holds := by
    have hbefore : before.map (f.fill off src).data = before.map f.data := by
      apply List.map_congr_left
      intro a ha
      refine fill_data_of_ne ?_ off src
      rintro rfl
      exact h.current_notMem ha
    have hset : ((f.fill off src).written before).map (f.fill off src).data =
        ((f.written before).map f.data).set before.length
          ((f.data f.m_current_write).write off src) := by
      show (before ++ [f.m_current_write]).map _ = ((before ++ [f.m_current_write]).map _).set _ _
      rw [List.map_append, List.map_append, List.map_singleton, List.map_singleton, hbefore,
        fill_data_self, List.set_append_right _ _ (by rw [List.length_map]), List.length_map,
        Nat.sub_self, List.set_cons_zero]
    rw [hset]
    refine h.holds.write ?_ hoff hfit
    rw [written, List.map_append, List.getElem?_append_right (by rw [List.length_map]),
      List.length_map, Nat.sub_self]
    rfl
  writePtr := by
    show u64 (f.m_write_ptr + src.length) = _
    rw [h.writePtr, List.length_append]
    exact Nat.mod_eq_of_lt hbound
  writeNr := h.writeNr
  low := by
    rw [List.length_append]
    exact Nat.le_add_right_of_le h.low
  high := by
    rw [List.length_append, hoff, Nat.add_assoc, Nat.succ_mul]
    exact Nat.add_le_add_left hfit _
  bound := by
    rw [List.length_append]
    exact hbound

theorem Tracks.copyIn (h : Tracks f before after content) (src : Bytes) {off : Nat}
    (hoff : content.length = before.length * BLOCKSIZE + off) (hfit : off + src.length ≤ BLOCKSIZE)
    (hbound : content.length + src.length < 18446744073709551616) :
    ∃ f₁, f.copyIn off src = .ok f₁ ∧ Tracks f₁ before after (content ++ src) ∧
      Grows f f₁ before before :=
  ⟨f.fill off src, copyIn_iff.mpr ⟨by rwa [h.size], rfl⟩, h.fill hoff hfit hbound,
    List.prefix_rfl, rfl, rfl, rfl⟩

/-- The block behind a full one holds nothing yet. -/
theorem Tracks.moves (h : Tracks f before after content)
    (hfull : content.length = (before.length + 1) * BLOCKSIZE)
    (hchain : Chained f₁ (f.written before) after₁) (hmoves : Moves f f₁) :
    Tracks f₁ (f.written before) after₁ content ∧ Grows f f₁ before (f.written before) := by
  have hlen := written_length f before
  have hdata : (f.written before).map f₁.data = (f.written before).map f.data :=
    List.map_congr_left fun a ha => hmoves.data a (h.made_written a ha)
  constructor
  · exact {
      toChained := hchain
      holds := by
        show Holds BLOCKSIZE ((f.written before ++ [f₁.m_current_write]).map f₁.data) content
        rw [List.map_append, hdata]
        exact h.holds.append (hchain.size _)
      writePtr := hmoves.writePtr.trans h.writePtr
      writeNr := by
        rw [hmoves.writeNr, h.writeNr, hlen]
        rfl
      low := by
        rw [hlen]
        exact Nat.le_of_eq hfull.symm
      high := by
        rw [hlen, hfull]
        exact Nat.mul_le_mul_right _ (Nat.le_succ _)
      bound := h.bound }
  · exact ⟨List.prefix_append _ _, hmoves.readPtr, hmoves.currentRead, hmoves.eof⟩

/-- A block behind a full one is filled from its start. -/
theorem Tracks.copyIn_next (h : Tracks f before after content) (raw : Nat → Nat → UInt8)
    (hfull : content.length = (before.length + 1) * BLOCKSIZE) (hfit : src.length ≤ BLOCKSIZE)
    (hbound : content.length + src.length < 18446744073709551616) :
    ∃ f₁ after₁, (f.nextWrite raw).copyIn 0 src = .ok f₁ ∧
      Tracks f₁ (f.written before) after₁ (content ++ src) ∧
      Grows f f₁ before (f.written before) := by
  have hnext := h.toChained.nextWrite raw
  have hmoved := h.moves hfull hnext.1 hnext.2
  have hoff : content.length = (f.written before).length * BLOCKSIZE + 0 := by
    rw [written_length]
    exact hfull.trans (Nat.add_zero _).symm
  rcases hmoved.1.copyIn src hoff (by rwa [Nat.zero_add]) hbound with ⟨f₁, hcopy, htracks, hgrows⟩
  exact ⟨f₁, _, hcopy, htracks, hmoved.2.trans hgrows⟩

theorem Tracks.fwriteBlocks (h : Tracks f before after content) (raw : Nat → Nat → UInt8)
    (hfull : content.length = (before.length + 1) * BLOCKSIZE)
    (hbound : content.length + src.length < 18446744073709551616) :
    ∃ f₁ before₁ after₁, fwriteBlocks raw f src = .ok f₁ ∧
      Tracks f₁ before₁ after₁ (content ++ src) ∧ Grows f f₁ before before₁ := by
  generalize hlen : src.length = n
  induction n using Nat.strongRecOn generalizing f before after content src with
  | ind n ih =>
      rw [LinkedFile.fwriteBlocks]
      split
      · next hlong =>
        have htake : (src.take BLOCKSIZE).length = BLOCKSIZE :=
          List.length_take_of_le (Nat.le_of_lt hlong)
        have hdrop : (src.drop BLOCKSIZE).length = src.length - BLOCKSIZE := List.length_drop
        have hpos := blocksize_pos
        rcases h.copyIn_next raw hfull (Nat.le_of_eq htake) (by omega) with
          ⟨f₁, after₁, hcopy, htracks, hgrows⟩
        have hfull₁ : (content ++ src.take BLOCKSIZE).length =
            ((f.written before).length + 1) * BLOCKSIZE := by
          rw [List.length_append, htake, hfull, written_length, Nat.succ_mul (before.length + 1)]
        rcases ih _ (by omega) htracks hfull₁
            (by rw [List.length_append]; omega : _ + (src.drop BLOCKSIZE).length < _) rfl with
          ⟨f₂, before₂, after₂, hrest, htracks₂, hgrows₂⟩
        rw [List.append_assoc, List.take_append_drop] at htracks₂
        exact ⟨f₂, before₂, after₂, by rw [hcopy]; exact hrest, htracks₂, hgrows.trans hgrows₂⟩
      · next hshort =>
        rcases h.copyIn_next raw hfull (Nat.le_of_not_lt hshort) hbound with
          ⟨f₁, after₁, hcopy, htracks, hgrows⟩
        exact ⟨f₁, _, after₁, hcopy, htracks, hgrows⟩

/-- The last byte of the block that is written is taken. -/
def Full (f : LinkedFile) : Prop := f.m_write_ptr = (f.m_current_write_nr + 1) * BLOCKSIZE

instance (f : LinkedFile) : Decidable f.Full := Int.instDecidableEq _ _

theorem Tracks.full_iff (h : Tracks f before after content) :
    f.Full ↔ content.length = (before.length + 1) * BLOCKSIZE := by
  rw [Full, h.writePtr, h.writeNr]
  exact_mod_cast Iff.rfl

theorem writeNr_of_lt (h : f.m_write_ptr < 2147483648) :
    f.writeNr = (f.m_write_ptr / BLOCKSIZE : Nat) := by
  rw [writeNr, toInt_of_mem (by omega) (by omega)]
  rfl

/-- From `2147483648` bytes on, `nr` is too small. -/
theorem writeNr_le (f : LinkedFile) : f.writeNr ≤ (f.m_write_ptr / BLOCKSIZE : Nat) := by
  have hle : toInt f.m_write_ptr ≤ f.m_write_ptr := by
    unfold toInt
    omega
  rw [writeNr, Int.ofNat_tdiv]
  exact Int.tdiv_le_tdiv (Int.natCast_pos.mpr blocksize_pos) hle

/-- The first step of a write: a block with room for a byte. -/
theorem Tracks.room (h : Tracks f before after content) (raw : Nat → Nat → UInt8)
    (hint : f.Full → content.length < 2147483648) :
    ∃ f₁ before₁ after₁,
      (if f.m_current_write_nr < f.writeNr then f.addBlock raw else f) = f₁ ∧
      Tracks f₁ before₁ after₁ content ∧ Grows f f₁ before before₁ ∧
      content.length = before₁.length * BLOCKSIZE + content.length % BLOCKSIZE := by
  have hlow := h.low
  have hhigh := h.high
  by_cases hfull : f.Full
  · have hlen := h.full_iff.mp hfull
    have hnr : f.m_current_write_nr < f.writeNr := by
      rw [writeNr_of_lt (by rw [h.writePtr]; exact hint hfull), h.writePtr, h.writeNr, hlen,
        Nat.mul_div_cancel _ blocksize_pos]
      exact Int.lt_add_one_iff.mpr (Int.le_refl _)
    have hadd := h.toChained.addBlock raw
    have hmoved := h.moves hlen hadd.1 hadd.2
    refine ⟨_, _, _, if_pos hnr, hmoved.1, hmoved.2, ?_⟩
    rw [written_length, hlen, Nat.mul_mod_left]
    exact (Nat.add_zero _).symm
  · have hlt : content.length < (before.length + 1) * BLOCKSIZE :=
      Nat.lt_of_le_of_ne hhigh fun hlen => hfull (h.full_iff.mpr hlen)
    have hdiv : content.length / BLOCKSIZE = before.length :=
      Nat.div_eq_of_lt_le hlow hlt
    have hnr : ¬ f.m_current_write_nr < f.writeNr := by
      have hle := f.writeNr_le
      rw [h.writePtr, hdiv, ← h.writeNr] at hle
      exact Int.not_lt.mpr hle
    refine ⟨f, before, after, if_neg hnr, h, .refl f before, ?_⟩
    rw [← hdiv, Nat.div_add_mod']

/-- A write puts its bytes behind those that were written before. -/
theorem Tracks.Fwrite (h : Tracks f before after content) (raw : Nat → Nat → UInt8) (ptr : Bytes)
    (size nmemb : Nat) (hptr : u64 (size * nmemb) ≤ ptr.length)
    (hint : f.Full → content.length < 2147483648)
    (hbound : content.length + u64 (size * nmemb) < 18446744073709551616) :
    ∃ f₁ before₁ after₁, f.Fwrite raw ptr size nmemb = .ok (u64 (size * nmemb), f₁) ∧
      Tracks f₁ before₁ after₁ (content ++ ptr.take (u64 (size * nmemb))) ∧
      Grows f f₁ before before₁ := by
  have htake : (ptr.take (u64 (size * nmemb))).length = u64 (size * nmemb) :=
    List.length_take_of_le hptr
  rcases h.room raw hint with ⟨f₁, before₁, after₁, hroom, htracks, hgrows, hoff⟩
  have hmod := Nat.mod_lt content.length blocksize_pos
  have hle := Nat.mod_le content.length BLOCKSIZE
  rw [LinkedFile.Fwrite]
  dsimp only
  rw [if_neg (Nat.not_lt.mpr hptr), hroom, h.writePtr]
  generalize u64 (size * nmemb) = sz at *
  generalize ptr.take sz = src at htake ⊢
  generalize content.length % BLOCKSIZE = p at *
  have hsum : u64 (p + sz) = p + sz := Nat.mod_eq_of_lt (by omega)
  rw [hsum]
  split
  · next hfit =>
    rcases htracks.copyIn src hoff (by omega) (by omega) with ⟨f₂, hcopy, htracks₂, hgrows₂⟩
    exact ⟨f₂, before₁, after₁, by rw [hcopy], htracks₂, hgrows.trans hgrows₂⟩
  · next hlong =>
    have hfirst : (src.take (BLOCKSIZE - p)).length = BLOCKSIZE - p :=
      List.length_take_of_le (by omega)
    have hrest : (src.drop (BLOCKSIZE - p)).length = sz - (BLOCKSIZE - p) := by
      rw [List.length_drop, htake]
    rcases htracks.copyIn (src.take (BLOCKSIZE - p)) hoff (by omega) (by omega) with
      ⟨f₂, hcopy, htracks₂, hgrows₂⟩
    have hfull : (content ++ src.take (BLOCKSIZE - p)).length =
        (before₁.length + 1) * BLOCKSIZE := by
      rw [List.length_append, hfirst, hoff, Nat.succ_mul]
      omega
    have hall : (content ++ src.take (BLOCKSIZE - p)).length +
        (src.drop (BLOCKSIZE - p)).length < 18446744073709551616 := by
      rw [List.length_append]
      omega
    rcases htracks₂.fwriteBlocks raw hfull hall with
      ⟨f₃, before₃, after₃, hblocks, htracks₃, hgrows₃⟩
    rw [List.append_assoc, List.take_append_drop] at htracks₃
    refine ⟨f₃, before₃, after₃, ?_, htracks₃, hgrows.trans (hgrows₂.trans hgrows₃)⟩
    rw [hcopy]
    dsimp only
    rw [hblocks]

/-- A write that returns has been given the bytes it writes. -/
theorem le_of_Fwrite {ptr : Bytes} {size nmemb : Nat} {r : Nat × LinkedFile}
    (hwrite : f.Fwrite raw ptr size nmemb = .ok r) : u64 (size * nmemb) ≤ ptr.length := by
  apply Nat.le_of_not_lt
  intro hlong
  rw [LinkedFile.Fwrite, if_pos hlong] at hwrite
  cases hwrite

theorem u64_one_mul {n : Nat} (h : n < 18446744073709551616) : u64 (1 * n) = n := by
  rw [Nat.one_mul]
  exact Nat.mod_eq_of_lt h

/-- The last block of a file is written at `2147483648` bytes at most. -/
theorem Tracks.loadBlocks (h : Tracks f before after content) (raw : Nat → Nat → UInt8)
    (fil : Bytes) (hlen : content.length + fil.length ≤ 2147483648) :
    ∃ f₁ before₁ after₁, loadBlocks raw f fil = .ok f₁ ∧
      Tracks f₁ before₁ after₁ (content ++ fil) ∧ Grows f f₁ before before₁ := by
  generalize hn : fil.length = n
  induction n using Nat.strongRecOn generalizing f before after content fil with
  | ind n ih =>
      rw [LinkedFile.loadBlocks]
      split
      · next hnil =>
        rw [hnil, List.append_nil]
        exact ⟨f, before, after, rfl, h, .refl f before⟩
      · next hsome =>
        have hpos := blocksize_pos
        have hlong := List.length_pos_of_ne_nil hsome
        have htake : (fil.take BLOCKSIZE).length ≤ fil.length := List.length_take_le' _ _
        have hsz : u64 (1 * (fil.take BLOCKSIZE).length) = (fil.take BLOCKSIZE).length :=
          u64_one_mul (by omega)
        have hshort : (fil.drop BLOCKSIZE).length = fil.length - BLOCKSIZE := List.length_drop
        rcases h.Fwrite raw (fil.take BLOCKSIZE) 1 (fil.take BLOCKSIZE).length (by rw [hsz])
            (fun _ => by omega) (by omega) with ⟨f₁, before₁, after₁, hwrite, htracks, hgrows⟩
        rw [hsz, List.take_length] at htracks
        have hall : (content ++ fil.take BLOCKSIZE).length + (fil.drop BLOCKSIZE).length ≤
            2147483648 := by
          rw [List.length_append, Nat.add_assoc, ← List.length_append, List.take_append_drop]
          exact hlen
        rcases ih _ (by omega) htracks _ hall rfl with ⟨f₂, before₂, after₂, hrest, htracks₂, hgrows₂⟩
        rw [List.append_assoc, List.take_append_drop] at htracks₂
        exact ⟨f₂, before₂, after₂, by rw [hwrite]; exact hrest, htracks₂, hgrows.trans hgrows₂⟩

theorem Sound.ResetWrite_tracks (h : Sound f) (current : Option Nat) :
    ∃ after, Tracks (f.ResetWrite.seek current f.m_read_ptr) [] after [] := by
  rcases h with ⟨before, after, h⟩
  rcases h.ResetWrite with ⟨rest, h⟩
  exact ⟨rest, (h.readOnly (readOnly_seek _ current _)).tracks_nil rfl rfl⟩

/-- `Load` replaces the content, and its reader starts over but for the position. -/
theorem Sound.Load_some (h : Sound f) (raw : Nat → Nat → UInt8) {fil : Bytes}
    (hlen : fil.length ≤ 2147483648) :
    ∃ f₁ before after, f.Load raw (some fil) = .ok (true, f₁) ∧ Tracks f₁ before after fil ∧
      f₁.m_current_read = some 0 ∧ f₁.m_read_ptr = f.m_read_ptr ∧
      f₁.m_b_read_caused_eof = f.m_b_read_caused_eof := by
  rcases h.ResetWrite_tracks (some 0) with ⟨after, htracks⟩
  rcases htracks.loadBlocks raw fil (by rwa [List.length_nil, Nat.zero_add]) with
    ⟨f₁, before₁, after₁, hload, htracks₁, hgrows⟩
  refine ⟨f₁, before₁, after₁, ?_, htracks₁, hgrows.currentRead, hgrows.readPtr, hgrows.eof⟩
  have hstart : { f.ResetWrite with m_current_read := some 0, m_current_write := 0 } =
      f.ResetWrite.seek (some 0) f.m_read_ptr := rfl
  rw [LinkedFile.Load, hstart, hload]

/-! ## The reader -/

/-- The reader stands on the block at position `k` of the chain. -/
def ReadsAt (f : LinkedFile) (before after : List Nat) (k : Nat) : Prop :=
  ∃ a, f.m_current_read = some a ∧ (f.written before ++ after)[k]? = some a

theorem Chained.linked_written (h : Chained f before after) :
    Linked f.next (some 0) (f.written before ++ after) := by
  rw [written, List.append_assoc]
  exact h.linked

theorem Chained.nextRead (h : Chained f before after) {k : Nat} (hk : ReadsAt f before after k) :
    f.nextRead = (f.written before ++ after)[k + 1]? := by
  rcases hk with ⟨a, hcur, ha⟩
  rw [LinkedFile.nextRead, hcur]
  exact h.linked_written.next_getElem ha

theorem ReadsAt.next {k a : Nat} (h : (f.written before ++ after)[k]? = some a) :
    ReadsAt (f.seek (some a) f.m_read_ptr) before after k := ⟨a, rfl, h⟩

/-- A reader on a block that holds content gets it from there, wherever the read position is. -/
theorem Tracks.copyOut (h : Tracks f before after content) {k : Nat} (off n : Nat)
    (hk : ReadsAt f before after k) (hin : k ≤ before.length) (hfit : off + n ≤ BLOCKSIZE)
    (hlen : k * BLOCKSIZE + off + n ≤ content.length)
    (hptr : f.m_read_ptr + n < 18446744073709551616) :
    f.copyOut off n = .ok ((content.drop (k * BLOCKSIZE + off)).take n,
      f.seek f.m_current_read (f.m_read_ptr + n)) := by
  rcases hk with ⟨a, hcur, ha⟩
  rw [List.getElem?_append_left (by rw [written_length]; omega)] at ha
  have hblock : ((f.written before).map f.data)[k]? = some (f.data a) := by
    rw [List.getElem?_map, ha]
    rfl
  have hread := load_iff.mp (h.holds.load hblock hfit hlen)
  have hmod : u64 (f.m_read_ptr + n) = f.m_read_ptr + n := Nat.mod_eq_of_lt hptr
  exact copyOut_iff.mpr ⟨a, hcur, hread.1, hread.2.symm, by rw [hmod]⟩

/-- Behind a block that has been read to its end, the reader goes on along the chain. -/
theorem Tracks.freadBlocks (h : Tracks f before after content) {k : Nat} (sz sz1 sz2 : Nat)
    (hk : ReadsAt f before after k) (hin : k ≤ before.length)
    (hlen : (k + 1) * BLOCKSIZE + sz2 ≤ content.length) (hsz : sz = sz1 + sz2)
    (hptr : f.m_read_ptr + sz2 < 18446744073709551616) (ptr : Bytes) :
    ∃ a k', freadBlocks sz f ptr sz1 sz2 =
        .ok ((ptr ++ (content.drop ((k + 1) * BLOCKSIZE)).take sz2, sz),
          f.seek (some a) (f.m_read_ptr + sz2)) ∧
      (f.written before ++ after)[k']? = some a ∧
      (k' = k + 1 + (sz2 - 1) / BLOCKSIZE ∨
        k' = k ∧ k + 1 = (f.written before ++ after).length ∧ sz2 = 0) := by
  induction sz2 using Nat.strongRecOn generalizing f k ptr sz1 with
  | ind sz2 ih =>
      have hpos := blocksize_pos
      have hnext := h.toChained.nextRead hk
      cases hblock : (f.written before ++ after)[k + 1]? with
      | none =>
          -- the content ends with this block
          have hend := List.getElem?_eq_none_iff.mp hblock
          rw [List.length_append, written_length] at hend
          have hhigh := h.high
          have hlast : k = before.length := by omega
          have hzero : sz2 = 0 := by
            rw [hlast] at hlen
            omega
          rcases hk with ⟨a, hcur, ha⟩
          refine ⟨a, k, ?_, ha, .inr ⟨rfl, ?_, hzero⟩⟩
          · rw [freadBlocks_end (hnext.trans hblock), hsz, hzero, List.take_zero, List.append_nil,
              ← hcur]
            rfl
          · rw [List.length_append, written_length]
            omega
      | some b =>
          have hk₁ := ReadsAt.next (f := f) hblock
          have htracks₁ := h.readOnly (readOnly_seek f (some b) f.m_read_ptr)
          have hin₁ : 0 < sz2 → k + 1 ≤ before.length := by
            intro hsome
            have hlt : (k + 1) * BLOCKSIZE < (before.length + 1) * BLOCKSIZE :=
              Nat.lt_of_lt_of_le (by omega) h.high
            exact Nat.le_of_lt_succ (Nat.lt_of_mul_lt_mul_right hlt)
          by_cases hlong : BLOCKSIZE < sz2
          · have hcopy := htracks₁.copyOut 0 BLOCKSIZE hk₁ (hin₁ (by omega))
              (by omega) (by omega) (show f.m_read_ptr + BLOCKSIZE < _ by omega)
            have hsucc : (k + 1 + 1) * BLOCKSIZE = (k + 1) * BLOCKSIZE + BLOCKSIZE :=
              Nat.succ_mul _ _
            have hsum : f.m_read_ptr + BLOCKSIZE + (sz2 - BLOCKSIZE) = f.m_read_ptr + sz2 := by
              omega
            rcases ih (sz2 - BLOCKSIZE) (by omega)
                (h.readOnly (readOnly_seek f (some b) (f.m_read_ptr + BLOCKSIZE)))
                (sz1 + BLOCKSIZE) ⟨b, rfl, hblock⟩ (hin₁ (by omega)) (by omega) (by omega)
                (show f.m_read_ptr + BLOCKSIZE + _ < _ by omega)
                (ptr ++ (content.drop ((k + 1) * BLOCKSIZE)).take BLOCKSIZE) with
              ⟨a, k', hrest, ha, hk'⟩
            have hdiv : (sz2 - 1) / BLOCKSIZE = (sz2 - BLOCKSIZE - 1) / BLOCKSIZE + 1 := by
              rw [show sz2 - 1 = sz2 - BLOCKSIZE - 1 + BLOCKSIZE by omega,
                Nat.add_div_right _ hpos]
            have hk'' : k' = k + 1 + (sz2 - 1) / BLOCKSIZE := by
              rcases hk' with hk' | hlast
              · omega
              · omega
            refine ⟨a, k', ?_, ha, .inl hk''⟩
            have htake : (content.drop ((k + 1) * BLOCKSIZE)).take BLOCKSIZE ++
                (content.drop ((k + 1 + 1) * BLOCKSIZE)).take (sz2 - BLOCKSIZE) =
                (content.drop ((k + 1) * BLOCKSIZE)).take sz2 := by
              rw [hsucc, ← List.drop_drop, ← List.take_add, Nat.add_sub_cancel' (by omega)]
            simp only [seek_seek, seek_currentRead, seek_readPtr, Nat.add_zero] at hcopy hrest
            rw [freadBlocks_block (hnext.trans hblock) hlong hcopy, hrest, List.append_assoc, htake,
              hsum]
          · have hdiv : (sz2 - 1) / BLOCKSIZE = 0 := Nat.div_eq_of_lt (by omega)
            refine ⟨b, k + 1, ?_, hblock, .inl (by rw [hdiv])⟩
            apply freadBlocks_last (hnext.trans hblock) hlong
            by_cases hzero : sz2 = 0
            · -- nothing is read of the block, which need not hold content
              have hmod : u64 (f.m_read_ptr + 0) = f.m_read_ptr + 0 := Nat.mod_eq_of_lt (by omega)
              rw [hzero, List.take_zero]
              exact copyOut_iff.mpr ⟨b, rfl, Nat.zero_le _, rfl, by rw [← hmod]; rfl⟩
            · have hcopy := htracks₁.copyOut 0 sz2 hk₁ (hin₁ (by omega))
                (by omega) (by omega) hptr
              simpa only [seek_seek, seek_currentRead, seek_readPtr, Nat.add_zero] using hcopy

/-- How many links are followed by a read that ends `n` bytes behind the start of a block. -/
def linksFollowed (n : Nat) : Nat := if n < BLOCKSIZE then 0 else 1 + (n - BLOCKSIZE - 1) / BLOCKSIZE

theorem linksFollowed_mul_le (n : Nat) : linksFollowed n * BLOCKSIZE ≤ n := by
  unfold linksFollowed
  split
  · rw [Nat.zero_mul]
    exact Nat.zero_le _
  · have hdiv := Nat.div_mul_le_self (n - BLOCKSIZE - 1) BLOCKSIZE
    rw [Nat.add_mul, Nat.one_mul]
    omega

/-- A read that stays in its block ends on the block of the next byte. -/
theorem lt_linksFollowed_mul {n : Nat} (h : n ≤ BLOCKSIZE) :
    n < (linksFollowed n + 1) * BLOCKSIZE := by
  have hpos := blocksize_pos
  unfold linksFollowed
  split
  · next hlt => rwa [Nat.zero_add, Nat.one_mul]
  · rw [Nat.add_mul, Nat.add_mul, Nat.one_mul]
    omega

/-- A reader on a block that holds content reads from there on, and follows the links up to the end
of the chain. -/
theorem Tracks.readBytes (h : Tracks f before after content) {k n : Nat}
    (hk : ReadsAt f before after k) (hin : k ≤ before.length) (hn : 0 < n)
    (hlen : k * BLOCKSIZE + f.m_read_ptr % BLOCKSIZE + n ≤ content.length)
    (hptr : f.m_read_ptr + n < 18446744073709551616) :
    ∃ a k', f.readBytes n =
        .ok (((content.drop (k * BLOCKSIZE + f.m_read_ptr % BLOCKSIZE)).take n, n),
          f.seek (some a) (f.m_read_ptr + n)) ∧
      (f.written before ++ after)[k']? = some a ∧
      (k' = k + linksFollowed (f.m_read_ptr % BLOCKSIZE + n) ∨
        k' = k ∧ k + 1 = (f.written before ++ after).length ∧
          f.m_read_ptr % BLOCKSIZE + n = BLOCKSIZE) := by
  have hmod := Nat.mod_lt f.m_read_ptr blocksize_pos
  have hbound := h.bound
  have hsucc : (k + 1) * BLOCKSIZE = k * BLOCKSIZE + BLOCKSIZE := Nat.succ_mul _ _
  rw [LinkedFile.readBytes]
  dsimp only
  generalize f.m_read_ptr % BLOCKSIZE = p at *
  have hsum : u64 (p + n) = p + n := Nat.mod_eq_of_lt (by omega)
  rw [hsum, if_neg (Nat.ne_of_gt hn)]
  split
  · next hinside =>
    have hcopy := h.copyOut p n hk hin (Nat.le_of_lt hinside) hlen hptr
    rcases hk with ⟨a, hcur, ha⟩
    refine ⟨a, k, ?_, ha, .inl ?_⟩
    · rw [hcopy, ← hcur]
    · rw [linksFollowed, if_pos hinside, Nat.add_zero]
  · next hpast =>
    have hcopy := h.copyOut p (BLOCKSIZE - p) hk hin (by omega) (by omega) (by omega)
    have hk₁ : ReadsAt (f.seek f.m_current_read (f.m_read_ptr + (BLOCKSIZE - p))) before after k := hk
    rcases (h.readOnly (readOnly_seek f f.m_current_read _)).freadBlocks
        n (BLOCKSIZE - p) (n - (BLOCKSIZE - p)) hk₁ hin (by omega) (by omega)
        (show f.m_read_ptr + _ + _ < _ by omega)
        ((content.drop (k * BLOCKSIZE + p)).take (BLOCKSIZE - p)) with
      ⟨a, k', hrest, ha, hk'⟩
    have hend : (k + 1) * BLOCKSIZE = k * BLOCKSIZE + p + (BLOCKSIZE - p) := by omega
    have htake : (content.drop (k * BLOCKSIZE + p)).take (BLOCKSIZE - p) ++
        (content.drop ((k + 1) * BLOCKSIZE)).take (n - (BLOCKSIZE - p)) =
        (content.drop (k * BLOCKSIZE + p)).take n := by
      rw [hend, ← List.drop_drop (i := BLOCKSIZE - p), ← List.take_add,
        Nat.add_sub_cancel' (by omega)]
    have hread : f.m_read_ptr + (BLOCKSIZE - p) + (n - (BLOCKSIZE - p)) = f.m_read_ptr + n := by
      omega
    refine ⟨a, k', ?_, ha, ?_⟩
    · rw [hcopy]
      dsimp only
      rw [hrest, htake, seek_seek, seek_readPtr, hread]
    · rcases hk' with hk' | ⟨hk', hlast, hzero⟩
      · left
        rw [hk', linksFollowed, if_neg hpast, ← Nat.add_assoc,
          show n - (BLOCKSIZE - p) = p + n - BLOCKSIZE by omega]
      · exact .inr ⟨hk', hlast, by omega⟩

/-- Where the reader is after a read. -/
theorem Tracks.reads_end (h : Tracks f before after content) {k k' p n : Nat}
    (hin : k ≤ before.length) (hlen : k * BLOCKSIZE + p + n ≤ content.length)
    (hk' : k' = k + linksFollowed (p + n) ∨
      k' = k ∧ k + 1 = (f.written before ++ after).length ∧ p + n = BLOCKSIZE) :
    k' * BLOCKSIZE ≤ k * BLOCKSIZE + p + n ∧
      (p + n ≤ BLOCKSIZE → k * BLOCKSIZE + p + n < (k' + 1) * BLOCKSIZE ∨
        k' + 1 = (f.written before ++ after).length) ∧
      (k' = k + linksFollowed (p + n) ∨ k * BLOCKSIZE + p + n = content.length) := by
  have hhigh := h.high
  have hle := linksFollowed_mul_le (p + n)
  rcases hk' with hk' | ⟨hk', hlast, hfull⟩
  · refine ⟨?_, fun hfit => .inl ?_, .inl hk'⟩
    · rw [hk', Nat.add_mul]
      omega
    · have hlt := lt_linksFollowed_mul hfit
      rw [hk', Nat.add_assoc k, Nat.add_mul]
      omega
  · refine ⟨by rw [hk']; omega, fun _ => .inr (by rw [hk', hlast]), .inr ?_⟩
    rw [List.length_append, written_length] at hlast
    have hk : k = before.length := by omega
    rw [← hk, Nat.succ_mul] at hhigh
    omega

/-- The block of a reader that is not ahead holds what is to be read. -/
theorem Tracks.reads_within (h : Tracks f before after content) {k n : Nat}
    (hstart : k * BLOCKSIZE ≤ f.m_read_ptr) (hn : 0 < n) (hend : f.m_read_ptr + n ≤ content.length) :
    k ≤ before.length ∧ k * BLOCKSIZE + f.m_read_ptr % BLOCKSIZE ≤ f.m_read_ptr := by
  have hhigh := h.high
  have hlt : k * BLOCKSIZE < (before.length + 1) * BLOCKSIZE := by omega
  have hblock : k * BLOCKSIZE ≤ f.m_read_ptr / BLOCKSIZE * BLOCKSIZE :=
    Nat.mul_le_mul_right _ ((Nat.le_div_iff_mul_le blocksize_pos).mpr hstart)
  have hdecomp := Nat.div_add_mod' f.m_read_ptr BLOCKSIZE
  exact ⟨Nat.le_of_lt_succ (Nat.lt_of_mul_lt_mul_right hlt), by omega⟩

/-- `Fread` gets what is asked for, but not more than there is. -/
theorem Tracks.Fread_eq (h : Tracks f before after content) (hle : f.m_read_ptr ≤ content.length)
    (size nmemb : Nat) :
    ∃ eof, f.Fread size nmemb =
        { f with m_b_read_caused_eof := eof }.readBytes
          (min (u64 (size * nmemb)) (content.length - f.m_read_ptr)) ∧
      (eof = true ↔ f.m_b_read_caused_eof = true ∨
        content.length - f.m_read_ptr < u64 (size * nmemb)) := by
  have hsub : u64Sub f.m_write_ptr f.m_read_ptr = content.length - f.m_read_ptr := by
    rw [h.writePtr]
    exact u64Sub_of_le hle h.bound
  rw [LinkedFile.Fread, hsub]
  split
  · next hless =>
    refine ⟨true, ?_, ?_⟩
    · rw [Nat.min_eq_right (Nat.le_of_lt hless)]
    · exact ⟨fun _ => .inr hless, fun _ => rfl⟩
  · next henough =>
    refine ⟨f.m_b_read_caused_eof, ?_, ?_⟩
    · rw [Nat.min_eq_left (Nat.le_of_not_lt henough)]
    · exact ⟨.inl, fun hor => hor.resolve_right henough⟩

/-! ## A reader in step -/

/-- The reader is on the block of the next byte, or on the last block of the chain. -/
structure InStep (f : LinkedFile) (before after : List Nat) (content : Bytes) : Prop where
  le : f.m_read_ptr ≤ content.length
  block : ∃ k, ReadsAt f before after k ∧ k * BLOCKSIZE ≤ f.m_read_ptr ∧
    (f.m_read_ptr < (k + 1) * BLOCKSIZE ∨ k + 1 = (f.written before ++ after).length)

theorem Chained.readsAt_base (h : Chained f before after) (hcur : f.m_current_read = some 0) :
    ReadsAt f before after 0 := by
  refine ⟨0, hcur, ?_⟩
  rw [← List.head?_eq_getElem?]
  exact h.linked_written.head.symm

theorem Tracks.inStep (h : Tracks f before after content) (hcur : f.m_current_read = some 0)
    (hptr : f.m_read_ptr = 0) : InStep f before after content where
  le := by
    rw [hptr]
    exact Nat.zero_le _
  block := by
    refine ⟨0, h.toChained.readsAt_base hcur, ?_, .inl ?_⟩
    · rw [Nat.zero_mul]
      exact Nat.zero_le _
    · rw [hptr, Nat.zero_add, Nat.one_mul]
      exact blocksize_pos

/-- Where there is a byte to read, the reader is on its block. -/
theorem InStep.exists_block (hs : InStep f before after content) (h : Tracks f before after content)
    (hlt : f.m_read_ptr < content.length) :
    ∃ k, ReadsAt f before after k ∧ k ≤ before.length ∧
      k * BLOCKSIZE + f.m_read_ptr % BLOCKSIZE = f.m_read_ptr := by
  rcases hs.block with ⟨k, hk, hle, hend⟩
  have hhigh := h.high
  have hin : k < before.length + 1 :=
    Nat.lt_of_mul_lt_mul_right (Nat.lt_of_le_of_lt hle (Nat.lt_of_lt_of_le hlt hhigh))
  refine ⟨k, hk, Nat.le_of_lt_succ hin, ?_⟩
  have hinside : f.m_read_ptr < (k + 1) * BLOCKSIZE := by
    cases hend with
    | inl hinside => exact hinside
    | inr hlast =>
        rw [List.length_append, written_length] at hlast
        have hk : k = before.length := by omega
        rw [hk]
        exact Nat.lt_of_lt_of_le hlt hhigh
  have hdiv : f.m_read_ptr / BLOCKSIZE = k := Nat.div_eq_of_lt_le hle hinside
  rw [← hdiv, Nat.div_add_mod']

/-- A read within one block keeps the reader in step. -/
theorem InStep.Fread (hs : InStep f before after content) (h : Tracks f before after content)
    (size nmemb n : Nat) (hn : n = min (u64 (size * nmemb)) (content.length - f.m_read_ptr))
    (hfit : f.m_read_ptr % BLOCKSIZE + n ≤ BLOCKSIZE) :
    ∃ f₁, f.Fread size nmemb = .ok (((content.drop f.m_read_ptr).take n, n), f₁) ∧
      Tracks f₁ before after content ∧ InStep f₁ before after content ∧
      f₁.m_read_ptr = f.m_read_ptr + n ∧
      (f₁.m_b_read_caused_eof = true ↔ f.m_b_read_caused_eof = true ∨
        content.length - f.m_read_ptr < u64 (size * nmemb)) := by
  rcases h.Fread_eq hs.le size nmemb with ⟨eof, hfread, heof⟩
  have hread : ReadOnly f { f with m_b_read_caused_eof := eof } := ⟨rfl, rfl, rfl, rfl, rfl⟩
  have htracks := h.readOnly hread
  rw [hfread, ← hn]
  cases Nat.eq_zero_or_pos n with
  | inl hzero =>
      refine ⟨{ f with m_b_read_caused_eof := eof }, ?_, htracks, ⟨hs.le, hs.block⟩, ?_, heof⟩
      · rw [hzero, LinkedFile.readBytes]
        rfl
      · rw [hzero]
        rfl
  | inr hpos =>
      have hlt : f.m_read_ptr < content.length := by omega
      have hbound := h.bound
      rcases hs.exists_block h hlt with ⟨k, hk, hin, hoff⟩
      have hlen : k * BLOCKSIZE + f.m_read_ptr % BLOCKSIZE + n ≤ content.length := by
        rw [hoff]
        omega
      rcases htracks.readBytes hk hin hpos hlen (by show f.m_read_ptr + n < _; omega) with
        ⟨a, k', hbytes, ha, hk'⟩
      rcases h.reads_end hin hlen hk' with ⟨hle, hstay, -⟩
      have hbytes : { f with m_b_read_caused_eof := eof }.readBytes n =
          .ok (((content.drop (k * BLOCKSIZE + f.m_read_ptr % BLOCKSIZE)).take n, n),
            { f with m_b_read_caused_eof := eof }.seek (some a) (f.m_read_ptr + n)) := hbytes
      rw [hoff] at hle hstay hbytes
      have hend : f.m_read_ptr + n ≤ content.length := by omega
      exact ⟨_, hbytes, htracks.readOnly (readOnly_seek _ (some a) _),
        ⟨hend, k', ⟨a, rfl, ha⟩, hle, hstay hfit⟩, rfl, heof⟩

end LinkedFile

end CommonCc
