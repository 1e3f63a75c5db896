import CommonCc.Lib.Blocks
import CommonCc.Lib.Linked
import CommonCc.Lib.Transition
import CommonCc.Utils.MemFile.Linked

/-!
# The chain of blocks of a `MemFile`

The chain may go on behind the block that is written.  What is in these blocks is left from what
was written before `ResetWrite`.
-/

namespace CommonCc

open Memory

namespace LinkedFile

variable {raw : Nat → Nat → UInt8} {f f₁ f₂ : LinkedFile} {before before' after after' : List Nat}
  {content src : Bytes}

/-! ## The chain -/

/-- The blocks from `m_base` on: those before the one that is written, and those behind it. -/
structure Chained (f : LinkedFile) (before after : List Nat) : Prop where
  size : ∀ a, (f.data a).size = BLOCKSIZE
  linked : Linked f.next (some 0) (before ++ f.m_current_write :: after)
  nodup : (before ++ f.m_current_write :: after).Nodup
  made : ∀ a ∈ before ++ f.m_current_write :: after, a < f.fresh

theorem chained_new (raw : Nat → Nat → UInt8) : Chained (new raw) [] [] where
  size _ := rfl
  linked := ⟨rfl, rfl⟩
  nodup := List.nodup_singleton 0
  made a ha := by
    rw [List.mem_singleton.mp ha]
    exact Nat.one_pos

/-- A block of the same chain is written. -/
theorem Chained.select (h : Chained f before after) (hheap : f₁.heap = f.heap)
    (hfresh : f₁.fresh = f.fresh)
    (hchain : before' ++ f₁.m_current_write :: after' = before ++ f.m_current_write :: after) :
    Chained f₁ before' after' where
  size a := by
    rw [data, hheap]
    exact h.size a
  linked := by
    have hnext : f₁.next = f.next := funext fun a => by rw [next, hheap, next]
    rw [hnext, hchain]
    exact h.linked
  nodup := by
    rw [hchain]
    exact h.nodup
  made := by
    rw [hfresh, hchain]
    exact h.made

/-- The blocks of the chain up to the one that is written. -/
def written (f : LinkedFile) (before : List Nat) : List Nat := before ++ [f.m_current_write]

theorem written_length (f : LinkedFile) (before : List Nat) :
    (f.written before).length = before.length + 1 := by
  rw [written, List.length_append, List.length_singleton]

theorem written_sublist (f : LinkedFile) (before after : List Nat) :
    List.Sublist (f.written before) (before ++ f.m_current_write :: after) :=
  List.Sublist.append (List.Sublist.refl before) (List.singleton_sublist.mpr List.mem_cons_self)

theorem Chained.made_written (h : Chained f before after) : ∀ a ∈ f.written before, a < f.fresh :=
  fun a ha => h.made a ((written_sublist f before after).subset ha)

theorem Chained.current_lt (h : Chained f before after) : f.m_current_write < f.fresh :=
  h.made_written _ (List.mem_append_right _ (List.mem_singleton_self _))

theorem Chained.current_notMem (h : Chained f before after) : f.m_current_write ∉ before := by
  intro hmem
  exact (List.nodup_append.mp h.nodup).2.2 _ hmem _ List.mem_cons_self rfl

theorem Chained.next_current (h : Chained f before after) :
    f.next f.m_current_write = after.head? := h.linked.next_eq

theorem Chained.exists_base (h : Chained f before after) :
    ∃ rest, before ++ f.m_current_write :: after = 0 :: rest := by
  have hhead := h.linked.head
  cases hchain : before ++ f.m_current_write :: after with
  | nil =>
      rw [hchain] at hhead
      cases hhead
  | cons a rest =>
      rw [hchain] at hhead
      cases hhead
      exact ⟨rest, rfl⟩

theorem Chained.ResetWrite (h : Chained f before after) : ∃ rest, Chained f.ResetWrite [] rest := by
  rcases h.exists_base with ⟨rest, hchain⟩
  exact ⟨rest, h.select rfl rfl hchain.symm⟩

/-! ## Steps of the writer -/

/-- The file after `memcpy` into the block that is written. -/
def fill (f : LinkedFile) (off : Nat) (src : Bytes) : LinkedFile :=
  { f with
    heap := Function.update f.heap f.m_current_write
      { f.heap f.m_current_write with data := (f.data f.m_current_write).write off src }
    m_write_ptr := u64 (f.m_write_ptr + src.length) }

theorem copyIn_iff {off : Nat} :
    f.copyIn off src = .ok f₁ ↔
      off + src.length ≤ (f.data f.m_current_write).size ∧ f₁ = f.fill off src := by
  unfold copyIn store
  split
  · next hnone => simp_all
  · next data hsome =>
    by_cases hfit : off + src.length ≤ (f.data f.m_current_write).size
    · rw [if_pos hfit] at hsome
      cases hsome
      constructor
      · intro h
        cases h
        exact ⟨hfit, rfl⟩
      · rintro ⟨-, rfl⟩
        rfl
    · rw [if_neg hfit] at hsome
      cases hsome

@[simp] theorem fill_next (f : LinkedFile) (off : Nat) (src : Bytes) :
    (f.fill off src).next = f.next := by
  funext a
  by_cases ha : a = f.m_current_write
  · rw [ha]
    show (Function.update f.heap f.m_current_write _ f.m_current_write).next = _
    rw [Function.update_self]
    rfl
  · show (Function.update f.heap f.m_current_write _ a).next = _
    rw [Function.update_of_ne ha]
    rfl

theorem fill_data_self (f : LinkedFile) (off : Nat) (src : Bytes) :
    (f.fill off src).data f.m_current_write = (f.data f.m_current_write).write off src := by
  show (Function.update f.heap f.m_current_write _ f.m_current_write).data = _
  rw [Function.update_self]

theorem fill_data_of_ne {a : Nat} (ha : a ≠ f.m_current_write) (off : Nat) (src : Bytes) :
    (f.fill off src).data a = f.data a := by
  show (Function.update f.heap f.m_current_write _ a).data = _
  rw [Function.update_of_ne ha]
  rfl

theorem Chained.fill (h : Chained f before after) (off : Nat) (src : Bytes) :
    Chained (f.fill off src) before after where
  size a := by
    by_cases ha : a = f.m_current_write
    · rw [ha, fill_data_self, write_size, h.size]
    · rw [fill_data_of_ne ha, h.size]
  linked := by
    rw [fill_next]
    exact h.linked
  nodup := h.nodup
  made := h.made

/-- `f₁` goes on in the block behind the one that `f` writes. -/
structure Moves (f f₁ : LinkedFile) : Prop where
  data : ∀ a, a < f.fresh → f₁.data a = f.data a
  writePtr : f₁.m_write_ptr = f.m_write_ptr
  writeNr : f₁.m_current_write_nr = f.m_current_write_nr + 1
  readPtr : f₁.m_read_ptr = f.m_read_ptr
  currentRead : f₁.m_current_read = f.m_current_read
  eof : f₁.m_b_read_caused_eof = f.m_b_read_caused_eof

theorem addBlock_heap_of_ne {a : Nat} (ha : a ≠ f.m_current_write) (hfresh : a ≠ f.fresh) :
    (f.addBlock raw).heap a = f.heap a := by
  show Function.update (Function.update f.heap f.fresh _) f.m_current_write _ a = _
  rw [Function.update_of_ne ha, Function.update_of_ne hfresh]

theorem addBlock_next_current (f : LinkedFile) :
    (f.addBlock raw).next f.m_current_write = some f.fresh := by
  show (Function.update (Function.update f.heap f.fresh _) f.m_current_write _
    f.m_current_write).next = _
  rw [Function.update_self]

theorem addBlock_heap_fresh (raw : Nat → Nat → UInt8) (hne : f.fresh ≠ f.m_current_write) :
    (f.addBlock raw).heap f.fresh = newBlock raw f.fresh := by
  show Function.update (Function.update f.heap f.fresh _) f.m_current_write _ f.fresh = _
  rw [Function.update_of_ne hne, Function.update_self]

theorem addBlock_data_current (hne : f.m_current_write ≠ f.fresh) :
    (f.addBlock raw).data f.m_current_write = f.data f.m_current_write := by
  show (Function.update (Function.update f.heap f.fresh _) f.m_current_write _
    f.m_current_write).data = _
  rw [Function.update_self, Function.update_of_ne hne]
  rfl

theorem Chained.addBlock (h : Chained f before after) (raw : Nat → Nat → UInt8) :
    Chained (f.addBlock raw) (f.written before) [] ∧ Moves f (f.addBlock raw) := by
  have hlt := h.current_lt
  have hmade := h.made_written
  have hdata : ∀ a, a < f.fresh → (f.addBlock raw).data a = f.data a := by
    intro a ha
    by_cases hcur : a = f.m_current_write
    · rw [hcur, addBlock_data_current (Nat.ne_of_lt hlt)]
    · rw [data, addBlock_heap_of_ne hcur (Nat.ne_of_lt ha), data]
  have hfresh := addBlock_heap_fresh raw (Nat.ne_of_gt hlt)
  constructor
  · exact {
      size := by
        intro a
        by_cases ha : a = f.fresh
        · rw [ha, data, hfresh]
          rfl
        by_cases hcur : a = f.m_current_write
        · rw [hcur, hdata _ hlt, h.size]
        · rw [data, addBlock_heap_of_ne hcur ha]
          exact h.size a
      linked := by
        rw [written, List.append_assoc]
        refine h.linked.turn ?_ ⟨addBlock_next_current f, ?_⟩
        · intro a ha
          have hcur : a ≠ f.m_current_write := by
            rintro rfl
            exact h.current_notMem ha
          have hold := hmade a (List.mem_append_left _ ha)
          rw [next, addBlock_heap_of_ne hcur (Nat.ne_of_lt hold), next]
        · show (f.addBlock raw).next f.fresh = none
          rw [next, hfresh]
          rfl
      nodup := by
        refine List.nodup_append.mpr
          ⟨h.nodup.sublist (written_sublist f before after), List.nodup_singleton _, ?_⟩
        intro a ha b hb
        rw [List.mem_singleton.mp hb]
        exact Nat.ne_of_lt (hmade a ha)
      made := by
        intro a ha
        show a < f.fresh + 1
        cases List.mem_append.mp ha with
        | inl hold => exact Nat.lt_succ_of_lt (hmade a hold)
        | inr hnew =>
            rw [List.mem_singleton.mp hnew]
            exact Nat.lt_succ_self _ }
  · exact ⟨hdata, rfl, rfl, rfl, rfl, rfl⟩

theorem Chained.nextWrite (h : Chained f before after) (raw : Nat → Nat → UInt8) :
    Chained (f.nextWrite raw) (f.written before) after.tail ∧
      Moves f (f.nextWrite raw) := by
  have hnext := h.next_current
  unfold LinkedFile.nextWrite
  cases after with
  | nil =>
      rw [hnext]
      exact h.addBlock raw
  | cons a after =>
      rw [hnext]
      constructor
      · refine h.select rfl rfl ?_
        rw [written, List.append_assoc]
        rfl
      · exact ⟨fun _ _ => rfl, rfl, rfl, rfl, rfl, rfl⟩

/-! ## Calls keep the chain -/

/-- The block that is written is in the chain that starts at `m_base`. -/
def Sound (f : LinkedFile) : Prop := ∃ before after, Chained f before after

/-- What the calls that read leave alone. -/
structure ReadOnly (f f₁ : LinkedFile) : Prop where
  heap : f₁.heap = f.heap
  fresh : f₁.fresh = f.fresh
  currentWrite : f₁.m_current_write = f.m_current_write
  writeNr : f₁.m_current_write_nr = f.m_current_write_nr
  writePtr : f₁.m_write_ptr = f.m_write_ptr

theorem ReadOnly.refl (f : LinkedFile) : ReadOnly f f := ⟨rfl, rfl, rfl, rfl, rfl⟩

theorem ReadOnly.trans (h : ReadOnly f f₁) (h' : ReadOnly f₁ f₂) : ReadOnly f f₂ where
  heap := h'.heap.trans h.heap
  fresh := h'.fresh.trans h.fresh
  currentWrite := h'.currentWrite.trans h.currentWrite
  writeNr := h'.writeNr.trans h.writeNr
  writePtr := h'.writePtr.trans h.writePtr

theorem Chained.readOnly (h : Chained f before after) (hread : ReadOnly f f₁) :
    Chained f₁ before after :=
  h.select hread.heap hread.fresh (by rw [hread.currentWrite])

theorem Sound.readOnly (h : Sound f) (hread : ReadOnly f f₁) : Sound f₁ := by
  rcases h with ⟨before, after, h⟩
  exact ⟨before, after, h.readOnly hread⟩

/-- The file with its reader at another place. -/
def seek (f : LinkedFile) (current : Option Nat) (ptr : Nat) : LinkedFile :=
  { f with m_current_read := current, m_read_ptr := ptr }

@[simp] theorem seek_seek (f : LinkedFile) (current current' : Option Nat) (ptr ptr' : Nat) :
    (f.seek current ptr).seek current' ptr' = f.seek current' ptr' := rfl

@[simp] theorem seek_currentRead (f : LinkedFile) (current : Option Nat) (ptr : Nat) :
    (f.seek current ptr).m_current_read = current := rfl

@[simp] theorem seek_readPtr (f : LinkedFile) (current : Option Nat) (ptr : Nat) :
    (f.seek current ptr).m_read_ptr = ptr := rfl

theorem readOnly_seek (f : LinkedFile) (current : Option Nat) (ptr : Nat) :
    ReadOnly f (f.seek current ptr) := ⟨rfl, rfl, rfl, rfl, rfl⟩

theorem copyOut_iff {off n : Nat} {bytes : Bytes} :
    f.copyOut off n = .ok (bytes, f₁) ↔
      ∃ a, f.m_current_read = some a ∧ off + n ≤ (f.data a).size ∧
        bytes = (f.data a).read off n ∧ f₁ = f.seek f.m_current_read (u64 (f.m_read_ptr + n)) := by
  unfold copyOut
  cases hcur : f.m_current_read with
  | none => simp
  | some a =>
      by_cases hfit : off + n ≤ (f.data a).size
      · have hload := load_eq_some (f.data a) hfit
        constructor
        · intro h
          simp only [hload] at h
          cases h
          exact ⟨a, rfl, hfit, rfl, by rw [← hcur]; rfl⟩
        · rintro ⟨b, hb, -, rfl, rfl⟩
          cases hb
          simp only [hload, ← hcur]
          rfl
      · have hload : (f.data a).load off n = none := if_neg hfit
        constructor
        · intro h
          simp only [hload] at h
          cases h
        · rintro ⟨b, hb, hfit', -, -⟩
          cases hb
          exact absurd hfit' hfit

theorem copyOut_readOnly {off n : Nat} {r : Bytes × LinkedFile} (h : f.copyOut off n = .ok r) :
    ReadOnly f r.2 := by
  rcases copyOut_iff.mp h with ⟨a, -, -, -, hr⟩
  rw [hr]
  exact readOnly_seek f _ _

section Blocks

variable {sz sz1 sz2 b : Nat} {ptr bytes : Bytes}

theorem freadBlocks_end (hnext : f.nextRead = none) :
    freadBlocks sz f ptr sz1 sz2 = .ok ((ptr, sz1), f) := by
  rw [freadBlocks, hnext]
  exact ite_self _

theorem freadBlocks_block (hnext : f.nextRead = some b) (hlong : BLOCKSIZE < sz2)
    (hcopy : (f.seek (some b) f.m_read_ptr).copyOut 0 BLOCKSIZE = .ok (bytes, f₁)) :
    freadBlocks sz f ptr sz1 sz2 =
      freadBlocks sz f₁ (ptr ++ bytes) (sz1 + BLOCKSIZE) (sz2 - BLOCKSIZE) := by
  have hgo : { f with m_current_read := some b } = f.seek (some b) f.m_read_ptr := rfl
  rw [freadBlocks, dif_pos hlong, hnext, if_pos Option.isSome_some, hgo, hcopy]

theorem freadBlocks_last (hnext : f.nextRead = some b) (hshort : ¬ BLOCKSIZE < sz2)
    (hcopy : (f.seek (some b) f.m_read_ptr).copyOut 0 sz2 = .ok (bytes, f₁)) :
    freadBlocks sz f ptr sz1 sz2 = .ok ((ptr ++ bytes, sz), f₁) := by
  have hgo : { f with m_current_read := some b } = f.seek (some b) f.m_read_ptr := rfl
  rw [freadBlocks, dif_neg hshort, hnext, if_pos Option.isSome_some, hgo, hcopy]

end Blocks

theorem freadBlocks_readOnly {sz sz1 sz2 : Nat} {ptr : Bytes} {r : (Bytes × Nat) × LinkedFile}
    (h : freadBlocks sz f ptr sz1 sz2 = .ok r) : ReadOnly f r.2 := by
  induction sz2 using Nat.strongRecOn generalizing f ptr sz1 with
  | ind sz2 ih =>
      have hpos := blocksize_pos
      have hnext : ReadOnly f { f with m_current_read := f.nextRead } := readOnly_seek f _ _
      rw [freadBlocks] at h
      split at h
      · next hlong =>
        split at h
        · split at h
          · cases h
          · next hcopy =>
            exact (hnext.trans (copyOut_readOnly hcopy)).trans (ih (sz2 - BLOCKSIZE) (by omega) h)
        · cases h
          exact .refl f
      · split at h
        · split at h
          · cases h
          · next hcopy =>
            cases h
            exact hnext.trans (copyOut_readOnly hcopy)
        · cases h
          exact .refl f

theorem readBytes_zero (f : LinkedFile) : f.readBytes 0 = .ok (([], 0), f) := by
  rw [LinkedFile.readBytes]
  exact if_pos rfl

theorem readBytes_none {n : Nat} (hcur : f.m_current_read = none) (hn : 0 < n) :
    f.readBytes n = .error .outOfBounds := by
  have hcopy : ∀ off n, f.copyOut off n = .error .outOfBounds := by
    intro off n
    rw [LinkedFile.copyOut, hcur]
  rw [LinkedFile.readBytes, if_neg (Nat.ne_of_gt hn)]
  split
  · rw [hcopy]
  · dsimp only
    rw [hcopy]

theorem readBytes_readOnly {sz : Nat} {r : (Bytes × Nat) × LinkedFile}
    (h : f.readBytes sz = .ok r) : ReadOnly f r.2 := by
  unfold readBytes at h
  dsimp only at h
  split at h
  · cases h
    exact .refl f
  split at h
  · split at h
    · cases h
    · next hcopy =>
      cases h
      exact copyOut_readOnly hcopy
  · split at h
    · cases h
    · next hcopy => exact (copyOut_readOnly hcopy).trans (freadBlocks_readOnly h)

theorem Fread_readOnly {size nmemb : Nat} {r : (Bytes × Nat) × LinkedFile}
    (h : f.Fread size nmemb = .ok r) : ReadOnly f r.2 := by
  unfold Fread at h
  dsimp only at h
  split at h
  · have heof : ReadOnly f { f with m_b_read_caused_eof := true } := ⟨rfl, rfl, rfl, rfl, rfl⟩
    exact heof.trans (readBytes_readOnly h)
  · exact readBytes_readOnly h

/-! ## Calls that read -/

section Reads

variable {I : LinkedFile → Prop} {read : LinkedFile → Except Fault ((Bytes × Nat) × LinkedFile)}

theorem fgetsLoop_invariant (hread : ∀ f r, I f → read f = .ok r → I r.2) {size : Int} {fuel : Nat}
    {s : Bytes} {r : Bytes × LinkedFile} (hI : I f) (h : fgetsLoop read size fuel f s = .ok r) :
    I r.2 := by
  induction fuel generalizing f s with
  | zero => cases h
  | succ fuel ih =>
      rw [fgetsLoop] at h
      split at h
      · split at h
        · cases h
        · next hfread =>
          have hI₁ := hread f _ hI hfread
          split at h
          · exact ih hI₁ h
          split at h
          · cases h
            exact hI₁
          · exact ih hI₁ h
      · cases h
        exact hI

theorem saveLoop_invariant (hread : ∀ f r, I f → read f = .ok r → I r.2) {fuel : Nat} {fil : Bytes}
    {r : Bytes × LinkedFile} (hI : I f) (h : saveLoop read fuel f fil = .ok r) : I r.2 := by
  induction fuel generalizing f fil with
  | zero => cases h
  | succ fuel ih =>
      rw [saveLoop] at h
      split at h
      · cases h
      · next hfread =>
        have hI₁ := hread f _ hI hfread
        split at h
        · cases h
          exact hI₁
        · exact ih hI₁ h

/-- What every `Fread` keeps, `Fgets` keeps. -/
theorem Fgets_invariant (hread : ∀ f size nmemb r, I f → f.Fread size nmemb = .ok r → I r.2)
    {size : Int} {r : Bytes × LinkedFile} (hI : I f) (h : f.Fgets size = .ok r) : I r.2 := by
  unfold Fgets at h
  exact fgetsLoop_invariant (fun f r => hread f 1 1 r) hI h

/-- What every `Fread` keeps, `Save` keeps behind `ResetRead`. -/
theorem Save_invariant (hread : ∀ f size nmemb r, I f → f.Fread size nmemb = .ok r → I r.2)
    {opened : Bool} {r : Option Bytes × LinkedFile} (hI : I f) (hreset : I f.ResetRead)
    (h : f.Save opened = .ok r) : I r.2 := by
  unfold Save at h
  split at h
  · split at h
    · cases h
    · next hsave =>
      cases h
      exact saveLoop_invariant (fun f r => hread f 1 BLOCKSIZE r) hreset hsave
  · cases h
    exact hI

/-- What a call keeps of the file and its content, from what a read, `ResetRead` and each call that
writes keep. -/
theorem Contents.step_keeps {J : LinkedFile → Bytes → Prop} {s s' : Contents} {call : FileCall}
    (hread : ∀ f size nmemb r, J f s.content → f.Fread size nmemb = .ok r → J r.2 s.content)
    (hrewind : J s.file.ResetRead s.content)
    (hreset : call = .ResetWrite → J s.file.ResetWrite [])
    (hwrite : ∀ ptr size nmemb r, call = .Fwrite ptr size nmemb →
      s.file.Fwrite raw ptr size nmemb = .ok r → J r.2 (s.content ++ ptr.take r.1))
    (hload : ∀ fil r, call = .Load fil → s.file.Load raw fil = .ok r → J r.2 (fil.getD []))
    (hJ : J s.file s.content) (hstep : s.step raw call = .ok s') : J s'.file s'.content := by
  cases call with
  | Fread size nmemb =>
      rcases map_eq_ok.mp hstep with ⟨r, hr, rfl⟩
      exact hread _ _ _ _ hJ hr
  | Fwrite ptr size nmemb =>
      rcases map_eq_ok.mp hstep with ⟨r, hr, rfl⟩
      exact hwrite ptr size nmemb r rfl hr
  | Fgets size =>
      rcases map_eq_ok.mp hstep with ⟨r, hr, rfl⟩
      exact Fgets_invariant (I := fun f => J f s.content) hread hJ hr
  | ResetRead =>
      cases hstep
      exact hrewind
  | ResetWrite =>
      cases hstep
      exact hreset rfl
  | Load fil =>
      rcases map_eq_ok.mp hstep with ⟨r, hr, rfl⟩
      exact hload fil r rfl hr
  | Save opened =>
      rcases map_eq_ok.mp hstep with ⟨r, hr, rfl⟩
      exact Save_invariant (I := fun f => J f s.content) hread hJ hrewind hr

end Reads

/-! ## What all calls keep -/

/-- A property that the steps of the calls keep. -/
structure Kept (raw : Nat → Nat → UInt8) (I : LinkedFile → Prop) : Prop where
  readOnly : ∀ {f f₁}, I f → ReadOnly f f₁ → I f₁
  fill : ∀ {f}, I f → ∀ off src, I (f.fill off src)
  addBlock : ∀ {f}, I f → I (f.addBlock raw)
  nextWrite : ∀ {f}, I f → I (f.nextWrite raw)
  ResetWrite : ∀ {f}, I f → I f.ResetWrite

section Calls

variable {I : LinkedFile → Prop}

theorem Kept.Fread (hk : Kept raw I) (h : I f) {size nmemb : Nat} {r : (Bytes × Nat) × LinkedFile}
    (hread : f.Fread size nmemb = .ok r) : I r.2 := hk.readOnly h (Fread_readOnly hread)

theorem Kept.copyIn (hk : Kept raw I) (h : I f) {off : Nat} (hcopy : f.copyIn off src = .ok f₁) :
    I f₁ := by
  rw [(copyIn_iff.mp hcopy).2]
  exact hk.fill h off src

theorem Kept.fwriteBlocks (hk : Kept raw I) (h : I f) (hwrite : fwriteBlocks raw f src = .ok f₁) :
    I f₁ := by
  generalize hlen : src.length = n
  induction n using Nat.strongRecOn generalizing f src with
  | ind n ih =>
      rw [LinkedFile.fwriteBlocks] at hwrite
      split at hwrite
      · next hlong =>
        have hpos := blocksize_pos
        split at hwrite
        · cases hwrite
        · next hcopy =>
          have hshort : (src.drop BLOCKSIZE).length < n := by
            rw [List.length_drop]
            omega
          exact ih _ hshort (hk.copyIn (hk.nextWrite h) hcopy) hwrite rfl
      · exact hk.copyIn (hk.nextWrite h) hwrite

theorem Kept.Fwrite (hk : Kept raw I) (h : I f) {ptr : Bytes} {size nmemb : Nat}
    {r : Nat × LinkedFile} (hwrite : f.Fwrite raw ptr size nmemb = .ok r) : I r.2 := by
  have hroom : ∀ nr : Int, I (if f.m_current_write_nr < nr then f.addBlock raw else f) := by
    intro nr
    split
    · exact hk.addBlock h
    · exact h
  unfold LinkedFile.Fwrite at hwrite
  dsimp only at hwrite
  split at hwrite
  · cases hwrite
  split at hwrite
  · split at hwrite
    · cases hwrite
    · next hcopy =>
      cases hwrite
      exact hk.copyIn (hroom _) hcopy
  · split at hwrite
    · cases hwrite
    · next hcopy =>
      split at hwrite
      · cases hwrite
      · next hrest =>
        cases hwrite
        exact hk.fwriteBlocks (hk.copyIn (hroom _) hcopy) hrest

theorem Kept.loadBlocks (hk : Kept raw I) (h : I f) {fil : Bytes}
    (hload : loadBlocks raw f fil = .ok f₁) : I f₁ := by
  generalize hlen : fil.length = n
  induction n using Nat.strongRecOn generalizing f fil with
  | ind n ih =>
      rw [LinkedFile.loadBlocks] at hload
      split at hload
      · cases hload
        exact h
      · next hne =>
        have hpos := blocksize_pos
        have hsome := List.length_pos_of_ne_nil hne
        split at hload
        · cases hload
        · next hwrite =>
          have hshort : (fil.drop BLOCKSIZE).length < n := by
            rw [List.length_drop]
            omega
          exact ih _ hshort (hk.Fwrite h hwrite) hload rfl

theorem Kept.Load (hk : Kept raw I) (h : I f) {fil : Option Bytes} {r : Bool × LinkedFile}
    (hload : f.Load raw fil = .ok r) : I r.2 := by
  cases fil with
  | none =>
      cases hload
      exact hk.ResetWrite h
  | some fil =>
      rw [LinkedFile.Load] at hload
      split at hload
      · cases hload
      · next hloop =>
        cases hload
        exact hk.loadBlocks (hk.readOnly (hk.ResetWrite h) (readOnly_seek _ (some 0) _)) hloop

theorem Kept.made (hk : Kept raw I) (hnew : I (new raw)) {s : Contents} (h : Contents.Made raw s) :
    I s.file := by
  cases h with
  | new => exact hnew
  | fromPath h => exact hk.Load (hk.readOnly hnew (readOnly_seek _ none _)) h

/-- What the steps keep, every call keeps. -/
theorem Kept.step (hk : Kept raw I) {s s' : Contents} {call : FileCall} (h : I s.file)
    (hstep : s.step raw call = .ok s') : I s'.file :=
  Contents.step_keeps (J := fun f _ => I f) (fun _ _ _ _ h hread => hk.Fread h hread)
    (hk.readOnly h (readOnly_seek _ (some 0) 0)) (fun _ => hk.ResetWrite h)
    (fun _ _ _ _ _ hwrite => hk.Fwrite h hwrite) (fun _ _ _ hload => hk.Load h hload) h hstep

/-- What the steps keep holds at the end of every run. -/
theorem Kept.run (hk : Kept raw I) {s s' : Contents} {calls : List FileCall} (h : I s.file)
    (hrun : runSteps (Contents.next raw) s calls = some s') : I s'.file :=
  runSteps_preserves (I := fun s => I s.file) (fun _ _ _ h hs => hk.step h (ok_of_toOption hs)) h
    hrun

end Calls

theorem sound_kept (raw : Nat → Nat → UInt8) : Kept raw Sound where
  readOnly h hread := h.readOnly hread
  fill := by
    intro f h off src
    rcases h with ⟨before, after, h⟩
    exact ⟨before, after, h.fill off src⟩
  addBlock := by
    intro f h
    rcases h with ⟨before, after, h⟩
    exact ⟨_, _, (h.addBlock raw).1⟩
  nextWrite := by
    intro f h
    rcases h with ⟨before, after, h⟩
    exact ⟨_, _, (h.nextWrite raw).1⟩
  ResetWrite := by
    intro f h
    rcases h with ⟨before, after, h⟩
    rcases h.ResetWrite with ⟨rest, h⟩
    exact ⟨[], rest, h⟩

theorem sound_new (raw : Nat → Nat → UInt8) : Sound (new raw) := ⟨[], [], chained_new raw⟩

theorem Contents.Made.sound {s : Contents} (h : Contents.Made raw s) : Sound s.file :=
  (sound_kept raw).made (sound_new raw) h

/-- The number of the block that is written is its place in the chain. -/
structure Placed (f : LinkedFile) : Prop where
  chain : ∃ before after, Chained f before after ∧ f.m_current_write_nr = before.length
  writePtr : f.m_write_ptr < 18446744073709551616

theorem u64_lt (n : Nat) : u64 n < 18446744073709551616 := Nat.mod_lt n (by decide)

theorem placed_kept (raw : Nat → Nat → UInt8) : Kept raw Placed where
  readOnly := by
    intro f f₁ h hread
    rcases h with ⟨⟨before, after, h, hnr⟩, hptr⟩
    refine ⟨⟨before, after, h.readOnly hread, hread.writeNr.trans hnr⟩, ?_⟩
    rw [hread.writePtr]
    exact hptr
  fill := by
    intro f h off src
    rcases h with ⟨⟨before, after, h, hnr⟩, hptr⟩
    exact ⟨⟨before, after, h.fill off src, hnr⟩, u64_lt _⟩
  addBlock := by
    intro f h
    rcases h with ⟨⟨before, after, h, hnr⟩, hptr⟩
    rcases h.addBlock raw with ⟨hchain, hmoves⟩
    refine ⟨⟨_, _, hchain, ?_⟩, hptr⟩
    rw [hmoves.writeNr, hnr, written_length]
    rfl
  nextWrite := by
    intro f h
    rcases h with ⟨⟨before, after, h, hnr⟩, hptr⟩
    rcases h.nextWrite raw with ⟨hchain, hmoves⟩
    refine ⟨⟨_, _, hchain, ?_⟩, ?_⟩
    · rw [hmoves.writeNr, hnr, written_length]
      rfl
    · rw [hmoves.writePtr]
      exact hptr
  ResetWrite := by
    intro f h
    rcases h with ⟨⟨before, after, h, hnr⟩, hptr⟩
    rcases h.ResetWrite with ⟨rest, h⟩
    exact ⟨⟨[], rest, h, rfl⟩, Nat.two_pow_pos 64⟩

theorem placed_new (raw : Nat → Nat → UInt8) : Placed (new raw) :=
  ⟨⟨[], [], chained_new raw, rfl⟩, Nat.two_pow_pos 64⟩

theorem Placed.size (h : Placed f) (a : Nat) : (f.data a).size = BLOCKSIZE := by
  rcases h.chain with ⟨before, after, h, -⟩
  exact h.size a

theorem Placed.writeNr_nonneg (h : Placed f) : 0 ≤ f.m_current_write_nr := by
  rcases h.chain with ⟨before, after, -, hnr⟩
  rw [hnr]
  exact Int.natCast_nonneg _

/-- The first block has the number 0. -/
theorem Placed.writeNr_eq_zero (h : Placed f) (hcur : f.m_current_write = 0) :
    f.m_current_write_nr = 0 := by
  rcases h.chain with ⟨before, after, h, hnr⟩
  rcases h.exists_base with ⟨rest, hrest⟩
  cases before with
  | nil => exact hnr
  | cons a before =>
      have hhead : a = 0 := (List.cons.inj hrest).1
      have hmem := h.current_notMem
      rw [hcur, hhead] at hmem
      exact absurd List.mem_cons_self hmem

end LinkedFile

end CommonCc
