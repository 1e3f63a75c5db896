import CommonCc.Utils.MemFile.Answers
import CommonCc.Utils.MemFile.Tracks

/-!
# A reader without a block

`MemFile(path)` leaves `m_current_read` at NULL when the file cannot be opened.
-/

namespace CommonCc

open Memory

namespace LinkedFile

variable {raw : Nat → Nat → UInt8} {f g : LinkedFile}

/-! ## Writes do not look at the reader -/

theorem copyIn_seek (f : LinkedFile) (current : Option Nat) (pos off : Nat) (src : Bytes) :
    (f.seek current pos).copyIn off src = (f.copyIn off src).map fun f => f.seek current pos := by
  have hdata : (f.seek current pos).data (f.seek current pos).m_current_write =
      f.data f.m_current_write := rfl
  rw [copyIn, copyIn, hdata]
  cases (f.data f.m_current_write).store off src with
  | none => rfl
  | some data => rfl

theorem nextWrite_seek (raw : Nat → Nat → UInt8) (f : LinkedFile) (current : Option Nat)
    (pos : Nat) : (f.seek current pos).nextWrite raw = (f.nextWrite raw).seek current pos := by
  have hnext : (f.seek current pos).next (f.seek current pos).m_current_write =
      f.next f.m_current_write := rfl
  rw [nextWrite, nextWrite, hnext]
  cases f.next f.m_current_write with
  | none => rfl
  | some a => rfl

theorem fwriteBlocks_seek (raw : Nat → Nat → UInt8) (f : LinkedFile) (current : Option Nat)
    (pos : Nat) (src : Bytes) : fwriteBlocks raw (f.seek current pos) src =
      (fwriteBlocks raw f src).map fun f => f.seek current pos := by
  generalize hlen : src.length = n
  induction n using Nat.strongRecOn generalizing f src with
  | ind n ih =>
      rw [fwriteBlocks, fwriteBlocks, nextWrite_seek, copyIn_seek, copyIn_seek]
      split
      · next hlong =>
        have hpos := blocksize_pos
        cases (f.nextWrite raw).copyIn 0 (src.take BLOCKSIZE) with
        | error e => rfl
        | ok f₁ => exact ih _ (by rw [List.length_drop]; omega) f₁ _ rfl
      · rfl

theorem Fwrite_seek (raw : Nat → Nat → UInt8) (f : LinkedFile) (current : Option Nat) (pos : Nat)
    (ptr : Bytes) (size nmemb : Nat) : (f.seek current pos).Fwrite raw ptr size nmemb =
      (f.Fwrite raw ptr size nmemb).map fun r => (r.1, r.2.seek current pos) := by
  have hroom : (if (f.seek current pos).m_current_write_nr < (f.seek current pos).writeNr then
      (f.seek current pos).addBlock raw else f.seek current pos) =
      (if f.m_current_write_nr < f.writeNr then f.addBlock raw else f).seek current pos := by
    have hnr : (f.seek current pos).m_current_write_nr < (f.seek current pos).writeNr ↔
        f.m_current_write_nr < f.writeNr := Iff.rfl
    by_cases hless : f.m_current_write_nr < f.writeNr
    · rw [if_pos (hnr.mpr hless), if_pos hless]
      rfl
    · rw [if_neg (fun h => hless (hnr.mp h)), if_neg hless]
  have hptr : (f.seek current pos).m_write_ptr = f.m_write_ptr := rfl
  rw [LinkedFile.Fwrite, LinkedFile.Fwrite, hptr]
  dsimp only
  rw [hroom]
  generalize (if f.m_current_write_nr < f.writeNr then f.addBlock raw else f) = f₁
  rw [copyIn_seek, copyIn_seek]
  split
  · rfl
  split
  · cases f₁.copyIn (f.m_write_ptr % BLOCKSIZE) (ptr.take (u64 (size * nmemb))) with
    | error e => rfl
    | ok f₂ => rfl
  · cases f₁.copyIn (f.m_write_ptr % BLOCKSIZE)
      ((ptr.take (u64 (size * nmemb))).take (BLOCKSIZE - f.m_write_ptr % BLOCKSIZE)) with
    | error e => rfl
    | ok f₂ =>
        dsimp only [Except.map]
        rw [fwriteBlocks_seek]
        cases fwriteBlocks raw f₂ ((ptr.take (u64 (size * nmemb))).drop
          (BLOCKSIZE - f.m_write_ptr % BLOCKSIZE)) with
        | error e => rfl
        | ok f₃ => rfl

/-! ## Reads -/

/-- `Fread` when there is nothing to read. -/
theorem Fread_nothing {size nmemb : Nat} (hptr : f.m_read_ptr = 0)
    (hbound : f.m_write_ptr < 18446744073709551616)
    (hnone : u64 (size * nmemb) = 0 ∨ f.m_write_ptr = 0) :
    f.Fread size nmemb = .ok (([], 0), { f with
      m_b_read_caused_eof := f.m_b_read_caused_eof || decide (u64 (size * nmemb) ≠ 0) }) := by
  have hsub : u64Sub f.m_write_ptr f.m_read_ptr = f.m_write_ptr := by
    rw [u64Sub_of_le (by rw [hptr]; exact Nat.zero_le _) hbound, hptr, Nat.sub_zero]
  rw [LinkedFile.Fread, hsub]
  generalize u64 (size * nmemb) = sz at *
  by_cases hzero : sz = 0
  · rw [if_neg (by omega), hzero, readBytes_zero]
    simp
  · have hempty : f.m_write_ptr = 0 := hnone.resolve_left hzero
    rw [if_pos (by omega), hempty, readBytes_zero]
    simp [hzero]

/-- A reader on a block can read within the block. -/
theorem copyOut_total {a off n : Nat} (hsize : ∀ a, (f.data a).size = BLOCKSIZE)
    (hcur : f.m_current_read = some a) (hfit : off + n ≤ BLOCKSIZE) :
    f.copyOut off n =
      .ok ((f.data a).read off n, f.seek (some a) (u64 (f.m_read_ptr + n))) := by
  refine copyOut_iff.mpr ⟨a, hcur, ?_, rfl, by rw [hcur]⟩
  rw [hsize]
  exact hfit

theorem freadBlocks_total {a sz sz1 sz2 : Nat} {ptr : Bytes}
    (hsize : ∀ a, (f.data a).size = BLOCKSIZE) (hcur : f.m_current_read = some a) :
    ∃ r b, freadBlocks sz f ptr sz1 sz2 = .ok r ∧ r.2.m_current_read = some b := by
  induction sz2 using Nat.strongRecOn generalizing f a sz1 ptr with
  | ind sz2 ih =>
      have hpos := blocksize_pos
      cases hnext : f.nextRead with
      | none => exact ⟨_, a, freadBlocks_end hnext, hcur⟩
      | some b =>
          have hnew : ∀ c, ((f.seek (some b) f.m_read_ptr).data c).size = BLOCKSIZE := hsize
          by_cases hlong : BLOCKSIZE < sz2
          · have hcopy := @copyOut_total _ b 0 BLOCKSIZE hnew rfl (by omega)
            rw [freadBlocks_block hnext hlong hcopy]
            have hrest := @ih (sz2 - BLOCKSIZE) (by omega)
              ((f.seek (some b) f.m_read_ptr).seek (some b) (u64 (f.m_read_ptr + BLOCKSIZE))) b
              (sz1 + BLOCKSIZE)
            exact hrest hsize rfl
          · have hcopy := @copyOut_total _ b 0 sz2 hnew rfl (by omega)
            exact ⟨_, b, freadBlocks_last hnext hlong hcopy, rfl⟩

/-- A reader on a block does not fault. -/
theorem readBytes_total {a n : Nat} (hsize : ∀ a, (f.data a).size = BLOCKSIZE)
    (hcur : f.m_current_read = some a)
    (hfit : f.m_read_ptr % BLOCKSIZE + n < 18446744073709551616) :
    ∃ r b, f.readBytes n = .ok r ∧ r.2.m_current_read = some b := by
  have hmod := Nat.mod_lt f.m_read_ptr blocksize_pos
  have hsum : u64 (f.m_read_ptr % BLOCKSIZE + n) = f.m_read_ptr % BLOCKSIZE + n :=
    Nat.mod_eq_of_lt hfit
  rw [LinkedFile.readBytes]
  dsimp only
  rw [hsum]
  split
  · exact ⟨_, a, rfl, hcur⟩
  split
  · next hinside =>
    rw [copyOut_total hsize hcur (Nat.le_of_lt hinside)]
    exact ⟨_, a, rfl, rfl⟩
  · rw [copyOut_total hsize hcur (by omega)]
    exact @freadBlocks_total (f.seek (some a) _) a _ _ _ _ hsize rfl

theorem Fread_total {a size nmemb : Nat} (hsize : ∀ a, (f.data a).size = BLOCKSIZE)
    (hcur : f.m_current_read = some a)
    (hfit : f.m_read_ptr % BLOCKSIZE + u64 (size * nmemb) < 18446744073709551616) :
    ∃ r b, f.Fread size nmemb = .ok r ∧ r.2.m_current_read = some b := by
  rw [LinkedFile.Fread]
  split
  · next hless =>
    exact @readBytes_total { f with m_b_read_caused_eof := true } a _ hsize hcur
      (Nat.lt_trans (Nat.add_lt_add_left hless _) hfit)
  · exact readBytes_total hsize hcur hfit

/-- What may fault in `Fgets` is a read. -/
theorem fgetsLoop_total {read : LinkedFile → Except Fault ((Bytes × Nat) × LinkedFile)}
    {I : LinkedFile → Prop} (hread : ∀ f, I f → ∃ r, read f = .ok r ∧ I r.2) {size : Int}
    {fuel : Nat} {s : Bytes} {e : Fault} (hI : I f) (h : fgetsLoop read size fuel f s = .error e) :
    e = .diverges := by
  induction fuel generalizing f s with
  | zero =>
      cases h
      rfl
  | succ fuel ih =>
      rcases hread f hI with ⟨r, hr, hI₁⟩
      rw [fgetsLoop, hr] at h
      split at h
      · dsimp only at h
        split at h
        · exact ih hI₁ h
        split at h
        · cases h
        · exact ih hI₁ h
      · cases h

theorem Placed.Fgets_total (h : Placed f) {a : Nat} (hcur : f.m_current_read = some a) {size : Int}
    {e : Fault} (hread : f.Fgets size = .error e) : e = .diverges := by
  unfold Fgets at hread
  refine fgetsLoop_total (I := fun f => (∀ a, (f.data a).size = BLOCKSIZE) ∧
    ∃ a, f.m_current_read = some a) ?_ ⟨h.size, a, hcur⟩ hread
  intro f hI
  rcases hI with ⟨hsize, a, hcur⟩
  have hone : u64 (1 * 1) = 1 := rfl
  have hmod := Nat.mod_lt f.m_read_ptr blocksize_pos
  have hblock : BLOCKSIZE < 18446744073709551616 := by decide
  rcases @Fread_total f a 1 1 hsize hcur (by rw [hone]; omega) with ⟨r, b, hr, hb⟩
  refine ⟨r, hr, ?_, b, hb⟩
  intro c
  rw [data, (Fread_readOnly hr).heap]
  exact hsize c

/-! ## A reader at NULL and one at `m_base` -/

/-- A query that sets `m_current_read` to `m_base`. -/
def Query.Rewinds : Query → Prop
  | .call .ResetRead => True
  | .call (.Load (some _)) => True
  | .call (.Save true) => True
  | _ => False

/-- At the position 0 there is a byte that the query reads. -/
def Takes (f : LinkedFile) : Query → Prop
  | .call (.Fread size nmemb) => u64 (size * nmemb) ≠ 0 ∧ f.m_write_ptr ≠ 0
  | .call (.Fgets size) => 1 < size ∧ f.m_b_read_caused_eof = false ∧ f.m_write_ptr ≠ 0
  | _ => False

/-- Nothing has been read, and the reader of `g` is on no block. -/
def NullPair (f g : LinkedFile) : Prop :=
  ∃ h : LinkedFile, f = h.seek (some 0) 0 ∧ g = h.seek none 0 ∧ Placed h

theorem NullPair.ask_of_rewinds (h : NullPair f g) {q : Query} (hq : q.Rewinds) :
    g.ask raw q = f.ask raw q := by
  rcases h with ⟨h, rfl, rfl, -⟩
  cases q with
  | call call =>
      cases call with
      | ResetRead => rfl
      | Load fil =>
          cases fil with
          | none => exact hq.elim
          | some fil => rfl
      | Save opened =>
          cases opened with
          | false => exact hq.elim
          | true =>
              have hreset : (h.seek none 0).ResetRead = (h.seek (some 0) 0).ResetRead := rfl
              have hptr : (h.seek none 0).m_write_ptr = (h.seek (some 0) 0).m_write_ptr := rfl
              rw [LinkedFile.ask, LinkedFile.ask, LinkedFile.Save, LinkedFile.Save, if_pos rfl,
                if_pos rfl, hreset, hptr]
      | _ => exact hq.elim
  | _ => exact hq.elim

/-- With nothing to read, the flag is all that a read changes. -/
theorem NullPair.Fread (h : NullPair f g) {size nmemb : Nat}
    (hnone : u64 (size * nmemb) = 0 ∨ f.m_write_ptr = 0) :
    SameAnswer (fun f₁ g₁ => NullPair f₁ g₁ ∧ f₁.m_write_ptr = f.m_write_ptr)
      (f.Fread size nmemb) (g.Fread size nmemb) := by
  rcases h with ⟨h, rfl, rfl, hplaced⟩
  rw [@Fread_nothing (h.seek (some 0) 0) size nmemb rfl hplaced.writePtr hnone,
    @Fread_nothing (h.seek none 0) size nmemb rfl hplaced.writePtr hnone]
  refine .ok ⟨⟨{ h with m_b_read_caused_eof :=
    h.m_b_read_caused_eof || decide (u64 (size * nmemb) ≠ 0) }, rfl, rfl, ?_⟩, rfl⟩
  exact (placed_kept fun _ _ => 0).readOnly hplaced ⟨rfl, rfl, rfl, rfl, rfl⟩

theorem fgetsLoop_stop {read : LinkedFile → Except Fault ((Bytes × Nat) × LinkedFile)} {size : Int}
    {fuel : Nat} (hstop : ¬ (([] : Bytes).length < size - 1 ∧ f.m_b_read_caused_eof = false)) :
    fgetsLoop read size (fuel + 1) f [] = .ok ([], f) := by
  rw [fgetsLoop]
  exact if_neg hstop

theorem NullPair.Fgets (h : NullPair f g) {size : Int}
    (hnone : ¬ (1 < size ∧ f.m_b_read_caused_eof = false ∧ f.m_write_ptr ≠ 0)) :
    SameAnswer NullPair (f.Fgets size) (g.Fgets size) := by
  by_cases hgo : ([] : Bytes).length < size - 1 ∧ f.m_b_read_caused_eof = false
  · have hempty : f.m_write_ptr = 0 := by
      by_contra hsome
      have hroom := hgo.1
      rw [List.length_nil] at hroom
      exact hnone ⟨by omega, hgo.2, hsome⟩
    have heof : ∀ f g, NullPair f g ∧ f.m_write_ptr = 0 →
        g.m_b_read_caused_eof = f.m_b_read_caused_eof := by
      intro f g hpair
      rcases hpair with ⟨⟨h, rfl, rfl, -⟩, -⟩
      rfl
    have hread : ∀ f g, NullPair f g ∧ f.m_write_ptr = 0 →
        SameAnswer (fun f g => NullPair f g ∧ f.m_write_ptr = 0) (f.Fread 1 1) (g.Fread 1 1) := by
      intro f g hpair
      exact (hpair.1.Fread (.inr hpair.2)).mono fun f₁ g₁ h₁ => ⟨h₁.1, h₁.2.trans hpair.2⟩
    exact (fgetsLoop_same heof hread ⟨h, hempty⟩ size _ []).mono fun _ _ h => h.1
  · have hgo' : ¬ (([] : Bytes).length < size - 1 ∧ g.m_b_read_caused_eof = false) := by
      rcases h with ⟨h, rfl, rfl, -⟩
      exact hgo
    rw [LinkedFile.Fgets, LinkedFile.Fgets, fgetsLoop_stop hgo, fgetsLoop_stop hgo']
    exact .ok h

theorem NullPair.ask_of_not_takes (h : NullPair f g) {q : Query} (hq : ¬ q.Rewinds)
    (hno : ¬ f.Takes q) : SameAnswer NullPair (f.ask raw q) (g.ask raw q) := by
  cases q with
  | call call =>
      cases call with
      | Fread size nmemb =>
          have hnone : u64 (size * nmemb) = 0 ∨ f.m_write_ptr = 0 := by
            by_contra hsome
            exact hno (not_or.mp hsome)
          exact ((h.Fread hnone).mono fun _ _ h => h.1).map fun r => Answer.read r.1 r.2
      | Fgets size => exact (h.Fgets hno).map Answer.line
      | Fwrite ptr size nmemb =>
          rcases h with ⟨h, rfl, rfl, hplaced⟩
          rw [LinkedFile.ask, LinkedFile.ask, Fwrite_seek, Fwrite_seek]
          cases hwrite : h.Fwrite raw ptr size nmemb with
          | error e => exact .error e
          | ok r => exact .ok ⟨r.2, rfl, rfl, (placed_kept raw).Fwrite hplaced hwrite⟩
      | ResetRead => exact absurd trivial hq
      | ResetWrite =>
          rcases h with ⟨h, rfl, rfl, hplaced⟩
          exact .ok ⟨h.ResetWrite, rfl, rfl, (placed_kept raw).ResetWrite hplaced⟩
      | Load fil =>
          cases fil with
          | none =>
              rcases h with ⟨h, rfl, rfl, hplaced⟩
              exact .ok ⟨h.ResetWrite, rfl, rfl, (placed_kept raw).ResetWrite hplaced⟩
          | some fil => exact absurd trivial hq
      | Save opened =>
          cases opened with
          | false => exact .ok h
          | true => exact absurd trivial hq
  | Size =>
      rcases h with ⟨h, rfl, rfl, hplaced⟩
      exact .ok ⟨h, rfl, rfl, hplaced⟩
  | Eof =>
      rcases h with ⟨h, rfl, rfl, hplaced⟩
      exact .ok ⟨h, rfl, rfl, hplaced⟩

theorem Fread_null {size nmemb : Nat} (hcur : f.m_current_read = none) (hptr : f.m_read_ptr = 0)
    (hbound : f.m_write_ptr < 18446744073709551616) (hsz : u64 (size * nmemb) ≠ 0)
    (hsome : f.m_write_ptr ≠ 0) : f.Fread size nmemb = .error .outOfBounds := by
  have hsub : u64Sub f.m_write_ptr f.m_read_ptr = f.m_write_ptr := by
    rw [u64Sub_of_le (by rw [hptr]; exact Nat.zero_le _) hbound, hptr, Nat.sub_zero]
  rw [LinkedFile.Fread, hsub]
  split
  · exact @readBytes_none { f with m_b_read_caused_eof := true } _ hcur (Nat.pos_of_ne_zero hsome)
  · exact readBytes_none hcur (Nat.pos_of_ne_zero hsz)

theorem fgetsLoop_fault {read : LinkedFile → Except Fault ((Bytes × Nat) × LinkedFile)} {size : Int}
    {fuel : Nat} {e : Fault} (hgo : ([] : Bytes).length < size - 1 ∧ f.m_b_read_caused_eof = false)
    (hread : read f = .error e) : fgetsLoop read size (fuel + 1) f [] = .error e := by
  rw [fgetsLoop, if_pos hgo, hread]

/-- A read of a byte dereferences the NULL, and does not fault at `m_base`. -/
theorem NullPair.ask_of_takes (h : NullPair f g) {q : Query} (htakes : f.Takes q) :
    g.ask raw q = .error .outOfBounds ∧ f.ask raw q ≠ .error .outOfBounds := by
  rcases h with ⟨h, rfl, rfl, hplaced⟩
  cases q with
  | call call =>
      cases call with
      | Fread size nmemb =>
          have hfault := @Fread_null (h.seek none 0) size nmemb rfl rfl hplaced.writePtr htakes.1
            htakes.2
          have hfit : (h.seek (some 0) 0).m_read_ptr % BLOCKSIZE + u64 (size * nmemb) <
              18446744073709551616 := by
            show 0 % BLOCKSIZE + _ < _
            rw [Nat.zero_mod, Nat.zero_add]
            exact u64_lt _
          rcases @Fread_total (h.seek (some 0) 0) 0 size nmemb hplaced.size rfl hfit with
            ⟨r, b, hread, -⟩
          rw [LinkedFile.ask, LinkedFile.ask, hfault, hread]
          exact ⟨rfl, fun heq => by cases heq⟩
      | Fgets size =>
          rcases htakes with ⟨hsize, heof, hsome⟩
          have hgo : ([] : Bytes).length < size - 1 ∧ h.m_b_read_caused_eof = false := by
            refine ⟨?_, heof⟩
            rw [List.length_nil]
            omega
          have hfault := @Fread_null (h.seek none 0) 1 1 rfl rfl hplaced.writePtr
            Nat.one_ne_zero hsome
          have hbase : Placed (h.seek (some 0) 0) :=
            (placed_kept raw).readOnly hplaced (readOnly_seek h _ _)
          have hfgets : (h.seek none 0).Fgets size = .error .outOfBounds := by
            unfold LinkedFile.Fgets
            exact fgetsLoop_fault hgo hfault
          rw [LinkedFile.ask, LinkedFile.ask, hfgets]
          refine ⟨rfl, fun heq => ?_⟩
          cases hread : (h.seek (some 0) 0).Fgets size with
          | error e =>
              rw [hread, hbase.Fgets_total rfl hread] at heq
              cases heq
          | ok r =>
              rw [hread] at heq
              cases heq
      | _ => exact htakes.elim
  | _ => exact htakes.elim

/-! ## Sequences -/

/-- No byte is read, by the answers of `f`, before the first query that rewinds. -/
def RewindsFirst (raw : Nat → Nat → UInt8) (f : LinkedFile) : List Query → Prop
  | [] => True
  | q :: qs =>
      q.Rewinds ∨ ¬ f.Takes q ∧
        match f.ask raw q with
        | .error _ => True
        | .ok (_, f₁) => RewindsFirst raw f₁ qs

/-- The NULL does not show exactly when a query rewinds before a byte is read. -/
theorem NullPair.answers_iff (h : NullPair f g) (raw : Nat → Nat → UInt8) (qs : List Query) :
    answers (LinkedFile.ask raw) g qs = answers (LinkedFile.ask raw) f qs ↔
      RewindsFirst raw f qs := by
  induction qs generalizing f g with
  | nil => exact ⟨fun _ => trivial, fun _ => rfl⟩
  | cons q qs ih =>
      rw [RewindsFirst]
      by_cases hq : q.Rewinds
      · rw [answers, answers, h.ask_of_rewinds hq]
        exact ⟨fun _ => .inl hq, fun _ => rfl⟩
      by_cases htakes : f.Takes q
      · rcases @ask_of_takes raw f g h q htakes with ⟨hfault, hno⟩
        rw [answers_error hfault]
        constructor
        · intro heq
          cases hask : f.ask raw q with
          | error e =>
              rw [answers_error hask] at heq
              cases heq
              exact absurd hask hno
          | ok r =>
              rw [answers_ok hask] at heq
              cases heq
        · intro hor
          rcases hor with hrewinds | hno
          · exact absurd hrewinds hq
          · exact absurd htakes hno.1
      · have hsame := @ask_of_not_takes raw f g h q hq htakes
        rw [or_iff_right hq, and_iff_right htakes, answers, answers]
        generalize f.ask raw q = x at hsame ⊢
        generalize g.ask raw q = y at hsame ⊢
        cases hsame with
        | error e => exact ⟨fun _ => trivial, fun _ => rfl⟩
        | ok h₁ =>
            dsimp only
            rw [← ih h₁, List.cons_inj_right]

theorem nullPair_new (raw : Nat → Nat → UInt8) : NullPair (new raw) ((new raw).seek none 0) :=
  ⟨new raw, rfl, rfl, placed_new raw⟩

end LinkedFile

end CommonCc
