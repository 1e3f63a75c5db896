import CommonCc.Utils.MemFile.SaveLoad

/-!
# The read position and the write position of a `MemFile`

`ResetWrite` and `Load` empty the file without a `ResetRead`.
-/

namespace CommonCc

open Memory

namespace LinkedFile

variable {raw : Nat → Nat → UInt8} {f f₁ : LinkedFile} {before after : List Nat} {content : Bytes}

/-! ## A reader that does not run ahead -/

/-- The reader is not on a block behind the one of the read position.  There is none for a path
without a file. -/
def Follows (f : LinkedFile) (before after : List Nat) : Prop :=
  (f.m_current_read = none ∧ f.m_read_ptr = 0) ∨
    ∃ k, ReadsAt f before after k ∧ k * BLOCKSIZE ≤ f.m_read_ptr

/-- The content can be read, and nothing else. -/
def Current (f : LinkedFile) (content : Bytes) : Prop :=
  ∃ before after, Tracks f before after content ∧ Follows f before after ∧
    f.m_read_ptr ≤ content.length

theorem Chained.follows_base (h : Chained f before after) (hcur : f.m_current_read = some 0) :
    Follows f before after := by
  refine .inr ⟨0, h.readsAt_base hcur, ?_⟩
  rw [Nat.zero_mul]
  exact Nat.zero_le _

/-- At the start of the file the reader is on the first block. -/
theorem Follows.base (hf : Follows f before after) (h : Chained f before after)
    (hptr : f.m_read_ptr = 0) : f.m_current_read = none ∨ f.m_current_read = some 0 := by
  rcases hf with hnone | ⟨k, ⟨a, hcur, ha⟩, hle⟩
  · exact .inl hnone.1
  · have hk : k = 0 := by
      rw [hptr] at hle
      exact (Nat.mul_eq_zero.mp (Nat.le_zero.mp hle)).resolve_right (Nat.ne_of_gt blocksize_pos)
    rw [hk, ← List.head?_eq_getElem?, ← h.linked_written.head] at ha
    exact .inr (hcur.trans ha.symm)

/-- What is read is a part of the content. -/
theorem Tracks.Fread_infix (h : Tracks f before after content) (hf : Follows f before after)
    (hle : f.m_read_ptr ≤ content.length) {size nmemb : Nat} {r : (Bytes × Nat) × LinkedFile}
    (hread : f.Fread size nmemb = .ok r) :
    (r.1.2 ≤ content.length - f.m_read_ptr ∧ r.1.1.length = r.1.2 ∧ r.1.1 <:+: content) ∧
      Follows r.2 before after ∧ r.2.m_read_ptr ≤ content.length := by
  rcases h.Fread_eq hle size nmemb with ⟨eof, hfread, -⟩
  have hmin := Nat.min_le_right (u64 (size * nmemb)) (content.length - f.m_read_ptr)
  rw [hfread] at hread
  generalize min (u64 (size * nmemb)) (content.length - f.m_read_ptr) = n at hread hmin
  cases Nat.eq_zero_or_pos n with
  | inl hzero =>
      rw [hzero] at hread
      cases hread
      exact ⟨⟨Nat.zero_le _, rfl, List.nil_infix⟩, hf, hle⟩
  | inr hpos =>
      have hlt : f.m_read_ptr < content.length := by omega
      rcases hf with hnone | ⟨k, hk, hstart⟩
      · have hfault : { f with m_b_read_caused_eof := eof }.readBytes n = .error .outOfBounds :=
          readBytes_none hnone.1 hpos
        rw [hfault] at hread
        cases hread
      · have hbound := h.bound
        have htracks : Tracks { f with m_b_read_caused_eof := eof } before after content :=
          h.readOnly ⟨rfl, rfl, rfl, rfl, rfl⟩
        rcases h.reads_within hstart hpos (by omega) with ⟨hin, hoff⟩
        have hlen : k * BLOCKSIZE + f.m_read_ptr % BLOCKSIZE + n ≤ content.length := by omega
        have hptr : f.m_read_ptr + n < 18446744073709551616 := by omega
        rcases htracks.readBytes hk hin hpos hlen hptr with
          ⟨a, k', hbytes, ha, hk'⟩
        rw [hbytes] at hread
        cases hread
        have hend := (h.reads_end hin hlen hk').1
        refine ⟨⟨hmin, ?_, ?_⟩, .inr ⟨k', ⟨a, rfl, ha⟩, ?_⟩, ?_⟩
        · exact List.length_take_of_le (by rw [List.length_drop]; exact Nat.le_sub_of_add_le' hlen)
        · exact (List.take_prefix _ _).isInfix.trans (List.drop_suffix _ _).isInfix
        · show k' * BLOCKSIZE ≤ f.m_read_ptr + n
          omega
        · show f.m_read_ptr + n ≤ content.length
          omega

theorem Current.Fread (h : Current f content) {size nmemb : Nat} {r : (Bytes × Nat) × LinkedFile}
    (hread : f.Fread size nmemb = .ok r) : Current r.2 content := by
  rcases h with ⟨before, after, htracks, hf, hle⟩
  have hstep := htracks.Fread_infix hf hle hread
  exact ⟨before, after, htracks.readOnly (Fread_readOnly hread), hstep.2.1, hstep.2.2⟩

theorem Current.ResetRead (h : Current f content) : Current f.ResetRead content := by
  rcases h with ⟨before, after, htracks, -, -⟩
  have hreset : Tracks f.ResetRead before after content :=
    htracks.readOnly (readOnly_seek f (some 0) 0)
  exact ⟨before, after, hreset, hreset.toChained.follows_base rfl, Nat.zero_le _⟩

theorem Current.ResetWrite (h : Current f content) (hptr : f.m_read_ptr = 0) :
    Current f.ResetWrite [] := by
  rcases h with ⟨before, after, htracks, hf, -⟩
  rcases htracks.toChained.ResetWrite with ⟨rest, hchain⟩
  refine ⟨[], rest, hchain.tracks_nil rfl rfl, ?_, Nat.le_of_eq hptr⟩
  cases hf.base htracks.toChained hptr with
  | inl hnone => exact .inl ⟨hnone, hptr⟩
  | inr hbase => exact hchain.follows_base hbase

theorem Current.Load (h : Current f content) {fil : Bytes} (hle : f.m_read_ptr ≤ fil.length)
    (hlen : fil.length ≤ 2147483648) {r : Bool × LinkedFile} (hload : f.Load raw (some fil) = .ok r) :
    Current r.2 fil := by
  rcases h with ⟨before, after, htracks, -, -⟩
  rcases Sound.Load_some ⟨before, after, htracks.toChained⟩ raw hlen with
    ⟨f₁, before₁, after₁, hload₁, htracks₁, hcur, hptr, -⟩
  rw [hload₁] at hload
  cases hload
  exact ⟨before₁, after₁, htracks₁, htracks₁.toChained.follows_base hcur, by rwa [hptr]⟩

/-- The block behind the one that is written may be left from an earlier content. -/
def OnNext (f : LinkedFile) : Prop :=
  f.m_current_read ≠ none ∧ f.m_current_read = f.next f.m_current_write

instance (f : LinkedFile) : Decidable f.OnNext := instDecidableAnd

theorem Follows.written (hf : Follows f before after) (h : Tracks f before after content)
    (hle : f.m_read_ptr ≤ content.length) (hnext : f.Full → ¬ f.OnNext) :
    (f.m_current_read = none ∧ f.m_read_ptr = 0) ∨
      ∃ k, k ≤ before.length ∧ ReadsAt f before after k ∧ k * BLOCKSIZE ≤ f.m_read_ptr := by
  rcases hf with hnone | ⟨k, hk, hstart⟩
  · exact .inl hnone
  · refine .inr ⟨k, ?_, hk, hstart⟩
    apply Nat.le_of_not_lt
    intro hlt
    have hend : (before.length + 1) * BLOCKSIZE ≤ k * BLOCKSIZE := Nat.mul_le_mul_right _ hlt
    have hlen : content.length = (before.length + 1) * BLOCKSIZE :=
      Nat.le_antisymm h.high (by omega)
    have hback : k * BLOCKSIZE ≤ (before.length + 1) * BLOCKSIZE := by omega
    have hk₁ : k = before.length + 1 :=
      Nat.le_antisymm (Nat.le_of_mul_le_mul_right hback blocksize_pos) hlt
    rcases hk with ⟨a, hcur, ha⟩
    rw [List.getElem?_append_right (by rw [written_length]; omega), written_length, hk₁,
      Nat.sub_self, ← List.head?_eq_getElem?, ← h.toChained.next_current] at ha
    refine hnext (h.full_iff.mpr hlen) ⟨?_, hcur.trans ha.symm⟩
    rw [hcur]
    exact Option.some_ne_none a

theorem Current.Fwrite (h : Current f content) {ptr : Bytes} {size nmemb : Nat}
    (hfull : f.Full → f.m_write_ptr < 2147483648 ∧ ¬ f.OnNext)
    (hbound : f.m_write_ptr + u64 (size * nmemb) < 18446744073709551616) {r : Nat × LinkedFile}
    (hwrite : f.Fwrite raw ptr size nmemb = .ok r) : Current r.2 (content ++ ptr.take r.1) := by
  rcases h with ⟨before, after, htracks, hf, hle⟩
  rw [htracks.writePtr] at hfull hbound
  rcases htracks.Fwrite raw ptr size nmemb (le_of_Fwrite hwrite) (fun h => (hfull h).1) hbound with
    ⟨f₁, before₁, after₁, hwrite₁, htracks₁, hgrows⟩
  rw [hwrite₁] at hwrite
  cases hwrite
  refine ⟨before₁, after₁, htracks₁, ?_, ?_⟩
  · rcases hf.written htracks hle fun h => (hfull h).2 with hnone | ⟨k, hk, ⟨a, hcur, ha⟩, hstart⟩
    · exact .inl ⟨hgrows.currentRead.trans hnone.1, hgrows.readPtr.trans hnone.2⟩
    · -- the block is still at its place in the chain
      rw [List.getElem?_append_left (by rw [written_length]; omega)] at ha
      have hold : (f₁.written before₁)[k]? = some a := by
        rcases hgrows.written with ⟨rest, hrest⟩
        rw [← hrest, List.getElem?_append_left (List.getElem?_eq_some_iff.mp ha).1, ha]
      refine .inr ⟨k, ⟨a, hgrows.currentRead.trans hcur, ?_⟩, by rwa [hgrows.readPtr]⟩
      rw [List.getElem?_append_left (List.getElem?_eq_some_iff.mp hold).1, hold]
  · rw [hgrows.readPtr, List.length_append]
    exact Nat.le_add_right_of_le hle

/-! ## Runs -/

/-- What a call needs to keep the reader within the content. -/
def Contents.Keeps (s : Contents) : FileCall → Prop
  | .Fwrite _ size nmemb =>
      (s.file.Full → s.file.m_write_ptr < 2147483648 ∧ ¬ s.file.OnNext) ∧
        s.file.m_write_ptr + u64 (size * nmemb) < 18446744073709551616
  | .ResetWrite => s.file.m_read_ptr = 0
  | .Load none => s.file.m_read_ptr = 0
  | .Load (some fil) => s.file.m_read_ptr ≤ fil.length ∧ fil.length ≤ 2147483648
  | _ => True

instance Contents.Keeps.decidable (s : Contents) : ∀ call, Decidable (s.Keeps call)
  | .Fread _ _ => .isTrue trivial
  | .Fwrite _ _ _ => instDecidableAnd
  | .Fgets _ => .isTrue trivial
  | .ResetRead => .isTrue trivial
  | .ResetWrite => Nat.decEq _ _
  | .Load none => Nat.decEq _ _
  | .Load (some _) => instDecidableAnd
  | .Save _ => .isTrue trivial

/-- The read position is within the file, and `Fread` returns at most what is behind it, from what
the file holds now. -/
structure Contents.Within (s : Contents) : Prop where
  readPtr : s.file.m_read_ptr ≤ s.file.m_write_ptr
  writePtr : s.file.m_write_ptr = s.content.length
  fread : ∀ size nmemb r, s.file.Fread size nmemb = .ok r →
    r.1.2 ≤ s.file.m_write_ptr - s.file.m_read_ptr ∧ r.1.1.length = r.1.2 ∧ r.1.1 <:+: s.content

theorem Current.within {s : Contents} (h : Current s.file s.content) : s.Within := by
  rcases h with ⟨before, after, htracks, hf, hle⟩
  exact {
    readPtr := by rwa [htracks.writePtr]
    writePtr := htracks.writePtr
    fread := by
      intro size nmemb r hread
      rw [htracks.writePtr]
      exact (htracks.Fread_infix hf hle hread).1 }

theorem Contents.Made.current {s : Contents} (h : Contents.Made raw s)
    (hlen : s.content.length ≤ 2147483648) : Current s.file s.content := by
  have hnew : Current (LinkedFile.new raw) [] :=
    ⟨[], [], (chained_new raw).tracks_nil rfl rfl, (chained_new raw).follows_base rfl, Nat.le_refl _⟩
  have hpath : Current { LinkedFile.new raw with m_current_read := none } [] :=
    ⟨[], [], ((chained_new raw).readOnly (readOnly_seek _ none 0)).tracks_nil rfl rfl,
      .inl ⟨rfl, rfl⟩, Nat.le_refl _⟩
  cases h with
  | new => exact hnew
  | @fromPath fil ok f h =>
      cases fil with
      | none =>
          cases h
          exact hpath.ResetWrite rfl
      | some fil => exact hpath.Load (Nat.zero_le _) hlen h

theorem Current.step {s s' : Contents} {call : FileCall} (h : Current s.file s.content)
    (hkeeps : s.Keeps call) (hstep : s.step raw call = .ok s') : Current s'.file s'.content := by
  refine Contents.step_keeps (J := Current) (fun _ _ _ _ h hread => h.Fread hread) h.ResetRead
    ?_ ?_ ?_ h hstep
  · intro hcall
    subst hcall
    exact h.ResetWrite hkeeps
  · intro ptr size nmemb r hcall hwrite
    subst hcall
    exact h.Fwrite hkeeps.1 hkeeps.2 hwrite
  · intro fil r hcall hload
    subst hcall
    cases fil with
    | none =>
        cases hload
        exact h.ResetWrite hkeeps
    | some fil => exact h.Load hkeeps.1 hkeeps.2 hload

/-- In a run whose calls keep it there, the reader is within the content. -/
theorem Contents.within_run {s s' : Contents} {calls : List FileCall}
    (hmade : Contents.Made raw s) (hlen : s.content.length ≤ 2147483648)
    (hkeeps : Allowed (Contents.next raw) Contents.Keeps s calls)
    (hrun : runSteps (Contents.next raw) s calls = some s') : s'.Within :=
  Current.within (runSteps_invariant (I := fun s => Current s.file s.content)
    (fun _ _ _ h hkeeps hs => h.step hkeeps (ok_of_toOption hs)) (hmade.current hlen) hkeeps hrun)

/-- A write, a read of one byte and a second write. -/
theorem Contents.within_run_three :
    ∃ s', runSteps (Contents.next fun _ _ => 0) ⟨LinkedFile.new fun _ _ => 0, []⟩
      [.Fwrite [1, 2] 1 2, .Fread 1 1, .Fwrite [3] 1 1] = some s' ∧ s'.Within := by
  have hrun : ∃ s', runSteps (Contents.next fun _ _ => 0) ⟨LinkedFile.new fun _ _ => 0, []⟩
      [.Fwrite [1, 2] 1 2, .Fread 1 1, .Fwrite [3] 1 1] = some s' :=
    Option.isSome_iff_exists.mp (by decide +kernel)
  rcases hrun with ⟨s', hrun⟩
  exact ⟨s', hrun, Contents.within_run .new (by decide) (by decide +kernel) hrun⟩

/-- `ResetWrite` behind a read: the reader is beyond the end, and gets what was discarded. -/
theorem Contents.not_within :
    ∃ s', runSteps (Contents.next fun _ _ => 0) ⟨LinkedFile.new fun _ _ => 0, []⟩
        [.Fwrite [1, 2] 1 2, .Fread 1 1, .ResetWrite] = some s' ∧
      s'.file.m_write_ptr < s'.file.m_read_ptr ∧ s'.content = [] ∧
      (s'.file.Fread 1 1).map Prod.fst = .ok ([2], 1) ∧ ¬ s'.Within := by
  have hrun : ∃ s' ∈ runSteps (Contents.next fun _ _ => 0) ⟨LinkedFile.new fun _ _ => 0, []⟩
      [.Fwrite [1, 2] 1 2, .Fread 1 1, .ResetWrite],
      s'.file.m_write_ptr < s'.file.m_read_ptr ∧ s'.content = [] ∧
      ((s'.file.Fread 1 1).map Prod.fst).toOption = some ([2], 1) := by decide +kernel
  rcases hrun with ⟨s', hrun, hptr, hempty, hread⟩
  exact ⟨s', hrun, hptr, hempty, ok_of_toOption hread, fun h => Nat.not_lt.mpr h.readPtr hptr⟩

end LinkedFile

end CommonCc
