import CommonCc.Utils.MemFile.Answers
import CommonCc.Utils.MemFile.SaveLoad

/-!
# `ResetRead`

Position and block are reset, `m_b_read_caused_eof` is not.
-/

namespace CommonCc

open Memory

namespace LinkedFile

variable {raw raw' : Nat → Nat → UInt8} {f g : LinkedFile} {content : Bytes}
  {before after before' after' : List Nat}

/-! ## Runs that keep the content -/

def Tracked (f : LinkedFile) (content : Bytes) : Prop :=
  ∃ before after, Tracks f before after content

/-- What a call needs so that the blocks hold the content. -/
def Contents.Fits (s : Contents) : FileCall → Prop
  | .Fwrite _ size nmemb =>
      (s.file.Full → s.file.m_write_ptr < 2147483648) ∧
        s.file.m_write_ptr + u64 (size * nmemb) < 18446744073709551616
  | .Load (some fil) => fil.length ≤ 2147483648
  | _ => True

instance Contents.Fits.decidable (s : Contents) : ∀ call, Decidable (s.Fits call)
  | .Fread _ _ => .isTrue trivial
  | .Fwrite _ _ _ => instDecidableAnd
  | .Fgets _ => .isTrue trivial
  | .ResetRead => .isTrue trivial
  | .ResetWrite => .isTrue trivial
  | .Load none => .isTrue trivial
  | .Load (some _) => Nat.decLe _ _
  | .Save _ => .isTrue trivial

theorem Tracked.readOnly (h : Tracked f content) (hread : ReadOnly f g) : Tracked g content := by
  rcases h with ⟨before, after, h⟩
  exact ⟨before, after, h.readOnly hread⟩

theorem Tracked.sound (h : Tracked f content) : Sound f := by
  rcases h with ⟨before, after, h⟩
  exact ⟨before, after, h.toChained⟩

theorem Sound.tracked_ResetWrite (h : Sound f) : Tracked f.ResetWrite [] := by
  rcases h.ResetWrite_tracks f.m_current_read with ⟨after, htracks⟩
  exact ⟨[], after, htracks⟩

theorem Tracked.Fwrite (h : Tracked f content) {ptr : Bytes} {size nmemb : Nat}
    {r : Nat × LinkedFile} (hint : f.Full → f.m_write_ptr < 2147483648)
    (hbound : f.m_write_ptr + u64 (size * nmemb) < 18446744073709551616)
    (hwrite : f.Fwrite raw ptr size nmemb = .ok r) : Tracked r.2 (content ++ ptr.take r.1) := by
  rcases h with ⟨before, after, h⟩
  rw [h.writePtr] at hint hbound
  rcases h.Fwrite raw ptr size nmemb (le_of_Fwrite hwrite) hint hbound with
    ⟨f₁, before₁, after₁, hwrite₁, htracks, -⟩
  rw [hwrite] at hwrite₁
  cases hwrite₁
  exact ⟨before₁, after₁, htracks⟩

theorem Sound.tracked_Load (h : Sound f) {fil : Bytes} {r : Bool × LinkedFile}
    (hlen : fil.length ≤ 2147483648) (hload : f.Load raw (some fil) = .ok r) : Tracked r.2 fil := by
  rcases h.Load_some raw hlen with ⟨f₁, before, after, hload₁, htracks, -⟩
  rw [hload] at hload₁
  cases hload₁
  exact ⟨before, after, htracks⟩

theorem Tracked.step {s s' : Contents} {call : FileCall} (h : Tracked s.file s.content)
    (hfits : s.Fits call) (hstep : s.step raw call = .ok s') : Tracked s'.file s'.content := by
  refine Contents.step_keeps (J := Tracked)
    (fun _ _ _ _ h hread => h.readOnly (Fread_readOnly hread))
    (h.readOnly (readOnly_seek _ (some 0) 0)) (fun _ => h.sound.tracked_ResetWrite) ?_ ?_ h hstep
  · intro ptr size nmemb r hcall hwrite
    subst hcall
    exact h.Fwrite hfits.1 hfits.2 hwrite
  · intro fil r hcall hload
    subst hcall
    cases fil with
    | none =>
        cases hload
        exact h.sound.tracked_ResetWrite
    | some fil => exact h.sound.tracked_Load hfits hload

theorem Contents.Made.tracked {s : Contents} (h : Contents.Made raw s)
    (hlen : s.content.length ≤ 2147483648) : Tracked s.file s.content := by
  have hnew : Tracked (LinkedFile.new raw) [] := ⟨[], [], (chained_new raw).tracks_nil rfl rfl⟩
  cases h with
  | new => exact hnew
  | @fromPath fil ok f h =>
      have hstart : Tracked { LinkedFile.new raw with m_current_read := none } [] :=
        hnew.readOnly (readOnly_seek _ none _)
      have hfits : Contents.Fits ⟨{ LinkedFile.new raw with m_current_read := none }, []⟩
          (.Load fil) := by
        cases fil with
        | none => trivial
        | some fil => exact hlen
      exact @Tracked.step raw ⟨_, []⟩ ⟨f, fil.getD []⟩ (.Load fil) hstart hfits
        (map_eq_ok.mpr ⟨_, h, rfl⟩)

/-! ## Two files with the same content -/

/-- Both readers are at the same place of the content, on the same block unless it is read. -/
structure Abreast (content : Bytes) (before after before' after' : List Nat) (f g : LinkedFile) :
    Prop where
  tracks : Tracks f before after content
  tracks' : Tracks g before' after' content
  readPtr : g.m_read_ptr = f.m_read_ptr
  eof : g.m_b_read_caused_eof = f.m_b_read_caused_eof
  le : f.m_read_ptr ≤ content.length
  block : f.m_read_ptr < content.length →
    ∃ k, ReadsAt f before after k ∧ ReadsAt g before' after' k ∧ k * BLOCKSIZE ≤ f.m_read_ptr

theorem Abreast.of_eof (h : Abreast content before after before' after' f g) (eof : Bool) :
    Abreast content before after before' after' { f with m_b_read_caused_eof := eof }
      { g with m_b_read_caused_eof := eof } where
  tracks := h.tracks.readOnly ⟨rfl, rfl, rfl, rfl, rfl⟩
  tracks' := h.tracks'.readOnly ⟨rfl, rfl, rfl, rfl, rfl⟩
  readPtr := h.readPtr
  eof := rfl
  le := h.le
  block := h.block

theorem Abreast.readBytes (h : Abreast content before after before' after' f g) {n : Nat}
    (hend : f.m_read_ptr + n ≤ content.length) :
    SameAnswer (Abreast content before after before' after') (f.readBytes n)
      (g.readBytes n) := by
  cases Nat.eq_zero_or_pos n with
  | inl hzero =>
      rw [hzero]
      exact .ok h
  | inr hpos =>
      have hbound := h.tracks.bound
      rcases h.block (by omega) with ⟨k, hk, hk', hstart⟩
      rcases h.tracks.reads_within hstart hpos hend with ⟨hin, hoff⟩
      have hptr := h.readPtr
      rcases h.tracks'.reads_within (hptr ▸ hstart) hpos (hptr ▸ hend) with ⟨hin', -⟩
      rcases h.tracks.readBytes hk hin hpos (by omega) (by omega) with ⟨a, j, hread, ha, hj⟩
      rcases h.tracks'.readBytes hk' hin' hpos (by rw [hptr]; omega) (by rw [hptr]; omega) with
        ⟨a', j', hread', ha', hj'⟩
      rw [hptr] at hj'
      have hplace := h.tracks.reads_end hin (by omega) hj
      have hplace' := h.tracks'.reads_end hin' (by omega) hj'
      rw [hread, hread', hptr]
      refine .ok ⟨h.tracks.readOnly (readOnly_seek f _ _),
        h.tracks'.readOnly (readOnly_seek g _ _), rfl, h.eof, hend, ?_⟩
      intro hlt
      have hlt : f.m_read_ptr + n < content.length := hlt
      -- the chain goes on for both readers
      have hgo := hplace.2.2.resolve_right (by omega)
      have hgo' := hplace'.2.2.resolve_right (by omega)
      refine ⟨j, ⟨a, rfl, ha⟩, ⟨a', rfl, ?_⟩, ?_⟩
      · rw [hgo, ← hgo']
        exact ha'
      · show j * BLOCKSIZE ≤ f.m_read_ptr + n
        omega

theorem Abreast.Fread (h : Abreast content before after before' after' f g) (size nmemb : Nat) :
    SameAnswer (Abreast content before after before' after') (f.Fread size nmemb)
      (g.Fread size nmemb) := by
  have hle := h.le
  rcases h.tracks.Fread_eq hle size nmemb with ⟨eof, hread, heof⟩
  rcases h.tracks'.Fread_eq (by rwa [h.readPtr]) size nmemb with ⟨eof', hread', heof'⟩
  have hrest : content.length - g.m_read_ptr = content.length - f.m_read_ptr := by rw [h.readPtr]
  rw [hrest] at hread' heof'
  rw [h.eof, ← heof] at heof'
  rw [hread, hread', Bool.eq_iff_iff.mpr heof']
  apply (h.of_eof eof).readBytes
  have hmin := Nat.min_le_right (u64 (size * nmemb)) (content.length - f.m_read_ptr)
  show f.m_read_ptr + _ ≤ _
  omega

/-- A query that reads, or asks for the end. -/
def Query.Reads : Query → Prop
  | .call (.Fread _ _) => True
  | .call (.Fgets _) => True
  | .Eof => True
  | _ => False

theorem Abreast.ask (h : Abreast content before after before' after' f g) {q : Query}
    (hq : q.Reads) : SameAnswer (Abreast content before after before' after')
      (f.ask raw q) (g.ask raw' q) := by
  cases q with
  | call call =>
      cases call with
      | Fread size nmemb => exact (h.Fread size nmemb).map fun r => Answer.read r.1 r.2
      | Fgets size =>
          have hchars := fgetsLoop_same (fun _ _ h => Abreast.eof h)
            (fun _ _ h => Abreast.Fread h 1 1) h size (size.toNat + 1) []
          exact hchars.map Answer.line
      | _ => exact hq.elim
  | Size => exact hq.elim
  | Eof =>
      rw [LinkedFile.ask, LinkedFile.ask, Eof, Eof, h.eof]
      exact .ok h

/-- Readers at the start of the same content get the same. -/
theorem Tracked.answers_eq (hf : Tracked f content) (hg : Tracked g content)
    (hcur : f.m_current_read = some 0) (hptr : f.m_read_ptr = 0) (hcur' : g.m_current_read = some 0)
    (hptr' : g.m_read_ptr = 0) (heof : g.m_b_read_caused_eof = f.m_b_read_caused_eof)
    {qs : List Query} (hqs : ∀ q ∈ qs, q.Reads) :
    answers (LinkedFile.ask raw) f qs = answers (LinkedFile.ask raw') g qs := by
  rcases hf with ⟨before, after, hf⟩
  rcases hg with ⟨before', after', hg⟩
  have hstart : Abreast content before after before' after' f g := by
    refine ⟨hf, hg, hptr'.trans hptr.symm, heof, by rw [hptr]; exact Nat.zero_le _, fun _ => ?_⟩
    refine ⟨0, hf.toChained.readsAt_base hcur, hg.toChained.readsAt_base hcur', ?_⟩
    rw [Nat.zero_mul]
    exact Nat.zero_le _
  have hstep : ∀ f g q, q.Reads → Abreast content before after before' after' f g →
      SameAnswer (Abreast content before after before' after') (f.ask raw q) (g.ask raw' q) :=
    fun f g q hq h => h.ask hq
  exact CommonCc.answers_eq hstep hstart hqs

/-! ## Rewinding -/

/-- A new file that the content has been written to, and nothing else. -/
def NewlyWritten (raw : Nat → Nat → UInt8) (f : LinkedFile) (content : Bytes) : Prop :=
  ∃ calls, (∀ call ∈ calls, ∃ ptr size nmemb, call = .Fwrite ptr size nmemb) ∧
    Allowed (Contents.next raw) Contents.Fits ⟨new raw, []⟩ calls ∧
    runSteps (Contents.next raw) ⟨new raw, []⟩ calls = some ⟨f, content⟩

/-- What a file that has not been read looks like to a reader. -/
structure Unused (f : LinkedFile) (content : Bytes) : Prop where
  tracked : Tracked f content
  currentRead : f.m_current_read = some 0
  readPtr : f.m_read_ptr = 0
  eof : f.m_b_read_caused_eof = false

theorem unused_new (raw : Nat → Nat → UInt8) : Unused (new raw) [] :=
  ⟨⟨[], [], (chained_new raw).tracks_nil rfl rfl⟩, rfl, rfl, rfl⟩

theorem Unused.Fwrite (h : Unused f content) {ptr : Bytes} {size nmemb : Nat}
    (hint : f.Full → f.m_write_ptr < 2147483648)
    (hbound : f.m_write_ptr + u64 (size * nmemb) < 18446744073709551616)
    (hptr : u64 (size * nmemb) ≤ ptr.length) :
    ∃ f₁, f.Fwrite raw ptr size nmemb = .ok (u64 (size * nmemb), f₁) ∧
      Unused f₁ (content ++ ptr.take (u64 (size * nmemb))) := by
  rcases h.tracked with ⟨before, after, htracks⟩
  rw [htracks.writePtr] at hint hbound
  rcases htracks.Fwrite raw ptr size nmemb hptr hint hbound with
    ⟨f₁, before₁, after₁, hwrite, htracks₁, hgrows⟩
  exact ⟨f₁, hwrite, ⟨before₁, after₁, htracks₁⟩, hgrows.currentRead.trans h.currentRead,
    hgrows.readPtr.trans h.readPtr, hgrows.eof.trans h.eof⟩

theorem NewlyWritten.unused (h : NewlyWritten raw f content) : Unused f content := by
  rcases h with ⟨calls, hwrites, hfits, hrun⟩
  have hboth := hfits.and (allowed_of_forall hwrites)
  refine @runSteps_invariant _ _ _ _ (fun s : Contents => Unused s.file s.content) ?_ _ _ _
    (unused_new raw) hboth hrun
  intro s call s' hs hboth hstep
  rcases hboth with ⟨hfits, ptr, size, nmemb, rfl⟩
  rcases map_eq_ok.mp (ok_of_toOption hstep) with ⟨r, hr, rfl⟩
  rcases @Unused.Fwrite raw _ _ hs _ _ _ hfits.1 hfits.2 (le_of_Fwrite hr) with
    ⟨f₁, hwrite, hunused⟩
  rw [hr] at hwrite
  cases hwrite
  exact hunused

/-- Any content can be written at once. -/
theorem exists_newlyWritten (raw : Nat → Nat → UInt8)
    (hlen : content.length < 18446744073709551616) : ∃ f, NewlyWritten raw f content := by
  have hsize : u64 (1 * content.length) = content.length := u64_one_mul hlen
  have hroom : ¬ (new raw).Full := by
    intro hfull
    cases hfull
  have hbound : (new raw).m_write_ptr + u64 (1 * content.length) < 18446744073709551616 := by
    rw [hsize]
    show 0 + content.length < _
    omega
  rcases @Unused.Fwrite raw _ _ (unused_new raw) _ _ _ (fun hfull => absurd hfull hroom) hbound
    (Nat.le_of_eq hsize) with ⟨f, hwrite, -⟩
  have hstep : Contents.next raw ⟨new raw, []⟩ (.Fwrite content 1 content.length) =
      some ⟨f, content⟩ := by
    rw [Contents.next, Contents.step, hwrite, hsize]
    show some (⟨f, [] ++ content.take content.length⟩ : Contents) = _
    rw [List.take_length, List.nil_append]
  refine ⟨f, [.Fwrite content 1 content.length], ?_, ?_, ?_⟩
  · intro call hcall
    exact ⟨content, 1, content.length, List.mem_singleton.mp hcall⟩
  · rw [allowed_cons hstep]
    exact ⟨⟨fun hfull => absurd hfull hroom, hbound⟩, trivial⟩
  · rw [runSteps_cons hstep]
    rfl

/-- In every run that keeps the content, a file that is rewound reads like a new file with the same
content exactly when no read has met the end so far. -/
theorem ResetRead_iff {s s' : Contents} {calls : List FileCall} (hmade : Contents.Made raw s)
    (hlen : s.content.length ≤ 2147483648)
    (hfits : Allowed (Contents.next raw) Contents.Fits s calls)
    (hrun : runSteps (Contents.next raw) s calls = some s') :
    (∀ raw' f, NewlyWritten raw' f s'.content → ∀ qs : List Query, (∀ q ∈ qs, q.Reads) →
      answers (ask raw) s'.file.ResetRead qs = answers (ask raw') f qs) ↔
      s'.file.m_b_read_caused_eof = false := by
  have htracked : Tracked s'.file s'.content :=
    runSteps_invariant (I := fun s => Tracked s.file s.content)
      (fun _ _ _ h hfits hs => h.step hfits (ok_of_toOption hs)) (hmade.tracked hlen) hfits hrun
  constructor
  · intro h
    rcases htracked with ⟨before, after, htracks⟩
    rcases exists_newlyWritten raw htracks.bound with ⟨f, hf⟩
    have heof := h raw f hf [.Eof] (by simp [Query.Reads])
    have hnew := hf.unused.eof
    simpa [answers, ask, Eof, ResetRead, hnew] using heof
  · intro heof raw' f hf qs hqs
    have hunused := hf.unused
    exact (htracked.readOnly (readOnly_seek s'.file (some 0) 0)).answers_eq hunused.tracked rfl rfl
      hunused.currentRead hunused.readPtr (hunused.eof.trans heof.symm) hqs

/-- Two bytes, of which one is read. -/
theorem ResetRead_iff_two :
    ∃ s', runSteps (Contents.next fun _ _ => 0) ⟨new fun _ _ => 0, []⟩
        [.Fwrite [1, 2] 1 2, .Fread 1 1] = some s' ∧ s'.file.m_b_read_caused_eof = false ∧
      ((∀ raw' f, NewlyWritten raw' f s'.content → ∀ qs : List Query, (∀ q ∈ qs, q.Reads) →
        answers (ask fun _ _ => 0) s'.file.ResetRead qs = answers (ask raw') f qs) ↔
        s'.file.m_b_read_caused_eof = false) := by
  have hrun : ∃ s' ∈ runSteps (Contents.next fun _ _ => 0) ⟨new fun _ _ => 0, []⟩
      [.Fwrite [1, 2] 1 2, .Fread 1 1], s'.file.m_b_read_caused_eof = false := by decide +kernel
  rcases hrun with ⟨s', hrun, heof⟩
  exact ⟨s', hrun, heof, ResetRead_iff .new (by decide) (by decide +kernel) hrun⟩

/-- A byte, a read of two bytes and `ResetRead`: `Eof` is true from the start, and `Fgets` delivers
nothing. -/
theorem eof_after_ResetRead :
    ∃ s' f, runSteps (Contents.next fun _ _ => 0) ⟨new fun _ _ => 0, []⟩
        [.Fwrite [1] 1 1, .Fread 1 2] = some s' ∧
      NewlyWritten (fun _ _ => 0) f s'.content ∧
      answers (ask fun _ _ => 0) s'.file.ResetRead [.Eof, .call (.Fgets 4)] =
        [.ok (.eof true), .ok (.line [])] ∧
      answers (ask fun _ _ => 0) f [.Eof, .call (.Fgets 4)] =
        [.ok (.eof false), .ok (.line [1])] := by
  have hused : ∃ s' ∈ runSteps (Contents.next fun _ _ => 0) ⟨new fun _ _ => 0, []⟩
      [.Fwrite [1] 1 1, .Fread 1 2], s'.content = [1] ∧
      answers (ask fun _ _ => 0) s'.file.ResetRead [.Eof, .call (.Fgets 4)] =
        [.ok (.eof true), .ok (.line [])] := by decide +kernel
  have hnew : ∃ s ∈ runSteps (Contents.next fun _ _ => 0) ⟨new fun _ _ => 0, []⟩
      [.Fwrite [1] 1 1], s.content = [1] ∧
      answers (ask fun _ _ => 0) s.file [.Eof, .call (.Fgets 4)] =
        [.ok (.eof false), .ok (.line [1])] := by decide +kernel
  rcases hused with ⟨s', hrun, hcontent, hanswers⟩
  rcases hnew with ⟨⟨f, content⟩, hrun', rfl, hanswers'⟩
  refine ⟨s', f, hrun, ?_, hanswers, hanswers'⟩
  rw [hcontent]
  exact ⟨[.Fwrite [1] 1 1], by simp, by decide +kernel, hrun'⟩

end LinkedFile

end CommonCc
