import CommonCc.Utils.ExternSort.Sorted

/-!
# One run and its file

What `WriteFile` writes is read record by record into a buffer of `m_buffer_len` bytes.
-/

namespace CommonCc

namespace CBaseExternSort

variable {R : Type} [LinearOrder R] {p : SortPlatform R}

variable (p) in
/-- Calls of `ReadFile` give the items and then the end of the file. -/
def ReadsBack : Memory UInt8 → Bytes → List (R × Bytes) → Prop
  | m_buffer, fp, [] => ReadFile p m_buffer (some fp) = .ok none
  | m_buffer, fp, s :: items => ∃ fp' m_buffer',
      ReadFile p m_buffer (some fp) = .ok (some (s, fp', m_buffer')) ∧
        ReadsBack m_buffer' fp' items

variable (p) in
/-- The items are written, and read back whatever the new buffer holds. -/
def RunRoundTrips (s : CBaseExternSort R) (disk : Disk) : Prop :=
  ∃ s' disk', WriteFile p s disk = .ok (s', disk', true) ∧
    ∃ name fp, s'.m_sort_file = s.m_sort_file ++ [name] ∧ disk' name = some fp ∧
      ∀ m_buffer : Memory UInt8, m_buffer.size = s'.m_buffer_len →
        ReadsBack p m_buffer fp s.m_sort_item

/-- What is read has been in the buffer. -/
theorem ReadFile_bounds {m_buffer m_buffer' : Memory UInt8} {fp : Option Bytes} {s : R × Bytes}
    {fp' : Bytes} (h : ReadFile p m_buffer fp = .ok (some (s, fp', m_buffer'))) :
    s.2.length ≤ m_buffer.size ∧ s.2.length < 4294967296 ∧ m_buffer'.size = m_buffer.size := by
  cases fp with
  | none => cases h
  | some fp =>
      rw [ReadFile] at h
      dsimp only at h
      split at h
      · cases h
      split at h
      · cases h
      split at h
      · cases h
      · next hsize =>
        have hlt := leValue_lt ((fp.drop 8).take 4)
        have htake : ((fp.drop 8).take 4).length ≤ 4 := List.length_take_le _ _
        have hpow : 256 ^ ((fp.drop 8).take 4).length ≤ 256 ^ 4 :=
          Nat.pow_le_pow_right (by decide) htake
        cases h
        rw [Memory.read_length]
        exact ⟨Nat.le_of_not_lt hsize, Nat.lt_of_lt_of_le hlt hpow, rfl⟩

theorem ReadsBack.bounds {m_buffer : Memory UInt8} {fp : Bytes} {items : List (R × Bytes)}
    (h : ReadsBack p m_buffer fp items) :
    ∀ s ∈ items, s.2.length ≤ m_buffer.size ∧ s.2.length < 4294967296 := by
  induction items generalizing m_buffer fp with
  | nil => exact fun s hs => absurd hs List.not_mem_nil
  | cons s items ih =>
      obtain ⟨fp', m_buffer', hread, hrest⟩ := h
      obtain ⟨hsize, hlt, hsame⟩ := ReadFile_bounds hread
      intro s' hs'
      cases List.mem_cons.mp hs' with
      | inl heq =>
          rw [heq]
          exact ⟨hsize, hlt⟩
      | inr hmem =>
          have htail := ih hrest s' hmem
          rwa [hsame] at htail

theorem readsBack_encode {m_buffer : Memory UInt8} {items : List (R × Bytes)}
    (h : ∀ s ∈ items, s.2.length ≤ m_buffer.size ∧ s.2.length < 4294967296) :
    ReadsBack p m_buffer (encode p items) items := by
  induction items generalizing m_buffer with
  | nil => exact ReadFile_end m_buffer
  | cons s items ih =>
      have hs := List.forall_mem_cons.mp h
      refine ⟨encode p items, m_buffer.write 0 s.2, ?_, ih hs.2⟩
      exact ReadFile_record hs.1.1 hs.1.2 (encode p items)

theorem WriteFile_iff {s s' : CBaseExternSort R} {disk disk' : Disk} :
    WriteFile p s disk = .ok (s', disk', true) ↔
      s.m_sort_item.length < 4294967296 ∧ (∀ x ∈ s.m_sort_item, u32 x.2.length ≠ 0) ∧
        { s with
          m_buffer_len := bufferLen s.m_buffer_len s.m_sort_item
          m_sort_file := s.m_sort_file ++ [tmpBuf s.m_path s.m_sort_file.length] } = s' ∧
        disk.write (tmpBuf s.m_path s.m_sort_file.length)
          (encode p (s.m_sort_item.map truncated)) = disk' := by
  have hitems : ∀ len f, writeItems p s.m_sort_item s.m_buffer_len [] = (len, f, true) ↔
      (∀ x ∈ s.m_sort_item, u32 x.2.length ≠ 0) ∧
        bufferLen s.m_buffer_len s.m_sort_item = len ∧
        [] ++ encode p (s.m_sort_item.map truncated) = f := fun len f => writeItems_iff
  rw [WriteFile]
  by_cases hlen : 4294967296 ≤ s.m_sort_item.length
  · rw [if_pos hlen]
    constructor
    · intro h
      cases h
    · rintro ⟨hlt, -⟩
      omega
  · rw [if_neg hlen]
    rcases hwritten : writeItems p s.m_sort_item s.m_buffer_len [] with ⟨len, f, ok⟩
    constructor
    · intro h
      cases h
      obtain ⟨hpos, rfl, rfl⟩ := (hitems len f).mp hwritten
      exact ⟨Nat.lt_of_not_le hlen, hpos, rfl, rfl⟩
    · rintro ⟨-, hpos, rfl, rfl⟩
      have hall := (hitems _ _).mpr ⟨hpos, rfl, rfl⟩
      rw [hwritten] at hall
      cases hall
      rfl

/-- The items that a file and the buffer behind it have room for. -/
def Storable (m_buffer_len : Nat) (items : List (R × Bytes)) : Prop :=
  items.length < 4294967296 ∧
    ∀ s ∈ items, 0 < s.2.length ∧ s.2.length < 4294967296 ∧
      s.2.length ≤ bufferLen m_buffer_len items

/-- The items come back when none is empty and all lengths are counted. -/
theorem RunRoundTrips_iff (p : SortPlatform R) (s : CBaseExternSort R) (disk : Disk) :
    RunRoundTrips p s disk ↔ Storable s.m_buffer_len s.m_sort_item := by
  constructor
  · rintro ⟨s', disk', hwrite, name, fp, -, -, hread⟩
    obtain ⟨hlen, hpos, rfl, rfl⟩ := WriteFile_iff.mp hwrite
    refine ⟨hlen, fun x hx => ?_⟩
    have hbounds := (hread ⟨_, p.raw⟩ rfl).bounds x hx
    have hx0 := hpos x hx
    rw [u32_of_lt hbounds.2] at hx0
    exact ⟨Nat.pos_of_ne_zero hx0, hbounds.2, hbounds.1⟩
  · rintro ⟨hlen, hall⟩
    have hpos : ∀ x ∈ s.m_sort_item, u32 x.2.length ≠ 0 := fun x hx => by
      rw [u32_of_lt (hall x hx).2.1]
      exact Nat.ne_of_gt (hall x hx).1
    refine ⟨_, _, WriteFile_iff.mpr ⟨hlen, hpos, rfl, rfl⟩, _, _, rfl, if_pos rfl, ?_⟩
    intro m_buffer hsize
    rw [map_truncated fun x hx => (hall x hx).2.1]
    apply readsBack_encode
    intro x hx
    rw [hsize]
    exact ⟨(hall x hx).2.2, (hall x hx).2.1⟩

/-- An item with no bytes: `fwrite` returns 0. -/
theorem RunRoundTrips_empty :
    ¬ RunRoundTrips bytePlatform ⟨[46], 1, 0, [], [(0, [])]⟩ fun _ => none := by
  rintro ⟨s', disk', hwrite, -⟩
  exact (WriteFile_iff.mp hwrite).2.1 (0, []) List.mem_cons_self rfl

end CBaseExternSort

end CommonCc
