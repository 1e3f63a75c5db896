import CommonCc.Utils.ExternSort.Sorted

/-!
# How far the format goes

The length of an item and the number of a file are `uint32_t`, and the name of a file has 511
bytes.
-/

namespace CommonCc

namespace CBaseExternSort

variable {R : Type} [LinearOrder R] [Inhabited R]

omit [Inhabited R] in
theorem writeRun_long_item (p : SortPlatform R) {s : CBaseExternSort R} {x : R × Bytes}
    (hitem : s.m_sort_item = [x]) (hx : u32 x.2.length = 0) (disk : Disk) :
    ∃ s' disk', writeRun p s disk = .ok (s', disk', false) := by
  have hsort : p.sort s.m_sort_item = [x] := by
    rw [hitem]
    exact List.perm_singleton.mp (p.sort_perm [x])
  have hlen : ¬ 4294967296 ≤ ([x] : List (R × Bytes)).length := by
    rw [List.length_singleton]
    decide
  have hfail : ∃ len file, writeItems p [x] s.m_buffer_len [] = (len, file, false) :=
    ⟨_, _, by rw [writeItems, hx, if_pos rfl]⟩
  obtain ⟨len, file, hfail⟩ := hfail
  exact ⟨{ s with
      m_buffer_len := len
      m_sort_file := s.m_sort_file ++ [tmpBuf s.m_path s.m_sort_file.length]
      m_sort_item := [x] }, disk.write (tmpBuf s.m_path s.m_sort_file.length) file, by
    rw [writeRun, hsort, WriteFile, if_neg hlen, hfail]⟩

omit [Inhabited R] in
theorem MemorySort_long_item (p : SortPlatform R) {s : CBaseExternSort R} {x : R × Bytes}
    (hnum : s.m_sort_num = 1) (hitem : s.m_sort_item = []) (hx : u32 x.2.length = 0)
    (disk : Disk) : ∃ s' disk', MemorySort p s disk 0 [x] = .ok (s', disk', false) := by
  obtain ⟨s', disk', hwrite⟩ := writeRun_long_item p
    (s := { s with m_sort_item := s.m_sort_item ++ [x] }) (by rw [hitem]; rfl) hx disk
  refine ⟨s', disk', ?_⟩
  rw [MemorySort]
  dsimp only
  rw [if_neg (by rw [hnum]; exact Nat.one_ne_zero), if_pos (by rw [hnum]; exact Nat.mod_one _),
    hwrite]

/-- An item whose length is a multiple of 2^32 is not written. -/
theorem Sort_long_item (p : SortPlatform R) (tmp_path : Bytes) (disk : Disk) {x : R × Bytes}
    (hx : u32 x.2.length = 0) :
    CBaseExternSort.Sort p (Init tmp_path 1) disk [x] = .ok ([], false) := by
  obtain ⟨s, disk', hmemory⟩ := MemorySort_long_item p (s := Init tmp_path 1) rfl rfl hx disk
  rw [CBaseExternSort.Sort, hmemory]

/-- From 2^32 runs on the files are counted for ever. -/
theorem Sort_many_runs (p : SortPlatform R) (tmp_path : Bytes) {sort_num : Nat}
    (hnum : 1 ≤ sort_num) (hnum' : sort_num < 4294967296) (disk : Disk)
    {items : List (R × Bytes)} (hfits : ∀ x ∈ items, Fits x)
    (hruns : 4294967296 ≤ (cutRuns sort_num 0 [] items).length) :
    CBaseExternSort.Sort p (Init tmp_path sort_num) disk items = .error .diverges := by
  obtain ⟨s, disk', hmemory, hstored, -⟩ := MemorySort_stored (p := p) hnum hnum'
    (stored_Init tmp_path sort_num disk) rfl (by decide) (Nat.zero_mod _).symm hfits
  have hlen : s.m_sort_file.length = (cutRuns sort_num 0 [] items).length := by
    rw [hstored.files, List.length_map, List.length_range, List.nil_append, List.length_map]
    rfl
  rw [CBaseExternSort.Sort, hmemory]
  dsimp only
  rw [MergeSort, if_pos (by rw [hlen]; exact hruns)]

theorem length_cutRuns_one {α : Type} (count : Nat) (l : List α) :
    (cutRuns 1 count [] l).length = l.length := by
  induction l generalizing count with
  | nil => rfl
  | cons a l ih => rw [cutRuns, if_pos (Nat.mod_one _), List.length_cons, List.length_cons, ih]

/-- Two files with one name: the first item is lost, the second is delivered twice. -/
theorem Sort_shared_name :
    CBaseExternSort.Sort bytePlatform (Init (List.replicate 600 97) 1) (fun _ => none)
      [(0, [97]), (1, [98])] = .ok ([(1, [98]), (1, [98])], true) := by
  decide +kernel

end CBaseExternSort

end CommonCc
