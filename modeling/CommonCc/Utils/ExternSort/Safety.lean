import CommonCc.Utils.ExternSort.RunFile

/-!
# What the merge may touch

`MergeSort` on the files that `MemorySort` leaves behind, whatever the items are.  It stays inside
its vectors unless there are no files at all.
-/

namespace CommonCc

namespace CBaseExternSort

variable {R : Type} [LinearOrder R] {p : SortPlatform R}

/-! ## The files -/

variable (p) in
/-- Every file holds the records of a run. -/
def RunFiles (s : CBaseExternSort R) (disk : Disk) : Prop :=
  ∀ name ∈ s.m_sort_file, ∃ run, run ≠ [] ∧ (∀ x ∈ run, x.2.length < 4294967296) ∧
    disk name = some (encode p run)

theorem writeRun_true {s s' : CBaseExternSort R} {disk disk' : Disk}
    (h : writeRun p s disk = .ok (s', disk', true)) :
    ∃ len, { s with
        m_buffer_len := len
        m_sort_file := s.m_sort_file ++ [tmpBuf s.m_path s.m_sort_file.length]
        m_sort_item := [] } = s' ∧
      disk.write (tmpBuf s.m_path s.m_sort_file.length)
        (encode p ((p.sort s.m_sort_item).map truncated)) = disk' := by
  rw [writeRun] at h
  rcases hwrite : WriteFile p { s with m_sort_item := p.sort s.m_sort_item } disk with
    e | ⟨s'', disk'', _ | _⟩
  · rw [hwrite] at h
    cases h
  · rw [hwrite] at h
    cases h
  · rw [hwrite] at h
    obtain ⟨-, -, rfl, rfl⟩ := WriteFile_iff.mp hwrite
    cases h
    exact ⟨_, rfl, rfl⟩

theorem RunFiles.writeRun {s s' : CBaseExternSort R} {disk disk' : Disk} (h : RunFiles p s disk)
    (hitems : s.m_sort_item ≠ []) (hwrite : writeRun p s disk = .ok (s', disk', true)) :
    RunFiles p s' disk' := by
  obtain ⟨len, rfl, rfl⟩ := writeRun_true hwrite
  intro name hname
  by_cases hnew : name = tmpBuf s.m_path s.m_sort_file.length
  · refine ⟨(p.sort s.m_sort_item).map truncated, ?_, ?_, if_pos hnew⟩
    · intro hnil
      rw [List.map_eq_nil_iff] at hnil
      have hperm := p.sort_perm s.m_sort_item
      rw [hnil] at hperm
      exact hitems hperm.nil_eq.symm
    · intro x hx
      obtain ⟨y, -, rfl⟩ := List.mem_map.mp hx
      rw [truncated_length]
      exact u32_lt _
  · cases List.mem_append.mp hname with
    | inl hold =>
        obtain ⟨run, hne, hlt, hdisk⟩ := h name hold
        exact ⟨run, hne, hlt, (if_neg hnew).trans hdisk⟩
    | inr hmem => exact absurd (List.mem_singleton.mp hmem) hnew

/-- Two file names may be the same one, and the earlier run is lost then. -/
theorem RunFiles.MemorySort {s s' : CBaseExternSort R} {disk disk' : Disk} {count : Nat}
    {items : List (R × Bytes)} (h : RunFiles p s disk)
    (hsort : MemorySort p s disk count items = .ok (s', disk', true)) : RunFiles p s' disk' := by
  induction items generalizing s disk count with
  | nil =>
      rw [CBaseExternSort.MemorySort] at hsort
      split at hsort
      · next hlen =>
        exact h.writeRun (List.ne_nil_of_length_pos (Nat.pos_of_ne_zero hlen)) hsort
      · cases hsort
        exact h
  | cons item items ih =>
      rw [CBaseExternSort.MemorySort] at hsort
      dsimp only at hsort
      have hpush : RunFiles p { s with m_sort_item := s.m_sort_item ++ [item] } disk := h
      split at hsort
      · cases hsort
      split at hsort
      · rcases hwrite : CBaseExternSort.writeRun p
          { s with m_sort_item := s.m_sort_item ++ [item] } disk with e | ⟨s'', disk'', _ | _⟩
        · rw [hwrite] at hsort
          cases hsort
        · rw [hwrite] at hsort
          cases hsort
        · rw [hwrite] at hsort
          refine ih (hpush.writeRun ?_ hwrite) hsort
          exact List.append_ne_nil_of_right_ne_nil _ (List.cons_ne_nil _ _)
      · exact ih hpush hsort

theorem exists_runs {disk : Disk} {names : List Bytes}
    (h : ∀ name ∈ names, ∃ run : List (R × Bytes), run ≠ [] ∧
      (∀ x ∈ run, x.2.length < 4294967296) ∧ disk name = some (encode p run)) :
    ∃ runs : List (List (R × Bytes)), names.mapM disk = some (runs.map (encode p)) ∧
      runs.length = names.length ∧ (∀ run ∈ runs, run ≠ []) ∧
      ∀ run ∈ runs, ∀ x ∈ run, x.2.length < 4294967296 := by
  induction names with
  | nil =>
      exact ⟨[], rfl, rfl, fun run hrun => absurd hrun List.not_mem_nil,
        fun run hrun => absurd hrun List.not_mem_nil⟩
  | cons name names ih =>
      have hnames := List.forall_mem_cons.mp h
      obtain ⟨run, hne, hlt, hdisk⟩ := hnames.1
      obtain ⟨runs, hmap, hlen, hnes, hlts⟩ := ih hnames.2
      refine ⟨run :: runs, ?_, congrArg Nat.succ hlen, ?_, ?_⟩
      · rw [List.mapM_cons, hdisk, hmap]
        rfl
      · exact List.forall_mem_cons.mpr ⟨hne, hnes⟩
      · intro r hr
        cases List.mem_cons.mp hr with
        | inl heq =>
            rw [heq]
            exact hlt
        | inr hmem => exact hlts r hmem

/-! ## The merge -/

variable [Inhabited R]

/-- The merge ends without a fault, and delivers the records of the files. -/
def MergeSafe (p : SortPlatform R) (s : CBaseExternSort R) (disk : Disk) : Prop :=
  ∃ (set : List (R × Bytes)) (runs : List (List (R × Bytes))), MergeSort p s disk = .ok set ∧
    s.m_sort_file.mapM disk = some (runs.map (encode p)) ∧ set.Perm runs.flatten

omit [Inhabited R] in
variable (p) in
/-- The records in the files have room in the buffer. -/
def RecordsFit (s : CBaseExternSort R) (disk : Disk) : Prop :=
  ∃ runs : List (List (R × Bytes)), s.m_sort_file.mapM disk = some (runs.map (encode p)) ∧
    InBuffer s.m_buffer_len runs

theorem MergeSort_fits {s : CBaseExternSort R} {disk : Disk} {runs : List (List (R × Bytes))}
    {set : List (R × Bytes)} (h : MergeSort p s disk = .ok set)
    (hdisk : s.m_sort_file.mapM disk = some (runs.map (encode p))) (hne : ∀ run ∈ runs, run ≠ [])
    (hlt : ∀ run ∈ runs, ∀ x ∈ run, x.2.length < 4294967296) :
    runs ≠ [] ∧ s.m_sort_file.length < 4294967296 ∧ InBuffer s.m_buffer_len runs := by
  rw [MergeSort] at h
  split at h
  · cases h
  · next hcount =>
    rw [hdisk] at h
    dsimp only at h
    cases hopen : openFiles p ⟨s.m_buffer_len, p.raw⟩ (runs.map (encode p)) with
    | error e =>
        rw [hopen] at h
        cases h
    | ok out =>
        have hheads := openFiles_heads hlt hopen
        obtain ⟨readers, m_buffer, hread, hsize, hreading, hall⟩ :=
          openFiles_reading (p := p) ⟨s.m_buffer_len, p.raw⟩
            (fun run hrun x hx => ⟨hheads run hrun x hx, hlt run hrun x (List.mem_of_mem_head? hx)⟩)
            hne
        rw [hread] at h
        cases readers with
        | nil => cases h
        | cons reader readers =>
            have hbest : OpenAt (reader :: readers) (reader.rank, 0) :=
              ⟨reader, rfl, hall reader List.mem_cons_self, rfl⟩
            have htails := mergeLoop_tails hreading hlt hbest h
            rw [hsize] at htails
            refine ⟨?_, Nat.lt_of_not_le hcount, ?_⟩
            · rintro rfl
              cases hreading.length
            · intro run hrun x hx
              refine ⟨?_, hlt run hrun x hx⟩
              obtain ⟨a, rest, rfl⟩ := List.exists_cons_of_ne_nil (hne run hrun)
              cases List.mem_cons.mp hx with
              | inl heq => exact hheads _ hrun x (by rw [heq]; rfl)
              | inr hmem => exact htails _ hrun x hmem

omit [Inhabited R] in
theorem ne_nil_of_encode {run run' : List (R × Bytes)} (h : encode p run = encode p run')
    (hne : run ≠ []) : run' ≠ [] := by
  rintro rfl
  have hlen := length_le_encode (p := p) run
  rw [h] at hlen
  exact hne (List.length_eq_zero_iff.mp (Nat.le_zero.mp hlen))

/-- The merge is safe when there is a file, the files can be counted and the buffer is large
enough for the records. -/
theorem MergeSort_safe_iff (p : SortPlatform R) {tmp_path : Bytes} {sort_num : Nat} {disk : Disk}
    {items : List (R × Bytes)} {s : CBaseExternSort R} {disk' : Disk}
    (h : MemorySort p (Init tmp_path sort_num) disk 0 items = .ok (s, disk', true)) :
    MergeSafe p s disk' ↔
      0 < s.m_sort_file.length ∧ s.m_sort_file.length < 4294967296 ∧ RecordsFit p s disk' := by
  have hstart : RunFiles p (Init tmp_path sort_num) disk :=
    fun name hname => absurd hname List.not_mem_nil
  have hfiles : RunFiles p s disk' := hstart.MemorySort h
  obtain ⟨runs, hdisk, hlen, hne, hlt⟩ := exists_runs hfiles
  constructor
  · rintro ⟨set, -, hmerge, -⟩
    obtain ⟨hruns, hcount, hbuffer⟩ := MergeSort_fits hmerge hdisk hne hlt
    refine ⟨?_, hcount, runs, hdisk, hbuffer⟩
    rw [← hlen]
    exact List.length_pos_of_ne_nil hruns
  · rintro ⟨hpos, hcount, runs', hdisk', hbuffer⟩
    have hsame : runs.map (encode p) = runs'.map (encode p) :=
      Option.some.inj (hdisk.symm.trans hdisk')
    have hlen' : runs'.length = s.m_sort_file.length := by
      have hmap := congrArg List.length hsame
      rw [List.length_map, List.length_map, hlen] at hmap
      exact hmap.symm
    have hne' : ∀ run ∈ runs', run ≠ [] := by
      intro run' hrun'
      have hmem : encode p run' ∈ runs.map (encode p) := by
        rw [hsame]
        exact List.mem_map_of_mem hrun'
      obtain ⟨run, hrun, heq⟩ := List.mem_map.mp hmem
      exact ne_nil_of_encode heq (hne run hrun)
    obtain ⟨out, hmerge, hmerges⟩ := MergeSort_runs hdisk' hcount
      (List.ne_nil_of_length_pos (by rw [hlen']; exact hpos)) hne' hbuffer
    exact ⟨out, runs', hmerge, hdisk', hmerges.perm⟩

/-- Two runs, of which the second one has the greater rank. -/
theorem MergeSort_safe_two : ∃ s disk, MemorySort bytePlatform (Init [46] 1) (fun _ => none) 0
    [(1, [97]), (3, [98])] = .ok (s, disk, true) ∧ MergeSafe bytePlatform s disk := by
  have hsort : ∃ s disk, MemorySort bytePlatform (Init [46] 1) (fun _ => none) 0
      [(1, [97]), (3, [98])] = .ok (s, disk, true) ∧ s.m_sort_file.length = 2 ∧
      s.m_buffer_len = 2 ∧ s.m_sort_file.mapM disk =
        some ([[(1, [97])], [(3, [98])]].map (encode bytePlatform)) :=
    ⟨_, _, rfl, rfl, rfl, by decide +kernel⟩
  obtain ⟨s, disk, hmemory, hlen, hbuffer, hdisk⟩ := hsort
  refine ⟨s, disk, hmemory, (MergeSort_safe_iff bytePlatform hmemory).mpr ⟨?_, ?_, _, hdisk, ?_⟩⟩
  · omega
  · omega
  · rw [hbuffer]
    intro run hrun x hx
    have hall : ∀ run ∈ [[(1, [97])], [((3 : Fin 256), ([98] : Bytes))]], ∀ x ∈ run,
        x.2.length ≤ 2 ∧ x.2.length < 4294967296 := by
      decide
    exact hall run hrun x hx

/-- No items and no files: `vect_rank[0]` is read. -/
theorem MergeSort_no_files :
    MemorySort bytePlatform (Init [46] 1) (fun _ => none) 0 [] =
        .ok (Init [46] 1, fun _ => none, true) ∧
      ¬ MergeSafe bytePlatform (Init [46] 1) fun _ => none := by
  refine ⟨rfl, ?_⟩
  rintro ⟨set, runs, h, -⟩
  cases h

end CBaseExternSort

end CommonCc
