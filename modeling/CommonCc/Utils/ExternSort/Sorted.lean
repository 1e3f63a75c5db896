import Mathlib.Data.List.Sort
import Mathlib.Order.Fin.Basic
import CommonCc.Numbers
import CommonCc.Utils.ExternSort.Merging

/-!
# The sort

`MemorySort` and `MergeSort` together deliver the items in the order of their ranks, as long as
the numbers and the names of the format go far enough.
-/

namespace CommonCc

namespace CBaseExternSort

variable {R : Type} [LinearOrder R] {p : SortPlatform R}

/-! ## The names of the files -/

theorem printLong_toInt_inj {i j : Nat} (hi : i < 4294967296) (hj : j < 4294967296)
    (h : printLong (toInt i) = printLong (toInt j)) : i = j := by
  have heq : toInt i = toInt j := by
    rw [← atoi_printLong (toInt_range i).1 (toInt_range i).2, h,
      atoi_printLong (toInt_range j).1 (toInt_range j).2]
  unfold toInt at heq
  omega

/-- Names that are not cut short are different. -/
theorem tmpBuf_inj {path : Bytes} {n : Nat} (hn : n ≤ 4294967296)
    (hfit : ∀ i, i < n → (filePath path i).length ≤ 511) {i j : Nat} (hi : i < n) (hj : j < n)
    (h : tmpBuf path i = tmpBuf path j) : i = j := by
  rw [tmpBuf, tmpBuf, List.take_of_length_le (hfit i hi), List.take_of_length_le (hfit j hj),
    filePath, filePath, List.append_cancel_right_eq, List.append_cancel_left_eq] at h
  exact printLong_toInt_inj (Nat.lt_of_lt_of_le hi hn) (Nat.lt_of_lt_of_le hj hn) h

/-- The names of the files are whole behind a short path. -/
theorem filePath_length_le (path : Bytes) (i : Nat) :
    (filePath path i).length ≤ path.length + 28 := by
  have hpath : (path.takeWhile (· ≠ 0)).length ≤ path.length := (List.takeWhile_prefix _).length_le
  have hnumber : (printLong (toInt i)).length ≤ 11 := by
    have hrange := toInt_range i
    exact printLong_length_le (by omega)
  rw [filePath, List.length_append, List.length_append, List.length_append, ascii, ascii,
    List.length_map, List.length_map]
  simp only [List.length_cons, List.length_nil]
  omega

/-! ## The files of the runs -/

theorem mapM_of_getElem? {α β : Type} {f : α → Option β} {l : List α} {l' : List β}
    (hlen : l.length = l'.length)
    (h : ∀ (i : Nat) a b, l[i]? = some a → l'[i]? = some b → f a = some b) : l.mapM f = some l' := by
  induction l generalizing l' with
  | nil =>
      rw [List.length_eq_zero_iff.mp hlen.symm]
      rfl
  | cons a l ih =>
      cases l' with
      | nil => cases hlen
      | cons b l' =>
          rw [List.mapM_cons, h 0 a b rfl rfl,
            ih (Nat.succ.inj hlen) fun i a b hi hi' => h (i + 1) a b hi hi']
          rfl

theorem Stored.mapM_disk {s : CBaseExternSort R} {disk : Disk} {runs : List (List (R × Bytes))}
    (h : Stored p s disk runs)
    (hunique : ∀ i j, i < runs.length → j < runs.length →
      tmpBuf s.m_path i = tmpBuf s.m_path j → i = j) :
    s.m_sort_file.mapM disk = some (runs.map (encode p)) := by
  rw [h.files]
  apply mapM_of_getElem?
  · rw [List.length_map, List.length_map, List.length_range]
  · intro i name content hname hcontent
    rw [List.getElem?_map] at hname hcontent
    cases hrun : runs[i]? with
    | none => rw [hrun] at hcontent; cases hcontent
    | some run =>
        rw [hrun] at hcontent
        cases hcontent
        have hlt : i < runs.length := (List.getElem?_eq_some_iff.mp hrun).1
        rw [List.getElem?_range hlt] at hname
        cases hname
        exact h.disk i run hrun fun j hj heq => hunique j i hj hlt heq

theorem length_le_encode (run : List (R × Bytes)) : run.length ≤ (encode p run).length := by
  induction run with
  | nil => exact Nat.zero_le _
  | cons x run ih =>
      have hrecord : 0 < (record p x).length := by
        rw [record, List.length_append, List.length_append, p.bits_length]
        omega
      rw [show encode p (x :: run) = record p x ++ encode p run from List.flatMap_cons,
        List.length_append, List.length_cons]
      omega

theorem flatten_length_le (runs : List (List (R × Bytes))) :
    runs.flatten.length ≤ ((runs.map (encode p)).map List.length).sum := by
  induction runs with
  | nil => exact Nat.le_refl _
  | cons run runs ih =>
      have hrun := length_le_encode (p := p) run
      rw [List.flatten_cons, List.length_append, List.map_cons, List.map_cons, List.sum_cons]
      omega

theorem MergeSort_runs [Inhabited R] {s : CBaseExternSort R} {disk : Disk}
    {runs : List (List (R × Bytes))} (hdisk : s.m_sort_file.mapM disk = some (runs.map (encode p)))
    (hcount : s.m_sort_file.length < 4294967296) (hruns : runs ≠ []) (hne : ∀ run ∈ runs, run ≠ [])
    (hbuffer : InBuffer s.m_buffer_len runs) :
    ∃ out, MergeSort p s disk = .ok out ∧ Merges RankBefore runs out := by
  obtain ⟨readers, m_buffer, hopen, hsize, hreading, hall⟩ :=
    openFiles_reading (p := p) ⟨s.m_buffer_len, p.raw⟩
      (fun run hrun x hx => hbuffer run hrun x (List.mem_of_mem_head? hx)) hne
  rw [MergeSort, if_neg (Nat.not_le.mpr hcount), hdisk]
  dsimp only
  rw [hopen]
  dsimp only
  cases readers with
  | nil => exact absurd (List.length_eq_zero_iff.mp hreading.length.symm) hruns
  | cons reader readers =>
      have hbest : OpenAt (reader :: readers) (reader.rank, 0) :=
        ⟨reader, rfl, hall reader List.mem_cons_self, rfl⟩
      have hfuel := flatten_length_le (p := p) runs
      obtain ⟨out, hloop, hmerges⟩ := mergeLoop_merges hreading
        (by rw [hsize]; exact hbuffer) hbest
        (Nat.le_trans hfuel (Nat.le_add_right_of_le (Nat.le_add_right _ _))) []
      exact ⟨out, hloop, hmerges⟩

theorem MergeSort_stored [Inhabited R] {s : CBaseExternSort R} {disk : Disk}
    {runs : List (List (R × Bytes))} (h : Stored p s disk runs)
    (hunique : ∀ i j, i < runs.length → j < runs.length →
      tmpBuf s.m_path i = tmpBuf s.m_path j → i = j)
    (hcount : runs.length < 4294967296) (hruns : runs ≠ []) (hne : ∀ run ∈ runs, run ≠ [])
    (hfits : ∀ run ∈ runs, ∀ x ∈ run, Fits x) :
    ∃ out, MergeSort p s disk = .ok out ∧ Merges RankBefore runs out := by
  have hlen : s.m_sort_file.length = runs.length := by
    rw [h.files, List.length_map, List.length_range]
  exact MergeSort_runs (h.mapM_disk hunique) (by rw [hlen]; exact hcount) hruns hne
    fun run hrun x hx =>
      ⟨h.bound run hrun x hx, Nat.lt_of_le_of_lt (hfits run hrun x hx).2 (by decide)⟩

/-! ## From the items to the calls of `SetItem` -/

theorem flatten_map_sort_perm (runs : List (List (R × Bytes))) :
    (runs.map p.sort).flatten.Perm runs.flatten := by
  induction runs with
  | nil => exact List.Perm.refl _
  | cons run runs ih =>
      rw [List.map_cons, List.flatten_cons, List.flatten_cons]
      exact (p.sort_perm run).append ih

/-- All items are delivered in the order of their ranks. -/
def Delivers [Inhabited R] (p : SortPlatform R) (tmp_path : Bytes) (sort_num : Nat) (disk : Disk)
    (items : List (R × Bytes)) : Prop :=
  ∃ set, CBaseExternSort.Sort p (Init tmp_path sort_num) disk items = .ok (set, true) ∧
    set.Perm items ∧ set.Pairwise fun a b => b.1 ≤ a.1

/-- The order of `SortFunction`: the first item need not come behind the second. -/
def NotAfter (s1 s2 : Fin 256 × Bytes) : Prop := s2.1 ≤ s1.1

instance : DecidableRel NotAfter := fun s1 s2 => inferInstanceAs (Decidable (s2.1 ≤ s1.1))

instance : Std.Total NotAfter := ⟨fun s1 s2 => le_total s2.1 s1.1⟩

instance : IsTrans (Fin 256 × Bytes) NotAfter := ⟨fun _ _ _ h h' => le_trans h' h⟩

/-- Ranks of one byte, and a sort that keeps the order of equal ranks. -/
def bytePlatform : SortPlatform (Fin 256) where
  bits rank := rank.val.toUInt8 :: List.replicate 7 0
  ofBits b := ⟨(b.headD 0).toNat, (b.headD 0).toNat_lt⟩
  sort l := l.insertionSort NotAfter
  raw _ := 0
  bits_length _ := rfl
  ofBits_bits rank := by
    apply Fin.ext
    exact Nat.mod_eq_of_lt rank.isLt
  sort_perm l := List.perm_insertionSort _ l
  sort_pairwise l := List.pairwise_insertionSort NotAfter l

end CBaseExternSort

end CommonCc
