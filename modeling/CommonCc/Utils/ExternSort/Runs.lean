import CommonCc.Utils.ExternSort.Model

/-!
# The runs in the files

What `MemorySort` leaves behind: one file for each run, with the records of the run in order.
-/

namespace CommonCc

/-! ## Cutting into runs -/

section Cut

variable {α : Type} {n : Nat}

/-- The runs of a list, where `count` items have been taken before and those of `run` are not in
a file yet. -/
def cutRuns (n : Nat) : Nat → List α → List α → List (List α)
  | _, run, [] => if run = [] then [] else [run]
  | count, run, a :: l =>
      if u32 (count + 1) % n = 0 then (run ++ [a]) :: cutRuns n (u32 (count + 1)) [] l
      else cutRuns n (u32 (count + 1)) (run ++ [a]) l

theorem flatten_cutRuns (n count : Nat) (run l : List α) :
    (cutRuns n count run l).flatten = run ++ l := by
  induction l generalizing count run with
  | nil =>
      rw [cutRuns, List.append_nil]
      split
      · next h => rw [h, List.flatten_nil]
      · rw [List.flatten_cons, List.flatten_nil, List.append_nil]
  | cons a l ih =>
      rw [cutRuns]
      split
      · rw [List.flatten_cons, ih, List.nil_append, List.append_assoc, List.singleton_append]
      · rw [ih, List.append_assoc, List.singleton_append]

theorem ne_nil_of_mem_cutRuns {count : Nat} {run l r : List α} (h : r ∈ cutRuns n count run l) :
    r ≠ [] := by
  induction l generalizing count run with
  | nil =>
      rw [cutRuns] at h
      split at h
      · cases h
      · next hne => rw [List.mem_singleton.mp h]; exact hne
  | cons a l ih =>
      rw [cutRuns] at h
      split at h
      · cases List.mem_cons.mp h with
        | inl heq => rw [heq]; exact List.append_ne_nil_of_right_ne_nil _ (List.cons_ne_nil _ _)
        | inr hmem => exact ih hmem
      · exact ih h

/-- The length of the run at hand is what the counter says. -/
theorem length_append_of_mod (hn : 0 < n) {count : Nat} {run : List α}
    (hrun : run.length = count % n) (hcount : count < 4294967296) (a : α)
    (h : u32 (count + 1) % n ≠ 0) : (run ++ [a]).length = u32 (count + 1) % n := by
  have hlt : count + 1 < 4294967296 := by
    apply Nat.lt_of_le_of_ne hcount
    intro heq
    have hwrap : u32 (count + 1) = 0 := by rw [show count + 1 = 4294967296 from heq]; rfl
    exact h (by rw [hwrap, Nat.zero_mod])
  rw [u32_of_lt hlt] at h ⊢
  have hmod : (count + 1) % n = (count % n + 1) % n := by rw [Nat.add_mod, Nat.add_mod_mod]
  have hle : count % n + 1 ≤ n := Nat.mod_lt count hn
  rw [hmod] at h ⊢
  have hne : count % n + 1 ≠ n := fun heq => h (by rw [heq, Nat.mod_self])
  rw [List.length_append, hrun, List.length_singleton,
    Nat.mod_eq_of_lt (Nat.lt_of_le_of_ne hle hne)]

theorem u32_lt (k : Nat) : u32 k < 4294967296 := Nat.mod_lt k (by decide)

/-- A run is no longer than the counter allows. -/
theorem length_le_of_mod (hn : 0 < n) {count : Nat} {run : List α} (hrun : run.length = count % n)
    (a : α) : (run ++ [a]).length ≤ n := by
  rw [List.length_append, hrun]
  exact Nat.mod_lt count hn

end Cut

namespace CBaseExternSort

/-! ## Lengths of items -/

section Lengths

variable {R : Type}

/-- As much of the item as its length in the file tells. -/
def truncated (s : R × Bytes) : R × Bytes := (s.1, s.2.take (u32 s.2.length))

/-- `m_buffer_len` behind the items, which makes room for an item that is longer than all others
so far. -/
def bufferLen (m_buffer_len : Nat) (items : List (R × Bytes)) : Nat :=
  items.foldl (fun len s =>
    if len < u32 s.2.length then u32 (u32 s.2.length + 1) else len) m_buffer_len

theorem truncated_length (s : R × Bytes) : (truncated s).2.length = u32 s.2.length := by
  rw [truncated, List.length_take]
  exact Nat.min_eq_left (Nat.mod_le _ _)

theorem truncated_eq {s : R × Bytes} (h : s.2.length < 4294967296) : truncated s = s := by
  rw [truncated, u32_of_lt h, List.take_length]

theorem map_truncated {items : List (R × Bytes)} (h : ∀ s ∈ items, s.2.length < 4294967296) :
    items.map truncated = items := by
  conv_rhs => rw [← List.map_id items]
  exact List.map_congr_left fun s hs => truncated_eq (h s hs)

/-- The buffer grows, and has room for all items when none has 2^32 - 1 bytes. -/
theorem le_bufferLen {items : List (R × Bytes)} (h : ∀ s ∈ items, s.2.length ≤ 4294967294)
    (m_buffer_len : Nat) : m_buffer_len ≤ bufferLen m_buffer_len items ∧
      ∀ s ∈ items, s.2.length ≤ bufferLen m_buffer_len items := by
  induction items generalizing m_buffer_len with
  | nil => exact ⟨Nat.le_refl _, fun s hs => absurd hs List.not_mem_nil⟩
  | cons s items ih =>
      have hs := List.forall_mem_cons.mp h
      have hst : u32 s.2.length = s.2.length := u32_of_lt (Nat.lt_of_le_of_lt hs.1 (by decide))
      have hsucc : u32 (s.2.length + 1) = s.2.length + 1 :=
        u32_of_lt (Nat.succ_lt_succ (Nat.lt_of_le_of_lt hs.1 (by decide)))
      have hnext : bufferLen m_buffer_len (s :: items) =
          bufferLen (if m_buffer_len < s.2.length then s.2.length + 1 else m_buffer_len) items := by
        rw [bufferLen, List.foldl_cons, hst, hsucc]
        rfl
      rw [hnext]
      generalize hbuffer : (if m_buffer_len < s.2.length then s.2.length + 1 else m_buffer_len) =
        len
      have hgrows : m_buffer_len ≤ len ∧ s.2.length ≤ len := by
        rw [← hbuffer]
        split <;> omega
      obtain ⟨hle, hall⟩ := ih hs.2 len
      refine ⟨Nat.le_trans hgrows.1 hle, ?_⟩
      intro s' hs'
      cases List.mem_cons.mp hs' with
      | inl heq => rw [heq]; exact Nat.le_trans hgrows.2 hle
      | inr hmem => exact hall s' hmem

end Lengths

section Runs

variable {R : Type} [LinearOrder R] (p : SortPlatform R)

/-! ## One run -/

def record (s : R × Bytes) : Bytes := p.bits s.1 ++ u32Bytes s.2.length ++ s.2

def encode (run : List (R × Bytes)) : Bytes := run.flatMap (record p)

/-- The items whose length the format can tell, with room for one more in `m_buffer_len`. -/
def Fits (s : R × Bytes) : Prop := 0 < s.2.length ∧ s.2.length ≤ 4294967294

variable {p}

/-- All is written unless there is an item whose length in the file is 0. -/
theorem writeItems_iff {items : List (R × Bytes)} {m_buffer_len len : Nat} {file f : Bytes} :
    writeItems p items m_buffer_len file = (len, f, true) ↔
      (∀ s ∈ items, u32 s.2.length ≠ 0) ∧ bufferLen m_buffer_len items = len ∧
        file ++ encode p (items.map truncated) = f := by
  induction items generalizing m_buffer_len file with
  | nil =>
      rw [writeItems, bufferLen, List.foldl_nil, List.map_nil, encode, List.flatMap_nil,
        List.append_nil]
      simp
  | cons s items ih =>
      rw [writeItems]
      by_cases hst : u32 s.2.length = 0
      · rw [if_pos hst]
        constructor
        · intro h
          cases h
        · intro h
          exact absurd hst (h.1 s List.mem_cons_self)
      · have hfile : file ++ p.bits s.1 ++ u32Bytes (u32 s.2.length) ++ s.2.take (u32 s.2.length) ++
            encode p (items.map truncated) = file ++ encode p ((s :: items).map truncated) := by
          rw [List.map_cons, encode, encode, List.flatMap_cons, record, truncated_length]
          simp only [List.append_assoc]
          rfl
        rw [if_neg hst, ih, hfile, List.forall_mem_cons]
        simp only [hst, ne_eq, not_false_eq_true, true_and]
        rfl

theorem writeItems_fits {items : List (R × Bytes)} (h : ∀ s ∈ items, Fits s) (m_buffer_len : Nat)
    (file : Bytes) :
    ∃ len, writeItems p items m_buffer_len file = (len, file ++ encode p items, true) ∧
      m_buffer_len ≤ len ∧ ∀ s ∈ items, s.2.length ≤ len := by
  have hlt : ∀ s ∈ items, s.2.length < 4294967296 := fun s hs =>
    Nat.lt_of_le_of_lt (h s hs).2 (by decide)
  have hpos : ∀ s ∈ items, u32 s.2.length ≠ 0 := fun s hs => by
    rw [u32_of_lt (hlt s hs)]
    exact Nat.ne_of_gt (h s hs).1
  have hgrows := le_bufferLen (fun s hs => (h s hs).2) m_buffer_len
  refine ⟨bufferLen m_buffer_len items, writeItems_iff.mpr ⟨hpos, rfl, ?_⟩, hgrows⟩
  rw [map_truncated hlt]

theorem writeRun_fits {s : CBaseExternSort R} (h : ∀ x ∈ s.m_sort_item, Fits x)
    (hlen : s.m_sort_item.length < 4294967296) (disk : Disk) :
    ∃ len, writeRun p s disk = .ok ({ s with
          m_buffer_len := len
          m_sort_file := s.m_sort_file ++ [tmpBuf s.m_path s.m_sort_file.length]
          m_sort_item := [] },
        disk.write (tmpBuf s.m_path s.m_sort_file.length) (encode p (p.sort s.m_sort_item)), true) ∧
      s.m_buffer_len ≤ len ∧ ∀ x ∈ p.sort s.m_sort_item, x.2.length ≤ len := by
  have hperm := p.sort_perm s.m_sort_item
  have hsorted : ∀ x ∈ p.sort s.m_sort_item, Fits x := fun x hx => h x (hperm.mem_iff.mp hx)
  obtain ⟨len, hitems, hle, hall⟩ := writeItems_fits hsorted s.m_buffer_len []
  refine ⟨len, ?_, hle, hall⟩
  rw [writeRun, WriteFile, if_neg (by rw [hperm.length_eq]; exact Nat.not_le.mpr hlen)]
  dsimp only
  rw [hitems]
  rfl

/-! ## All runs -/

variable (p) in
/-- The files of the runs so far.  A file whose name is taken again is lost. -/
structure Stored (s : CBaseExternSort R) (disk : Disk) (runs : List (List (R × Bytes))) : Prop where
  files : s.m_sort_file = (List.range runs.length).map (tmpBuf s.m_path)
  disk : ∀ i run, runs[i]? = some run →
    (∀ j, j < runs.length → tmpBuf s.m_path j = tmpBuf s.m_path i → j = i) →
    disk (tmpBuf s.m_path i) = some (encode p run)
  bound : ∀ run ∈ runs, ∀ x ∈ run, x.2.length ≤ s.m_buffer_len

theorem stored_Init (tmp_path : Bytes) (sort_num : Nat) (disk : Disk) :
    Stored p (Init tmp_path sort_num) disk [] :=
  ⟨rfl, fun i run hi => absurd hi (by simp), fun run hrun => absurd hrun List.not_mem_nil⟩

theorem Stored.writeRun {s : CBaseExternSort R} {disk : Disk} {runs : List (List (R × Bytes))}
    (h : Stored p s disk runs) (hfits : ∀ x ∈ s.m_sort_item, Fits x)
    (hlen : s.m_sort_item.length < 4294967296) :
    ∃ s' disk', writeRun p s disk = .ok (s', disk', true) ∧
      Stored p s' disk' (runs ++ [p.sort s.m_sort_item]) ∧ s'.m_path = s.m_path ∧
      s'.m_sort_num = s.m_sort_num ∧ s'.m_sort_item = [] := by
  obtain ⟨len, hwrite, hle, hall⟩ := writeRun_fits (p := p) hfits hlen disk
  have hfiles : s.m_sort_file.length = runs.length := by
    rw [h.files, List.length_map, List.length_range]
  have hnew : (runs ++ [p.sort s.m_sort_item]).length = runs.length + 1 := by
    rw [List.length_append, List.length_singleton]
  refine ⟨_, _, hwrite, ?_, rfl, rfl, rfl⟩
  rw [hfiles]
  exact {
    files := by
      dsimp only
      rw [hnew, List.range_succ, List.map_append, h.files]
      rfl
    disk := by
      intro i run hi hunique
      rw [hnew] at hunique
      rw [Disk.write]
      cases Nat.lt_or_ge i runs.length with
      | inl hold =>
          rw [List.getElem?_append_left hold] at hi
          -- the name of an old file that is not shared is not the new one
          have hne : tmpBuf s.m_path i ≠ tmpBuf s.m_path runs.length := by
            intro heq
            have hlast := hunique runs.length (Nat.lt_succ_self _) heq.symm
            omega
          rw [if_neg hne]
          exact h.disk i run hi fun j hj => hunique j (Nat.lt_succ_of_lt hj)
      | inr hge =>
          have hlt : i < (runs ++ [p.sort s.m_sort_item]).length :=
            (List.getElem?_eq_some_iff.mp hi).1
          have heq : i = runs.length := by omega
          rw [heq, List.getElem?_concat_length] at hi
          rw [heq, if_pos rfl, ← Option.some.inj hi]
    bound := by
      intro run hrun x hx
      cases List.mem_append.mp hrun with
      | inl hold => exact Nat.le_trans (h.bound run hold x hx) hle
      | inr hlast =>
          rw [List.mem_singleton.mp hlast] at hx
          exact hall x hx }

theorem MemorySort_stored {n : Nat} (hn : 0 < n) (hn' : n < 4294967296)
    {s : CBaseExternSort R} {disk : Disk} {runs : List (List (R × Bytes))} {count : Nat}
    {items : List (R × Bytes)} (h : Stored p s disk runs) (hnum : s.m_sort_num = n)
    (hcount : count < 4294967296) (hrun : s.m_sort_item.length = count % n)
    (hfits : ∀ x ∈ s.m_sort_item ++ items, Fits x) :
    ∃ s' disk', MemorySort p s disk count items = .ok (s', disk', true) ∧
      Stored p s' disk' (runs ++ (cutRuns n count s.m_sort_item items).map p.sort) ∧
      s'.m_path = s.m_path := by
  induction items generalizing s disk runs count with
  | nil =>
      rw [List.append_nil] at hfits
      rw [MemorySort, cutRuns]
      by_cases hempty : s.m_sort_item = []
      · rw [if_neg (by rw [hempty]; exact not_not_intro rfl), if_pos hempty, List.map_nil,
          List.append_nil]
        exact ⟨s, disk, rfl, h, rfl⟩
      · have hlen : s.m_sort_item.length < 4294967296 := by
          rw [hrun]
          exact Nat.lt_trans (Nat.mod_lt count hn) hn'
        obtain ⟨s', disk', hwrite, hstored, hpath, -⟩ := h.writeRun hfits hlen
        rw [if_pos (fun hzero => hempty (List.length_eq_zero_iff.mp hzero)), if_neg hempty]
        exact ⟨s', disk', hwrite, hstored, hpath⟩
  | cons item items ih =>
      subst hnum
      have hfits' : ∀ x ∈ (s.m_sort_item ++ [item]) ++ items, Fits x := by
        rw [List.append_assoc]
        exact hfits
      have hpush : Stored p { s with m_sort_item := s.m_sort_item ++ [item] } disk runs :=
        ⟨h.files, h.disk, h.bound⟩
      rw [MemorySort, cutRuns]
      dsimp only
      rw [if_neg (Nat.ne_of_gt hn)]
      split
      · next hzero =>
        obtain ⟨s₁, disk₁, hwrite, hstored, hpath, hnum₁, hitem⟩ := hpush.writeRun
          (fun x hx => hfits' x (List.mem_append_left _ hx))
          (Nat.lt_of_le_of_lt (length_le_of_mod hn hrun item) hn')
        obtain ⟨s', disk', hrest, hstored', hpath'⟩ := ih hstored hnum₁
          (u32_lt _) (by rw [hitem, hzero]; rfl)
          (fun x hx => by
            rw [hitem, List.nil_append] at hx
            exact hfits' x (List.mem_append_right _ hx))
        rw [hitem, List.append_assoc] at hstored'
        exact ⟨s', disk', by rw [hwrite]; exact hrest, hstored', hpath'.trans hpath⟩
      · next hne =>
        exact ih hpush rfl (u32_lt _) (length_append_of_mod hn hrun hcount item hne) hfits'

end Runs

end CBaseExternSort

end CommonCc
