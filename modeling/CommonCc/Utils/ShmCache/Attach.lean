import CommonCc.Utils.ShmCache.Layout

/-!
# Attaching to a segment

`Init` takes a segment as initialised when the word at its own `m_shm_size` is its own
total size.  Other parameters with the same total pass this test.
-/

namespace CommonCc

open CShmCache (LayoutFits)

/-- The unit in which the kernel maps a segment. -/
def PAGE_SIZE : Nat := 4096

/-- A segment with the size it was created with and the bytes of its pages. -/
structure Segment where
  size : Nat
  data : Memory UInt8

/-- `shmget` with `IPC_CREAT`, and `shmat`: a new segment is zero, and an existing one must
be large enough. -/
def shmget (seg : Option Segment) (size : Nat) : Option Segment :=
  match seg with
  | none =>
      if size = 0 then none
      else some ⟨size, ⟨(size + (PAGE_SIZE - 1)) / PAGE_SIZE * PAGE_SIZE, fun _ => 0⟩⟩
  | some seg => if seg.size < size then none else some seg

/-- How `Init` ends: `ERR_IPC`, or `ERR_OK` on a segment that it took as initialised or that
it initialised itself. -/
inductive InitOutcome where
  | failed
  | already
  | initialised
deriving Repr, DecidableEq

section Init

variable (block_num block_size : Nat)

/-- What `Init` stores in a block head; `m_uptime` is left alone. -/
def headBytes (idx : Nat) : Bytes :=
  u32Bytes 0 ++ u32Bytes 0 ++ u32Bytes idx ++ u32Bytes 0 ++ u32Bytes 4294967295 ++
    u32Bytes (if idx = 0 then u32Sub block_num 1 else idx - 1) ++
    u32Bytes (if idx = u32Sub block_num 1 then 0 else idx + 1)

/-- A `time_t`. -/
def timeBytes (now : Nat) : Bytes := u32Bytes now ++ u32Bytes (now / 4294967296)

/-- What `Init` stores behind the size. -/
def initFields (now : Nat) : List (ShmField × Bytes) :=
  [(.op_time, timeBytes now)] ++
    (List.range block_num).map (fun idx => (.block idx, headBytes block_num idx)) ++
    (List.range HASH_MASK).map (fun idx => (.hash idx, u32Bytes 0 ++ u32Bytes 4294967295)) ++
    [(.lru_head, u32Bytes 0), (.lru_tail, u32Bytes (u32Sub block_num 1))]

/-- The bytes of a field and where they go. -/
def ShmField.write (w : ShmField × Bytes) : Nat × Bytes :=
  ((w.1.region block_num block_size).off, w.2)

/-- `Init` once the segment is attached. -/
def Segment.start (g : Segment) (now : Nat) : Except Fault (InitOutcome × Segment) := do
  let word ← checked (g.data.load (ShmField.shm_size.region block_num block_size).off 4)
  if leValue word = m_total_size block_num block_size then
    let _ ← checked (g.data.load (ShmField.op_time.region block_num block_size).off 8)
    return (.already, g)
  else
    let data ← checked (g.data.storeAll
      (((.shm_size, u32Bytes (m_total_size block_num block_size)) ::
        initFields block_num now).map (ShmField.write block_num block_size)))
    return (.initialised, { g with data := data })

/-- `CShmCache::Init` on the segment of a key, when the semaphore calls succeed. -/
def Segment.Init (seg : Option Segment) (now : Nat) :
    Except Fault (InitOutcome × Option Segment) :=
  match shmget seg (m_total_size block_num block_size) with
  | none => .ok (.failed, seg)
  | some g => (Segment.start block_num block_size g now).map fun r => (r.1, some r.2)

end Init

section Stamp

variable {block_num block_size now : Nat} {seg : Option Segment} {g g' : Segment}

/-- The word that a cache with these parameters takes for its size. -/
def Segment.stamp (g : Segment) (block_num block_size : Nat) : Nat :=
  leValue (g.data.read (ShmField.shm_size.region block_num block_size).off 4)

/-- The segment covers the layout, and its size is stored where it belongs. -/
structure Segment.Stamped (g : Segment) (block_num block_size : Nat) : Prop where
  size : m_total_size block_num block_size ≤ g.size
  mapped : m_total_size block_num block_size + 8 ≤ g.data.size
  stamp : g.stamp block_num block_size = m_total_size block_num block_size

theorem initFields_used {w : ShmField × Bytes} (hw : w ∈ initFields block_num now) :
    w.1.Used block_num ∧ w.1 ≠ .shm_size ∧ w.2.length ≤ (w.1.region block_num block_size).len := by
  simp only [initFields, List.mem_append, List.mem_cons, List.mem_map, List.mem_range,
    List.not_mem_nil, or_false] at hw
  rcases hw with ((rfl | ⟨idx, hidx, rfl⟩) | ⟨idx, hidx, rfl⟩) | rfl | rfl
  · exact ⟨trivial, by simp, Nat.le_refl 8⟩
  · exact ⟨hidx, by simp, show 28 ≤ 40 by decide⟩
  · exact ⟨hidx, by simp, Nat.le_refl 8⟩
  · exact ⟨trivial, by simp, Nat.le_refl 4⟩
  · exact ⟨trivial, by simp, Nat.le_refl 4⟩

theorem m_total_size_of_fits (hfit : LayoutFits block_num block_size) :
    m_total_size block_num block_size = (ShmField.shm_size.region block_num block_size).off + 4 ∧
      m_total_size block_num block_size = (ShmField.op_time.region block_num block_size).off ∧
      m_total_size block_num block_size = block_num * (block_size + 40) + 524300 := by
  have hfit' : block_num * block_size + block_num * 40 + 65536 * 8 + 12 < 4294967296 := hfit
  have hblock : m_block_offset block_num block_size = block_num * block_size :=
    u32_of_lt (by omega)
  have htotal : m_total_size block_num block_size = m_lru_offset block_num block_size + 12 := by
    refine u32_of_lt ?_
    rw [← m_block_offset, hblock, sizeof_SBlockHead, sizeof_SHashHead, HASH_MASK]
    omega
  refine ⟨htotal, htotal, ?_⟩
  rw [htotal, m_lru_offset, m_hash_offset, hblock, Nat.mul_add]
  simp only [sizeof_SBlockHead, sizeof_SHashHead, HASH_MASK]

theorem shmget_size {size : Nat} (h : shmget seg size = some g) : size ≤ g.size := by
  cases seg with
  | none =>
      by_cases h0 : size = 0
      · rw [h0]
        exact Nat.zero_le _
      · have hnew := (if_neg h0).symm.trans h
        cases hnew
        exact Nat.le_refl _
  | some old =>
      by_cases hlt : old.size < size
      · have hnone := (if_pos hlt).symm.trans h
        cases hnone
      · have hsame := (if_neg hlt).symm.trans h
        cases hsame
        exact Nat.le_of_not_lt hlt

theorem shmget_existing {old : Segment} {size : Nat} :
    shmget (some old) size = if old.size < size then none else some old := rfl

/-- The stores behind the size go elsewhere. -/
theorem initFields_apart (hdata : block_num * block_size < 4294967296)
    {w : Nat × Bytes}
    (hw : w ∈ (initFields block_num now).map (ShmField.write block_num block_size)) :
    (ShmField.shm_size.region block_num block_size).off + 4 ≤ w.1 ∨
      w.1 + w.2.length ≤ (ShmField.shm_size.region block_num block_size).off := by
  obtain ⟨f, hf, rfl⟩ := List.mem_map.mp hw
  obtain ⟨hused, hne, hlen⟩ := @initFields_used block_num block_size now f hf
  have hapart : (f.1.region block_num block_size).Apart
      (ShmField.shm_size.region block_num block_size) :=
    region_apart hdata hused trivial hne
  have hfour : (ShmField.shm_size.region block_num block_size).len = 4 := rfl
  unfold Region.Apart at hapart
  dsimp only [ShmField.write]
  omega

theorem storeAll_stamp (hdata : block_num * block_size < 4294967296) {m m' : Memory UInt8}
    (h : m.storeAll (((.shm_size, u32Bytes (m_total_size block_num block_size)) ::
      initFields block_num now).map (ShmField.write block_num block_size)) = some m') :
    leValue (m'.read (ShmField.shm_size.region block_num block_size).off 4) =
        m_total_size block_num block_size ∧
      m'.size = m.size ∧ (ShmField.op_time.region block_num block_size).off + 8 ≤ m.size := by
  have hsize := Memory.storeAll_size h
  have hfit := hsize.2 _ List.mem_cons_self
  have htime := hsize.2 (ShmField.write block_num block_size (.op_time, timeBytes now))
    (List.mem_cons_of_mem _ List.mem_cons_self)
  refine ⟨?_, hsize.1, htime⟩
  rw [List.map_cons, Memory.storeAll_cons hfit] at h
  rw [Memory.storeAll_frame h fun w hw => initFields_apart hdata hw]
  have hread := Memory.read_write_self m (ShmField.shm_size.region block_num block_size).off
    (u32Bytes (m_total_size block_num block_size))
  rw [u32Bytes_length] at hread
  dsimp only [ShmField.write]
  rw [hread, leValue_u32Bytes m_total_size_lt]

/-- What `Init` does once it is attached. -/
theorem start_initialised (hfit : LayoutFits block_num block_size)
    (h : Segment.start block_num block_size g now = .ok (.initialised, g')) :
    g'.size = g.size ∧ m_total_size block_num block_size + 8 ≤ g'.data.size ∧
      g'.stamp block_num block_size = m_total_size block_num block_size := by
  have hdata : block_num * block_size < 4294967296 := by
    unfold LayoutFits at hfit
    omega
  have htime := (m_total_size_of_fits hfit).2.1
  obtain ⟨word, -, h⟩ := bind_eq_ok.mp h
  by_cases hword : leValue word = m_total_size block_num block_size
  · rw [if_pos hword] at h
    obtain ⟨_, -, h⟩ := bind_eq_ok.mp h
    cases h
  · rw [if_neg hword] at h
    obtain ⟨data, hstore, h⟩ := bind_eq_ok.mp h
    obtain ⟨hstamp, hsize, hop⟩ := storeAll_stamp hdata (checked_eq_ok.mp hstore)
    cases h
    exact ⟨rfl, by rw [hsize, htime]; exact hop, hstamp⟩

theorem start_already_iff (hfit : LayoutFits block_num block_size) :
    (∃ g', Segment.start block_num block_size g now = .ok (.already, g')) ↔
      m_total_size block_num block_size + 8 ≤ g.data.size ∧
        g.stamp block_num block_size = m_total_size block_num block_size := by
  obtain ⟨hend, htime, -⟩ := m_total_size_of_fits hfit
  constructor
  · rintro ⟨g', h⟩
    obtain ⟨word, hload, h⟩ := bind_eq_ok.mp h
    by_cases hword : leValue word = m_total_size block_num block_size
    · rw [if_pos hword] at h
      obtain ⟨time, hop, -⟩ := bind_eq_ok.mp h
      have hmapped := (Memory.load_iff.mp (checked_eq_ok.mp hop)).1
      rw [← htime] at hmapped
      refine ⟨hmapped, ?_⟩
      rw [Segment.stamp, (Memory.load_iff.mp (checked_eq_ok.mp hload)).2, hword]
    · rw [if_neg hword] at h
      obtain ⟨data, -, h⟩ := bind_eq_ok.mp h
      cases h
  · rintro ⟨hmapped, hstamp⟩
    unfold Segment.stamp at hstamp
    have hload := @Memory.load_eq_some _ g.data
      (ShmField.shm_size.region block_num block_size).off 4 (by omega)
    have hop := @Memory.load_eq_some _ g.data
      (ShmField.op_time.region block_num block_size).off 8 (by omega)
    refine ⟨g, bind_eq_ok.mpr ⟨_, checked_eq_ok.mpr hload, ?_⟩⟩
    rw [if_pos hstamp]
    exact bind_eq_ok.mpr ⟨_, checked_eq_ok.mpr hop, rfl⟩

/-- A segment that `Init` has initialised carries its size. -/
theorem Init_stamped (hfit : LayoutFits block_num block_size)
    (h : Segment.Init block_num block_size seg now = .ok (.initialised, some g)) :
    g.Stamped block_num block_size := by
  unfold Segment.Init at h
  cases hget : shmget seg (m_total_size block_num block_size) with
  | none =>
      rw [hget] at h
      cases h
  | some old =>
      rw [hget] at h
      dsimp only at h
      cases hstart : Segment.start block_num block_size old now with
      | error e =>
          rw [hstart] at h
          cases h
      | ok r =>
          rw [hstart] at h
          cases r with
          | mk outcome g₁ =>
              cases h
              have hdone := start_initialised hfit hstart
              exact ⟨hdone.1 ▸ shmget_size hget, hdone.2.1, hdone.2.2⟩

/-- `Init` takes a segment as initialised when the segment covers the layout and carries the
size. -/
theorem Init_already_iff (hfit : LayoutFits block_num block_size) :
    (∃ seg', Segment.Init block_num block_size (some g) now = .ok (.already, seg')) ↔
      g.Stamped block_num block_size := by
  have hstart := @start_already_iff block_num block_size now g hfit
  by_cases hlt : g.size < m_total_size block_num block_size
  · have hget : shmget (some g) (m_total_size block_num block_size) = none := by
      rw [shmget_existing, if_pos hlt]
    refine iff_of_false (fun h => ?_) fun h => absurd h.size (Nat.not_le.mpr hlt)
    obtain ⟨seg', h⟩ := h
    rw [Segment.Init, hget] at h
    cases h
  · have hget : shmget (some g) (m_total_size block_num block_size) = some g := by
      rw [shmget_existing, if_neg hlt]
    have hle := Nat.le_of_not_lt hlt
    rw [Segment.Init, hget]
    dsimp only
    constructor
    · rintro ⟨seg', h⟩
      cases hrun : Segment.start block_num block_size g now with
      | error e =>
          rw [hrun] at h
          cases h
      | ok r =>
          rw [hrun] at h
          cases r with
          | mk outcome g₁ =>
              cases h
              have hdone := hstart.mp ⟨g₁, hrun⟩
              exact ⟨hle, hdone.1, hdone.2⟩
    · intro h
      obtain ⟨g', hrun⟩ := hstart.mpr ⟨h.mapped, h.stamp⟩
      exact ⟨some g', by rw [hrun]; rfl⟩

end Stamp

/-! ## Two caches on one key -/

/-- A segment after calls of a cache: all but the stored size may have changed. -/
structure Segment.After (g g' : Segment) (block_num block_size : Nat) : Prop where
  size : g'.size = g.size
  mapped : g'.data.size = g.data.size
  stamp : g'.stamp block_num block_size = g.stamp block_num block_size

/-- After one `Init` and any calls, a second one takes the segment as initialised only for the
same parameters if and only if no other parameters of the total size are given, and the word
where the second one looks for another total size is not that size. -/
theorem attach_checks_iff {n₁ s₁ n₂ s₂ now₁ now₂ : Nat} (hfit₁ : LayoutFits n₁ s₁)
    (hfit₂ : LayoutFits n₂ s₂) {seg : Option Segment} {g g' : Segment}
    (hinit : Segment.Init n₁ s₁ seg now₁ = .ok (.initialised, some g)) (hafter : g.After g' n₁ s₁) :
    ((∃ seg', Segment.Init n₂ s₂ (some g') now₂ = .ok (.already, seg')) → n₁ = n₂ ∧ s₁ = s₂) ↔
      (n₁ * (s₁ + 40) = n₂ * (s₂ + 40) → n₁ = n₂ ∧ s₁ = s₂) ∧
      (n₁ * (s₁ + 40) ≠ n₂ * (s₂ + 40) → m_total_size n₂ s₂ ≤ g'.size →
        m_total_size n₂ s₂ + 8 ≤ g'.data.size → g'.stamp n₂ s₂ ≠ m_total_size n₂ s₂) := by
  have hstamped := Init_stamped hfit₁ hinit
  obtain ⟨hend₁, -, htotal₁⟩ := m_total_size_of_fits hfit₁
  obtain ⟨hend₂, -, htotal₂⟩ := m_total_size_of_fits hfit₂
  rw [Init_already_iff hfit₂]
  constructor
  · intro hcheck
    constructor
    · intro hsame
      have htotal : m_total_size n₂ s₂ = m_total_size n₁ s₁ := by omega
      have hoff : (ShmField.shm_size.region n₂ s₂).off = (ShmField.shm_size.region n₁ s₁).off := by
        omega
      have hstamp : g'.stamp n₂ s₂ = g'.stamp n₁ s₁ := by
        rw [Segment.stamp, Segment.stamp, hoff]
      refine hcheck ⟨?_, ?_, ?_⟩
      · rw [htotal, hafter.size]
        exact hstamped.size
      · rw [htotal, hafter.mapped]
        exact hstamped.mapped
      · rw [hstamp, hafter.stamp, hstamped.stamp, htotal]
    · intro hne hsize hmapped hword
      obtain ⟨hn, hs⟩ := hcheck ⟨hsize, hmapped, hword⟩
      exact hne (by rw [hn, hs])
  · rintro ⟨hsame, hother⟩ h
    by_cases heq : n₁ * (s₁ + 40) = n₂ * (s₂ + 40)
    · exact hsame heq
    · exact absurd h.stamp (hother heq h.size h.mapped)

/-- All that `Init` stores lies within eight bytes behind the size. -/
theorem initWrites_bounds {block_num block_size now : Nat} (hfit : LayoutFits block_num block_size)
    {w : Nat × Bytes}
    (hw : w ∈ ((.shm_size, u32Bytes (m_total_size block_num block_size)) ::
      initFields block_num now).map (ShmField.write block_num block_size)) :
    w.1 + w.2.length ≤ m_total_size block_num block_size + 8 := by
  have hdata : block_num * block_size < 4294967296 := by
    unfold LayoutFits at hfit
    omega
  have hend : m_total_size block_num block_size = m_lru_offset block_num block_size + 12 :=
    (m_total_size_of_fits hfit).2.1
  have hbound : ∀ f : ShmField × Bytes, f.1.Used block_num →
      f.2.length ≤ (f.1.region block_num block_size).len →
        (f.1.region block_num block_size).off + f.2.length ≤
          m_lru_offset block_num block_size + 20 := by
    intro f hused hlen
    have hpart : f.1.part + 1 ≤ 7 := by
      cases f.1 <;> simp [ShmField.part]
    have hmono := @partStart_mono block_num block_size _ _ hpart
    exact (Nat.add_le_add_left hlen _).trans ((part_bounds hdata hused).2.trans hmono)
  obtain ⟨f, hf, rfl⟩ := List.mem_map.mp hw
  have hgoal : (f.1.region block_num block_size).off + f.2.length ≤
      m_lru_offset block_num block_size + 20 := by
    cases List.mem_cons.mp hf with
    | inl hfirst =>
        rw [hfirst]
        exact hbound (.shm_size, u32Bytes (m_total_size block_num block_size)) trivial
          (Nat.le_refl 4)
    | inr hmem =>
        obtain ⟨hused, -, hlen⟩ := @initFields_used block_num block_size now f hmem
        exact hbound f hused hlen
  rw [hend]
  exact hgoal

theorem start_total {block_num block_size now : Nat} (hfit : LayoutFits block_num block_size)
    {g : Segment} (hmapped : m_total_size block_num block_size + 8 ≤ g.data.size)
    (hstamp : g.stamp block_num block_size ≠ m_total_size block_num block_size) :
    ∃ g', Segment.start block_num block_size g now = .ok (.initialised, g') ∧ g'.size = g.size := by
  have hend := (m_total_size_of_fits hfit).1
  have hload := @Memory.load_eq_some _ g.data
    (ShmField.shm_size.region block_num block_size).off 4 (by omega)
  unfold Segment.stamp at hstamp
  obtain ⟨data, hstore⟩ := Memory.storeAll_total (m := g.data) fun w hw =>
    (@initWrites_bounds block_num block_size now hfit w hw).trans hmapped
  refine ⟨{ g with data := data }, bind_eq_ok.mpr ⟨_, checked_eq_ok.mpr hload, ?_⟩, rfl⟩
  rw [if_neg hstamp]
  exact bind_eq_ok.mpr ⟨data, checked_eq_ok.mpr hstore, rfl⟩

theorem shmget_new {size : Nat} (h : size ≠ 0) :
    shmget none size =
      some ⟨size, ⟨(size + (PAGE_SIZE - 1)) / PAGE_SIZE * PAGE_SIZE, fun _ => 0⟩⟩ :=
  if_neg h

/-- A new segment, when the time behind the size is on its last page. -/
theorem Init_new {block_num block_size : Nat} (hfit : LayoutFits block_num block_size)
    (hpages : m_total_size block_num block_size + 8 ≤
      (m_total_size block_num block_size + (PAGE_SIZE - 1)) / PAGE_SIZE * PAGE_SIZE) (now : Nat) :
    ∃ g, Segment.Init block_num block_size none now = .ok (.initialised, some g) ∧
      g.size = m_total_size block_num block_size := by
  obtain ⟨hend, -, htotal⟩ := m_total_size_of_fits hfit
  generalize hsize : m_total_size block_num block_size = size at hpages
  have hpos : m_total_size block_num block_size ≠ 0 := by omega
  have hget := shmget_new hpos
  rw [hsize] at hget
  obtain ⟨g', hstart, hsame⟩ := @start_total block_num block_size now hfit
    ⟨size, ⟨(size + (PAGE_SIZE - 1)) / PAGE_SIZE * PAGE_SIZE, fun _ => 0⟩⟩
    (hsize.symm ▸ hpages) (by rw [hsize]; exact fun hzero => hpos (hsize.trans hzero.symm))
  refine ⟨g', ?_, hsame⟩
  rw [Segment.Init, hsize, hget]
  dsimp only
  rw [hstart]
  rfl

theorem fits_of_le {block_num block_size : Nat}
    (h : block_num * block_size + block_num * 40 < 1000000) : LayoutFits block_num block_size := by
  unfold LayoutFits HASH_MASK
  omega

theorem attach_checks_iff_three :
    ∃ g, Segment.Init 1 60 none 0 = .ok (.initialised, some g) ∧
      ((∃ seg', Segment.Init 3 5 (some g) 9 = .ok (.already, seg')) → 1 = 3 ∧ 60 = 5) := by
  have hfit₁ : LayoutFits 1 60 := fits_of_le (by decide)
  have hfit₂ : LayoutFits 3 5 := fits_of_le (by decide)
  have htotal₁ : m_total_size 1 60 = 524400 := (m_total_size_of_fits hfit₁).2.2
  have htotal₂ : m_total_size 3 5 = 524435 := (m_total_size_of_fits hfit₂).2.2
  obtain ⟨g, hinit, hsize⟩ := Init_new hfit₁ (by rw [htotal₁]; decide) 0
  refine ⟨g, hinit, (attach_checks_iff hfit₁ hfit₂ hinit ⟨rfl, rfl, rfl⟩).mpr ⟨?_, ?_⟩⟩
  · exact fun h => absurd h (by decide)
  · intro _ hle
    rw [hsize, htotal₁, htotal₂] at hle
    exact absurd hle (by decide)

/-- One block of 60 bytes and two blocks of 10 bytes have the same total size. -/
theorem other_geometry_accepted :
    ∃ g, Segment.Init 1 60 none 0 = .ok (.initialised, some g) ∧
      ∃ seg', Segment.Init 2 10 (some g) 9 = .ok (.already, seg') := by
  have hfit₁ : LayoutFits 1 60 := fits_of_le (by decide)
  have hfit₂ : LayoutFits 2 10 := fits_of_le (by decide)
  obtain ⟨hend₁, -, htotal₁⟩ := m_total_size_of_fits hfit₁
  obtain ⟨hend₂, -, htotal₂⟩ := m_total_size_of_fits hfit₂
  obtain ⟨g, hinit, -⟩ := Init_new hfit₁ (by rw [htotal₁]; decide) 0
  have hstamped := Init_stamped hfit₁ hinit
  have htotal : m_total_size 2 10 = m_total_size 1 60 := htotal₂.trans htotal₁.symm
  have hoff : (ShmField.shm_size.region 2 10).off = (ShmField.shm_size.region 1 60).off := by omega
  refine ⟨g, hinit, (Init_already_iff hfit₂).mpr ⟨?_, ?_, ?_⟩⟩
  · rw [htotal]
    exact hstamped.size
  · rw [htotal]
    exact hstamped.mapped
  · rw [Segment.stamp, hoff, htotal]
    exact hstamped.stamp

end CommonCc
