import CommonCc.Utils.ShmCache.Model

/-!
# The layout of the segment

The object places its regions in the segment by 32-bit products and pointer arithmetic,
and asks for a size that is kept apart from them.  The time of the initialisation lies
behind that size.
-/

namespace CommonCc

open CShmCache (LayoutFits)

/-- `sizeof(SBlockHead)`. -/
def sizeof_SBlockHead : Nat := 40

/-- `sizeof(SHashHead)`. -/
def sizeof_SHashHead : Nat := 8

/-- A half-open range of bytes. -/
structure Region where
  off : Nat
  len : Nat
deriving Repr, DecidableEq

/-- No byte is in both regions. -/
def Region.Apart (a b : Region) : Prop := a.off + a.len ≤ b.off ∨ b.off + b.len ≤ a.off

/-- The region ends within the first `size` bytes. -/
def Region.Within (a : Region) (size : Nat) : Prop := a.off + a.len ≤ size

/-- What the code keeps in the segment. -/
inductive ShmField where
  | data (idx : Nat)
  | block (idx : Nat)
  | hash (idx : Nat)
  | lru_head
  | lru_tail
  | shm_size
  | op_time
deriving Repr, DecidableEq

section Layout

variable (block_num block_size : Nat)

/-- `m_total_size`, the number of bytes that `InitIPC` asks for. -/
def m_total_size : Nat :=
  u32 (u32 (block_num * block_size) + block_num * sizeof_SBlockHead +
    HASH_MASK * sizeof_SHashHead + 3 * 4)

/-- The offset of `m_block`. -/
def m_block_offset : Nat := u32 (block_num * block_size)

/-- The offset of `m_hash`. -/
def m_hash_offset : Nat := m_block_offset block_num block_size + block_num * sizeof_SBlockHead

/-- The offset of `m_lru_head`. -/
def m_lru_offset : Nat := m_hash_offset block_num block_size + HASH_MASK * sizeof_SHashHead

/-- Where a field lies. -/
def ShmField.region : ShmField → Region
  | .data idx => ⟨u32 (idx * block_size), block_size⟩
  | .block idx => ⟨m_block_offset block_num block_size + idx * sizeof_SBlockHead, sizeof_SBlockHead⟩
  | .hash idx => ⟨m_hash_offset block_num block_size + idx * sizeof_SHashHead, sizeof_SHashHead⟩
  | .lru_head => ⟨m_lru_offset block_num block_size, 4⟩
  | .lru_tail => ⟨m_lru_offset block_num block_size + 4, 4⟩
  | .shm_size => ⟨m_lru_offset block_num block_size + 8, 4⟩
  | .op_time => ⟨m_lru_offset block_num block_size + 12, 8⟩

/-- The fields of a cache with `block_num` blocks. -/
def ShmField.Used : ShmField → Prop
  | .data idx => idx < block_num
  | .block idx => idx < block_num
  | .hash idx => idx < HASH_MASK
  | .lru_head => True
  | .lru_tail => True
  | .shm_size => True
  | .op_time => True

/-- The fields that `p` picks lie apart from each other and within the segment. -/
def LaidOut (p : ShmField → Prop) : Prop :=
  (∀ f g : ShmField, f.Used block_num → g.Used block_num → p f → p g → f ≠ g →
    (f.region block_num block_size).Apart (g.region block_num block_size)) ∧
  ∀ f : ShmField, f.Used block_num → p f →
    (f.region block_num block_size).Within (m_total_size block_num block_size)

variable {block_num block_size}

/-- The sum of the sizes is the end of `m_shm_size`, as far as 32 bits reach. -/
theorem m_total_size_eq :
    m_total_size block_num block_size = u32 (m_lru_offset block_num block_size + 12) := rfl

theorem m_total_size_lt : m_total_size block_num block_size < 4294967296 :=
  Nat.mod_lt _ (by decide)

theorem m_total_size_le :
    m_total_size block_num block_size ≤ m_lru_offset block_num block_size + 12 :=
  Nat.mod_le _ _

/-- A data block lies in front of the block heads. -/
theorem data_bounds (hdata : block_num * block_size < 4294967296) {idx : Nat}
    (h : idx < block_num) :
    u32 (idx * block_size) = idx * block_size ∧
      idx * block_size + block_size ≤ block_num * block_size := by
  have hle := Nat.mul_le_mul_right block_size (Nat.succ_le_of_lt h)
  rw [Nat.succ_mul] at hle
  by_cases hbs : block_size = 0
  · rw [hbs, Nat.mul_zero]
    exact ⟨rfl, by omega⟩
  · exact ⟨u32_of_lt (by omega), hle⟩

/-- The kind of a field, in the order of the segment. -/
def ShmField.part : ShmField → Nat
  | .data _ => 0
  | .block _ => 1
  | .hash _ => 2
  | .lru_head => 3
  | .lru_tail => 4
  | .shm_size => 5
  | .op_time => 6

variable (block_num block_size) in
/-- Where the fields of a kind begin. -/
def partStart : Nat → Nat
  | 0 => 0
  | 1 => m_block_offset block_num block_size
  | 2 => m_hash_offset block_num block_size
  | 3 => m_lru_offset block_num block_size
  | 4 => m_lru_offset block_num block_size + 4
  | 5 => m_lru_offset block_num block_size + 8
  | 6 => m_lru_offset block_num block_size + 12
  | _ => m_lru_offset block_num block_size + 20

theorem partStart_mono : Monotone (partStart block_num block_size) := by
  refine monotone_nat_of_le_succ fun i => ?_
  rcases i with _ | _ | _ | _ | _ | _ | _ | i
  · exact Nat.zero_le _
  · exact Nat.le_add_right _ _
  · exact Nat.le_add_right _ _
  · exact Nat.le_add_right _ _
  · exact Nat.add_le_add_left (by decide) _
  · exact Nat.add_le_add_left (by decide) _
  · exact Nat.add_le_add_left (by decide) _
  · exact Nat.le_refl _

/-- Without overflow a field lies between those of the kinds around it. -/
theorem part_bounds (hdata : block_num * block_size < 4294967296) {f : ShmField}
    (hf : f.Used block_num) :
    partStart block_num block_size f.part ≤ (f.region block_num block_size).off ∧
      (f.region block_num block_size).off + (f.region block_num block_size).len ≤
        partStart block_num block_size (f.part + 1) := by
  cases f with
  | data idx =>
      have hbounds := data_bounds hdata hf
      have hblock : m_block_offset block_num block_size = block_num * block_size := u32_of_lt hdata
      simp only [ShmField.part, partStart, ShmField.region, hbounds.1, hblock]
      exact ⟨Nat.zero_le _, hbounds.2⟩
  | block idx =>
      have hlt : idx < block_num := hf
      simp only [ShmField.part, partStart, ShmField.region, m_hash_offset, sizeof_SBlockHead]
      omega
  | hash idx =>
      have hlt : idx < 65536 := hf
      simp only [ShmField.part, partStart, ShmField.region, m_lru_offset, sizeof_SHashHead,
        HASH_MASK]
      omega
  | lru_head => exact ⟨Nat.le_refl _, Nat.le_refl _⟩
  | lru_tail => exact ⟨Nat.le_refl _, Nat.le_refl _⟩
  | shm_size => exact ⟨Nat.le_refl _, Nat.le_refl _⟩
  | op_time => exact ⟨Nat.le_refl _, Nat.le_refl _⟩

theorem Region.Apart.symm {a b : Region} (h : a.Apart b) : b.Apart a := Or.symm h

/-- Without overflow the fields are apart. -/
theorem region_apart (hdata : block_num * block_size < 4294967296) {f g : ShmField}
    (hf : f.Used block_num) (hg : g.Used block_num) (hne : f ≠ g) :
    (f.region block_num block_size).Apart (g.region block_num block_size) := by
  have hafter : ∀ {f g : ShmField}, f.Used block_num → g.Used block_num → f.part < g.part →
      (f.region block_num block_size).Apart (g.region block_num block_size) := by
    intro f g hf hg hlt
    have hmono := @partStart_mono block_num block_size _ _ (Nat.succ_le_of_lt hlt)
    exact .inl ((part_bounds hdata hf).2.trans (hmono.trans (part_bounds hdata hg).1))
  rcases Nat.lt_trichotomy f.part g.part with hlt | heq | hgt
  · exact hafter hf hg hlt
  · -- two fields of one kind differ by their indexes
    cases f <;> cases g <;> simp only [ShmField.part] at heq <;> try omega
    · rename_i i j
      have hi := (data_bounds hdata hf).1
      have hj := (data_bounds hdata hg).1
      have hij : i ≠ j := fun e => hne (by rw [e])
      simp only [ShmField.region, Region.Apart, hi, hj, ← Nat.succ_mul]
      rcases Nat.lt_or_gt_of_ne hij with hlt | hgt
      · exact .inl (Nat.mul_le_mul_right _ hlt)
      · exact .inr (Nat.mul_le_mul_right _ hgt)
    · rename_i i j
      have hij : i ≠ j := fun e => hne (by rw [e])
      simp only [ShmField.region, Region.Apart, sizeof_SBlockHead]
      omega
    · rename_i i j
      have hij : i ≠ j := fun e => hne (by rw [e])
      simp only [ShmField.region, Region.Apart, sizeof_SHashHead]
      omega
    all_goals exact absurd rfl hne
  · exact (hafter hg hf hgt).symm

/-- Without the time, the fields are laid out as they should be if and only if the sizes
fit in 32 bits. -/
theorem laidOut_iff_fits :
    LaidOut block_num block_size (fun f => f ≠ .op_time) ↔ LayoutFits block_num block_size := by
  constructor
  · intro h
    have hsize := h.2 .shm_size trivial (by decide)
    have htotal : m_lru_offset block_num block_size + 12 ≤ m_total_size block_num block_size :=
      hsize
    have hlt := @m_total_size_lt block_num block_size
    by_cases hdata : block_num * block_size < 4294967296
    · have hblock : m_block_offset block_num block_size = block_num * block_size := u32_of_lt hdata
      unfold LayoutFits HASH_MASK
      simp only [m_lru_offset, m_hash_offset, hblock, sizeof_SBlockHead, sizeof_SHashHead,
        HASH_MASK] at htotal
      omega
    · -- the product wraps, and a data block holds the first block head
      exfalso
      have hpos : 0 < block_num ∧ 0 < block_size := by
        constructor
        · exact Nat.pos_of_ne_zero fun h0 => hdata (by rw [h0, Nat.zero_mul]; decide)
        · exact Nat.pos_of_ne_zero fun h0 => hdata (by rw [h0, Nat.mul_zero]; decide)
      have hstart : m_block_offset block_num block_size < 4294967296 := Nat.mod_lt _ (by decide)
      have hidx : m_block_offset block_num block_size / block_size < block_num :=
        (Nat.div_lt_iff_lt_mul hpos.2).mpr (by omega)
      have hapart := h.1 (.data (m_block_offset block_num block_size / block_size)) (.block 0)
        hidx hpos.1 (by simp) (by simp) (by simp)
      have hle := Nat.div_mul_le_self (m_block_offset block_num block_size) block_size
      have hend := Nat.lt_div_mul_add hpos.2 (a := m_block_offset block_num block_size)
      simp only [ShmField.region, Region.Apart, u32_of_lt (Nat.lt_of_le_of_lt hle hstart),
        Nat.zero_mul, Nat.add_zero, sizeof_SBlockHead] at hapart
      omega
  · intro hfit
    have hfit' : block_num * block_size + block_num * 40 + 65536 * 8 + 12 < 4294967296 := hfit
    have hdata : block_num * block_size < 4294967296 := by omega
    have hblock : m_block_offset block_num block_size = block_num * block_size := u32_of_lt hdata
    have htotal : m_total_size block_num block_size = m_lru_offset block_num block_size + 12 := by
      rw [m_total_size_eq]
      refine u32_of_lt ?_
      simp only [m_lru_offset, m_hash_offset, hblock, sizeof_SBlockHead, sizeof_SHashHead,
        HASH_MASK]
      omega
    refine ⟨fun f g hf hg _ _ hne => region_apart hdata hf hg hne, fun f hf hne => ?_⟩
    have hpart : f.part + 1 ≤ 6 := by
      cases f <;> first | exact absurd rfl hne | simp [ShmField.part]
    have hmono := @partStart_mono block_num block_size _ _ hpart
    exact ((part_bounds hdata hf).2.trans hmono).trans (Nat.le_of_eq htotal.symm)

end Layout

/-- For no parameters all fields lie in the segment: the time is behind it.  The other fields
are apart and in it exactly when the sizes fit in 32 bits. -/
theorem op_time_outside (block_num block_size : Nat) :
    ¬ LaidOut block_num block_size (fun _ => True) ∧
      (LaidOut block_num block_size (fun f => f ≠ .op_time) ↔ LayoutFits block_num block_size) := by
  refine ⟨fun h => ?_, laidOut_iff_fits⟩
  have hwithin : m_lru_offset block_num block_size + 12 + 8 ≤ m_total_size block_num block_size :=
    h.2 .op_time trivial trivial
  have hle := @m_total_size_le block_num block_size
  omega

/-- The time of a cache with one block of 60 bytes lies behind its 524400 bytes. -/
theorem op_time_outside_one :
    ¬ (ShmField.op_time.region 1 60).Within (m_total_size 1 60) ∧
      ¬ LaidOut 1 60 fun _ => True := by
  have hout : ¬ (ShmField.op_time.region 1 60).Within (m_total_size 1 60) := by
    unfold Region.Within
    decide
  exact ⟨hout, fun h => hout (h.2 .op_time trivial trivial)⟩

end CommonCc
