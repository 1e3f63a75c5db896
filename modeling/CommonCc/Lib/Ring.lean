import CommonCc.Lib.Memory

/-!
# Ring reads and writes

A region of a memory of `L` cells that starts at `t` and may run over the end of
the block once.  A region is filled or drained by a list of plain bulk accesses,
each of them free of wrap-around; `Scatter` and `Gather` say that such a list
visits the region from left to right.  Their effect does not depend on where the
accesses are cut.
-/

namespace CommonCc

/-- The cell `i` places after `t` in a ring of `L` cells, for `i ≤ L`. -/
def ringIndex (L t i : Nat) : Nat :=
  if t + i < L then t + i else t + i - L

theorem ringIndex_lt {L t i : Nat} (ht : t < L) (hi : i ≤ L) : ringIndex L t i < L := by
  unfold ringIndex
  split <;> omega

theorem ringIndex_of_lt {L t i : Nat} (h : t + i < L) : ringIndex L t i = t + i := if_pos h

theorem ringIndex_of_le {L t i : Nat} (h : L ≤ t + i) : ringIndex L t i = t + i - L :=
  if_neg (by omega)

@[simp] theorem ringIndex_zero {L t : Nat} (ht : t < L) : ringIndex L t 0 = t := by
  simp [ringIndex, ht]

theorem ringIndex_add {L t a b : Nat} (h : a + b ≤ L) (ht : t < L) :
    ringIndex L (ringIndex L t a) b = ringIndex L t (a + b) := by
  unfold ringIndex
  split <;> split <;> split <;> omega

/-- How far `t` lies after `h` in a ring of `L` cells. -/
def ringDist (L h t : Nat) : Nat :=
  if h ≤ t then t - h else t + L - h

theorem ringDist_lt {L h t : Nat} (hh : h < L) (ht : t < L) : ringDist L h t < L := by
  unfold ringDist
  split <;> omega

theorem ringDist_ringIndex {L h n : Nat} (hh : h < L) (hn : n < L) :
    ringDist L h (ringIndex L h n) = n := by
  unfold ringIndex ringDist
  split <;> split <;> omega

namespace Memory

variable {α : Type}

/-- The `n` cells of the ring from `t` on. -/
def ringRead (m : Memory α) (L t n : Nat) : List α :=
  (List.range n).map fun i => m.cell (ringIndex L t i)

@[simp] theorem ringRead_length (m : Memory α) (L t n : Nat) :
    (m.ringRead L t n).length = n := by
  simp [ringRead]

@[simp] theorem ringRead_zero (m : Memory α) (L t : Nat) : m.ringRead L t 0 = [] := rfl

theorem ringRead_congr {m m' : Memory α} {L t n : Nat}
    (h : ∀ i, i < n → m.cell (ringIndex L t i) = m'.cell (ringIndex L t i)) :
    m.ringRead L t n = m'.ringRead L t n := by
  apply List.map_congr_left
  intro i hi
  exact h i (List.mem_range.mp hi)

theorem ringRead_append (m : Memory α) {L t a b : Nat} (ht : t < L) (h : a + b ≤ L) :
    m.ringRead L t (a + b) = m.ringRead L t a ++ m.ringRead L (ringIndex L t a) b := by
  unfold ringRead
  rw [List.range_add, List.map_append, List.map_map]
  congr 1
  apply List.map_congr_left
  intro i hi
  have hb := List.mem_range.mp hi
  simp only [Function.comp_apply]
  rw [ringIndex_add (by omega) ht]

theorem take_ringRead (m : Memory α) {L t a n : Nat} (ht : t < L) (hn : n ≤ L) (h : a ≤ n) :
    (m.ringRead L t n).take a = m.ringRead L t a := by
  obtain ⟨b, rfl⟩ := Nat.exists_eq_add_of_le h
  rw [ringRead_append m ht hn, List.take_append_of_le_length (by simp),
    List.take_of_length_le (by simp)]

/-- Reading on behind a known part of a region extends that part. -/
theorem take_append_ringRead (m : Memory α) {L t a b n : Nat} {w : List α} (ht : t < L)
    (hn : n ≤ L) (h : a + b ≤ n) (hw : m.ringRead L t n = w) :
    w.take a ++ m.ringRead L (ringIndex L t a) b = w.take (a + b) := by
  rw [← hw, take_ringRead m ht hn (by omega), take_ringRead m ht hn h,
    ringRead_append m ht (by omega)]

/-- A region that stays inside the block is read by one plain access. -/
theorem ringRead_eq_read (m : Memory α) {L t n : Nat} (h : t + n ≤ L) :
    m.ringRead L t n = m.read t n := by
  apply List.map_congr_left
  intro i hi
  have hn := List.mem_range.mp hi
  rw [ringIndex, if_pos (by omega)]

/-- The accesses `(offset, bytes)` fill a ring region that starts at `t`. -/
def Scatter (L : Nat) : Nat → List (Nat × List α) → Prop
  | _, [] => True
  | t, (off, src) :: rest =>
      off + src.length ≤ L ∧ (src = [] ∨ off = t) ∧ Scatter L (ringIndex L t src.length) rest

/-- The accesses `(offset, length)` visit a ring region that starts at `t`. -/
def Gather (L : Nat) : Nat → List (Nat × Nat) → Prop
  | _, [] => True
  | t, (off, n) :: rest =>
      off + n ≤ L ∧ (n = 0 ∨ off = t) ∧ Gather L (ringIndex L t n) rest

/-- All cells a scatter touches lie in its region. -/
theorem write_cell_outside (m : Memory α) {L t i off : Nat} {src : List α}
    (ht : t < L) (hi : src.length ≤ i) (hL : i < L)
    (hoff : src = [] ∨ off = t) (hfit : off + src.length ≤ L) :
    (m.write off src).cell (ringIndex L t i) = m.cell (ringIndex L t i) := by
  apply write_cell_of_not_mem
  rcases hoff with rfl | rfl
  · simp
  · unfold ringIndex
    split <;> omega

/-- One access of a scatter fills its part of the region. -/
theorem ringRead_write_self (m : Memory α) {L t off : Nat} {src : List α}
    (hoff : src = [] ∨ off = t) (hfit : off + src.length ≤ L) :
    (m.write off src).ringRead L t src.length = src := by
  rcases hoff with rfl | rfl
  · simp
  · rw [ringRead_eq_read _ hfit, read_write_self]

/-- A read of cells that lie after the scattered region is not affected. -/
theorem ringRead_write_outside (m : Memory α) {L t a n off : Nat} {src : List α}
    (ht : t < L) (ha : src.length ≤ a) (hn : a + n ≤ L)
    (hoff : src = [] ∨ off = t) (hfit : off + src.length ≤ L) :
    (m.write off src).ringRead L (ringIndex L t a) n = m.ringRead L (ringIndex L t a) n := by
  apply ringRead_congr
  intro i hi
  rw [ringIndex_add (by omega) ht]
  exact write_cell_outside m ht (by omega) (by omega) hoff hfit

/-- A scattered write leaves the earlier part of its ring alone. -/
theorem ringRead_write_before (m : Memory α) {L t a off : Nat} {src : List α}
    (ha : a + src.length ≤ L)
    (hoff : src = [] ∨ off = ringIndex L t a) (hfit : off + src.length ≤ L) :
    (m.write off src).ringRead L t a = m.ringRead L t a := by
  apply ringRead_congr
  intro i hi
  apply write_cell_of_not_mem
  rcases hoff with rfl | rfl
  · simp
  · revert hfit
    unfold ringIndex
    split <;> split <;> omega

/-- One access of a gather reads its part of the region. -/
theorem read_eq_ringRead (m : Memory α) {L t off n : Nat}
    (hoff : n = 0 ∨ off = t) (hfit : off + n ≤ L) : m.read off n = m.ringRead L t n := by
  rcases hoff with rfl | rfl
  · simp
  · rw [ringRead_eq_read _ hfit]

end Memory

end CommonCc
