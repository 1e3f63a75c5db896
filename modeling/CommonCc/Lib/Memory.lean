import Mathlib.Data.List.Basic
import Mathlib.Tactic.Common

/-!
# Fixed-size memories

A block of `size` cells with bulk reads and writes.  The bulk operations are
total on the cells; `load` and `store` are the checked forms, which refuse an
access that leaves the block.
-/

namespace CommonCc

/-- A block of memory.  Only the cells below `size` belong to it. -/
structure Memory (α : Type) where
  size : Nat
  cell : Nat → α

namespace Memory

variable {α : Type}

/-- The `n` cells from `off` on. -/
def read (m : Memory α) (off n : Nat) : List α :=
  (List.range n).map fun i => m.cell (off + i)

/-- Overwrite the cells from `off` on with `src`. -/
def write (m : Memory α) (off : Nat) (src : List α) : Memory α :=
  { m with
    cell := fun i =>
      if h : off ≤ i ∧ i < off + src.length then src.get ⟨i - off, by omega⟩ else m.cell i }

/-- Checked read. -/
def load (m : Memory α) (off n : Nat) : Option (List α) :=
  if off + n ≤ m.size then some (m.read off n) else none

/-- Checked write. -/
def store (m : Memory α) (off : Nat) (src : List α) : Option (Memory α) :=
  if off + src.length ≤ m.size then some (m.write off src) else none

@[simp] theorem write_size (m : Memory α) (off : Nat) (src : List α) :
    (m.write off src).size = m.size := rfl

@[simp] theorem read_length (m : Memory α) (off n : Nat) : (m.read off n).length = n := by
  simp [read]

@[simp] theorem read_zero (m : Memory α) (off : Nat) : m.read off 0 = [] := rfl

theorem getElem_read (m : Memory α) (off n i : Nat) (h : i < (m.read off n).length) :
    (m.read off n)[i] = m.cell (off + i) := by
  simp [read]

/-- Two reads agree when the cells they visit agree. -/
theorem read_congr {m m' : Memory α} {off off' n : Nat}
    (h : ∀ i, i < n → m.cell (off + i) = m'.cell (off' + i)) :
    m.read off n = m'.read off' n := by
  apply List.map_congr_left
  intro i hi
  exact h i (List.mem_range.mp hi)

theorem read_append (m : Memory α) (off a b : Nat) :
    m.read off (a + b) = m.read off a ++ m.read (off + a) b := by
  simp [read, List.range_add, Function.comp_def, Nat.add_assoc]

theorem take_read (m : Memory α) (off : Nat) {a n : Nat} (h : a ≤ n) :
    (m.read off n).take a = m.read off a := by
  obtain ⟨b, rfl⟩ := Nat.exists_eq_add_of_le h
  rw [read_append, List.take_append_of_le_length (by simp), List.take_of_length_le (by simp)]

theorem drop_read (m : Memory α) (off : Nat) {a n : Nat} (h : a ≤ n) :
    (m.read off n).drop a = m.read (off + a) (n - a) := by
  obtain ⟨b, rfl⟩ := Nat.exists_eq_add_of_le h
  rw [read_append, List.drop_append_of_le_length (by simp), List.drop_eq_nil_of_le (by simp),
    List.nil_append, Nat.add_sub_cancel_left]

theorem write_cell_of_mem (m : Memory α) (off : Nat) (src : List α) {i : Nat}
    (h : off ≤ i ∧ i < off + src.length) :
    (m.write off src).cell i = src.get ⟨i - off, by omega⟩ := by
  simp [write, h]

theorem write_cell_of_not_mem (m : Memory α) (off : Nat) (src : List α) {i : Nat}
    (h : ¬ (off ≤ i ∧ i < off + src.length)) : (m.write off src).cell i = m.cell i := by
  exact dif_neg h

/-- One write behind another one. -/
theorem write_append (m : Memory α) (off : Nat) (a b : List α) :
    (m.write off a).write (off + a.length) b = m.write off (a ++ b) := by
  have hcell : ∀ i, ((m.write off a).write (off + a.length) b).cell i =
      (m.write off (a ++ b)).cell i := by
    intro i
    have hlen : (a ++ b).length = a.length + b.length := List.length_append
    by_cases hb : off + a.length ≤ i ∧ i < off + a.length + b.length
    · rw [write_cell_of_mem _ _ _ hb, write_cell_of_mem _ _ _ (by omega), List.get_eq_getElem,
        List.get_eq_getElem, List.getElem_append_right (by simp; omega)]
      congr 1
      simp only
      omega
    · rw [write_cell_of_not_mem _ _ _ hb]
      by_cases ha : off ≤ i ∧ i < off + a.length
      · rw [write_cell_of_mem _ _ _ ha, write_cell_of_mem _ _ _ (by omega), List.get_eq_getElem,
          List.get_eq_getElem, List.getElem_append_left (by simp; omega)]
      · rw [write_cell_of_not_mem _ _ _ ha, write_cell_of_not_mem _ _ _ (by omega)]
  exact congrArg (Memory.mk m.size) (funext hcell)

/-- What was written is read back. -/
@[simp] theorem read_write_self (m : Memory α) (off : Nat) (src : List α) :
    (m.write off src).read off src.length = src := by
  apply List.ext_getElem
  · simp
  · intro i h1 h2
    rw [getElem_read, write_cell_of_mem m off src (by omega)]
    simp

/-- A write leaves every read of other cells alone. -/
theorem read_write_disjoint (m : Memory α) {off n o : Nat} {src : List α}
    (h : off + n ≤ o ∨ o + src.length ≤ off) :
    (m.write o src).read off n = m.read off n := by
  apply read_congr
  intro i hi
  exact write_cell_of_not_mem m o src (by omega)

theorem load_eq_some (m : Memory α) {off n : Nat} (h : off + n ≤ m.size) :
    m.load off n = some (m.read off n) := by
  simp [load, h]

theorem load_iff {m : Memory α} {off n : Nat} {l : List α} :
    m.load off n = some l ↔ off + n ≤ m.size ∧ m.read off n = l := by
  by_cases h : off + n ≤ m.size <;> simp [load, h]

theorem store_eq_some (m : Memory α) {off : Nat} {src : List α}
    (h : off + src.length ≤ m.size) : m.store off src = some (m.write off src) := by
  simp [store, h]

/-- Checked writes one after another. -/
def storeAll (m : Memory α) : List (Nat × List α) → Option (Memory α)
  | [] => some m
  | w :: ws =>
      match m.store w.1 w.2 with
      | none => none
      | some m' => storeAll m' ws

theorem storeAll_cons {m : Memory α} {w : Nat × List α} (h : w.1 + w.2.length ≤ m.size)
    (ws : List (Nat × List α)) : m.storeAll (w :: ws) = (m.write w.1 w.2).storeAll ws := by
  rw [storeAll, store_eq_some _ h]

theorem storeAll_size {m m' : Memory α} {ws : List (Nat × List α)} (h : m.storeAll ws = some m') :
    m'.size = m.size ∧ ∀ w ∈ ws, w.1 + w.2.length ≤ m.size := by
  induction ws generalizing m with
  | nil =>
      cases h
      exact ⟨rfl, fun w hw => absurd hw List.not_mem_nil⟩
  | cons w ws ih =>
      by_cases hfit : w.1 + w.2.length ≤ m.size
      · rw [storeAll_cons hfit] at h
        have hrest := ih h
        exact ⟨hrest.1, List.forall_mem_cons.mpr ⟨hfit, hrest.2⟩⟩
      · have hnone : m.store w.1 w.2 = none := if_neg hfit
        rw [storeAll, hnone] at h
        cases h

/-- Writes that stay in the block go through. -/
theorem storeAll_total {m : Memory α} {ws : List (Nat × List α)}
    (h : ∀ w ∈ ws, w.1 + w.2.length ≤ m.size) : ∃ m', m.storeAll ws = some m' := by
  induction ws generalizing m with
  | nil => exact ⟨m, rfl⟩
  | cons w ws ih =>
      have hw := List.forall_mem_cons.mp h
      rw [storeAll_cons hw.1]
      exact ih hw.2

/-- What the writes put into cell `i` last, or what was there before them. -/
def lastWritten (m : Memory α) (ws : List (Nat × List α)) (i : Nat) : α :=
  (ws.reverse.findSome? fun w => if w.1 ≤ i then w.2[i - w.1]? else none).getD (m.cell i)

/-- One write behind which the others follow. -/
theorem lastWritten_cons (m : Memory α) (w : Nat × List α) (ws : List (Nat × List α)) (i : Nat) :
    m.lastWritten (w :: ws) i = (m.write w.1 w.2).lastWritten ws i := by
  unfold lastWritten
  rw [List.reverse_cons, List.findSome?_append]
  cases ws.reverse.findSome? fun w => if w.1 ≤ i then w.2[i - w.1]? else none with
  | some a => rfl
  | none =>
      rw [Option.none_or, List.findSome?_singleton]
      by_cases hw : w.1 ≤ i ∧ i < w.1 + w.2.length
      · rw [write_cell_of_mem _ _ _ hw, if_pos hw.1, List.getElem?_eq_getElem (by omega)]
        rfl
      · rw [write_cell_of_not_mem _ _ _ hw]
        split
        · rw [List.getElem?_eq_none (by omega), Option.getD_none]
        · rfl

theorem storeAll_cell {m m' : Memory α} {ws : List (Nat × List α)} (h : m.storeAll ws = some m')
    (i : Nat) : m'.cell i = m.lastWritten ws i := by
  induction ws generalizing m with
  | nil =>
      cases h
      rfl
  | cons w ws ih =>
      rw [storeAll_cons ((storeAll_size h).2 w List.mem_cons_self)] at h
      rw [ih h, lastWritten_cons]

/-- Writes elsewhere leave a read alone. -/
theorem storeAll_frame {m m' : Memory α} {ws : List (Nat × List α)} {off n : Nat}
    (h : m.storeAll ws = some m')
    (hapart : ∀ w ∈ ws, off + n ≤ w.1 ∨ w.1 + w.2.length ≤ off) :
    m'.read off n = m.read off n := by
  induction ws generalizing m with
  | nil =>
      cases h
      rfl
  | cons w ws ih =>
      have hfit := (storeAll_size h).2 w List.mem_cons_self
      have hw := List.forall_mem_cons.mp hapart
      rw [storeAll_cons hfit] at h
      rw [ih h hw.2, read_write_disjoint _ hw.1]

end Memory

end CommonCc
