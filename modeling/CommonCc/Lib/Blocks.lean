import CommonCc.Lib.Memory

/-!
# Memories in a row

A list kept in blocks of one width: its cell `i` is the cell `i % width` of the block
`i / width`.
-/

namespace CommonCc

namespace Memory

variable {α : Type} {width : Nat} {blocks : List (Memory α)} {l : List α}

def cellAt (width : Nat) (blocks : List (Memory α)) (i : Nat) : Option α :=
  (blocks[i / width]?).map fun m => m.cell (i % width)

theorem cellAt_mul_add (blocks : List (Memory α)) (k : Nat) {p : Nat} (hp : p < width) :
    cellAt width blocks (k * width + p) = (blocks[k]?).map fun m => m.cell p := by
  have hpos : 0 < width := Nat.zero_lt_of_lt hp
  have hdiv : (k * width + p) / width = k := by
    rw [Nat.mul_comm, Nat.mul_add_div hpos, Nat.div_eq_of_lt hp, Nat.add_zero]
  have hmod : (k * width + p) % width = p := by
    rw [Nat.mul_comm, Nat.mul_add_mod, Nat.mod_eq_of_lt hp]
  rw [cellAt, hdiv, hmod]

/-- The blocks are of the given width and start with the list `l`. -/
structure Holds (width : Nat) (blocks : List (Memory α)) (l : List α) : Prop where
  size : ∀ m ∈ blocks, m.size = width
  cell : ∀ i, i < l.length → cellAt width blocks i = l[i]?

theorem Holds.length_le (h : Holds width blocks l) (hpos : 0 < width) :
    l.length ≤ blocks.length * width := by
  cases hlen : l.length with
  | zero => exact Nat.zero_le _
  | succ n =>
      have hlt : n < l.length := by omega
      have hcell := h.cell n hlt
      rw [List.getElem?_eq_getElem hlt, cellAt] at hcell
      cases hblock : blocks[n / width]? with
      | none => rw [hblock] at hcell; cases hcell
      | some m =>
          have hin : n / width < blocks.length := (List.getElem?_eq_some_iff.mp hblock).1
          exact (Nat.div_lt_iff_lt_mul hpos).mp hin

/-- There is a block behind those that are full when the list goes on. -/
theorem Holds.exists_block (h : Holds width blocks l) (hpos : 0 < width) {k : Nat}
    (hk : k * width < l.length) : k < blocks.length :=
  Nat.lt_of_mul_lt_mul_right (Nat.lt_of_lt_of_le hk (h.length_le hpos))

theorem Holds.load (h : Holds width blocks l) {k p n : Nat} {m : Memory α}
    (hm : blocks[k]? = some m) (hfit : p + n ≤ width) (hlen : k * width + p + n ≤ l.length) :
    m.load p n = some ((l.drop (k * width + p)).take n) := by
  have hsize : m.size = width := h.size m (List.mem_of_getElem? hm)
  rw [load_eq_some m (by omega)]
  congr 1
  apply List.ext_getElem
  · rw [read_length, List.length_take, List.length_drop]
    omega
  · intro i hi hi'
    rw [read_length] at hi
    have hcell := h.cell (k * width + p + i) (by omega)
    rw [Nat.add_assoc (k * width), cellAt_mul_add blocks k (by omega), hm, Option.map_some,
      List.getElem?_eq_getElem (by omega)] at hcell
    rw [getElem_read, List.getElem_take, List.getElem_drop]
    simpa only [Nat.add_assoc] using Option.some.inj hcell

theorem Holds.append (h : Holds width blocks l) {m : Memory α} (hm : m.size = width) :
    Holds width (blocks ++ [m]) l where
  size m' hmem := by
    cases List.mem_append.mp hmem with
    | inl hold => exact h.size m' hold
    | inr hnew => rw [List.mem_singleton.mp hnew, hm]
  cell i hi := by
    have hcell := h.cell i hi
    rw [List.getElem?_eq_getElem hi, cellAt] at hcell
    rw [List.getElem?_eq_getElem hi, cellAt]
    cases hblock : blocks[i / width]? with
    | none => rw [hblock] at hcell; cases hcell
    | some m' =>
        have hin : i / width < blocks.length := (List.getElem?_eq_some_iff.mp hblock).1
        rw [List.getElem?_append_left hin, ← hcell]

/-- A write behind the list makes the list longer. -/
theorem Holds.write (h : Holds width blocks l) {k p : Nat} {m : Memory α} {src : List α}
    (hm : blocks[k]? = some m) (hlen : l.length = k * width + p) (hfit : p + src.length ≤ width) :
    Holds width (blocks.set k (m.write p src)) (l ++ src) where
  size m' hmem := by
    cases List.mem_or_eq_of_mem_set hmem with
    | inl hold => exact h.size m' hold
    | inr hnew => rw [hnew, write_size, h.size m (List.mem_of_getElem? hm)]
  cell i hi := by
    have hk : k < blocks.length := (List.getElem?_eq_some_iff.mp hm).1
    rw [List.length_append] at hi
    cases Nat.lt_or_ge i l.length with
    | inl hold =>
        rw [List.getElem?_append_left hold, ← h.cell i hold, cellAt, cellAt]
        by_cases hik : i / width = k
        · have hmod : i % width < p := by
            have hdecomp := Nat.div_add_mod i width
            rw [hik, Nat.mul_comm] at hdecomp
            omega
          rw [hik, List.getElem?_set_self hk, hm, Option.map_some, Option.map_some,
            write_cell_of_not_mem m p src (by omega)]
        · rw [List.getElem?_set_ne (Ne.symm hik)]
    | inr hnew =>
        obtain ⟨j, rfl⟩ := Nat.exists_eq_add_of_le hnew
        have hj : j < src.length := by omega
        rw [List.getElem?_append_right (Nat.le_add_right _ _), Nat.add_sub_cancel_left, hlen,
          Nat.add_assoc, cellAt_mul_add _ k (by omega), List.getElem?_set_self hk, Option.map_some,
          write_cell_of_mem m p src (by omega), List.getElem?_eq_getElem hj]
        simp

end Memory

end CommonCc
