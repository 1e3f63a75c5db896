import Mathlib.Data.List.Basic
import Mathlib.Tactic.Common

/-!
# Cutting a list into pieces

All pieces have the given length but the last, which may be shorter.
-/

namespace CommonCc

universe u

variable {α : Type u}

/-- The number of pieces of length `n` that `len` items need. -/
def pieceCount (n len : Nat) : Nat := (len + n - 1) / n

/-- Cut a list into pieces of length `n`. -/
def pieces (n : Nat) (l : List α) : List (List α) :=
  if _h : l = [] ∨ n = 0 then [] else l.take n :: pieces n (l.drop n)
termination_by l.length
decreasing_by
  have hl : l.length ≠ 0 := fun e => _h (.inl (List.length_eq_zero_iff.mp e))
  have hn : n ≠ 0 := fun e => _h (.inr e)
  rw [List.length_drop]
  omega

@[simp] theorem pieces_nil (n : Nat) : pieces n ([] : List α) = [] := by
  rw [pieces]
  exact dif_pos (.inl rfl)

theorem pieces_eq_cons {n : Nat} {l : List α} (hn : n ≠ 0) (hl : l ≠ []) :
    pieces n l = l.take n :: pieces n (l.drop n) := by
  rw [pieces]
  exact dif_neg fun h => h.elim hl hn

theorem flatten_pieces {n : Nat} (hn : n ≠ 0) (l : List α) : (pieces n l).flatten = l := by
  induction l using pieces.induct n with
  | case1 l h =>
      obtain rfl : l = [] := h.resolve_right hn
      simp
  | case2 l h ih =>
      rw [pieces_eq_cons hn fun e => h (.inl e), List.flatten_cons, ih, List.take_append_drop]

theorem ne_nil_of_mem_pieces {n : Nat} {l p : List α} (hp : p ∈ pieces n l) : p ≠ [] := by
  induction l using pieces.induct n with
  | case1 l h =>
      rw [pieces, dif_pos h] at hp
      simp at hp
  | case2 l h ih =>
      rw [pieces, dif_neg h] at hp
      rcases List.mem_cons.mp hp with rfl | hp
      · exact fun e => h ((List.take_eq_nil_iff.mp e).symm)
      · exact ih hp

@[simp] theorem pieceCount_zero (n : Nat) : pieceCount n 0 = 0 := by
  rcases Nat.eq_zero_or_pos n with rfl | hn
  · rfl
  · exact Nat.div_eq_of_lt (by omega)

theorem pieceCount_eq_succ {n len : Nat} (hn : n ≠ 0) (hlen : len ≠ 0) :
    pieceCount n len = pieceCount n (len - n) + 1 := by
  unfold pieceCount
  rcases Nat.lt_or_ge len n with h | h
  · have hzero : (len - n + n - 1) / n = 0 := Nat.div_eq_of_lt (by omega)
    rw [hzero]
    exact Nat.div_eq_of_lt_le (by omega) (by omega)
  · have hsplit : len + n - 1 = (len - n + n - 1) + n := by omega
    rw [hsplit, Nat.add_div_right _ (Nat.pos_of_ne_zero hn)]

theorem length_pieces {n : Nat} (hn : n ≠ 0) (l : List α) :
    (pieces n l).length = pieceCount n l.length := by
  induction l using pieces.induct n with
  | case1 l h =>
      obtain rfl : l = [] := h.resolve_right hn
      simp
  | case2 l h ih =>
      have hl : l ≠ [] := fun e => h (.inl e)
      rw [pieces_eq_cons hn hl, List.length_cons, ih, List.length_drop,
        ← pieceCount_eq_succ hn (by simpa using hl)]

/-- `m` pieces hold `m * n` items. -/
theorem pieceCount_le_iff {n len m : Nat} (hn : n ≠ 0) : pieceCount n len ≤ m ↔ len ≤ m * n := by
  unfold pieceCount
  rw [← Nat.lt_succ_iff, Nat.div_lt_iff_lt_mul (Nat.pos_of_ne_zero hn), Nat.succ_mul]
  omega

theorem pieces_eq_nil_iff {n : Nat} (hn : n ≠ 0) {l : List α} : pieces n l = [] ↔ l = [] := by
  constructor
  · intro h
    rw [← flatten_pieces hn l, h]
    rfl
  · rintro rfl
    exact pieces_nil n

end CommonCc
