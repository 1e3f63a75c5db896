import Mathlib.Data.List.Basic
import Mathlib.Tactic.Common

/-!
# Functions of blocks

A state that takes in a list block by block.  What is left of the list, less than a block, waits
for the next one.
-/

namespace CommonCc

namespace BlockHash

variable {α σ : Type} {width : Nat} {s : σ} {l m : List α}

/-- What the whole blocks of the list make of a state. -/
def absorb (width : Nat) (f : σ → List α → σ) (s : σ) (l : List α) : σ :=
  if 0 < width ∧ width ≤ l.length then absorb width f (f s (l.take width)) (l.drop width) else s
termination_by l.length
decreasing_by
  rw [List.length_drop]
  omega

/-- The list behind its whole blocks. -/
def tail (width : Nat) (l : List α) : List α := l.drop (l.length / width * width)

variable {f : σ → List α → σ}

theorem absorb_short (h : l.length < width) : absorb width f s l = s := by
  rw [absorb, if_neg (by omega)]

theorem absorb_block (hpos : 0 < width) (h : l.length = width) (m : List α) :
    absorb width f s (l ++ m) = absorb width f (f s l) m := by
  rw [absorb, if_pos ⟨hpos, by rw [List.length_append]; omega⟩, List.take_left' h,
    List.drop_left' h]

theorem tail_short (h : l.length < width) : tail width l = l := by
  rw [tail, Nat.div_eq_of_lt h, Nat.zero_mul, List.drop_zero]

theorem length_tail (width : Nat) (l : List α) : (tail width l).length = l.length % width := by
  rw [tail, List.length_drop, Nat.mul_comm]
  have hsplit := Nat.div_add_mod l.length width
  omega

theorem tail_length_lt (hpos : 0 < width) (l : List α) : (tail width l).length < width := by
  rw [length_tail]
  exact Nat.mod_lt _ hpos

theorem tail_block (hpos : 0 < width) (h : l.length = width) (m : List α) :
    tail width (l ++ m) = tail width m := by
  rw [tail, tail, List.length_append, h, Nat.add_comm, Nat.add_div_right _ hpos, Nat.succ_mul,
    Nat.add_comm, ← List.drop_drop, List.drop_left' h]

/-- From what is behind a block to the whole list. -/
theorem block_induction {motive : List α → Prop} (hpos : 0 < width)
    (hshort : ∀ l, l.length < width → motive l)
    (hblock : ∀ b l, b.length = width → motive l → motive (b ++ l)) (l : List α) : motive l := by
  induction hn : l.length using Nat.strongRecOn generalizing l with
  | ind n ih =>
      by_cases hlen : l.length < width
      · exact hshort l hlen
      · rw [← List.take_append_drop width l]
        apply hblock
        · rw [List.length_take]
          omega
        · exact ih _ (by rw [List.length_drop]; omega) _ rfl

/-- A longer list only adds to what is left of it. -/
theorem absorb_append (hpos : 0 < width) (s : σ) (l m : List α) :
    absorb width f s (l ++ m) = absorb width f (absorb width f s l) (tail width l ++ m) := by
  induction l using block_induction hpos generalizing s with
  | hshort l hlen => rw [absorb_short hlen, tail_short hlen]
  | hblock b l hb ih => rw [List.append_assoc, absorb_block hpos hb, absorb_block hpos hb,
      tail_block hpos hb, ih]

theorem tail_append (hpos : 0 < width) (l m : List α) :
    tail width (l ++ m) = tail width (tail width l ++ m) := by
  induction l using block_induction hpos with
  | hshort l hlen => rw [tail_short hlen]
  | hblock b l hb ih => rw [List.append_assoc, tail_block hpos hb, tail_block hpos hb, ih]

/-- A list of whole blocks leaves nothing. -/
theorem tail_eq_nil (h : l.length % width = 0) : tail width l = [] :=
  List.eq_nil_of_length_eq_zero (by rw [length_tail, h])

end BlockHash

end CommonCc
