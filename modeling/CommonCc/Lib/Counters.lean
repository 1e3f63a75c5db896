import Mathlib.Algebra.BigOperators.Group.List.Basic
import Mathlib.Algebra.Order.Ring.Nat
import Mathlib.Tactic.Common

/-!
# Lists of counters

A list of counters that tallies items by their slot.  Its sum is the number of items.
-/

namespace CommonCc

theorem getD_set_self {l : List Nat} {i : Nat} (h : i < l.length) (a : Nat) :
    (l.set i a).getD i 0 = a := by
  simp [List.getD_eq_getElem?_getD, h]

theorem getD_set_of_ne {l : List Nat} {i j : Nat} (h : i ≠ j) (a : Nat) :
    (l.set i a).getD j 0 = l.getD j 0 := by
  simp [List.getD_eq_getElem?_getD, List.getElem?_set_ne h]

/-- Writing one counter changes the sum by what the counter changes. -/
theorem sum_set {l : List Nat} {i : Nat} (h : i < l.length) (a : Nat) :
    (l.set i a).sum + l.getD i 0 = l.sum + a := by
  induction l generalizing i with
  | nil => simp at h
  | cons x l ih =>
      cases i with
      | zero =>
          simp only [List.set_cons_zero, List.sum_cons, List.getD_cons_zero]
          omega
      | succ i =>
          have hi : i < l.length := by simpa using h
          have hrest := ih hi
          simp only [List.set_cons_succ, List.sum_cons, List.getD_cons_succ]
          omega

theorem getD_le_sum (l : List Nat) (i : Nat) : l.getD i 0 ≤ l.sum := by
  by_cases h : i < l.length
  · have hset := sum_set h 0
    omega
  · simp [List.getD_eq_getElem?_getD, List.getElem?_eq_none (Nat.le_of_not_lt h)]

/-- The counters of a list are the numbers of items of `items` that satisfy `p`, by slot. -/
def Tallies {α : Type} (l : List Nat) (p : α → Bool) (slot : α → Nat) (items : List α) : Prop :=
  ∀ j < l.length, l.getD j 0 = items.countP fun a => p a && slot a = j

/-- When every item has its slot, the counters add up to the number of items. -/
theorem Tallies.sum {α : Type} {l : List Nat} {p : α → Bool} {slot : α → Nat} {items : List α}
    (h : Tallies l p slot items) (hslot : ∀ a, slot a < l.length) : l.sum = items.countP p := by
  induction items generalizing l with
  | nil =>
      have hzero : ∀ n ∈ l, n = 0 := by
        intro n hn
        cases List.getElem_of_mem hn with
        | intro j hj =>
            cases hj with
            | intro hlt hval =>
                have hj0 := h j hlt
                simp only [List.countP_nil, List.getD_eq_getElem?_getD,
                  List.getElem?_eq_getElem hlt, Option.getD_some] at hj0
                exact hval.symm.trans hj0
      simpa using List.sum_eq_zero hzero
  | cons a items ih =>
      by_cases hp : p a = true
      · have hpos : 1 ≤ l.getD (slot a) 0 := by
          rw [h _ (hslot a), List.countP_cons]
          simp [hp]
        have hset := sum_set (hslot a) (l.getD (slot a) 0 - 1)
        have hrest : Tallies (l.set (slot a) (l.getD (slot a) 0 - 1)) p slot items := by
          intro j hj
          rw [List.length_set] at hj
          have hj0 := h j hj
          rw [List.countP_cons] at hj0
          by_cases hslot' : slot a = j
          · subst hslot'
            rw [getD_set_self hj, hj0]
            simp [hp]
          · rw [getD_set_of_ne hslot', hj0]
            simp [hp, hslot']
        have hsum := ih hrest (by simpa using hslot)
        rw [List.countP_cons, if_pos hp]
        omega
      · rw [List.countP_cons, if_neg hp, Nat.add_zero]
        apply ih _ hslot
        intro j hj
        rw [h j hj, List.countP_cons]
        simp [hp]

end CommonCc
