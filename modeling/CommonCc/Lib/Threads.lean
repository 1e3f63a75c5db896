import Mathlib.Algebra.BigOperators.Group.Finset.Piecewise
import Mathlib.Algebra.Order.BigOperators.Group.Finset
import Mathlib.Data.Fintype.Basic
import Mathlib.Tactic.Common

/-!
# Counting over threads

Each of finitely many threads is at a place of its program, and each place has a weight.
A step of one thread changes the total weight by the difference of two places.
-/

namespace CommonCc

variable {ι P : Type} [Fintype ι]

/-- The weights of the places of all threads together. -/
def totalWeight (w : P → Nat) (pc : ι → P) : Nat := ∑ t, w (pc t)

theorem totalWeight_update [DecidableEq ι] (w : P → Nat) (pc : ι → P) (t : ι) (p : P) :
    totalWeight w (Function.update pc t p) + w (pc t) = totalWeight w pc + w p := by
  unfold totalWeight
  have hnew := Finset.sum_erase_add Finset.univ (fun u => w (Function.update pc t p u))
    (Finset.mem_univ t)
  have hold := Finset.sum_erase_add Finset.univ (fun u => w (pc u)) (Finset.mem_univ t)
  have hsame : ∑ u ∈ Finset.univ.erase t, w (Function.update pc t p u) =
      ∑ u ∈ Finset.univ.erase t, w (pc u) := by
    apply Finset.sum_congr rfl
    intro u hu
    rw [Function.update_of_ne (Finset.ne_of_mem_erase hu)]
  rw [← hnew, ← hold, hsame, Function.update_self]
  omega

theorem le_totalWeight (w : P → Nat) (pc : ι → P) (t : ι) : w (pc t) ≤ totalWeight w pc :=
  Finset.single_le_sum (f := fun u => w (pc u)) (fun _ _ => Nat.zero_le _) (Finset.mem_univ t)

theorem totalWeight_eq_zero {w : P → Nat} {pc : ι → P} (h : ∀ t, w (pc t) = 0) :
    totalWeight w pc = 0 :=
  Finset.sum_eq_zero fun t _ => h t

end CommonCc
