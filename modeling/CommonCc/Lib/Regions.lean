import Mathlib.Data.List.Basic
import Mathlib.Tactic.Common

/-!
# Deleting regions

`region s` is the length of the region that starts at the begin of `s`.  `deleteRegions` reads a
list from left to right and leaves every region out.
-/

namespace CommonCc

variable {α : Type}

def deleteRegions (region : List α → Option Nat) : List α → List α
  | [] => []
  | c :: s =>
      match region (c :: s) with
      | none => c :: deleteRegions region s
      | some n => deleteRegions region (s.drop (n - 1))
termination_by s => s.length
decreasing_by
  · exact Nat.lt_succ_self _
  · rw [List.length_drop, List.length_cons]
    omega

/-- The second list is what comes right behind one of the regions that are left out. -/
inductive AfterRegion (region : List α → Option Nat) : List α → List α → Prop
  | here {s : List α} {n : Nat} (h : region s = some n) : AfterRegion region s (s.drop n)
  | next {s t : List α} {n : Nat} (h : region s = some n)
      (hrest : AfterRegion region (s.drop n) t) : AfterRegion region s t
  | skip {s t : List α} {c : α} (h : region (c :: s) = none)
      (hrest : AfterRegion region s t) : AfterRegion region (c :: s) t

section

variable {region : List α → Option Nat} {s t : List α} {c : α} {n : Nat}

@[simp] theorem deleteRegions_nil (region : List α → Option Nat) :
    deleteRegions region [] = [] := by
  rw [deleteRegions]

theorem deleteRegions_skip (h : region (c :: s) = none) :
    deleteRegions region (c :: s) = c :: deleteRegions region s := by
  rw [deleteRegions, h]

theorem deleteRegions_region (h : region s = some n) (hn : 0 < n) :
    deleteRegions region s = deleteRegions region (s.drop n) := by
  cases s with
  | nil => rw [List.drop_nil]
  | cons c s =>
      obtain ⟨m, rfl⟩ := Nat.exists_eq_succ_of_ne_zero (Nat.ne_of_gt hn)
      rw [deleteRegions, h]
      rfl

theorem deleteRegions_length_le (region : List α → Option Nat) (s : List α) :
    (deleteRegions region s).length ≤ s.length := by
  fun_induction deleteRegions region s with
  | case1 => exact Nat.le_refl 0
  | case2 c s h ih => exact Nat.succ_le_succ ih
  | case3 c s n h ih =>
      rw [List.length_drop] at ih
      rw [List.length_cons]
      omega

theorem afterRegion_region_iff (h : region s = some n) :
    AfterRegion region s t ↔ t = s.drop n ∨ AfterRegion region (s.drop n) t := by
  constructor
  · intro hafter
    cases hafter with
    | here h' =>
        rw [h] at h'
        cases h'
        exact .inl rfl
    | next h' hrest =>
        rw [h] at h'
        cases h'
        exact .inr hrest
    | skip h' hrest =>
        rw [h] at h'
        cases h'
  · rintro (rfl | hrest)
    · exact .here h
    · exact .next h hrest

theorem afterRegion_skip_iff (h : region (c :: s) = none) :
    AfterRegion region (c :: s) t ↔ AfterRegion region s t := by
  constructor
  · intro hafter
    cases hafter with
    | here h' =>
        rw [h] at h'
        cases h'
    | next h' hrest =>
        rw [h] at h'
        cases h'
    | skip h' hrest => exact hrest
  · exact .skip h

theorem AfterRegion.suffix (h : AfterRegion region s t) : t <:+ s := by
  induction h with
  | @here s n h => exact List.drop_suffix n s
  | @next s t n h _ ih => exact ih.trans (List.drop_suffix n s)
  | @skip s t c h _ ih => exact ih.trans (List.suffix_cons c s)

/-! ## The first region -/

variable {a : List α}

theorem deleteRegions_append (h : ∀ j < a.length, region ((a ++ s).drop j) = none) :
    deleteRegions region (a ++ s) = a ++ deleteRegions region s := by
  induction a with
  | nil => rfl
  | cons c a ih =>
      have hhead : region (c :: (a ++ s)) = none := h 0 (Nat.succ_pos _)
      rw [List.cons_append, deleteRegions_skip hhead,
        ih fun j hj => h (j + 1) (Nat.succ_lt_succ hj)]
      rfl

theorem afterRegion_append_iff (h : ∀ j < a.length, region ((a ++ s).drop j) = none) :
    AfterRegion region (a ++ s) t ↔ AfterRegion region s t := by
  induction a with
  | nil => rfl
  | cons c a ih =>
      have hhead : region (c :: (a ++ s)) = none := h 0 (Nat.succ_pos _)
      rw [List.cons_append, afterRegion_skip_iff hhead]
      exact ih fun j hj => h (j + 1) (Nat.succ_lt_succ hj)

theorem deleteRegions_eq_self (h : ∀ j < s.length, region (s.drop j) = none) :
    deleteRegions region s = s := by
  have hall := @deleteRegions_append _ region [] s
  rw [List.append_nil] at hall
  rw [hall h, deleteRegions_nil, List.append_nil]

theorem not_afterRegion (h : ∀ j ≤ s.length, region (s.drop j) = none) :
    ¬ AfterRegion region s t := by
  have hall := @afterRegion_append_iff _ region [] t s
  rw [List.append_nil] at hall
  rw [hall fun j hj => h j (Nat.le_of_lt hj)]
  intro hafter
  have hend : region [] = none := by
    simpa using h s.length (Nat.le_refl _)
  cases hafter with
  | here h' =>
      rw [hend] at h'
      cases h'
  | next h' hrest =>
      rw [hend] at h'
      cases h'

end

end CommonCc
