import CommonCc.Lib.Keyed
import Mathlib.Order.Lattice
import Mathlib.Tactic.Common

/-!
# Lists sorted by a key

A list whose keys never decrease falls into the part below a key, the part at the
key and the part above it.
-/

namespace CommonCc

universe u v

variable {α : Type u} {κ : Type v} [LinearOrder κ]

/-- The keys of `l` never decrease. -/
def SortedBy (key : α → κ) (l : List α) : Prop := l.Pairwise fun a b => key a ≤ key b

namespace SortedBy

variable {key key' : α → κ} {l as bs : List α}

theorem congr (h : SortedBy key l) (heq : ∀ a ∈ l, key' a = key a) : SortedBy key' l := by
  refine h.imp_of_mem fun ha hb hab => ?_
  rw [heq _ ha, heq _ hb]
  exact hab

/-- A sorted list around the elements at `k`. -/
theorem split (h : SortedBy key l) (k : κ) :
    ∃ as bs, l = as ++ withKey key k l ++ bs ∧
      (∀ a ∈ as, key a < k) ∧ ∀ b ∈ bs, k < key b := by
  induction l with
  | nil => exact ⟨[], [], rfl, by simp, by simp⟩
  | cons a l ih =>
      obtain ⟨hfirst, hrest⟩ := List.pairwise_cons.mp h
      obtain ⟨as, bs, heq, has, hbs⟩ := ih hrest
      rcases lt_trichotomy (key a) k with hlt | heqk | hgt
      · refine ⟨a :: as, bs, ?_, ?_, hbs⟩
        · rw [withKey, List.filter_cons_of_neg (by simpa using hlt.ne)]
          exact congrArg (a :: ·) heq
        · exact List.forall_mem_cons.mpr ⟨hlt, has⟩
      · have hnil : as = [] := by
          cases as with
          | nil => rfl
          | cons x as =>
              have hx : key a ≤ key x := hfirst x (by rw [heq]; simp)
              exact absurd (has x List.mem_cons_self) (not_lt.mpr (heqk ▸ hx))
        subst hnil
        refine ⟨[], bs, ?_, by simp, hbs⟩
        rw [withKey, List.filter_cons_of_pos (by simpa using heqk)]
        exact congrArg (a :: ·) heq
      · refine ⟨[], a :: l, ?_, by simp, ?_⟩
        · have hnone : withKey key k (a :: l) = [] := by
            refine withKey_eq_nil.mpr fun x hx => ?_
            rcases List.mem_cons.mp hx with rfl | hx
            · exact hgt.ne'
            · exact (lt_of_lt_of_le hgt (hfirst x hx)).ne'
          rw [hnone]
          rfl
        · exact List.forall_mem_cons.mpr ⟨hgt, fun b hb => lt_of_lt_of_le hgt (hfirst b hb)⟩

theorem remove {ds : List α} (h : SortedBy key (as ++ ds ++ bs)) : SortedBy key (as ++ bs) := by
  refine List.Pairwise.sublist ?_ h
  exact (List.sublist_append_left as ds).append_right bs

/-- An element goes behind all the elements it is not below. -/
theorem insert {x : α} (h : SortedBy key (as ++ bs)) (has : ∀ a ∈ as, key a ≤ key x)
    (hbs : ∀ b ∈ bs, key x ≤ key b) : SortedBy key (as ++ x :: bs) := by
  obtain ⟨ha, hb, hab⟩ := List.pairwise_append.mp h
  refine List.pairwise_append.mpr ⟨ha, List.pairwise_cons.mpr ⟨hbs, hb⟩, fun a haa b hbb => ?_⟩
  rcases List.mem_cons.mp hbb with rfl | hbb
  · exact has a haa
  · exact hab a haa b hbb

end SortedBy

/-! ## Changes of a key -/

/-- The keys of a list that differ from the key before them. -/
def changes (pre : κ) : List κ → List κ
  | [] => []
  | a :: l => if pre ≠ a then a :: changes a l else changes a l

theorem changes_cons_of_ne {pre a : κ} (h : pre ≠ a) (l : List κ) :
    changes pre (a :: l) = a :: changes a l := if_pos h

theorem changes_cons_self (a : κ) (l : List κ) : changes a (a :: l) = changes a l :=
  if_neg (not_not.mpr rfl)

theorem mem_changes {pre k : κ} {l : List κ} :
    k ∈ pre :: changes pre l ↔ k ∈ pre :: l := by
  induction l generalizing pre with
  | nil => exact Iff.rfl
  | cons a l ih =>
      by_cases h : pre = a
      · rw [h, changes_cons_self, ih, List.mem_cons, List.mem_cons, List.mem_cons, or_self_left]
      · rw [changes_cons_of_ne h, List.mem_cons, ih, List.mem_cons (l := a :: l)]

/-- Between sorted keys the changes are the distinct keys. -/
theorem changes_sorted {pre : κ} {l : List κ} (h : (pre :: l).Pairwise (· ≤ ·)) :
    (pre :: changes pre l).Pairwise (· < ·) := by
  induction l generalizing pre with
  | nil => exact List.pairwise_singleton _ _
  | cons a l ih =>
      have hrest := ih (List.pairwise_cons.mp h).2
      have hle := (List.pairwise_cons.mp h).1 a List.mem_cons_self
      by_cases heq : pre = a
      · rwa [heq, changes_cons_self]
      · have hlt : pre < a := lt_of_le_of_ne hle heq
        rw [changes_cons_of_ne heq]
        refine List.pairwise_cons.mpr ⟨fun b hb => ?_, hrest⟩
        cases List.mem_cons.mp hb with
        | inl hba => rwa [hba]
        | inr hmem => exact hlt.trans ((List.pairwise_cons.mp hrest).1 b hmem)

end CommonCc
