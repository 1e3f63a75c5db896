import Mathlib.Data.List.Basic
import Mathlib.Tactic.Common

/-!
# Merging runs

Several lists are merged by taking, as long as there is one, a head that may come before every
other head.
-/

namespace CommonCc

universe u

variable {α : Type u} {before : α → α → Prop} {runs : List (List α)} {out : List α}

inductive Merges (before : α → α → Prop) : List (List α) → List α → Prop where
  | done {runs : List (List α)} (h : ∀ run ∈ runs, run = []) : Merges before runs []
  | take {runs : List (List α)} {i : Nat} {a : α} {run out : List α}
      (hi : runs[i]? = some (a :: run)) (hfirst : ∀ b l, b :: l ∈ runs → before a b)
      (h : Merges before (runs.set i run) out) : Merges before runs (a :: out)

theorem flatten_set_perm {i : Nat} {a : α} {run : List α} (hi : runs[i]? = some (a :: run)) :
    (a :: (runs.set i run).flatten).Perm runs.flatten := by
  induction runs generalizing i with
  | nil => cases hi
  | cons r runs ih =>
      cases i with
      | zero =>
          cases hi
          rw [List.set_cons_zero, List.flatten_cons, List.flatten_cons, List.cons_append]
      | succ i =>
          rw [List.set_cons_succ, List.flatten_cons, List.flatten_cons]
          exact List.perm_middle.symm.trans ((ih hi).append_left r)

theorem Merges.perm (h : Merges before runs out) : out.Perm runs.flatten := by
  induction h with
  | done h => rw [List.flatten_eq_nil_iff.mpr h]
  | take hi _ _ ih => exact (ih.cons _).trans (flatten_set_perm hi)

/-- A merge of sorted runs is sorted. -/
theorem Merges.pairwise (h : Merges before runs out)
    (htrans : ∀ a b c, before a b → before b c → before a c)
    (hruns : ∀ run ∈ runs, run.Pairwise before) : out.Pairwise before := by
  induction h with
  | done h => exact List.Pairwise.nil
  | @take runs i a run out hi hfirst h ih =>
      have hrun : (a :: run).Pairwise before := hruns _ (List.mem_of_getElem? hi)
      have hrest : ∀ run' ∈ runs.set i run, run'.Pairwise before := by
        intro run' hmem
        cases List.mem_or_eq_of_mem_set hmem with
        | inl hold => exact hruns run' hold
        | inr hnew => rw [hnew]; exact hrun.of_cons
      apply List.Pairwise.cons _ (ih hrest)
      intro b hb
      obtain ⟨run', hmem, hb⟩ := List.mem_flatten.mp (h.perm.mem_iff.mp hb)
      cases List.mem_or_eq_of_mem_set hmem with
      | inr hnew => exact List.rel_of_pairwise_cons hrun (hnew ▸ hb)
      | inl hold =>
          cases run' with
          | nil => cases hb
          | cons c l =>
              have hc : before a c := hfirst c l hold
              cases List.mem_cons.mp hb with
              | inl heq => exact heq ▸ hc
              | inr hl => exact htrans a c b hc (List.rel_of_pairwise_cons (hruns _ hold) hl)

end CommonCc
