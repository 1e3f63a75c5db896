import CommonCc.Lib.Search

/-!
# Cutting a list

`cut` cuts a list at the occurrences of a pattern that do not overlap, from left to right.
-/

namespace CommonCc

variable {α : Type} [DecidableEq α]

def cut (pat s : List α) : List (List α) :=
  match _h : search pat s with
  | none => [s]
  | some i => if _hpat : pat = [] then [s] else s.take i :: cut pat (s.drop (i + pat.length))
termination_by s.length
decreasing_by
  have hfit := search_fits _h
  have hpos := List.length_pos_iff.mpr _hpat
  rw [List.length_drop]
  omega

section

variable {pat s : List α} {i : Nat}

theorem cut_of_none (h : search pat s = none) : cut pat s = [s] := by
  rw [cut]
  split
  · rfl
  · next i hi =>
      rw [h] at hi
      cases hi

theorem cut_of_some (hne : pat ≠ []) (h : search pat s = some i) :
    cut pat s = s.take i :: cut pat (s.drop (i + pat.length)) := by
  rw [cut]
  split
  · next hi =>
      rw [h] at hi
      cases hi
  · next j hj =>
      rw [h] at hj
      cases hj
      rw [dif_neg hne]

/-- From the rest behind the first occurrence to the whole list. -/
theorem cut_induction {motive : List α → Prop} (hne : pat ≠ [])
    (hnone : ∀ s, search pat s = none → motive s)
    (hsome : ∀ s i, search pat s = some i → motive (s.drop (i + pat.length)) → motive s)
    (s : List α) : motive s := by
  induction hn : s.length using Nat.strongRecOn generalizing s with
  | ind n ih =>
      cases hs : search pat s with
      | none => exact hnone s hs
      | some i =>
          have hfit := search_fits hs
          have hpos := List.length_pos_iff.mpr hne
          apply hsome s i hs
          apply ih (s.drop (i + pat.length)).length _ _ rfl
          rw [List.length_drop]
          omega

theorem cut_ne_nil (hne : pat ≠ []) (s : List α) : cut pat s ≠ [] := by
  cases hs : search pat s with
  | none =>
      rw [cut_of_none hs]
      exact List.cons_ne_nil _ _
  | some i =>
      rw [cut_of_some hne hs]
      exact List.cons_ne_nil _ _

/-- The pieces with the pattern between them are the list. -/
theorem intercalate_cut (hne : pat ≠ []) (s : List α) : pat.intercalate (cut pat s) = s := by
  apply cut_induction hne (motive := fun s => pat.intercalate (cut pat s) = s)
  · intro s h
    rw [cut_of_none h]
    exact List.intercalate_singleton
  · intro s i h ih
    have hspec := search_spec h
    rw [cut_of_some hne h, List.intercalate_cons_of_ne_nil (cut_ne_nil hne _), ih,
      List.append_assoc, ← List.drop_drop]
    conv_rhs => rw [← List.take_append_drop i s]
    congr 1
    exact (List.prefix_iff_eq_append.mp hspec.2).symm ▸ rfl

/-! ## Text that has no element of the pattern -/

theorem search_append_of_disjoint {w : List α} (hne : pat ≠ []) (h : ∀ c ∈ w, c ∉ pat)
    (s : List α) : search pat (w ++ s) = (search pat s).map (w.length + ·) := by
  induction w with
  | nil =>
      rw [List.nil_append]
      cases search pat s with
      | none => rfl
      | some i => simp
  | cons c w ih =>
      have hno : ¬ pat <+: c :: (w ++ s) := by
        intro hpre
        cases pat with
        | nil => exact hne rfl
        | cons d pat =>
            have hd := (List.cons_prefix_cons.mp hpre).1
            exact h c List.mem_cons_self (hd ▸ List.mem_cons_self)
      have hrest := ih fun d hd => h d (List.mem_cons_of_mem _ hd)
      rw [List.cons_append, search, if_neg hno, hrest, Option.map_map]
      congr 1
      funext i
      simp only [Function.comp_apply, List.length_cons]
      omega

omit [DecidableEq α] in
theorem intercalate_append_cons (x : α) (p : List α) (ps : List (List α)) (q : List α) :
    [x].intercalate (p :: ps ++ [q]) = [x].intercalate (p :: ps) ++ x :: q := by
  induction ps generalizing p with
  | nil => simp [List.intercalate_cons_of_ne_nil]
  | cons r ps ih =>
      have h := ih r
      rw [List.cons_append] at h
      rw [List.cons_append, List.cons_append, List.intercalate_cons_cons, h,
        List.intercalate_cons_cons]
      simp only [List.append_assoc]

/-- Pieces that have not the first element of the pattern come back. -/
theorem cut_intercalate {x : α} {xs : List α} {ps : List (List α)} (hne : ps ≠ [])
    (h : ∀ p ∈ ps, x ∉ p) : cut (x :: xs) ((x :: xs).intercalate ps) = ps := by
  induction ps with
  | nil => exact absurd rfl hne
  | cons p ps ih =>
      have hp := List.forall_mem_cons.mp h
      by_cases hps : ps = []
      · rw [hps, List.intercalate_singleton, cut_of_none (search_eq_none_of_not_mem hp.1)]
      · have hsearch := @search_append_of_not_mem _ _ x xs p ((x :: xs).intercalate ps) hp.1
        rw [List.intercalate_cons_of_ne_nil hps, cut_of_some (List.cons_ne_nil x xs) hsearch,
          List.append_assoc, List.take_left, List.drop_length_add_append, List.drop_left,
          ih hps hp.2]

end

end CommonCc
