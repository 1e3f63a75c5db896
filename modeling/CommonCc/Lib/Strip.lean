import Mathlib.Data.List.DropRight
import Mathlib.Data.List.TakeWhile
import Mathlib.Tactic.Common

/-!
# Both ends of a list

`strip p` takes away the longest prefix and the longest suffix whose elements have `p`.
-/

namespace CommonCc

variable {α : Type} {p : α → Bool} {s : List α}

def strip (p : α → Bool) (s : List α) : List α := (s.rdropWhile p).dropWhile p

theorem rdropWhile_cons (p : α → Bool) (x : α) (s : List α) :
    (x :: s).rdropWhile p =
      if s.rdropWhile p = [] then [x].rdropWhile p else x :: s.rdropWhile p := by
  induction s using List.reverseRecOn with
  | nil => simp
  | append_singleton s y ih =>
      rw [← List.cons_append]
      by_cases hy : p y
      · rw [List.rdropWhile_concat_pos p _ y hy, List.rdropWhile_concat_pos p _ y hy, ih]
      · rw [List.rdropWhile_concat_neg p _ y hy, List.rdropWhile_concat_neg p _ y hy,
          if_neg (by simp)]
        rfl

/-- The two ends may be taken away in any order. -/
theorem strip_comm (p : α → Bool) (s : List α) : strip p s = (s.dropWhile p).rdropWhile p := by
  induction s with
  | nil => rfl
  | cons x s ih =>
      by_cases hx : p x
      · rw [strip, rdropWhile_cons, List.dropWhile_cons_of_pos hx, ← ih, strip]
        split
        · next hnil => simp [hnil, List.rdropWhile_singleton, hx]
        · exact List.dropWhile_cons_of_pos hx
      · have hkept : (x :: s).rdropWhile p = x :: s.rdropWhile p := by
          rw [rdropWhile_cons, List.rdropWhile_singleton, if_neg hx]
          split
          · next hnil => rw [hnil]
          · rfl
        rw [strip, List.dropWhile_cons_of_neg hx, hkept, List.dropWhile_cons_of_neg hx]

theorem strip_nil (p : α → Bool) : strip p [] = [] := rfl

theorem strip_ne_nil (h : s.rdropWhile p ≠ []) : strip p s ≠ [] := by
  intro hnil
  have hall := List.dropWhile_eq_nil_iff.mp hnil
  exact List.rdropWhile_last_not p s h (hall _ (List.getLast_mem h))

/-- Without the front only, the end is still there. -/
theorem dropWhile_eq_strip_append (h : s.rdropWhile p ≠ []) :
    s.dropWhile p = strip p s ++ s.rtakeWhile p := by
  have hne : ¬ (strip p s).isEmpty := fun hnil => strip_ne_nil h (List.isEmpty_iff.mp hnil)
  rw [strip] at hne ⊢
  conv_lhs => rw [← List.rdropWhile_append_rtakeWhile (p := p) (l := s)]
  rw [List.dropWhile_append, if_neg hne]

theorem rdropWhile_append_of_pos {b : List α} (hb : ∀ x ∈ b, p x = true) (s : List α) :
    (s ++ b).rdropWhile p = s.rdropWhile p := by
  induction b using List.reverseRecOn with
  | nil => rw [List.append_nil]
  | append_singleton b x ih =>
      have hx := hb x (List.mem_append_right _ List.mem_cons_self)
      rw [← List.append_assoc, List.rdropWhile_concat_pos p _ x hx,
        ih fun y hy => hb y (List.mem_append_left _ hy)]

/-- What stands around a list is taken away, too. -/
theorem strip_append {a b : List α} (ha : ∀ x ∈ a, p x = true) (hb : ∀ x ∈ b, p x = true)
    (s : List α) : strip p (a ++ (s ++ b)) = strip p s := by
  rw [strip, ← List.append_assoc, rdropWhile_append_of_pos hb, ← strip, strip_comm,
    List.dropWhile_append_of_pos ha, ← strip_comm]

theorem strip_eq_self (hfirst : ∀ x ∈ s.head?, p x = false) (hlast : ∀ x ∈ s.getLast?, p x = false) :
    strip p s = s := by
  have hright : s.rdropWhile p = s := by
    rw [List.rdropWhile_eq_self_iff]
    intro hne
    rw [hlast _ (List.getLast_mem_getLast? hne)]
    exact Bool.false_ne_true
  rw [strip, hright]
  cases s with
  | nil => rfl
  | cons x s => exact List.dropWhile_cons_of_neg (by simp [hfirst x rfl])

/-- The list between what is taken away. -/
theorem exists_strip (p : α → Bool) (s : List α) :
    ∃ a b, s = a ++ (strip p s ++ b) ∧ (∀ x ∈ a, p x = true) ∧ ∀ x ∈ b, p x = true := by
  refine ⟨(s.rdropWhile p).takeWhile p, s.rtakeWhile p, ?_, ?_, ?_⟩
  · rw [strip, ← List.append_assoc, List.takeWhile_append_dropWhile,
      List.rdropWhile_append_rtakeWhile]
  · exact fun x hx => List.mem_takeWhile_imp hx
  · exact fun x hx => List.mem_rtakeWhile_imp hx

/-! ## What is left -/

theorem countP_dropWhile (p : α → Bool) (s : List α) :
    (s.dropWhile p).countP (!p ·) = s.countP (!p ·) := by
  have hgone : (s.takeWhile p).countP (!p ·) = 0 := by
    apply List.countP_eq_zero.mpr
    intro x hx
    simpa using List.mem_takeWhile_imp hx
  conv_rhs => rw [← List.takeWhile_append_dropWhile (p := p) (l := s)]
  rw [List.countP_append, hgone, Nat.zero_add]

theorem countP_rdropWhile (p : α → Bool) (s : List α) :
    (s.rdropWhile p).countP (!p ·) = s.countP (!p ·) := by
  have hgone : (s.rtakeWhile p).countP (!p ·) = 0 := by
    apply List.countP_eq_zero.mpr
    intro x hx
    simpa using List.mem_rtakeWhile_imp hx
  conv_rhs => rw [← List.rdropWhile_append_rtakeWhile (p := p) (l := s)]
  rw [List.countP_append, hgone, Nat.add_zero]

theorem countP_strip (p : α → Bool) (s : List α) :
    (strip p s).countP (!p ·) = s.countP (!p ·) := by
  rw [strip, countP_dropWhile, countP_rdropWhile]

theorem not_of_dropWhile_eq_cons {x : α} {m : List α} (h : s.dropWhile p = x :: m) :
    p x = false := by
  have hfirst := List.head?_dropWhile_not p s
  rw [h] at hfirst
  exact hfirst

theorem not_of_rdropWhile_eq_concat {x : α} {m : List α} (h : s.rdropWhile p = m ++ [x]) :
    p x = false := by
  have hlast := List.rdropWhile_last_not p s (by simp [h])
  simpa [h] using hlast

/-! ## Parts of a trimmed list -/

theorem strip_dropWhile (p : α → Bool) (s : List α) : strip p (s.dropWhile p) = strip p s := by
  rw [strip_comm, List.dropWhile_idempotent, ← strip_comm]

theorem strip_eq_dropWhile (h : s.rdropWhile p = s) : strip p s = s.dropWhile p := by
  rw [strip, h]

theorem rdropWhile_strip (p : α → Bool) (s : List α) : (strip p s).rdropWhile p = strip p s := by
  rw [strip_comm, List.rdropWhile_idempotent]

/-- The rest of a list is trimmed on the right when the list is. -/
theorem rdropWhile_drop (h : s.rdropWhile p = s) (n : Nat) :
    (s.drop n).rdropWhile p = s.drop n := by
  rw [List.rdropWhile_eq_self_iff] at h ⊢
  intro hne
  rw [List.getLast_drop]
  exact h _

/-- The begin of a list that is trimmed on the left. -/
theorem dropWhile_take_add (p : α → Bool) (s : List α) (n : Nat) :
    (s.take ((s.takeWhile p).length + n)).dropWhile p = (s.dropWhile p).take n := by
  have htake : s.take ((s.takeWhile p).length + n) = s.takeWhile p ++ (s.dropWhile p).take n := by
    conv_lhs =>
      arg 2
      rw [← List.takeWhile_append_dropWhile (p := p) (l := s)]
    exact List.take_length_add_append n
  rw [htake, List.dropWhile_append_of_pos fun _ => List.mem_takeWhile_imp]
  cases hs : s.dropWhile p with
  | nil => simp
  | cons x m =>
      have hx := not_of_dropWhile_eq_cons hs
      cases n with
      | zero => rfl
      | succ n => rw [List.take_succ_cons, List.dropWhile_cons_of_neg (by simp [hx])]

theorem drop_takeWhile_add (p : α → Bool) (s : List α) (n : Nat) :
    s.drop ((s.takeWhile p).length + n) = (s.dropWhile p).drop n := by
  conv_lhs =>
    arg 2
    rw [← List.takeWhile_append_dropWhile (p := p) (l := s)]
  exact List.drop_length_add_append n

/-! ## One element -/

/-- The only element that is left is the only one without `p`. -/
theorem countP_eq_one_of_dropWhile (h : (s.dropWhile p).length = 1) : s.countP (!p ·) = 1 := by
  obtain ⟨x, hx⟩ := List.length_eq_one_iff.mp h
  have hfirst := not_of_dropWhile_eq_cons hx
  rw [← countP_dropWhile, hx]
  simpa using hfirst

theorem countP_eq_one_of_rdropWhile (h : (s.rdropWhile p).length = 1) : s.countP (!p ·) = 1 := by
  obtain ⟨x, hx⟩ := List.length_eq_one_iff.mp h
  have hlast := not_of_rdropWhile_eq_concat (m := []) hx
  rw [← countP_rdropWhile, hx]
  simpa using hlast

/-- One element is left exactly when there is one without `p`. -/
theorem length_strip_eq_one_iff : (strip p s).length = 1 ↔ s.countP (!p ·) = 1 := by
  constructor
  · intro h
    rw [← countP_rdropWhile]
    exact countP_eq_one_of_dropWhile h
  · intro h
    rw [← countP_strip] at h
    cases hs : strip p s with
    | nil => simp [hs] at h
    | cons x m =>
        have hfirst : p x = false := not_of_dropWhile_eq_cons hs
        cases m using List.reverseRecOn with
        | nil => rfl
        | append_singleton m y =>
            -- the first and the last element are two that are counted
            rw [strip_comm] at hs
            have hlast : p y = false := not_of_rdropWhile_eq_concat (m := x :: m) hs
            rw [← strip_comm] at hs
            rw [hs] at h
            simp [List.countP_append, hfirst, hlast] at h

end CommonCc
