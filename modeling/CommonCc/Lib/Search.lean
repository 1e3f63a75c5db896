import Mathlib.Data.List.Basic
import Mathlib.Data.List.Infix
import Mathlib.Tactic.Common

/-!
# First occurrence of a pattern

`search` is the position of the first occurrence of a list in another one,
`searchFrom` the position of the first one that does not start before a given place, and
`searchLast` the position of the last one.
-/

namespace CommonCc

variable {α : Type} [DecidableEq α]

def search (pat : List α) : List α → Option Nat
  | [] => if pat = [] then some 0 else none
  | c :: s => if pat <+: c :: s then some 0 else (search pat s).map (· + 1)

def searchFrom (pat s : List α) (pos : Nat) : Option Nat :=
  if pos ≤ s.length then (search pat (s.drop pos)).map (pos + ·) else none

def searchLast (pat : List α) : List α → Option Nat
  | [] => if pat = [] then some 0 else none
  | c :: s =>
      match searchLast pat s with
      | some i => some (i + 1)
      | none => if pat <+: c :: s then some 0 else none

theorem search_here {pat s : List α} (h : pat <+: s) : search pat s = some 0 := by
  cases s with
  | nil => simp [search, List.prefix_nil.mp h]
  | cons c s => simp [search, h]

theorem search_nil {pat : List α} (h : pat ≠ []) : search pat [] = none := if_neg h

/-- An occurrence with none before it is the one that is found. -/
theorem search_eq_some {pat s : List α} {i : Nat} (hi : pat <+: s.drop i) (hlen : i ≤ s.length)
    (hfirst : ∀ j, j < i → ¬ pat <+: s.drop j) : search pat s = some i := by
  induction s generalizing i with
  | nil =>
      have h0 : i = 0 := by simpa using hlen
      subst h0
      exact search_here hi
  | cons c s ih =>
      cases i with
      | zero => exact search_here hi
      | succ i =>
          have hno : ¬ pat <+: c :: s := hfirst 0 (by omega)
          have hrec := ih (i := i) (by simpa using hi) (by simpa using hlen)
            fun j hj => by simpa using hfirst (j + 1) (by omega)
          simp [search, hno, hrec]

theorem search_eq_none {pat s : List α} (h : ∀ j, j ≤ s.length → ¬ pat <+: s.drop j) :
    search pat s = none := by
  induction s with
  | nil =>
      have hne : pat ≠ [] := fun he => h 0 (by simp) (by simp [he])
      simp [search, hne]
  | cons c s ih =>
      have hno : ¬ pat <+: c :: s := h 0 (by omega)
      have hrec := ih fun j hj => by
        simpa using h (j + 1) (by simpa using hj)
      simp [search, hno, hrec]

/-- What is found is an occurrence. -/
theorem search_spec {pat s : List α} {i : Nat} (h : search pat s = some i) :
    i ≤ s.length ∧ pat <+: s.drop i := by
  induction s generalizing i with
  | nil =>
      simp only [search, Option.ite_none_right_eq_some, Option.some.injEq] at h
      obtain ⟨rfl, rfl⟩ := h
      simp
  | cons c s ih =>
      unfold search at h
      split at h
      · cases h
        exact ⟨by omega, by simpa⟩
      · obtain ⟨j, hj, rfl⟩ := Option.map_eq_some_iff.mp h
        obtain ⟨hle, hpre⟩ := ih hj
        exact ⟨by simpa using hle, by simpa using hpre⟩

/-- What is found is the first occurrence. -/
theorem search_first {pat s : List α} {i j : Nat} (h : search pat s = some i) (hj : j < i) :
    ¬ pat <+: s.drop j := by
  induction s generalizing i j with
  | nil =>
      simp only [search, Option.ite_none_right_eq_some, Option.some.injEq] at h
      omega
  | cons c s ih =>
      unfold search at h
      split at h
      · cases h
        omega
      · rename_i hno
        obtain ⟨i', hi', rfl⟩ := Option.map_eq_some_iff.mp h
        cases j with
        | zero => exact hno
        | succ j => exact ih hi' (Nat.lt_of_succ_lt_succ hj)

theorem not_prefix_of_search_eq_none {pat s : List α} (h : search pat s = none) (j : Nat) :
    ¬ pat <+: s.drop j := by
  induction s generalizing j with
  | nil =>
      intro hpre
      rw [List.drop_nil, List.prefix_nil] at hpre
      simp [search, hpre] at h
  | cons c s ih =>
      unfold search at h
      split at h
      · cases h
      · rename_i hno
        cases j with
        | zero => exact hno
        | succ j => exact ih (Option.map_eq_none_iff.mp h) j

/-- A search that starts behind a part of the text is a search of the rest. -/
theorem searchFrom_append (pat out s : List α) :
    searchFrom pat (out ++ s) out.length = (search pat s).map (out.length + ·) := by
  rw [searchFrom, if_pos (by simp), List.drop_left]

/-- A pattern whose first element does not occur in `xs` is found right behind
`xs`. -/
theorem search_append_of_not_mem {c : α} {pat xs ys : List α} (hc : c ∉ xs) :
    search (c :: pat) (xs ++ (c :: pat) ++ ys) = some xs.length := by
  apply search_eq_some
  · simp [List.append_assoc]
  · simp
  · intro j hj hpre
    have hlt : j < xs.length := hj
    rw [List.append_assoc, List.drop_append_of_le_length (by omega),
      List.drop_eq_getElem_cons hlt, List.cons_append, List.cons_prefix_cons] at hpre
    exact hc (hpre.1 ▸ List.getElem_mem hlt)

/-- The first `x` splits a list in one way. -/
theorem append_cons_inj_of_first {a b c d : List α} {x : α} (ha : x ∉ a) (hb : x ∉ b)
    (h : a ++ x :: c = b ++ x :: d) : a = b ∧ c = d := by
  have hfind := @search_append_of_not_mem _ _ x [] a c ha
  have hfind' := @search_append_of_not_mem _ _ x [] b d hb
  have hlen : a.length = b.length := by
    rw [List.append_assoc, List.singleton_append] at hfind hfind'
    rw [h, hfind'] at hfind
    exact (Option.some.inj hfind).symm
  have hsplit := List.append_inj h hlen
  exact ⟨hsplit.1, (List.cons.inj hsplit.2).2⟩

theorem search_eq_none_of_not_mem {c : α} {pat xs : List α} (hc : c ∉ xs) :
    search (c :: pat) xs = none := by
  apply search_eq_none
  intro j hj hpre
  exact hc (List.mem_of_mem_drop (hpre.subset List.mem_cons_self))

/-! ## Where a pattern can lie -/

omit [DecidableEq α] in
/-- A pattern without `x` lies on one side of an `x`. -/
theorem infix_append_cons_iff {pat a b : List α} {x : α} (hx : x ∉ pat) :
    pat <:+: a ++ x :: b ↔ pat <:+: a ∨ pat <:+: b := by
  constructor
  · intro h
    obtain ⟨s, t, hst⟩ := h
    rw [List.append_assoc] at hst
    rcases List.append_eq_append_iff.mp hst with ⟨a', ha, htail⟩ | ⟨s', hs, htail⟩
    · -- the pattern begins in front of the `x`
      rcases List.append_eq_append_iff.mp htail with ⟨b', hb, -⟩ | ⟨c, hpat, hrest⟩
      · exact .inl ⟨s, b', by rw [ha, hb, List.append_assoc]⟩
      · cases c with
        | nil => exact .inl ⟨s, [], by rw [ha, hpat]; simp⟩
        | cons y c =>
            have hy : x = y := (List.cons.inj hrest).1
            apply absurd _ hx
            rw [hpat, hy]
            simp
    · cases s' with
      | nil =>
          cases pat with
          | nil => exact .inl ⟨[], a, rfl⟩
          | cons y pat =>
              have hy : x = y := (List.cons.inj htail).1
              exact absurd (hy ▸ List.mem_cons_self) hx
      | cons y s' =>
          exact .inr ⟨s', t, by rw [List.append_assoc]; exact (List.cons.inj htail).2.symm⟩
  · intro h
    cases h with
    | inl h => exact h.trans (List.prefix_append a (x :: b)).isInfix
    | inr h =>
        have hsuffix : b <:+ a ++ x :: b := ⟨a ++ [x], by simp⟩
        exact h.trans hsuffix.isInfix

theorem search_eq_none_iff {pat s : List α} : search pat s = none ↔ ¬ pat <:+: s := by
  constructor
  · intro h hin
    obtain ⟨a, b, hab⟩ := hin
    apply not_prefix_of_search_eq_none h a.length
    rw [← hab, List.append_assoc, List.drop_left]
    exact List.prefix_append pat b
  · intro h
    apply search_eq_none
    intro j _ hpre
    exact h (hpre.isInfix.trans (List.drop_suffix j s).isInfix)

theorem search_fits {pat s : List α} {i : Nat} (h : search pat s = some i) :
    i + pat.length ≤ s.length := by
  have hspec := search_spec h
  have hle := hspec.2.length_le
  rw [List.length_drop] at hle
  omega

/-- The list in front of the first occurrence, the occurrence, and the rest. -/
theorem split_of_search {pat s : List α} {i : Nat} (h : search pat s = some i) :
    s = s.take i ++ (pat ++ s.drop (i + pat.length)) ∧ (s.take i).length = i := by
  have hspec := search_spec h
  have hpre := List.prefix_iff_eq_append.mp hspec.2
  constructor
  · rw [← List.drop_drop, hpre, List.take_append_drop]
  · exact List.length_take_of_le hspec.1

/-- An occurrence is found whatever comes after it. -/
theorem search_append_of_some {pat s : List α} {i : Nat} (h : search pat s = some i) (t : List α) :
    search pat (s ++ t) = some i := by
  have hspec := search_spec h
  have hlen := search_fits h
  apply search_eq_some
  · rw [List.drop_append_of_le_length hspec.1]
    exact hspec.2.trans (List.prefix_append _ _)
  · rw [List.length_append]
    exact Nat.le_add_right_of_le hspec.1
  · intro j hj hpre
    rw [List.drop_append_of_le_length (by omega)] at hpre
    apply search_first h hj
    apply List.prefix_of_prefix_length_le hpre (List.prefix_append _ t)
    rw [List.length_drop]
    omega

theorem search_drop_of_none {pat s : List α} (h : search pat s = none) (n : Nat) :
    search pat (s.drop n) = none := by
  rw [search_eq_none_iff] at h ⊢
  exact fun hin => h (hin.trans (List.drop_suffix n s).isInfix)

/-- The first occurrence is the first one in the rest, too. -/
theorem search_drop_of_some {pat s : List α} {i n : Nat} (h : search pat s = some i) (hn : n ≤ i) :
    search pat (s.drop n) = some (i - n) := by
  have hspec := search_spec h
  apply search_eq_some
  · rw [List.drop_drop, Nat.add_sub_cancel' hn]
    exact hspec.2
  · rw [List.length_drop]
    exact Nat.sub_le_sub_right hspec.1 n
  · intro j hj
    rw [List.drop_drop]
    exact search_first h (by omega)

/-- A text that is cut before the end of the first occurrence has none. -/
theorem search_take_of_lt {pat s : List α} {i n : Nat} (h : search pat s = some i)
    (hn : n < i + pat.length) : search pat (s.take n) = none := by
  cases hs : search pat (s.take n) with
  | none => rfl
  | some j =>
      have hfit := search_fits hs
      have hwhole := search_append_of_some hs (s.drop n)
      rw [List.take_append_drop, h] at hwhole
      cases hwhole
      have hle := List.length_take_le n s
      omega

/-- The text up to an `x` is passed over when the pattern, which has no `x`, is not in it. -/
theorem search_skip {pat a : List α} {x : α} (hx : x ∉ pat) (ha : ¬ pat <:+: a) (s : List α) :
    search pat (a ++ x :: s) = (search pat s).map (a.length + 1 + ·) := by
  induction a with
  | nil =>
      have hno : ¬ pat <+: x :: s := by
        intro hpre
        cases pat with
        | nil => exact ha List.nil_infix
        | cons y pat =>
            have hy := (List.cons_prefix_cons.mp hpre).1
            exact hx (hy ▸ List.mem_cons_self)
      show search pat (x :: s) = _
      rw [search, if_neg hno]
      congr 1
      funext i
      exact Nat.add_comm i 1
  | cons c a ih =>
      have hno : ¬ pat <+: c :: (a ++ x :: s) := by
        intro hpre
        have hsides := hpre.isInfix
        rw [← List.cons_append] at hsides hpre
        have hle : pat.length ≤ (c :: a).length := by
          apply Nat.le_of_not_lt
          intro hlt
          apply hx
          have hget := List.IsPrefix.getElem hpre hlt
          have hmem : pat[(c :: a).length] ∈ pat := List.getElem_mem hlt
          rw [hget, List.getElem_append_right (Nat.le_refl _)] at hmem
          simpa using hmem
        exact ha (List.prefix_of_prefix_length_le hpre (List.prefix_append _ _) hle).isInfix
      rw [List.cons_append, search, if_neg hno, ih fun h => ha (h.trans (List.suffix_cons c a).isInfix),
        Option.map_map]
      congr 1
      funext i
      simp only [Function.comp_apply, List.length_cons]
      omega

/-! ## The last occurrence -/

theorem searchLast_spec {pat s : List α} {i : Nat} (h : searchLast pat s = some i) :
    i ≤ s.length ∧ pat <+: s.drop i := by
  induction s generalizing i with
  | nil =>
      simp only [searchLast, Option.ite_none_right_eq_some, Option.some.injEq] at h
      obtain ⟨rfl, rfl⟩ := h
      simp
  | cons c s ih =>
      cases hs : searchLast pat s with
      | some j =>
          have hrest := ih hs
          simp only [searchLast, hs, Option.some.injEq] at h
          subst h
          simpa using hrest
      | none =>
          simp only [searchLast, hs, Option.ite_none_right_eq_some, Option.some.injEq] at h
          obtain ⟨hpre, rfl⟩ := h
          exact ⟨Nat.zero_le _, hpre⟩

end CommonCc
