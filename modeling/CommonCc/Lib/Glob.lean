import Mathlib.Data.List.Basic
import Mathlib.Tactic.Common

/-!
# Patterns with stars

A pattern is a list of tests for one element and of stars, which stand for any number of
elements.  A matcher for them tries the pattern behind a star on one suffix of its input after
the other.
-/

namespace CommonCc

/-! ## What a pattern stands for -/

inductive Glob (α : Type) where
  | one (test : α → Bool)
  | many

namespace Glob

variable {α : Type} {inner last : Nat} {g : List (Glob α)} {s : List α}

/-- The lists that a pattern stands for. -/
def Matches : List (Glob α) → List α → Prop
  | [], s => s = []
  | .one test :: g, s => ∃ c t, s = c :: t ∧ test c = true ∧ Matches g t
  | .many :: g, s => ∃ xs t, s = xs ++ t ∧ Matches g t

/-- Here a star at the end stands for at least `last` elements, and every other one for at
least `inner`. -/
def MatchesLong (inner last : Nat) : List (Glob α) → List α → Prop
  | [], s => s = []
  | .one test :: g, s => ∃ c t, s = c :: t ∧ test c = true ∧ MatchesLong inner last g t
  | .many :: g, s => ∃ xs t, s = xs ++ t ∧ (if g.isEmpty then last else inner) ≤ xs.length ∧
      MatchesLong inner last g t

theorem MatchesLong.matches (h : MatchesLong inner last g s) : Matches g s := by
  induction g generalizing s with
  | nil => exact h
  | cons x g ih =>
      cases x with
      | one test =>
          obtain ⟨c, t, hs, hc, ht⟩ := h
          exact ⟨c, t, hs, hc, ih ht⟩
      | many =>
          obtain ⟨xs, t, hs, _, ht⟩ := h
          exact ⟨xs, t, hs, ih ht⟩

theorem matchesLong_one (test : α → Bool) (c : α) :
    MatchesLong inner last (.one test :: g) (c :: s) ↔
      test c = true ∧ MatchesLong inner last g s := by
  constructor
  · rintro ⟨d, t, hs, hd, ht⟩
    cases hs
    exact ⟨hd, ht⟩
  · intro h
    exact ⟨c, s, rfl, h.1, h.2⟩

/-- When no star is empty, every part of the pattern takes an element. -/
theorem not_matchesLong_nil (hinner : 0 < inner) (hlast : 0 < last) (x : Glob α) :
    ¬ MatchesLong inner last (x :: g) [] := by
  intro h
  cases x with
  | one test =>
      obtain ⟨c, t, hs, _⟩ := h
      cases hs
  | many =>
      obtain ⟨xs, t, hs, hle, _⟩ := h
      have hxs := (List.append_eq_nil_iff.mp hs.symm).1
      rw [hxs, List.length_nil] at hle
      split at hle <;> omega

/-- What is behind a star that is not the last part matches a suffix with an element. -/
theorem matchesLong_many (hlast : 0 < last) (hg : g ≠ []) (c : α) :
    MatchesLong 1 last (.many :: g) (c :: s) ↔
      ∃ xs d t, s = xs ++ d :: t ∧ MatchesLong 1 last g (d :: t) := by
  cases g with
  | nil => exact absurd rfl hg
  | cons x g =>
      constructor
      · rintro ⟨xs, t, hs, hle, ht⟩
        cases xs with
        | nil => cases hle
        | cons y xs =>
            cases t with
            | nil => exact absurd ht (not_matchesLong_nil Nat.zero_lt_one hlast x)
            | cons d t => exact ⟨xs, d, t, (List.cons.inj hs).2, ht⟩
      · rintro ⟨xs, d, t, hs, ht⟩
        exact ⟨c :: xs, d :: t, by rw [hs]; rfl, Nat.succ_le_succ (Nat.zero_le _), ht⟩

theorem matchesLong_last : MatchesLong inner last [.many] s ↔ last ≤ s.length := by
  constructor
  · rintro ⟨xs, t, hs, hle, ht⟩
    cases ht
    rw [hs, List.append_nil]
    exact hle
  · intro h
    exact ⟨s, [], (List.append_nil s).symm, h, rfl⟩

end Glob

/-! ## The search over the suffixes -/

section Search

variable {α ε : Type} {f : List α → Except ε Bool} {s : List α}

/-- Whether `f` accepts a suffix that is not empty, from the longest one on. -/
def trySuffixes (f : List α → Except ε Bool) : List α → Except ε Bool
  | [] => .ok false
  | c :: s => f (c :: s) >>= fun b => if b then .ok true else trySuffixes f s

theorem trySuffixes_true (c : α) (h : f (c :: s) = .ok true) :
    trySuffixes f (c :: s) = .ok true := by
  rw [trySuffixes, h]
  rfl

theorem trySuffixes_false (c : α) (h : f (c :: s) = .ok false) :
    trySuffixes f (c :: s) = trySuffixes f s := by
  rw [trySuffixes, h]
  rfl

theorem trySuffixes_error (c : α) {e : ε} (h : f (c :: s) = .error e) :
    trySuffixes f (c :: s) = .error e := by
  rw [trySuffixes, h]
  rfl

/-- The result of a test that faults where `stuck`, and says whether `good` elsewhere. -/
structure Decides (e : ε) (stuck good : Prop) (r : Except ε Bool) : Prop where
  faults : stuck → r = .error e
  ends : ¬ stuck → ∃ b, r = .ok b ∧ (b = true ↔ good)

theorem decides_ok {e : ε} {stuck good : Prop} {b : Bool} (hstuck : ¬ stuck)
    (hgood : b = true ↔ good) : Decides e stuck good (.ok b) where
  faults := fun h => absurd h hstuck
  ends := fun _ => ⟨b, rfl, hgood⟩

theorem Decides.congr {e : ε} {stuck stuck' good good' : Prop} {r : Except ε Bool}
    (h : Decides e stuck good r) (hstuck : stuck' ↔ stuck) (hgood : good' ↔ good) :
    Decides e stuck' good' r where
  faults := fun hs => h.faults (hstuck.mp hs)
  ends := by
    rw [hstuck, hgood]
    exact h.ends

/-- From the longest suffix on, one that is stuck comes before one that is good. -/
def StuckFirst (stuck good : List α → Prop) : List α → Prop
  | [] => False
  | c :: s => stuck (c :: s) ∨ (¬ good (c :: s) ∧ StuckFirst stuck good s)

theorem not_stuckFirst {stuck good : List α → Prop} (h : ∀ s, ¬ stuck s) (s : List α) :
    ¬ StuckFirst stuck good s := by
  induction s with
  | nil => exact fun hs => hs
  | cons c s ih =>
      rintro (hs | hs)
      · exact h _ hs
      · exact ih hs.2

theorem exists_suffix_cons {good : List α → Prop} {c : α} (h : ¬ good (c :: s)) :
    (∃ xs d t, c :: s = xs ++ d :: t ∧ good (d :: t)) ↔
      ∃ xs d t, s = xs ++ d :: t ∧ good (d :: t) := by
  constructor
  · rintro ⟨xs, d, t, hs, hgood⟩
    cases xs with
    | nil =>
        rw [List.nil_append] at hs
        rw [← hs] at hgood
        exact absurd hgood h
    | cons x xs => exact ⟨xs, d, t, (List.cons.inj hs).2, hgood⟩
  · rintro ⟨xs, d, t, hs, hgood⟩
    exact ⟨c :: xs, d, t, by rw [hs]; rfl, hgood⟩

/-- The search decides whether some suffix is good. -/
theorem trySuffixes_decides {e : ε} {stuck good : List α → Prop}
    (hf : ∀ c s, Decides e (stuck (c :: s)) (good (c :: s)) (f (c :: s))) (s : List α) :
    Decides e (StuckFirst stuck good s) (∃ xs c t, s = xs ++ c :: t ∧ good (c :: t))
      (trySuffixes f s) := by
  induction s with
  | nil =>
      apply decides_ok (fun h => h)
      constructor
      · intro h
        cases h
      · rintro ⟨xs, c, t, hs, _⟩
        cases xs <;> cases hs
  | cons c s ih =>
      by_cases hstuck : stuck (c :: s)
      · constructor
        · intro _
          exact trySuffixes_error c ((hf c s).faults hstuck)
        · intro h
          exact absurd (.inl hstuck) h
      · obtain ⟨b, hb, hiff⟩ := (hf c s).ends hstuck
        cases b with
        | true =>
            have hgood : good (c :: s) := hiff.mp rfl
            rw [trySuffixes_true c hb]
            apply decides_ok
            · rintro (h | h)
              · exact hstuck h
              · exact h.1 hgood
            · exact iff_of_true rfl ⟨[], c, s, rfl, hgood⟩
        | false =>
            have hbad : ¬ good (c :: s) := fun h => Bool.false_ne_true (hiff.mpr h)
            rw [trySuffixes_false c hb]
            apply ih.congr
            · constructor
              · rintro (h | h)
                · exact absurd h hstuck
                · exact h.2
              · intro h
                exact .inr ⟨hbad, h⟩
            · exact exists_suffix_cons hbad

end Search

end CommonCc
