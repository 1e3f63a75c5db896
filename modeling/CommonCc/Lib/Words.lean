import Mathlib.Data.List.Chain
import Mathlib.Data.List.Infix
import Mathlib.Data.List.TakeWhile
import Mathlib.Tactic.Common

/-!
# Words

`wordsBy p` is the list of the longest runs of elements without `p`.
-/

namespace CommonCc

variable {α : Type} {p : α → Bool} {x : α} {s t : List α}

def wordsBy (p : α → Bool) (s : List α) : List (List α) := (s.splitOnP p).filter (· ≠ [])

/-- A word has an element, and none with `p`. -/
def IsWord (p : α → Bool) (w : List α) : Prop := w ≠ [] ∧ ∀ x ∈ w, p x = false

/-! ## Between two words -/

theorem wordsBy_append_cons (hx : p x = true) (s t : List α) :
    wordsBy p (s ++ x :: t) = wordsBy p s ++ wordsBy p t := by
  rw [wordsBy, List.splitOnP_append_cons s t hx, List.filter_append]
  rfl

theorem wordsBy_nil (p : α → Bool) : wordsBy p [] = [] := by
  simp [wordsBy]

theorem wordsBy_cons (hx : p x = true) (s : List α) : wordsBy p (x :: s) = wordsBy p s := by
  have h := wordsBy_append_cons hx [] s
  rwa [wordsBy_nil, List.nil_append, List.nil_append] at h

theorem wordsBy_of_isWord (h : IsWord p s) : wordsBy p s = [s] := by
  rw [wordsBy, List.splitOnP_eq_singleton h.2, List.filter_singleton]
  simp [h.1]

/-- From the text behind a word and its separator to the whole text. -/
theorem wordsBy_induction {motive : List α → Prop} (hnil : motive []) (hword : ∀ w, IsWord p w → motive w)
    (hsep : ∀ x s, p x = true → motive s → motive (x :: s))
    (hcons : ∀ w x s, IsWord p w → p x = true → motive s → motive (w ++ x :: s)) (s : List α) :
    motive s := by
  induction hn : s.length using Nat.strongRecOn generalizing s with
  | ind n ih =>
      cases s with
      | nil => exact hnil
      | cons y s =>
          by_cases hy : p y = true
          · exact hsep y s hy (ih s.length (by rw [← hn, List.length_cons]; omega) s rfl)
          · have hsplit := List.takeWhile_append_dropWhile (p := fun x => !p x) (l := y :: s)
            have hfirst : IsWord p ((y :: s).takeWhile fun x => !p x) := by
              constructor
              · rw [List.takeWhile_cons_of_pos (by simpa using hy)]
                exact List.cons_ne_nil _ _
              · intro x hx
                simpa using List.mem_takeWhile_imp hx
            cases hrest : (y :: s).dropWhile fun x => !p x with
            | nil =>
                rw [hrest, List.append_nil] at hsplit
                rw [← hsplit]
                exact hword _ hfirst
            | cons x t =>
                have hx := List.head?_dropWhile_not (fun x => !p x) (y :: s)
                rw [hrest] at hx hsplit
                have hlen := congrArg List.length hsplit
                rw [List.length_append, List.length_cons] at hlen
                rw [← hsplit]
                exact hcons _ x t hfirst (by simpa using hx) (ih t.length (by omega) t rfl)

theorem isWord_of_mem_wordsBy {w : List α} (h : w ∈ wordsBy p s) : IsWord p w := by
  induction s using wordsBy_induction (p := p) with
  | hnil =>
      rw [wordsBy_nil] at h
      cases h
  | hword v hv =>
      rw [wordsBy_of_isWord hv] at h
      rw [List.mem_singleton.mp h]
      exact hv
  | hsep x s hx ih =>
      rw [wordsBy_cons hx] at h
      exact ih h
  | hcons v x s hv hx ih =>
      rw [wordsBy_append_cons hx, wordsBy_of_isWord hv] at h
      cases List.mem_append.mp h with
      | inl hv' =>
          rw [List.mem_singleton.mp hv']
          exact hv
      | inr hs => exact ih hs

theorem mem_of_mem_wordsBy {w : List α} (h : w ∈ wordsBy p s) (hx : x ∈ w) : x ∈ s := by
  induction s using wordsBy_induction (p := p) with
  | hnil =>
      rw [wordsBy_nil] at h
      cases h
  | hword v hv =>
      rw [wordsBy_of_isWord hv] at h
      rwa [← List.mem_singleton.mp h]
  | hsep y s hy ih =>
      rw [wordsBy_cons hy] at h
      exact List.mem_cons_of_mem y (ih h)
  | hcons v y s hv hy ih =>
      rw [wordsBy_append_cons hy, wordsBy_of_isWord hv] at h
      cases List.mem_append.mp h with
      | inl hv' =>
          rw [List.mem_singleton.mp hv'] at hx
          exact List.mem_append_left _ hx
      | inr hs => exact List.mem_append_right _ (List.mem_cons_of_mem y (ih hs))

/-! ## Words with one separator between them -/

section

variable {sep : α} {ws : List (List α)}

theorem intercalate_cons {w : List α} (h : ws ≠ []) :
    [sep].intercalate (w :: ws) = w ++ sep :: [sep].intercalate ws := by
  rw [List.intercalate_cons_of_ne_nil h, List.append_assoc, List.singleton_append]

theorem wordsBy_intercalate (hsep : p sep = true) (h : ∀ w ∈ ws, IsWord p w) :
    wordsBy p ([sep].intercalate ws) = ws := by
  induction ws with
  | nil => exact wordsBy_nil p
  | cons w ws ih =>
      have hw := List.forall_mem_cons.mp h
      by_cases hws : ws = []
      · rw [hws, List.intercalate_singleton, wordsBy_of_isWord hw.1]
      · rw [intercalate_cons hws, wordsBy_append_cons hsep, wordsBy_of_isWord hw.1, ih hw.2]
        rfl

theorem mem_intercalate (hx : x ∈ [sep].intercalate ws) : x = sep ∨ ∃ w ∈ ws, x ∈ w := by
  induction ws with
  | nil => cases hx
  | cons w ws ih =>
      by_cases hws : ws = []
      · rw [hws, List.intercalate_singleton] at hx
        exact .inr ⟨w, List.mem_cons_self, hx⟩
      · rw [intercalate_cons hws, List.mem_append, List.mem_cons] at hx
        rcases hx with hw | hsep | hrest
        · exact .inr ⟨w, List.mem_cons_self, hw⟩
        · exact .inl hsep
        · rcases ih hrest with hsep | ⟨v, hv, hxv⟩
          · exact .inl hsep
          · exact .inr ⟨v, List.mem_cons_of_mem w hv, hxv⟩

/-- The first element belongs to a word. -/
theorem subset_intercalate {w : List α} (h : w ∈ ws) : w ⊆ [sep].intercalate ws := by
  induction ws with
  | nil => cases h
  | cons v ws ih =>
      intro x hx
      by_cases hws : ws = []
      · rw [hws] at h
        rw [hws, List.intercalate_singleton, ← List.mem_singleton.mp h]
        exact hx
      · rw [intercalate_cons hws]
        cases List.mem_cons.mp h with
        | inl heq => exact List.mem_append_left _ (heq ▸ hx)
        | inr hmem => exact List.mem_append_right _ (List.mem_cons_of_mem _ (ih hmem hx))

theorem head?_intercalate (h : ∀ w ∈ ws, IsWord p w) (hx : x ∈ ([sep].intercalate ws).head?) :
    p x = false := by
  cases ws with
  | nil => cases hx
  | cons w ws =>
      have hw := h w List.mem_cons_self
      obtain ⟨y, w, rfl⟩ := List.exists_cons_of_ne_nil hw.1
      have hy := hw.2 y List.mem_cons_self
      by_cases hws : ws = []
      · rw [hws, List.intercalate_singleton] at hx
        cases hx
        exact hy
      · rw [intercalate_cons hws] at hx
        cases hx
        exact hy

theorem getLast?_intercalate (h : ∀ w ∈ ws, IsWord p w)
    (hx : x ∈ ([sep].intercalate ws).getLast?) : p x = false := by
  induction ws with
  | nil => cases hx
  | cons w ws ih =>
      have hw := List.forall_mem_cons.mp h
      by_cases hws : ws = []
      · rw [hws, List.intercalate_singleton] at hx
        exact hw.1.2 x (List.mem_of_getLast? hx)
      · have hne : [sep].intercalate ws ≠ [] := by
          obtain ⟨v, vs, rfl⟩ := List.exists_cons_of_ne_nil hws
          obtain ⟨y, v, rfl⟩ := List.exists_cons_of_ne_nil (hw.2 v List.mem_cons_self).1
          by_cases hvs : vs = []
          · rw [hvs, List.intercalate_singleton]
            exact List.cons_ne_nil _ _
          · rw [intercalate_cons hvs]
            exact List.cons_ne_nil _ _
        rw [intercalate_cons hws, List.getLast?_append, List.getLast?_cons_of_ne_nil hne] at hx
        apply ih hw.2
        cases hlast : ([sep].intercalate ws).getLast? with
        | none => exact absurd (List.getLast?_eq_none_iff.mp hlast) hne
        | some y =>
            rw [hlast] at hx
            exact hx

/-- Two separators do not stand side by side. -/
theorem isChain_intercalate (h : ∀ w ∈ ws, IsWord p w) :
    ([sep].intercalate ws).IsChain fun x y => ¬ (p x = true ∧ p y = true) := by
  induction ws with
  | nil => exact List.IsChain.nil
  | cons w ws ih =>
      have hw := List.forall_mem_cons.mp h
      have hchain : w.IsChain fun x y => ¬ (p x = true ∧ p y = true) := by
        apply List.Pairwise.isChain
        apply List.pairwise_of_forall_mem_list
        intro x hx y _ hboth
        rw [hw.1.2 x hx] at hboth
        cases hboth.1
      by_cases hws : ws = []
      · rw [hws, List.intercalate_singleton]
        exact hchain
      · rw [intercalate_cons hws]
        apply List.isChain_append.mpr
        refine ⟨hchain, List.isChain_cons.mpr ⟨?_, ih hw.2⟩, ?_⟩
        · intro y hy hboth
          rw [head?_intercalate hw.2 hy] at hboth
          cases hboth.2
        · intro x hx y _ hboth
          rw [hw.1.2 x (List.mem_of_getLast? hx)] at hboth
          cases hboth.1

end

end CommonCc
