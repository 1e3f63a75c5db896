import Mathlib.Data.List.Induction
import Mathlib.Tactic.Common

/-!
# Reading a list item by item

The last item is read by a function of its own.
-/

namespace CommonCc

universe u v w

variable {ε : Type u} {α : Type v} {β : Type w} {f last : α → Except ε β}

def traverseLast (f last : α → Except ε β) : List α → Except ε (List β)
  | [] => .ok []
  | [a] => (last a).map fun b => [b]
  | a :: a' :: as => (f a).bind fun b => (traverseLast f last (a' :: as)).map fun bs => b :: bs

theorem traverseLast_cons (a : α) {as : List α} (h : as ≠ []) :
    traverseLast f last (a :: as) =
      (f a).bind fun b => (traverseLast f last as).map fun bs => b :: bs := by
  cases as with
  | nil => exact absurd rfl h
  | cons a' as => rfl

/-- Every item is read when all of them can be read. -/
theorem traverseLast_ok_iff {as : List α} :
    (∃ bs, traverseLast f last as = .ok bs) ↔
      (∀ a ∈ as.dropLast, ∃ b, f a = .ok b) ∧ ∀ a ∈ as.getLast?, ∃ b, last a = .ok b := by
  induction as with
  | nil => exact ⟨fun _ => ⟨fun a h => (nomatch h), fun a h => (nomatch h)⟩, fun _ => ⟨[], rfl⟩⟩
  | cons a as ih =>
      by_cases has : as = []
      · subst has
        rw [traverseLast, List.getLast?_singleton]
        constructor
        · intro h
          refine ⟨fun a h => (nomatch h), fun a' ha' => ?_⟩
          cases ha'
          rcases h with ⟨bs, hbs⟩
          cases hlast : last a with
          | error e =>
              rw [hlast] at hbs
              cases hbs
          | ok b => exact ⟨b, rfl⟩
        · intro h
          rcases h.2 a rfl with ⟨b, hb⟩
          exact ⟨[b], by rw [hb]; rfl⟩
      · rw [traverseLast_cons a has, List.dropLast_cons_of_ne_nil has, List.forall_mem_cons,
          List.getLast?_cons_of_ne_nil has, and_assoc, ← ih]
        constructor
        · intro h
          rcases h with ⟨bs, hbs⟩
          cases ha : f a with
          | error e =>
              rw [ha] at hbs
              cases hbs
          | ok b =>
              refine ⟨⟨b, rfl⟩, ?_⟩
              cases hrest : traverseLast f last as with
              | error e =>
                  rw [ha, hrest] at hbs
                  cases hbs
              | ok bs => exact ⟨bs, rfl⟩
        · intro h
          rcases h with ⟨⟨b, hb⟩, bs, hbs⟩
          exact ⟨b :: bs, by rw [hb, hbs]; rfl⟩

theorem traverseLast_congr {last' : α → Except ε β} {as : List α}
    (h : ∀ a ∈ as, last a = last' a) : traverseLast f last as = traverseLast f last' as := by
  induction as with
  | nil => rfl
  | cons a as ih =>
      have hfirst := List.forall_mem_cons.mp h
      by_cases has : as = []
      · subst has
        rw [traverseLast, traverseLast, hfirst.1]
      · rw [traverseLast_cons a has, traverseLast_cons a has, ih hfirst.2]

theorem traverseLast_map {γ : Type*} (t : γ → α) (cs : List γ) :
    traverseLast f last (cs.map t) = traverseLast (f ∘ t) (last ∘ t) cs := by
  induction cs with
  | nil => rfl
  | cons c cs ih =>
      by_cases hcs : cs = []
      · subst hcs
        rfl
      · rw [List.map_cons, traverseLast_cons _ (by simpa using hcs), traverseLast_cons c hcs, ih]
        rfl

/-- What is read, when every item is read as `g` says. -/
theorem traverseLast_eq {g : α → β} {as : List α} (h : ∀ a ∈ as, f a = .ok (g a)) :
    traverseLast f f as = .ok (as.map g) := by
  induction as with
  | nil => rfl
  | cons a as ih =>
      have hfirst := List.forall_mem_cons.mp h
      by_cases has : as = []
      · subst has
        rw [traverseLast, hfirst.1]
        rfl
      · rw [traverseLast_cons a has, hfirst.1, ih hfirst.2]
        rfl

theorem forall_dropLast_and_getLast? {as : List α} {P : α → Prop} :
    ((∀ a ∈ as.dropLast, P a) ∧ ∀ a ∈ as.getLast?, P a) ↔ ∀ a ∈ as, P a := by
  constructor
  · intro h a ha
    cases as using List.reverseRecOn with
    | nil => cases ha
    | append_singleton as a' =>
        rw [List.dropLast_concat, List.getLast?_concat] at h
        cases List.mem_append.mp ha with
        | inl hmem => exact h.1 a hmem
        | inr hlast =>
            rw [List.mem_singleton.mp hlast]
            exact h.2 a' rfl
  · intro h
    exact ⟨fun a ha => h a (List.dropLast_subset _ ha), fun a ha => h a (List.mem_of_getLast? ha)⟩

theorem traverseLast_self_ok_iff {as : List α} :
    (∃ bs, traverseLast f f as = .ok bs) ↔ ∀ a ∈ as, ∃ b, f a = .ok b := by
  rw [traverseLast_ok_iff, forall_dropLast_and_getLast?]

end CommonCc
