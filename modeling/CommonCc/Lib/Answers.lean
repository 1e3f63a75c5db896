import Mathlib.Tactic.Common

/-!
# What an object answers

The answers to a list of calls end with the first call that faults.  Two objects that answer each
call alike, and stay alike, cannot be told apart by any list of calls.
-/

namespace CommonCc

universe u v w x y

variable {σ : Type u} {τ : Type v} {α : Type w} {β : Type x} {ε : Type y}

def answers (step : σ → α → Except ε (β × σ)) : σ → List α → List (Except ε β)
  | _, [] => []
  | s, a :: as =>
      match step s a with
      | .error e => [.error e]
      | .ok (b, s') => .ok b :: answers step s' as

section Steps

variable {step : σ → α → Except ε (β × σ)} {s s' : σ} {a : α} {b : β} {e : ε}

theorem answers_ok (h : step s a = .ok (b, s')) (as : List α) :
    answers step s (a :: as) = .ok b :: answers step s' as := by
  rw [answers, h]

theorem answers_error (h : step s a = .error e) (as : List α) :
    answers step s (a :: as) = [.error e] := by
  rw [answers, h]

end Steps

/-- The same answer with states that are related, or the same fault. -/
inductive SameAnswer (R : σ → τ → Prop) : Except ε (β × σ) → Except ε (β × τ) → Prop
  | ok {b : β} {s : σ} {t : τ} (h : R s t) : SameAnswer R (.ok (b, s)) (.ok (b, t))
  | error (e : ε) : SameAnswer R (.error e) (.error e)

variable {R : σ → τ → Prop} {x : Except ε (β × σ)} {y : Except ε (β × τ)}

/-- What becomes of the answer does not depend on the state. -/
theorem SameAnswer.map {γ : Type*} (h : SameAnswer R x y) (f : β → γ) :
    SameAnswer R (x.map fun r => (f r.1, r.2)) (y.map fun r => (f r.1, r.2)) := by
  cases h with
  | ok h => exact .ok h
  | error e => exact .error e

theorem SameAnswer.mono {S : σ → τ → Prop} (h : SameAnswer R x y) (hsub : ∀ s t, R s t → S s t) :
    SameAnswer S x y := by
  cases h with
  | ok h => exact .ok (hsub _ _ h)
  | error e => exact .error e

/-- A first call that is answered alike is answered alike in the list. -/
theorem SameAnswer.answers_cons {step : σ → α → Except ε (β × σ)} {step' : τ → α → Except ε (β × τ)}
    {s : σ} {t : τ} {a : α} {as : List α} (h : SameAnswer R (step s a) (step' t a))
    (hrest : ∀ s' t', R s' t' → answers step s' as = answers step' t' as) :
    answers step s (a :: as) = answers step' t (a :: as) := by
  rw [answers, answers]
  generalize step s a = x at h ⊢
  generalize step' t a = y at h ⊢
  cases h with
  | ok h => exact congrArg _ (hrest _ _ h)
  | error e => rfl

/-- One call answered alike carries over to every list of allowed calls. -/
theorem answers_eq {step : σ → α → Except ε (β × σ)} {step' : τ → α → Except ε (β × τ)}
    {guard : α → Prop} (hstep : ∀ s t a, guard a → R s t → SameAnswer R (step s a) (step' t a))
    {s : σ} {t : τ} {as : List α} (h : R s t) (has : ∀ a ∈ as, guard a) :
    answers step s as = answers step' t as := by
  induction as generalizing s t with
  | nil => rfl
  | cons a as ih =>
      have hfirst := List.forall_mem_cons.mp has
      exact (hstep s t a hfirst.1 h).answers_cons fun s' t' h' => ih h' hfirst.2

end CommonCc
