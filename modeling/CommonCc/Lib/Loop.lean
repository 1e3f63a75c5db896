import Mathlib.Data.Sum.Basic
import Mathlib.Tactic.Common

/-!
# Loops

A round of a loop faults, leaves the loop with a result or goes on with another state.  A
computation with loops is observed by the number of rounds that each of them may take; it
has no result while that number is too small.
-/

namespace CommonCc

variable {σ ε α : Type}

/-- A computation, by the number of rounds that its loops may take. -/
abbrev Rounds (ε α : Type) : Type := Nat → Option (Except ε α)

/-- The computation comes to the result `r`. -/
def Yields (f : Rounds ε α) (r : Except ε α) : Prop := ∃ n, f n = some r

/-- The computation comes to an end. -/
def Ends (f : Rounds ε α) : Prop := ∃ r, Yields f r

/-- The loop with the given round, from a state on. -/
def loop (round : σ → Except ε (σ ⊕ α)) (s : σ) : Rounds ε α
  | 0 => none
  | n + 1 =>
      match round s with
      | .error e => some (.error e)
      | .ok (.inr a) => some (.ok a)
      | .ok (.inl s') => loop round s' n

/-- The loop comes from one state to another. -/
inductive LoopReaches (round : σ → Except ε (σ ⊕ α)) : σ → σ → Prop
  | here (s : σ) : LoopReaches round s s
  | next {s s' t : σ} (h : round s = .ok (.inl s')) (hrest : LoopReaches round s' t) :
      LoopReaches round s t

section

variable {round : σ → Except ε (σ ⊕ α)} {s s' t : σ} {r r' : Except ε α}

/-! ## One round -/

theorem loop_next (h : round s = .ok (.inl s')) (n : Nat) :
    loop round s (n + 1) = loop round s' n := by
  rw [loop, h]

theorem loop_leave {a : α} (h : round s = .ok (.inr a)) (n : Nat) :
    loop round s (n + 1) = some (.ok a) := by
  rw [loop, h]

theorem loop_fault {e : ε} (h : round s = .error e) (n : Nat) :
    loop round s (n + 1) = some (.error e) := by
  rw [loop, h]

theorem yields_next (h : round s = .ok (.inl s')) :
    Yields (loop round s) r ↔ Yields (loop round s') r := by
  constructor
  · rintro ⟨n, hn⟩
    cases n with
    | zero => cases hn
    | succ n =>
        rw [loop_next h] at hn
        exact ⟨n, hn⟩
  · rintro ⟨n, hn⟩
    exact ⟨n + 1, (loop_next h n).trans hn⟩

theorem yields_leave {a : α} (h : round s = .ok (.inr a)) : Yields (loop round s) (.ok a) :=
  ⟨1, loop_leave h 0⟩

theorem yields_fault {e : ε} (h : round s = .error e) : Yields (loop round s) (.error e) :=
  ⟨1, loop_fault h 0⟩

/-! ## Results -/

/-- More rounds change nothing. -/
theorem loop_mono {n m : Nat} (h : loop round s n = some r) (hle : n ≤ m) :
    loop round s m = some r := by
  induction n generalizing s m with
  | zero => cases h
  | succ n ih =>
      cases m with
      | zero => cases hle
      | succ m =>
          cases hs : round s with
          | error e =>
              rw [loop_fault hs] at h ⊢
              exact h
          | ok out =>
              cases out with
              | inr a =>
                  rw [loop_leave hs] at h ⊢
                  exact h
              | inl s' =>
                  rw [loop_next hs] at h ⊢
                  exact ih h (Nat.le_of_succ_le_succ hle)

/-! ## Termination -/

theorem ends_next (h : round s = .ok (.inl s')) : Ends (loop round s) ↔ Ends (loop round s') :=
  exists_congr fun _ => yields_next h

theorem LoopReaches.ends (h : LoopReaches round s t) (hs : Ends (loop round s)) :
    Ends (loop round t) := by
  induction h with
  | here s => exact hs
  | next h _ ih => exact ih ((ends_next h).mp hs)

/-- A state from which the loop goes on to states of the same kind only. -/
theorem not_ends_of_stuck (Stuck : σ → Prop)
    (hstuck : ∀ s, Stuck s → ∃ s', round s = .ok (.inl s') ∧ Stuck s') (h : Stuck s) :
    ¬ Ends (loop round s) := by
  rintro ⟨r, n, hn⟩
  induction n generalizing s with
  | zero => cases hn
  | succ n ih =>
      obtain ⟨s', hs, hs'⟩ := hstuck s h
      rw [loop_next hs] at hn
      exact ih hs' hn

/-- When a measure gets smaller outside the stuck states, the loop ends unless it comes to one
of them. -/
theorem ends_iff_never_stuck (Stuck : σ → Prop) (μ : σ → Nat)
    (hstuck : ∀ s, Stuck s → ∃ s', round s = .ok (.inl s') ∧ Stuck s')
    (hless : ∀ s s', ¬ Stuck s → round s = .ok (.inl s') → μ s' < μ s) (s : σ) :
    Ends (loop round s) ↔ ∀ t, LoopReaches round s t → ¬ Stuck t := by
  constructor
  · intro hends t ht hbad
    exact not_ends_of_stuck Stuck hstuck hbad (ht.ends hends)
  · intro h
    induction hn : μ s using Nat.strongRecOn generalizing s with
    | ind n ih =>
        cases hs : round s with
        | error e => exact ⟨_, yields_fault hs⟩
        | ok out =>
            cases out with
            | inr a => exact ⟨_, yields_leave hs⟩
            | inl s' =>
                have hlt := hless s s' (h s (.here s)) hs
                rw [ends_next hs]
                exact ih (μ s') (hn ▸ hlt) s' (fun t ht => h t (.next hs ht)) rfl

end

/-! ## One computation after another -/

section

variable {β : Type} {f : Rounds ε α} {g : α → Rounds ε β}

/-- A result stays when more rounds may be taken. -/
def Settles (f : Rounds ε α) : Prop :=
  ∀ n m r, f n = some r → n ≤ m → f m = some r

/-- The computation without a loop. -/
def now (a : α) : Rounds ε α := fun _ => some (.ok a)

/-- `g` with the result of `f`. -/
def andThen (f : Rounds ε α) (g : α → Rounds ε β) : Rounds ε β := fun n =>
  match f n with
  | none => none
  | some (.error e) => some (.error e)
  | some (.ok a) => g a n

theorem settles_loop (round : σ → Except ε (σ ⊕ α)) (s : σ) : Settles (loop round s) :=
  fun _ _ _ h hle => loop_mono h hle

theorem settles_now (a : α) : Settles (now a : Rounds ε α) := fun _ _ _ h _ => h

theorem settles_andThen (hf : Settles f) (hg : ∀ a, Settles (g a)) : Settles (andThen f g) := by
  intro n m r h hle
  unfold andThen at h ⊢
  cases hn : f n with
  | none =>
      rw [hn] at h
      cases h
  | some out =>
      rw [hf n m out hn hle]
      rw [hn] at h
      cases out with
      | error e => exact h
      | ok a => exact hg a n m r h hle

theorem Settles.unique (hf : Settles f) {r r' : Except ε α} (h : Yields f r) (h' : Yields f r') :
    r = r' := by
  obtain ⟨n, hn⟩ := h
  obtain ⟨m, hm⟩ := h'
  have hboth := hf n (max n m) r hn (Nat.le_max_left n m)
  rw [hf m (max n m) r' hm (Nat.le_max_right n m)] at hboth
  exact (Option.some.inj hboth).symm

theorem yields_now (a : α) : Yields (now a : Rounds ε α) (.ok a) := ⟨0, rfl⟩

theorem Ends.of_andThen (h : Ends (andThen f g)) : Ends f := by
  obtain ⟨r, n, hn⟩ := h
  unfold andThen at hn
  cases hf : f n with
  | none =>
      rw [hf] at hn
      cases hn
  | some out => exact ⟨out, n, hf⟩

theorem yields_andThen {a : α} (hf : Settles f) (hg : ∀ a, Settles (g a)) (h : Yields f (.ok a))
    (r : Except ε β) : Yields (andThen f g) r ↔ Yields (g a) r := by
  obtain ⟨k, hk⟩ := h
  constructor
  · rintro ⟨n, hn⟩
    -- with enough rounds for both the first one has come to `a`
    have hboth := settles_andThen hf hg n (max n k) r hn (Nat.le_max_left n k)
    rw [andThen, hf k (max n k) _ hk (Nat.le_max_right n k)] at hboth
    exact ⟨max n k, hboth⟩
  · rintro ⟨n, hn⟩
    use max n k
    rw [andThen, hf k (max n k) _ hk (Nat.le_max_right n k)]
    exact hg a n (max n k) r hn (Nat.le_max_left n k)

theorem yields_andThen_fault {e : ε} (h : Yields f (.error e)) :
    Yields (andThen f g) (.error e) := by
  obtain ⟨n, hn⟩ := h
  use n
  rw [andThen, hn]

theorem ends_andThen {a : α} (hf : Settles f) (hg : ∀ a, Settles (g a)) (h : Yields f (.ok a)) :
    Ends (andThen f g) ↔ Ends (g a) :=
  exists_congr fun r => yields_andThen hf hg h r

variable {round : σ → Except ε (σ ⊕ α)} {s : σ} {r r' : Except ε α}

theorem Yields.unique (h : Yields (loop round s) r) (h' : Yields (loop round s) r') : r = r' :=
  (settles_loop round s).unique h h'

/-- When a loop has one result, it has another one only if they are the same. -/
theorem Yields.iff_eq (h : Yields (loop round s) r) : Yields (loop round s) r' ↔ r = r' := by
  constructor
  · exact h.unique
  · intro hr
    rwa [← hr]

end

end CommonCc
