import Mathlib.Data.List.Basic
import Mathlib.Tactic.Common

/-!
# Runs of a component

Two views of a component that takes one step after another: an object that
answers calls, and a labelled transition system whose steps may be disabled.
Both come with the rule that carries a one-step fact over a whole run.
-/

namespace CommonCc

universe u v w x y

theorem ok_of_toOption {ε : Type y} {α : Type w} {x : Except ε α} {a : α}
    (h : x.toOption = some a) : x = .ok a := by
  cases x with
  | error e => simp [Except.toOption] at h
  | ok b => exact congrArg Except.ok (Option.some.inj h)

theorem except_ok_bind {ε α β : Type u} (x : α) (f : α → Except ε β) :
    (Except.ok x >>= f) = f x := rfl

/-! ## Objects that answer calls -/

section Calls

variable {σ : Type u} {τ : Type v} {α : Type w} {β : Type x} {ε : Type y}

/-- Run a list of calls and collect the answers. -/
def runCalls (step : σ → α → Except ε (β × σ)) : σ → List α → Except ε (List β × σ)
  | s, [] => .ok ([], s)
  | s, a :: as =>
      match step s a with
      | .error e => .error e
      | .ok (b, s₁) =>
          match runCalls step s₁ as with
          | .error e => .error e
          | .ok (bs, s₂) => .ok (b :: bs, s₂)

/-- Run a list of calls of a specification, which always answers. -/
def runSpec (spec : τ → α → β × τ) : τ → List α → List β × τ
  | t, [] => ([], t)
  | t, a :: as =>
      let first := spec t a
      let rest := runSpec spec first.2 as
      (first.1 :: rest.1, rest.2)

@[simp] theorem runSpec_nil (spec : τ → α → β × τ) (t : τ) : runSpec spec t [] = ([], t) := rfl

theorem runSpec_length (spec : τ → α → β × τ) (t : τ) (calls : List α) :
    (runSpec spec t calls).1.length = calls.length := by
  induction calls generalizing t with
  | nil => rfl
  | cons a as ih => simp [runSpec, ih]

/-- What every call keeps, of the state and of what was asked and answered so far, holds at
the end of every run. -/
theorem runSpec_history {spec : τ → α → β × τ} {I : τ → List (α × β) → Prop}
    (hstep : ∀ t h a, I t h → I (spec t a).2 (h ++ [(a, (spec t a).1)]))
    {t : τ} {h : List (α × β)} (h₀ : I t h) (calls : List α) :
    I (runSpec spec t calls).2 (h ++ calls.zip (runSpec spec t calls).1) := by
  induction calls generalizing t h with
  | nil => simpa using h₀
  | cons a as ih => simpa [runSpec] using ih (hstep t h a h₀)

/-- One call of the object answers as the specification does and restores `R`. -/
def Simulates (step : σ → α → Except ε (β × σ)) (spec : τ → α → β × τ)
    (R : σ → τ → Prop) (guard : α → Prop) : Prop :=
  ∀ s t a, R s t → guard a → ∃ s', step s a = .ok ((spec t a).1, s') ∧ R s' (spec t a).2

/-- A one-call simulation carries over to every run of allowed calls. -/
theorem Simulates.run {step : σ → α → Except ε (β × σ)} {spec : τ → α → β × τ}
    {R : σ → τ → Prop} {guard : α → Prop} (h : Simulates step spec R guard)
    {s : σ} {t : τ} (hR : R s t) {calls : List α} (hg : ∀ a ∈ calls, guard a) :
    ∃ s', runCalls step s calls = .ok ((runSpec spec t calls).1, s') ∧
      R s' (runSpec spec t calls).2 := by
  induction calls generalizing s t with
  | nil => exact ⟨s, rfl, hR⟩
  | cons a as ih =>
      obtain ⟨s₁, hs, hR₁⟩ := h s t a hR (hg a List.mem_cons_self)
      obtain ⟨s₂, hrun, hR₂⟩ := ih hR₁ fun x hx => hg x (List.mem_cons_of_mem a hx)
      refine ⟨s₂, ?_, hR₂⟩
      simp [runCalls, hs, hrun, runSpec]

/-- Every call of the run is allowed in the state that the specification has come to. -/
def Permitted (spec : τ → α → β × τ) (guard : τ → α → Prop) : τ → List α → Prop
  | _, [] => True
  | t, a :: as => guard t a ∧ Permitted spec guard (spec t a).2 as

/-- A simulation of the calls that the specification allows carries over to their runs. -/
theorem runCalls_of_permitted {step : σ → α → Except ε (β × σ)} {spec : τ → α → β × τ}
    {R : σ → τ → Prop} {guard : τ → α → Prop}
    (hstep : ∀ s t a, R s t → guard t a →
      ∃ s', step s a = .ok ((spec t a).1, s') ∧ R s' (spec t a).2)
    {s : σ} {t : τ} (hR : R s t) {calls : List α} (hcalls : Permitted spec guard t calls) :
    ∃ s', runCalls step s calls = .ok ((runSpec spec t calls).1, s') ∧
      R s' (runSpec spec t calls).2 := by
  induction calls generalizing s t with
  | nil => exact ⟨s, rfl, hR⟩
  | cons a as ih =>
      obtain ⟨s₁, hs, hR₁⟩ := hstep s t a hR hcalls.1
      obtain ⟨s₂, hrun, hR₂⟩ := ih hR₁ hcalls.2
      refine ⟨s₂, ?_, hR₂⟩
      simp [runCalls, hs, hrun, runSpec]

/-- When every call succeeds and keeps `I`, so does every run. -/
theorem runCalls_invariant {step : σ → α → Except ε (β × σ)} {I : σ → Prop}
    (hstep : ∀ s a, I s → ∃ b s', step s a = .ok (b, s') ∧ I s') {s : σ} (h : I s)
    (calls : List α) : ∃ bs s', runCalls step s calls = .ok (bs, s') ∧ I s' := by
  induction calls generalizing s with
  | nil => exact ⟨[], s, rfl, h⟩
  | cons a as ih =>
      obtain ⟨b, s₁, hs, h₁⟩ := hstep s a h
      obtain ⟨bs, s₂, hrun, h₂⟩ := ih h₁
      refine ⟨b :: bs, s₂, ?_, h₂⟩
      simp [runCalls, hs, hrun]

/-- When every allowed call succeeds and keeps `I` of the state and of the calls so far, so
does every run of allowed calls. -/
theorem runCalls_history {step : σ → α → Except ε (β × σ)} {I : σ → List α → Prop}
    {guard : α → Prop}
    (hstep : ∀ s done a, I s done → guard a →
      ∃ b s', step s a = .ok (b, s') ∧ I s' (done ++ [a]))
    {s : σ} {done : List α} (h : I s done) {calls : List α} (hg : ∀ a ∈ calls, guard a) :
    ∃ bs s', runCalls step s calls = .ok (bs, s') ∧ I s' (done ++ calls) := by
  induction calls generalizing s done with
  | nil => exact ⟨[], s, rfl, by rwa [List.append_nil]⟩
  | cons a as ih =>
      obtain ⟨b, s₁, hs, h₁⟩ := hstep s done a h (hg a List.mem_cons_self)
      obtain ⟨bs, s₂, hrun, h₂⟩ := ih h₁ fun x hx => hg x (List.mem_cons_of_mem a hx)
      rw [List.append_assoc, List.singleton_append] at h₂
      refine ⟨b :: bs, s₂, ?_, h₂⟩
      simp [runCalls, hs, hrun]

end Calls

/-! ## Every moment of a trace -/

section Moments

variable {α : Type w}

/-- `P` holds at every moment while `ops` follow the trace `t`. -/
def Throughout (P : List α → Prop) (t ops : List α) : Prop := ∀ m, m <+: ops → P (t ++ m)

variable {P : List α → Prop} {t : List α}

theorem throughout_nil : Throughout P t [] ↔ P t := by
  constructor
  · intro h
    simpa using h [] List.prefix_rfl
  · intro h m hm
    rw [List.prefix_nil.mp hm, List.append_nil]
    exact h

theorem throughout_cons {a : α} {ops : List α} :
    Throughout P t (a :: ops) ↔ P t ∧ Throughout P (t ++ [a]) ops := by
  constructor
  · intro h
    constructor
    · simpa using h [] List.nil_prefix
    · intro m hm
      simpa using h (a :: m) ((List.prefix_cons_inj a).mpr hm)
  · intro h m hm
    cases m with
    | nil => simpa using h.1
    | cons b m =>
        have hb := List.cons_prefix_cons.mp hm
        rw [hb.1]
        simpa using h.2 m hb.2

theorem throughout_append {as bs : List α} :
    Throughout P t (as ++ bs) ↔ Throughout P t as ∧ Throughout P (t ++ as) bs := by
  induction as generalizing t with
  | nil =>
      rw [List.nil_append, List.append_nil, throughout_nil]
      constructor
      · intro h
        exact ⟨by simpa using h [] List.nil_prefix, h⟩
      · exact fun h => h.2
  | cons a as ih =>
      rw [List.cons_append, throughout_cons, throughout_cons, ih, List.append_assoc, and_assoc]
      rfl

end Moments

/-! ## Labelled transition systems -/

section Steps

variable {σ : Type u} {α : Type w}

/-- Run a schedule; the run is undefined when a scheduled step is disabled. -/
def runSteps (step : σ → α → Option σ) : σ → List α → Option σ
  | s, [] => some s
  | s, a :: as =>
      match step s a with
      | none => none
      | some s' => runSteps step s' as

theorem runSteps_cons {step : σ → α → Option σ} {s s' : σ} {a : α} {as : List α}
    (h : step s a = some s') : runSteps step s (a :: as) = runSteps step s' as := by
  rw [runSteps, h]

theorem runSteps_append (step : σ → α → Option σ) (s : σ) (as bs : List α) :
    runSteps step s (as ++ bs) = (runSteps step s as).bind fun s' => runSteps step s' bs := by
  induction as generalizing s with
  | nil => rfl
  | cons a as ih =>
      rw [List.cons_append, runSteps, runSteps]
      cases step s a with
      | none => rfl
      | some s' => exact ih s'

/-- Every step of the schedule meets `guard` in the state it is taken in. -/
def Allowed (step : σ → α → Option σ) (guard : σ → α → Prop) : σ → List α → Prop
  | _, [] => True
  | s, a :: as =>
      guard s a ∧
        match step s a with
        | none => True
        | some s' => Allowed step guard s' as

instance Allowed.decidable (step : σ → α → Option σ) (guard : σ → α → Prop)
    [∀ s a, Decidable (guard s a)] : ∀ s as, Decidable (Allowed step guard s as)
  | _, [] => .isTrue trivial
  | s, a :: as =>
      @instDecidableAnd _ _ _
        (match step s a with
          | none => .isTrue trivial
          | some s' => Allowed.decidable step guard s' as)

theorem allowed_cons {step : σ → α → Option σ} {guard : σ → α → Prop} {s s' : σ} {a : α}
    {as : List α} (h : step s a = some s') :
    Allowed step guard s (a :: as) ↔ guard s a ∧ Allowed step guard s' as := by
  rw [Allowed, h]

theorem allowed_of_forall {step : σ → α → Option σ} {p : α → Prop} {s : σ} {as : List α}
    (h : ∀ a ∈ as, p a) : Allowed step (fun _ a => p a) s as := by
  induction as generalizing s with
  | nil => trivial
  | cons a as ih =>
      constructor
      · exact h a List.mem_cons_self
      · cases step s a with
        | none => trivial
        | some s' => exact ih fun x hx => h x (List.mem_cons_of_mem a hx)

theorem Allowed.and {step : σ → α → Option σ} {guard guard' : σ → α → Prop} {s : σ}
    {as : List α} (h : Allowed step guard s as) (h' : Allowed step guard' s as) :
    Allowed step (fun s a => guard s a ∧ guard' s a) s as := by
  induction as generalizing s with
  | nil => trivial
  | cons a as ih =>
      constructor
      · exact ⟨h.1, h'.1⟩
      · have h2 := h.2
        have h2' := h'.2
        cases hs : step s a with
        | none => trivial
        | some s' =>
            simp only [hs] at h2 h2'
            exact ih h2 h2'

/-- What every step allows under an invariant that it keeps. -/
theorem Allowed.imp {step : σ → α → Option σ} {guard guard' : σ → α → Prop} {I : σ → Prop}
    (hstep : ∀ s a, I s → guard s a → guard' s a ∧ ∀ s', step s a = some s' → I s')
    {s : σ} {as : List α} (h₀ : I s) (h : Allowed step guard s as) : Allowed step guard' s as := by
  induction as generalizing s with
  | nil => trivial
  | cons a as ih =>
      have hs := hstep s a h₀ h.1
      constructor
      · exact hs.1
      · have hrest := h.2
        cases hs' : step s a with
        | none => trivial
        | some s' =>
            simp only [hs'] at hrest
            exact ih (hs.2 s' hs') hrest

theorem Allowed.append_left {step : σ → α → Option σ} {guard : σ → α → Prop} {s : σ}
    {as bs : List α} (h : Allowed step guard s (as ++ bs)) : Allowed step guard s as := by
  induction as generalizing s with
  | nil => trivial
  | cons a as ih =>
      rw [List.cons_append] at h
      constructor
      · exact h.1
      · have h2 := h.2
        cases hs : step s a with
        | none => trivial
        | some s' =>
            simp only [hs] at h2
            exact ih h2

/-- What holds at the start and survives every guarded step holds at the end of
every run of guarded steps. -/
theorem runSteps_invariant {step : σ → α → Option σ} {guard : σ → α → Prop} {I : σ → Prop}
    (hstep : ∀ s a s', I s → guard s a → step s a = some s' → I s')
    {s s' : σ} {as : List α} (h₀ : I s) (hg : Allowed step guard s as)
    (hrun : runSteps step s as = some s') : I s' := by
  induction as generalizing s with
  | nil =>
      cases hrun
      exact h₀
  | cons a as ih =>
      cases hs : step s a with
      | none => simp [runSteps, hs] at hrun
      | some s₁ =>
          simp only [runSteps, hs] at hrun
          simp only [Allowed, hs] at hg
          exact ih (hstep s a s₁ h₀ hg.1 hs) hg.2 hrun

/-- The same for steps that keep the invariant without a guard. -/
theorem runSteps_preserves {step : σ → α → Option σ} {I : σ → Prop}
    (hstep : ∀ s a s', I s → step s a = some s' → I s') {s s' : σ} {as : List α} (h₀ : I s)
    (hrun : runSteps step s as = some s') : I s' :=
  runSteps_invariant (fun s a s' h _ hs => hstep s a s' h hs) h₀
    (allowed_of_forall (p := fun _ => True) fun _ _ => trivial) hrun

/-- When every guarded step is enabled and keeps `I`, every run of guarded steps goes
through and ends in `I`. -/
theorem runSteps_total {step : σ → α → Option σ} {guard : σ → α → Prop} {I : σ → Prop}
    (hstep : ∀ s a, I s → guard s a → ∃ s', step s a = some s' ∧ I s')
    {s : σ} {as : List α} (h₀ : I s) (hg : Allowed step guard s as) :
    ∃ s', runSteps step s as = some s' ∧ I s' := by
  induction as generalizing s with
  | nil => exact ⟨s, rfl, h₀⟩
  | cons a as ih =>
      cases hstep s a h₀ hg.1 with
      | intro s₁ h₁ =>
          have hrest := hg.2
          simp only [h₁.1] at hrest
          simpa [runSteps, h₁.1] using ih h₁.2 hrest

/-- A guarded run of one system is followed by the system that follows its guarded steps. -/
theorem runSteps_follows {τ : Type v} {β : Type x} {step : σ → α → Option σ}
    {step' : τ → β → Option τ} {guard : σ → α → Prop} {R : τ → σ → Prop} {call : α → β}
    (hstep : ∀ s s' t a, R t s → guard s a → step s a = some s' →
      ∃ t', step' t (call a) = some t' ∧ R t' s')
    {s s' : σ} {t : τ} {as : List α} (hR : R t s) (hg : Allowed step guard s as)
    (hrun : runSteps step s as = some s') :
    ∃ t', runSteps step' t (as.map call) = some t' ∧ R t' s' := by
  induction as generalizing s t with
  | nil =>
      cases hrun
      exact ⟨t, rfl, hR⟩
  | cons a as ih =>
      cases hs : step s a with
      | none => simp [runSteps, hs] at hrun
      | some s₁ =>
          rw [runSteps_cons hs] at hrun
          rw [allowed_cons hs] at hg
          rcases hstep s s₁ t a hR hg.1 hs with ⟨t₁, ht, hR₁⟩
          rw [List.map_cons, runSteps_cons ht]
          exact ih hR₁ hg.2 hrun

end Steps

end CommonCc
