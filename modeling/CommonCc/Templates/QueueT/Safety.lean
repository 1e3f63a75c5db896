import CommonCc.Lib.Threads
import CommonCc.Templates.QueueT.Model

/-!
# Safety of the blocking queue

A free place is counted by `m_semEmpty`, by a thread that has taken its permit and not yet
pushed, by a node in the queue, or by a thread that has popped and not yet posted.  A node
is counted by `m_semExist`, by a thread that has taken its permit and not yet popped, or by
a thread that has pushed and not yet posted.
-/

namespace CommonCc

namespace CQueueT

variable {ι T : Type} [DecidableEq ι]

/-- The places between the calls on the mutex. -/
def Place.critical : Place T → Bool
  | .push _ | .postExist | .unlockPush | .front | .pop _ | .postEmpty | .unlockPop => true
  | _ => false

/-- Free places that a thread holds. -/
def Place.holdsEmpty : Place T → Nat
  | .lockPush _ | .push _ | .postEmpty => 1
  | _ => 0

/-- Nodes that a thread has a permit for. -/
def Place.claims : Place T → Nat
  | .lockPop | .front | .pop _ => 1
  | _ => 0

/-- Nodes that a thread has pushed and not yet announced. -/
def Place.unannounced : Place T → Nat
  | .postExist => 1
  | _ => 0

section Invariant

variable [Fintype ι] {N : Nat} {s s' : State ι T} {t : ι} {p : Place T}

/-- Every place of the queue and every node in it is accounted for, and the thread between
the calls on the mutex is its owner. -/
structure Inv (N : Nat) (s : State ι T) : Prop where
  empty : s.m_semEmpty + totalWeight Place.holdsEmpty s.place + s.m_queue.length = N
  exist : s.m_semExist + totalWeight Place.claims s.place +
    totalWeight Place.unannounced s.place = s.m_queue.length
  owner : ∀ t, (s.place t).critical = true ↔ s.m_mtxQue = some t
  front : ∀ t node, s.place t = .pop node → s.m_queue.head? = some node
  order : s.pushed = s.popped ++ s.m_queue

omit [DecidableEq ι] in
theorem Init_inv (N : Nat) : Inv N (Init ι T N) where
  empty := by
    have hholds : totalWeight Place.holdsEmpty (Init ι T N).place = 0 :=
      totalWeight_eq_zero fun _ => rfl
    rw [hholds]
    rfl
  exist := by
    have hclaims : totalWeight Place.claims (Init ι T N).place = 0 :=
      totalWeight_eq_zero fun _ => rfl
    have hunannounced : totalWeight Place.unannounced (Init ι T N).place = 0 :=
      totalWeight_eq_zero fun _ => rfl
    rw [hclaims, hunannounced]
    rfl
  owner := fun t => by simp [Init, Place.critical]
  front := fun t node h => by simp [Init] at h
  order := rfl

/-- A step of thread `t` to the place `p`: what it has to balance. -/
structure Moves (s s' : State ι T) (t : ι) (p : Place T) : Prop where
  place : s'.place = Function.update s.place t p
  empty : s'.m_semEmpty + p.holdsEmpty + s'.m_queue.length =
    s.m_semEmpty + (s.place t).holdsEmpty + s.m_queue.length
  exist : s'.m_semExist + p.claims + p.unannounced + s.m_queue.length =
    s.m_semExist + (s.place t).claims + (s.place t).unannounced + s'.m_queue.length
  order : s.pushed = s.popped ++ s.m_queue → s'.pushed = s'.popped ++ s'.m_queue

/-- The mutex over a step of thread `t` to the place `p`: it is left alone, taken or
given back. -/
def MutexMoves (s s' : State ι T) (t : ι) (p : Place T) : Prop :=
  (p.critical = (s.place t).critical ∧ s'.m_mtxQue = s.m_mtxQue) ∨
  (s.m_mtxQue = none ∧ p.critical = true ∧ s'.m_mtxQue = some t) ∨
  ((s.place t).critical = true ∧ p.critical = false ∧ s'.m_mtxQue = none)

omit [Fintype ι] in
theorem MutexMoves.owner (h : MutexMoves s s' t p)
    (hplace : s'.place = Function.update s.place t p)
    (howner : ∀ u, (s.place u).critical = true ↔ s.m_mtxQue = some u) (u : ι) :
    (s'.place u).critical = true ↔ s'.m_mtxQue = some u := by
  have hu := howner u
  have ht := howner t
  rw [hplace]
  by_cases hut : u = t
  · subst hut
    rw [Function.update_self]
    cases h with
    | inl h => rw [h.1, h.2, hu]
    | inr h =>
        cases h with
        | inl h => simp [h.2.1, h.2.2]
        | inr h => simp [h.2.1, h.2.2]
  · rw [Function.update_of_ne hut]
    cases h with
    | inl h => rw [h.2, hu]
    | inr h =>
        cases h with
        | inl h =>
            rw [hu, h.1, h.2.2]
            simp [Ne.symm hut]
        | inr h =>
            rw [hu, ht.mp h.1, h.2.2]
            simp [Ne.symm hut]

/-- A thread outside the mutex sees the queue as it was, or the owner of the mutex is the
one that changed it. -/
theorem Inv.move (h : Inv N s) (hm : Moves s s' t p) (hmutex : MutexMoves s s' t p)
    (hqueue : s'.m_queue = s.m_queue ∨ (s.place t).critical = true)
    (hfront : ∀ node, p = .pop node → s'.m_queue.head? = some node) : Inv N s' := by
  have hholds := totalWeight_update Place.holdsEmpty s.place t p
  have hclaims := totalWeight_update Place.claims s.place t p
  have hunannounced := totalWeight_update Place.unannounced s.place t p
  have hempty := h.empty
  have hexist := h.exist
  have hmempty := hm.empty
  have hmexist := hm.exist
  constructor
  · rw [hm.place]
    omega
  · rw [hm.place]
    omega
  · exact hmutex.owner hm.place h.owner
  · intro u node hu
    rw [hm.place] at hu
    by_cases hut : u = t
    · subst hut
      rw [Function.update_self] at hu
      exact hfront node hu
    · rw [Function.update_of_ne hut] at hu
      cases hqueue with
      | inl hsame => rw [hsame, h.front u node hu]
      | inr hcrit =>
          -- two threads cannot both own the mutex
          have hown := (h.owner t).mp hcrit
          have hown' := (h.owner u).mp (by rw [hu]; rfl)
          rw [hown] at hown'
          exact absurd (Option.some.inj hown').symm hut
  · exact hm.order h.order

/-- Moving thread `t` alone, between places that hold and claim the same. -/
theorem Inv.goto (h : Inv N s) (hholds : p.holdsEmpty = (s.place t).holdsEmpty)
    (hclaims : p.claims = (s.place t).claims)
    (hunannounced : p.unannounced = (s.place t).unannounced)
    (hcritical : p.critical = (s.place t).critical)
    (hfront : ∀ node, p = .pop node → s.m_queue.head? = some node) : Inv N (s.goto t p) :=
  h.move ⟨rfl, by rw [hholds]; rfl, by rw [hclaims, hunannounced]; rfl, id⟩
    (.inl ⟨hcritical, rfl⟩) (.inl rfl) hfront

/-- One case for each step of the two functions. -/
theorem Inv.next (h : Inv N s) (hs : s.next t = some s') : Inv N s' := by
  unfold State.next at hs
  cases hp : s.place t with
  | idle => simp [hp] at hs
  | waitEmpty node =>
      simp only [hp] at hs
      by_cases hpos : 0 < s.m_semEmpty
      · rw [if_pos hpos] at hs
        cases hs
        refine h.move ⟨rfl, ?_, ?_, id⟩ (.inl ⟨by rw [hp]; rfl, rfl⟩) (.inl rfl) (by simp)
        · rw [hp]
          show s.m_semEmpty - 1 + 1 + s.m_queue.length = s.m_semEmpty + 0 + s.m_queue.length
          omega
        · rw [hp]
          rfl
      · simp [hpos] at hs
  | lockPush node | lockPop =>
      simp only [hp] at hs
      by_cases hfree : s.m_mtxQue = none
      · rw [if_pos hfree] at hs
        cases hs
        exact h.move ⟨rfl, by rw [hp]; rfl, by rw [hp]; rfl, id⟩ (.inr (.inl ⟨hfree, rfl, rfl⟩))
          (.inl rfl) (by simp)
      · simp [hfree] at hs
  | push node =>
      simp only [hp] at hs
      cases hs
      refine h.move ⟨rfl, ?_, ?_, ?_⟩ (.inl ⟨by rw [hp]; rfl, rfl⟩) (.inr (by rw [hp]; rfl))
        (by simp)
      · rw [hp]
        show s.m_semEmpty + 0 + (s.m_queue ++ [node]).length =
          s.m_semEmpty + 1 + s.m_queue.length
        rw [List.length_append, List.length_singleton]
        omega
      · rw [hp]
        show s.m_semExist + 0 + 1 + s.m_queue.length =
          s.m_semExist + 0 + 0 + (s.m_queue ++ [node]).length
        rw [List.length_append, List.length_singleton]
        omega
      · intro horder
        show s.pushed ++ [node] = s.popped ++ (s.m_queue ++ [node])
        rw [horder, List.append_assoc]
  | postExist =>
      simp only [hp] at hs
      cases hs
      refine h.move ⟨rfl, by rw [hp]; rfl, ?_, id⟩ (.inl ⟨by rw [hp]; rfl, rfl⟩) (.inl rfl) (by simp)
      rw [hp]
      show s.m_semExist + 1 + 0 + 0 + s.m_queue.length =
        s.m_semExist + 0 + 1 + s.m_queue.length
      omega
  | unlockPush | unlockPop =>
      simp only [hp] at hs
      cases hs
      exact h.move ⟨rfl, by rw [hp]; rfl, by rw [hp]; rfl, id⟩
        (.inr (.inr ⟨by rw [hp]; rfl, rfl, rfl⟩)) (.inl rfl) (by simp)
  | waitExist =>
      simp only [hp] at hs
      by_cases hpos : 0 < s.m_semExist
      · rw [if_pos hpos] at hs
        cases hs
        refine h.move ⟨rfl, by rw [hp]; rfl, ?_, id⟩ (.inl ⟨by rw [hp]; rfl, rfl⟩) (.inl rfl)
          (by simp)
        rw [hp]
        show s.m_semExist - 1 + 1 + 0 + s.m_queue.length =
          s.m_semExist + 0 + 0 + s.m_queue.length
        omega
      · simp [hpos] at hs
  | front =>
      simp only [hp] at hs
      cases hq : s.m_queue with
      | nil => simp [hq] at hs
      | cons node rest =>
          simp only [hq] at hs
          cases hs
          refine h.goto (by rw [hp]; rfl) (by rw [hp]; rfl) (by rw [hp]; rfl) (by rw [hp]; rfl) ?_
          intro node' heq
          cases heq
          rw [hq]
          rfl
  | pop node =>
      simp only [hp] at hs
      cases hq : s.m_queue with
      | nil => simp [hq] at hs
      | cons first rest =>
          simp only [hq] at hs
          cases hs
          have hfirst := h.front t node hp
          rw [hq] at hfirst
          have hnode : first = node := Option.some.inj hfirst
          subst hnode
          refine h.move ⟨rfl, ?_, ?_, ?_⟩ (.inl ⟨by rw [hp]; rfl, rfl⟩) (.inr (by rw [hp]; rfl))
            (by simp)
          · rw [hp, hq]
            show s.m_semEmpty + 1 + rest.length = s.m_semEmpty + 0 + (rest.length + 1)
            omega
          · rw [hp, hq]
            show s.m_semExist + 0 + 0 + (rest.length + 1) = s.m_semExist + 1 + 0 + rest.length
            omega
          · intro horder
            show s.pushed = s.popped ++ [first] ++ rest
            rw [horder, hq, List.append_assoc, List.singleton_append]
  | postEmpty =>
      simp only [hp] at hs
      cases hs
      refine h.move ⟨rfl, ?_, by rw [hp]; rfl, id⟩ (.inl ⟨by rw [hp]; rfl, rfl⟩) (.inl rfl) (by simp)
      rw [hp]
      show s.m_semEmpty + 1 + 0 + s.m_queue.length = s.m_semEmpty + 1 + s.m_queue.length
      omega

theorem Inv.step {a : ι × Act T} (h : Inv N s) (hs : step s a = some s') : Inv N s' := by
  cases a with
  | mk t act =>
      cases act with
      | next => exact h.next hs
      | signal =>
          cases hp : s.place t with
          | waitEmpty node | waitExist =>
              simp only [CQueueT.step, hp] at hs
              cases hs
              exact h
          | _ => simp [CQueueT.step, hp] at hs
      | callPush node | callPop =>
          cases hp : s.place t with
          | idle =>
              simp only [CQueueT.step, hp, if_true] at hs
              cases hs
              exact h.goto (by rw [hp]; rfl) (by rw [hp]; rfl) (by rw [hp]; rfl) (by rw [hp]; rfl)
                (by simp)
          | _ => simp [CQueueT.step, hp] at hs

/-- For any number of threads and any order of their steps: at most `N` nodes are queued, no
thread is about to ask an empty queue for its front or to pop it, and nodes come out in the
order in which they went in. -/
theorem safe (N : Nat) (schedule : List (ι × Act T))
    (hrun : runSteps CQueueT.step (Init ι T N) schedule = some s) :
    s.m_queue.length ≤ N ∧
      (∀ t, (s.place t = .front ∨ ∃ node, s.place t = .pop node) → s.m_queue ≠ []) ∧
      s.popped <+: s.pushed := by
  have h : Inv N s := runSteps_preserves (fun _ _ _ h hs => h.step hs) (Init_inv N) hrun
  refine ⟨?_, fun t ht hnil => ?_, ⟨s.m_queue, h.order.symm⟩⟩
  · have hempty := h.empty
    omega
  · have hone : (s.place t).claims = 1 := by
      rcases ht with ht | ⟨node, ht⟩ <;> rw [ht] <;> rfl
    have hle := le_totalWeight Place.claims s.place t
    have hexist := h.exist
    rw [hnil, List.length_nil] at hexist
    omega

end Invariant

/-- A consumer that waits for a producer, up to the point where it has popped. -/
theorem safe_two :
    ∃ s, runSteps CQueueT.step (Init (Fin 2) Nat 1)
        [(1, .callPop), (0, .callPush 7), (0, .next), (0, .next), (0, .next), (0, .next),
          (1, .next), (0, .next), (1, .next), (1, .next), (1, .next)] = some s ∧
      s.m_queue.length ≤ 1 ∧
      (∀ t, (s.place t = .front ∨ ∃ node, s.place t = .pop node) → s.m_queue ≠ []) ∧
      s.popped <+: s.pushed := by
  cases hrun : runSteps CQueueT.step (Init (Fin 2) Nat 1)
      [(1, .callPop), (0, .callPush 7), (0, .next), (0, .next), (0, .next), (0, .next),
        (1, .next), (0, .next), (1, .next), (1, .next), (1, .next)] with
  | none =>
      have hsome : (runSteps CQueueT.step (Init (Fin 2) Nat 1)
          [(1, .callPop), (0, .callPush 7), (0, .next), (0, .next), (0, .next), (0, .next),
            (1, .next), (0, .next), (1, .next), (1, .next), (1, .next)]).isSome = true := by
        decide
      rw [hrun] at hsome
      cases hsome
  | some s => exact ⟨s, rfl, safe 1 _ hrun⟩

end CQueueT

end CommonCc
