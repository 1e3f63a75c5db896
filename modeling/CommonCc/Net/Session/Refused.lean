import CommonCc.Net.Session.ExactlyOnce

/-!
# A refused session

`Set` writes the members of the session before it looks for its number in the table.
-/

namespace CommonCc

namespace CSessionMgr

variable {σ : Type} [DecidableEq σ] {m : CSessionMgr σ}

/-- The manager after the calls. -/
def reached (object : σ → CBaseSession) (calls : List (Call σ)) : CSessionMgr σ :=
  (runSpec CSessionMgr.call (init object) calls).2

/-- A `Set` that is refused leaves the members of every registered session alone. -/
def RefusedKeeps (m : CSessionMgr σ) : Call σ → Prop
  | .set msg_seq timer_info gap_ms now =>
      (m.Set msg_seq timer_info gap_ms now).1 = -1 →
        ∀ e ∈ m.mp_timer_info, (m.Set msg_seq timer_info gap_ms now).2.object e.2 = m.object e.2
  | _ => True

/-- The session is registered, and its members are not yet what is written. -/
def Writes (m : CSessionMgr σ) (msg_seq : Nat) (timer_info : σ) (gap_ms : Nat) (now : TimeVal) :
    Prop :=
  timer_info ∈ m.mp_timer_info.map Prod.snd ∧ m.object timer_info ≠ ⟨now, gap_ms, msg_seq⟩

/-- No number in use is set for a registered session, unless nothing changes. -/
def Unaliased (m : CSessionMgr σ) : Call σ → Prop
  | .set msg_seq timer_info gap_ms now =>
      msg_seq ∈ m.mp_timer_info.map Prod.fst → ¬ m.Writes msg_seq timer_info gap_ms now
  | _ => True

theorem Set_object (msg_seq : Nat) (timer_info : σ) (gap_ms : Nat) (now : TimeVal) :
    (m.Set msg_seq timer_info gap_ms now).2.object =
      Function.update m.object timer_info ⟨now, gap_ms, msg_seq⟩ := by
  unfold CSessionMgr.Set
  dsimp only
  split <;> rfl

omit [DecidableEq σ] in
theorem find_eq_none_iff {msg_seq : Nat} :
    m.find msg_seq = none ↔ msg_seq ∉ m.mp_timer_info.map Prod.fst := by
  rw [find_eq_none]
  constructor
  · intro h hmem
    rcases List.mem_map.mp hmem with ⟨e, he, hkey⟩
    exact h e he hkey
  · intro h e he hkey
    exact h (List.mem_map.mpr ⟨e, he, hkey⟩)

/-- `Set` is refused exactly when its number is in use. -/
theorem Set_refused_iff (msg_seq : Nat) (timer_info : σ) (gap_ms : Nat) (now : TimeVal) :
    (m.Set msg_seq timer_info gap_ms now).1 = -1 ↔ msg_seq ∈ m.mp_timer_info.map Prod.fst := by
  cases hfind : m.find msg_seq with
  | none =>
      rw [(Set_free hfind timer_info gap_ms now).1]
      exact ⟨fun h => absurd h (by decide), fun h => absurd h (find_eq_none_iff.mp hfind)⟩
  | some other =>
      rw [(Set_taken hfind timer_info gap_ms now).1]
      refine ⟨fun _ => ?_, fun _ => rfl⟩
      by_contra hfree
      rw [find_eq_none_iff.mpr hfree] at hfind
      cases hfind

/-- The table's sessions keep their members exactly when none of them is written anew. -/
theorem Set_keeps_iff (msg_seq : Nat) (timer_info : σ) (gap_ms : Nat) (now : TimeVal) :
    (∀ e ∈ m.mp_timer_info, (m.Set msg_seq timer_info gap_ms now).2.object e.2 = m.object e.2) ↔
      ¬ m.Writes msg_seq timer_info gap_ms now := by
  rw [Set_object]
  constructor
  · intro h hwrites
    rcases List.mem_map.mp hwrites.1 with ⟨e, he, hsession⟩
    have hkept := h e he
    rw [hsession, Function.update_self] at hkept
    exact hwrites.2 hkept.symm
  · intro h e he
    by_cases hsession : e.2 = timer_info
    · rw [hsession, Function.update_self]
      by_contra hne
      exact h ⟨List.mem_map.mpr ⟨e, he, hsession⟩, fun heq => hne heq.symm⟩
    · rw [Function.update_of_ne hsession]

theorem refusedKeeps_iff (c : Call σ) : m.RefusedKeeps c ↔ m.Unaliased c := by
  cases c with
  | set msg_seq timer_info gap_ms now =>
      unfold RefusedKeeps Unaliased
      dsimp only
      rw [Set_refused_iff, Set_keeps_iff]
  | get msg_seq => exact Iff.rfl
  | checkExpire cur_time order getDelete => exact Iff.rfl

/-- What is kept of a session decides when it is too old. -/
theorem RefusedKeeps.tooOld {msg_seq : Nat} {timer_info : σ} {gap_ms : Nat} {now : TimeVal}
    (h : m.RefusedKeeps (.set msg_seq timer_info gap_ms now))
    (hrefused : (m.Set msg_seq timer_info gap_ms now).1 = -1) (cur_time : TimeVal) :
    ∀ e ∈ m.mp_timer_info, (m.Set msg_seq timer_info gap_ms now).2.tooOld cur_time e.2 =
      m.tooOld cur_time e.2 := by
  intro e he
  unfold CSessionMgr.tooOld
  rw [h hrefused e he]

/-- In a run the refused calls of `Set` leave the registered sessions alone exactly when none of
them passes a registered session, but for one that already has the members that are written. -/
theorem refused_Set_keeps_iff (object : σ → CBaseSession) (calls : List (Call σ)) :
    (∀ before c after, calls = before ++ c :: after → (reached object before).RefusedKeeps c) ↔
      ∀ before c after, calls = before ++ c :: after → (reached object before).Unaliased c := by
  constructor
  · intro h before c after hcalls
    exact (refusedKeeps_iff c).mp (h before c after hcalls)
  · intro h before c after hcalls
    exact (refusedKeeps_iff c).mpr (h before c after hcalls)

/-- The session with the number 1 is set a second time under its number: it is refused, and has a
new time and a new gap. -/
theorem refused_Set_writes :
    let m := reached (fun _ => ⟨⟨0, 0⟩, 0, 0⟩) [Call.set 1 'a' 5 ⟨0, 0⟩]
    ((m.Set 1 'a' 9 ⟨7, 0⟩).1 = -1 ∧ (1, 'a') ∈ m.mp_timer_info ∧
      m.object 'a' = ⟨⟨0, 0⟩, 5, 1⟩ ∧ (m.Set 1 'a' 9 ⟨7, 0⟩).2.object 'a' = ⟨⟨7, 0⟩, 9, 1⟩) ∧
    ¬ m.RefusedKeeps (.set 1 'a' 9 ⟨7, 0⟩) := by
  intro m
  have hwrites : (m.Set 1 'a' 9 ⟨7, 0⟩).1 = -1 ∧ (1, 'a') ∈ m.mp_timer_info ∧
      m.object 'a' = ⟨⟨0, 0⟩, 5, 1⟩ ∧ (m.Set 1 'a' 9 ⟨7, 0⟩).2.object 'a' = ⟨⟨7, 0⟩, 9, 1⟩ := by
    decide
  refine ⟨hwrites, fun h => ?_⟩
  have hkept := h hwrites.1 _ hwrites.2.1
  rw [hwrites.2.2.1, hwrites.2.2.2] at hkept
  exact absurd hkept (by decide)

end CSessionMgr

end CommonCc
