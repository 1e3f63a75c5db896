import CommonCc.Base

/-!
# Timed waits

`WaitTimePush` and `WaitTimePop` up to the end of their loops around `sem_timedwait`.  The
deadline of a wait is made from `time`, which counts whole seconds.
-/

namespace CommonCc

/-- `struct timespec`. -/
structure TimeSpec where
  tv_sec : Int
  tv_nsec : Int
deriving Repr, DecidableEq

/-- The reading in nanoseconds. -/
def TimeSpec.nanos (t : TimeSpec) : Int := t.tv_sec * 1000000000 + t.tv_nsec

namespace CQueueT

inductive Sem where
  | m_semExist
  | m_semEmpty
deriving Repr, DecidableEq

/-- What `sem_timedwait` returns: success, or -1 with `EINTR`, `ETIMEDOUT` or another `errno`. -/
inductive TimedWait where
  | acquired
  | interrupted
  | timedOut
  | failed
deriving Repr, DecidableEq

/-- Where a function stands after its calls of `sem_timedwait`. -/
inductive Waited where
  | waiting
  | acquired
  | gaveUp
deriving Repr, DecidableEq

/-- `ts` of both functions.  `time` gives the seconds of `now`. -/
def deadline (now : TimeSpec) (usec : Nat) : TimeSpec :=
  let ts : TimeSpec := ⟨now.tv_sec, 0⟩
  if usec ≥ 1000000 then
    { ts with tv_sec := toLong (ts.tv_sec + usec / 1000000)
              tv_nsec := u32 (usec % 1000000 * 1000) }
  else { ts with tv_nsec := u32 (usec * 1000) }

/-- The loop: the calls that it makes, and where it stands when the answers are used up. -/
def timedWait (sem : Sem) (ts : TimeSpec) : List TimedWait → List (Sem × TimeSpec) × Waited
  | [] => ([(sem, ts)], .waiting)
  | .interrupted :: answers =>
      let rest := timedWait sem ts answers
      ((sem, ts) :: rest.1, rest.2)
  | .acquired :: _ => ([(sem, ts)], .acquired)
  | .timedOut :: _ => ([(sem, ts)], .gaveUp)
  | .failed :: _ => ([(sem, ts)], .gaveUp)

def WaitTimePush (now : TimeSpec) (usec : Nat) (answers : List TimedWait) :
    List (Sem × TimeSpec) × Waited :=
  timedWait .m_semEmpty (deadline now usec) answers

def WaitTimePop (now : TimeSpec) (usec : Nat) (answers : List TimedWait) :
    List (Sem × TimeSpec) × Waited :=
  timedWait .m_semExist (deadline now usec) answers

/-- Every call has the deadline, however often a signal breaks the wait. -/
theorem timedWait_deadline {sem : Sem} {ts : TimeSpec} {answers : List TimedWait}
    {call : Sem × TimeSpec} (h : call ∈ (timedWait sem ts answers).1) : call = (sem, ts) := by
  induction answers with
  | nil => exact List.mem_singleton.mp h
  | cons a answers ih =>
      cases a with
      | interrupted =>
          rcases List.mem_cons.mp h with h | h
          · exact h
          · exact ih h
      | acquired => exact List.mem_singleton.mp h
      | timedOut => exact List.mem_singleton.mp h
      | failed => exact List.mem_singleton.mp h

theorem mem_timedWait (sem : Sem) (ts : TimeSpec) (answers : List TimedWait) :
    (sem, ts) ∈ (timedWait sem ts answers).1 := by
  cases answers with
  | nil => exact List.mem_cons_self
  | cons a answers => cases a <;> exact List.mem_cons_self

/-- The product for `tv_nsec` does not wrap. -/
theorem u32_nsec {n : Nat} (h : n < 1000000) : u32 (n * 1000) = n * 1000 := u32_of_lt (by omega)

theorem deadline_nsec (now : TimeSpec) (usec : Nat) :
    0 ≤ (deadline now usec).tv_nsec ∧ (deadline now usec).tv_nsec < 1000000000 := by
  unfold deadline
  dsimp only
  split
  · rw [u32_nsec (Nat.mod_lt usec (by decide))]
    dsimp only
    omega
  · next h =>
      rw [u32_nsec (Nat.not_le.mp h)]
      dsimp only
      omega

/-- The deadline counts from the beginning of the current second. -/
theorem deadline_nanos {now : TimeSpec} {usec : Nat}
    (h : InLong (now.tv_sec + usec / 1000000)) :
    (deadline now usec).nanos = now.tv_sec * 1000000000 + usec * 1000 := by
  have hlong := toLong_of_mem h
  unfold deadline TimeSpec.nanos
  dsimp only
  split
  · rw [u32_nsec (Nat.mod_lt usec (by decide)), hlong]
    dsimp only
    omega
  · next hsmall =>
      rw [u32_nsec (Nat.not_le.mp hsmall)]
      dsimp only
      omega

/-- Past the range of `time_t` it lies before the current time. -/
theorem deadline_nanos_lt {now : TimeSpec} {usec : Nat} (hsec : InLong now.tv_sec)
    (hnsec : 0 ≤ now.tv_nsec) (h : ¬ InLong (now.tv_sec + usec / 1000000)) :
    (deadline now usec).nanos < now.nanos + usec * 1000 := by
  unfold InLong at hsec h
  unfold deadline toLong TimeSpec.nanos
  dsimp only
  split
  · rw [u32_nsec (Nat.mod_lt usec (by decide))]
    dsimp only
    omega
  · omega

/-- No call is given a deadline that the wait may end at too early. -/
def NotCutShort (now : TimeSpec) (usec : Nat) (waited : List (Sem × TimeSpec) × Waited) : Prop :=
  ∀ call ∈ waited.1, 0 ≤ call.2.tv_nsec ∧ call.2.tv_nsec < 1000000000 ∧
    now.nanos + usec * 1000 ≤ call.2.nanos

theorem notCutShort_iff {now : TimeSpec} {usec : Nat} (sem : Sem) (answers : List TimedWait)
    (hsec : InLong now.tv_sec) (hnsec : 0 ≤ now.tv_nsec) :
    NotCutShort now usec (timedWait sem (deadline now usec) answers) ↔
      now.tv_nsec = 0 ∧ InLong (now.tv_sec + usec / 1000000) := by
  constructor
  · intro h
    have hcall := (h _ (mem_timedWait sem (deadline now usec) answers)).2.2
    by_cases hlong : InLong (now.tv_sec + usec / 1000000)
    · rw [deadline_nanos hlong, TimeSpec.nanos] at hcall
      exact ⟨by omega, hlong⟩
    · have hlt := deadline_nanos_lt hsec hnsec hlong
      exact absurd hcall (Int.not_le.mpr hlt)
  · intro h call hcall
    have hrange := deadline_nsec now usec
    rw [timedWait_deadline hcall, deadline_nanos h.2, TimeSpec.nanos]
    exact ⟨hrange.1, hrange.2, by omega⟩

/-- Both waits last as long as they should exactly when they start with a new second, and the
deadline is within the range of `time_t`. -/
theorem waitTime_notCutShort_iff (now : TimeSpec) (usec : Nat) (answers : List TimedWait)
    (hsec : InLong now.tv_sec) (hnsec : 0 ≤ now.tv_nsec ∧ now.tv_nsec < 1000000000) :
    NotCutShort now usec (WaitTimePush now usec answers) ∧
      NotCutShort now usec (WaitTimePop now usec answers) ↔
    now.tv_nsec = 0 ∧ InLong (now.tv_sec + usec / 1000000) := by
  have hpush := @notCutShort_iff now usec .m_semEmpty answers hsec hnsec.1
  have hpop := @notCutShort_iff now usec .m_semExist answers hsec hnsec.1
  exact ⟨fun h => hpush.mp h.1, fun h => ⟨hpush.mpr h, hpop.mpr h⟩⟩

/-- A wait of a second and a half that a signal breaks once. -/
theorem waitTime_notCutShort_iff_signal :
    NotCutShort ⟨1700000000, 0⟩ 1500000 (WaitTimePush ⟨1700000000, 0⟩ 1500000
      [.interrupted, .timedOut]) ∧
    NotCutShort ⟨1700000000, 0⟩ 1500000 (WaitTimePop ⟨1700000000, 0⟩ 1500000
      [.interrupted, .timedOut]) :=
  (waitTime_notCutShort_iff ⟨1700000000, 0⟩ 1500000 [.interrupted, .timedOut] (by decide)
    (by decide)).mpr (by decide)

/-- A wait of half a second that starts late in a second has its deadline behind it. -/
theorem notCutShort_false :
    (WaitTimePop ⟨1700000000, 900000000⟩ 500000 [.timedOut]).1 =
        [(.m_semExist, ⟨1700000000, 500000000⟩)] ∧
      ¬ NotCutShort ⟨1700000000, 900000000⟩ 500000
        (WaitTimePop ⟨1700000000, 900000000⟩ 500000 [.timedOut]) := by
  have hcalls : (WaitTimePop ⟨1700000000, 900000000⟩ 500000 [.timedOut]).1 =
      [(.m_semExist, ⟨1700000000, 500000000⟩)] := by decide
  refine ⟨hcalls, fun h => ?_⟩
  have hcall := h (.m_semExist, ⟨1700000000, 500000000⟩) (by rw [hcalls]; exact List.mem_cons_self)
  exact absurd hcall.2.2 (by decide)

end CQueueT

end CommonCc
