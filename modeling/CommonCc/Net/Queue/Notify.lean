import CommonCc.Net.Queue.Outcome

/-!
# Waking the reader

The reader calls `Pop` when the notification pipe is readable, so a queued message needs
a byte in the pipe.  As long as no message is accepted while the pipe is full, there is a
byte for each message.  A byte that is dropped is missing when the messages run out.
-/

namespace CommonCc

/-- The length of a pushed message is a `uint32_t`. -/
def QueueCall.Sized : QueueCall → Prop
  | .push data => data.length < 4294967296
  | .pop _ _ => True

namespace CNetQueue

/-- One completed call of `Push` or `Pop`. -/
def step (q : CNetQueue) (c : QueueCall) : Option CNetQueue := (q.call c).toOption.map Prod.snd

theorem step_push {q q' : CNetQueue} {data : Bytes} :
    q.step (.push data) = some q' ↔ ∃ ret, q.Push data = .ok (ret, q') := by
  unfold step call
  cases hpush : q.Push data with
  | error e => simp [hpush, Except.toOption]
  | ok out => simp [hpush, Except.toOption, Prod.ext_iff]

theorem step_pop {q q' : CNetQueue} {buf_size data_len : Nat} :
    q.step (.pop buf_size data_len) = some q' ↔
      ∃ r, q.Pop buf_size data_len = .ok (r, q') := by
  unfold step call
  cases hpop : q.Pop buf_size data_len with
  | error e => simp [hpop, Except.toOption]
  | ok out => simp [hpop, Except.toOption, Prod.ext_iff]

/-- If the queue is not empty, its descriptor is readable. -/
def Notified (q : CNetQueue) : Prop := q.m_head ≠ q.m_tail → 1 ≤ q.m_fd.bytes

/-- A message is accepted only when the pipe has room for its byte. -/
def RoomToNotify (q : CNetQueue) : QueueCall → Prop
  | .push data => EnQueue.plan q.m_buffer_len q.m_head q.m_tail data ≠ none →
      q.m_fd.bytes < q.m_fd.capacity
  | .pop _ _ => True

/-! ## One byte for each message -/

/-- The queue holds messages, and its pipe a byte for each of them. -/
def Counted (L C : Nat) (q : CNetQueue) : Prop :=
  ∃ msgs, q.Holds L msgs ∧ q.m_fd.bytes = msgs.length ∧ q.m_fd.capacity = C

section Counted

variable {L C : Nat} {q q' : CNetQueue}

theorem init_counted (buffer : Nat → UInt8) (hL : 1 ≤ L) : Counted L C (init buffer L C) :=
  ⟨[], init_holds buffer hL C, rfl, rfl⟩

theorem Counted.notified (h : Counted L C q) : q.Notified := by
  intro hne
  cases h with
  | intro msgs hq =>
      have hmsgs : msgs ≠ [] := fun e => hne (hq.1.head_eq_tail.mpr e)
      rw [hq.2.1]
      exact List.length_pos_iff.mpr hmsgs

/-- A completed `Push` accepts exactly what `EnQueue` finds room for. -/
theorem accepted_iff {data : Bytes} {ret : Int} (h : q.Push data = .ok (ret, q')) :
    EnQueue.plan q.m_buffer_len q.m_head q.m_tail data ≠ none ↔ ret = 0 := by
  rcases push_cases h with ⟨hplan, rfl, -⟩ | ⟨p, m, hplan, -, rfl, -⟩
  · simp [hplan]
  · simp [hplan]

theorem Counted.step (hL : L < 4294967296) (h : Counted L C q) {c : QueueCall} (hsize : c.Sized)
    (hroom : q.RoomToNotify c) (hstep : q.step c = some q') : Counted L C q' := by
  cases h with
  | intro msgs hq =>
      have hbytes := hq.2.1
      cases c with
      | push data =>
          cases step_push.mp hstep with
          | intro ret hpush =>
              have hout := push_completed hq.1 hL hsize hpush
              have hpipe := push_pipe hpush
              unfold Fifo.push at hout
              by_cases hfit : Fifo.load msgs + (data.length + 4) < L
              · rw [if_pos hfit] at hout
                have hret : ret = 0 := hout.1
                subst hret
                have hspare := hroom ((accepted_iff hpush).mpr rfl)
                rw [if_pos rfl, Pipe.put, if_pos hspare] at hpipe
                exact ⟨msgs ++ [data], hout.2, by rw [hpipe]; simp [hbytes], by rw [hpipe, hq.2.2]⟩
              · rw [if_neg hfit] at hout
                have hret : ret = -1 := hout.1
                subst hret
                rw [if_neg (by decide)] at hpipe
                exact ⟨msgs, hout.2, by rw [hpipe, hbytes], by rw [hpipe, hq.2.2]⟩
      | pop buf_size data_len =>
          cases step_pop.mp hstep with
          | intro r hpop =>
              have hout := pop_completed hq.1 hL hpop
              have hpipe := pop_pipe hpop
              have hcap : q'.m_fd.capacity = C := by
                rw [hpipe, ← hq.2.2]
                split <;> rfl
              refine ⟨_, hout.2, ?_, hcap⟩
              rw [hpipe, hout.1]
              cases msgs with
              | nil => simp [Fifo.pop, Pipe.take, hbytes]
              | cons m rest =>
                  unfold Fifo.pop
                  dsimp only
                  split
                  · simpa using hbytes
                  · split
                    · simpa using hbytes
                    · simp [Pipe.take, hbytes]

theorem four_mul_length_le_load (msgs : List Bytes) : 4 * msgs.length ≤ Fifo.load msgs := by
  induction msgs with
  | nil => simp
  | cons m msgs ih =>
      rw [List.length_cons, Fifo.load_cons]
      omega

/-- Every message takes four bytes at least, so a small buffer has room for no more
messages than the pipe has for bytes. -/
theorem Counted.room (h : Counted L C q) (hL : L < 4294967296) (hsmall : L ≤ 4 * C + 4)
    {c : QueueCall} (hsize : c.Sized) (hstep : q.step c = some q') : q.RoomToNotify c := by
  cases c with
  | pop buf_size data_len => trivial
  | push data =>
      intro hplan
      cases step_push.mp hstep with
      | intro ret hpush =>
          cases h with
          | intro msgs hq =>
              have hret := (accepted_iff hpush).mp hplan
              have hout := (push_completed hq.1 hL hsize hpush).1
              have hload := four_mul_length_le_load msgs
              rw [hret, Fifo.push] at hout
              by_cases hfit : Fifo.load msgs + (data.length + 4) < L
              · rw [hq.2.1, hq.2.2]
                omega
              · simp [hfit] at hout

end Counted

/-! ## The lost byte -/

section Lost

variable {L C : Nat} {q : CNetQueue}

theorem put_eq {p : Pipe} (h : p.bytes ≤ p.capacity) :
    p.put = ⟨min (p.bytes + 1) p.capacity, p.capacity⟩ := by
  unfold Pipe.put
  by_cases hroom : p.bytes < p.capacity
  · rw [if_pos hroom, Nat.min_eq_left hroom]
  · have hfull : p.capacity = p.bytes := Nat.le_antisymm (Nat.le_of_not_lt hroom) h
    rw [if_neg hroom, hfull, Nat.min_eq_right (Nat.le_succ _)]
    exact congrArg (Pipe.mk p.bytes) hfull

/-- `n` empty messages go in as long as the buffer has room for them, their bytes only
as long as the pipe has. -/
theorem push_empties (hL : L < 4294967296) (n : Nat) {k : Nat}
    (h : q.Holds L (List.replicate k [])) (hfit : 4 * (k + n) < L)
    (hcap : q.m_fd.bytes ≤ q.m_fd.capacity) :
    ∃ q', runSteps step q (List.replicate n (.push [])) = some q' ∧
      q'.Holds L (List.replicate (k + n) []) ∧
      q'.m_fd = ⟨min (q.m_fd.bytes + n) q.m_fd.capacity, q.m_fd.capacity⟩ := by
  induction n generalizing q k with
  | zero => exact ⟨q, rfl, h, by rw [Nat.add_zero, Nat.min_eq_left hcap]⟩
  | succ n ih =>
      have hload : Fifo.load (List.replicate k []) = 4 * k := by simp [Fifo.load, Nat.mul_comm]
      have hroom : Fifo.load (List.replicate k []) + (([] : Bytes).length + 4) < L := by
        rw [hload, List.length_nil]
        omega
      cases push_accepts h hL hroom with
      | intro q₁ h₁ =>
          have hput := push_pipe h₁.1
          rw [if_pos rfl, put_eq hcap] at hput
          have hholds : q₁.Holds L (List.replicate (k + 1) []) := by
            rw [List.replicate_succ']
            exact h₁.2
          cases ih hholds (by omega) (by rw [hput]; exact Nat.min_le_right _ _) with
          | intro q' hq' =>
              refine ⟨q', ?_, by rw [show k + (n + 1) = k + 1 + n by omega]; exact hq'.2.1, ?_⟩
              · rw [List.replicate_succ, runSteps, step_push.mpr ⟨0, h₁.1⟩]
                exact hq'.1
              · rw [hq'.2.2, hput]
                congr 1
                dsimp only
                omega

/-- Each of `n` calls of `Pop` takes one empty message and one byte. -/
theorem pop_empties (hL : L < 4294967296) (n : Nat) {k : Nat}
    (h : q.Holds L (List.replicate (n + k) [])) :
    ∃ q', runSteps step q (List.replicate n (.pop 4 0)) = some q' ∧
      q'.Holds L (List.replicate k []) ∧ q'.m_fd.bytes = q.m_fd.bytes - n := by
  induction n generalizing q with
  | zero => exact ⟨q, rfl, by simpa using h, rfl⟩
  | succ n ih =>
      rw [show n + 1 + k = n + k + 1 by omega, List.replicate_succ] at h
      have hlt : ringIndex L q.m_head 4 + ([] : Bytes).length < 4294967296 := by
        have hload := h.load_lt
        simp only [Fifo.load_cons] at hload
        have hnext : ringIndex L q.m_head 4 < L := ringIndex_lt h.head_lt (by omega)
        simp only [List.length_nil]
        omega
      cases pop_oldest_of_lt h hL (fun _ : ([] : Bytes).length + 4 ≤ 4 => hlt) 0 with
      | intro q₁ h₁ =>
          have hpipe := pop_pipe h₁.1
          cases ih h₁.2 with
          | intro q' hq' =>
              refine ⟨q', ?_, hq'.2.1, ?_⟩
              · rw [List.replicate_succ, runSteps, step_pop.mpr ⟨_, h₁.1⟩]
                exact hq'.1
              · rw [hq'.2.2, hpipe, if_pos (.inl rfl), Pipe.take]
                dsimp only
                omega

/-- One message more than the pipe has bytes, then a `Pop` for each byte: one message is
left and nothing tells the reader. -/
theorem byte_lost (hL : L < 4294967296) (hbig : 4 * C + 4 < L) (buffer : Nat → UInt8) :
    ∃ q, runSteps step (init buffer L C)
        (List.replicate (C + 1) (.push []) ++ List.replicate C (.pop 4 0)) = some q ∧
      q.m_head ≠ q.m_tail ∧ q.m_fd.bytes = 0 := by
  have hinit := init_holds buffer (L := L) (by omega) C
  cases push_empties hL (C + 1) (k := 0) hinit (by omega) (Nat.zero_le _) with
  | intro q₁ h₁ =>
      have hholds : q₁.Holds L (List.replicate (C + 1) []) := by
        rw [← Nat.zero_add (C + 1)]
        exact h₁.2.1
      cases pop_empties hL C hholds with
      | intro q hq =>
          refine ⟨q, ?_, ?_, ?_⟩
          · rw [runSteps_append, h₁.1]
            exact hq.1
          · rw [ne_eq, hq.2.1.head_eq_tail]
            simp
          · rw [hq.2.2, h₁.2.2]
            simp [init]

end Lost

/-! ## Every run -/

/-- A queue without a buffer. -/
structure Bufferless (q : CNetQueue) : Prop where
  len : q.m_buffer_len = 0
  head : q.m_head = 0
  tail : q.m_tail = 0

theorem Bufferless.step {q q' : CNetQueue} (h : q.Bufferless) {c : QueueCall}
    (hstep : q.step c = some q') : q'.Bufferless := by
  cases c with
  | push data =>
      cases step_push.mp hstep with
      | intro ret hpush =>
          rcases push_cases hpush with ⟨-, -, rfl⟩ | ⟨p, m, hplan, -, -, -⟩
          · exact h
          · rw [h.len, h.head, h.tail, EnQueue.plan_no_buffer] at hplan
            cases hplan
  | pop buf_size data_len =>
      cases step_pop.mp hstep with
      | intro r hpop =>
          unfold Pop DeQueue at hpop
          rw [if_pos (h.head.trans h.tail.symm)] at hpop
          cases hpop
          exact ⟨h.len, h.head, h.tail⟩

/-- For every buffer and pipe: in every run in which no message is accepted while the pipe
is full, a queue that is not empty is readable.  This holds in every run exactly when the
buffer has no room for more messages than the pipe has for bytes. -/
theorem wakes_reader (buffer : Nat → UInt8) {L : Nat} (hL : L < 4294967296) (C : Nat) :
    (∀ calls q, (∀ c ∈ calls, c.Sized) → Allowed step RoomToNotify (init buffer L C) calls →
      runSteps step (init buffer L C) calls = some q → q.Notified) ∧
    ((∀ calls q, (∀ c ∈ calls, c.Sized) → runSteps step (init buffer L C) calls = some q →
      q.Notified) ↔ L ≤ 4 * C + 4) := by
  by_cases hzero : L = 0
  · subst hzero
    have hempty : ∀ calls q, runSteps step (init buffer 0 C) calls = some q → q.Notified := by
      intro calls q hrun
      have h := runSteps_preserves (fun _ _ _ h hstep => Bufferless.step h hstep) ⟨rfl, rfl, rfl⟩ hrun
      exact fun hne => absurd (h.head.trans h.tail.symm) hne
    exact ⟨fun calls q _ _ hrun => hempty calls q hrun,
      fun _ => Nat.zero_le _, fun _ calls q _ hrun => hempty calls q hrun⟩
  have hinit : Counted L C (init buffer L C) := init_counted buffer (by omega)
  constructor
  · intro calls q hsized hroom hrun
    exact (runSteps_invariant (fun _ _ _ h hg hstep => Counted.step hL h hg.1 hg.2 hstep) hinit
      (Allowed.and (allowed_of_forall hsized) hroom) hrun).notified
  constructor
  · intro hall
    by_cases hbig : 4 * C + 4 < L
    · cases byte_lost (C := C) hL hbig buffer with
      | intro q hq =>
          have hsized : ∀ c ∈ List.replicate (C + 1) (QueueCall.push []) ++
              List.replicate C (.pop 4 0), c.Sized := by
            intro c hc
            cases List.mem_append.mp hc with
            | inl hc =>
                rw [List.eq_of_mem_replicate hc]
                exact Nat.zero_lt_succ _
            | inr hc =>
                rw [List.eq_of_mem_replicate hc]
                trivial
          have hbyte := hall _ q hsized hq.1 hq.2.1
          omega
    · omega
  · intro hsmall calls q hsized hrun
    have hg : Allowed step (fun _ c => c.Sized) (init buffer L C) calls := allowed_of_forall hsized
    exact (runSteps_invariant
      (fun _ _ _ h hc hstep => Counted.step hL h hc (h.room hL hsmall hc hstep) hstep) hinit
      hg hrun).notified

/-- The buffer of the default size holds more empty messages than a pipe of 65536 bytes has
room for bytes. -/
theorem wakes_reader_default :
    (∀ calls q, (∀ c ∈ calls, c.Sized) →
      Allowed step RoomToNotify (init (fun _ => 0) 33554432 65536) calls →
      runSteps step (init (fun _ => 0) 33554432 65536) calls = some q → q.Notified) ∧
    ((∀ calls q, (∀ c ∈ calls, c.Sized) →
      runSteps step (init (fun _ => 0) 33554432 65536) calls = some q → q.Notified) ↔
        33554432 ≤ 4 * 65536 + 4) :=
  wakes_reader (fun _ => 0) (by decide) 65536

/-- 65537 empty messages and a `Pop` for each of the 65536 bytes of the pipe. -/
theorem wakeup_lost :
    ∃ q, runSteps step (init (fun _ => 0) 33554432 65536)
        (List.replicate 65537 (.push []) ++ List.replicate 65536 (.pop 4 0)) = some q ∧
      ¬ q.Notified := by
  cases byte_lost (L := 33554432) (C := 65536) (by decide) (by decide) (fun _ => 0) with
  | intro q hq =>
      refine ⟨q, hq.1, fun hnotified => ?_⟩
      have hbyte := hnotified hq.2.1
      rw [hq.2.2] at hbyte
      exact absurd hbyte (by decide)

end CNetQueue

end CommonCc
