import Mathlib.Logic.Function.Basic
import CommonCc.Lib.Transition

/-!
# The blocking queue

`CQueueT` guards a queue by a mutex and counts its nodes and its free places with two
semaphores.  Each semaphore call, each mutex call and each operation on the queue is a
step of its own, and the steps of the threads interleave in any order.
-/

namespace CommonCc

namespace CQueueT

/-- The next step of a thread.  A thread outside both functions is `idle`. -/
inductive Place (T : Type) where
  | idle
  | waitEmpty (node : T)
  | lockPush (node : T)
  | push (node : T)
  | postExist
  | unlockPush
  | waitExist
  | lockPop
  | front
  | pop (node : T)
  | postEmpty
  | unlockPop
deriving Repr, DecidableEq

/-- `pushed` and `popped` are the nodes that went into the queue and those that callers
have got out of it, in the order of these operations. -/
structure State (ι T : Type) where
  m_queue : List T
  m_semExist : Nat
  m_semEmpty : Nat
  m_mtxQue : Option ι
  place : ι → Place T
  pushed : List T
  popped : List T

variable {ι T : Type} [DecidableEq ι]

def Init (ι T : Type) (udwMaxNodeNum : Nat) : State ι T where
  m_queue := []
  m_semExist := 0
  m_semEmpty := udwMaxNodeNum
  m_mtxQue := none
  place := fun _ => .idle
  pushed := []
  popped := []

/-- What a scheduled thread does.  An idle thread enters a function; a waiting thread may be
woken by a signal and wait again; otherwise the thread takes its next step. -/
inductive Act (T : Type) where
  | callPush (node : T)
  | callPop
  | signal
  | next
deriving Repr, DecidableEq

def State.goto (s : State ι T) (t : ι) (p : Place T) : State ι T :=
  { s with place := Function.update s.place t p }

/-- The next step of thread `t`.  A thread that must wait has none; neither has one that
asks an empty queue for its front. -/
def State.next (s : State ι T) (t : ι) : Option (State ι T) :=
  match s.place t with
  | .idle => none
  | .waitEmpty node =>
      if 0 < s.m_semEmpty then
        some ({ s with m_semEmpty := s.m_semEmpty - 1 }.goto t (.lockPush node))
      else none
  | .lockPush node =>
      if s.m_mtxQue = none then some ({ s with m_mtxQue := some t }.goto t (.push node)) else none
  | .push node =>
      some ({ s with m_queue := s.m_queue ++ [node], pushed := s.pushed ++ [node] }.goto t
        .postExist)
  | .postExist => some ({ s with m_semExist := s.m_semExist + 1 }.goto t .unlockPush)
  | .unlockPush => some ({ s with m_mtxQue := none }.goto t .idle)
  | .waitExist =>
      if 0 < s.m_semExist then
        some ({ s with m_semExist := s.m_semExist - 1 }.goto t .lockPop)
      else none
  | .lockPop =>
      if s.m_mtxQue = none then some ({ s with m_mtxQue := some t }.goto t .front) else none
  | .front =>
      match s.m_queue with
      | [] => none
      | node :: _ => some (s.goto t (.pop node))
  | .pop node =>
      match s.m_queue with
      | [] => none
      | _ :: rest =>
          some ({ s with m_queue := rest, popped := s.popped ++ [node] }.goto t .postEmpty)
  | .postEmpty => some ({ s with m_semEmpty := s.m_semEmpty + 1 }.goto t .unlockPop)
  | .unlockPop => some ({ s with m_mtxQue := none }.goto t .idle)

def step (s : State ι T) : ι × Act T → Option (State ι T)
  | (t, .callPush node) =>
      if s.place t matches .idle then some (s.goto t (.waitEmpty node)) else none
  | (t, .callPop) => if s.place t matches .idle then some (s.goto t .waitExist) else none
  | (t, .signal) =>
      match s.place t with
      | .waitEmpty _ | .waitExist => some s
      | _ => none
  | (t, .next) => s.next t

end CQueueT

end CommonCc
