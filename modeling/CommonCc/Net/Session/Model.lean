import CommonCc.Base
import CommonCc.Lib.Keyed
import CommonCc.Lib.Transition

/-!
# The session manager

`CSessionMgr` keeps the sessions that wait for an answer under their sequence numbers.
A session leaves by `Get` or when `CheckExpire` finds it too old.
-/

namespace CommonCc

/-- `TIME_DIFF_MS`, whose division drops the fraction. -/
def TIME_DIFF_MS (a b : TimeVal) : Int :=
  (a.tv_sec - b.tv_sec) * 1000 + (a.tv_usec - b.tv_usec).tdiv 1000

/-- The members of `CBaseSession` that the manager writes and reads. -/
structure CBaseSession where
  last_time : TimeVal
  gap : Nat
  msg_seq : Nat
deriving Repr, DecidableEq

/-- `mp_timer_info` are the pairs of the hash table, and `object` the members of each
session. -/
structure CSessionMgr (σ : Type) where
  mp_timer_info : List (Nat × σ)
  object : σ → CBaseSession

/-- The order in which a hash table is gone through: some order of its pairs. -/
def HashOrder (σ : Type) : Type :=
  { order : List (Nat × σ) → List (Nat × σ) // ∀ l, (order l).Perm l }

namespace CSessionMgr

variable {σ : Type} [DecidableEq σ]

/-- `_mp_timer_info.find(msg_seq)`. -/
def find (m : CSessionMgr σ) (msg_seq : Nat) : Option σ :=
  (m.mp_timer_info.find? fun e => e.1 = msg_seq).map Prod.snd

def erase (m : CSessionMgr σ) (msg_seq : Nat) : CSessionMgr σ :=
  { m with mp_timer_info := withoutKey Prod.fst msg_seq m.mp_timer_info }

/-- `Set` at the clock reading `now`.  The session is written before the table is
looked at. -/
def Set (m : CSessionMgr σ) (msg_seq : Nat) (timer_info : σ) (gap_ms : Nat) (now : TimeVal) :
    Int × CSessionMgr σ :=
  let m₁ := { m with object := Function.update m.object timer_info ⟨now, gap_ms, msg_seq⟩ }
  match m₁.find msg_seq with
  | none => (0, { m₁ with mp_timer_info := m₁.mp_timer_info ++ [(msg_seq, timer_info)] })
  | some _ => (-1, m₁)

def Get (m : CSessionMgr σ) (msg_seq : Nat) : (Int × Option σ) × CSessionMgr σ :=
  match m.find msg_seq with
  | none => ((-1, none), m)
  | some timer_info => ((0, some timer_info), m.erase msg_seq)

/-- The test of `CheckExpire` on one session. -/
def tooOld (m : CSessionMgr σ) (cur_time : TimeVal) (timer_info : σ) : Bool :=
  (m.object timer_info).gap < TIME_DIFF_MS cur_time (m.object timer_info).last_time

/-- The loop of `CheckExpire` over the pairs still to come.  It lists the sessions whose
`OnExpire` it calls, each with the answer of `GetDelete` after that, by which the session
is deleted or not. -/
def expireLoop (cur_time : TimeVal) (getDelete : σ → Bool) (m : CSessionMgr σ) :
    List (Nat × σ) → List (σ × Bool) × CSessionMgr σ
  | [] => ([], m)
  | (msg_seq, timer_info) :: rest =>
      if m.tooOld cur_time timer_info then
        let out := expireLoop cur_time getDelete (m.erase msg_seq) rest
        ((timer_info, getDelete timer_info) :: out.1, out.2)
      else expireLoop cur_time getDelete m rest

def CheckExpire (m : CSessionMgr σ) (cur_time : TimeVal) (order : HashOrder σ)
    (getDelete : σ → Bool) : List (σ × Bool) × CSessionMgr σ :=
  m.expireLoop cur_time getDelete (order.val m.mp_timer_info)

/-! ## Calls -/

inductive Call (σ : Type) where
  | set (msg_seq : Nat) (timer_info : σ) (gap_ms : Nat) (now : TimeVal)
  | get (msg_seq : Nat)
  | checkExpire (cur_time : TimeVal) (order : HashOrder σ) (getDelete : σ → Bool)

inductive Answer (σ : Type) where
  | set (ret : Int)
  | get (ret : Int) (timer_info : Option σ)
  | checkExpire (expired : List (σ × Bool))
deriving Repr, DecidableEq

def call (m : CSessionMgr σ) : Call σ → Answer σ × CSessionMgr σ
  | .set msg_seq timer_info gap_ms now =>
      let out := m.Set msg_seq timer_info gap_ms now
      (.set out.1, out.2)
  | .get msg_seq =>
      let out := m.Get msg_seq
      (.get out.1.1 out.1.2, out.2)
  | .checkExpire cur_time order getDelete =>
      let out := m.CheckExpire cur_time order getDelete
      (.checkExpire out.1, out.2)

/-- A manager without sessions, in a memory of any sessions. -/
def init (object : σ → CBaseSession) : CSessionMgr σ := ⟨[], object⟩

end CSessionMgr

end CommonCc
