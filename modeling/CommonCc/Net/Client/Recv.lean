import CommonCc.Net.Check

/-!
# Receiving on a connection

`OnRecv` runs once for each readable event of a connection: one `recv` behind the
bytes already buffered, one completeness check, at most one packet passed on.
-/

namespace CommonCc

def PROTOCOL_HTTP : Int := 1

def PROTOCOL_LONGCONN : Int := 2

/-- The members of `CNetClient` that a readable event looks at. -/
structure ClientConfig where
  m_protocol : Int
  m_use_keepalive : Int
  /-- `m_recv_queue != NULL` -/
  m_recv_queue : Bool
  m_max_pack_len : Nat

/-- The constructor with a receive queue, after `SetProtocol`. -/
def ClientConfig.make (protocol : Int) : ClientConfig where
  m_protocol := protocol
  m_use_keepalive := 1
  m_recv_queue := true
  m_max_pack_len := 1024 * 1024 * 32

/-- One connection as `OnRecv` sees it.  `pushed` are the packets given to
`m_recv_queue->Push` so far, whose result `OnRecv` only logs; `closed` is set by
`OnClose`, after which the connection is gone. -/
structure RecvState where
  recv_buf : Memory UInt8
  recv_len : Nat
  pushed : List Bytes
  closed : Bool
  recv_bytes : Nat
  recv_num : Nat
  recv_zero_num : Nat
  close_num : Nat

/-- What `recv` returns: bytes (none at the end of the stream), `EAGAIN` and its
like, or another error. -/
inductive RecvResult where
  | bytes (chunk : Bytes)
  | again
  | failed
deriving Repr, DecidableEq

def RecvState.onClose (s : RecvState) : RecvState :=
  { s with closed := true, close_num := u32 (s.close_num + 1) }

/-- The part of `OnRecv` behind the completeness check, with its result `ret`. -/
def RecvState.deliver (cfg : ClientConfig) (s : RecvState) (ret : Int) : RecvState :=
  if 0 < ret then
    let n := ret.toNat
    let s₁ :=
      if ret < toInt s.recv_len then
        { s with
          pushed := s.pushed ++ [s.recv_buf.read 0 n]
          -- the two areas may overlap; the copy is taken to be that of `memmove`
          recv_buf := s.recv_buf.write 0 (s.recv_buf.read n (s.recv_len - n))
          recv_len := s.recv_len - n }
      else if ret = toInt s.recv_len then
        { s with
          pushed := s.pushed ++ [s.recv_buf.read 0 s.recv_len]
          recv_len := 0 }
      else s
    let s₂ := { s₁ with recv_num := u32 (s₁.recv_num + 1) }
    if cfg.m_protocol = PROTOCOL_HTTP ∧ cfg.m_use_keepalive = 0 then s₂.onClose else s₂
  else s

/-- The length of the packet at the start of the buffer, by the protocol in use. -/
def completeLen (cfg : ClientConfig) (s : RecvState) (ret : Nat) : Except Fault Int :=
  if cfg.m_protocol = PROTOCOL_HTTP then net_complete_http s.recv_buf s.recv_len
  else if cfg.m_protocol = PROTOCOL_LONGCONN then .ok (net_complete_longconn s.recv_buf s.recv_len)
  else .ok (toInt ret)

def OnRecv (cfg : ClientConfig) (s : RecvState) (r : RecvResult) : Except Fault RecvState :=
  match r with
  | .again => .ok s
  | .failed => .ok s.onClose
  | .bytes [] => .ok { s with recv_zero_num := u32 (s.recv_zero_num + 1) }.onClose
  | .bytes (c :: cs) =>
      let chunk := c :: cs
      match s.recv_buf.store s.recv_len chunk with
      | none => .error .outOfBounds
      | some buf =>
          let s₁ := { s with
            recv_buf := buf
            recv_len := u32 (s.recv_len + chunk.length)
            recv_bytes := (s.recv_bytes + chunk.length) % 18446744073709551616 }
          if cfg.m_recv_queue then
            match completeLen cfg s₁ chunk.length with
            | .error e => .error e
            | .ok ret => .ok (s₁.deliver cfg ret)
          else .ok { s₁ with recv_len := 0 }

/-- A connection that has just been opened.  Its buffer comes from `new char[]`. -/
def RecvState.fresh (cfg : ClientConfig) (buffer : Nat → UInt8) : RecvState where
  recv_buf := ⟨cfg.m_max_pack_len, buffer⟩
  recv_len := 0
  pushed := []
  closed := false
  recv_bytes := 0
  recv_num := 0
  recv_zero_num := 0
  close_num := 0

end CommonCc
