import CommonCc.Lib.SortedMap
import CommonCc.Net.Client.Recv
import CommonCc.Net.Queue.Model

/-!
# Sending on connections

`OnQueue` takes one message off the send queue and appends its payload to the buffer
of the connection that its header names.  `OnSend` runs for each writable event of a
connection and hands the kernel what is still to be sent.
-/

namespace CommonCc

/-- `sizeof(send_header_t)`: two bytes of padding follow the port. -/
def sizeof_send_header : Nat := 8

structure SendHeader where
  ip : Nat
  port : Nat
deriving Repr, DecidableEq

def SendHeader.ofBytes (bs : Bytes) : SendHeader where
  ip := leValue (bs.take 4)
  port := leValue ((bs.drop 4).take 2)

/-! ## Interest in events -/

/-- The events that a registered descriptor waits for. -/
structure Interest where
  read : Bool
  write : Bool
deriving Repr, DecidableEq

/-- `EPOLL_CTL_ADD` fails on a registered descriptor. -/
def CEpoll.Add (events : Option Interest) (bRead bWrite : Bool) : Option Interest :=
  match events with
  | none => some ⟨bRead, bWrite⟩
  | some i => some i

/-- `EPOLL_CTL_MOD` fails on a descriptor that is not registered. -/
def CEpoll.Mod (events : Option Interest) (bRead bWrite : Bool) : Option Interest :=
  events.map fun _ => ⟨bRead, bWrite⟩

/-! ## State -/

/-- One connection as `OnQueue` and `OnSend` see it.  `events` is its entry in the epoll
set, and `sent` are the bytes that the kernel has taken from it. -/
structure ClientData where
  fd : Int
  send_buf : Memory UInt8
  send_len : Nat
  send_pos : Nat
  sock_status : Int
  events : Option Interest
  sent : Bytes

/-- The client.  `queue_buf` and `queue_len` are the send buffer of the entry of the
queue's own descriptor, into which messages are popped.  `accepted` are the messages
appended to a connection so far, which the code does not keep. -/
structure SendClient where
  queue_buf : Memory UInt8
  queue_len : Nat
  m_connects : List (Nat × ClientData)
  accepted : List (SendHeader × Bytes)
  connetct_num : Nat
  close_num : Nat
  send_num : Nat
  send_zero_num : Nat
  send_bytes : Nat

def SendClient.fresh (cfg : ClientConfig) (buffer : Nat → UInt8) : SendClient where
  queue_buf := ⟨cfg.m_max_pack_len, buffer⟩
  queue_len := 0
  m_connects := []
  accepted := []
  connetct_num := 0
  close_num := 0
  send_num := 0
  send_zero_num := 0
  send_bytes := 0

/-! ## Connect -/

def connect_key (ip port : Nat) : Nat := ip * 4294967296 + port

/-- `new client_data_t` for a descriptor, with its buffer from `new char[]`. -/
def ClientData.fresh (cfg : ClientConfig) (fd : Int) (buffer : Nat → UInt8) : ClientData where
  fd := fd
  send_buf := ⟨cfg.m_max_pack_len, buffer⟩
  send_len := 0
  send_pos := 0
  sock_status := 0
  events := none
  sent := []

/-- `fd` is what `init_client` returns if it is called. -/
def SendClient.Connect (cfg : ClientConfig) (c : SendClient) (ip port : Nat) (fd : Int)
    (buffer : Nat → UInt8) : SendClient × Option ClientData :=
  match findKey (connect_key ip port) c.m_connects with
  | some data => (c, some data)
  | none =>
      if fd < 0 then (c, none)
      else
        let data := ClientData.fresh cfg fd buffer
        ({ c with
            m_connects := insertOrAssign (connect_key ip port) data c.m_connects
            connetct_num := u32 (c.connetct_num + 1) }, some data)

/-! ## OnQueue -/

/-- The end of `OnQueue`: `n` bytes have been copied behind the `send_len` bytes of the
buffer, which is now `buf`. -/
def ClientData.extend (data : ClientData) (buf : Memory UInt8) (n : Nat) : ClientData :=
  let data₁ := { data with send_buf := buf, send_len := u32 (data.send_len + n) }
  if data₁.sock_status = 0 then
    { data₁ with events := CEpoll.Add data₁.events true true, sock_status := 1 }
  else { data₁ with events := CEpoll.Mod data₁.events true true }

/-- `OnQueue` once the connection `data` for the popped message is found. -/
def SendClient.append (cfg : ClientConfig) (c : SendClient) (header : SendHeader)
    (data : ClientData) (message : Bytes) : Except Fault SendClient :=
  if cfg.m_max_pack_len < u64Sub (u32 (data.send_len + c.queue_len)) sizeof_send_header then .ok c
  else do
    let n := u64Sub c.queue_len sizeof_send_header
    let payload ← checked (c.queue_buf.load sizeof_send_header n)
    let buf ← checked (data.send_buf.store data.send_len payload)
    return { c with
      m_connects := insertOrAssign (connect_key header.ip header.port) (data.extend buf n)
        c.m_connects
      accepted := c.accepted ++ [(header, message.drop sizeof_send_header)] }

/-- `OnQueue` behind the call of `Pop`, which returned `r`. -/
def SendClient.afterPop (cfg : ClientConfig) (c : SendClient) (r : PopResult) (fd : Int)
    (buffer : Nat → UInt8) : Except Fault SendClient := do
  let queue_buf ← checked (c.queue_buf.store 0 r.buf)
  let c₁ := { c with queue_buf := queue_buf, queue_len := r.data_len }
  if r.ret ≠ 0 then return c₁
  let header := SendHeader.ofBytes (← checked (queue_buf.load 0 sizeof_send_header))
  match c₁.Connect cfg header.ip header.port fd buffer with
  | (c₂, none) => return c₂
  | (c₂, some data) => c₂.append cfg header data r.buf

def SendClient.OnQueue (cfg : ClientConfig) (c : SendClient) (q : CNetQueue) (fd : Int)
    (buffer : Nat → UInt8) : Except Fault (SendClient × CNetQueue) := do
  let (r, q') ← q.Pop cfg.m_max_pack_len c.queue_len
  let c' ← c.afterPop cfg r fd buffer
  return (c', q')

/-! ## OnSend -/

/-- What `send` returns: a count of bytes taken, `EAGAIN` and its like, or another
error. -/
inductive SendResult where
  | sent (n : Nat)
  | again
  | failed
deriving Repr, DecidableEq

/-- `OnClose` drops every connection on the descriptor. -/
def SendClient.OnClose (c : SendClient) (data : ClientData) : SendClient :=
  { c with
    m_connects := c.m_connects.filter fun p => p.2.fd ≠ data.fd
    close_num := u32 (c.close_num + 1) }

/-- `OnSend` behind the call of `send`, which was given the bytes `pending`. -/
def SendClient.afterSend (c : SendClient) (key : Nat) (data : ClientData) (pending : Bytes) :
    SendResult → SendClient
  | .again => c
  | .failed => c.OnClose data
  | .sent 0 =>
      { c with
        m_connects := insertOrAssign key
          { data with events := CEpoll.Mod data.events true false } c.m_connects
        send_zero_num := 0 }
  | .sent (k + 1) =>
      let c₁ := { c with send_bytes := u64 (c.send_bytes + (k + 1)) }
      let data₁ := { data with
        send_pos := u32 (data.send_pos + (k + 1))
        sent := data.sent ++ pending.take (k + 1) }
      if data₁.send_len ≤ data₁.send_pos then
        { c₁ with
          m_connects := insertOrAssign key
            { data₁ with
              send_len := 0
              send_pos := 0
              events := CEpoll.Mod data₁.events true true } c₁.m_connects
          send_num := u32 (c₁.send_num + 1) }
      else { c₁ with m_connects := insertOrAssign key data₁ c₁.m_connects }

/-- `OnSend` on the connection `data`, which is registered under `key`. -/
def SendClient.OnSend (c : SendClient) (key : Nat) (data : ClientData) (r : SendResult) :
    Except Fault SendClient := do
  let pending ← checked
    (data.send_buf.load data.send_pos (u32Sub data.send_len data.send_pos))
  return c.afterSend key data pending r

/-! ## Events -/

/-- `OnQueue` with the queue as it is at that time, what `init_client` would return and
what a new buffer would hold, or `OnSend` on a connection with what `send` returns. -/
inductive SendEvent where
  | queue (q : CNetQueue) (fd : Int) (buffer : Nat → UInt8)
  | send (key : Nat) (r : SendResult)

def SendClient.step (cfg : ClientConfig) (c : SendClient) : SendEvent → Option SendClient
  | .queue q fd buffer => ((c.OnQueue cfg q fd buffer).toOption).map Prod.fst
  | .send key r =>
      match findKey key c.m_connects with
      | none => none
      | some data => (c.OnSend key data r).toOption

end CommonCc
