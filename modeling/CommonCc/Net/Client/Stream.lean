import CommonCc.Lib.Transition
import CommonCc.Net.Client.Send
import CommonCc.Net.Queue.Outcome

/-!
# The stream of a connection

What a connection has handed to the kernel, followed by what its buffer still holds, is
the stream of the payloads accepted for its address.
-/

namespace CommonCc

open Memory

/-- The values that the fields of a header can have. -/
structure SendHeader.Valid (h : SendHeader) : Prop where
  ip_lt : h.ip < 4294967296
  port_lt : h.port < 65536

theorem SendHeader.ofBytes_valid (bs : Bytes) : (SendHeader.ofBytes bs).Valid := by
  constructor
  · have hlt := leValue_lt (bs.take 4)
    have hpow : 256 ^ (bs.take 4).length ≤ 256 ^ 4 :=
      Nat.pow_le_pow_right (by omega) (by simp)
    exact Nat.lt_of_lt_of_le hlt hpow
  · have hlt := leValue_lt ((bs.drop 4).take 2)
    have hpow : 256 ^ ((bs.drop 4).take 2).length ≤ 256 ^ 2 :=
      Nat.pow_le_pow_right (by omega) (by simp)
    exact Nat.lt_of_lt_of_le hlt hpow

/-- Addresses do not share a connection. -/
theorem connect_key_inj {h h' : SendHeader} (hv : h.Valid) (hv' : h'.Valid)
    (heq : connect_key h.ip h.port = connect_key h'.ip h'.port) : h = h' := by
  have hp := hv.port_lt
  have hp' := hv'.port_lt
  cases h with
  | mk ip port =>
      cases h' with
      | mk ip' port' =>
          simp only [connect_key] at heq hp hp'
          have hip : ip = ip' := by omega
          have hport : port = port' := by omega
          rw [hip, hport]

/-- The payloads accepted for an address, one after another. -/
def acceptedFor (h : SendHeader) (msgs : List (SendHeader × Bytes)) : Bytes :=
  (msgs.filter fun m => m.1 = h).flatMap Prod.snd

theorem acceptedFor_append_self (h : SendHeader) (msgs : List (SendHeader × Bytes))
    (payload : Bytes) : acceptedFor h (msgs ++ [(h, payload)]) = acceptedFor h msgs ++ payload := by
  simp [acceptedFor]

theorem acceptedFor_append_of_ne {h h' : SendHeader} (hne : h' ≠ h)
    (msgs : List (SendHeader × Bytes)) (payload : Bytes) :
    acceptedFor h (msgs ++ [(h', payload)]) = acceptedFor h msgs := by
  simp [acceptedFor, hne]

/-! ## One connection -/

/-- What `send_buf[send_pos..send_len)` holds. -/
def ClientData.pending (data : ClientData) : Bytes :=
  data.send_buf.read data.send_pos (data.send_len - data.send_pos)

/-- The connection carries the stream `all`, in a buffer of `max` bytes. -/
structure ClientData.Carries (data : ClientData) (max : Nat) (all : Bytes) : Prop where
  size : data.send_buf.size = max
  pos_le : data.send_pos ≤ data.send_len
  len_le : data.send_len ≤ max
  stream : data.sent ++ data.pending = all
  registered : data.sock_status = 0 ↔ data.events = none
  armed : data.send_pos < data.send_len → data.events = some ⟨true, true⟩

theorem ClientData.fresh_carries (cfg : ClientConfig) (fd : Int) (buffer : Nat → UInt8) :
    (ClientData.fresh cfg fd buffer).Carries cfg.m_max_pack_len [] where
  size := rfl
  pos_le := Nat.le_refl 0
  len_le := Nat.zero_le _
  stream := rfl
  registered := by simp [ClientData.fresh]
  armed := fun h => absurd h (Nat.lt_irrefl 0)

section Connection

variable {data : ClientData} {max : Nat} {all : Bytes}

theorem ClientData.extend_events (h : data.sock_status = 0 ↔ data.events = none)
    (buf : Memory UInt8) (n : Nat) :
    (data.extend buf n).events = some ⟨true, true⟩ ∧ (data.extend buf n).sock_status ≠ 0 := by
  unfold ClientData.extend
  by_cases hs : data.sock_status = 0
  · simp [hs, h.mp hs, CEpoll.Add]
  · cases he : data.events with
    | none => exact absurd (h.mpr he) hs
    | some i => simp [hs, CEpoll.Mod]

theorem ClientData.extend_fields (data : ClientData) (buf : Memory UInt8) (n : Nat) :
    (data.extend buf n).send_buf = buf ∧ (data.extend buf n).send_len = u32 (data.send_len + n) ∧
      (data.extend buf n).send_pos = data.send_pos ∧ (data.extend buf n).sent = data.sent := by
  unfold ClientData.extend
  by_cases hs : data.sock_status = 0 <;> simp [hs]

/-- A payload that fits goes to the end of the stream. -/
theorem ClientData.Carries.extend (h : data.Carries max all) {payload : Bytes}
    (hmax : max < 4294967296) (hfit : data.send_len + payload.length ≤ max) :
    (data.extend (data.send_buf.write data.send_len payload) payload.length).Carries max
      (all ++ payload) := by
  have hpos := h.pos_le
  cases data.extend_events h.registered (data.send_buf.write data.send_len payload)
    payload.length with
  | intro hevents hstatus =>
      cases data.extend_fields (data.send_buf.write data.send_len payload) payload.length with
      | intro hbuf hfields =>
          have hlen := hfields.1
          have hsendpos := hfields.2.1
          rw [u32_of_lt (by omega)] at hlen
          have hpending : (data.extend (data.send_buf.write data.send_len payload)
              payload.length).pending = data.pending ++ payload := by
            unfold ClientData.pending
            rw [hbuf, hlen, hsendpos, show data.send_len + payload.length - data.send_pos =
              data.send_len - data.send_pos + payload.length by omega, read_append,
              show data.send_pos + (data.send_len - data.send_pos) = data.send_len by omega,
              read_write_self, read_write_disjoint _ (by omega)]
          constructor
          · rw [hbuf, write_size, h.size]
          · omega
          · omega
          · rw [hfields.2.2, hpending, ← List.append_assoc, h.stream]
          · rw [hevents]
            simp [hstatus]
          · exact fun _ => hevents

/-- What `send` may return when asked to take `n` bytes. -/
def SendResult.Regular (n : Nat) : SendResult → Prop
  | .sent k => k ≤ n ∧ (0 < n → 0 < k)
  | .again => True
  | .failed => False

/-- `send` takes a first part of what is pending. -/
theorem ClientData.take_pending (h : data.Carries max all) {k : Nat}
    (hk : k ≤ data.send_len - data.send_pos) :
    data.sent ++ (data.pending.take k ++
      data.send_buf.read (data.send_pos + k) (data.send_len - (data.send_pos + k))) = all := by
  have hpos := h.pos_le
  rw [← h.stream]
  unfold ClientData.pending
  rw [take_read _ _ hk, ← read_append]
  congr 2
  omega

theorem ClientData.Carries.mod (h : data.Carries max all) (bRead bWrite : Bool)
    (hw : data.send_pos < data.send_len → bRead = true ∧ bWrite = true) :
    ({ data with events := CEpoll.Mod data.events bRead bWrite }).Carries max all := by
  have hreg := h.registered
  constructor
  · exact h.size
  · exact h.pos_le
  · exact h.len_le
  · exact h.stream
  · rw [hreg]
    cases data.events <;> simp [CEpoll.Mod]
  · intro hlt
    rw [(hw hlt).1, (hw hlt).2, h.armed hlt]
    rfl

/-- The connection after `send` took `k` of the pending bytes. -/
def ClientData.taken (data : ClientData) (k : Nat) : ClientData :=
  { data with
    send_pos := u32 (data.send_pos + k)
    sent := data.sent ++ data.pending.take k }

/-- A partial send keeps the stream. -/
theorem ClientData.Carries.taken_more (h : data.Carries max all) (hmax : max < 4294967296)
    {k : Nat} (hk : data.send_pos + k < data.send_len) : (data.taken k).Carries max all := by
  have hlen := h.len_le
  have hpos : u32 (data.send_pos + k) = data.send_pos + k := u32_of_lt (by omega)
  have hstream := data.take_pending h (k := k) (by omega)
  constructor
  · exact h.size
  · simp only [taken, hpos]
    omega
  · exact h.len_le
  · rw [← hstream, ClientData.pending, taken, hpos, List.append_assoc]
  · exact h.registered
  · intro hlt
    exact h.armed (by omega)

/-- After the last byte the buffer starts over. -/
theorem ClientData.Carries.taken_all (h : data.Carries max all)
    {k : Nat} (hk : data.send_pos + k = data.send_len) :
    ({ data.taken k with
      send_len := 0
      send_pos := 0
      events := CEpoll.Mod data.events true true }).Carries max all := by
  have hpos := h.pos_le
  have hreg := h.registered
  have hstream := data.take_pending h (k := k) (by omega)
  rw [hk, Nat.sub_self, read_zero, List.append_nil] at hstream
  constructor
  · exact h.size
  · exact Nat.le_refl 0
  · exact Nat.zero_le _
  · rw [← hstream]
    exact List.append_nil _
  · refine hreg.trans ?_
    cases data.events <;> simp [CEpoll.Mod]
  · exact fun hlt => absurd hlt (Nat.lt_irrefl 0)

end Connection

/-! ## The client -/

/-- Every connection carries the stream of its address, and nothing was accepted for an
address without a connection. -/
structure SendClient.Streams (cfg : ClientConfig) (c : SendClient) : Prop where
  size : c.queue_buf.size = cfg.m_max_pack_len
  carries : ∀ h : SendHeader, h.Valid → ∀ data,
    findKey (connect_key h.ip h.port) c.m_connects = some data →
      data.Carries cfg.m_max_pack_len (acceptedFor h c.accepted)
  silent : ∀ h : SendHeader, h.Valid →
    findKey (connect_key h.ip h.port) c.m_connects = none → acceptedFor h c.accepted = []
  named : ∀ key data, findKey key c.m_connects = some data →
    ∃ h : SendHeader, h.Valid ∧ key = connect_key h.ip h.port

section Client

variable {cfg : ClientConfig} {c c' : SendClient}

theorem SendClient.fresh_streams (cfg : ClientConfig) (buffer : Nat → UInt8) :
    (SendClient.fresh cfg buffer).Streams cfg where
  size := rfl
  carries := fun _ _ _ hfind => by simp [SendClient.fresh] at hfind
  silent := fun _ _ _ => rfl
  named := fun _ _ hfind => by simp [SendClient.fresh] at hfind

/-- Giving one address a connection that carries its stream. -/
theorem SendClient.Streams.assign (hs : c.Streams cfg) {h : SendHeader} (hv : h.Valid)
    {data : ClientData} (hsize : c'.queue_buf.size = c.queue_buf.size)
    (hconnects : c'.m_connects = insertOrAssign (connect_key h.ip h.port) data c.m_connects)
    (hcarries : data.Carries cfg.m_max_pack_len (acceptedFor h c'.accepted))
    (hother : ∀ h', h ≠ h' → acceptedFor h' c'.accepted = acceptedFor h' c.accepted) :
    c'.Streams cfg := by
  constructor
  · rw [hsize, hs.size]
  · intro h' hv' d hd
    rw [hconnects, findKey_insertOrAssign] at hd
    by_cases hkey : connect_key h.ip h.port = connect_key h'.ip h'.port
    · rw [if_pos hkey] at hd
      cases hd
      cases connect_key_inj hv hv' hkey
      exact hcarries
    · rw [if_neg hkey] at hd
      rw [hother h' fun e => hkey (by rw [e])]
      exact hs.carries h' hv' d hd
  · intro h' hv' hnone
    rw [hconnects, findKey_insertOrAssign] at hnone
    by_cases hkey : connect_key h.ip h.port = connect_key h'.ip h'.port
    · rw [if_pos hkey] at hnone
      cases hnone
    · rw [if_neg hkey] at hnone
      rw [hother h' fun e => hkey (by rw [e])]
      exact hs.silent h' hv' hnone
  · intro k d hd
    rw [hconnects, findKey_insertOrAssign] at hd
    by_cases hkey : connect_key h.ip h.port = k
    · exact ⟨h, hv, hkey.symm⟩
    · rw [if_neg hkey] at hd
      exact hs.named k d hd

/-- Replacing one connection by another that carries the same stream. -/
theorem SendClient.Streams.replace (hs : c.Streams cfg) {key : Nat} {data data' : ClientData}
    (hfind : findKey key c.m_connects = some data) (hqueue : c'.queue_buf = c.queue_buf)
    (haccepted : c'.accepted = c.accepted)
    (hconnects : c'.m_connects = insertOrAssign key data' c.m_connects)
    (hkeep : ∀ all, data.Carries cfg.m_max_pack_len all →
      data'.Carries cfg.m_max_pack_len all) : c'.Streams cfg := by
  cases hs.named key data hfind with
  | intro h hh =>
      have hcarries := hkeep _ (hs.carries h hh.1 data (hh.2 ▸ hfind))
      exact hs.assign hh.1 (by rw [hqueue]) (hh.2 ▸ hconnects) (by rwa [haccepted])
        fun h' _ => by rw [haccepted]

theorem SendClient.OnSend_eq {data : ClientData} {max : Nat} {all : Bytes}
    (h : data.Carries max all) (hmax : max < 4294967296) (key : Nat) (r : SendResult) :
    c.OnSend key data r = .ok (c.afterSend key data data.pending r) := by
  have hlen := h.len_le
  have hpos := h.pos_le
  have hload : data.send_buf.load data.send_pos (u32Sub data.send_len data.send_pos) =
      some data.pending := by
    rw [u32Sub_of_le hpos (by omega)]
    exact load_eq_some _ (by rw [h.size]; omega)
  rw [OnSend, hload]
  rfl

/-- `OnSend` keeps the streams. -/
theorem SendClient.Streams.onSend (hs : c.Streams cfg) (hmax : cfg.m_max_pack_len < 4294967296)
    {key : Nat} {data : ClientData} {r : SendResult} (hfind : findKey key c.m_connects = some data)
    (hr : r.Regular (data.send_len - data.send_pos)) :
    ∃ c', c.OnSend key data r = .ok c' ∧ c'.Streams cfg := by
  cases hs.named key data hfind with
  | intro h hh =>
      have hc := hs.carries h hh.1 data (hh.2 ▸ hfind)
      have hlen := hc.len_le
      refine ⟨_, SendClient.OnSend_eq hc hmax key r, ?_⟩
      cases r with
      | again => exact hs
      | failed => exact hr.elim
      | sent k =>
          have hk : k ≤ data.send_len - data.send_pos ∧
            (0 < data.send_len - data.send_pos → 0 < k) := hr
          cases k with
          | zero =>
              have hnone : ¬ data.send_pos < data.send_len := fun hlt =>
                absurd (hk.2 (by omega)) (Nat.lt_irrefl 0)
              exact hs.replace hfind rfl rfl rfl fun all hall =>
                hall.mod true false fun hlt => absurd hlt hnone
          | succ k =>
              have hnew : u32 (data.send_pos + (k + 1)) = data.send_pos + (k + 1) :=
                u32_of_lt (by omega)
              dsimp only [SendClient.afterSend]
              by_cases hdone : data.send_len ≤ u32 (data.send_pos + (k + 1))
              · have hall : data.send_pos + (k + 1) = data.send_len := by omega
                rw [if_pos hdone]
                exact hs.replace hfind rfl rfl rfl fun all hcar => hcar.taken_all hall
              · rw [if_neg hdone]
                exact hs.replace hfind rfl rfl rfl fun all hcar =>
                  hcar.taken_more hmax (by omega)

/-- `Connect` opens at most a connection that has sent nothing. -/
theorem SendClient.Streams.connect (hs : c.Streams cfg) {h : SendHeader} (hv : h.Valid) (fd : Int)
    (buffer : Nat → UInt8) :
    (c.Connect cfg h.ip h.port fd buffer).1.Streams cfg ∧
      (c.Connect cfg h.ip h.port fd buffer).1.queue_len = c.queue_len ∧
      (c.Connect cfg h.ip h.port fd buffer).1.queue_buf = c.queue_buf ∧
      ∀ data, (c.Connect cfg h.ip h.port fd buffer).2 = some data →
        findKey (connect_key h.ip h.port)
          (c.Connect cfg h.ip h.port fd buffer).1.m_connects = some data := by
  unfold SendClient.Connect
  cases hfind : findKey (connect_key h.ip h.port) c.m_connects with
  | some data =>
      refine ⟨hs, rfl, rfl, fun d hd => ?_⟩
      cases hd
      exact hfind
  | none =>
      by_cases hfd : fd < 0
      · dsimp only
        rw [if_pos hfd]
        exact ⟨hs, rfl, rfl, fun d hd => by cases hd⟩
      · dsimp only
        rw [if_neg hfd]
        have hcarries := ClientData.fresh_carries cfg fd buffer
        rw [← hs.silent h hv hfind] at hcarries
        refine ⟨hs.assign hv rfl rfl hcarries fun _ _ => rfl, rfl, rfl, fun d hd => ?_⟩
        cases hd
        rw [findKey_insertOrAssign, if_pos rfl]

/-- A message for the connection `data` is appended whole or dropped. -/
theorem SendClient.Streams.append (hs : c.Streams cfg) (hmax : cfg.m_max_pack_len < 2147483648)
    {h : SendHeader} (hv : h.Valid) {data : ClientData} {message : Bytes}
    (hfind : findKey (connect_key h.ip h.port) c.m_connects = some data)
    (hlen : c.queue_len = message.length) (h8 : 8 ≤ message.length)
    (hle : message.length ≤ cfg.m_max_pack_len)
    (hread : c.queue_buf.read 0 message.length = message) :
    ∃ c', c.append cfg h data message = .ok c' ∧ c'.Streams cfg := by
  have hc := hs.carries h hv data hfind
  have hdata := hc.len_le
  have hsum : u64Sub (u32 (data.send_len + c.queue_len)) sizeof_send_header =
      data.send_len + (message.length - 8) := by
    rw [u32_of_lt (by omega), sizeof_send_header, u64Sub_of_le (by omega) (by omega)]
    omega
  have hcount : u64Sub c.queue_len sizeof_send_header = message.length - 8 := by
    rw [hlen]
    exact u64Sub_of_le h8 (by omega)
  unfold SendClient.append
  rw [hsum, hcount]
  by_cases hfull : cfg.m_max_pack_len < data.send_len + (message.length - 8)
  · rw [if_pos hfull]
    exact ⟨c, rfl, hs⟩
  have hdrop : (message.drop 8).length = message.length - 8 := List.length_drop
  have hload : c.queue_buf.load sizeof_send_header (message.length - 8) =
      some (message.drop 8) := by
    have hsize := hs.size
    rw [load_eq_some _ (by rw [sizeof_send_header]; omega), ← hread, drop_read _ _ (by simpa),
      Nat.zero_add, read_length]
    rfl
  have hstore : data.send_buf.store data.send_len (message.drop 8) =
      some (data.send_buf.write data.send_len (message.drop 8)) :=
    store_eq_some _ (by rw [hc.size]; omega)
  have hfit : data.send_len + (message.drop 8).length ≤ cfg.m_max_pack_len := by omega
  have hext := hc.extend (by omega) hfit
  rw [hdrop] at hext
  rw [if_neg hfull]
  dsimp only
  rw [hload]
  dsimp only [checked_some, bind, Except.bind]
  rw [hstore]
  refine ⟨_, rfl, hs.assign hv rfl rfl ?_ fun h' hne => acceptedFor_append_of_ne hne _ _⟩
  rw [acceptedFor_append_self]
  exact hext

/-- A message is accepted whole or dropped whole, by the room left in the buffer. -/
theorem SendClient.append_whole {h : SendHeader} {data : ClientData} {message : Bytes}
    (happend : c.append cfg h data message = .ok c') :
    c'.accepted =
      if cfg.m_max_pack_len < u64Sub (u32 (data.send_len + c.queue_len)) sizeof_send_header then
        c.accepted
      else c.accepted ++ [(h, message.drop sizeof_send_header)] := by
  unfold SendClient.append at happend
  by_cases hfull : cfg.m_max_pack_len <
      u64Sub (u32 (data.send_len + c.queue_len)) sizeof_send_header
  · rw [if_pos hfull] at happend ⊢
    cases happend
    rfl
  · rw [if_neg hfull] at happend ⊢
    dsimp only at happend
    cases hload : c.queue_buf.load sizeof_send_header (u64Sub c.queue_len sizeof_send_header) with
    | none =>
        rw [hload] at happend
        cases happend
    | some payload =>
        rw [hload] at happend
        dsimp only [checked_some, bind, Except.bind] at happend
        cases hstore : data.send_buf.store data.send_len payload with
        | none =>
            rw [hstore] at happend
            cases happend
        | some buf =>
            rw [hstore] at happend
            cases happend
            rfl

/-- What `Pop` into a buffer of `max` bytes may return, when a popped message holds a
header. -/
structure PopResult.Regular (r : PopResult) (max : Nat) : Prop where
  buf_le : r.buf.length ≤ max
  len : r.ret = 0 → r.data_len = r.buf.length
  header : r.ret = 0 → sizeof_send_header ≤ r.data_len

/-- `OnQueue` keeps the streams. -/
theorem SendClient.Streams.afterPop (hs : c.Streams cfg) (hmax : cfg.m_max_pack_len < 2147483648)
    {r : PopResult} (hr : r.Regular cfg.m_max_pack_len) (fd : Int) (buffer : Nat → UInt8) :
    ∃ c', c.afterPop cfg r fd buffer = .ok c' ∧ c'.Streams cfg := by
  have hsize := hs.size
  have hle := hr.buf_le
  have hstore : c.queue_buf.store 0 r.buf = some (c.queue_buf.write 0 r.buf) :=
    store_eq_some _ (by omega)
  let c₁ : SendClient := { c with queue_buf := c.queue_buf.write 0 r.buf, queue_len := r.data_len }
  have hs₁ : c₁.Streams cfg := ⟨hs.size, hs.carries, hs.silent, hs.named⟩
  unfold SendClient.afterPop
  rw [hstore]
  dsimp only [checked_some, bind, Except.bind]
  by_cases hret : r.ret ≠ 0
  · rw [if_pos hret]
    exact ⟨c₁, rfl, hs₁⟩
  rw [ne_eq, not_not] at hret
  have h8 : 8 ≤ r.buf.length := hr.len hret ▸ hr.header hret
  have hread : c₁.queue_buf.read 0 r.buf.length = r.buf := read_write_self ..
  have hload : (c.queue_buf.write 0 r.buf).load 0 sizeof_send_header = some (r.buf.take 8) := by
    rw [load_eq_some _ (by rw [write_size, sizeof_send_header]; omega)]
    have htake := take_read c₁.queue_buf 0 h8
    rw [hread] at htake
    rw [htake]
    rfl
  rw [if_neg (by simp [hret]), hload]
  dsimp only [checked_some]
  have hv := SendHeader.ofBytes_valid (r.buf.take 8)
  have hconn := hs₁.connect hv fd buffer
  cases hcon : c₁.Connect cfg (SendHeader.ofBytes (r.buf.take 8)).ip
      (SendHeader.ofBytes (r.buf.take 8)).port fd buffer with
  | mk c₂ found =>
      rw [hcon] at hconn
      cases found with
      | none => exact ⟨c₂, rfl, hconn.1⟩
      | some data =>
          exact hconn.1.append hmax hv (hconn.2.2.2 data rfl) (hconn.2.1.trans (hr.len hret)) h8 hle
            (by rw [hconn.2.2.1]; exact hread)

end Client

/-! ## Every run -/

/-- A popped message fits the buffer, and its length is the one reported. -/
theorem CNetQueue.pop_sizes {q q' : CNetQueue} {L max data_len : Nat} {msgs : List Bytes}
    {r : PopResult} (h : q.Holds L msgs) (hL : L < 4294967296)
    (hpop : q.Pop max data_len = .ok (r, q')) :
    r.buf.length ≤ max ∧ (r.ret = 0 → r.data_len = r.buf.length) := by
  have hr := (CNetQueue.pop_completed h hL hpop).1
  unfold Fifo.pop at hr
  cases msgs with
  | nil =>
      rw [hr]
      exact ⟨Nat.zero_le _, fun h0 => by simp at h0⟩
  | cons m rest =>
      dsimp only at hr
      split at hr
      · rw [hr]
        exact ⟨Nat.zero_le _, fun h0 => by simp at h0⟩
      split at hr
      · rw [hr]
        exact ⟨Nat.zero_le _, fun h0 => by simp at h0⟩
      · rw [hr]
        refine ⟨?_, fun _ => rfl⟩
        dsimp only
        omega

theorem CNetQueue.pop_regular {q q' : CNetQueue} {L max data_len : Nat} {msgs : List Bytes}
    {r : PopResult} (h : q.Holds L msgs) (hL : L < 4294967296)
    (hpop : q.Pop max data_len = .ok (r, q'))
    (hheader : r.ret = 0 → sizeof_send_header ≤ r.data_len) : r.Regular max :=
  ⟨(CNetQueue.pop_sizes h hL hpop).1, (CNetQueue.pop_sizes h hL hpop).2, hheader⟩

/-- The events of a run: `OnQueue` finds a queue of whole messages, and a message that it
pops holds a header.  `OnSend` is called on an open connection, and `send` takes a part of
what is pending, not nothing, or has to be called again. -/
def SendEvent.Regular (cfg : ClientConfig) (c : SendClient) : SendEvent → Prop
  | .queue q _ _ => ∃ msgs r q', q.m_buffer_len < 4294967296 ∧ q.Holds q.m_buffer_len msgs ∧
      q.Pop cfg.m_max_pack_len c.queue_len = .ok (r, q') ∧
      (r.ret = 0 → sizeof_send_header ≤ r.data_len)
  | .send key r => ∃ data, findKey key c.m_connects = some data ∧
      r.Regular (data.send_len - data.send_pos)

theorem SendClient.Streams.step {cfg : ClientConfig} (hmax : cfg.m_max_pack_len < 2147483648)
    {c : SendClient} {e : SendEvent} (hs : c.Streams cfg) (he : e.Regular cfg c) :
    ∃ c', c.step cfg e = some c' ∧ c'.Streams cfg := by
  cases e with
  | queue q fd buffer =>
      obtain ⟨msgs, r, q', hL, hq, hpop, hheader⟩ := he
      obtain ⟨c', hc', hs'⟩ := hs.afterPop hmax (CNetQueue.pop_regular hq hL hpop hheader) fd buffer
      have hqueue : c.OnQueue cfg q fd buffer = .ok (c', q') := by
        unfold SendClient.OnQueue
        rw [hpop]
        dsimp only [bind, Except.bind]
        rw [hc']
        rfl
      exact ⟨c', by rw [SendClient.step, hqueue]; rfl, hs'⟩
  | send key r =>
      obtain ⟨data, hfind, hr⟩ := he
      obtain ⟨c', hc', hs'⟩ := hs.onSend (by omega) hfind hr
      exact ⟨c', by rw [SendClient.step, hfind]; dsimp only; rw [hc']; rfl, hs'⟩

/-- In every run of `OnQueue` and `OnSend`, at any time and on every connection, the bytes
given to the kernel and the pending bytes are the payloads accepted for its address, and
pending bytes wait for a writable event. -/
theorem SendClient.stream_exact (protocol : Int) (buffer : Nat → UInt8) {events : List SendEvent}
    (hev : Allowed (SendClient.step (ClientConfig.make protocol))
      (SendEvent.Regular (ClientConfig.make protocol))
      (SendClient.fresh (ClientConfig.make protocol) buffer) events) :
    ∃ c, runSteps (SendClient.step (ClientConfig.make protocol))
        (SendClient.fresh (ClientConfig.make protocol) buffer) events = some c ∧
      ∀ ip port data, ip < 4294967296 → port < 65536 →
        findKey (connect_key ip port) c.m_connects = some data →
        data.send_pos ≤ data.send_len ∧
        data.send_len ≤ (ClientConfig.make protocol).m_max_pack_len ∧
        data.sent ++ data.send_buf.read data.send_pos (data.send_len - data.send_pos) =
          acceptedFor ⟨ip, port⟩ c.accepted ∧
        (data.send_pos < data.send_len → data.events = some ⟨true, true⟩) := by
  have hmax : (ClientConfig.make protocol).m_max_pack_len < 2147483648 := by
    show 1024 * 1024 * 32 < 2147483648
    omega
  obtain ⟨c, hrun, hs⟩ := runSteps_total (fun c e hs he => hs.step hmax he)
    (SendClient.fresh_streams (ClientConfig.make protocol) buffer) hev
  refine ⟨c, hrun, fun ip port data hip hport hfind => ?_⟩
  have hc := hs.carries ⟨ip, port⟩ ⟨hip, hport⟩ data hfind
  exact ⟨hc.pos_le, hc.len_le, hc.stream, hc.armed⟩

/-- A message with two bytes of payload, of which the kernel takes one. -/
theorem SendClient.stream_exact_two :
    ∃ q c, runSteps (SendClient.step (ClientConfig.make PROTOCOL_LONGCONN))
        (SendClient.fresh (ClientConfig.make PROTOCOL_LONGCONN) (fun _ => 0))
        [.queue q 3 (fun _ => 0), .send (connect_key 1 2) (.sent 1)] = some c ∧
      ∀ ip port data, ip < 4294967296 → port < 65536 →
        findKey (connect_key ip port) c.m_connects = some data →
        data.send_pos ≤ data.send_len ∧
        data.send_len ≤ (ClientConfig.make PROTOCOL_LONGCONN).m_max_pack_len ∧
        data.sent ++ data.send_buf.read data.send_pos (data.send_len - data.send_pos) =
          acceptedFor ⟨ip, port⟩ c.accepted ∧
        (data.send_pos < data.send_len → data.events = some ⟨true, true⟩) := by
  let cfg := ClientConfig.make PROTOCOL_LONGCONN
  let message : Bytes := [1, 0, 0, 0, 2, 0, 0, 0, 7, 8]
  have hempty := CNetQueue.init_holds (fun _ => 0) (L := 64) (by decide) 1
  have hroom : Fifo.load [] + (message.length + 4) < 64 := by decide
  obtain ⟨q, -, hq⟩ := CNetQueue.push_accepts hempty (by decide) hroom
  obtain ⟨q', hpop, -⟩ := CNetQueue.pop_oldest hq (by decide) cfg.m_max_pack_len 0
  have hanswer : (Fifo.pop [message] cfg.m_max_pack_len 0).1 = ⟨0, 10, message⟩ := by decide
  have hafter : (((SendClient.fresh cfg (fun _ => 0)).afterPop cfg ⟨0, 10, message⟩ 3
      (fun _ => 0)).toOption.bind fun c => (findKey (connect_key 1 2) c.m_connects).map
        fun data => (data.send_len, data.send_pos)) = some (2, 0) := by decide +kernel
  rw [hanswer] at hpop
  obtain ⟨c₁, hc₁, hfound⟩ := Option.bind_eq_some_iff.mp hafter
  obtain ⟨data, hfind, hdata⟩ := Option.map_eq_some_iff.mp hfound
  obtain ⟨hlen, hpos⟩ := Prod.mk.inj hdata
  have hqueue : (SendClient.fresh cfg (fun _ => 0)).OnQueue cfg q 3 (fun _ => 0) =
      .ok (c₁, q') := by
    unfold SendClient.OnQueue
    rw [show (SendClient.fresh cfg (fun _ => 0)).queue_len = 0 from rfl, hpop]
    dsimp only [bind, Except.bind]
    rw [ok_of_toOption hc₁]
    rfl
  have hstep : (SendClient.fresh cfg (fun _ => 0)).step cfg (.queue q 3 (fun _ => 0)) =
      some c₁ := by
    rw [SendClient.step, hqueue]
    rfl
  refine ⟨q, SendClient.stream_exact PROTOCOL_LONGCONN (fun _ => 0) ⟨?_, ?_⟩⟩
  · exact ⟨[message], ⟨0, 10, message⟩, q', by rw [hq.len]; decide, by rw [hq.len]; exact hq,
      hpop, fun _ => by decide⟩
  · rw [hstep]
    refine ⟨⟨data, hfind, ?_⟩, ?_⟩
    · rw [hlen, hpos]
      exact ⟨by decide, fun _ => by decide⟩
    · split <;> trivial

end CommonCc
