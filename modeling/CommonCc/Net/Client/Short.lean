import CommonCc.Net.Client.Stream

/-!
# Messages shorter than their header

`OnQueue` tests whether a payload fits by an unsigned subtraction of the size of the
header.  For a message shorter than the header the outcome depends on what is pending on
the connection.
-/

namespace CommonCc

open Memory

namespace SendClient

/-- No connection lost bytes, and a message of `len` bytes that is shorter than a header
left the buffers of all connections alone. -/
def Intact (c c' : SendClient) (len : Nat) : Prop :=
  ∀ key data, findKey key c.m_connects = some data →
    ∃ data', findKey key c'.m_connects = some data' ∧ data.send_len ≤ data'.send_len ∧
      (len < sizeof_send_header → data'.send_buf = data.send_buf ∧ data'.send_len = data.send_len)

/-- The header that `OnQueue` reads after `Pop` has stored `bytes`. -/
def poppedHeader (c : SendClient) (bytes : Bytes) : SendHeader :=
  SendHeader.ofBytes ((c.queue_buf.write 0 bytes).read 0 sizeof_send_header)

/-- The client after `Pop` has stored a result in the queue's entry. -/
def popped (c : SendClient) (r : PopResult) : SendClient :=
  { c with queue_buf := c.queue_buf.write 0 r.buf, queue_len := r.data_len }

/-! ## The sizes of a reachable client -/

/-- All buffers have their size, and what is pending lies in them. -/
structure Sized (cfg : ClientConfig) (c : SendClient) : Prop where
  queue : c.queue_buf.size = cfg.m_max_pack_len
  buf : ∀ p ∈ c.m_connects, p.2.send_buf.size = cfg.m_max_pack_len
  len_le : ∀ p ∈ c.m_connects, p.2.send_len ≤ cfg.m_max_pack_len
  pos_le : ∀ p ∈ c.m_connects, p.2.send_pos ≤ p.2.send_len

section Sizes

variable {cfg : ClientConfig} {c c' : SendClient} {data : ClientData}

theorem Sized.fresh (cfg : ClientConfig) (buffer : Nat → UInt8) :
    (SendClient.fresh cfg buffer).Sized cfg where
  queue := rfl
  buf := fun _ hp => absurd hp List.not_mem_nil
  len_le := fun _ hp => absurd hp List.not_mem_nil
  pos_le := fun _ hp => absurd hp List.not_mem_nil

/-- Giving one address a connection with a buffer of the right size. -/
theorem Sized.assign (h : c.Sized cfg) {key : Nat}
    (hconnects : c'.m_connects = insertOrAssign key data c.m_connects)
    (hqueue : c'.queue_buf.size = c.queue_buf.size)
    (hbuf : data.send_buf.size = cfg.m_max_pack_len) (hlen : data.send_len ≤ cfg.m_max_pack_len)
    (hpos : data.send_pos ≤ data.send_len) : c'.Sized cfg := by
  have hmem : ∀ p ∈ c'.m_connects, p = (key, data) ∨ p ∈ c.m_connects := fun p hp =>
    mem_insertOrAssign (hconnects ▸ hp)
  constructor
  · rw [hqueue, h.queue]
  · intro p hp
    cases hmem p hp with
    | inl hnew => rw [hnew]; exact hbuf
    | inr hold => exact h.buf p hold
  · intro p hp
    cases hmem p hp with
    | inl hnew => rw [hnew]; exact hlen
    | inr hold => exact h.len_le p hold
  · intro p hp
    cases hmem p hp with
    | inl hnew => rw [hnew]; exact hpos
    | inr hold => exact h.pos_le p hold

theorem Sized.popped (h : c.Sized cfg) (r : PopResult) : (c.popped r).Sized cfg :=
  ⟨by rw [SendClient.popped, write_size, h.queue], h.buf, h.len_le, h.pos_le⟩

theorem Sized.onClose (h : c.Sized cfg) (data : ClientData) : (c.OnClose data).Sized cfg where
  queue := h.queue
  buf := fun p hp => h.buf p (List.mem_filter.mp hp).1
  len_le := fun p hp => h.len_le p (List.mem_filter.mp hp).1
  pos_le := fun p hp => h.pos_le p (List.mem_filter.mp hp).1

/-- `Connect` leaves the open connections alone and opens at most one with an empty
buffer. -/
theorem Sized.connect (h : c.Sized cfg) (ip port : Nat) (fd : Int) (buffer : Nat → UInt8) :
    (c.Connect cfg ip port fd buffer).1.Sized cfg ∧
      (c.Connect cfg ip port fd buffer).1.queue_len = c.queue_len ∧
      (c.Connect cfg ip port fd buffer).1.queue_buf = c.queue_buf ∧
      (∀ key d, findKey key c.m_connects = some d →
        findKey key (c.Connect cfg ip port fd buffer).1.m_connects = some d) ∧
      ∀ d, (c.Connect cfg ip port fd buffer).2 = some d →
        findKey (connect_key ip port) (c.Connect cfg ip port fd buffer).1.m_connects = some d ∧
          (findKey (connect_key ip port) c.m_connects = none → d.send_len = 0) := by
  unfold SendClient.Connect
  cases hfind : findKey (connect_key ip port) c.m_connects with
  | some old =>
      refine ⟨h, rfl, rfl, fun _ _ hd => hd, fun d hd => ?_⟩
      cases hd
      exact ⟨hfind, fun hnone => by cases hnone⟩
  | none =>
      by_cases hfd : fd < 0
      · dsimp only
        rw [if_pos hfd]
        exact ⟨h, rfl, rfl, fun _ _ hd => hd, fun d hd => by cases hd⟩
      · dsimp only
        rw [if_neg hfd]
        refine ⟨h.assign rfl rfl rfl (Nat.zero_le _) (Nat.le_refl 0), rfl, rfl, ?_, ?_⟩
        · intro key d hd
          rw [findKey_insertOrAssign, if_neg fun heq => ?_]
          · exact hd
          · rw [← heq, hfind] at hd
            cases hd
        · intro d hd
          cases hd
          exact ⟨by rw [findKey_insertOrAssign, if_pos rfl], fun _ => rfl⟩

end Sizes

/-! ## One popped message -/

section Append

variable {cfg : ClientConfig} {c : SendClient} {data : ClientData}

/-- A short message for a connection with little pending: the difference wraps and nothing
is copied. -/
theorem append_short_wraps (hmax : cfg.m_max_pack_len < 2147483648) (header : SendHeader)
    (message : Bytes) (hsum : data.send_len + c.queue_len < sizeof_send_header) :
    c.append cfg header data message = .ok c := by
  have h8 : data.send_len + c.queue_len < 8 := hsum
  have hwrap : cfg.m_max_pack_len <
      u64Sub (u32 (data.send_len + c.queue_len)) sizeof_send_header := by
    rw [u32_of_lt (by omega), u64Sub, sizeof_send_header]
    omega
  exact if_pos hwrap

/-- A short message for a connection with more pending passes the test, and the length of
the copy wraps instead. -/
theorem append_short_faults (hmax : cfg.m_max_pack_len < 2147483648)
    (hqueue : c.queue_buf.size = cfg.m_max_pack_len) (hdata : data.send_len ≤ cfg.m_max_pack_len)
    (header : SendHeader) (message : Bytes) (hshort : c.queue_len < sizeof_send_header)
    (hsum : ¬ data.send_len + c.queue_len < sizeof_send_header) :
    c.append cfg header data message = .error .outOfBounds := by
  have h8 : c.queue_len < 8 := hshort
  have hle : 8 ≤ data.send_len + c.queue_len := Nat.le_of_not_lt hsum
  have hpass : ¬ cfg.m_max_pack_len <
      u64Sub (u32 (data.send_len + c.queue_len)) sizeof_send_header := by
    rw [u32_of_lt (by omega), sizeof_send_header, u64Sub_of_le hle (by omega)]
    omega
  have hload : c.queue_buf.load sizeof_send_header
      (u64Sub c.queue_len sizeof_send_header) = none := by
    refine if_neg ?_
    rw [hqueue, u64Sub, sizeof_send_header]
    omega
  rw [append, if_neg hpass]
  dsimp only
  rw [hload]
  rfl

/-- A message with a header is dropped or copied behind what is pending. -/
theorem append_header (hmax : cfg.m_max_pack_len < 2147483648)
    (hqueue : c.queue_buf.size = cfg.m_max_pack_len)
    (hbuf : data.send_buf.size = cfg.m_max_pack_len)
    (hdata : data.send_len ≤ cfg.m_max_pack_len) (header : SendHeader) (message : Bytes)
    (h8 : 8 ≤ c.queue_len) (hlen : c.queue_len ≤ cfg.m_max_pack_len) :
    c.append cfg header data message = .ok c ∨
      ∃ payload, payload.length = c.queue_len - 8 ∧
        data.send_len + payload.length ≤ cfg.m_max_pack_len ∧
        c.append cfg header data message = .ok { c with
          m_connects := insertOrAssign (connect_key header.ip header.port)
            (data.extend (data.send_buf.write data.send_len payload) payload.length) c.m_connects
          accepted := c.accepted ++ [(header, message.drop sizeof_send_header)] } := by
  have hcount : u64Sub c.queue_len sizeof_send_header = c.queue_len - 8 :=
    u64Sub_of_le h8 (by omega)
  have hsum : u64Sub (u32 (data.send_len + c.queue_len)) sizeof_send_header =
      data.send_len + (c.queue_len - 8) := by
    rw [u32_of_lt (by omega), sizeof_send_header, u64Sub_of_le (by omega) (by omega)]
    omega
  by_cases hfull : cfg.m_max_pack_len < data.send_len + (c.queue_len - 8)
  · exact .inl (if_pos (hsum ▸ hfull))
  · right
    have hlength : (c.queue_buf.read 8 (c.queue_len - 8)).length = c.queue_len - 8 :=
      read_length ..
    have hload : c.queue_buf.load sizeof_send_header (c.queue_len - 8) =
        some (c.queue_buf.read 8 (c.queue_len - 8)) :=
      load_eq_some _ (by rw [sizeof_send_header]; omega)
    have hstore : data.send_buf.store data.send_len (c.queue_buf.read 8 (c.queue_len - 8)) =
        some (data.send_buf.write data.send_len (c.queue_buf.read 8 (c.queue_len - 8))) :=
      store_eq_some _ (by omega)
    refine ⟨c.queue_buf.read 8 (c.queue_len - 8), hlength, by omega, ?_⟩
    rw [append, hsum, hcount, if_neg hfull]
    dsimp only
    rw [hload]
    dsimp only [checked_some, bind, Except.bind]
    rw [hstore, hlength]
    rfl

/-- `append` completes if and only if the message has a header or little is pending. -/
theorem Sized.append_iff (h : c.Sized cfg) (hmax : cfg.m_max_pack_len < 2147483648)
    {header : SendHeader}
    (hfind : findKey (connect_key header.ip header.port) c.m_connects = some data)
    (message : Bytes) (hlen : c.queue_len ≤ cfg.m_max_pack_len) :
    (∃ c', c.append cfg header data message = .ok c') ↔
      (c.queue_len < sizeof_send_header → data.send_len + c.queue_len < sizeof_send_header) := by
  have hbuf : data.send_buf.size = cfg.m_max_pack_len := h.buf _ (mem_of_findKey hfind)
  have hdata : data.send_len ≤ cfg.m_max_pack_len := h.len_le _ (mem_of_findKey hfind)
  by_cases hshort : c.queue_len < sizeof_send_header
  · by_cases hsum : data.send_len + c.queue_len < sizeof_send_header
    · exact iff_of_true ⟨c, append_short_wraps hmax header message hsum⟩ fun _ => hsum
    · refine iff_of_false (fun hok => ?_) fun himp => hsum (himp hshort)
      cases hok with
      | intro c' hc' =>
          rw [append_short_faults hmax h.queue hdata header message hshort hsum] at hc'
          cases hc'
  · refine iff_of_true ?_ fun hlt => absurd hlt hshort
    cases append_header hmax h.queue hbuf hdata header message (Nat.le_of_not_lt hshort) hlen with
    | inl hdropped => exact ⟨c, hdropped⟩
    | inr hcopied => exact hcopied.elim fun payload hpayload => ⟨_, hpayload.2.2⟩

/-- A completed `append` keeps the sizes and the pending bytes of every connection. -/
theorem Sized.append_ok (h : c.Sized cfg) (hmax : cfg.m_max_pack_len < 2147483648)
    {header : SendHeader}
    (hfind : findKey (connect_key header.ip header.port) c.m_connects = some data)
    {message : Bytes} (hlen : c.queue_len ≤ cfg.m_max_pack_len) {c' : SendClient}
    (hok : c.append cfg header data message = .ok c') :
    c'.Sized cfg ∧ c.Intact c' c.queue_len := by
  have hbuf : data.send_buf.size = cfg.m_max_pack_len := h.buf _ (mem_of_findKey hfind)
  have hdata : data.send_len ≤ cfg.m_max_pack_len := h.len_le _ (mem_of_findKey hfind)
  have hpos : data.send_pos ≤ data.send_len := h.pos_le _ (mem_of_findKey hfind)
  have hself : c.Sized cfg ∧ c.Intact c c.queue_len :=
    ⟨h, fun _ d hd => ⟨d, hd, Nat.le_refl _, fun _ => ⟨rfl, rfl⟩⟩⟩
  by_cases hshort : c.queue_len < sizeof_send_header
  · have hsum := (h.append_iff hmax hfind message hlen).mp ⟨c', hok⟩ hshort
    rw [append_short_wraps hmax header message hsum] at hok
    cases hok
    exact hself
  · cases append_header hmax h.queue hbuf hdata header message (Nat.le_of_not_lt hshort) hlen with
    | inl hdropped =>
        rw [hdropped] at hok
        cases hok
        exact hself
    | inr hcopied =>
        obtain ⟨payload, -, hfit, heq⟩ := hcopied
        obtain ⟨hb, hl, hp, -⟩ := data.extend_fields
          (data.send_buf.write data.send_len payload) payload.length
        rw [u32_of_lt (by omega)] at hl
        rw [heq] at hok
        cases hok
        constructor
        · exact h.assign rfl rfl (by rw [hb, write_size, hbuf]) (by rw [hl]; exact hfit)
            (by rw [hp, hl]; exact Nat.le_add_right_of_le hpos)
        · intro key d hd
          rw [findKey_insertOrAssign]
          by_cases hkey : connect_key header.ip header.port = key
          · have hsame : data = d := Option.some.inj (hfind.symm.trans (hkey ▸ hd))
            rw [if_pos hkey]
            refine ⟨_, rfl, ?_, fun hlt => absurd hlt hshort⟩
            rw [hl, hsame]
            exact Nat.le_add_right _ _
          · rw [if_neg hkey]
            exact ⟨d, hd, Nat.le_refl _, fun hlt => absurd hlt hshort⟩

end Append

/-! ## OnQueue and OnSend -/

section Calls

variable {cfg : ClientConfig} {c c' : SendClient} {r : PopResult}

theorem afterPop_failed (hr : c.queue_buf.store 0 r.buf = some (c.queue_buf.write 0 r.buf))
    (hret : r.ret ≠ 0) (fd : Int) (buffer : Nat → UInt8) :
    c.afterPop cfg r fd buffer = .ok (c.popped r) := by
  unfold SendClient.afterPop
  rw [hr]
  dsimp only [checked_some, bind, Except.bind]
  rw [if_pos hret]
  rfl

/-- `OnQueue` behind a `Pop` that returned a message. -/
theorem afterPop_message (hr : c.queue_buf.store 0 r.buf = some (c.queue_buf.write 0 r.buf))
    (h8 : sizeof_send_header ≤ c.queue_buf.size) (hret : r.ret = 0) {fd : Int}
    {buffer : Nat → UInt8} {c₂ : SendClient} {found : Option ClientData}
    (hcon : (c.popped r).Connect cfg (c.poppedHeader r.buf).ip (c.poppedHeader r.buf).port fd
      buffer = (c₂, found)) :
    c.afterPop cfg r fd buffer =
      found.elim (.ok c₂) fun data => c₂.append cfg (c.poppedHeader r.buf) data r.buf := by
  have hload : (c.queue_buf.write 0 r.buf).load 0 sizeof_send_header =
      some ((c.queue_buf.write 0 r.buf).read 0 sizeof_send_header) :=
    load_eq_some _ (by rw [write_size, Nat.zero_add]; exact h8)
  unfold popped poppedHeader at hcon
  unfold SendClient.afterPop poppedHeader
  rw [hr]
  dsimp only [checked_some, bind, Except.bind]
  rw [if_neg (by rw [hret]; decide), hload]
  dsimp only [checked_some]
  rw [hcon]
  cases found with
  | none => rfl
  | some data => rw [Option.elim_some]

/-- The sizes and the pending bytes survive `OnQueue`. -/
theorem Sized.afterPop_ok (h : c.Sized cfg) (h8 : sizeof_send_header ≤ cfg.m_max_pack_len)
    (hmax : cfg.m_max_pack_len < 2147483648) (hr : r.buf.length ≤ cfg.m_max_pack_len)
    (hlen : r.ret = 0 → r.data_len = r.buf.length) {fd : Int} {buffer : Nat → UInt8}
    (hok : c.afterPop cfg r fd buffer = .ok c') : c'.Sized cfg ∧ c.Intact c' r.data_len := by
  have hstore : c.queue_buf.store 0 r.buf = some (c.queue_buf.write 0 r.buf) :=
    store_eq_some _ (by rw [h.queue]; omega)
  by_cases hret : r.ret = 0
  · have hconnect := (h.popped r).connect (c.poppedHeader r.buf).ip (c.poppedHeader r.buf).port fd
      buffer
    cases hcon : (c.popped r).Connect cfg (c.poppedHeader r.buf).ip (c.poppedHeader r.buf).port fd
      buffer with
    | mk c₂ found =>
        rw [hcon] at hconnect
        obtain ⟨hsized, hqlen, -, hkept, hfound⟩ := hconnect
        rw [afterPop_message hstore (h.queue ▸ h8) hret hcon] at hok
        cases found with
        | none =>
            cases hok
            exact ⟨hsized, fun key d hd => ⟨d, hkept key d hd, Nat.le_refl _, fun _ => ⟨rfl, rfl⟩⟩⟩
        | some data =>
            have hcount : c₂.queue_len = r.data_len := hqlen
            rw [Option.elim_some] at hok
            have happend := hsized.append_ok hmax (hfound data rfl).1
              (by rw [hcount, hlen hret]; exact hr) hok
            rw [hcount] at happend
            exact ⟨happend.1, fun key d hd => happend.2 key d (hkept key d hd)⟩
  · rw [afterPop_failed hstore hret] at hok
    cases hok
    exact ⟨h.popped r, fun _ d hd => ⟨d, hd, Nat.le_refl _, fun _ => ⟨rfl, rfl⟩⟩⟩

/-- `OnQueue` completes if and only if the message has a header or little is pending on the
connection that it names. -/
theorem Sized.afterPop_iff (h : c.Sized cfg) (h8 : sizeof_send_header ≤ cfg.m_max_pack_len)
    (hmax : cfg.m_max_pack_len < 2147483648) (hr : r.buf.length ≤ cfg.m_max_pack_len)
    (hlen : r.data_len = r.buf.length) (hret : r.ret = 0) (fd : Int) (buffer : Nat → UInt8) :
    (∃ c', c.afterPop cfg r fd buffer = .ok c') ↔
      (r.data_len < sizeof_send_header → ∀ data,
        findKey (connect_key (c.poppedHeader r.buf).ip (c.poppedHeader r.buf).port)
            c.m_connects = some data →
          data.send_len + r.data_len < sizeof_send_header) := by
  have hstore : c.queue_buf.store 0 r.buf = some (c.queue_buf.write 0 r.buf) :=
    store_eq_some _ (by rw [h.queue]; omega)
  have hconnect := (h.popped r).connect (c.poppedHeader r.buf).ip (c.poppedHeader r.buf).port fd
    buffer
  cases hcon : (c.popped r).Connect cfg (c.poppedHeader r.buf).ip (c.poppedHeader r.buf).port fd
    buffer with
  | mk c₂ found =>
      rw [hcon] at hconnect
      obtain ⟨hsized, hqlen, -, hkept, hfound⟩ := hconnect
      rw [afterPop_message hstore (h.queue ▸ h8) hret hcon]
      cases found with
      | none =>
          refine iff_of_true ⟨c₂, rfl⟩ fun _ data hold => ?_
          have hlookup : findKey (connect_key (c.poppedHeader r.buf).ip (c.poppedHeader r.buf).port)
              (c.popped r).m_connects = some data := hold
          rw [SendClient.Connect, hlookup] at hcon
          cases hcon
      | some data =>
          have hcount : c₂.queue_len = r.data_len := hqlen
          rw [Option.elim_some, hsized.append_iff hmax (hfound data rfl).1 r.buf
            (by rw [hcount, hlen]; exact hr), hcount]
          constructor
          · intro himp hshort d hd
            have hsame := (hfound data rfl).1.symm.trans (hkept _ d hd)
            cases hsame
            exact himp hshort
          · intro himp hshort
            cases hold : findKey (connect_key (c.poppedHeader r.buf).ip
                (c.poppedHeader r.buf).port) c.m_connects with
            | none =>
                rw [(hfound data rfl).2 hold, Nat.zero_add]
                exact hshort
            | some d =>
                have hsame := (hfound data rfl).1.symm.trans (hkept _ d hold)
                cases hsame
                exact himp hshort data hold

/-- A count returned by `send` is at most what it was asked to take. -/
def AtMost (n : Nat) : SendResult → Prop
  | .sent k => k ≤ n
  | .again => True
  | .failed => True

theorem Sized.onSend (h : c.Sized cfg) (hmax : cfg.m_max_pack_len < 2147483648) {key : Nat}
    {data : ClientData} (hfind : findKey key c.m_connects = some data) {r : SendResult}
    (hr : AtMost (data.send_len - data.send_pos) r) (hok : c.OnSend key data r = .ok c') :
    c'.Sized cfg := by
  have hbuf : data.send_buf.size = cfg.m_max_pack_len := h.buf _ (mem_of_findKey hfind)
  have hdata : data.send_len ≤ cfg.m_max_pack_len := h.len_le _ (mem_of_findKey hfind)
  have hpos : data.send_pos ≤ data.send_len := h.pos_le _ (mem_of_findKey hfind)
  have hload : data.send_buf.load data.send_pos (u32Sub data.send_len data.send_pos) =
      some (data.send_buf.read data.send_pos (data.send_len - data.send_pos)) := by
    rw [u32Sub_of_le hpos (by omega)]
    exact load_eq_some _ (by omega)
  rw [OnSend, hload] at hok
  cases hok
  cases r with
  | again => exact h
  | failed => exact h.onClose data
  | sent k =>
      have hk : k ≤ data.send_len - data.send_pos := hr
      cases k with
      | zero => exact h.assign rfl rfl hbuf hdata hpos
      | succ k =>
          have hnew : u32 (data.send_pos + (k + 1)) = data.send_pos + (k + 1) :=
            u32_of_lt (by omega)
          dsimp only [SendClient.afterSend]
          split
          · exact h.assign rfl rfl hbuf (Nat.zero_le _) (Nat.le_refl 0)
          · refine h.assign rfl rfl hbuf hdata ?_
            dsimp only
            omega

end Calls

/-! ## Every reachable state -/

/-- What the queue and the kernel can do to a client: the queue holds whole messages of any
lengths, and `send` takes no more than it is given. -/
def Possible (c : SendClient) : SendEvent → Prop
  | .queue q _ _ => q.m_buffer_len < 4294967296 ∧ ∃ msgs, q.Holds q.m_buffer_len msgs
  | .send key r => ∀ data, findKey key c.m_connects = some data →
      AtMost (data.send_len - data.send_pos) r

theorem OnQueue_of_pop {cfg : ClientConfig} {c : SendClient} {q q' : CNetQueue} {r : PopResult}
    (hpop : q.Pop cfg.m_max_pack_len c.queue_len = .ok (r, q')) (fd : Int)
    (buffer : Nat → UInt8) :
    c.OnQueue cfg q fd buffer = (c.afterPop cfg r fd buffer).map fun c' => (c', q') := by
  unfold SendClient.OnQueue
  rw [hpop]
  dsimp only [bind, Except.bind]
  cases c.afterPop cfg r fd buffer <;> rfl

theorem Sized.step {cfg : ClientConfig} (h8 : sizeof_send_header ≤ cfg.m_max_pack_len)
    (hmax : cfg.m_max_pack_len < 2147483648) {c c' : SendClient} {e : SendEvent}
    (h : c.Sized cfg) (he : Possible c e) (hstep : c.step cfg e = some c') : c'.Sized cfg := by
  cases e with
  | queue q fd buffer =>
      obtain ⟨hL, msgs, hq⟩ := he
      rw [SendClient.step] at hstep
      cases hpop : q.Pop cfg.m_max_pack_len c.queue_len with
      | error e =>
          rw [OnQueue, hpop] at hstep
          cases hstep
      | ok out =>
          obtain ⟨r, q'⟩ := out
          have hsizes := CNetQueue.pop_sizes hq hL hpop
          rw [OnQueue_of_pop hpop] at hstep
          cases hafter : c.afterPop cfg r fd buffer with
          | error e =>
              rw [hafter] at hstep
              cases hstep
          | ok c₁ =>
              rw [hafter] at hstep
              cases hstep
              exact (h.afterPop_ok h8 hmax hsizes.1 hsizes.2 hafter).1
  | send key r =>
      rw [SendClient.step] at hstep
      cases hfind : findKey key c.m_connects with
      | none =>
          rw [hfind] at hstep
          cases hstep
      | some data =>
          rw [hfind] at hstep
          exact h.onSend hmax hfind (he data hfind) (ok_of_toOption hstep)

end SendClient

end CommonCc
