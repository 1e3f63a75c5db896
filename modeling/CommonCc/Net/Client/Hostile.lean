import CommonCc.Net.Client.Framing

/-!
# A peer that sends anything

Whatever the bytes of the stream are, `OnRecv` passes on packets that declare their own
length as long as no frame declares less than the four bytes of its header.
-/

namespace CommonCc

namespace LongConn

/-- A packet of at least four bytes that starts with its own length. -/
structure IsPacket (p : Bytes) : Prop where
  four_le : 4 ≤ p.length
  header : p.take 4 = (u32Bytes p.length).reverse

/-- The length that the first four bytes of a buffer declare. -/
def declaredLen (data : Memory UInt8) : Nat := ntohl (leValue (data.read 0 4))

/-- The check does not wait for more when the declared length has been received. -/
def NotWaiting (s : RecvState) : Prop :=
  4 ≤ s.recv_len → declaredLen s.recv_buf ≤ s.recv_len →
    net_complete_longconn s.recv_buf s.recv_len ≠ 0

/-- A declared length counts its own four bytes. -/
def DeclaresFour (s : RecvState) : Prop := 4 ≤ s.recv_len → 4 ≤ declaredLen s.recv_buf

instance (s : RecvState) : Decidable (DeclaresFour s) :=
  inferInstanceAs (Decidable (4 ≤ _ → _))

/-! ## One check -/

section Check

variable {s : RecvState} {pushed : List Bytes} {unread : Bytes}

theorem declaredLen_header (data : Memory UInt8) :
    data.read 0 4 = (u32Bytes (declaredLen data)).reverse := by
  have hfour : (data.read 0 4).length = 4 := Memory.read_length data 0 4
  have hrev : (data.read 0 4).reverse.length = 4 := by rw [List.length_reverse, hfour]
  rw [declaredLen, ntohl, u32Bytes_leValue hfour, u32Bytes_leValue hrev, List.reverse_reverse]

theorem check_short {data : Memory UInt8} {n : Nat} (h : n < 4) :
    net_complete_longconn data n = 0 :=
  if_pos h

theorem check_oversize {data : Memory UInt8} {n : Nat} (h : 4 ≤ n)
    (hmax : PKT_MAX_LEN < declaredLen data) : net_complete_longconn data n = -1 := by
  rw [net_complete_longconn, if_neg (Nat.not_lt.mpr h)]
  exact if_pos hmax

theorem check_waits {data : Memory UInt8} {n : Nat} (h : 4 ≤ n)
    (hmax : ¬ PKT_MAX_LEN < declaredLen data) (hlen : n < declaredLen data) :
    net_complete_longconn data n = 0 := by
  rw [net_complete_longconn, if_neg (Nat.not_lt.mpr h)]
  dsimp only
  rw [← declaredLen, if_neg hmax, if_pos hlen]

theorem check_complete {data : Memory UInt8} {n : Nat} (h : 4 ≤ n)
    (hmax : ¬ PKT_MAX_LEN < declaredLen data) (hlen : ¬ n < declaredLen data) :
    net_complete_longconn data n = declaredLen data := by
  have hle : ¬ 33554432 < declaredLen data := hmax
  rw [net_complete_longconn, if_neg (Nat.not_lt.mpr h)]
  dsimp only
  rw [← declaredLen, if_neg hmax, if_neg hlen, toInt_of_mem (by omega) (by omega)]

theorem deliver_nothing {ret : Int} (h : ret ≤ 0) : s.deliver config ret = s :=
  if_neg (Int.not_lt.mpr h)

/-- What is passed on is a packet if and only if it covers its header. -/
theorem isPacket_take (h : Buffers s pushed unread) (hfour : 4 ≤ s.recv_len)
    (hlen : declaredLen s.recv_buf ≤ s.recv_len) :
    IsPacket (unread.take (declaredLen s.recv_buf)) ↔ 4 ≤ declaredLen s.recv_buf := by
  have hlength : (unread.take (declaredLen s.recv_buf)).length = declaredLen s.recv_buf := by
    rw [List.length_take, ← h.len, Nat.min_eq_left hlen]
  constructor
  · intro hp
    have hle := hp.four_le
    rwa [hlength] at hle
  · intro hle
    constructor
    · rwa [hlength]
    · rw [hlength, List.take_take, Nat.min_eq_left hle, ← h.bytes, Memory.take_read _ _ hfour]
      exact declaredLen_header s.recv_buf

/-- What has been declared is passed on when it is there. -/
theorem deliver_declared (h : Buffers s pushed unread) (hpos : 0 < declaredLen s.recv_buf)
    (hlen : declaredLen s.recv_buf ≤ s.recv_len) :
    Buffers (s.deliver config (declaredLen s.recv_buf))
      (pushed ++ [unread.take (declaredLen s.recv_buf)])
      (unread.drop (declaredLen s.recv_buf)) := by
  have hlength : (unread.take (declaredLen s.recv_buf)).length = declaredLen s.recv_buf := by
    rw [List.length_take, ← h.len, Nat.min_eq_left hlen]
  have hsplit : Buffers s pushed (unread.take (declaredLen s.recv_buf) ++
      unread.drop (declaredLen s.recv_buf)) := by
    rwa [List.take_append_drop]
  have hdeliver := deliver_frame hsplit (by rwa [hlength])
  rwa [hlength] at hdeliver

/-- One check passes on a packet or nothing, and does what it should if and only if a length
of four or more is declared. -/
theorem deliver_sound_iff (h : Buffers s pushed unread) :
    ∃ passed rest, Buffers (s.deliver config (net_complete_longconn s.recv_buf s.recv_len))
        (pushed ++ passed) rest ∧
      ((NotWaiting s ∧ ∀ p ∈ passed, IsPacket p) ↔ DeclaresFour s) := by
  have hnone : Buffers s (pushed ++ []) unread := by rwa [List.append_nil]
  have hempty : ∀ p ∈ ([] : List Bytes), IsPacket p := fun p hp => absurd hp List.not_mem_nil
  by_cases hfour : 4 ≤ s.recv_len
  · by_cases hmax : PKT_MAX_LEN < declaredLen s.recv_buf
    · have hcheck := check_oversize hfour hmax
      refine ⟨[], unread, ?_, ?_⟩
      · rw [hcheck, deliver_nothing (by decide)]
        exact hnone
      · have hbig : 33554432 < declaredLen s.recv_buf := hmax
        refine iff_of_true ⟨fun _ _ => ?_, hempty⟩ fun _ => by omega
        rw [hcheck]
        decide
    by_cases hlen : s.recv_len < declaredLen s.recv_buf
    · refine ⟨[], unread, ?_, ?_⟩
      · rw [check_waits hfour hmax hlen, deliver_zero]
        exact hnone
      · refine iff_of_true ⟨fun _ hle => ?_, hempty⟩ fun _ => by omega
        exact absurd hlen (Nat.not_lt.mpr hle)
    have hcheck := check_complete hfour hmax hlen
    have hle := Nat.le_of_not_lt hlen
    by_cases hzero : declaredLen s.recv_buf = 0
    · -- a length of zero looks like a frame that is not complete
      rw [hzero] at hcheck
      refine ⟨[], unread, ?_, ?_⟩
      · rw [hcheck]
        exact deliver_zero.symm ▸ hnone
      · refine iff_of_false (fun hsound => hsound.1 hfour hle hcheck) fun hdeclares => ?_
        have := hdeclares hfour
        omega
    · have hdeliver := deliver_declared h (Nat.pos_of_ne_zero hzero) hle
      refine ⟨[unread.take (declaredLen s.recv_buf)], unread.drop (declaredLen s.recv_buf), ?_, ?_⟩
      · rw [hcheck]
        exact hdeliver
      · have hpacket := isPacket_take h hfour hle
        constructor
        · exact fun hsound _ => hpacket.mp (hsound.2 _ (List.mem_singleton.mpr rfl))
        · intro hdeclares
          constructor
          · intro _ _
            rw [hcheck]
            omega
          · intro p hp
            rw [List.mem_singleton.mp hp]
            exact hpacket.mpr (hdeclares hfour)
  · refine ⟨[], unread, ?_, ?_⟩
    · rw [check_short (Nat.lt_of_not_le hfour), deliver_zero]
      exact hnone
    · exact iff_of_true ⟨fun hle => absurd hle hfour, hempty⟩ fun hle => absurd hle hfour

end Check

/-! ## Whole runs -/

theorem runSteps_sound_iff (chunks : List Bytes) {s : RecvState} {pushed : List Bytes}
    {unread : Bytes} (h : Buffers s pushed unread) (hc : Allowed recvStep Receivable s chunks) :
    ∃ s' passed, runSteps recvStep s chunks = some s' ∧ s'.pushed = pushed ++ passed ∧
      ((Allowed recvStep (fun s chunk => NotWaiting (received s chunk)) s chunks ∧
          ∀ p ∈ passed, IsPacket p) ↔
        Allowed recvStep (fun s chunk => DeclaresFour (received s chunk)) s chunks) := by
  induction chunks generalizing s pushed unread with
  | nil =>
      refine ⟨s, [], rfl, ?_, ?_⟩
      · rw [List.append_nil]
        exact h.pushed
      · exact iff_of_true ⟨trivial, fun p hp => absurd hp List.not_mem_nil⟩ trivial
  | cons c cs ih =>
      have hr := received_buffers h hc.1
      have hstep := recvStep_eq h hc.1
      rw [← hr.len] at hstep
      obtain ⟨passed, rest, hbuf, hsound⟩ := deliver_sound_iff hr
      have hrest := (allowed_cons hstep).mp hc
      obtain ⟨s', later, hrun, hpushed, hlater⟩ := ih hbuf hrest.2
      refine ⟨s', passed ++ later, ?_, ?_, ?_⟩
      · rw [runSteps_cons hstep, hrun]
      · rw [hpushed, List.append_assoc]
      · rw [allowed_cons hstep, allowed_cons hstep, ← hlater, ← hsound]
        constructor
        · rintro ⟨⟨hnow, hthen⟩, hall⟩
          exact ⟨⟨hnow, fun p hp => hall p (List.mem_append_left later hp)⟩,
            hthen, fun p hp => hall p (List.mem_append_right passed hp)⟩
        · rintro ⟨⟨hnow, hall⟩, hthen, hall'⟩
          refine ⟨⟨hnow, hthen⟩, fun p hp => ?_⟩
          cases List.mem_append.mp hp with
          | inl hmem => exact hall p hmem
          | inr hmem => exact hall' p hmem

/-- Over every stream and every segmentation of it, all packets passed on declare their own
length and no complete frame is waited for if and only if every frame the check looks at
declares at least four bytes. -/
theorem packets_sound_iff (buffer : Nat → UInt8) {chunks : List Bytes}
    (hc : Allowed recvStep Receivable (RecvState.fresh config buffer) chunks) :
    ∃ s, runSteps recvStep (RecvState.fresh config buffer) chunks = some s ∧
      ((Allowed recvStep (fun s chunk => NotWaiting (received s chunk))
            (RecvState.fresh config buffer) chunks ∧ ∀ p ∈ s.pushed, IsPacket p) ↔
        Allowed recvStep (fun s chunk => DeclaresFour (received s chunk))
          (RecvState.fresh config buffer) chunks) := by
  obtain ⟨s, passed, hrun, hpushed, hsound⟩ := runSteps_sound_iff chunks (fresh_buffers buffer) hc
  rw [List.nil_append] at hpushed
  refine ⟨s, hrun, ?_⟩
  rw [hpushed]
  exact hsound

theorem packets_sound_iff_two :
    ∃ s, runSteps recvStep (RecvState.fresh config (fun _ => 0)) [[0, 0, 0], [5, 9, 2, 0, 0, 0]] =
        some s ∧ ∀ p ∈ s.pushed, IsPacket p := by
  cases @packets_sound_iff (fun _ => 0) [[0, 0, 0], [5, 9, 2, 0, 0, 0]] (by decide +kernel) with
  | intro s hs => exact ⟨s, hs.1, (hs.2.mpr (by decide +kernel)).2⟩

/-- A frame that declares one byte is passed on as a packet of one byte. -/
theorem short_packet_passes :
    ∃ s, runSteps recvStep (RecvState.fresh config (fun _ => 0)) [[0, 0, 0, 1]] = some s ∧
      s.pushed = [[0]] ∧ ¬ ∀ p ∈ s.pushed, IsPacket p := by
  have hrun : (runSteps recvStep (RecvState.fresh config (fun _ => 0)) [[0, 0, 0, 1]]).map
      RecvState.pushed = some [[0]] := by decide +kernel
  cases Option.map_eq_some_iff.mp hrun with
  | intro s hs =>
      refine ⟨s, hs.1, hs.2, fun hall => ?_⟩
      rw [hs.2] at hall
      exact absurd (hall [0] (List.mem_singleton.mpr rfl)).four_le (by decide)

end LongConn

end CommonCc
