import CommonCc.Lib.Transition
import CommonCc.Net.Client.Recv

/-!
# Reassembly of long-connection frames

The peer sends frames that begin with their own length.  A run of `OnRecv` over any
segmentation of the stream keeps an exact split of the stream into frames passed
on and bytes still buffered.  Each event passes on one frame at most, which decides
for which segmentations all frames get through.
-/

namespace CommonCc

namespace LongConn

/-- A frame as `net_complete_longconn` accepts it: its first four bytes are its
length in network byte order. -/
structure IsFrame (f : Bytes) : Prop where
  four_le : 4 ≤ f.length
  le_max : f.length ≤ PKT_MAX_LEN
  header : f.take 4 = (u32Bytes f.length).reverse

theorem ntohl_leValue_reverse {n : Nat} (h : n < 4294967296) :
    ntohl (leValue (u32Bytes n).reverse) = n := by
  rw [ntohl, u32Bytes_leValue (by simp), List.reverse_reverse, leValue_u32Bytes h]

/-- On a buffer that starts with the stream of `f`, the check waits for the whole
frame and then reports its length. -/
theorem net_complete_longconn_frame {m : Memory UInt8} {f rest : Bytes} {n : Nat}
    (hf : IsFrame f) (hbuf : m.read 0 n <+: f ++ rest) :
    net_complete_longconn m n = if f.length ≤ n then (f.length : Int) else 0 := by
  have h4 := hf.four_le
  have hmax : f.length ≤ 33554432 := hf.le_max
  unfold net_complete_longconn
  by_cases hshort : n < 4
  · rw [if_pos hshort, if_neg (by omega)]
  rw [if_neg hshort]
  have hhead : m.read 0 4 = (u32Bytes f.length).reverse := by
    have htake : (m.read 0 n).take 4 = f.take 4 := by
      rw [List.prefix_iff_eq_take.mp hbuf, List.take_take, Memory.read_length,
        Nat.min_eq_left (by omega), List.take_append_of_le_length h4]
    rw [← hf.header, ← htake, Memory.take_read m 0 (by omega)]
  rw [hhead, ntohl_leValue_reverse (by omega)]
  have hle : ¬ PKT_MAX_LEN < f.length := by
    have := hf.le_max
    omega
  dsimp only
  rw [if_neg hle]
  split
  · rw [if_neg (by omega)]
  · rw [if_pos (by omega), toInt_of_mem (by omega) (by omega)]

/-! ## One event -/

def config : ClientConfig := ClientConfig.make PROTOCOL_LONGCONN

theorem config_max : config.m_max_pack_len = 33554432 := rfl

/-- `OnRecv` on a non-empty chunk, as a step of a run. -/
def recvStep (s : RecvState) (chunk : Bytes) : Option RecvState :=
  (OnRecv config s (.bytes chunk)).toOption

/-- The chunk is one that `recv` can return into the room left in the buffer. -/
def Receivable (s : RecvState) (chunk : Bytes) : Prop :=
  chunk ≠ [] ∧ s.recv_len + chunk.length ≤ config.m_max_pack_len

instance (s : RecvState) (chunk : Bytes) : Decidable (Receivable s chunk) :=
  inferInstanceAs (Decidable (_ ∧ _))

/-- The connection has passed on `pushed` and buffers exactly the bytes `unread`. -/
structure Buffers (s : RecvState) (pushed : List Bytes) (unread : Bytes) : Prop where
  size : s.recv_buf.size = config.m_max_pack_len
  len : s.recv_len = unread.length
  fits : s.recv_len ≤ config.m_max_pack_len
  bytes : s.recv_buf.read 0 s.recv_len = unread
  pushed : s.pushed = pushed

theorem fresh_buffers (buffer : Nat → UInt8) :
    Buffers (RecvState.fresh config buffer) [] [] :=
  ⟨rfl, rfl, Nat.zero_le _, rfl, rfl⟩

/-- The state in which the completeness check looks at the buffer. -/
def received (s : RecvState) (chunk : Bytes) : RecvState :=
  { s with
    recv_buf := s.recv_buf.write s.recv_len chunk
    recv_len := u32 (s.recv_len + chunk.length)
    recv_bytes := (s.recv_bytes + chunk.length) % 18446744073709551616 }

section Event

variable {s : RecvState} {pushed : List Bytes} {unread chunk : Bytes}

theorem received_buffers (h : Buffers s pushed unread) (hc : Receivable s chunk) :
    Buffers (received s chunk) pushed (unread ++ chunk) := by
  obtain ⟨-, hroom⟩ := hc
  have hmax := config_max
  have hlen : u32 (s.recv_len + chunk.length) = (unread ++ chunk).length := by
    rw [u32_of_lt (by omega), List.length_append, h.len]
  refine ⟨h.size, hlen, ?_, ?_, h.pushed⟩
  · show u32 _ ≤ _
    rw [u32_of_lt (by omega)]
    exact hroom
  · show (s.recv_buf.write s.recv_len chunk).read 0 (u32 (s.recv_len + chunk.length)) = _
    rw [u32_of_lt (by omega), Memory.read_append, Nat.zero_add, Memory.read_write_self,
      Memory.read_write_disjoint _ (by omega), h.bytes]

theorem recvStep_eq (h : Buffers s pushed unread) (hc : Receivable s chunk) :
    recvStep s chunk = some ((received s chunk).deliver config
      (net_complete_longconn (received s chunk).recv_buf (unread ++ chunk).length)) := by
  have hlen := (received_buffers h hc).len
  obtain ⟨hne, hroom⟩ := hc
  obtain ⟨c, cs, rfl⟩ := List.exists_cons_of_ne_nil hne
  have hfit : s.recv_len + (c :: cs).length ≤ s.recv_buf.size := by
    rw [h.size]
    exact hroom
  have hstore := s.recv_buf.store_eq_some hfit
  rw [← hlen]
  simp only [recvStep, OnRecv, hstore]
  rfl

theorem deliver_zero : s.deliver config 0 = s := by
  simp [RecvState.deliver]

/-- A complete frame goes out and the bytes behind it move to the start of the
buffer. -/
theorem deliver_frame {f rest : Bytes} (h : Buffers s pushed (f ++ rest)) (hpos : 0 < f.length) :
    Buffers (s.deliver config f.length) (pushed ++ [f]) rest := by
  have hmax := config_max
  have hfits := h.fits
  have hlen : s.recv_len = f.length + rest.length := by rw [h.len, List.length_append]
  have hint : toInt s.recv_len = s.recv_len := toInt_of_mem (by omega) (by omega)
  have hhttp : ¬ (config.m_protocol = PROTOCOL_HTTP ∧ config.m_use_keepalive = 0) := by decide
  have hread : s.recv_buf.read 0 f.length = f := by
    rw [← Memory.take_read s.recv_buf 0 (n := s.recv_len) (by omega), h.bytes, List.take_left]
  unfold RecvState.deliver
  rw [if_pos (by omega)]
  dsimp only
  rw [if_neg hhttp, hint, Int.toNat_natCast]
  by_cases hmore : f.length < s.recv_len
  · rw [if_pos (by omega)]
    have hrest : s.recv_buf.read f.length (s.recv_len - f.length) = rest := by
      have hdrop := Memory.drop_read s.recv_buf 0 (n := s.recv_len) (a := f.length) (by omega)
      rw [h.bytes, List.drop_left, Nat.zero_add] at hdrop
      exact hdrop.symm
    refine ⟨h.size, by dsimp only; omega, by dsimp only; omega, ?_, ?_⟩
    · dsimp only
      rw [hrest, show s.recv_len - f.length = rest.length by omega, Memory.read_write_self]
    · dsimp only
      rw [h.pushed, hread]
  · have hnil : rest = [] := List.length_eq_zero_iff.mp (by omega)
    subst hnil
    rw [if_neg (by omega), if_pos (by simp at hlen; omega)]
    refine ⟨h.size, rfl, Nat.zero_le _, rfl, ?_⟩
    dsimp only
    rw [h.pushed, h.bytes, List.append_nil]

/-- The buffered bytes after a chunk has come in, while frame `f` is the first that
has not been passed on: it goes out as soon as it is complete. -/
theorem recvStep_frame {f rest : Bytes} (h : Buffers s pushed unread) (hc : Receivable s chunk)
    (hf : IsFrame f) (hstream : unread ++ chunk <+: f ++ rest) :
    ∃ s', recvStep s chunk = some s' ∧
      if f.length ≤ (unread ++ chunk).length then
        Buffers s' (pushed ++ [f]) ((unread ++ chunk).drop f.length)
      else Buffers s' pushed (unread ++ chunk) := by
  have hr := received_buffers h hc
  have hbytes := hr.bytes
  rw [hr.len] at hbytes
  have hcheck := net_complete_longconn_frame hf (hbytes.symm ▸ hstream)
  refine ⟨_, recvStep_eq h hc, ?_⟩
  rw [hcheck]
  by_cases hdone : f.length ≤ (unread ++ chunk).length
  · rw [if_pos hdone, if_pos hdone]
    have hsplit : unread ++ chunk = f ++ (unread ++ chunk).drop f.length := by
      have hpre : f <+: unread ++ chunk :=
        List.prefix_of_prefix_length_le (List.prefix_append f rest) hstream hdone
      exact List.prefix_iff_eq_append.mp hpre |>.symm
    have := hf.four_le
    rw [hsplit] at hr
    exact deliver_frame hr (by omega)
  · rw [if_neg hdone, if_neg hdone, deliver_zero]
    exact hr

end Event

/-! ## Whole runs -/

/-- How many of the frames are still incomplete after `k` bytes of their stream. -/
def incomplete : List Bytes → Nat → Nat
  | [], _ => 0
  | f :: fs, k => if f.length ≤ k then incomplete fs (k - f.length) else fs.length + 1

theorem incomplete_le (fs : List Bytes) (k : Nat) : incomplete fs k ≤ fs.length := by
  induction fs generalizing k with
  | nil => exact Nat.le_refl _
  | cons f fs ih =>
      unfold incomplete
      split
      · exact Nat.le_succ_of_le (ih _)
      · exact Nat.le_refl _

theorem incomplete_zero {fs : List Bytes} (h : ∀ f ∈ fs, IsFrame f) :
    incomplete fs 0 = fs.length := by
  cases fs with
  | nil => rfl
  | cons f fs =>
      have := (h f List.mem_cons_self).four_le
      rw [incomplete, if_neg (by omega), List.length_cons]

/-- After any number of the chunks no more frames are incomplete than chunks are
left: each chunk can bring out one frame. -/
def OneFramePerChunk (frames chunks : List Bytes) : Prop :=
  ∀ j ≤ chunks.length, incomplete frames (chunks.take j).flatten.length ≤ chunks.length - j

instance (frames chunks : List Bytes) : Decidable (OneFramePerChunk frames chunks) :=
  decidable_of_iff
    (∀ j < chunks.length + 1,
      incomplete frames (chunks.take j).flatten.length ≤ chunks.length - j)
    (by simp only [Nat.lt_succ_iff, OneFramePerChunk])

/-- The same in the middle of a run: `frames` are the frames not passed on, and the
first `k` bytes of them are buffered. -/
def Served (frames : List Bytes) (k : Nat) (chunks : List Bytes) : Prop :=
  frames.length ≤ chunks.length ∧ ∀ j, 1 ≤ j → j ≤ chunks.length →
    incomplete frames (k + (chunks.take j).flatten.length) ≤ chunks.length - j

theorem served_nil (frames : List Bytes) (k : Nat) : Served frames k [] ↔ frames = [] := by
  constructor
  · rintro ⟨hlen, -⟩
    exact List.length_eq_zero_iff.mp (by simpa using hlen)
  · rintro rfl
    exact ⟨Nat.le_refl _, fun _ _ _ => Nat.zero_le _⟩

theorem flatten_take_succ (c : Bytes) (cs : List Bytes) (k j : Nat) :
    k + ((c :: cs).take (j + 1)).flatten.length =
      k + c.length + (cs.take j).flatten.length := by
  rw [List.take_succ_cons, List.flatten_cons, List.length_append, Nat.add_assoc]

/-- A chunk that completes the first frame uses up itself and that frame. -/
theorem served_cons_complete {f c : Bytes} {fs cs : List Bytes} {k : Nat}
    (h : f.length ≤ k + c.length) :
    Served (f :: fs) k (c :: cs) ↔ Served fs (k + c.length - f.length) cs := by
  have hshift : ∀ j, incomplete (f :: fs) (k + ((c :: cs).take (j + 1)).flatten.length) =
      incomplete fs (k + c.length - f.length + (cs.take j).flatten.length) := by
    intro j
    rw [flatten_take_succ, incomplete, if_pos (by omega)]
    congr 1
    omega
  constructor
  · rintro ⟨hlen, hall⟩
    refine ⟨by simpa using hlen, fun j h1 h2 => ?_⟩
    have := hall (j + 1) (by omega) (by simpa using h2)
    rw [hshift, List.length_cons] at this
    omega
  · rintro ⟨hlen, hall⟩
    refine ⟨by simpa using hlen, fun j h1 h2 => ?_⟩
    obtain ⟨j, rfl⟩ := Nat.exists_eq_add_of_le' h1
    rw [hshift]
    rw [List.length_cons] at h2 ⊢
    by_cases hj : j = 0
    · have := incomplete_le fs (k + c.length - f.length + (cs.take j).flatten.length)
      omega
    · have := hall j (by omega) (by omega)
      omega

/-- A chunk that leaves the first frame incomplete is used up for nothing. -/
theorem served_cons_waiting {f c : Bytes} {fs cs : List Bytes} {k : Nat}
    (h : ¬ f.length ≤ k + c.length) :
    Served (f :: fs) k (c :: cs) ↔ Served (f :: fs) (k + c.length) cs := by
  have hfirst : incomplete (f :: fs) (k + ((c :: cs).take (0 + 1)).flatten.length) =
      fs.length + 1 := by
    rw [flatten_take_succ, incomplete, if_neg (by simpa using h)]
  constructor
  · rintro ⟨hlen, hall⟩
    have h0 := hall (0 + 1) (by omega) (by simp)
    rw [hfirst, List.length_cons] at h0
    refine ⟨by simpa using h0, fun j h1 h2 => ?_⟩
    have := hall (j + 1) (by omega) (by simpa using h2)
    rw [flatten_take_succ, List.length_cons] at this
    omega
  · rintro ⟨hlen, hall⟩
    refine ⟨Nat.le_succ_of_le hlen, fun j h1 h2 => ?_⟩
    obtain ⟨j, rfl⟩ := Nat.exists_eq_add_of_le' h1
    rw [List.length_cons] at h2 hlen ⊢
    by_cases hj : j = 0
    · subst hj
      rw [hfirst]
      omega
    · rw [flatten_take_succ]
      have := hall j (by omega) (by omega)
      omega

/-- A run over `chunks`, which bring a first part of the stream of `frames`, passes on
the first of `frames` and buffers what came behind them.  It passes on all of them
exactly when they are served. -/
theorem runSteps_frames (chunks : List Bytes) {s : RecvState} {pushed frames : List Bytes}
    {unread : Bytes} (h : Buffers s pushed unread) (hf : ∀ f ∈ frames, IsFrame f)
    (hstream : unread ++ chunks.flatten <+: frames.flatten)
    (hc : Allowed recvStep Receivable s chunks) :
    ∃ s' passed waiting unread', runSteps recvStep s chunks = some s' ∧
      frames = passed ++ waiting ∧ Buffers s' (pushed ++ passed) unread' ∧
      unread ++ chunks.flatten = passed.flatten ++ unread' ∧
      (waiting = [] ↔ Served frames unread.length chunks) := by
  induction chunks generalizing s pushed frames unread with
  | nil =>
      exact ⟨s, [], frames, unread, rfl, rfl, by simpa using h, by simp, (served_nil _ _).symm⟩
  | cons c cs ih =>
      have hrecv : Receivable s c := hc.1
      rw [List.flatten_cons, ← List.append_assoc] at hstream ⊢
      cases frames with
      | nil =>
          simp only [List.flatten_nil, List.prefix_nil, List.append_eq_nil_iff] at hstream
          exact absurd hstream.1.2 hrecv.1
      | cons f fs =>
          rw [List.flatten_cons] at hstream
          have hpre : unread ++ c <+: f ++ fs.flatten :=
            (List.prefix_append _ cs.flatten).trans hstream
          obtain ⟨s₁, hstep, hs₁⟩ := recvStep_frame h hrecv (hf f List.mem_cons_self) hpre
          have hrest : Allowed recvStep Receivable s₁ cs := by
            have h2 := hc.2
            simp only [hstep] at h2
            exact h2
          by_cases hdone : f.length ≤ (unread ++ c).length
          · rw [if_pos hdone] at hs₁
            have hsplit : unread ++ c = f ++ (unread ++ c).drop f.length :=
              (List.prefix_iff_eq_append.mp (List.prefix_of_prefix_length_le
                (List.prefix_append f fs.flatten) hpre hdone)).symm
            have hstream₁ : (unread ++ c).drop f.length ++ cs.flatten <+: fs.flatten := by
              rw [hsplit, List.append_assoc] at hstream
              exact (List.prefix_append_right_inj f).mp hstream
            obtain ⟨s', passed, waiting, unread', hrun, hframes, hbuf, hgot, hiff⟩ :=
              ih hs₁ (fun x hx => hf x (List.mem_cons_of_mem f hx)) hstream₁ hrest
            have hgot' : (unread ++ c) ++ cs.flatten = (f :: passed).flatten ++ unread' := by
              rw [hsplit, List.append_assoc, hgot, List.flatten_cons, List.append_assoc]
            rw [List.length_append] at hdone
            refine ⟨s', f :: passed, waiting, unread', ?_, by rw [hframes, List.cons_append],
              ?_, hgot', ?_⟩
            · simp only [runSteps, hstep, hrun]
            · simpa using hbuf
            · rw [hiff, served_cons_complete hdone, List.length_drop, List.length_append]
          · rw [if_neg hdone] at hs₁
            rw [← List.flatten_cons] at hstream
            obtain ⟨s', passed, waiting, unread', hrun, hframes, hbuf, hgot, hiff⟩ :=
              ih hs₁ hf hstream hrest
            rw [List.length_append] at hdone
            refine ⟨s', passed, waiting, unread', ?_, hframes, hbuf, hgot, ?_⟩
            · simp only [runSteps, hstep, hrun]
            · rw [hiff, served_cons_waiting hdone, List.length_append]

/-- After every `OnRecv` of a run over any segmentation of a list of frames, the
packets passed on are the first of the frames, and the buffer holds exactly the bytes
received behind them. -/
theorem reassembly_exact (buffer : Nat → UInt8) {frames chunks arrived : List Bytes}
    (hf : ∀ f ∈ frames, IsFrame f) (hcut : chunks.flatten = frames.flatten)
    (hc : Allowed recvStep Receivable (RecvState.fresh config buffer) chunks)
    (harrived : arrived <+: chunks) :
    ∃ s, runSteps recvStep (RecvState.fresh config buffer) arrived = some s ∧
      s.pushed <+: frames ∧
      arrived.flatten = s.pushed.flatten ++ s.recv_buf.read 0 s.recv_len := by
  cases harrived with
  | intro later hsplit =>
      subst hsplit
      have hstream : [] ++ arrived.flatten <+: frames.flatten :=
        ⟨later.flatten, by rw [List.nil_append, ← hcut, List.flatten_append]⟩
      obtain ⟨s, passed, waiting, unread, hrun, hframes, hbuf, hgot, -⟩ :=
        runSteps_frames arrived (fresh_buffers buffer) hf hstream hc.append_left
      have hpushed : s.pushed = passed := hbuf.pushed
      refine ⟨s, hrun, ⟨waiting, by rw [hpushed, hframes]⟩, ?_⟩
      rw [hpushed, hbuf.bytes]
      exact hgot

/-- A frame cut inside its length and a frame of four bytes, of which three have come. -/
theorem reassembly_exact_two :
    ∃ s, runSteps recvStep (RecvState.fresh config (fun _ => 0)) [[0, 0], [0, 5, 9, 0, 0, 0]] =
        some s ∧ s.pushed <+: [[0, 0, 0, 5, 9], [0, 0, 0, 4]] ∧
      [[0, 0], [0, 5, 9, 0, 0, 0]].flatten = s.pushed.flatten ++ s.recv_buf.read 0 s.recv_len := by
  have hframes : ∀ f ∈ ([[0, 0, 0, 5, 9], [0, 0, 0, 4]] : List Bytes), IsFrame f := by
    intro f hf
    simp only [List.mem_cons, List.not_mem_nil, or_false] at hf
    rcases hf with rfl | rfl <;> exact ⟨by decide, by decide, by decide⟩
  have hcut : ([[0, 0], [0, 5, 9, 0, 0, 0], [4]] : List Bytes).flatten =
      [[0, 0, 0, 5, 9], [0, 0, 0, 4]].flatten := by decide
  exact reassembly_exact (fun _ => 0) hframes hcut (by decide +kernel) ⟨[[4]], rfl⟩

/-- Over every segmentation of a list of frames that fits the buffer, all frames are
passed on in order and nothing stays buffered if and only if there is a chunk for
each frame, counted from every point of the run to its end. -/
theorem frames_pass_iff (buffer : Nat → UInt8) {frames chunks : List Bytes}
    (hf : ∀ f ∈ frames, IsFrame f) (hcut : chunks.flatten = frames.flatten)
    (hc : Allowed recvStep Receivable (RecvState.fresh config buffer) chunks) :
    ∃ s, runSteps recvStep (RecvState.fresh config buffer) chunks = some s ∧
      ((s.pushed = frames ∧ s.recv_len = 0) ↔ OneFramePerChunk frames chunks) := by
  obtain ⟨s, passed, waiting, unread, hrun, hsplit, hbuf, hgot, hiff⟩ :=
    runSteps_frames chunks (fresh_buffers buffer) hf (by simp [hcut]) hc
  refine ⟨s, hrun, ?_⟩
  have hunread : unread = waiting.flatten := by
    rw [List.nil_append, hcut, hsplit, List.flatten_append] at hgot
    exact (List.append_cancel_left hgot).symm
  have hall : (s.pushed = frames ∧ s.recv_len = 0) ↔ waiting = [] := by
    rw [hbuf.pushed, hbuf.len, List.nil_append, hsplit, List.length_eq_zero_iff, hunread]
    constructor
    · rintro ⟨hp, -⟩
      simpa using hp
    · rintro rfl
      simp
  rw [hall, hiff]
  constructor
  · rintro ⟨hlen, hserved⟩ j hj
    by_cases h0 : j = 0
    · subst h0
      rw [List.take_zero, List.flatten_nil, List.length_nil, incomplete_zero hf]
      omega
    · simpa using hserved j (by omega) hj
  · intro hone
    refine ⟨?_, fun j _ hj => by simpa using hone j hj⟩
    have h0 := hone 0 (Nat.zero_le _)
    rwa [List.take_zero, List.flatten_nil, List.length_nil, incomplete_zero hf, Nat.sub_zero] at h0

/-- A frame cut inside its length and a frame of four bytes. -/
theorem frames_pass_iff_two :
    ∃ s, runSteps recvStep (RecvState.fresh config (fun _ => 0)) [[0, 0], [0, 5, 9], [0, 0, 0, 4]] =
        some s ∧ s.pushed = [[0, 0, 0, 5, 9], [0, 0, 0, 4]] ∧ s.recv_len = 0 := by
  have hframes : ∀ f ∈ ([[0, 0, 0, 5, 9], [0, 0, 0, 4]] : List Bytes), IsFrame f := by
    intro f hf
    simp only [List.mem_cons, List.not_mem_nil, or_false] at hf
    rcases hf with rfl | rfl <;> exact ⟨by decide, by decide, by decide⟩
  have hcut : ([[0, 0], [0, 5, 9], [0, 0, 0, 4]] : List Bytes).flatten =
      [[0, 0, 0, 5, 9], [0, 0, 0, 4]].flatten := by decide
  obtain ⟨s, hrun, hiff⟩ := frames_pass_iff (fun _ => 0) hframes hcut (by decide +kernel)
  exact ⟨s, hrun, hiff.mpr (by decide)⟩

/-- Two frames that arrive in one chunk: the second stays in the buffer. -/
theorem glued_frame_stays :
    ∃ s, runSteps recvStep (RecvState.fresh config (fun _ => 0)) [[0, 0, 0, 4, 0, 0, 0, 4]] =
        some s ∧ s.pushed = [[0, 0, 0, 4]] ∧ s.recv_len = 4 ∧
      ¬ (s.pushed = [[0, 0, 0, 4], [0, 0, 0, 4]] ∧ s.recv_len = 0) := by
  have hrun : (runSteps recvStep (RecvState.fresh config (fun _ => 0))
      [[0, 0, 0, 4, 0, 0, 0, 4]]).map (fun s => (s.pushed, s.recv_len)) =
        some ([[0, 0, 0, 4]], 4) := by decide +kernel
  obtain ⟨s, hs, hout⟩ := Option.map_eq_some_iff.mp hrun
  obtain ⟨hpushed, hlen⟩ := Prod.mk.inj hout
  exact ⟨s, hs, hpushed, hlen, by simp [hlen]⟩

end LongConn

end CommonCc
