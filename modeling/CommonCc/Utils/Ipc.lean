import CommonCc.Base
import CommonCc.Lib.Memory

/-!
# `CShm`

A shared memory segment with checked copies in and out.  A null pointer is `none`, and a buffer
has at least the bytes that the call names.
-/

namespace CommonCc

/-- The segment, `m_size` bytes from `m_ptr` on. -/
structure CShm where
  m_ptr : Memory UInt8

namespace CShm

/-! ## The functions -/

def m_size (s : CShm) : Nat := s.m_ptr.size

/-- The check that both functions begin with. -/
def refuses (s : CShm) (msg_len pos : Nat) : Prop :=
  msg_len > s.m_size ∨ u32 (pos + msg_len) > s.m_size

instance (s : CShm) (msg_len pos : Nat) : Decidable (s.refuses msg_len pos) := by
  unfold refuses
  infer_instance

/-- The result, and the segment afterwards. -/
def Write (s : CShm) (msg_data : Option Bytes) (msg_len pos : Nat) : Except Fault (Int × CShm) :=
  match msg_data with
  | none => .ok (-1, s)
  | some msg_data =>
      if s.refuses msg_len pos then .ok (-1, s)
      else do
        let m_ptr ← checked (s.m_ptr.store pos (msg_data.take msg_len))
        .ok (toInt msg_len, { s with m_ptr := m_ptr })

/-- The result, and the buffer afterwards. -/
def Read (s : CShm) (msg_data : Option Bytes) (msg_len pos : Nat) :
    Except Fault (Int × Option Bytes) :=
  match msg_data with
  | none => .ok (-1, none)
  | some msg_data =>
      if s.refuses msg_len pos then .ok (-1, some msg_data)
      else do
        let bytes ← checked (s.m_ptr.load pos msg_len)
        .ok (toInt msg_len, some (bytes ++ msg_data.drop msg_len))

/-! ## One call -/

/-- The bytes that a call names lie in the segment. -/
def Inside (s : CShm) (msg_len pos : Nat) : Prop := pos + msg_len ≤ s.m_size

instance (s : CShm) (msg_len pos : Nat) : Decidable (s.Inside msg_len pos) := by
  unfold Inside
  infer_instance

/-- The sum in the check wraps and comes out small enough. -/
def Wraps (s : CShm) (msg_len pos : Nat) : Prop :=
  4294967296 ≤ pos + msg_len ∧ msg_len ≤ s.m_size ∧ pos + msg_len - 4294967296 ≤ s.m_size

instance (s : CShm) (msg_len pos : Nat) : Decidable (s.Wraps msg_len pos) := by
  unfold Wraps
  infer_instance

/-- `Write` copies what lies inside and returns its length; it returns -1 and leaves the segment
alone otherwise. -/
def WriteChecked (s : CShm) (msg_data : Option Bytes) (msg_len pos : Nat) : Prop :=
  s.Write msg_data msg_len pos =
    match msg_data with
    | none => .ok (-1, s)
    | some bytes =>
        if s.Inside msg_len pos then
          .ok (msg_len, { s with m_ptr := s.m_ptr.write pos (bytes.take msg_len) })
        else .ok (-1, s)

def ReadChecked (s : CShm) (msg_data : Option Bytes) (msg_len pos : Nat) : Prop :=
  s.Read msg_data msg_len pos =
    match msg_data with
    | none => .ok (-1, none)
    | some bytes =>
        if s.Inside msg_len pos then
          .ok (msg_len, some (s.m_ptr.read pos msg_len ++ bytes.drop msg_len))
        else .ok (-1, some bytes)

section

variable {s : CShm} {msg_len pos : Nat} {bytes : Bytes}

/-- The check lets through what lies inside, and what wraps. -/
theorem not_refuses_iff (hsize : s.m_size < 4294967296) (hlen : msg_len < 4294967296)
    (hpos : pos < 4294967296) :
    ¬ s.refuses msg_len pos ↔ s.Inside msg_len pos ∨ s.Wraps msg_len pos := by
  unfold refuses Inside Wraps u32
  omega

theorem Inside.not_wraps (h : s.Inside msg_len pos) (hsize : s.m_size < 4294967296) :
    ¬ s.Wraps msg_len pos := by
  unfold Inside at h
  unfold Wraps
  omega

theorem toInt_length_iff (h : msg_len < 4294967296) :
    toInt msg_len = msg_len ↔ msg_len < 2147483648 := by
  unfold toInt
  omega

theorem Write_of_inside (hs : ¬ s.refuses msg_len pos) (h : s.Inside msg_len pos)
    (hbytes : msg_len ≤ bytes.length) :
    s.Write (some bytes) msg_len pos =
      .ok (toInt msg_len, { s with m_ptr := s.m_ptr.write pos (bytes.take msg_len) }) := by
  have hstore : s.m_ptr.store pos (bytes.take msg_len) =
      some (s.m_ptr.write pos (bytes.take msg_len)) :=
    Memory.store_eq_some s.m_ptr (by rw [List.length_take_of_le hbytes]; exact h)
  rw [Write, if_neg hs, hstore]
  rfl

theorem Read_of_inside (hs : ¬ s.refuses msg_len pos) (h : s.Inside msg_len pos) :
    s.Read (some bytes) msg_len pos =
      .ok (toInt msg_len, some (s.m_ptr.read pos msg_len ++ bytes.drop msg_len)) := by
  rw [Read, if_neg hs, Memory.load_eq_some s.m_ptr h]
  rfl

/-- A call that wraps leaves the segment. -/
theorem Write_of_wraps (hs : ¬ s.refuses msg_len pos) (h : ¬ s.Inside msg_len pos)
    (hbytes : msg_len ≤ bytes.length) :
    s.Write (some bytes) msg_len pos = .error .outOfBounds := by
  have hstore : s.m_ptr.store pos (bytes.take msg_len) = none := by
    rw [Memory.store, List.length_take_of_le hbytes]
    exact if_neg h
  rw [Write, if_neg hs, hstore]
  rfl

theorem Read_of_wraps (hs : ¬ s.refuses msg_len pos) (h : ¬ s.Inside msg_len pos) :
    s.Read (some bytes) msg_len pos = .error .outOfBounds := by
  have hload : s.m_ptr.load pos msg_len = none := if_neg h
  rw [Read, if_neg hs, hload]
  rfl

/-- Where a call does what it should: the sum does not wrap, and the length is an `int`. -/
def CallSafe (s : CShm) (msg_len pos : Nat) : Prop :=
  ¬ s.Wraps msg_len pos ∧ (s.Inside msg_len pos → msg_len < 2147483648)

instance (s : CShm) (msg_len pos : Nat) : Decidable (s.CallSafe msg_len pos) := by
  unfold CallSafe
  infer_instance

/-- A refused call is safe, and so is one inside whose length fits. -/
theorem callSafe_of_refuses (hsize : s.m_size < 4294967296) (hlen : msg_len < 4294967296)
    (hpos : pos < 4294967296) (h : s.refuses msg_len pos) :
    s.CallSafe msg_len pos ∧ ¬ s.Inside msg_len pos := by
  have hnot := mt (not_refuses_iff hsize hlen hpos).mpr (not_not.mpr h)
  rw [not_or] at hnot
  exact ⟨⟨hnot.2, fun hinside => absurd hinside hnot.1⟩, hnot.1⟩

theorem callSafe_iff_of_inside (hsize : s.m_size < 4294967296) (h : s.Inside msg_len pos) :
    s.CallSafe msg_len pos ↔ msg_len < 2147483648 :=
  ⟨fun hsafe => hsafe.2 h, fun hlen => ⟨h.not_wraps hsize, fun _ => hlen⟩⟩

theorem not_callSafe_of_not_inside (hsize : s.m_size < 4294967296) (hlen : msg_len < 4294967296)
    (hpos : pos < 4294967296) (hs : ¬ s.refuses msg_len pos) (h : ¬ s.Inside msg_len pos) :
    ¬ s.CallSafe msg_len pos := by
  intro hsafe
  rcases (not_refuses_iff hsize hlen hpos).mp hs with hinside | hwraps
  · exact h hinside
  · exact hsafe.1 hwraps

/-- Both functions refuse, copy or leave the segment in the same cases. -/
theorem eq_checked_iff {α : Type} {x : Except Fault (Int × α)} {copied same : α}
    (hsize : s.m_size < 4294967296) (hlen : msg_len < 4294967296) (hpos : pos < 4294967296)
    (hrefuses : s.refuses msg_len pos → x = .ok (-1, same))
    (hinside : ¬ s.refuses msg_len pos → s.Inside msg_len pos → x = .ok (toInt msg_len, copied))
    (houtside : ¬ s.refuses msg_len pos → ¬ s.Inside msg_len pos → x = .error .outOfBounds) :
    (x = if s.Inside msg_len pos then .ok (↑msg_len, copied) else .ok (-1, same)) ↔
      s.CallSafe msg_len pos := by
  by_cases hs : s.refuses msg_len pos
  · have hsafe := callSafe_of_refuses hsize hlen hpos hs
    rw [if_neg hsafe.2]
    exact iff_of_true (hrefuses hs) hsafe.1
  · by_cases hin : s.Inside msg_len pos
    · rw [if_pos hin, hinside hs hin, callSafe_iff_of_inside hsize hin, ← toInt_length_iff hlen]
      simp
    · rw [if_neg hin, houtside hs hin]
      exact iff_of_false (by simp) (not_callSafe_of_not_inside hsize hlen hpos hs hin)

theorem writeChecked_iff {msg_data : Option Bytes} (hsize : s.m_size < 4294967296)
    (hlen : msg_len < 4294967296) (hpos : pos < 4294967296)
    (hbuffer : ∀ bytes ∈ msg_data, msg_len ≤ bytes.length) :
    s.WriteChecked msg_data msg_len pos ↔ msg_data = none ∨ s.CallSafe msg_len pos := by
  cases msg_data with
  | none => exact iff_of_true rfl (.inl rfl)
  | some bytes =>
      have hbytes := hbuffer bytes rfl
      rw [or_iff_right (Option.some_ne_none bytes), WriteChecked]
      exact eq_checked_iff hsize hlen hpos (fun hs => if_pos hs)
        (fun hs hin => Write_of_inside hs hin hbytes) (fun hs hin => Write_of_wraps hs hin hbytes)

theorem readChecked_iff {msg_data : Option Bytes} (hsize : s.m_size < 4294967296)
    (hlen : msg_len < 4294967296) (hpos : pos < 4294967296) :
    s.ReadChecked msg_data msg_len pos ↔ msg_data = none ∨ s.CallSafe msg_len pos := by
  cases msg_data with
  | none => exact iff_of_true rfl (.inl rfl)
  | some bytes =>
      rw [or_iff_right (Option.some_ne_none bytes), ReadChecked]
      exact eq_checked_iff hsize hlen hpos (fun hs => if_pos hs) Read_of_inside Read_of_wraps

end

/-! ## Runs of writes -/

/-- A call of `Write` with a buffer. -/
structure WriteCall where
  msg_data : Bytes
  msg_len : Nat
  pos : Nat
deriving Repr, DecidableEq

/-- The segment after calls that all succeed. -/
def writeAll (s : CShm) : List WriteCall → Option CShm
  | [] => some s
  | w :: ws =>
      match s.Write (some w.msg_data) w.msg_len w.pos with
      | .ok (r, s') => if r = -1 then none else writeAll s' ws
      | .error _ => none

/-- The bytes that the calls copy, with their positions. -/
def copies (ws : List WriteCall) : List (Nat × Bytes) :=
  ws.map fun w => (w.pos, w.msg_data.take w.msg_len)

/-- A call that succeeds stores its bytes. -/
theorem store_of_Write {s s' : CShm} {w : WriteCall} {r : Int}
    (h : s.Write (some w.msg_data) w.msg_len w.pos = .ok (r, s')) (hr : r ≠ -1) :
    s.m_ptr.store w.pos (w.msg_data.take w.msg_len) = some s'.m_ptr := by
  rw [Write] at h
  split at h
  · cases h
    exact absurd rfl hr
  · obtain ⟨m_ptr, hstore, hok⟩ := bind_eq_ok.mp h
    rw [Except.ok.injEq, Prod.mk.injEq] at hok
    rw [← hok.2]
    exact checked_eq_ok.mp hstore

theorem storeAll_of_writeAll {s s' : CShm} {ws : List WriteCall} (h : s.writeAll ws = some s') :
    s.m_ptr.storeAll (copies ws) = some s'.m_ptr := by
  induction ws generalizing s with
  | nil =>
      cases h
      rfl
  | cons w ws ih =>
      rw [writeAll] at h
      split at h
      · next r s₁ hw =>
          split at h
          · cases h
          · next hr =>
              have hstore := store_of_Write hw hr
              rw [copies, List.map_cons, Memory.storeAll, hstore]
              exact ih h
      · cases h

/-- After writes that succeed, each byte inside is the one written there last. -/
theorem Read_after_writeAll {s s' : CShm} {ws : List WriteCall} {bytes : Bytes}
    {msg_len pos : Nat} (h : s.writeAll ws = some s') (hsize : s.m_size < 4294967296)
    (hinside : s.Inside msg_len pos) :
    s'.Read (some bytes) msg_len pos = .ok (toInt msg_len,
      some ((List.range msg_len).map (fun i => s.m_ptr.lastWritten (copies ws) (pos + i)) ++
        bytes.drop msg_len)) := by
  have hstore := storeAll_of_writeAll h
  have hsame : s'.m_size = s.m_size := (Memory.storeAll_size hstore).1
  have hinside' : s'.Inside msg_len pos := by
    rw [Inside, hsame]
    exact hinside
  have hs : ¬ s'.refuses msg_len pos := by
    unfold Inside at hinside
    unfold refuses u32
    omega
  rw [Read_of_inside hs hinside', Memory.read]
  simp only [Memory.storeAll_cell hstore]

/-- Both functions keep to the segment exactly where the sum in their check does not wrap and the
length that they return is an `int`.  Reads give back what was written last. -/
theorem shm_bounds_iff (s : CShm) (hsize : s.m_size < 4294967296) :
    (∀ (msg_data : Option Bytes) (msg_len pos : Nat), msg_len < 4294967296 → pos < 4294967296 →
      (∀ bytes ∈ msg_data, msg_len ≤ bytes.length) →
      (s.WriteChecked msg_data msg_len pos ∧ s.ReadChecked msg_data msg_len pos ↔
        msg_data = none ∨ s.CallSafe msg_len pos)) ∧
    ∀ (ws : List WriteCall) (s' : CShm), s.writeAll ws = some s' →
      ∀ (bytes : Bytes) (msg_len pos : Nat), s.Inside msg_len pos →
        s'.Read (some bytes) msg_len pos = .ok (toInt msg_len,
          some ((List.range msg_len).map (fun i => s.m_ptr.lastWritten (copies ws) (pos + i)) ++
            bytes.drop msg_len)) := by
  refine ⟨fun msg_data msg_len pos hlen hpos hbuffer => ?_, fun ws s' h bytes msg_len pos hin => ?_⟩
  · rw [writeChecked_iff hsize hlen hpos hbuffer, readChecked_iff hsize hlen hpos, and_self_iff]
  · exact Read_after_writeAll h hsize hin

/-- A segment of ten zero bytes. -/
def zeros : CShm := ⟨⟨10, fun _ => 0⟩⟩

/-- Two writes that overlap. -/
theorem shm_bounds_iff_overlap :
    ∃ s', zeros.writeAll [⟨[1, 2, 3], 3, 4⟩, ⟨[9, 9], 2, 5⟩] = some s' ∧
      s'.Read (some [7, 7, 7, 7]) 4 4 = .ok (4, some [1, 9, 9, 0]) ∧
      zeros.WriteChecked (some [1, 2, 3]) 3 4 := by
  have hbounds := shm_bounds_iff zeros (by decide)
  obtain ⟨s', hs'⟩ : ∃ s', zeros.writeAll [⟨[1, 2, 3], 3, 4⟩, ⟨[9, 9], 2, 5⟩] = some s' :=
    ⟨_, rfl⟩
  have hread := hbounds.2 _ s' hs' [7, 7, 7, 7] 4 4 (by decide)
  have hcall := (hbounds.1 (some [1, 2, 3]) 3 4 (by decide) (by decide) (by simp)).mpr
    (.inr (by decide))
  exact ⟨s', hs', hread, hcall.1⟩

/-- One byte at the largest position is let through, and lies outside. -/
theorem writeChecked_false :
    zeros.Write (some [1]) 1 4294967295 = .error .outOfBounds ∧
      ¬ zeros.WriteChecked (some [1]) 1 4294967295 := by
  have hwrite : zeros.Write (some [1]) 1 4294967295 = .error .outOfBounds :=
    Write_of_wraps (by decide) (by decide) (by decide)
  refine ⟨hwrite, fun h => ?_⟩
  rw [WriteChecked, hwrite, if_neg (by decide)] at h
  cases h

end CShm

end CommonCc
