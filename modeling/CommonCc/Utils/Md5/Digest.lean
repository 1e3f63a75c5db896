import CommonCc.Utils.Md5.Stream

/-!
# Runs of `MD5`

However a message is cut into updates, the digest is that of the message, and it stays what it
was once it has been asked for.
-/

namespace CommonCc

namespace MD5

variable {s : MD5} {msg : Bytes}

/-- The calls of an object that is in use. -/
inductive Call where
  | update (input : Bytes)
  | finalize
  | hexdigest

/-- A call, and the text that it answers. -/
def call (s : MD5) : Call → Except Fault (Bytes × MD5)
  | .update input => do
      let s ← s.update input input.length
      .ok ([], s)
  | .finalize => do
      let s ← s.finalize
      .ok ([], s)
  | .hexdigest => .ok (s.hexdigest, s)

/-- What an object is for: a message that grows until its digest is taken. -/
structure Hashing where
  message : Bytes
  digest : Option Bytes

def Hashing.call (t : Hashing) : Call → Bytes × Hashing
  | .update input => ([], { t with message := t.message ++ input })
  | .finalize =>
      ([], { t with digest := some (t.digest.getD (md5 t.message)) })
  | .hexdigest => ((t.digest.map hexBytes).getD [], t)

/-- The object holds the message, or the digest that was taken. -/
def Hashes (s : MD5) (t : Hashing) : Prop :=
  match t.digest with
  | none => s.finalized = false ∧ s.Absorbed t.message
  | some digest => s.finalized = true ∧ s.digest = digest ∧ s.buffer.length = 64

/-- The length of an input leaves room for the index behind it. -/
def Call.Short : Call → Prop
  | .update input => input.length < 4294967232
  | _ => True

instance : DecidablePred Call.Short
  | .update input => inferInstanceAs (Decidable (input.length < 4294967232))
  | .finalize => .isTrue trivial
  | .hexdigest => .isTrue trivial

theorem call_simulates : Simulates MD5.call Hashing.call Hashes Call.Short := by
  intro s t c h hshort
  obtain ⟨message, digest⟩ := t
  cases c with
  | update input =>
      have hlt : input.length < 4294967232 := hshort
      have hsize : s.buffer.length = 64 := by
        cases digest with
        | none => exact h.2.size
        | some d => exact h.2.2
      obtain ⟨s', hupdate, hs'⟩ := update_spec hsize (Nat.le_refl input.length) (by omega)
        (fits_of_lt hlt)
      rw [List.take_length] at hs'
      refine ⟨s', ?_, ?_⟩
      · rw [MD5.call, hupdate, except_ok_bind]
        rfl
      · cases digest with
        | none => exact ⟨hs'.finalized.trans h.1, h.2.update hs'⟩
        | some d => exact ⟨hs'.finalized.trans h.1, hs'.digest.trans h.2.1, hs'.size⟩
  | finalize =>
      cases digest with
      | none =>
          obtain ⟨s', hfinal, hs'⟩ := finalize_spec h.2 h.1
          refine ⟨s', ?_, hs'⟩
          rw [MD5.call, hfinal, except_ok_bind]
          rfl
      | some d =>
          refine ⟨s, ?_, h⟩
          rw [MD5.call, MD5.finalize, if_pos h.1, except_ok_bind]
          rfl
  | hexdigest =>
      refine ⟨s, ?_, h⟩
      cases digest with
      | none =>
          have hopen : s.finalized = false := h.1
          rw [MD5.call, MD5.hexdigest, hopen]
          rfl
      | some d =>
          have hdone : s.finalized = true := h.1
          have hdigest : s.digest = d := h.2.1
          rw [MD5.call, MD5.hexdigest, hdone, hdigest]
          rfl

/-- Every run of calls answers as a message does that its updates put together, and whose digest
is taken once. -/
theorem run_hashes (hs : s.buffer.length = 64) (calls : List Call)
    (hshort : ∀ c ∈ calls, c.Short) :
    ∃ s', runCalls MD5.call s.init calls = .ok ((runSpec Hashing.call ⟨[], none⟩ calls).1, s') ∧
      Hashes s' (runSpec Hashing.call ⟨[], none⟩ calls).2 := by
  have hinit : Hashes s.init ⟨[], none⟩ := ⟨rfl, absorbed_init hs⟩
  exact call_simulates.run hinit hshort

/-- Memory that an object is made in. -/
def blank : MD5 := ⟨true, List.replicate 64 7, 1, 1, firstWords, []⟩

theorem run_hashes_pieces :
    ∃ s', runCalls MD5.call blank.init
        [.update (ascii ['a', 'b']), .hexdigest, .update (ascii ['c']), .finalize, .finalize] =
          .ok ([[], [], [], [], []], s') ∧
      Hashes s' ⟨ascii ['a', 'b', 'c'], some (md5 (ascii ['a', 'b', 'c']))⟩ :=
  run_hashes List.length_replicate _ (by decide)

/-! ## Digests of a text -/

theorem not_fits_step {i length : Nat} (hlt : length < 4294967296) (h : ¬ Fits i length) :
    u32 (i + 64) ≤ length ∧ ¬ Fits (u32 (i + 64)) length := by
  unfold Fits at h ⊢
  rw [u32]
  omega

/-- The loop comes to no end, or behind the input, when its index wraps around. -/
theorem transformFrom_wraps {input : Bytes} {length fuel i : Nat} (hlt : length < 4294967296)
    (hfit : ¬ Fits i length) : ∃ fault, transformFrom input length fuel i s = .error fault := by
  induction fuel generalizing i s with
  | zero =>
      rw [transformFrom.eq_def, if_pos (not_fits_step hlt hfit).1]
      exact ⟨_, rfl⟩
  | succ fuel ih =>
      rw [transformFrom_succ, if_pos (not_fits_step hlt hfit).1, readBytes]
      split
      · rw [except_ok_bind]
        exact ih (not_fits_step hlt hfit).2
      · exact ⟨_, rfl⟩

theorem update_wraps {input : Bytes} {length : Nat} (hlen : length ≤ input.length)
    (hlt : length < 4294967296) (hfit : ¬ Fits (64 - s.count0 / 8 % 64) length) :
    ∃ fault, s.update input length = .error fault := by
  have hfirst : 64 - s.count0 / 8 % 64 ≤ length := by
    unfold Fits at hfit
    omega
  unfold update
  simp only [if_pos hfirst]
  rw [readBytes_of_le (by omega), except_ok_bind]
  obtain ⟨fault, hloop⟩ := @transformFrom_wraps
    (((s.addCount length).fill (s.count0 / 8 % 64)
      ((input.drop 0).take (64 - s.count0 / 8 % 64))).transform
        ((s.addCount length).fill (s.count0 / 8 % 64)
          ((input.drop 0).take (64 - s.count0 / 8 % 64))).buffer)
    input length 67108864 _ hlt hfit
  exact ⟨fault, by rw [hloop]; rfl⟩

/-- `MD5(text)` of what a 32-bit length counts of the text, where that leaves room for the index
of the loop. -/
theorem ofText_spec (hs : s.buffer.length = 64) {str : Bytes}
    (hshort : u32 str.length < 4294967232) :
    ∃ s', s.ofText str = .ok s' ∧ s'.finalized = true ∧
      s'.digest = md5 (str.take (u32 str.length)) := by
  have hle : u32 str.length ≤ str.length := Nat.mod_le _ _
  have htake : (str ++ [0]).take (u32 str.length) = str.take (u32 str.length) :=
    List.take_append_of_le_length hle
  have hinit : s.init.Absorbed [] := absorbed_init hs
  obtain ⟨s₁, hupdate, hs₁⟩ : ∃ s₁, s.init.update (str ++ [0]) (u32 str.length) = .ok s₁ ∧
      Updated s.init ((str ++ [0]).take (u32 str.length)) s₁ :=
    update_spec hinit.size (by rw [List.length_append]; omega) (by omega) (fits_of_lt hshort)
  rw [htake] at hs₁
  have hall := hinit.update hs₁
  rw [List.nil_append] at hall
  obtain ⟨s₂, hfinal, hdone, hdigest, _⟩ := finalize_spec hall hs₁.finalized
  refine ⟨s₂, ?_, hdone, hdigest⟩
  rw [ofText, hupdate, except_ok_bind, hfinal]

/-- `DigestHex` comes to an end exactly when the length of the text, as 32 bits count it, leaves
room for the index of the loop.  It is the digest of what those bits count. -/
theorem DigestHex_eq_ok_iff (hs : s.buffer.length = 64) (str digest : Bytes) :
    s.DigestHex str = .ok digest ↔
      u32 str.length < 4294967232 ∧ digest = hexBytes (md5 (str.take (u32 str.length))) := by
  by_cases hshort : u32 str.length < 4294967232
  · obtain ⟨s', htext, hdone, hdigest⟩ := ofText_spec hs hshort
    have hhex : s.DigestHex str = .ok (hexBytes (md5 (str.take (u32 str.length)))) := by
      rw [DigestHex, htext, except_ok_bind, hexdigest, hdone, hdigest]
      rfl
    rw [hhex]
    simp [hshort, eq_comm]
  · have hlt : u32 str.length < 4294967296 := Nat.mod_lt _ (by decide)
    have hle : u32 str.length ≤ str.length := Nat.mod_le _ _
    have hfit : ¬ Fits (64 - s.init.count0 / 8 % 64) (u32 str.length) := by
      have hzero : s.init.count0 = 0 := rfl
      rw [hzero, Fits]
      omega
    obtain ⟨fault, hwrap⟩ : ∃ fault, s.init.update (str ++ [0]) (u32 str.length) = .error fault :=
      update_wraps (by rw [List.length_append]; omega) hlt hfit
    have hhex : s.DigestHex str = .error fault := by
      rw [DigestHex, ofText, hwrap]
      rfl
    rw [hhex]
    simp [hshort]

theorem DigestHex_abc : blank.DigestHex (ascii ['a', 'b', 'c']) =
      .ok (hexBytes (md5 (ascii ['a', 'b', 'c']))) :=
  (DigestHex_eq_ok_iff List.length_replicate _ _).mpr ⟨by decide, rfl⟩

end MD5

end CommonCc
