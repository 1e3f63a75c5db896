import CommonCc.Net.Check.Text

/-!
# The bounds of a reported length

A length that `net_complete_http` reports ends behind the header and within the data,
unless a negative number stands for the length of the body.
-/

namespace CommonCc

/-- A positive length ends behind the first blank line and within the data. -/
def ReportWithin (data : Memory UInt8) (data_len : Nat) (r : Int) : Prop :=
  0 < r → ∃ p : Nat, search CRLFCRLF (data.read 0 data_len) = some p ∧ p + 4 ≤ r ∧ r ≤ data_len

/-- The number behind the first `Content-Length:` is not negative, or so far below zero that
nothing of the header is left. -/
def LengthInRange (text : Bytes) : Prop :=
  ∀ p q : Nat, search CRLFCRLF text = some p → search CONTENT_LENGTH text = some q →
    0 ≤ atoi (text.drop (q + 15)) ∨ p + 4 + atoi (text.drop (q + 15)) ≤ 0

section Bounds

variable {data : Memory UInt8} {data_len p : Nat}

/-- The text is the start of the data. -/
theorem search_data {pat : Bytes} (htext : textOf data = (data.read 0 data_len).takeWhile (· ≠ 0))
    (hp : search pat (textOf data) = some p) : search pat (data.read 0 data_len) = some p := by
  have happend := search_append_of_some hp ((data.read 0 data_len).dropWhile (· ≠ 0))
  rwa [htext, List.takeWhile_append_dropWhile] at happend

/-- With the number `v` for the body, the length is in its bounds if and only if `v` is. -/
theorem within_framed {v : Int} (hlen : data_len < 2147483648) (hfit : p + 4 ≤ data_len)
    (hv : -2147483648 ≤ v) (hv' : v < 2147483648)
    (hp : search CRLFCRLF (data.read 0 data_len) = some p) :
    ReportWithin data data_len (framed data_len p v) ↔ 0 ≤ v ∨ p + 4 + v ≤ 0 := by
  unfold framed
  dsimp only
  by_cases hneg : (p + 4 + v : Int) < 0
  · -- the sum wraps around to a length that is never there
    have hwrap : ((p + 4 + v : Int) % 4294967296).toNat = (p + 4 + v + 4294967296 : Int).toNat := by
      rw [← Int.add_emod_right, Int.emod_eq_of_lt (by omega) (by omega)]
    rw [hwrap, if_neg (by omega)]
    exact iff_of_true (fun h => absurd h (Int.lt_irrefl 0)) (.inr hneg.le)
  · have hsum : (p + 4 + v : Int) % 4294967296 = p + 4 + v :=
      Int.emod_eq_of_lt (by omega) (by omega)
    rw [hsum]
    by_cases hhere : (p + 4 + v : Int).toNat ≤ data_len
    · have hint : toInt ((p + 4 + v : Int).toNat : Int) = p + 4 + v := by
        rw [toInt_of_mem (by omega) (by omega)]
        omega
      rw [if_pos hhere, hint]
      constructor
      · intro h
        by_contra hbad
        obtain ⟨p', hp', hle, -⟩ := h (by omega)
        cases hp.symm.trans hp'
        omega
      · exact fun h hpos => ⟨p, hp, by omega, by omega⟩
    · rw [if_neg hhere]
      exact iff_of_true (fun h => absurd h (Int.lt_irrefl 0)) (.inl (by omega))

/-- On data with a NUL behind it the check answers, and a length that it reports is in its
bounds if and only if the number it reads is. -/
theorem reports_within_iff (hlen : data_len < 2147483648) (hsize : data_len < data.size)
    (hnul : data.cell data_len = 0) :
    (∃ r, net_complete_http data data_len = .ok r ∧ ReportWithin data data_len r) ↔
      LengthInRange (textOf data) := by
  have hall : (data.read 0 data_len).length = data_len := Memory.read_length data 0 data_len
  have hterm := textOf_terminated (by rwa [hall]) (by rw [hall]) (by rwa [hall])
  have hshorter : (textOf data).length ≤ data_len := by
    rw [hterm.1]
    have hle := (List.takeWhile_prefix (l := data.read 0 data_len) (· ≠ 0)).length_le
    rwa [hall] at hle
  by_cases hshort : data_len < 14
  · have hnone : LengthInRange (textOf data) := by
      intro p q _ hq
      have hfit := search_fits hq
      have hfifteen : CONTENT_LENGTH.length = 15 := rfl
      omega
    exact iff_of_true ⟨0, net_complete_http_short hshort, fun h => absurd h (Int.lt_irrefl 0)⟩
      hnone
  cases hp : search CRLFCRLF (textOf data) with
  | none =>
      rw [net_complete_http_no_header hshort hp hterm.2]
      have hnone : LengthInRange (textOf data) := fun p q hp' => by
        rw [hp] at hp'
        cases hp'
      refine iff_of_true ⟨_, rfl, fun h => ?_⟩ hnone
      split at h <;> exact absurd h (by decide)
  | some p =>
      have hdata := search_data hterm.1 hp
      have hfit : p + 4 ≤ data_len := Nat.le_trans (search_fits hp) hshorter
      cases hq : search CONTENT_LENGTH (textOf data) with
      | none =>
          rw [net_complete_http_no_body hshort hp hq hterm.2]
          have hnone : LengthInRange (textOf data) := fun p q _ hq' => by
            rw [hq] at hq'
            cases hq'
          refine iff_of_true ⟨_, rfl, fun _ => ⟨p, hdata, ?_⟩⟩ hnone
          rw [toInt_of_mem (by omega) (by omega)]
          omega
      | some q =>
          rw [net_complete_http_body hshort hp hq]
          obtain ⟨hv, hv'⟩ := atoi_range ((textOf data).drop (q + 15))
          have hframed := within_framed hlen hfit hv hv' hdata
          constructor
          · rintro ⟨r, hr, hwithin⟩ p' q' hp' hq'
            cases hr
            cases hp.symm.trans hp'
            cases hq.symm.trans hq'
            exact hframed.mp hwithin
          · exact fun h => ⟨_, rfl, hframed.mpr (h p q hp hq)⟩

end Bounds

/-- `GET / HTTP/1.1` with a negative length and no body. -/
def negativeLength : Bytes :=
  ascii ['G', 'E', 'T', ' ', '/', ' ', 'H', 'T', 'T', 'P', '/', '1', '.', '1'] ++ [13, 10] ++
    CONTENT_LENGTH ++ ascii ['-', '5'] ++ CRLFCRLF

theorem reports_within_iff_get :
    (∃ r, net_complete_http (bufferOf negativeLength 0 64) 37 = .ok r ∧
        ReportWithin (bufferOf negativeLength 0 64) 37 r) ↔
      LengthInRange (textOf (bufferOf negativeLength 0 64)) :=
  reports_within_iff (by decide) (by decide) (by decide)

/-- The reported length ends inside the header. -/
theorem negative_length_cuts_header :
    net_complete_http (bufferOf negativeLength 0 64) 37 = .ok 32 ∧
      ¬ ReportWithin (bufferOf negativeLength 0 64) 37 32 := by
  have hp : search CRLFCRLF ((bufferOf negativeLength 0 64).read 0 37) = some 33 := by
    decide +kernel
  refine ⟨by decide +kernel, fun h => ?_⟩
  obtain ⟨p, hp', hle, -⟩ := h (by decide)
  cases hp.symm.trans hp'
  exact absurd hle (by decide)

end CommonCc
