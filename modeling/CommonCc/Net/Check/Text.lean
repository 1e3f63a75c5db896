import CommonCc.Net.Check
import CommonCc.Numbers

/-!
# The text in a receive buffer

`net_complete_http` sees its buffer as a string: the bytes up to the first NUL, however
many of them have been received.
-/

namespace CommonCc

/-- A buffer that starts with a text, and has `x` from there on. -/
def bufferOf (text : Bytes) (x : UInt8) (size : Nat) : Memory UInt8 :=
  ⟨size, fun i => text.getD i x⟩

/-- The string at the start of a buffer. -/
def textOf (data : Memory UInt8) : Bytes := (data.read 0 data.size).takeWhile (· ≠ 0)

section Text

variable {data : Memory UInt8} {a : Bytes}

theorem takeWhile_append_text {b : Bytes} (h : 0 ∉ a) :
    (a ++ b).takeWhile (· ≠ 0) = a ++ b.takeWhile (· ≠ 0) := by
  apply List.takeWhile_append_of_pos
  intro x hx
  have hne : x ≠ 0 := fun he => h (he ▸ hx)
  simpa using hne

theorem takeWhile_append_nul (a b : Bytes) :
    (a ++ 0 :: b).takeWhile (· ≠ 0) = a.takeWhile (· ≠ 0) := by
  induction a with
  | nil => rfl
  | cons x a ih => rw [List.cons_append, List.takeWhile_cons, List.takeWhile_cons, ih]

/-- The text goes on after what has no NUL in it. -/
theorem textOf_append (hsize : a.length ≤ data.size) (hread : data.read 0 a.length = a)
    (h : 0 ∉ a) :
    textOf data = a ++ (data.read a.length (data.size - a.length)).takeWhile (· ≠ 0) := by
  have hsplit : data.read 0 data.size = a ++ data.read a.length (data.size - a.length) := by
    have happend := data.read_append 0 a.length (data.size - a.length)
    rwa [Nat.add_sub_cancel' hsize, hread, Nat.zero_add] at happend
  rw [textOf, hsplit, takeWhile_append_text h]

/-- A NUL behind the bytes of `a` ends the text. -/
theorem textOf_terminated (hsize : a.length < data.size) (hread : data.read 0 a.length = a)
    (hnul : data.cell a.length = 0) :
    textOf data = a.takeWhile (· ≠ 0) ∧ (textOf data).length < data.size := by
  have hsplit : data.read 0 data.size =
      a ++ 0 :: data.read (a.length + 1) (data.size - (a.length + 1)) := by
    have happend := data.read_append 0 a.length (data.size - a.length)
    have hcell := data.read_append a.length 1 (data.size - (a.length + 1))
    rw [Nat.add_comm 1] at hcell
    have hone : data.read a.length 1 = [0] := by simp [Memory.read, hnul]
    rw [show data.size - (a.length + 1) + 1 = data.size - a.length by omega, hone] at hcell
    rwa [Nat.add_sub_cancel' hsize.le, hread, Nat.zero_add, hcell] at happend
  have htext : textOf data = a.takeWhile (· ≠ 0) := by
    rw [textOf, hsplit, takeWhile_append_nul]
  rw [htext]
  exact ⟨rfl, Nat.lt_of_le_of_lt (List.takeWhile_prefix _).length_le hsize⟩

theorem strstr_eq_some {pat : Bytes} {p : Nat} (h : search pat (textOf data) = some p) :
    strstr data pat = .ok (some p) := by
  rw [textOf] at h
  rw [strstr, h]

theorem strstr_eq_none {pat : Bytes} (h : search pat (textOf data) = none)
    (hnul : (textOf data).length < data.size) : strstr data pat = .ok none := by
  rw [textOf] at h hnul
  rw [strstr, h]
  exact if_pos hnul

/-- What the check says of a header that ends at `p`, with the number `v` as the length of
the body. -/
def framed (data_len p : Nat) (v : Int) : Int :=
  let pkglen := ((p + 4 + v : Int) % 4294967296).toNat
  if pkglen ≤ data_len then toInt pkglen else 0

variable {data_len p q : Nat}

theorem net_complete_http_short (h : data_len < 14) : net_complete_http data data_len = .ok 0 :=
  if_pos h

theorem net_complete_http_body (h : ¬ data_len < 14)
    (hp : search CRLFCRLF (textOf data) = some p)
    (hq : search CONTENT_LENGTH (textOf data) = some q) :
    net_complete_http data data_len =
      .ok (framed data_len p (atoi ((textOf data).drop (q + 15)))) := by
  rw [net_complete_http, if_neg h, strstr_eq_some hp]
  dsimp only
  rw [strstr_eq_some hq]
  rfl

theorem net_complete_http_no_body (h : ¬ data_len < 14)
    (hp : search CRLFCRLF (textOf data) = some p)
    (hq : search CONTENT_LENGTH (textOf data) = none)
    (hnul : (textOf data).length < data.size) :
    net_complete_http data data_len = .ok (toInt (p + 4)) := by
  rw [net_complete_http, if_neg h, strstr_eq_some hp]
  dsimp only
  rw [strstr_eq_none hq hnul]

theorem net_complete_http_no_header (h : ¬ data_len < 14)
    (hp : search CRLFCRLF (textOf data) = none) (hnul : (textOf data).length < data.size) :
    net_complete_http data data_len = .ok (if 10240000 < data_len then -1 else 0) := by
  rw [net_complete_http, if_neg h, strstr_eq_none hp hnul]

end Text

end CommonCc
