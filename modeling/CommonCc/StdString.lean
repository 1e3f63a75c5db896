import CommonCc.Base
import CommonCc.Lib.Search
import Mathlib.Data.List.DropRight

/-!
# `std::string`

Positions in a string.  `none` is `std::string::npos`, the largest value of `size_type`,
from which additions and subtractions wrap around.
-/

namespace CommonCc

/-- `s.find(pat, pos)`. -/
def find (s pat : Bytes) (pos : Nat) : Option Nat := searchFrom pat s pos

/-- `s.rfind(pat)`. -/
def rfind (s pat : Bytes) : Option Nat := searchLast pat s

/-- `pos + n` for `n > 0`. -/
def posAdd : Option Nat → Nat → Nat
  | some pos, n => pos + n
  | none, n => n - 1

/-- `s.substr(pos)`, which throws behind the end. -/
def substr (s : Bytes) (pos : Nat) : Except Fault Bytes :=
  if pos ≤ s.length then .ok (s.drop pos) else .error .outOfBounds

/-- `s.substr(pos, n)`. -/
def substrLen (s : Bytes) (pos n : Nat) : Except Fault Bytes :=
  if pos ≤ s.length then .ok ((s.drop pos).take n) else .error .outOfBounds

/-- `s.substr(pos, pos1 - pos)`.  A difference that wraps around reaches the end. -/
def substrTo (s : Bytes) (pos : Nat) : Option Nat → Except Fault Bytes
  | none => substr s pos
  | some pos1 =>
      if pos1 < pos then substr s pos
      else if pos ≤ s.length then .ok ((s.drop pos).take (pos1 - pos)) else .error .outOfBounds

/-- `s.erase(pos, n)`. -/
def eraseAt (s : Bytes) (pos n : Nat) : Except Fault Bytes :=
  if pos ≤ s.length then .ok (s.take pos ++ s.drop (pos + n)) else .error .outOfBounds

/-- `s.insert(pos, t)`. -/
def insertAt (s : Bytes) (pos : Nat) (t : Bytes) : Except Fault Bytes :=
  if pos ≤ s.length then .ok (s.take pos ++ t ++ s.drop pos) else .error .outOfBounds

/-- `s[pos] = c`, where the text stays as long as it is. -/
def setAt (s : Bytes) (pos : Nat) (c : UInt8) : Except Fault Bytes :=
  if pos < s.length then .ok (s.set pos c) else .error .outOfBounds

/-- `s.find_last_not_of(c, pos)`. -/
def findLastNotOf (s : Bytes) (c : UInt8) (pos : Nat) : Option Nat :=
  let kept := (s.take (pos + 1)).rdropWhile (· = c)
  if kept = [] then none else some (kept.length - 1)

/-! ## Positions in an `int` -/

/-- `int dwPos = s.find(pat)`, where `npos` becomes `-1`. -/
def findInt (s pat : Bytes) : Int :=
  match find s pat 0 with
  | none => -1
  | some pos => toInt pos

/-- `dwPos + n` of an `int` and a `size_t`.  There is none when the sum wraps around, which takes
it behind the end of any string. -/
def sizeAdd (dwPos : Int) (n : Nat) : Option Nat :=
  if 0 ≤ dwPos + n then some (dwPos + n).toNat else none

/-- `s.substr(0, n)`. -/
def substrHead (s : Bytes) : Option Nat → Bytes
  | none => s
  | some n => s.take n

/-- `s.substr(pos)`. -/
def substrFrom (s : Bytes) : Option Nat → Except Fault Bytes
  | none => .error .outOfBounds
  | some pos => substr s pos

theorem findInt_of_none {s pat : Bytes} (h : search pat s = none) : findInt s pat = -1 := by
  unfold findInt find searchFrom
  rw [if_pos (Nat.zero_le _), List.drop_zero, h]
  rfl

theorem findInt_of_some {s pat : Bytes} {i : Nat} (h : search pat s = some i)
    (hi : i < 2147483648) : findInt s pat = i := by
  have hint : toInt i = i := toInt_of_mem (by omega) (by omega)
  unfold findInt find searchFrom
  rw [if_pos (Nat.zero_le _), List.drop_zero, h, Option.map_some, Nat.zero_add]
  exact hint

theorem sizeAdd_of_nat (i n : Nat) : sizeAdd i n = some (i + n) := by
  rw [sizeAdd, if_pos (by omega)]
  congr 1

/-! ## What is found lies in the string -/

theorem find_spec {s pat : Bytes} {pos p : Nat} (h : find s pat pos = some p) :
    pos ≤ p ∧ p + pat.length ≤ s.length := by
  unfold find searchFrom at h
  split at h
  · next hpos =>
      cases hs : search pat (s.drop pos) with
      | none => rw [hs] at h; cases h
      | some i =>
          rw [hs] at h
          have hi := search_spec hs
          have hlen := hi.2.length_le
          rw [List.length_drop, List.length_drop] at hlen
          have hle := hi.1
          rw [List.length_drop] at hle
          have hp : pos + i = p := Option.some.inj h
          exact ⟨by omega, by omega⟩
  · cases h

theorem substr_ok {s : Bytes} {pos : Nat} (h : pos ≤ s.length) :
    substr s pos = .ok (s.drop pos) := if_pos h

theorem substrTo_ok {s : Bytes} {pos : Nat} (h : pos ≤ s.length) (pos1 : Option Nat) :
    ∃ t, substrTo s pos pos1 = .ok t := by
  cases pos1 with
  | none => exact ⟨_, substr_ok h⟩
  | some pos1 =>
      rw [substrTo, if_pos h]
      split
      · exact ⟨_, substr_ok h⟩
      · exact ⟨_, rfl⟩

/-! ## Texts cut into parts -/

variable {a b c : Bytes} {x : UInt8} {pat : Bytes}

theorem find_append (h : x ∉ b) :
    find (a ++ (b ++ (x :: pat ++ c))) (x :: pat) a.length = some (a.length + b.length) := by
  rw [find, searchFrom_append, ← List.append_assoc b, search_append_of_not_mem h]
  rfl

theorem find_zero (h : x ∉ b) : find (b ++ (x :: pat ++ c)) (x :: pat) 0 = some b.length := by
  have hfind := @find_append [] b c x pat h
  rw [List.nil_append, List.length_nil, Nat.zero_add] at hfind
  exact hfind

theorem find_zero_eq (s pat : Bytes) : find s pat 0 = search pat s := by
  rw [find, searchFrom, if_pos (Nat.zero_le _), List.drop_zero]
  cases search pat s with
  | none => rfl
  | some i => rw [Option.map_some, Nat.zero_add]

theorem find_of_not_mem (h : x ∉ b) : find (a ++ b) (x :: pat) a.length = none := by
  rw [find, searchFrom_append, search_eq_none_of_not_mem h]
  rfl

theorem substr_append (a b : Bytes) : substr (a ++ b) a.length = .ok b := by
  rw [substr, if_pos (by rw [List.length_append]; exact Nat.le_add_right _ _), List.drop_left]

theorem substrTo_append (a b c : Bytes) :
    substrTo (a ++ (b ++ c)) a.length (some (a.length + b.length)) = .ok b := by
  have hle : a.length ≤ (a ++ (b ++ c)).length := by
    rw [List.length_append]
    exact Nat.le_add_right _ _
  rw [substrTo, if_neg (Nat.not_lt.mpr (Nat.le_add_right _ _)), if_pos hle, List.drop_left,
    Nat.add_sub_cancel_left, List.take_left]

theorem substrTo_zero (b c : Bytes) : substrTo (b ++ c) 0 (some b.length) = .ok b := by
  have h := substrTo_append [] b c
  rw [List.nil_append, List.length_nil, Nat.zero_add] at h
  exact h

theorem eraseAt_append (a b c : Bytes) :
    eraseAt (a ++ (b ++ c)) a.length b.length = .ok (a ++ c) := by
  rw [eraseAt, if_pos (by rw [List.length_append]; exact Nat.le_add_right _ _), List.take_left,
    List.drop_length_add_append, List.drop_left]

theorem insertAt_append (a b c : Bytes) : insertAt (a ++ c) a.length b = .ok (a ++ b ++ c) := by
  rw [insertAt, if_pos (by rw [List.length_append]; exact Nat.le_add_right _ _), List.take_left,
    List.drop_left]

end CommonCc
