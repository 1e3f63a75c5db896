import CommonCc.Base
import CommonCc.Lib.Glob

/-!
# Wildcards

`StringUtility::MatchWildcard` and the two functions behind it.  An iterator is the text
from its place on.  `char` is signed and has eight bits.
-/

namespace CommonCc

/-- The value of a byte as a `char`. -/
def schar (c : UInt8) : Int := if c.toNat < 128 then c.toNat else c.toNat - 256

namespace StringUtility

/-! ## Sets -/

/-- `for (char ch = first; ch <= last; ch++) strRealCharSet += ch`.  The test of a loop
that ends is made at most 256 times, once for each value of `ch`. -/
def rangeLoop (last : UInt8) : Nat → UInt8 → Bytes → Except Fault Bytes
  | 0, _, _ => .error .diverges
  | n + 1, ch, strRealCharSet =>
      if schar ch ≤ schar last then rangeLoop last n (ch + 1) (strRealCharSet ++ [ch])
      else .ok strRealCharSet

/-- `strRealCharSet.erase(strRealCharSet.end() - 1)`. -/
def eraseLast (strRealCharSet : Bytes) : Except Fault Bytes :=
  if strRealCharSet = [] then .error .outOfBounds else .ok strRealCharSet.dropLast

/-- The loop of `_MatchSet` from `i` on.  `before` is `*(i - 1)`, and `none` at the begin.
The result is `none` when the function returns `false` in the loop. -/
def setLoop : Option UInt8 → Bytes → Bytes → Except Fault (Option Bytes)
  | _, [], strRealCharSet => .ok (some strRealCharSet)
  | before, c :: rest, strRealCharSet =>
      if c = 45 then
        if before = none then setLoop (some c) rest (strRealCharSet ++ [c])
        else
          match rest with
          | [] => .ok none
          | last :: rest => do
              let strRealCharSet ← eraseLast strRealCharSet
              let first ← checked before
              let strRealCharSet ← rangeLoop last 256 first strRealCharSet
              setLoop (some last) rest strRealCharSet
      else if c = 92 then
        match rest with
        | [] => .ok none
        | e :: rest => setLoop (some e) rest (strRealCharSet ++ [e])
      else setLoop (some c) rest (strRealCharSet ++ [c])

/-- `_MatchSet`. -/
def MatchSet (strPattern : Bytes) (strMatch : UInt8) : Except Fault Bool := do
  match ← setLoop none strPattern [] with
  | none => pure false
  | some strRealCharSet => pure (strMatch ∈ strRealCharSet)

/-- The text up to the `]` of a set, and what comes behind it.  There is none when the
pattern ends before, or with a backslash. -/
def setEnd : Bytes → Option (Bytes × Bytes)
  | [] => none
  | c :: rest =>
      if c = 93 then some ([], rest)
      else if c = 92 then
        match rest with
        | [] => none
        | e :: rest => (setEnd rest).map fun p => (c :: e :: p.1, p.2)
      else (setEnd rest).map fun p => (c :: p.1, p.2)

/-! ## Matching -/

mutual

/-- `_MatchRemainder`. -/
def MatchRemainder : Bytes → Bytes → Except Fault Bool
  | x :: itWild, c :: itMatch =>
      if x = 42 then starLoop itWild itMatch
      else if x = 91 then
        match setEnd itWild with
        | none => .ok false
        | some (strPattern, itWild) => do
            if ← MatchSet strPattern c then MatchRemainder itWild itMatch else pure false
      else if x = 63 then MatchRemainder itWild itMatch
      else if x = 92 then
        match itWild with
        | [] => .ok false
        | e :: itWild => if e = c then MatchRemainder itWild itMatch else .ok false
      else if x = c then MatchRemainder itWild itMatch
      else .ok false
  | itWild, itMatch => .ok (itWild.isEmpty && itMatch.isEmpty)
termination_by _ itMatch => 2 * itMatch.length

/-- The loop over `i` behind a `*`. -/
def starLoop : Bytes → Bytes → Except Fault Bool
  | _, [] => .ok false
  | itWild, c :: i =>
      if itWild = [] then
        if i = [] then .ok true else starLoop itWild i
      else do
        if ← MatchRemainder itWild (c :: i) then pure true else starLoop itWild i
termination_by _ i => 2 * i.length + 1

end

def MatchWildcard (strWild strMatch : Bytes) : Except Fault Bool := MatchRemainder strWild strMatch

/-! ## One round of the loop -/

section Rounds

variable {itWild itMatch : Bytes} {c : UInt8}

theorem MatchRemainder_nil (itWild : Bytes) : MatchRemainder itWild [] = .ok itWild.isEmpty := by
  cases itWild with
  | nil => rw [MatchRemainder.eq_def]; rfl
  | cons x itWild => rw [MatchRemainder.eq_def]; rfl

theorem MatchRemainder_end (itMatch : Bytes) : MatchRemainder [] itMatch = .ok itMatch.isEmpty := by
  rw [MatchRemainder.eq_def]
  rfl

theorem MatchRemainder_star (itWild : Bytes) (c : UInt8) (itMatch : Bytes) :
    MatchRemainder (42 :: itWild) (c :: itMatch) = starLoop itWild itMatch := by
  rw [MatchRemainder.eq_def]
  rfl

theorem MatchRemainder_any (itWild : Bytes) (c : UInt8) (itMatch : Bytes) :
    MatchRemainder (63 :: itWild) (c :: itMatch) = MatchRemainder itWild itMatch := by
  rw [MatchRemainder.eq_def]
  rfl

theorem MatchRemainder_escape (e : UInt8) (itWild : Bytes) (c : UInt8) (itMatch : Bytes) :
    MatchRemainder (92 :: e :: itWild) (c :: itMatch) =
      if e = c then MatchRemainder itWild itMatch else .ok false := by
  rw [MatchRemainder.eq_def]
  rfl

theorem MatchRemainder_plain {x : UInt8} (hstar : x ≠ 42) (hset : x ≠ 91) (hany : x ≠ 63)
    (hslash : x ≠ 92) :
    MatchRemainder (x :: itWild) (c :: itMatch) =
      if x = c then MatchRemainder itWild itMatch else .ok false := by
  rw [MatchRemainder.eq_def]
  simp only [if_neg hstar, if_neg hset, if_neg hany, if_neg hslash]

theorem MatchRemainder_set {strPattern rest : Bytes} (h : setEnd itWild = some (strPattern, rest)) :
    MatchRemainder (91 :: itWild) (c :: itMatch) =
      MatchSet strPattern c >>= fun b => if b then MatchRemainder rest itMatch else .ok false := by
  have hstar : ¬ (91 : UInt8) = 42 := by decide
  rw [MatchRemainder.eq_def]
  simp only [if_neg hstar, if_true, h]
  rfl

theorem MatchRemainder_open (h : setEnd itWild = none) :
    MatchRemainder (91 :: itWild) (c :: itMatch) = .ok false := by
  have hstar : ¬ (91 : UInt8) = 42 := by decide
  rw [MatchRemainder.eq_def]
  simp only [if_neg hstar, if_true, h]

theorem starLoop_end (i : Bytes) : starLoop [] i = .ok !i.isEmpty := by
  induction i with
  | nil => rw [starLoop.eq_def]; rfl
  | cons c i ih =>
      rw [starLoop.eq_def]
      show (if i = [] then _ else starLoop [] i) = _
      by_cases hi : i = []
      · rw [if_pos hi]
        rfl
      · rw [if_neg hi, ih]
        cases i with
        | nil => exact absurd rfl hi
        | cons d i => rfl

/-- With more pattern behind the `*`, the loop tries it on what is left of the text. -/
theorem starLoop_eq (h : itWild ≠ []) (i : Bytes) :
    starLoop itWild i = trySuffixes (MatchRemainder itWild) i := by
  induction i with
  | nil => rw [starLoop.eq_def]; rfl
  | cons c i ih =>
      rw [starLoop.eq_def, trySuffixes, ← ih]
      simp only [if_neg h]
      rfl

end Rounds

end StringUtility

end CommonCc
