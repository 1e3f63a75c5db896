import CommonCc.Base
import CommonCc.Lib.Strip

/-!
# Trimming

`StringUtility::TrimLeft`, `TrimRight` and `TrimBothSides`.  A loop over an index keeps the
text from that index on, or the proof that the index lies in the text.
-/

namespace CommonCc

namespace StringUtility

/-- The loop over `dwBeginPos`, with the text from there on. -/
def trimBegin (strTarget : Bytes) : Bytes → Nat → Nat
  | [], dwBeginPos => dwBeginPos
  | c :: rest, dwBeginPos =>
      if c ∈ strTarget then trimBegin strTarget rest (dwBeginPos + 1) else dwBeginPos

/-- The loop over `dwEndPos`, which does not test the first character. -/
def trimEnd (strTarget strValue : Bytes) : (dwEndPos : Nat) → dwEndPos < strValue.length → Nat
  | 0, _ => 0
  | dwEndPos + 1, h =>
      if strValue[dwEndPos + 1] ∈ strTarget then
        trimEnd strTarget strValue dwEndPos (Nat.lt_of_succ_lt h)
      else dwEndPos + 1

def TrimBothSides (strValue strTarget : Bytes) : Bytes :=
  if h : strValue.length = 0 then []
  else
    let dwBeginPos := trimBegin strTarget strValue 0
    let dwEndPos :=
      trimEnd strTarget strValue (strValue.length - 1) (Nat.sub_one_lt h)
    if dwEndPos < dwBeginPos then []
    else (strValue.drop dwBeginPos).take (dwEndPos - dwBeginPos + 1)

def TrimLeft (strValue strTarget : Bytes) : Bytes :=
  if strValue.length = 0 then []
  else
    let dwBeginPos := trimBegin strTarget strValue 0
    if dwBeginPos = strValue.length - 1 then [] else strValue.drop dwBeginPos

def TrimRight (strValue strTarget : Bytes) : Bytes :=
  if h : strValue.length = 0 then []
  else
    let dwEndPos :=
      trimEnd strTarget strValue (strValue.length - 1) (Nat.sub_one_lt h)
    if dwEndPos = 0 then [] else strValue.take (dwEndPos + 1)

/-! ## The two loops -/

/-- The characters that the loops pass over. -/
def inTarget (strTarget : Bytes) (c : UInt8) : Bool := decide (c ∈ strTarget)

variable {s t : Bytes}

theorem trimBegin_eq (t s : Bytes) (pos : Nat) :
    trimBegin t s pos + (s.dropWhile (inTarget t)).length = pos + s.length := by
  induction s generalizing pos with
  | nil => rfl
  | cons c s ih =>
      rw [trimBegin]
      split
      · next hc =>
          rw [List.dropWhile_cons_of_pos (by simpa [inTarget] using hc), ih, List.length_cons]
          omega
      · next hc =>
          rw [List.dropWhile_cons_of_neg (by simpa [inTarget] using hc)]

theorem trimEnd_eq (t s : Bytes) (pos : Nat) (h : pos < s.length) :
    trimEnd t s pos h = ((s.take (pos + 1)).rdropWhile (inTarget t)).length - 1 := by
  induction pos with
  | zero =>
      have hle := (List.rdropWhile_prefix (inTarget t) (l := s.take 1)).length_le
      rw [trimEnd, Nat.zero_add]
      rw [List.length_take] at hle
      omega
  | succ pos ih =>
      rw [trimEnd, List.take_succ_eq_append_getElem h]
      split
      · next hc =>
          rw [List.rdropWhile_concat_pos _ _ _ (by simpa [inTarget] using hc)]
          exact ih (Nat.lt_of_succ_lt h)
      · next hc =>
          rw [List.rdropWhile_concat_neg _ _ _ (by simpa [inTarget] using hc), List.length_append,
            List.length_take]
          simp only [List.length_singleton]
          omega

/-- The text from the index at which the first loop stops. -/
theorem drop_trimBegin (t s : Bytes) : s.drop (trimBegin t s 0) = s.dropWhile (inTarget t) := by
  have hpos := trimBegin_eq t s 0
  obtain ⟨a, ha⟩ := List.dropWhile_suffix (inTarget t) (l := s)
  have hlen : trimBegin t s 0 = a.length := by
    have hsum := congrArg List.length ha
    rw [List.length_append] at hsum
    omega
  conv_lhs => rw [hlen, ← ha]
  exact List.drop_left

/-! ## The three functions -/

theorem TrimLeft_eq (s t : Bytes) : TrimLeft s t =
    if (s.dropWhile (inTarget t)).length = 1 then [] else s.dropWhile (inTarget t) := by
  have hpos := trimBegin_eq t s 0
  have hle := (List.dropWhile_suffix (inTarget t) (l := s)).length_le
  unfold TrimLeft
  split
  · next hnil => simp [List.length_eq_zero_iff.mp hnil]
  · next hne =>
      simp only [drop_trimBegin]
      split
      · rw [if_pos (by omega)]
      · rw [if_neg (by omega)]

theorem trimEnd_last (t s : Bytes) (h : s.length - 1 < s.length) :
    trimEnd t s (s.length - 1) h = (s.rdropWhile (inTarget t)).length - 1 := by
  rw [trimEnd_eq, Nat.sub_add_cancel (by omega), List.take_length]

theorem TrimRight_eq (s t : Bytes) : TrimRight s t =
    if (s.rdropWhile (inTarget t)).length = 1 then [] else s.rdropWhile (inTarget t) := by
  have hprefix := List.rdropWhile_prefix (inTarget t) (l := s)
  unfold TrimRight
  split
  · next hnil => simp [List.length_eq_zero_iff.mp hnil]
  · simp only [trimEnd_last]
    split
    · next hzero =>
        split
        · rfl
        · exact (List.length_eq_zero_iff.mp (by omega)).symm
    · next hpos =>
        rw [if_neg (by omega), Nat.sub_add_cancel (by omega)]
        exact (List.prefix_iff_eq_take.mp hprefix).symm

/-- The text between the first and the last character that is not in the set. -/
theorem TrimBothSides_eq (s t : Bytes) : TrimBothSides s t = strip (inTarget t) s := by
  have hbegin := trimBegin_eq t s 0
  unfold TrimBothSides
  split
  · next hnil => simp [List.length_eq_zero_iff.mp hnil, strip_nil]
  · next hne =>
      simp only [trimEnd_last, drop_trimBegin]
      by_cases hall : s.rdropWhile (inTarget t) = []
      · have hdrop : s.dropWhile (inTarget t) = [] :=
          List.dropWhile_eq_nil_iff.mpr (List.rdropWhile_eq_nil_iff.mp hall)
        rw [hdrop, List.length_nil] at hbegin
        rw [hall, List.length_nil, if_pos (by omega), strip, hall]
        rfl
      · have hparts := dropWhile_eq_strip_append hall
        have hkept := List.length_pos_iff.mpr (strip_ne_nil hall)
        have hsum := congrArg List.length
          (List.rdropWhile_append_rtakeWhile (p := inTarget t) (l := s))
        rw [hparts, List.length_append] at hbegin
        rw [List.length_append] at hsum
        have hwidth : (s.rdropWhile (inTarget t)).length - 1 - trimBegin t s 0 + 1 =
            (strip (inTarget t) s).length := by omega
        rw [if_neg (by omega), hwidth, hparts, List.take_left]

/-! ## Where they agree -/

/-- What the three functions promise. -/
structure TrimsAgree (s t : Bytes) : Prop where
  left : TrimLeft s t = s.dropWhile (inTarget t)
  right : TrimRight s t = s.rdropWhile (inTarget t)
  left_right : TrimBothSides s t = TrimLeft (TrimRight s t) t
  right_left : TrimBothSides s t = TrimRight (TrimLeft s t) t

/-- They agree unless exactly one character of the text is not in the set. -/
theorem trims_agree_iff (s t : Bytes) :
    TrimsAgree s t ↔ s.countP (fun c => !inTarget t c) ≠ 1 := by
  constructor
  · intro h hone
    have hlen := length_strip_eq_one_iff.mpr hone
    have hboth := h.left_right
    -- one character is left, which the second call takes away
    rw [TrimBothSides_eq, h.right, TrimLeft_eq, ← strip, if_pos hlen] at hboth
    rw [hboth] at hlen
    cases hlen
  · intro h
    have hleft : TrimLeft s t = s.dropWhile (inTarget t) := by
      rw [TrimLeft_eq, if_neg fun hone => h (countP_eq_one_of_dropWhile hone)]
    have hright : TrimRight s t = s.rdropWhile (inTarget t) := by
      rw [TrimRight_eq, if_neg fun hone => h (countP_eq_one_of_rdropWhile hone)]
    have hboth : (strip (inTarget t) s).length ≠ 1 := mt length_strip_eq_one_iff.mp h
    constructor
    · exact hleft
    · exact hright
    · rw [TrimBothSides_eq, hright, TrimLeft_eq, ← strip, if_neg hboth]
    · rw [TrimBothSides_eq, hleft, TrimRight_eq, ← strip_comm, if_neg hboth]

/-- The only character is taken away, too. -/
theorem trims_disagree :
    ¬ ∀ s t, TrimsAgree s t := by
  intro h
  have hleft := (h [32, 97] [32]).left
  revert hleft
  decide

end StringUtility

end CommonCc
