import CommonCc.Base

/-!
# Numbers in a text

What `strtol` and `atoi` read at the start of a text, and how what follows can change it.
-/

namespace CommonCc

theorem strtol_space {c : UInt8} (h : isSpace c = true) (s : Bytes) :
    strtol (c :: s) = strtol s := by
  rw [strtol, strtol, List.dropWhile_cons_of_pos h]

/-- A text that starts with a digit is read as digits. -/
theorem strtol_digit {d : UInt8} (h : isDigit d = true) (s : Bytes) :
    strtol (d :: s) = min (digitsValue ((d :: s).takeWhile isDigit) : Int) 9223372036854775807 := by
  obtain ⟨hspace, hminus, hplus⟩ := plain_of_isDigit h
  rw [strtol, List.dropWhile_cons_of_neg (by simp [hspace])]
  simp only [hminus, hplus, if_false]

theorem dropWhile_append_cons {p : UInt8 → Bool} {r w : Bytes} {c : UInt8}
    (h : r.dropWhile p = c :: w) (s : Bytes) : (r ++ s).dropWhile p = c :: (w ++ s) := by
  rw [List.dropWhile_append, h]
  rfl

theorem dropWhile_append_nil {p : UInt8 → Bool} {r : Bytes} (h : r.dropWhile p = [])
    (s : Bytes) : (r ++ s).dropWhile p = s.dropWhile p := by
  rw [List.dropWhile_append, h]
  rfl

theorem takeWhile_append_stop {p : UInt8 → Bool} {c : UInt8} (h : p c = false) (r s : Bytes) :
    (r ++ c :: s).takeWhile p = r.takeWhile p := by
  induction r with
  | nil => rw [List.nil_append, List.takeWhile_cons_of_neg (by simp [h]), List.takeWhile_nil]
  | cons a r ih => rw [List.cons_append, List.takeWhile_cons, List.takeWhile_cons, ih]

/-- What cannot be part of a number ends it. -/
theorem strtol_append_stop {c : UInt8} (hspace : isSpace c = false) (hdigit : isDigit c = false)
    (hminus : c ≠ 45) (hplus : c ≠ 43) (r s : Bytes) : strtol (r ++ c :: s) = strtol r := by
  cases hw : r.dropWhile isSpace with
  | nil =>
      rw [strtol, strtol, dropWhile_append_nil hw, hw,
        List.dropWhile_cons_of_neg (by simp [hspace])]
      simp only [hminus, hplus, if_false]
      rw [List.takeWhile_cons_of_neg (by simp [hdigit])]
      rfl
  | cons a w =>
      rw [strtol, strtol, dropWhile_append_cons hw, hw]
      dsimp only
      rw [← List.cons_append, takeWhile_append_stop hdigit]
      by_cases hsign : a = 43
      · rw [if_pos hsign, if_pos hsign, takeWhile_append_stop hdigit]
      · rw [if_neg hsign, if_neg hsign, takeWhile_append_stop hdigit]

theorem digitsValue_nines (ds : Bytes) (k : Nat) :
    digitsValue (ds ++ List.replicate k 57) + 1 = (digitsValue ds + 1) * 10 ^ k := by
  induction k with
  | zero => simp
  | succ k ih =>
      have hnine : (57 : UInt8).toNat - 48 = 9 := rfl
      rw [List.replicate_succ', ← List.append_assoc, digitsValue, List.foldl_append, ← digitsValue,
        List.foldl_cons, List.foldl_nil, hnine, Nat.pow_succ, ← Nat.mul_assoc, ← ih]
      omega

/-- The digits at the end of a text either end in it, or can be made to pass any `long`. -/
theorem digits_append_or (ds : Bytes) :
    (∀ s : Bytes, (ds ++ s).takeWhile isDigit = ds.takeWhile isDigit) ∨
      9223372036854775808 ≤ digitsValue ((ds ++ List.replicate 19 57).takeWhile isDigit) := by
  by_cases hall : (ds.takeWhile isDigit).length = ds.length
  · right
    have hnines : (List.replicate 19 (57 : UInt8)).takeWhile isDigit = List.replicate 19 57 := by
      decide
    have hvalue := digitsValue_nines ds 19
    rw [List.takeWhile_append, if_pos hall, hnines]
    omega
  · left
    intro s
    rw [List.takeWhile_append, if_neg hall]

/-- No continuation changes the number at the end of a text, or some digits make it as large,
or as small, as a `long` can be. -/
theorem atoi_append_or (r : Bytes) :
    (∀ s, atoi (r ++ s) = atoi r) ∨ atoi (r ++ List.replicate 19 57) = 0 ∨
      atoi (r ++ List.replicate 19 57) = -1 := by
  have hmin : toInt (-9223372036854775808) = 0 := rfl
  have hmax : toInt 9223372036854775807 = -1 := rfl
  cases hw : r.dropWhile isSpace with
  | nil =>
      have hnines : strtol (List.replicate 19 57) = 9223372036854775807 := by decide
      right
      right
      rw [atoi, strtol, dropWhile_append_nil hw, ← strtol, hnines, hmax]
  | cons a w =>
      have hread : ∀ s, strtol (r ++ s) =
          if a = 45 then max (-(digitsValue ((w ++ s).takeWhile isDigit) : Int)) (-9223372036854775808)
          else min (digitsValue (((if a = 43 then w else a :: w) ++ s).takeWhile isDigit) : Int)
            9223372036854775807 := by
        intro s
        rw [strtol, dropWhile_append_cons hw]
        dsimp only
        rw [apply_ite (· ++ s)]
        rfl
      have hself := hread []
      rw [List.append_nil, List.append_nil, List.append_nil] at hself
      by_cases hminus : a = 45
      · cases digits_append_or w with
        | inl hends =>
            left
            intro s
            rw [atoi, atoi, hread, hself, if_pos hminus, if_pos hminus, hends]
        | inr hlarge =>
            right
            left
            rw [atoi, hread, if_pos hminus, Int.max_eq_right (by omega), hmin]
      · cases digits_append_or (if a = 43 then w else a :: w) with
        | inl hends =>
            left
            intro s
            rw [atoi, atoi, hread, hself, if_neg hminus, if_neg hminus, hends]
        | inr hlarge =>
            right
            right
            rw [atoi, hread, if_neg hminus, Int.min_eq_right (by omega), hmax]

/-- A number is read up to the first character that is no digit. -/
theorem atoi_decimal {n : Nat} (h : n < 2147483648) {c : UInt8} (hc : isDigit c = false)
    (rest : Bytes) : atoi (32 :: (decimal n ++ c :: rest)) = n := by
  obtain ⟨d, ds, hd⟩ := List.exists_cons_of_ne_nil (decimal_ne_nil n)
  have hdigits : ∀ x ∈ d :: ds, isDigit x = true := by
    intro x hx
    rw [← hd] at hx
    exact isDigit_of_mem_decimal hx
  have hstop : ¬ isDigit c = true := by simp [hc]
  have hall : (d :: ds ++ c :: rest).takeWhile isDigit = d :: ds := by
    rw [List.takeWhile_append_of_pos hdigits, List.takeWhile_cons_of_neg hstop, List.append_nil]
  have hvalue := digitsValue_decimal n
  rw [hd] at hvalue
  rw [List.cons_append] at hall
  rw [atoi, strtol_space (by decide), hd, List.cons_append,
    strtol_digit (hdigits d List.mem_cons_self), hall, hvalue, toInt_of_mem (by omega) (by omega)]
  omega

/-! ## Lengths -/

theorem decimal_length_le {n k : Nat} (h : n < 10 ^ (k + 1)) : (decimal n).length ≤ k + 1 := by
  induction k generalizing n with
  | zero =>
      have hlt : n < 10 := h
      rw [decimal, if_pos hlt]
      exact Nat.le_refl 1
  | succ k ih =>
      rw [decimal]
      split
      · exact Nat.le_add_left 1 (k + 1)
      · have hdiv : n / 10 < 10 ^ (k + 1) := by
          rw [Nat.pow_succ] at h
          exact (Nat.div_lt_iff_lt_mul (by decide)).mpr h
        rw [List.length_append, List.length_singleton]
        exact Nat.succ_le_succ (ih hdiv)

theorem printLong_length_le {z : Int} (h : z.natAbs < 10000000000) : (printLong z).length ≤ 11 := by
  have hdigits : (decimal z.natAbs).length ≤ 10 := decimal_length_le h
  unfold printLong
  split
  · exact Nat.succ_le_succ hdigits
  · exact Nat.le_succ_of_le hdigits

end CommonCc
