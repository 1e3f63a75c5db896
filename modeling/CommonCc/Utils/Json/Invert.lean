import CommonCc.Utils.Json.Escape

/-!
# Where `decode` inverts `encode`

A run of backslashes is doubled by `encode`.  The passes of `decode` for `\r` and `\n`
come before the one that halves the run, so its last backslash is taken for the mark of
a letter `r` or `n` that stands behind it.
-/

namespace CommonCc

namespace Json

/-- What comes out: a letter `r` or `n` behind a backslash becomes a line end. -/
def mangle : Bool → Bytes → Bytes
  | _, [] => []
  | slash, c :: s =>
      (if slash ∧ c = 114 then 13 else if slash ∧ c = 110 then 10 else c) :: mangle (c = 92) s

/-! ## Blocks of backslashes -/

theorem encode_backslashes (k : Nat) (s : Bytes) :
    encode (List.replicate k 92 ++ s) = List.replicate (2 * k) 92 ++ encode s := by
  induction k with
  | zero => simp
  | succ k ih =>
      rw [List.replicate_succ, List.cons_append, encode_flatMap, List.flatMap_cons,
        ← encode_flatMap, ih, Nat.mul_succ]
      rfl

theorem encode_cons {c : UInt8} (hc : c ≠ 92) (s : Bytes) :
    encode (c :: s) = escape c ++ encode s := by
  rw [encode_flatMap, encode_flatMap, List.flatMap_cons, if_neg hc]

theorem decode_backslashes (m : Nat) :
    decode (List.replicate m 92) = List.replicate ((m + 1) / 2) 92 := by
  have hpair : ∀ x : UInt8, [92, x] ≠ [] := fun x => List.cons_ne_nil 92 [x]
  have hrun : ∀ {x y : UInt8}, x ≠ 92 →
      replaceAll [92, x] [y] (List.replicate m 92) = List.replicate m 92 := by
    intro x y hx
    apply replaceAll_of_search_none
    apply search_eq_none
    intro j _ hpre
    have hmem : x ∈ List.replicate m 92 := List.mem_of_mem_drop (hpre.subset (by simp))
    exact hx (List.eq_of_mem_replicate hmem)
  have hdouble := replaceAll_double (b := (92 : UInt8)) (s := []) (by simp) m
  rw [List.append_nil, replaceAll_nil, List.append_nil] at hdouble
  simp only [decode, replacePass_eq (hpair _)]
  rw [hrun (by decide), hrun (by decide), hrun (by decide), hdouble]

/-- A run of backslashes with the character behind it: the character is a letter that the
last backslash marks, or it is left alone. -/
theorem decode_block {y : UInt8} (hy : y ≠ 92) (m : Nat) (s : Bytes) :
    decode (List.replicate m 92 ++ y :: s) =
      if (y = 34 ∨ y = 114 ∨ y = 110) ∧ m ≠ 0 then
        List.replicate (m / 2) 92 ++
          (if y = 34 then 34 else if y = 114 then 13 else 10) :: decode s
      else List.replicate ((m + 1) / 2) 92 ++ y :: decode s := by
  have hpair : ∀ x : UInt8, [92, x] ≠ [] := fun x => List.cons_ne_nil 92 [x]
  have hdouble : ∀ {z : UInt8} (n : Nat) (t : Bytes), z ≠ 92 →
      replaceAll [92, 92] [92] (List.replicate n 92 ++ z :: t) =
        List.replicate ((n + 1) / 2) 92 ++ z :: replaceAll [92, 92] [92] t := by
    intro z n t hz
    have hskip : ¬ [92, 92] <+: z :: t := fun h => hz (List.cons_prefix_cons.mp h).1.symm
    rw [replaceAll_double (by simpa using hz), replaceAll_cons_skip hskip]
  have hhalf : m ≠ 0 → (m - 1 + 1) / 2 = m / 2 := fun h => by
    rw [Nat.sub_one_add_one h]
  have hmark : ∀ {x z : UInt8} (n : Nat) (t : Bytes), x ≠ 92 → z ≠ 92 → ∀ r : Bytes,
      replaceAll [92, x] r (List.replicate n 92 ++ z :: t) =
        if z = x ∧ n ≠ 0 then List.replicate (n - 1) 92 ++ r ++ replaceAll [92, x] r t
        else List.replicate n 92 ++ z :: replaceAll [92, x] r t :=
    fun n t hx hz r => replaceAll_run hx hz n t
  simp only [decode, replacePass_eq (hpair _)]
  by_cases hlast : (y = 34 ∨ y = 114 ∨ y = 110) ∧ m ≠ 0
  · obtain ⟨hletter, hm⟩ := hlast
    rcases hletter with rfl | rfl | rfl <;>
      simp [hmark, hdouble, hm, hhalf hm]
  · rw [if_neg hlast]
    have hother : ∀ x : UInt8, x = 34 ∨ x = 114 ∨ x = 110 → ¬ (y = x ∧ m ≠ 0) := by
      rintro x hx ⟨rfl, hm⟩
      exact hlast ⟨hx, hm⟩
    rw [hmark m s (by decide) hy, if_neg (hother 34 (by simp)), hmark m _ (by decide) hy,
      if_neg (hother 114 (by simp)), hmark m _ (by decide) hy, if_neg (hother 110 (by simp)),
      hdouble m _ hy]

/-- What `decode` makes of an encoded text. -/
theorem decode_encode_run (s : Bytes) (k : Nat) :
    decode (encode (List.replicate k 92 ++ s)) =
      List.replicate k 92 ++ mangle (k ≠ 0) s := by
  induction s generalizing k with
  | nil =>
      have hhalf : (2 * k + 1) / 2 = k := by omega
      rw [List.append_nil, mangle, List.append_nil, ← List.append_nil (List.replicate k 92),
        encode_backslashes, encode_flatMap, List.flatMap_nil, List.append_nil, List.append_nil,
        decode_backslashes, hhalf]
  | cons c s ih =>
      by_cases hc : c = 92
      · subst hc
        have hmove : List.replicate k (92 : UInt8) ++ 92 :: s =
            List.replicate (k + 1) 92 ++ s := by
          rw [List.replicate_succ', List.append_assoc, List.singleton_append]
        rw [hmove, ih (k + 1), mangle, List.replicate_succ', List.append_assoc]
        simp
      · have hrest : decode (encode s) = mangle false s := by
          simpa using ih 0
        have hplain : mangle (k ≠ 0) (c :: s) = (if k ≠ 0 ∧ c = 114 then 13
            else if k ≠ 0 ∧ c = 110 then 10 else c) :: decode (encode s) := by
          simp [mangle, hc, hrest]
        -- a character that `encode` marks adds its own backslash to the run
        have hmarked : ∀ d : UInt8, (d = 34 ∨ d = 114 ∨ d = 110) →
            decode (List.replicate (2 * k) 92 ++ 92 :: d :: encode s) =
              List.replicate k 92 ++
                (if d = 34 then 34 else if d = 114 then 13 else 10) :: decode (encode s) := by
          intro d hd
          have hne : d ≠ 92 := by
            rcases hd with rfl | rfl | rfl <;> decide
          have hodd : (2 * k + 1) / 2 = k := by omega
          have hrun : List.replicate (2 * k) (92 : UInt8) ++ 92 :: d :: encode s =
              List.replicate (2 * k + 1) 92 ++ d :: encode s := by
            simp [List.replicate_succ']
          rw [hrun, decode_block hne, if_pos ⟨hd, Nat.succ_ne_zero _⟩, hodd]
        rw [encode_backslashes, encode_cons hc, hplain, escape]
        by_cases h13 : c = 13
        · simp [h13, hmarked]
        · by_cases h10 : c = 10
          · simp [h10, hmarked]
          · by_cases h34 : c = 34
            · simp [h34, hmarked]
            · have heven : (2 * k + 1) / 2 = k := by omega
              have hhalf : 2 * k / 2 = k := by omega
              rw [if_neg h13, if_neg h10, if_neg h34, List.singleton_append, decode_block hc]
              by_cases hk : k = 0
              · simp [hk]
              · by_cases h114 : c = 114
                · simp [h114, hk]
                · by_cases h110 : c = 110
                  · simp [h110, hk]
                  · simp [h34, h114, h110, hk, heven]

theorem decode_encode_eq (s : Bytes) : decode (encode s) = mangle false s := by
  simpa using decode_encode_run s 0

/-! ## The texts that survive -/

theorem mangle_eq_iff (slash : Bool) (s : Bytes) :
    mangle slash s = s ↔
      (slash = true → ∀ c ∈ s.head?, c ≠ 114 ∧ c ≠ 110) ∧
        ¬ [92, 114] <:+: s ∧ ¬ [92, 110] <:+: s := by
  induction s generalizing slash with
  | nil => simp [mangle]
  | cons c s ih =>
      have hkeep : (if slash = true ∧ c = 114 then 13 else if slash = true ∧ c = 110 then 10
          else c) = c ↔ (slash = true → c ≠ 114 ∧ c ≠ 110) := by
        by_cases h114 : c = 114
        · subst h114
          cases slash <;> simp
        · by_cases h110 : c = 110
          · subst h110
            cases slash <;> simp
          · simp [h114, h110]
      have hpre : ∀ x : UInt8, [92, x] <+: c :: s ↔ c = 92 ∧ x ∈ s.head? := by
        intro x
        rw [List.cons_prefix_cons]
        cases s <;> simp [eq_comm]
      rw [mangle, List.cons.injEq, hkeep, ih, List.infix_cons_iff, List.infix_cons_iff, hpre, hpre]
      by_cases hc : c = 92
      · subst hc
        cases s <;> simp
        grind
      · simp [hc]

/-- Decoding gives the encoded text back exactly when no backslash in it stands right before
a letter `r` or `n`. -/
theorem decode_encode_iff (s : Bytes) :
    decode (encode s) = s ↔ ¬ [92, 114] <:+: s ∧ ¬ [92, 110] <:+: s := by
  rw [decode_encode_eq, mangle_eq_iff]
  simp

/-- A backslash and a letter `n` come back as a backslash and a line feed. -/
theorem decode_encode_backslash_n : decode (encode [92, 110]) ≠ [92, 110] := by
  decide +kernel

end Json

end CommonCc
