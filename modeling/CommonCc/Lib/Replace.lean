import CommonCc.Lib.Search

/-!
# Replacing a pattern

`replaceLoop` is the usual loop of find and replace over a string; `replaceAll` is
what it computes, read from left to right.
-/

namespace CommonCc

variable {α : Type} [DecidableEq α]

/-- Replace the occurrence found from `pos` on and go on behind what was put in. -/
def replaceLoop (pat rep : List α) : Nat → List α → Nat → List α
  | 0, s, _ => s
  | fuel + 1, s, pos =>
      match searchFrom pat s pos with
      | none => s
      | some i =>
          replaceLoop pat rep fuel (s.take i ++ rep ++ s.drop (i + pat.length)) (i + rep.length)

/-- Replace the occurrences of `pat` from left to right. -/
def replaceAll (pat rep : List α) : List α → List α
  | [] => []
  | c :: s =>
      if pat ≠ [] ∧ pat <+: c :: s then rep ++ replaceAll pat rep ((c :: s).drop pat.length)
      else c :: replaceAll pat rep s
termination_by s => s.length
decreasing_by
  · have hpos := List.length_pos_iff.mpr (‹_ ∧ _› : pat ≠ [] ∧ pat <+: c :: s).1
    rw [List.length_drop, List.length_cons]
    omega
  · simp

@[simp] theorem replaceAll_nil (pat rep : List α) : replaceAll pat rep [] = [] := by
  rw [replaceAll]

theorem replaceAll_match {pat rep s : List α} (hne : pat ≠ []) (h : pat <+: s) :
    replaceAll pat rep s = rep ++ replaceAll pat rep (s.drop pat.length) := by
  cases s with
  | nil => exact absurd (List.prefix_nil.mp h) hne
  | cons c s => rw [replaceAll, if_pos ⟨hne, h⟩]

theorem replaceAll_cons_skip {pat rep s : List α} {c : α} (h : ¬ pat <+: c :: s) :
    replaceAll pat rep (c :: s) = c :: replaceAll pat rep s := by
  rw [replaceAll, if_neg fun hp => h hp.2]

/-- Text without an occurrence is passed over. -/
theorem replaceAll_append_of_first {pat rep : List α} {pre s : List α}
    (h : ∀ j < pre.length, ¬ pat <+: (pre ++ s).drop j) :
    replaceAll pat rep (pre ++ s) = pre ++ replaceAll pat rep s := by
  induction pre with
  | nil => rfl
  | cons c pre ih =>
      have hfirst : ¬ pat <+: c :: (pre ++ s) := h 0 (Nat.succ_pos _)
      rw [List.cons_append, replaceAll_cons_skip hfirst, ih fun j hj => ?_,
        List.cons_append]
      exact h (j + 1) (Nat.succ_lt_succ hj)

theorem replaceAll_of_search {pat rep s : List α} {i : Nat} (hne : pat ≠ [])
    (h : search pat s = some i) :
    replaceAll pat rep s = s.take i ++ rep ++ replaceAll pat rep (s.drop (i + pat.length)) := by
  obtain ⟨hle, hpre⟩ := search_spec h
  have hfirst : ∀ j < (s.take i).length, ¬ pat <+: (s.take i ++ s.drop i).drop j := by
    intro j hj
    rw [List.length_take] at hj
    rw [List.take_append_drop]
    exact search_first h (by omega)
  conv_lhs => rw [← List.take_append_drop i s]
  rw [replaceAll_append_of_first hfirst, replaceAll_match hne hpre, List.drop_drop,
    List.append_assoc]

theorem replaceAll_of_search_none {pat rep s : List α} (h : search pat s = none) :
    replaceAll pat rep s = s := by
  have hskip := @replaceAll_append_of_first _ _ pat rep s [] fun j _ => by
    simpa using not_prefix_of_search_eq_none h j
  simpa using hskip

/-- The loop replaces all occurrences. -/
theorem replaceLoop_eq {pat rep : List α} (hne : pat ≠ []) {fuel : Nat} {out s : List α}
    (hfuel : s.length < fuel) :
    replaceLoop pat rep fuel (out ++ s) out.length = out ++ replaceAll pat rep s := by
  induction fuel generalizing out s with
  | zero => exact absurd hfuel (Nat.not_lt_zero _)
  | succ fuel ih =>
      rw [replaceLoop, searchFrom_append]
      cases hs : search pat s with
      | none => rw [replaceAll_of_search_none hs]; rfl
      | some i =>
          obtain ⟨hle, hpre⟩ := search_spec hs
          have hpos := List.length_pos_iff.mpr hne
          have hfit := hpre.length_le
          rw [List.length_drop] at hfit
          have hshape : (out ++ s).take (out.length + i) ++ rep ++
              (out ++ s).drop (out.length + i + pat.length) =
                out ++ s.take i ++ rep ++ s.drop (i + pat.length) := by
            rw [List.take_length_add_append, Nat.add_assoc, List.drop_length_add_append]
          have hpos' : out.length + i + rep.length = (out ++ s.take i ++ rep).length := by
            rw [List.length_append, List.length_append, List.length_take, Nat.min_eq_left hle]
          simp only [Option.map_some]
          rw [hshape, hpos', ih (by rw [List.length_drop]; omega), replaceAll_of_search hne hs]
          simp [List.append_assoc]

/-! ## Short patterns -/

/-- Replacing one character. -/
theorem replaceAll_singleton (a : α) (rep s : List α) :
    replaceAll [a] rep s = s.flatMap fun c => if c = a then rep else [c] := by
  induction s with
  | nil => simp
  | cons c s ih =>
      by_cases hc : c = a
      · subst hc
        rw [replaceAll_match (List.cons_ne_nil _ _) (by simp)]
        simp [ih]
      · rw [replaceAll_cons_skip (by simpa using Ne.symm hc), ih]
        simp [hc]

theorem replaceAll_of_not_mem {a : α} {pat rep s : List α} (h : a ∉ s) :
    replaceAll (a :: pat) rep s = s :=
  replaceAll_of_search_none (search_eq_none_of_not_mem h)

/-- A text in which the mark `b` only stands before one of the characters that are
written with it: replacing one of these pairs. -/
theorem replaceAll_pair {b x : α} {rep s : List α} {code : α → List α}
    (hcode : ∀ c ∈ s, (∃ d, code c = [d] ∧ d ≠ b) ∨ ∃ d, code c = [b, d] ∧ d ≠ b) :
    replaceAll [b, x] rep (s.flatMap code) =
      s.flatMap fun c => if code c = [b, x] then rep else code c := by
  induction s with
  | nil => simp
  | cons c s ih =>
      obtain ⟨hc, hs⟩ := List.forall_mem_cons.mp hcode
      rw [List.flatMap_cons, List.flatMap_cons, ← ih hs]
      rcases hc with ⟨d, hd, hdb⟩ | ⟨d, hd, hdb⟩
      · rw [hd, if_neg (by simp), List.singleton_append, List.singleton_append,
          replaceAll_cons_skip]
        exact fun hpre => hdb (List.cons_prefix_cons.mp hpre).1.symm
      · rw [hd]
        by_cases hx : d = x
        · subst hx
          rw [if_pos rfl, replaceAll_match (List.cons_ne_nil _ _) (by simp)]
          simp
        · rw [if_neg (by simpa using hx), List.cons_append, List.cons_append, List.nil_append,
            replaceAll_cons_skip, replaceAll_cons_skip]
          · rfl
          · exact fun hpre => hdb (List.cons_prefix_cons.mp hpre).1.symm
          · intro hpre
            obtain ⟨-, hpre⟩ := List.cons_prefix_cons.mp hpre
            exact hx (List.cons_prefix_cons.mp hpre).1.symm

/-! ## Runs of a mark -/

/-- After a run of marks the pair can only stand at its end. -/
theorem replaceAll_run {b x y : α} {rep : List α} (hx : x ≠ b) (hy : y ≠ b) (m : Nat)
    (s : List α) :
    replaceAll [b, x] rep (List.replicate m b ++ y :: s) =
      if y = x ∧ m ≠ 0 then List.replicate (m - 1) b ++ rep ++ replaceAll [b, x] rep s
      else List.replicate m b ++ y :: replaceAll [b, x] rep s := by
  induction m with
  | zero =>
      have hskip : ¬ [b, x] <+: y :: s := fun h => hy (List.cons_prefix_cons.mp h).1.symm
      simp [replaceAll_cons_skip hskip]
  | succ m ih =>
      cases m with
      | zero =>
          by_cases hyx : y = x
          · subst hyx
            have hpre : [b, y] <+: b :: y :: s := by simp
            simp [replaceAll_match (List.cons_ne_nil _ _) hpre]
          · have hskip : ¬ [b, x] <+: b :: y :: s := by
              simp [Ne.symm hyx]
            have hrest : replaceAll [b, x] rep (y :: s) = y :: replaceAll [b, x] rep s := by
              simpa [hyx] using ih
            simp [replaceAll_cons_skip hskip, hyx, hrest]
      | succ m =>
          have hskip : ¬ [b, x] <+: b :: (List.replicate (m + 1) b ++ y :: s) := by
            simp [List.replicate_succ, hx]
          rw [List.replicate_succ, List.cons_append, replaceAll_cons_skip hskip, ih]
          by_cases hyx : y = x <;> simp [hyx, List.replicate_succ]

/-- Marks are halved in pairs. -/
theorem replaceAll_double {b : α} {s : List α} (hs : ∀ c ∈ s.head?, c ≠ b) (m : Nat) :
    replaceAll [b, b] [b] (List.replicate m b ++ s) =
      List.replicate ((m + 1) / 2) b ++ replaceAll [b, b] [b] s := by
  induction m using Nat.twoStepInduction with
  | zero => rfl
  | one =>
      have hskip : ¬ [b, b] <+: b :: s := by
        intro h
        obtain ⟨t, ht⟩ := (List.cons_prefix_cons.mp h).2
        exact hs b (by simp [← ht]) rfl
      simp [replaceAll_cons_skip hskip]
  | more m ih _ =>
      have hpre : [b, b] <+: b :: b :: (List.replicate m b ++ s) := by simp
      have hhalf : (m + 2 + 1) / 2 = (m + 1) / 2 + 1 := by omega
      rw [List.replicate_succ, List.replicate_succ, List.cons_append, List.cons_append,
        replaceAll_match (List.cons_ne_nil _ _) hpre, hhalf, List.replicate_succ]
      simp [ih]

end CommonCc
