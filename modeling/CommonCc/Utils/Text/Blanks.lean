import CommonCc.Lib.Strip
import CommonCc.Lib.Words
import CommonCc.StdString

/-!
# Single blanks

`StringUtility::SingleBlank`.  The text is written over a text of blanks of the same length, and
cut off behind the last character that is written.
-/

namespace CommonCc

namespace StringUtility

/-- The loop, with the text from `ptr` on up to its NUL. -/
def singleLoop : Bytes → (dwCount : Nat) → (bIsFirstSpace : Bool) → (strRet : Bytes) →
    Except Fault (Nat × Bytes)
  | [], dwCount, _, strRet => .ok (dwCount, strRet)
  | c :: ptr, dwCount, bIsFirstSpace, strRet =>
      if isSpace c then
        if bIsFirstSpace then do
          let strRet ← setAt strRet dwCount 32
          singleLoop ptr (u32 (dwCount + 1)) false strRet
        else singleLoop ptr dwCount false strRet
      else do
        let strRet ← setAt strRet dwCount c
        singleLoop ptr (u32 (dwCount + 1)) true strRet

/-- `strRet` up to the position `a`, which may be `npos`. -/
def eraseBehind (strRet : Bytes) : (a : Option Nat) → Bytes
  | some a => strRet.take (a + 1)
  | none => []

/-- A NUL ends the text for `c_str`, and a character that `isspace` is asked for is positive. -/
def SingleBlank (strRaw : Bytes) : Except Fault Bytes := do
  let ptr := (strRaw.takeWhile (· ≠ 0)).dropWhile isSpace
  let (dwCount, strRet) ← singleLoop ptr 0 true (List.replicate strRaw.length 32)
  return eraseBehind strRet (findLastNotOf strRet 32 dwCount)

/-! ## What is written -/

/-- One blank for each run of spaces, but none for a run at the begin when `first` is false. -/
def squeezed (first : Bool) : Bytes → Bytes
  | [] => []
  | c :: s =>
      if isSpace c then (if first then [32] else []) ++ squeezed false s
      else c :: squeezed true s

theorem squeezed_dropWhile (s : Bytes) :
    squeezed true (s.dropWhile isSpace) = squeezed false s := by
  induction s with
  | nil => rfl
  | cons c s ih =>
      by_cases hc : isSpace c = true
      · rw [List.dropWhile_cons_of_pos hc, ih, squeezed, if_pos hc]
        rfl
      · rw [List.dropWhile_cons_of_neg hc, squeezed, squeezed, if_neg hc, if_neg hc]

theorem squeezed_length_le (first : Bool) (s : Bytes) : (squeezed first s).length ≤ s.length := by
  induction s generalizing first with
  | nil => exact Nat.le_refl 0
  | cons c s ih =>
      rw [squeezed]
      split
      · have h := ih false
        have hone : (if first then [32] else [] : Bytes).length ≤ 1 := by
          cases first <;> simp
        rw [List.length_append, List.length_cons]
        omega
      · exact Nat.succ_le_succ (ih true)

theorem squeezed_word {w : Bytes} (hw : ∀ c ∈ w, isSpace c = false) (first : Bool) (s : Bytes) :
    squeezed true (w ++ s) = w ++ squeezed true s ∧
      (w ≠ [] → squeezed first (w ++ s) = w ++ squeezed true s) := by
  induction w generalizing first with
  | nil => exact ⟨rfl, fun h => absurd rfl h⟩
  | cons c w ih =>
      have hc := List.forall_mem_cons.mp hw
      have hcons : ∀ first, squeezed first (c :: w ++ s) = c :: w ++ squeezed true s := by
        intro first
        rw [List.cons_append, squeezed, if_neg (by simp [hc.1]), (ih hc.2 true).1]
        rfl
      exact ⟨hcons true, fun _ => hcons first⟩

/-- The words of a text with one blank between them. -/
def blankJoin (s : Bytes) : Bytes := [32].intercalate (wordsBy isSpace s)

/-- Behind the words there is one blank at most. -/
theorem squeezed_eq (s : Bytes) :
    ∃ t, squeezed false s = blankJoin s ++ t ∧ (t = [] ∨ t = [32]) ∧
      (wordsBy isSpace s = [] → t = []) := by
  induction s using wordsBy_induction (p := isSpace) with
  | hnil => exact ⟨[], rfl, .inl rfl, fun _ => rfl⟩
  | hword w hw =>
      have h := (squeezed_word hw.2 false []).2 hw.1
      rw [List.append_nil] at h
      refine ⟨[], ?_, .inl rfl, fun _ => rfl⟩
      rw [h, blankJoin, wordsBy_of_isWord hw, List.intercalate_singleton]
      rfl
  | hsep x s hx ih =>
      obtain ⟨t, hs, ht, hnil⟩ := ih
      refine ⟨t, ?_, ht, ?_⟩
      · rw [squeezed, if_pos hx, blankJoin, wordsBy_cons hx, ← blankJoin, hs]
        rfl
      · rw [wordsBy_cons hx]
        exact hnil
  | hcons w x s hw hx ih =>
      obtain ⟨t, hs, ht, hnil⟩ := ih
      have hsplit : wordsBy isSpace (w ++ x :: s) = w :: wordsBy isSpace s := by
        rw [wordsBy_append_cons hx, wordsBy_of_isWord hw]
        rfl
      have htext : squeezed false (w ++ x :: s) = w ++ 32 :: (blankJoin s ++ t) := by
        rw [(squeezed_word hw.2 false _).2 hw.1, squeezed, if_pos hx, hs]
        rfl
      by_cases hlast : wordsBy isSpace s = []
      · refine ⟨[32], ?_, .inr rfl, fun h => absurd (hsplit.symm.trans h) (List.cons_ne_nil _ _)⟩
        rw [htext, hnil hlast, blankJoin, blankJoin, hsplit, hlast, List.intercalate_singleton]
        rfl
      · refine ⟨t, ?_, ht, fun h => absurd (hsplit.symm.trans h) (List.cons_ne_nil _ _)⟩
        rw [htext, blankJoin, blankJoin, hsplit, intercalate_cons hlast, List.append_assoc,
          List.cons_append]

/-! ## The loop -/

theorem u32_succ (n : Nat) : u32 (u32 n + 1) = u32 (n + 1) := by
  unfold u32
  omega

theorem u32_le (n : Nat) : u32 n ≤ n := Nat.mod_le _ _

theorem setAt_u32 {r : Bytes} {n : Nat} (h : n < r.length) (c : UInt8) :
    setAt r (u32 n) c = .ok (r.set (u32 n) c) :=
  if_pos (Nat.lt_of_le_of_lt (u32_le n) h)

/-- One more character behind those that are written. -/
theorem take_set_append {r u v : Bytes} {n : Nat} {c : UInt8} (h : n < r.length) {m : Nat}
    (hr : v = (r.set n c).take (n + 1) ++ u ++ (r.set n c).drop (n + 1 + m)) :
    v = r.take n ++ c :: u ++ r.drop (n + (m + 1)) := by
  rw [hr, List.take_succ_eq_append_getElem (by rwa [List.length_set]), List.getElem_set_self,
    List.take_set_of_le (Nat.le_refl n), List.drop_set_of_lt (by omega)]
  simp only [List.append_assoc, List.cons_append, List.nil_append]
  congr 3
  rw [Nat.add_assoc, Nat.add_comm 1 m]

/-- Every character is written inside the text.  Those that are written stand in a row when the
counter does not wrap around. -/
theorem singleLoop_ok (s : Bytes) (first : Bool) {n : Nat} {r : Bytes}
    (hroom : n + s.length ≤ r.length) :
    ∃ r', singleLoop s (u32 n) first r = .ok (u32 (n + (squeezed first s).length), r') ∧
      r'.length = r.length ∧ (n + (squeezed first s).length < 4294967296 →
        r' = r.take n ++ squeezed first s ++ r.drop (n + (squeezed first s).length)) := by
  induction s generalizing first n r with
  | nil =>
      refine ⟨r, rfl, rfl, fun _ => ?_⟩
      rw [squeezed, List.append_nil]
      exact (List.take_append_drop n r).symm
  | cons c s ih =>
      rw [List.length_cons] at hroom
      have hwrite : ∀ (x : UInt8) (first' : Bool), ∃ r',
          singleLoop s (u32 (u32 n + 1)) first' (r.set (u32 n) x) =
            .ok (u32 (n + (x :: squeezed first' s).length), r') ∧
          r'.length = r.length ∧ (n + (x :: squeezed first' s).length < 4294967296 →
            r' = r.take n ++ x :: squeezed first' s ++
              r.drop (n + (x :: squeezed first' s).length)) := by
        intro x first'
        obtain ⟨r', hloop, hlen, hrow⟩ := ih first' (n := n + 1) (r := r.set (u32 n) x)
          (by rw [List.length_set]; omega)
        refine ⟨r', ?_, by rw [hlen, List.length_set], fun hlt => ?_⟩
        · rw [u32_succ, hloop, List.length_cons, Nat.add_assoc, Nat.add_comm 1]
        · rw [List.length_cons] at hlt ⊢
          have hr := hrow (by omega)
          rw [u32_of_lt (by omega)] at hr
          exact take_set_append (by omega) hr
      rw [singleLoop, squeezed]
      split
      · cases first with
        | true =>
            rw [if_pos rfl, if_pos rfl, setAt_u32 (by omega)]
            exact hwrite 32 false
        | false =>
            rw [if_neg Bool.false_ne_true, if_neg Bool.false_ne_true, List.nil_append]
            exact ih false (by omega)
      · rw [setAt_u32 (by omega)]
        exact hwrite c true

/-! ## The end is cut off -/

theorem eraseBehind_findLastNotOf (s : Bytes) (c : UInt8) (pos : Nat) :
    eraseBehind s (findLastNotOf s c pos) = (s.take (pos + 1)).rdropWhile (· = c) := by
  unfold findLastNotOf
  dsimp only
  split
  · next hnil => exact hnil.symm
  · next hne =>
      have hpos := List.length_pos_iff.mpr hne
      have hpre := (List.rdropWhile_prefix (· = c) (l := s.take (pos + 1))).trans
        (List.take_prefix _ _)
      rw [eraseBehind, Nat.sub_add_cancel hpos]
      exact (List.prefix_iff_eq_take.mp hpre).symm

/-- The text that is written, up to the place where the counter stands in the end. -/
theorem SingleBlank_eq {s : Bytes} (hs : 0 ∉ s) :
    ∃ r, SingleBlank s = .ok ((r.take (u32 (squeezed false s).length + 1)).rdropWhile (· = 32)) ∧
      ((squeezed false s).length < 4294967296 → ∃ k, r = squeezed false s ++ List.replicate k 32) := by
  have hall : s.takeWhile (· ≠ 0) = s := by
    rw [List.takeWhile_eq_self_iff]
    intro c hc
    have hne : c ≠ 0 := fun h => hs (h ▸ hc)
    simpa using hne
  have hroom : 0 + (s.dropWhile isSpace).length ≤ (List.replicate s.length (32 : UInt8)).length := by
    rw [Nat.zero_add, List.length_replicate]
    exact (List.dropWhile_suffix isSpace).length_le
  obtain ⟨r, hloop, -, hrow⟩ := singleLoop_ok (s.dropWhile isSpace) true hroom
  have hzero : u32 0 = 0 := rfl
  rw [squeezed_dropWhile, Nat.zero_add] at hloop hrow
  rw [hzero] at hloop
  refine ⟨r, ?_, fun hlt => ⟨s.length - (squeezed false s).length, ?_⟩⟩
  · rw [← eraseBehind_findLastNotOf]
    simp only [SingleBlank, hall, hloop, bind, Except.bind]
    rfl
  · rw [hrow hlt, List.take_zero, List.nil_append, List.drop_replicate]

/-! ## Single blanks -/

theorem blankJoin_words (s : Bytes) : ∀ w ∈ wordsBy isSpace s, IsWord isSpace w :=
  fun _ hw => isWord_of_mem_wordsBy hw

theorem words_blankJoin (s : Bytes) : wordsBy isSpace (blankJoin s) = wordsBy isSpace s :=
  wordsBy_intercalate (by decide) (blankJoin_words s)

theorem blankJoin_blankJoin (s : Bytes) : blankJoin (blankJoin s) = blankJoin s := by
  rw [blankJoin, words_blankJoin, blankJoin]

theorem zero_notMem_blankJoin {s : Bytes} (hs : 0 ∉ s) : 0 ∉ blankJoin s := by
  intro h
  rcases mem_intercalate h with h | ⟨w, hw, h⟩
  · exact absurd h (by decide)
  · exact hs (mem_of_mem_wordsBy hw h)

theorem rdropWhile_blankJoin (s : Bytes) : (blankJoin s).rdropWhile (· = 32) = blankJoin s := by
  rw [List.rdropWhile_eq_self_iff]
  intro hne h
  have hlast := getLast?_intercalate (blankJoin_words s) (List.getLast_mem_getLast? hne)
  rw [of_decide_eq_true h] at hlast
  exact absurd hlast (by decide)

/-- What `SingleBlank` promises: the words with one blank between them, and so no blank at the
begin, at the end or behind another one, and nothing left to do for a second call. -/
structure SingleBlanks (s : Bytes) : Prop where
  joined : SingleBlank s = .ok (blankJoin s)
  first : ∀ c ∈ (blankJoin s).head?, isSpace c = false
  last : ∀ c ∈ (blankJoin s).getLast?, isSpace c = false
  single : (blankJoin s).IsChain fun c d => ¬ (isSpace c = true ∧ isSpace d = true)
  again : SingleBlank (blankJoin s) = .ok (blankJoin s)

theorem SingleBlank_joins {s : Bytes} (hs : 0 ∉ s) (hlen : (squeezed false s).length < 4294967296) :
    SingleBlank s = .ok (blankJoin s) := by
  obtain ⟨r, hr, hrow⟩ := SingleBlank_eq hs
  obtain ⟨k, rfl⟩ := hrow hlen
  obtain ⟨t, ht, hblank, -⟩ := squeezed_eq s
  have hend : t.rdropWhile (· = 32) = [] := by
    rcases hblank with rfl | rfl
    · rfl
    · rfl
  have hblanks : ∀ c ∈ (List.replicate k (32 : UInt8)).take 1, decide (c = 32) = true := by
    intro c hc
    rw [List.eq_of_mem_replicate (List.mem_of_mem_take hc)]
    rfl
  have hbehind : ∀ c ∈ t, decide (c = 32) = true := List.rdropWhile_eq_nil_iff.mp hend
  rw [hr, u32_of_lt hlen, List.take_length_add_append, rdropWhile_append_of_pos hblanks, ht,
    rdropWhile_append_of_pos hbehind, rdropWhile_blankJoin]

/-- The counter wraps around, and what is written behind is cut off. -/
theorem SingleBlank_long {s : Bytes} (hs : 0 ∉ s)
    (hlen : 4294967296 ≤ (squeezed false s).length) : SingleBlank s ≠ .ok (blankJoin s) := by
  obtain ⟨r, hr, -⟩ := SingleBlank_eq hs
  obtain ⟨t, ht, hblank, -⟩ := squeezed_eq s
  rw [hr]
  intro h
  have hcut := (List.rdropWhile_prefix (· = 32)
    (l := r.take (u32 (squeezed false s).length + 1))).length_le
  rw [Except.ok.inj h, List.length_take] at hcut
  have hone : t.length ≤ 1 := by
    rcases hblank with rfl | rfl
    · exact Nat.zero_le 1
    · exact Nat.le_refl 1
  have hsum := congrArg List.length ht
  rw [List.length_append] at hsum
  unfold u32 at hcut
  omega

/-- The promise is kept unless 2^32 characters are written. -/
theorem SingleBlank_iff {s : Bytes} (hs : 0 ∉ s) :
    SingleBlanks s ↔ (squeezed false s).length < 4294967296 := by
  constructor
  · intro h
    by_contra hlen
    exact SingleBlank_long hs (Nat.le_of_not_lt hlen) h.joined
  · intro hlen
    have hshort : (squeezed false (blankJoin s)).length < 4294967296 := by
      obtain ⟨t, ht, -, -⟩ := squeezed_eq s
      have hle := squeezed_length_le false (blankJoin s)
      rw [ht, List.length_append] at hlen
      omega
    have hagain := SingleBlank_joins (zero_notMem_blankJoin hs) hshort
    rw [blankJoin_blankJoin] at hagain
    exact {
      joined := SingleBlank_joins hs hlen
      first := fun c hc => head?_intercalate (blankJoin_words s) hc
      last := fun c hc => getLast?_intercalate (blankJoin_words s) hc
      single := isChain_intercalate (blankJoin_words s)
      again := hagain }

/-- Two words with blanks around them. -/
theorem SingleBlank_sample : SingleBlanks [32, 97, 9, 10, 98, 98, 32] :=
  (SingleBlank_iff (by decide)).mpr (by decide)

theorem squeezed_replicate (n : Nat) :
    squeezed false (List.replicate n 97) = List.replicate n 97 := by
  have hword : ∀ c ∈ List.replicate n (97 : UInt8), isSpace c = false := by
    intro c hc
    rw [List.eq_of_mem_replicate hc]
    decide
  cases n with
  | zero => rfl
  | succ n =>
      have h := (squeezed_word hword false []).2 (List.cons_ne_nil _ _)
      rw [List.append_nil] at h
      rw [h, squeezed, List.append_nil]

/-- One word of 2^32 characters. -/
theorem SingleBlank_wraps : ¬ ∀ s, 0 ∉ s → SingleBlanks s := by
  intro h
  have hone : ∃ s : Bytes, 0 ∉ s ∧ (squeezed false s).length = 4294967296 := by
    refine ⟨List.replicate 4294967296 97, ?_, ?_⟩
    · intro hmem
      exact absurd (List.eq_of_mem_replicate hmem) (by decide)
    · rw [squeezed_replicate, List.length_replicate]
  obtain ⟨s, hs, hlen⟩ := hone
  exact SingleBlank_long hs (Nat.le_of_eq hlen.symm) (h s hs).joined

end StringUtility

end CommonCc
