import CommonCc.Utils.Wildcard.Model

/-!
# Sets

What `_MatchSet` collects from the text of a set, and when it comes to an end.
-/

namespace CommonCc

theorem schar_mem (c : UInt8) : -128 ≤ schar c ∧ schar c ≤ 127 := by
  have hc := c.toNat_lt
  unfold schar
  constructor
  · split <;> omega
  · split <;> omega

theorem schar_inj {a b : UInt8} (h : schar a = schar b) : a = b := by
  have ha := a.toNat_lt
  have hb := b.toNat_lt
  unfold schar at h
  apply UInt8.toNat_inj.mp
  split at h <;> split at h <;> omega

theorem schar_succ {c : UInt8} (h : schar c < 127) : schar (c + 1) = schar c + 1 := by
  have hc := c.toNat_lt
  have hone : (1 : UInt8).toNat = 1 := rfl
  unfold schar at h ⊢
  rw [UInt8.toNat_add, hone]
  split at h <;> split <;> omega

namespace StringUtility

section Ranges

variable {first last : UInt8} {set set' : Bytes}

/-- The `n` characters from `c` on. -/
def charsFrom : UInt8 → Nat → Bytes
  | _, 0 => []
  | c, n + 1 => c :: charsFrom (c + 1) n

@[simp] theorem charsFrom_length (c : UInt8) (n : Nat) : (charsFrom c n).length = n := by
  induction n generalizing c with
  | zero => rfl
  | succ n ih => rw [charsFrom, List.length_cons, ih]

theorem mem_charsFrom {c d : UInt8} {n : Nat} (h : schar c + n ≤ 128) :
    d ∈ charsFrom c n ↔ schar c ≤ schar d ∧ schar d < schar c + n := by
  induction n generalizing c with
  | zero =>
      rw [charsFrom]
      constructor
      · intro hd
        cases hd
      · intro hd
        have hlt := hd.2
        omega
  | succ n ih =>
      rw [charsFrom, List.mem_cons]
      cases n with
      | zero =>
          rw [charsFrom]
          constructor
          · intro hd
            cases hd with
            | inl hd =>
                rw [hd]
                omega
            | inr hd => cases hd
          · intro hd
            exact .inl (schar_inj (by omega))
      | succ n =>
          have hsucc : schar (c + 1) = schar c + 1 := schar_succ (by omega)
          rw [ih (by omega), hsucc]
          constructor
          · intro hd
            cases hd with
            | inl hd =>
                rw [hd]
                omega
            | inr hd => omega
          · intro hd
            by_cases hsame : d = c
            · exact .inl hsame
            · have hne : schar d ≠ schar c := fun he => hsame (schar_inj he)
              exact .inr (by omega)

/-- How many characters there are from `first` to `last`. -/
def rangeSize (first last : UInt8) : Nat := (schar last + 1 - schar first).toNat

/-- After the largest `char` comes the smallest one. -/
theorem rangeLoop_endless (h : schar last = 127) (n : Nat) (ch : UInt8) (set : Bytes) :
    rangeLoop last n ch set = .error .diverges := by
  induction n generalizing ch set with
  | zero => rfl
  | succ n ih => rw [rangeLoop, h, if_pos (schar_mem ch).2, ih]

theorem rangeLoop_ends (h : schar last ≠ 127) {n : Nat} (hn : rangeSize first last < n) :
    rangeLoop last n first set = .ok (set ++ charsFrom first (rangeSize first last)) := by
  have hlast := schar_mem last
  induction n generalizing first set with
  | zero => cases hn
  | succ n ih =>
      rw [rangeLoop]
      by_cases hle : schar first ≤ schar last
      · have hsucc : schar (first + 1) = schar first + 1 := schar_succ (by omega)
        have hsize : rangeSize first last = rangeSize (first + 1) last + 1 := by
          unfold rangeSize
          omega
        rw [if_pos hle, ih (by omega), hsize, charsFrom, List.append_assoc, List.singleton_append]
      · have hsize : rangeSize first last = 0 := by
          unfold rangeSize
          omega
        rw [if_neg hle, hsize, charsFrom, List.append_nil]

theorem mem_range (first last d : UInt8) :
    d ∈ charsFrom first (rangeSize first last) ↔ schar first ≤ schar d ∧ schar d ≤ schar last := by
  have hlast := schar_mem last
  have hd := schar_mem d
  have hfirst := schar_mem first
  by_cases h : schar first ≤ schar last
  · rw [mem_charsFrom (by unfold rangeSize; omega)]
    unfold rangeSize
    omega
  · rw [mem_charsFrom (by unfold rangeSize; omega)]
    unfold rangeSize
    omega

/-- 256 tests are enough for every range that ends. -/
theorem rangeLoop_ok_iff :
    (∃ set', rangeLoop last 256 first set = .ok set') ↔ schar last ≠ 127 := by
  constructor
  · intro h hlast
    cases h with
    | intro set' h =>
        rw [rangeLoop_endless hlast] at h
        cases h
  · intro hlast
    have hfirst := schar_mem first
    have hle := schar_mem last
    exact ⟨_, rangeLoop_ends hlast (by unfold rangeSize; omega)⟩

end Ranges

/-! ## What a text stands for -/

/-- A character of a set, or a range from the character in front of a `-` on. -/
inductive SetToken where
  | single (c : UInt8)
  | range (first last : UInt8)
deriving Repr, DecidableEq

/-- What is read from the text of a set, and whether it is read to its end.  A `-` or a
backslash with nothing behind it ends it. -/
def readSet : Option UInt8 → Bytes → List SetToken × Bool
  | _, [] => ([], true)
  | before, c :: rest =>
      if c = 45 then
        match before, rest with
        | none, rest => let r := readSet (some c) rest; (.single c :: r.1, r.2)
        | some _, [] => ([], false)
        | some first, last :: rest =>
            let r := readSet (some last) rest; (.range first last :: r.1, r.2)
      else if c = 92 then
        match rest with
        | [] => ([], false)
        | e :: rest => let r := readSet (some e) rest; (.single e :: r.1, r.2)
      else let r := readSet (some c) rest; (.single c :: r.1, r.2)

/-- By how much the collected characters get more.  A range takes away the one in front of
the `-`. -/
def SetToken.weight : SetToken → Int
  | .single _ => 1
  | .range first last => max (schar last - schar first) (-1)

/-- The number of characters that are collected. -/
def weights : List SetToken → Int
  | [] => 0
  | t :: tokens => t.weight + weights tokens

/-- One token's change of the collected characters. -/
def SetToken.run (set : Bytes) : SetToken → Except Fault Bytes
  | .single c => .ok (set ++ [c])
  | .range first last => do
      let set ← eraseLast set
      rangeLoop last 256 first set

section Steps

variable {c : UInt8}

theorem setLoop_plain (hdash : c ≠ 45) (hslash : c ≠ 92) (before : Option UInt8)
    (rest set : Bytes) :
    setLoop before (c :: rest) set = setLoop (some c) rest (set ++ [c]) := by
  rw [setLoop.eq_def]
  simp only [if_neg hdash, if_neg hslash]

theorem setLoop_escape (before : Option UInt8) (e : UInt8) (rest set : Bytes) :
    setLoop before (92 :: e :: rest) set = setLoop (some e) rest (set ++ [e]) := by
  rw [setLoop.eq_def]
  rfl

theorem setLoop_first (rest set : Bytes) :
    setLoop none (45 :: rest) set = setLoop (some 45) rest (set ++ [45]) := by
  rw [setLoop.eq_def]
  rfl

theorem setLoop_range (first last : UInt8) (rest set : Bytes) :
    setLoop (some first) (45 :: last :: rest) set =
      SetToken.run set (.range first last) >>= fun set => setLoop (some last) rest set := by
  rw [setLoop.eq_def]
  show (eraseLast set >>= _) = (eraseLast set >>= _) >>= _
  rw [bind_assoc]
  rfl

theorem readSet_plain (hdash : c ≠ 45) (hslash : c ≠ 92) (before : Option UInt8) (rest : Bytes) :
    readSet before (c :: rest) =
      (.single c :: (readSet (some c) rest).1, (readSet (some c) rest).2) := by
  rw [readSet.eq_def]
  simp only [if_neg hdash, if_neg hslash]

theorem readSet_escape (before : Option UInt8) (e : UInt8) (rest : Bytes) :
    readSet before (92 :: e :: rest) =
      (.single e :: (readSet (some e) rest).1, (readSet (some e) rest).2) := by
  rw [readSet.eq_def]
  rfl

theorem readSet_first (rest : Bytes) :
    readSet none (45 :: rest) =
      (.single 45 :: (readSet (some 45) rest).1, (readSet (some 45) rest).2) := by
  rw [readSet.eq_def]
  rfl

theorem readSet_range (first last : UInt8) (rest : Bytes) :
    readSet (some first) (45 :: last :: rest) =
      (.range first last :: (readSet (some last) rest).1, (readSet (some last) rest).2) := by
  rw [readSet.eq_def]
  rfl

end Steps

/-- The loop goes through the tokens. -/
theorem setLoop_eq_run (before : Option UInt8) (text set : Bytes) :
    setLoop before text set = ((readSet before text).1.foldlM SetToken.run set).map fun set =>
      if (readSet before text).2 then some set else none := by
  induction before, text, set using setLoop.induct with
  | case1 before set =>
      rw [setLoop.eq_def, readSet.eq_def]
      rfl
  | case2 rest set ih =>
      rw [setLoop_first, readSet_first, ih]
      rfl
  | case3 before set hbefore =>
      cases before with
      | none => exact absurd rfl hbefore
      | some b => rfl
  | case4 before set hbefore last rest ih =>
      cases before with
      | none => exact absurd rfl hbefore
      | some first =>
          rw [setLoop_range, readSet_range, List.foldlM_cons]
          cases SetToken.run set (.range first last) with
          | error e => rfl
          | ok grown => exact ih grown
  | case5 before set hne =>
      rw [setLoop.eq_def, readSet.eq_def]
      rfl
  | case6 before set e rest hne ih =>
      rw [setLoop_escape, readSet_escape, ih]
      rfl
  | case7 before c rest set hdash hslash ih =>
      rw [setLoop_plain hdash hslash, readSet_plain hdash hslash, ih]
      rfl

/-! ## When the loop ends -/

section Sizes

variable {set set' : Bytes} {t : SetToken} {tokens : List SetToken} {first last : UInt8}

theorem run_range_eq_ok : SetToken.run set (.range first last) = .ok set' ↔
    set ≠ [] ∧ rangeLoop last 256 first set.dropLast = .ok set' := by
  rw [SetToken.run, bind_eq_ok]
  unfold eraseLast
  by_cases h : set = []
  · rw [if_pos h]
    constructor
    · intro hrun
      cases hrun with
      | intro erased hrun => cases hrun.1
    · intro hrun
      exact absurd h hrun.1
  · rw [if_neg h]
    constructor
    · intro hrun
      cases hrun with
      | intro erased hrun =>
          cases hrun.1
          exact ⟨h, hrun.2⟩
    · intro hrun
      exact ⟨_, rfl, hrun.2⟩

theorem run_range_ok_iff : (∃ set', SetToken.run set (.range first last) = .ok set') ↔
    schar last ≠ 127 ∧ 0 < set.length := by
  simp only [run_range_eq_ok, exists_and_left, rangeLoop_ok_iff, List.length_pos_iff]
  exact And.comm

theorem run_range_endless (h : schar last = 127) (hset : set ≠ []) (first : UInt8) :
    SetToken.run set (.range first last) = .error .diverges := by
  rw [SetToken.run, eraseLast, if_neg hset]
  exact rangeLoop_endless h 256 first set.dropLast

theorem run_length (h : t.run set = .ok set') : (set'.length : Int) = set.length + t.weight := by
  cases t with
  | single c =>
      cases h
      rw [List.length_append]
      rfl
  | range first last =>
      have hrun := run_range_eq_ok.mp h
      have hlast : schar last ≠ 127 := rangeLoop_ok_iff.mp ⟨set', hrun.2⟩
      have hpos := List.length_pos_iff.mpr hrun.1
      have hle := schar_mem last
      have hfirst := schar_mem first
      have hset := hrun.2
      rw [rangeLoop_ends hlast (by unfold rangeSize; omega)] at hset
      cases hset
      rw [List.length_append, List.length_dropLast, charsFrom_length, SetToken.weight]
      unfold rangeSize
      omega

theorem runs_length (h : tokens.foldlM SetToken.run set = .ok set') :
    (set'.length : Int) = set.length + weights tokens := by
  induction tokens generalizing set with
  | nil =>
      cases h
      exact (Int.add_zero _).symm
  | cons t tokens ih =>
      rw [List.foldlM_cons, bind_eq_ok] at h
      cases h with
      | intro set₁ h =>
          have hstep := run_length h.1
          have hrest := ih h.2
          rw [weights]
          omega

/-- With `n` characters collected before, every range ends before the largest `char` and
finds a character to take away. -/
def RangesEnd (n : Int) (tokens : List SetToken) : Prop :=
  ∀ before first last after, tokens = before ++ .range first last :: after →
    schar last ≠ 127 ∧ 0 < n + weights before

theorem rangesEnd_nil (n : Int) : RangesEnd n [] := by
  intro before first last after h
  cases before <;> cases h

theorem rangesEnd_cons {n : Int} : RangesEnd n (t :: tokens) ↔
    (∀ first last, t = .range first last → schar last ≠ 127 ∧ 0 < n) ∧
      RangesEnd (n + t.weight) tokens := by
  constructor
  · intro h
    constructor
    · intro first last ht
      have hfirst := h [] first last tokens (by rw [ht]; rfl)
      rwa [weights, Int.add_zero] at hfirst
    · intro before first last after htokens
      have hlater := h (t :: before) first last after (by rw [htokens]; rfl)
      rwa [weights, ← Int.add_assoc] at hlater
  · intro h before first last after htokens
    cases before with
    | nil =>
        cases htokens
        have hfirst := h.1 first last rfl
        rwa [weights, Int.add_zero]
    | cons u before =>
        cases htokens
        have hlater := h.2 before first last after rfl
        rwa [weights, ← Int.add_assoc]

theorem run_ok_iff : (∃ set', t.run set = .ok set') ↔
    ∀ first last, t = .range first last → schar last ≠ 127 ∧ 0 < (set.length : Int) := by
  cases t with
  | single c =>
      constructor
      · intro _ first last h
        cases h
      · intro _
        exact ⟨_, rfl⟩
  | range first last =>
      rw [run_range_ok_iff]
      constructor
      · intro h _ _ heq
        cases heq
        exact ⟨h.1, Int.natCast_pos.mpr h.2⟩
      · intro h
        have hrange := h first last rfl
        exact ⟨hrange.1, Int.natCast_pos.mp hrange.2⟩

theorem runs_ok_iff : (∃ set', tokens.foldlM SetToken.run set = .ok set') ↔
    RangesEnd set.length tokens := by
  induction tokens generalizing set with
  | nil => exact iff_of_true ⟨set, rfl⟩ (rangesEnd_nil _)
  | cons t tokens ih =>
      rw [rangesEnd_cons, ← run_ok_iff]
      simp only [List.foldlM_cons, bind_eq_ok]
      constructor
      · rintro ⟨set', set₁, hstep, hrest⟩
        rw [← run_length hstep]
        exact ⟨⟨set₁, hstep⟩, ih.mp ⟨set', hrest⟩⟩
      · rintro ⟨⟨set₁, hstep⟩, hrest⟩
        rw [← run_length hstep] at hrest
        cases ih.mpr hrest with
        | intro set' hset' => exact ⟨set', set₁, hstep, hset'⟩

end Sizes

/-- Every range of the text ends before the largest `char` and finds a character to take
away. -/
def Sound (text : Bytes) : Prop := RangesEnd 0 (readSet none text).1

/-- The text is read to its end, and some characters are left at the end. -/
def Accepting (text : Bytes) : Prop :=
  (readSet none text).2 = true ∧ 0 < weights (readSet none text).1

theorem sound_iff {text : Bytes} :
    Sound text ↔ ∃ set, (readSet none text).1.foldlM SetToken.run [] = .ok set :=
  (@runs_ok_iff [] _).symm

theorem MatchSet_eq_run (text : Bytes) (c : UInt8) :
    MatchSet text c = ((readSet none text).1.foldlM SetToken.run []).map fun set =>
      (readSet none text).2 && decide (c ∈ set) := by
  rw [MatchSet, setLoop_eq_run]
  cases (readSet none text).1.foldlM SetToken.run [] with
  | error e => rfl
  | ok set => cases (readSet none text).2 <;> rfl

theorem MatchSet_ok_iff (text : Bytes) (c : UInt8) :
    (∃ b, MatchSet text c = .ok b) ↔ Sound text := by
  rw [MatchSet_eq_run, sound_iff]
  cases (readSet none text).1.foldlM SetToken.run [] with
  | error e =>
      constructor
      · rintro ⟨b, hb⟩
        cases hb
      · rintro ⟨set, hset⟩
        cases hset
  | ok set => exact iff_of_true ⟨_, rfl⟩ ⟨_, rfl⟩

/-- Some character is in the set. -/
theorem exists_MatchSet (text : Bytes) (h : Sound text) :
    (∃ c, MatchSet text c = .ok true) ↔ Accepting text := by
  simp only [MatchSet_eq_run]
  cases sound_iff.mp h with
  | intro set hset =>
      have hlen := runs_length hset
      rw [hset, Accepting]
      cases hclosed : (readSet none text).2 with
      | false => simp [Except.map]
      | true =>
          simp only [Except.map, Bool.true_and, Except.ok.injEq, decide_eq_true_eq, true_and]
          rw [← List.length_pos_iff_exists_mem]
          rw [List.length_nil] at hlen
          omega

end StringUtility

end CommonCc
