import CommonCc.Base
import CommonCc.Lib.Loop

/-!
# The begin of a text

`StringUtility::AbstractString`, which cuts neither a double-byte character nor a word.  Its
offsets are values of `int`, and the effect of an overflow is not defined.
-/

namespace CommonCc

namespace StringUtility

/-- The result of an `int` operation does not fit. -/
inductive Overflow where
  | signed
deriving Repr, DecidableEq

/-- The sum of two values of `int` that are not negative. -/
def intAdd (a b : Nat) : Except Overflow Nat :=
  if a + b < 2147483648 then .ok (a + b) else .error .signed

def IsAlnum (c : UInt8) : Bool :=
  (97 ≤ c && c ≤ 122) || (65 ≤ c && c ≤ 90) || (48 ≤ c && c ≤ 57)

/-- The loop over `dwWordLen`, with the text from `dwOffset + dwWordLen` on. -/
def wordLoop (dwOffset : Nat) : Nat → Bytes → Except Overflow Nat
  | dwWordLen, [] => do
      let _ ← intAdd dwOffset dwWordLen
      .ok dwWordLen
  | dwWordLen, c :: rest => do
      let _ ← intAdd dwOffset dwWordLen
      if IsAlnum c then wordLoop dwOffset (dwWordLen + 1) rest else .ok dwWordLen

/-- `if (dwOffset + n <= dwLen) dwOffset += n; else break;`. -/
def advance (dwLen dwOffset n : Nat) : Except Overflow (Nat ⊕ Nat) := do
  let next ← intAdd dwOffset n
  .ok (if next ≤ dwLen then .inl next else .inr dwOffset)

/-- One round of the loop, with `dwOffset`. -/
def abstractRound (strOldStr : Bytes) (dwLen dwOffset : Nat) : Except Overflow (Nat ⊕ Nat) :=
  if dwOffset ≤ dwLen then
    match strOldStr.drop dwOffset with
    | [] => advance dwLen dwOffset 1
    | c :: rest =>
        if 128 ≤ c then advance dwLen dwOffset 2
        else if IsAlnum c then do
          let dwWordLen ← wordLoop dwOffset 1 rest
          if dwWordLen > dwLen then .ok (.inr dwLen) else advance dwLen dwOffset dwWordLen
        else advance dwLen dwOffset 1
  else .ok (.inr dwOffset)

def AbstractString (strOldStr : Bytes) (dwLen : Int) : Rounds Overflow Bytes :=
  if dwLen ≤ 0 then now []
  else if strOldStr = [] then now []
  else if strOldStr.length ≤ dwLen then now strOldStr
  else andThen (loop (abstractRound strOldStr dwLen.toNat) 0) fun dwOffset =>
    now (strOldStr.take dwOffset)

/-! ## Tokens -/

/-- What a text is made of.  `lead` is the first byte of a double-byte character at the end of
the text. -/
inductive TextToken where
  | double (high low : UInt8)
  | lead (high : UInt8)
  | word (w : Bytes)
  | other (c : UInt8)
deriving Repr, DecidableEq

namespace TextToken

def bytes : TextToken → Bytes
  | double high low => [high, low]
  | lead high => [high]
  | word w => w
  | other c => [c]

def isWord : TextToken → Bool
  | word _ => true
  | _ => false

/-- The number of bytes that the loop wants to pass. -/
def width : TextToken → Nat
  | lead _ => 2
  | t => t.bytes.length

end TextToken

/-- The token that starts with `c`. -/
def firstToken (c : UInt8) (rest : Bytes) : TextToken :=
  if 128 ≤ c then
    match rest with
    | [] => .lead c
    | d :: _ => .double c d
  else if IsAlnum c then .word (c :: rest.takeWhile IsAlnum)
  else .other c

/-- A text from left to right. -/
def tokens : Bytes → List TextToken
  | [] => []
  | c :: rest => firstToken c rest :: tokens (rest.drop ((firstToken c rest).bytes.length - 1))
termination_by s => s.length
decreasing_by
  rw [List.length_drop, List.length_cons]
  omega

/-- The text of some tokens. -/
def text (ts : List TextToken) : Bytes := ts.flatMap TextToken.bytes

/-! ## The first token -/

section

variable {s rest : Bytes} {c : UInt8} {t : TextToken} {ts : List TextToken}

theorem firstToken_starts (c : UInt8) (rest : Bytes) :
    (firstToken c rest).bytes <+: c :: rest := by
  unfold firstToken
  split
  · cases rest with
    | nil => exact List.prefix_refl _
    | cons d rest => exact ⟨rest, rfl⟩
  · split
    · exact List.cons_prefix_cons.mpr ⟨rfl, List.takeWhile_prefix _⟩
    · exact ⟨rest, rfl⟩

theorem firstToken_length_pos (c : UInt8) (rest : Bytes) :
    0 < (firstToken c rest).bytes.length := by
  unfold firstToken
  split
  · cases rest <;> exact Nat.succ_pos _
  · split <;> exact Nat.succ_pos _

/-- Only a first byte at the end of the text has less bytes than the loop wants to pass. -/
theorem firstToken_width (c : UInt8) (rest : Bytes) :
    (firstToken c rest).width = (firstToken c rest).bytes.length ∨
      rest = [] ∧ (firstToken c rest).bytes.length = 1 ∧ (firstToken c rest).width = 2 := by
  unfold firstToken
  split
  · cases rest with
    | nil => exact .inr ⟨rfl, rfl, rfl⟩
    | cons d rest => exact .inl rfl
  · split <;> exact .inl rfl

theorem tokens_cons (c : UInt8) (rest : Bytes) :
    tokens (c :: rest) = firstToken c rest ::
      tokens ((c :: rest).drop (firstToken c rest).bytes.length) := by
  obtain ⟨k, hk⟩ := Nat.exists_eq_succ_of_ne_zero (Nat.ne_of_gt (firstToken_length_pos c rest))
  rw [tokens, hk]
  rfl

/-- The text in front of a token. -/
theorem text_of_tokens (pre post : List TextToken) (h : tokens s = pre ++ post) :
    s = text pre ++ s.drop (text pre).length ∧ tokens (s.drop (text pre).length) = post := by
  induction pre generalizing s with
  | nil => exact ⟨rfl, h⟩
  | cons t pre ih =>
      cases s with
      | nil =>
          rw [tokens] at h
          cases h
      | cons c rest =>
          rw [tokens_cons, List.cons_append, List.cons.injEq] at h
          obtain ⟨rfl, hrest⟩ := h
          obtain ⟨htext, htokens⟩ := ih hrest
          have hfirst := List.prefix_iff_eq_append.mp (firstToken_starts c rest)
          have hcons : text (firstToken c rest :: pre) = (firstToken c rest).bytes ++ text pre :=
            List.flatMap_cons
          rw [List.drop_drop] at htext htokens
          rw [hcons, List.length_append]
          constructor
          · rw [List.append_assoc, ← htext, hfirst]
          · exact htokens

end

/-! ## One round -/

section

variable {s rest : Bytes} {c : UInt8} {n o k : Nat}

theorem intAdd_of_lt {a b : Nat} (h : a + b < 2147483648) : intAdd a b = .ok (a + b) := if_pos h

theorem intAdd_of_le {a b : Nat} (h : 2147483648 ≤ a + b) : intAdd a b = .error .signed :=
  if_neg (Nat.not_lt.mpr h)

theorem wordLoop_overflow (h : 2147483648 ≤ o + k) (rest : Bytes) :
    wordLoop o k rest = .error .signed := by
  cases rest with
  | nil => rw [wordLoop, intAdd_of_le h]; rfl
  | cons c rest => rw [wordLoop, intAdd_of_le h]; rfl

theorem wordLoop_stop (h : o + k < 2147483648) (hc : IsAlnum c = false) :
    wordLoop o k (c :: rest) = .ok k := by
  rw [wordLoop, intAdd_of_lt h, hc]
  rfl

theorem wordLoop_next (h : o + k < 2147483648) (hc : IsAlnum c = true) :
    wordLoop o k (c :: rest) = wordLoop o (k + 1) rest := by
  rw [wordLoop, intAdd_of_lt h, hc]
  rfl

theorem wordLoop_eq (o k : Nat) (rest : Bytes) :
    wordLoop o k rest = if o + (k + (rest.takeWhile IsAlnum).length) < 2147483648 then
      .ok (k + (rest.takeWhile IsAlnum).length) else .error .signed := by
  induction rest generalizing k with
  | nil =>
      rw [wordLoop, List.takeWhile_nil, List.length_nil, Nat.add_zero, intAdd]
      split <;> rfl
  | cons c rest ih =>
      by_cases hfit : o + k < 2147483648
      · cases hc : IsAlnum c with
        | true =>
            have hsum : k + ((rest.takeWhile IsAlnum).length + 1) =
                k + 1 + (rest.takeWhile IsAlnum).length := by omega
            rw [wordLoop_next hfit hc, ih, List.takeWhile_cons_of_pos hc, List.length_cons, hsum]
        | false =>
            rw [wordLoop_stop hfit hc, List.takeWhile_cons_of_neg (Bool.eq_false_iff.mp hc),
              List.length_nil, Nat.add_zero, if_pos hfit]
      · rw [wordLoop_overflow (Nat.le_of_not_lt hfit), if_neg (by omega)]

theorem advance_eq (n o k : Nat) : advance n o k = if o + k < 2147483648 then
    .ok (if o + k ≤ n then .inl (o + k) else .inr o) else .error .signed := by
  rw [advance, intAdd]
  split <;> rfl

/-- What the loop does with a word. -/
theorem wordRound_eq (rest : Bytes) :
    (wordLoop o 1 rest >>= fun dwWordLen =>
      if dwWordLen > n then .ok (.inr n) else advance n o dwWordLen) =
    if o + ((rest.takeWhile IsAlnum).length + 1) < 2147483648 then
      .ok (if o + ((rest.takeWhile IsAlnum).length + 1) ≤ n then
          .inl (o + ((rest.takeWhile IsAlnum).length + 1))
        else .inr (if n < (rest.takeWhile IsAlnum).length + 1 then n else o))
    else .error .signed := by
  rw [wordLoop_eq, Nat.add_comm 1]
  split
  · next hfit =>
      show (if (rest.takeWhile IsAlnum).length + 1 > n then _ else _) = _
      split
      · rw [if_neg (by omega)]
      · rw [advance_eq, if_pos hfit]
  · rfl

/-- A round passes a token that fits, and leaves the loop at one that does not. -/
theorem abstractRound_eq (ho : o ≤ n) (hs : s.drop o = c :: rest) :
    abstractRound s n o =
      if o + (firstToken c rest).width < 2147483648 then
        .ok (if o + (firstToken c rest).width ≤ n then .inl (o + (firstToken c rest).width)
          else .inr (if (firstToken c rest).isWord ∧ n < (firstToken c rest).bytes.length then n
            else o))
      else .error .signed := by
  unfold abstractRound firstToken
  rw [if_pos ho, hs]
  simp only
  split
  · cases rest <;> simp [advance_eq, TextToken.width, TextToken.isWord, TextToken.bytes]
  · split
    · rw [wordRound_eq]
      simp [TextToken.width, TextToken.isWord, TextToken.bytes]
    · simp [advance_eq, TextToken.width, TextToken.isWord, TextToken.bytes]

/-! ## The loop -/

theorem text_cons (t : TextToken) (ts : List TextToken) : text (t :: ts) = t.bytes ++ text ts :=
  List.flatMap_cons

/-- The loop passes the tokens that fit. -/
theorem abstractLoop_pass {pre post : List TextToken} (hn : n < 2147483648)
    (ht : tokens (s.drop o) = pre ++ post) (hpost : post ≠ [])
    (hfit : o + (text pre).length ≤ n) (r : Except Overflow Nat) :
    Yields (loop (abstractRound s n) o) r ↔
      Yields (loop (abstractRound s n) (o + (text pre).length)) r := by
  induction pre generalizing o with
  | nil => rfl
  | cons t pre ih =>
      cases hs : s.drop o with
      | nil =>
          rw [hs, tokens] at ht
          cases ht
      | cons c rest =>
          rw [hs, tokens_cons, List.cons_append, List.cons.injEq] at ht
          obtain ⟨rfl, hrest⟩ := ht
          rw [text_cons, List.length_append] at hfit ⊢
          have hwidth : (firstToken c rest).width = (firstToken c rest).bytes.length := by
            rcases firstToken_width c rest with hwidth | ⟨rfl, hone, -⟩
            · exact hwidth
            · -- a first byte at the end of the text is the last token
              rw [hone, List.drop_one, List.tail_cons, tokens] at hrest
              exact absurd (List.append_eq_nil_iff.mp hrest.symm).2 hpost
          have hround : abstractRound s n o =
              .ok (.inl (o + (firstToken c rest).bytes.length)) := by
            rw [abstractRound_eq (by omega) hs, hwidth, if_pos (by omega), if_pos (by omega)]
          rw [← hs, List.drop_drop] at hrest
          rw [yields_next hround, ih hrest (by omega), Nat.add_assoc]

/-- The loop leaves at the first token that does not fit. -/
theorem abstractLoop_leave {t : TextToken} {post : List TextToken} (ho : o ≤ n)
    (ht : tokens (s.drop o) = t :: post) (hlong : n < o + t.bytes.length) :
    Yields (loop (abstractRound s n) o) (if o + t.width < 2147483648 then
      .ok (if t.isWord ∧ n < t.bytes.length then n else o) else .error .signed) := by
  cases hs : s.drop o with
  | nil =>
      rw [hs, tokens] at ht
      cases ht
  | cons c rest =>
      rw [hs, tokens_cons, List.cons.injEq] at ht
      obtain ⟨rfl, -⟩ := ht
      have hwide : ¬ o + (firstToken c rest).width ≤ n := by
        rcases firstToken_width c rest with hwidth | ⟨-, hone, htwo⟩
        · omega
        · omega
      have hround := abstractRound_eq ho hs
      rw [if_neg hwide] at hround
      split at hround
      · next hfit =>
          rw [if_pos hfit]
          exact yields_leave hround
      · next hfit =>
          rw [if_neg hfit]
          exact yields_fault hround

end

/-! ## Whole tokens -/

section

variable {s : Bytes} {n : Nat} {pre pre' post post' : List TextToken} {t t' : TextToken}

/-- The tokens `pre` have at most `n` bytes, and more than `n` with the next one. -/
structure Splits (s : Bytes) (n : Nat) (pre : List TextToken) (t : TextToken) (post : List TextToken) :
    Prop where
  tokens_eq : tokens s = pre ++ t :: post
  fits : (text pre).length ≤ n
  unfit : n < (text pre).length + t.bytes.length

/-- `r` is the longest prefix of whole tokens that has at most `n` bytes, or the first `n` bytes
when a word that is longer comes next. -/
def IsAbstract (s : Bytes) (n : Nat) (r : Bytes) : Prop :=
  ∃ pre t post, Splits s n pre t post ∧
    r = if t.isWord ∧ n < t.bytes.length then s.take n else text pre

/-- A begin of the text does not end between the two bytes of a double-byte character. -/
def KeepsWhole (s r : Bytes) : Prop :=
  ∀ pre high low post, tokens s = pre ++ .double high low :: post →
    r.length ≠ (text pre).length + 1

theorem text_append (ts ts' : List TextToken) : text (ts ++ ts') = text ts ++ text ts' :=
  List.flatMap_append

theorem text_tokens (s : Bytes) : text (tokens s) = s := by
  obtain ⟨htext, htokens⟩ := text_of_tokens (tokens s) [] (List.append_nil _).symm
  have hrest : s.drop (text (tokens s)).length = [] := by
    cases hs : s.drop (text (tokens s)).length with
    | nil => rfl
    | cons c rest =>
        rw [hs, tokens_cons] at htokens
        cases htokens
  rw [hrest, List.append_nil] at htext
  exact htext.symm

theorem exists_splits_of_lt (ts : List TextToken) (h : n < (text ts).length) :
    ∃ pre t post, ts = pre ++ t :: post ∧ (text pre).length ≤ n ∧
      n < (text pre).length + t.bytes.length := by
  induction ts generalizing n with
  | nil => cases h
  | cons t ts ih =>
      by_cases hn : n < t.bytes.length
      · exact ⟨[], t, ts, rfl, Nat.zero_le n, by rw [text, List.flatMap_nil]; omega⟩
      · rw [text_cons, List.length_append] at h
        obtain ⟨pre, t', post, rfl, hle, hlt⟩ := ih (n := n - t.bytes.length) (by omega)
        refine ⟨t :: pre, t', post, rfl, ?_, ?_⟩ <;>
        · rw [text_cons, List.length_append]
          omega

theorem exists_splits (h : n < s.length) : ∃ pre t post, Splits s n pre t post := by
  rw [← text_tokens s] at h
  obtain ⟨pre, t, post, htokens, hle, hlt⟩ := exists_splits_of_lt (tokens s) h
  exact ⟨pre, t, post, htokens, hle, hlt⟩

/-- Two tokens of a text are the same one, or one of them ends where the other one starts or
before. -/
theorem splits_apart (h : pre ++ t :: post = pre' ++ t' :: post') :
    (pre = pre' ∧ t = t') ∨ (text pre).length + t.bytes.length ≤ (text pre').length ∨
      (text pre').length + t'.bytes.length ≤ (text pre).length := by
  rcases List.append_eq_append_iff.mp h with ⟨mid, hpre, hmid⟩ | ⟨mid, hpre, hmid⟩
  · cases mid with
    | nil =>
        left
        rw [List.append_nil] at hpre
        exact ⟨hpre.symm, (List.cons.inj hmid).1⟩
    | cons t'' mid =>
        right
        left
        obtain ⟨rfl, -⟩ := List.cons.inj hmid
        rw [hpre, text_append, text_cons]
        simp only [List.length_append]
        omega
  · cases mid with
    | nil =>
        left
        rw [List.append_nil] at hpre
        exact ⟨hpre, (List.cons.inj hmid).1.symm⟩
    | cons t'' mid =>
        right
        right
        obtain ⟨rfl, -⟩ := List.cons.inj hmid
        rw [hpre, text_append, text_cons]
        simp only [List.length_append]
        omega

theorem Splits.unique (h : Splits s n pre t post) (h' : Splits s n pre' t' post') :
    pre = pre' ∧ t = t' := by
  have hle := h.fits
  have hlt := h.unfit
  have hle' := h'.fits
  have hlt' := h'.unfit
  rcases splits_apart (h.tokens_eq.symm.trans h'.tokens_eq) with hsame | hbefore | hbehind
  · exact hsame
  · omega
  · omega

/-- The offset at which the loop leaves. -/
def cutOffset (n : Nat) (pre : List TextToken) (t : TextToken) : Nat :=
  if t.isWord ∧ n < t.bytes.length then n else (text pre).length

theorem take_cutOffset (h : Splits s n pre t post) :
    s.take (cutOffset n pre t) = if t.isWord ∧ n < t.bytes.length then s.take n else text pre := by
  unfold cutOffset
  split
  · rfl
  · conv_lhs => rw [← text_tokens s, h.tokens_eq, text_append]
    exact List.take_left

theorem keepsWhole_take (h : Splits s n pre t post) (hn : n < s.length) :
    KeepsWhole s (s.take (cutOffset n pre t)) := by
  intro pre' high low post' htokens
  have hle := h.fits
  have hlt := h.unfit
  have htwo : (TextToken.double high low).bytes.length = 2 := rfl
  have hplace : (text pre).length ≤ cutOffset n pre t ∧ cutOffset n pre t ≤ n := by
    unfold cutOffset
    split <;> omega
  rw [List.length_take_of_le (by omega)]
  rcases splits_apart (h.tokens_eq.symm.trans htokens) with ⟨rfl, rfl⟩ | hbefore | hbehind
  · rw [cutOffset, if_neg fun hword => Bool.false_ne_true hword.1]
    omega
  · omega
  · omega

/-- Whether the loop comes to an offset depends on the first token that does not fit. -/
theorem AbstractString_yields {dwLen : Int} (hpos : 0 < dwLen) (hlen : dwLen < s.length)
    (hint : dwLen < 2147483648) (h : Splits s dwLen.toNat pre t post) :
    Yields (AbstractString s dwLen) (if (text pre).length + t.width < 2147483648 then
      .ok (s.take (cutOffset dwLen.toNat pre t)) else .error .signed) := by
  have hne : s ≠ [] := by
    rintro rfl
    simp at hlen
    omega
  obtain ⟨-, hrest⟩ := text_of_tokens pre (t :: post) h.tokens_eq
  have hstart : tokens (s.drop 0) = pre ++ t :: post := h.tokens_eq
  have hpass := abstractLoop_pass (n := dwLen.toNat) (by omega) hstart (List.cons_ne_nil _ _)
    (by rw [Nat.zero_add]; exact h.fits)
  have hleave := abstractLoop_leave h.fits hrest h.unfit
  rw [Nat.zero_add] at hpass
  rw [← hpass] at hleave
  rw [AbstractString, if_neg (by omega), if_neg hne, if_neg (by omega)]
  split
  · next hfit =>
      rw [if_pos hfit] at hleave
      rw [yields_andThen (settles_loop _ _) (fun _ => settles_now _) hleave]
      exact yields_now _
  · next hover =>
      rw [if_neg hover] at hleave
      exact yields_andThen_fault hleave

theorem settles_AbstractString (s : Bytes) (dwLen : Int) : Settles (AbstractString s dwLen) := by
  unfold AbstractString
  split
  · exact settles_now _
  · split
    · exact settles_now _
    · split
      · exact settles_now _
      · exact settles_andThen (settles_loop _ _) fun _ => settles_now _

end

/-- The abstract is cut as it should be exactly when the offset behind the first token that does
not fit is a value of `int`. -/
theorem AbstractString_iff {s : Bytes} {dwLen : Int} (hpos : 0 < dwLen) (hlen : dwLen < s.length)
    (hint : dwLen < 2147483648) :
    (∃ r, Yields (AbstractString s dwLen) (.ok r) ∧ IsAbstract s dwLen.toNat r ∧
      KeepsWhole s r) ↔
    ∀ pre t post, Splits s dwLen.toNat pre t post →
      (text pre).length + t.width < 2147483648 := by
  obtain ⟨pre, t, post, hsplits⟩ := exists_splits (s := s) (n := dwLen.toNat) (by omega)
  have hyields := AbstractString_yields hpos hlen hint hsplits
  constructor
  · rintro ⟨r, hr, -, -⟩ pre' t' post' hsplits'
    obtain ⟨rfl, rfl⟩ := hsplits.unique hsplits'
    by_contra hover
    rw [if_neg hover] at hyields
    cases (settles_AbstractString s dwLen).unique hr hyields
  · intro hfit
    rw [if_pos (hfit pre t post hsplits)] at hyields
    refine ⟨_, hyields, ⟨pre, t, post, hsplits, take_cutOffset hsplits⟩, ?_⟩
    exact keepsWhole_take hsplits (by omega)

theorem splits_fit_of_short {s : Bytes} {n : Nat} {pre post : List TextToken} {t : TextToken}
    (hs : s.length < 2147483647) (h : Splits s n pre t post) :
    (text pre).length + t.width < 2147483648 := by
  have hwidth : t.width ≤ t.bytes.length + 1 := by
    cases t <;> simp [TextToken.width, TextToken.bytes]
  have hlen := congrArg List.length (text_tokens s)
  rw [h.tokens_eq, text_append, text_cons, List.length_append, List.length_append] at hlen
  omega

/-- A word and a blank, without a part of the next word. -/
theorem AbstractString_sample :
    ∃ r, Yields (AbstractString [97, 98, 32, 99, 100] 4) (.ok r) ∧
      IsAbstract [97, 98, 32, 99, 100] (4 : Int).toNat r ∧ KeepsWhole [97, 98, 32, 99, 100] r :=
  (AbstractString_iff (by decide) (by decide) (by decide)).mpr fun _ _ _ h =>
    splits_fit_of_short (by decide) h

theorem tokens_letters (k : Nat) :
    tokens (List.replicate (k + 1) 97) = [.word (List.replicate (k + 1) 97)] := by
  have hword : firstToken 97 (List.replicate k 97) = .word (List.replicate (k + 1) 97) := by
    have hall : (List.replicate k (97 : UInt8)).takeWhile IsAlnum = List.replicate k 97 := by
      apply List.takeWhile_eq_self_iff.mpr
      intro c hc
      rw [List.eq_of_mem_replicate hc]
      decide
    unfold firstToken
    rw [if_neg (by decide), if_pos (by decide), hall]
    rfl
  rw [List.replicate_succ, tokens_cons, hword, TextToken.bytes, ← List.replicate_succ,
    List.drop_length, tokens]

/-- The length of a word of 2147483648 letters overflows. -/
theorem AbstractString_overflow :
    ¬ ∀ (s : Bytes) (dwLen : Int), 0 < dwLen → dwLen < s.length → dwLen < 2147483648 →
      ∃ r, Yields (AbstractString s dwLen) (.ok r) ∧ IsAbstract s dwLen.toNat r ∧
        KeepsWhole s r := by
  intro h
  have hlen : (List.replicate (2147483647 + 1) (97 : UInt8)).length = 2147483648 :=
    List.length_replicate
  have hsplits : Splits (List.replicate (2147483647 + 1) 97) (1 : Int).toNat []
      (.word (List.replicate (2147483647 + 1) 97)) [] := by
    refine ⟨tokens_letters 2147483647, Nat.zero_le 1, ?_⟩
    rw [TextToken.bytes, hlen]
    decide
  have hlt : (1 : Int) < (List.replicate (2147483647 + 1) (97 : UInt8)).length := by
    rw [hlen]
    decide
  obtain ⟨r, hr, -⟩ := h (List.replicate (2147483647 + 1) 97) 1 (by decide) hlt (by decide)
  have hcode := AbstractString_yields (by decide) hlt (by decide) hsplits
  rw [TextToken.width, TextToken.bytes, hlen, if_neg (by decide)] at hcode
  · cases (settles_AbstractString _ _).unique hr hcode
  · exact fun _ hlead => TextToken.noConfusion hlead

end StringUtility

end CommonCc
