import CommonCc.TinyXml.Base

/-!
# White space, names and characters

What the readers of `TiXmlBase` do at the beginning of a text.
-/

namespace CommonCc

namespace TinyXml

variable {encoding : TiXmlEncoding} {w s t : Bytes} {c : UInt8}

/-! ## White space -/

/-- A run of white space. -/
def Blank (w : Bytes) : Prop := ∀ c ∈ w, IsWhiteSpace c = true

theorem blank_nil : Blank [] := fun _ hc => nomatch hc

theorem Blank.append (h : Blank w) (h' : Blank t) : Blank (w ++ t) := by
  intro c hc
  rcases List.mem_append.mp hc with hc | hc
  · exact h c hc
  · exact h' c hc

theorem blank_replicate {n : Nat} (h : IsWhiteSpace c = true) : Blank (List.replicate n c) := by
  intro b hb
  rw [List.eq_of_mem_replicate hb]
  exact h

theorem ne_lead_of_isWhiteSpace (h : IsWhiteSpace c = true) : c ≠ 0xef := by
  intro hc
  rw [hc] at h
  exact absurd h (by decide)

theorem skipUtf8_space (h : IsWhiteSpace c = true) (s : Bytes) :
    skipUtf8 (c :: s) = skipUtf8 s := by
  have hc := ne_lead_of_isWhiteSpace h
  match s with
  | [] => simp [skipUtf8, h]
  | [b] => simp [skipUtf8, h]
  | b :: d :: s =>
      rw [skipUtf8, if_neg, if_pos h]
      simp [isLeadMark, hc]

/-- A text begins with a byte order mark. -/
def startsMark : Bytes → Bool
  | a :: b :: c :: _ => isLeadMark a b c
  | _ => false

/-- White space ends where this text begins. -/
def Settled (encoding : TiXmlEncoding) (s : Bytes) : Prop :=
  (∀ c, s.head? = some c → IsWhiteSpace c = false) ∧ (encoding = .utf8 → startsMark s = false)

theorem skipUtf8_settled (h : Settled .utf8 s) : skipUtf8 s = s := by
  have hmark := h.2 rfl
  match s with
  | [] => rfl
  | [a] => simp [skipUtf8, h.1 a rfl]
  | [a, b] => simp [skipUtf8, h.1 a rfl]
  | a :: b :: c :: s =>
      rw [startsMark] at hmark
      rw [skipUtf8, if_neg (by simp [hmark]), if_neg (by simp [h.1 a rfl])]

theorem startsMark_cons (hc : c ≠ 0xef) : startsMark (c :: s) = false := by
  match s with
  | [] => rfl
  | [_] => rfl
  | _ :: _ :: _ => simp [startsMark, isLeadMark, hc]

theorem settled_cons (h : IsWhiteSpace c = false) (hc : c ≠ 0xef) : Settled encoding (c :: s) := by
  constructor
  · intro b hb
    cases hb
    exact h
  · exact fun _ => startsMark_cons hc

theorem skipUtf8_blank (hw : Blank w) (s : Bytes) : skipUtf8 (w ++ s) = skipUtf8 s := by
  induction w with
  | nil => rfl
  | cons c w ih =>
      rw [List.cons_append, skipUtf8_space (hw c List.mem_cons_self)]
      exact ih fun b hb => hw b (List.mem_cons_of_mem c hb)

theorem dropWhile_blank (hw : Blank w) (h : Settled encoding s) :
    (w ++ s).dropWhile IsWhiteSpace = s := by
  rw [List.dropWhile_append_of_pos hw]
  cases s with
  | nil => rfl
  | cons c s => exact List.dropWhile_cons_of_neg (by simp [h.1 c rfl])

/-- White space in front of a text is skipped. -/
theorem skip_blank (hw : Blank w) (h : Settled encoding s) (hne : w ++ s ≠ []) :
    SkipWhiteSpace (some (w ++ s)) encoding = some s := by
  cases hp : w ++ s with
  | nil => exact absurd hp hne
  | cons c t =>
      rw [SkipWhiteSpace, ← hp]
      split
      case isTrue henc =>
        subst henc
        rw [skipUtf8_blank hw, skipUtf8_settled h]
      case isFalse => rw [dropWhile_blank hw h]

theorem skip_settled (h : Settled encoding s) (hne : s ≠ []) :
    SkipWhiteSpace (some s) encoding = some s :=
  skip_blank blank_nil h hne

/-- Where the white space ends. -/
theorem skip_cons (h : IsWhiteSpace c = false) (hc : c ≠ 0xef) (hw : Blank w) :
    SkipWhiteSpace (some (w ++ c :: s)) encoding = some (c :: s) :=
  skip_blank hw (settled_cons h hc) (by simp)

theorem skip_all (hw : Blank w) (hne : w ≠ []) :
    SkipWhiteSpace (some w) encoding = some [] := by
  have hskip : SkipWhiteSpace (some (w ++ [])) encoding = some [] :=
    skip_blank hw ⟨fun _ hc => (nomatch hc), fun _ => rfl⟩ (by simpa using hne)
  rwa [List.append_nil] at hskip

/-! ## Names -/

/-- What holds of each of the 256 bytes holds of a byte. -/
theorem forall_byte {P : UInt8 → Prop} (h : ∀ n, n < 256 → P n.toUInt8) (c : UInt8) : P c := by
  have hc := h c.toNat c.toNat_lt
  rwa [Nat.toUInt8_eq, UInt8.ofNat_toNat] at hc

/-- A name that `ReadName` reads to its end. -/
def isName (encoding : TiXmlEncoding) (n : Bytes) : Bool :=
  startsName (n.headD 0) && n.all inName && !(encoding = .utf8 && startsMark n)

/-- The bytes of names, by running through all of them. -/
theorem name_bytes : ∀ c, (startsName c = true → IsWhiteSpace c = false ∧ inName c = true) ∧
    (inName c = false → c < 127) :=
  forall_byte (by decide +kernel)

theorem not_space_of_startsName (c : UInt8) (h : startsName c = true) : IsWhiteSpace c = false :=
  ((name_bytes c).1 h).1

theorem inName_of_startsName (c : UInt8) (h : startsName c = true) : inName c = true :=
  ((name_bytes c).1 h).2

theorem lt_of_not_inName (c : UInt8) (h : inName c = false) : c < 127 := (name_bytes c).2 h

theorem exists_cons_of_isName {n : Bytes} (h : isName encoding n = true) :
    ∃ c s, n = c :: s ∧ startsName c = true ∧ ∀ b ∈ n, inName b = true := by
  simp only [isName, Bool.and_eq_true, List.all_eq_true] at h
  cases n with
  | nil => exact absurd h.1.1 (by decide)
  | cons c s => exact ⟨c, s, rfl, h.1.1, h.1.2⟩

/-- A name is followed by something that no mark goes on with. -/
theorem startsMark_append {n : Bytes} (h : startsMark n = false) (hn : n ≠ []) (hc : c < 127) :
    startsMark (n ++ c :: s) = false := by
  have hbb : c ≠ 0xbb := by
    intro he
    rw [he] at hc
    exact absurd hc (by decide)
  have hbf : c ≠ 0xbf := by
    intro he
    rw [he] at hc
    exact absurd hc (by decide)
  have hbe : c ≠ 0xbe := by
    intro he
    rw [he] at hc
    exact absurd hc (by decide)
  match n with
  | [] => exact absurd rfl hn
  | [a] =>
      match s with
      | [] => rfl
      | _ :: _ => simp [startsMark, isLeadMark, hbb, hbf]
  | [a, b] => simp [startsMark, isLeadMark, hbf, hbe]
  | _ :: _ :: _ :: _ => exact h

theorem settled_name {n : Bytes} (h : isName encoding n = true) (hc : inName c = false) :
    Settled encoding (n ++ c :: s) := by
  obtain ⟨a, t, rfl, ha, _⟩ := exists_cons_of_isName h
  constructor
  · intro b hb
    cases hb
    exact not_space_of_startsName a ha
  · intro henc
    subst henc
    apply startsMark_append _ (by simp) (lt_of_not_inName c hc)
    simp only [isName, Bool.and_eq_true] at h
    simpa using h.2

theorem readName_name {n : Bytes} (h : isName encoding n = true) (hc : inName c = false) :
    ReadName (n ++ c :: s) = (n, some (c :: s)) := by
  obtain ⟨a, t, hn, ha, hall⟩ := exists_cons_of_isName h
  have htake : (n ++ c :: s).takeWhile inName = n := by
    rw [List.takeWhile_append_of_pos hall, List.takeWhile_cons_of_neg (by simp [hc]),
      List.append_nil]
  have hdrop : (n ++ c :: s).dropWhile inName = c :: s := by
    rw [List.dropWhile_append_of_pos hall, List.dropWhile_cons_of_neg (by simp [hc])]
  rw [hn, List.cons_append] at htake hdrop ⊢
  rw [ReadName, if_pos ha, htake, hdrop]

/-! ## Comparisons -/

@[simp] theorem stringEqual_cons (tag : Bytes) :
    StringEqual (some (c :: s)) tag false = .ok (tag.isPrefixOf (c :: s)) := rfl

@[simp] theorem stringEqual_ignoreCase (tag : Bytes) :
    StringEqual (some (c :: s)) tag true =
      .ok ((tag.map tolower).isPrefixOf ((c :: s).map tolower)) := rfl

/-! ## Characters -/

/-- How many bytes `GetChar` takes for a character that begins with this one. -/
def charLength (encoding : TiXmlEncoding) (c : UInt8) : Nat :=
  if encoding = .utf8 then utf8ByteTable c else 1

theorem one_le_charLength (encoding : TiXmlEncoding) (c : UInt8) : 1 ≤ charLength encoding c := by
  unfold charLength utf8ByteTable
  grind

theorem charLength_ascii (h : c < 0xc2) : charLength encoding c = 1 := by
  unfold charLength utf8ByteTable
  simp [h]

/-- Whole characters, behind whose first byte no ASCII stands. -/
inductive Whole (encoding : TiXmlEncoding) : Bytes → Prop
  | nil : Whole encoding []
  | char {c : UInt8} {cs s : Bytes} (hlen : charLength encoding c = cs.length + 1)
      (hcs : ∀ b ∈ cs, 0x80 ≤ b) (hs : Whole encoding s) : Whole encoding (c :: cs ++ s)

/-- The bytes are the end of whole characters, with so many bytes left of the first one. -/
def isWholeFrom (encoding : TiXmlEncoding) : Nat → Bytes → Bool
  | 0, [] => true
  | _ + 1, [] => false
  | 0, c :: s => isWholeFrom encoding (charLength encoding c - 1) s
  | n + 1, c :: s => 0x80 ≤ c && isWholeFrom encoding n s

theorem whole_of_isWholeFrom {n : Nat} (h : isWholeFrom encoding n s = true) :
    ∃ cs t, s = cs ++ t ∧ cs.length = n ∧ (∀ b ∈ cs, 0x80 ≤ b) ∧ Whole encoding t := by
  induction s generalizing n with
  | nil =>
      cases n with
      | zero => exact ⟨[], [], rfl, rfl, fun _ hb => (nomatch hb), .nil⟩
      | succ n => cases h
  | cons c s ih =>
      cases n with
      | zero =>
          obtain ⟨cs, t, rfl, hlen, hcs, ht⟩ := ih (n := charLength encoding c - 1) h
          have hpos := one_le_charLength encoding c
          exact ⟨[], _, rfl, rfl, fun _ hb => (nomatch hb), .char (by omega) hcs ht⟩
      | succ n =>
          rw [isWholeFrom, Bool.and_eq_true, decide_eq_true_eq] at h
          obtain ⟨cs, t, rfl, hlen, hcs, ht⟩ := ih h.2
          refine ⟨c :: cs, t, rfl, by simp [hlen], ?_, ht⟩
          intro b hb
          rcases List.mem_cons.mp hb with rfl | hb
          · exact h.1
          · exact hcs b hb

def isWhole (encoding : TiXmlEncoding) (s : Bytes) : Bool := isWholeFrom encoding 0 s

theorem whole_of_isWhole (h : isWhole encoding s = true) : Whole encoding s := by
  obtain ⟨cs, t, rfl, hlen, _, ht⟩ := whole_of_isWholeFrom h
  rwa [List.eq_nil_of_length_eq_zero hlen, List.nil_append]

/-- Outside UTF-8 every text is whole. -/
theorem whole_of_ne_utf8 (h : encoding ≠ .utf8) (s : Bytes) : Whole encoding s := by
  induction s with
  | nil => exact .nil
  | cons c s ih =>
      have hlen : charLength encoding c = 1 := by simp [charLength, h]
      exact @Whole.char encoding c [] s (by simpa using hlen) (fun _ hb => (nomatch hb)) ih

/-- What begins with an ASCII character in a whole text is whole. -/
theorem Whole.of_ascii (h : Whole encoding s) {a : Bytes} (hs : s = a ++ c :: t) (hc : c < 0x80) :
    Whole encoding (c :: t) := by
  induction h generalizing a with
  | nil => cases a <;> cases hs
  | char hlen hcs hwhole ih =>
      rename_i d cs s
      cases a with
      | nil =>
          rw [List.nil_append] at hs
          rw [← hs]
          exact .char hlen hcs hwhole
      | cons d' a =>
          injection hs with _ hs
          rcases List.append_eq_append_iff.mp hs with ⟨a', rfl, ha'⟩ | ⟨c', rfl, hc'⟩
          · exact ih ha'
          · cases c' with
            | nil => exact ih (a := []) hc'.symm
            | cons e c' =>
                injection hc' with he _
                have hbig := hcs e (by simp)
                rw [← he] at hbig
                exact absurd (UInt8.lt_of_lt_of_le hc hbig) (UInt8.lt_irrefl c)

end TinyXml

end CommonCc
