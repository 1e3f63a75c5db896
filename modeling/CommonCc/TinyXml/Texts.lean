import CommonCc.Lib.Search
import CommonCc.TinyXml.Lexical

/-!
# Encoded texts

`ReadText` reads back what `EncodeString` wrote, character by character.
-/

namespace CommonCc

namespace TinyXml

variable {encoding : TiXmlEncoding} {s t v w : Bytes} {c q : UInt8}

/-! ## The encoding of a text -/

/-- The beginning of a hexadecimal reference, which `EncodeString` passes through. -/
def referenceStart : Bytes := ascii ['&', '#', 'x']

def hasReference (v : Bytes) : Bool := (search referenceStart v).isSome

theorem hasReference_cons (h : hasReference (c :: s) = false) :
    hasReference s = false ∧ ¬ referenceStart <+: c :: s := by
  have hnone : search referenceStart (c :: s) = none := by
    simpa [hasReference] using h
  rw [search_eq_none_iff] at hnone
  constructor
  · have hs : search referenceStart s = none :=
      search_eq_none_iff.mpr fun hin => hnone (hin.trans (List.suffix_cons c s).isInfix)
    simp [hasReference, hs]
  · exact fun hp => hnone hp.isInfix

/-- Without a reference the text is encoded byte by byte. -/
theorem encodeString_flatMap (h : hasReference v = false) :
    EncodeString v = v.flatMap encodeByte := by
  unfold EncodeString
  induction v with
  | nil => rfl
  | cons c s ih =>
      obtain ⟨hs, hstart⟩ := hasReference_cons h
      rw [encodeFrom, if_neg, ih hs, List.flatMap_cons]
      intro hc
      simp only [Bool.and_eq_true, decide_eq_true_eq, List.isPrefixOf_iff_prefix] at hc
      obtain ⟨rfl, hp⟩ := hc
      exact hstart (List.prefix_cons_iff.mpr (.inr ⟨_, rfl, hp⟩))

/-- What a byte is encoded as, by running through all of them. -/
theorem encodeByte_table : ∀ b, ((0x80 : UInt8) ≤ b → encodeByte b = [b]) ∧ encodeByte b ≠ [] ∧
    ((encodeByte b).headD 0 ≠ 60 ∧ (encodeByte b).headD 0 ≠ 34 ∧ (encodeByte b).headD 0 ≠ 39) ∧
    (b ≠ 32 → IsWhiteSpace ((encodeByte b).headD 0) = false) ∧
    0 ∉ encodeByte b ∧ 13 ∉ encodeByte b :=
  forall_byte (by decide +kernel)

theorem encodeByte_large (b : UInt8) (h : 0x80 ≤ b) : encodeByte b = [b] := (encodeByte_table b).1 h

theorem encodeByte_ne_nil (b : UInt8) : encodeByte b ≠ [] := (encodeByte_table b).2.1

/-- No encoded byte begins with markup or a quote. -/
theorem encodeByte_head (b : UInt8) : (encodeByte b).headD 0 ≠ 60 ∧ (encodeByte b).headD 0 ≠ 34 ∧
    (encodeByte b).headD 0 ≠ 39 := (encodeByte_table b).2.2.1

/-- Only a blank is encoded as white space. -/
theorem encodeByte_space (b : UInt8) (h : b ≠ 32) :
    IsWhiteSpace ((encodeByte b).headD 0) = false := (encodeByte_table b).2.2.2.1 h

/-- No byte is encoded with a byte that a text or a file would change. -/
theorem encodeByte_plain (b : UInt8) : ∀ d ∈ encodeByte b, d ≠ 0 ∧ d ≠ 13 := by
  intro d hd
  obtain ⟨hzero, hreturn⟩ := (encodeByte_table b).2.2.2.2
  exact ⟨fun he => hzero (he ▸ hd), fun he => hreturn (he ▸ hd)⟩

/-! ## Reading an encoded character -/

/-- The reference of a byte below 32. -/
theorem referenceValue_escape : ∀ b, b < 32 →
    referenceValue 16 hexadecimalDigit 120
      [upperHexDigit (b.toNat % 16), upperHexDigit (b.toNat / 16)] 1 0 = some b.toNat ∧
      upperHexDigit (b.toNat / 16) ≠ 59 ∧ upperHexDigit (b.toNat % 16) ≠ 59 ∧
      ConvertUTF32ToUTF8 b.toNat = [b] :=
  forall_byte (by decide +kernel)

theorem getEntity_escape (hc : c < 32) (s : Bytes) :
    GetEntity (escapeByte c ++ s) encoding = ([c], some s) := by
  obtain ⟨hvalue, hhigh, hlow, hutf⟩ := referenceValue_escape c hc
  have hchar : referenceChar encoding c.toNat = [c] := by
    unfold referenceChar
    split
    · exact hutf
    · simp
  simp [escapeByte, ascii, GetEntity, GetReference, hhigh, hlow, hvalue, hchar]

theorem getEntity_named (he : c = 38 ∨ c = 60 ∨ c = 62 ∨ c = 34 ∨ c = 39) (s : Bytes) :
    GetEntity (encodeByte c ++ s) encoding = ([c], some s) := by
  rcases he with rfl | rfl | rfl | rfl | rfl <;>
    simp [encodeByte, ascii, GetEntity, entity, List.find?, List.isPrefixOf]

/-- A byte is either written as it is or as an entity. -/
theorem encodeByte_cases (c : UInt8) :
    (encodeByte c = [c] ∧ c ≠ 38) ∨
      (∃ r, encodeByte c = 38 :: r) ∧ c < 0x80 ∧
        ∀ encoding s, GetEntity (encodeByte c ++ s) encoding = ([c], some s) := by
  by_cases hnamed : c = 38 ∨ c = 60 ∨ c = 62 ∨ c = 34 ∨ c = 39
  · right
    constructor
    · rcases hnamed with rfl | rfl | rfl | rfl | rfl <;> exact ⟨_, rfl⟩
    · constructor
      · rcases hnamed with rfl | rfl | rfl | rfl | rfl <;> decide
      · exact fun encoding s => getEntity_named hnamed s
  · simp only [not_or] at hnamed
    obtain ⟨h1, h2, h3, h4, h5⟩ := hnamed
    by_cases hlow : c < 32
    · have henc : encodeByte c = escapeByte c := by simp [encodeByte, h1, h2, h3, h4, h5, hlow]
      right
      constructor
      · exact ⟨_, henc⟩
      · constructor
        · exact UInt8.lt_trans hlow (by decide)
        · intro encoding s
          rw [henc]
          exact getEntity_escape hlow s
    · left
      exact ⟨by simp [encodeByte, h1, h2, h3, h4, h5, hlow], h1⟩

/-- A character that the encoding leaves as it is. -/
theorem getChar_cons {cs : Bytes} (hc : c ≠ 38) (hlen : charLength encoding c = cs.length + 1) :
    GetChar (c :: cs ++ s) encoding = .ok (c :: cs, some s) := by
  unfold charLength at hlen
  rw [List.cons_append, GetChar]
  simp only [hlen]
  cases cs with
  | nil => simp [hc]
  | cons d cs => simp

/-- An encoded character is read back. -/
theorem getChar_encoded {cs : Bytes} (hlen : charLength encoding c = cs.length + 1) :
    GetChar (encodeByte c ++ cs ++ s) encoding = .ok (c :: cs, some s) := by
  rcases encodeByte_cases c with ⟨henc, hc⟩ | ⟨⟨r, hr⟩, hc, hentity⟩
  · rw [henc]
    exact getChar_cons hc hlen
  · have hone : charLength encoding c = 1 :=
      charLength_ascii (UInt8.lt_of_lt_of_le hc (by decide : (0x80 : UInt8) ≤ 0xc2))
    have hcs : cs = [] := List.eq_nil_of_length_eq_zero (by omega)
    have hamp : charLength encoding 38 = 1 := charLength_ascii (by decide)
    have hget := hentity encoding s
    unfold charLength at hamp
    rw [hr] at hget
    rw [hcs, List.append_nil, hr, List.cons_append, GetChar]
    simp only [hamp, if_true]
    rw [← List.cons_append, hget]

/-- The bytes behind the first one of a character are not changed. -/
theorem flatMap_encodeByte_char {cs : Bytes} (hcs : ∀ b ∈ cs, 0x80 ≤ b) :
    (c :: cs ++ s).flatMap encodeByte = encodeByte c ++ cs ++ s.flatMap encodeByte := by
  have hsame : cs.flatMap encodeByte = cs := by
    rw [List.flatMap_congr fun b hb => encodeByte_large b (hcs b hb)]
    simp
  rw [List.flatMap_append, List.flatMap_cons, hsame]

theorem exists_cons_encodeByte (c : UInt8) : ∃ d r, encodeByte c = d :: r ∧
    (encodeByte c).headD 0 = d := by
  cases henc : encodeByte c with
  | nil => exact absurd henc (encodeByte_ne_nil c)
  | cons d r => exact ⟨d, r, rfl, rfl⟩

/-! ## The loops of `ReadText` -/

theorem keepText_char {fuel : Nat} {endTag cs acc : Bytes} {d : UInt8} {r : Bytes}
    (hstop : endTag.isPrefixOf (d :: r) = false)
    (hget : GetChar (d :: r) encoding = .ok (cs, some s)) :
    keepText endTag encoding (fuel + 1) (some (d :: r)) acc =
      keepText endTag encoding fuel (some s) (acc ++ cs) := by
  rw [keepText]
  simp only [stringEqual_cons, hstop, hget]
  rfl

theorem keepText_stop {fuel : Nat} {endTag acc : Bytes} {d : UInt8} {r : Bytes}
    (hstop : endTag.isPrefixOf (d :: r) = true) :
    keepText endTag encoding fuel (some (d :: r)) acc = .ok (acc, some (d :: r)) := by
  rw [keepText.eq_def]
  simp only [stringEqual_cons, hstop]
  rfl

/-- An encoded text is read up to the quote behind it. -/
theorem keepText_encoded (hq : q = 34 ∨ q = 39) (hv : Whole encoding v) {fuel : Nat} {acc : Bytes}
    (hfuel : (v.flatMap encodeByte).length ≤ fuel) :
    keepText [q] encoding fuel (some (v.flatMap encodeByte ++ q :: t)) acc =
      .ok (acc ++ v, some (q :: t)) := by
  induction hv generalizing fuel acc with
  | nil =>
      rw [List.flatMap_nil, List.nil_append, List.append_nil]
      exact keepText_stop (by simp)
  | char hlen hcs hwhole ih =>
      rename_i c cs s
      obtain ⟨d, r, hd, hhead⟩ := exists_cons_encodeByte c
      have hstop : [q].isPrefixOf (d :: (r ++ (cs ++ (s.flatMap encodeByte ++ q :: t)))) = false := by
        have hne := (encodeByte_head c).2
        rw [hhead] at hne
        rcases hq with rfl | rfl
        · simp [List.isPrefixOf, hne.1.symm]
        · simp [List.isPrefixOf, hne.2.symm]
      have hget := getChar_encoded (s := s.flatMap encodeByte ++ q :: t) hlen
      rw [flatMap_encodeByte_char hcs, hd] at hfuel ⊢
      rw [hd] at hget
      simp only [List.cons_append, List.append_assoc, List.length_cons, List.length_append]
        at hfuel hget ⊢
      cases fuel with
      | zero => omega
      | succ fuel => rw [keepText_char hstop hget, ih (by omega), List.append_assoc, List.cons_append]

/-- An attribute value is read back. -/
theorem readText_quoted (condense : Bool) (hq : q = 34 ∨ q = 39) (hv : Whole encoding v)
    (hno : hasReference v = false) (ht : t ≠ []) :
    ReadText condense (some (EncodeString v ++ q :: t)) false [q] encoding = .ok (v, some t) := by
  have hkeep : keepText [q] encoding (bytesLeft (some (v.flatMap encodeByte ++ q :: t)))
      (some (v.flatMap encodeByte ++ q :: t)) [] = .ok ([] ++ v, some (q :: t)) :=
    keepText_encoded hq hv (by simp [bytesLeft])
  rw [ReadText, encodeString_flatMap hno]
  simp only [Bool.not_false, Bool.true_or, if_true]
  rw [hkeep]
  simp [bind, Except.bind, behindTag, ifMore, ht]

/-! ## White space within a text -/

/-- Blanks stand alone and none is the last byte. -/
def isSpaced : Bytes → Bool
  | [] => true
  | [c] => c ≠ 32
  | c :: d :: s => !(c = 32 && d = 32) && isSpaced (d :: s)

theorem isSpaced_tail (h : isSpaced (c :: s) = true) : isSpaced s = true := by
  cases s with
  | nil => rfl
  | cons d s =>
      rw [isSpaced, Bool.and_eq_true] at h
      exact h.2

theorem isSpaced_drop {a : Bytes} (h : isSpaced (a ++ s) = true) : isSpaced s = true := by
  induction a with
  | nil => exact h
  | cons c a ih => exact ih (isSpaced_tail h)

/-- Behind a blank comes something else. -/
theorem isSpaced_blank (h : isSpaced (32 :: s) = true) : ∃ c t, s = c :: t ∧ c ≠ 32 := by
  cases s with
  | nil => exact absurd h (by decide)
  | cons d s =>
      rw [isSpaced, Bool.and_eq_true] at h
      exact ⟨d, s, rfl, by simpa using h.1⟩

theorem condenseText_space {fuel : Nat} {endTag acc : Bytes} {whitespace : Bool}
    (hspace : IsWhiteSpace c = true) (hstop : endTag.isPrefixOf (c :: s) = false) :
    condenseText endTag encoding (fuel + 1) whitespace (some (c :: s)) acc =
      condenseText endTag encoding fuel true (some s) acc := by
  rw [condenseText]
  simp only [stringEqual_cons, hstop, hspace]
  split <;> simp_all [bind, Except.bind]

theorem condenseText_other {fuel : Nat} {endTag acc : Bytes} {whitespace : Bool} {d : UInt8}
    {r : Bytes} (hspace : IsWhiteSpace d = false) (hstop : endTag.isPrefixOf (d :: r) = false) :
    condenseText endTag encoding (fuel + 1) whitespace (some (d :: r)) acc = (do
      let (cs, next) ← GetChar (d :: r) encoding
      condenseText endTag encoding fuel false next
        ((if whitespace then acc ++ [32] else acc) ++ cs)) := by
  have hline : (d = 13 || d = 10) = false := by
    simp only [IsWhiteSpace, Bool.or_eq_false_iff] at hspace ⊢
    exact ⟨hspace.2, hspace.1.2⟩
  rw [condenseText]
  simp only [stringEqual_cons, hstop, hspace, hline]
  rfl

theorem condenseText_char {fuel : Nat} {endTag cs acc : Bytes} {whitespace : Bool} {d : UInt8}
    {r : Bytes} (hspace : IsWhiteSpace d = false) (hstop : endTag.isPrefixOf (d :: r) = false)
    (hget : GetChar (d :: r) encoding = .ok (cs, some s)) :
    condenseText endTag encoding (fuel + 1) whitespace (some (d :: r)) acc =
      condenseText endTag encoding fuel false (some s)
        ((if whitespace then acc ++ [32] else acc) ++ cs) := by
  rw [condenseText_other hspace hstop, hget]
  rfl

theorem condenseText_stop {fuel : Nat} {endTag acc : Bytes} {whitespace : Bool} {d : UInt8}
    {r : Bytes} (hstop : endTag.isPrefixOf (d :: r) = true) :
    condenseText endTag encoding fuel whitespace (some (d :: r)) acc =
      .ok (acc, some (d :: r)) := by
  rw [condenseText.eq_def]
  simp only [stringEqual_cons, hstop]
  rfl

theorem ne_tag_of_isWhiteSpace (h : IsWhiteSpace c = true) : c ≠ 60 := by
  intro hc
  rw [hc] at h
  exact absurd h (by decide)

/-- White space in front of the end is dropped. -/
theorem condenseText_blank (hw : Blank w) {fuel : Nat} {acc : Bytes} {whitespace : Bool}
    (hfuel : w.length ≤ fuel) :
    condenseText [60] encoding fuel whitespace (some (w ++ 60 :: t)) acc =
      .ok (acc, some (60 :: t)) := by
  induction w generalizing fuel whitespace with
  | nil => exact condenseText_stop (by simp)
  | cons c w ih =>
      have hc := hw c List.mem_cons_self
      cases fuel with
      | zero => simp at hfuel
      | succ fuel =>
          rw [List.cons_append, condenseText_space hc]
          · exact ih (fun b hb => hw b (List.mem_cons_of_mem c hb)) (by simpa using hfuel)
          · simp [List.isPrefixOf, (ne_tag_of_isWhiteSpace hc).symm]

/-- An encoded text is read up to the tag behind it, with a blank for the one that is still to
be added. -/
theorem condenseText_encoded (hw : Blank w) (hv : Whole encoding v) (hspaced : isSpaced v = true)
    {fuel : Nat} {acc : Bytes} {whitespace : Bool}
    (hblank : whitespace = true → ∃ c s, v = c :: s ∧ c ≠ 32)
    (hfuel : (v.flatMap encodeByte ++ w).length ≤ fuel) :
    condenseText [60] encoding fuel whitespace (some (v.flatMap encodeByte ++ (w ++ 60 :: t))) acc =
      .ok ((if whitespace then acc ++ [32] else acc) ++ v, some (60 :: t)) := by
  induction hv generalizing fuel acc whitespace with
  | nil =>
      cases whitespace with
      | true =>
          obtain ⟨_, _, hnil, _⟩ := hblank rfl
          cases hnil
      | false =>
          rw [List.flatMap_nil, List.nil_append] at hfuel ⊢
          rw [condenseText_blank hw hfuel]
          simp
  | char hlen hcs hwhole ih =>
      rename_i c cs s
      obtain ⟨d, r, hd, hhead⟩ := exists_cons_encodeByte c
      have hne := (encodeByte_head c).1
      rw [hhead] at hne
      have hstop : [60].isPrefixOf (d :: (r ++ (cs ++ (s.flatMap encodeByte ++ (w ++ 60 :: t))))) =
          false := by
        simp [List.isPrefixOf, hne.symm]
      have hget := getChar_encoded (s := s.flatMap encodeByte ++ (w ++ 60 :: t)) hlen
      rw [flatMap_encodeByte_char hcs, hd] at hfuel ⊢
      rw [hd] at hget
      simp only [List.cons_append, List.append_assoc, List.length_cons, List.length_append]
        at hfuel hget ⊢
      cases fuel with
      | zero => omega
      | succ fuel =>
          by_cases hc : c = 32
          · -- a blank, which the next character adds
            subst hc
            have hwhite : whitespace = false := by
              cases whitespace with
              | false => rfl
              | true =>
                  obtain ⟨_, _, hcons, hother⟩ := hblank rfl
                  injection hcons with hcons
                  exact absurd hcons.symm hother
            have hone : charLength encoding 32 = 1 := charLength_ascii (by decide)
            have hnil : cs = [] := List.eq_nil_of_length_eq_zero (by omega)
            injection hd with hd hr
            subst hd hr hnil
            have hnext := isSpaced_blank hspaced
            rw [condenseText_space (by decide) hstop, List.nil_append, List.nil_append,
              ih (isSpaced_tail hspaced) (fun _ => hnext) (by rw [List.length_append]; omega)]
            simp [hwhite]
          · have hspace : IsWhiteSpace d = false := by
              have := encodeByte_space c hc
              rwa [hhead] at this
            rw [condenseText_char hspace hstop hget,
              ih (isSpaced_drop (a := c :: cs) hspaced) (by simp) (by rw [List.length_append]; omega)]
            simp

/-! ## Whole texts -/

/-- A text that comes back when it is written between tags. -/
def isText (encoding : TiXmlEncoding) (v : Bytes) : Bool :=
  isWhole encoding v && !hasReference v && isSpaced v && v.headD 32 ≠ 32 &&
    !(v.all IsWhiteSpace) && !(encoding = .utf8 && startsMark v)

/-- The value of an attribute that comes back. -/
def isValue (encoding : TiXmlEncoding) (v : Bytes) : Bool :=
  isWhole encoding v && !hasReference v

structure TextFacts (encoding : TiXmlEncoding) (v : Bytes) : Prop where
  whole : Whole encoding v
  plain : hasReference v = false
  spaced : isSpaced v = true
  first : ∃ c s, v = c :: s ∧ c ≠ 32
  notBlank : v.all IsWhiteSpace = false
  settled : encoding = .utf8 → startsMark v = false

theorem textFacts (h : isText encoding v = true) : TextFacts encoding v := by
  simp only [isText, Bool.and_eq_true, decide_eq_true_eq, Bool.not_eq_eq_eq_not,
    Bool.not_true, Bool.and_eq_false_iff, decide_eq_false_iff_not] at h
  obtain ⟨⟨⟨⟨⟨hwhole, hplain⟩, hspaced⟩, hfirst⟩, hblank⟩, hmark⟩ := h
  refine ⟨whole_of_isWhole hwhole, hplain, hspaced, ?_, hblank, ?_⟩
  · cases v with
    | nil => exact absurd rfl hfirst
    | cons c s => exact ⟨c, s, rfl, hfirst⟩
  · intro henc
    rcases hmark with hne | hmark
    · exact absurd henc hne
    · exact hmark

/-- A mark is a character of three bytes, which the encoding leaves as it is. -/
theorem startsMark_encoded (hv : Whole .utf8 v) (hne : v ≠ []) (h : startsMark v = false) :
    startsMark (v.flatMap encodeByte ++ t) = false := by
  cases hv with
  | nil => exact absurd rfl hne
  | char hlen hcs hwhole =>
      rename_i c cs s
      rw [flatMap_encodeByte_char hcs]
      by_cases hc : c = 0xef
      · subst hc
        have hthree : charLength .utf8 0xef = 3 := by decide
        match cs, hlen with
        | [a, b], _ => exact h
        | [], hlen => simp [hthree] at hlen
        | [_], hlen => simp [hthree] at hlen
        | _ :: _ :: _ :: _, hlen => simp [hthree] at hlen
      · obtain ⟨d, r, hd, hhead⟩ := exists_cons_encodeByte c
        have hd' : d ≠ 0xef := by
          rcases encodeByte_cases c with ⟨henc, _⟩ | ⟨⟨r', hr'⟩, _⟩
          · rw [henc] at hd
            injection hd with hd _
            rwa [← hd]
          · rw [hr'] at hd
            injection hd with hd _
            rw [← hd]
            decide
        rw [hd]
        exact startsMark_cons hd'

theorem settled_encoded (h : TextFacts encoding v) : Settled encoding (EncodeString v ++ t) := by
  obtain ⟨c, s, hv, hc⟩ := h.first
  rw [encodeString_flatMap h.plain]
  constructor
  · intro b hb
    obtain ⟨d, r, hd, hhead⟩ := exists_cons_encodeByte c
    have hspace := encodeByte_space c hc
    rw [hhead] at hspace
    rw [hv, List.flatMap_cons, hd] at hb
    cases hb
    exact hspace
  · intro henc
    subst henc
    exact startsMark_encoded h.whole (by simp [hv]) (h.settled rfl)

/-- A text does not begin as a tag. -/
theorem encodeString_head (h : TextFacts encoding v) : ∃ d r, EncodeString v = d :: r ∧ d ≠ 60 := by
  obtain ⟨c, s, hv, _⟩ := h.first
  obtain ⟨d, r, hd, hhead⟩ := exists_cons_encodeByte c
  have hne := (encodeByte_head c).1
  rw [hhead] at hne
  rw [encodeString_flatMap h.plain, hv, List.flatMap_cons, hd]
  exact ⟨d, _, rfl, hne⟩

/-- A text is read back up to the tag behind it. -/
theorem readText_text (h : TextFacts encoding v) (hw : Blank w) (ht : t ≠ []) :
    ReadText true (some (EncodeString v ++ (w ++ 60 :: t))) true [60] encoding =
      .ok (v, some t) := by
  have hskip := skip_settled (settled_encoded (t := w ++ 60 :: t) h) (by simp)
  obtain ⟨c, s, hv, hc⟩ := h.first
  have hread : condenseText [60] encoding
      (bytesLeft (some (v.flatMap encodeByte ++ (w ++ 60 :: t)))) false
      (some (v.flatMap encodeByte ++ (w ++ 60 :: t))) [] = .ok ([] ++ v, some (60 :: t)) :=
    condenseText_encoded hw h.whole h.spaced (by simp)
      (by simp only [bytesLeft, Option.getD_some, List.length_append]; omega)
  rw [encodeString_flatMap h.plain] at hskip ⊢
  rw [ReadText]
  simp only [Bool.not_true, Bool.false_or, Bool.false_eq_true, if_false]
  rw [hskip, hread]
  simp [bind, Except.bind, behindTag, ifMore, ht]

end TinyXml

end CommonCc
