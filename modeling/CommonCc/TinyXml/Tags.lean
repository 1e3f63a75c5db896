import CommonCc.TinyXml.Document
import CommonCc.TinyXml.Texts

/-!
# Tags

The parsers of attributes, declarations, comments and the other nodes without children, on
texts that spell such a node.
-/

namespace CommonCc

namespace TinyXml

variable {encoding : TiXmlEncoding} {error : Option TiXmlError} {n s t v w : Bytes} {c q : UInt8}

/-! ## Attributes -/

theorem settled_ascii (h : IsWhiteSpace c = false) (hc : c < 0x80) : Settled encoding (c :: s) := by
  apply settled_cons h
  intro he
  rw [he] at hc
  exact absurd hc (by decide)

/-- An attribute whose value is read back in its quotes. -/
theorem parseAttribute_quoted (hn : isName encoding n = true) (hq : q = 34 ∨ q = 39)
    (hread : ReadText true (some s) false [q] encoding = .ok (v, some t)) :
    parseAttribute (some (n ++ 61 :: q :: s)) encoding error = .ok ⟨some t, ⟨n, v⟩, error⟩ := by
  have hskip := skip_settled (settled_name (s := q :: s) hn (by decide : inName 61 = false))
    (by simp)
  have hname := readName_name (s := q :: s) hn (by decide : inName 61 = false)
  have hequals : SkipWhiteSpace (some (61 :: q :: s)) encoding = some (61 :: q :: s) :=
    skip_settled (settled_ascii (by decide) (by decide)) (by simp)
  have hquote : SkipWhiteSpace (some (q :: s)) encoding = some (q :: s) := by
    rcases hq with rfl | rfl <;> exact skip_settled (settled_ascii (by decide) (by decide)) (by simp)
  have hne : n ++ 61 :: q :: s ≠ [] := by simp
  rw [parseAttribute, hskip]
  cases hp : n ++ 61 :: q :: s with
  | nil => exact absurd hp hne
  | cons d r =>
      rw [hp] at hname
      simp only [hname, hequals, hquote]
      rcases hq with rfl | rfl
      · simp only [parseValue, hread]
        rfl
      · simp only [parseValue, hread]
        rfl

/-- Attributes in front of the end of a tag, each behind white space. -/
inductive Attrs (encoding : TiXmlEncoding) : List TiXmlAttribute → Bytes → Prop
  | nil : Attrs encoding [] []
  | cons {a : TiXmlAttribute} {as : List TiXmlAttribute} {w b : Bytes} {q : UInt8} (hw : Blank w)
      (hne : w ≠ []) (hname : isName encoding a.name = true) (hvalue : isValue encoding a.value = true)
      (hq : q = 34 ∨ q = 39) (h : Attrs encoding as b) :
      Attrs encoding (a :: as) (w ++ (a.name ++ 61 :: q :: (EncodeString a.value ++ q :: b)))

theorem skip_tag_end (hw : Blank w) (hc : c = 47 ∨ c = 62) :
    SkipWhiteSpace (some (w ++ c :: s)) encoding = some (c :: s) := by
  rcases hc with rfl | rfl <;> exact skip_cons (by decide) (by decide) hw

/-- One attribute of a tag. -/
theorem parseTag_attribute {readValue : ValueReader} {name : Bytes} {fuel : Nat}
    {acc : List TiXmlAttribute} {a : TiXmlAttribute} (hw : Blank w) (hne : w ≠ [])
    (hname : isName encoding a.name = true) (hvalue : isValue encoding a.value = true)
    (hq : q = 34 ∨ q = 39) (hnew : ∀ b ∈ acc, b.name ≠ a.name) (ht : t ≠ []) :
    parseTag readValue encoding name (fuel + 1)
        (w ++ (a.name ++ 61 :: q :: (EncodeString a.value ++ q :: t))) acc error =
      parseTag readValue encoding name fuel t (acc ++ [a]) error := by
  simp only [isValue, Bool.and_eq_true, Bool.not_eq_true'] at hvalue
  have hread := readText_quoted true hq (whole_of_isWhole hvalue.1) hvalue.2 ht
  have hattr : parseAttribute (some (a.name ++ 61 :: q :: (EncodeString a.value ++ q :: t))) encoding
      error = .ok ⟨some t, ⟨a.name, a.value⟩, error⟩ :=
    parseAttribute_quoted hname hq hread
  have hskip := skip_blank hw (settled_name (s := q :: (EncodeString a.value ++ q :: t)) hname
    (by decide : inName 61 = false)) (by simp)
  have hfresh : acc.any (fun b => b.name = a.name) = false := by
    simpa using hnew
  obtain ⟨d, r, hd, hstart, _⟩ := exists_cons_of_isName hname
  have hslash : d ≠ 47 ∧ d ≠ 62 := by
    constructor <;> intro he <;> rw [he] at hstart <;> exact absurd hstart (by decide)
  rw [parseTag, if_neg (by simp [hne]), hskip]
  rw [hd, List.cons_append] at hattr ⊢
  simp only [hslash.1, hslash.2, if_false, hattr]
  cases t with
  | nil => exact absurd rfl ht
  | cons e t =>
      rw [← hd]
      simp only [bind, Except.bind, hfresh]
      rfl

/-- The attributes of a tag are read in order. -/
theorem parseTag_attrs {readValue : ValueReader} {name b : Bytes} {as : List TiXmlAttribute}
    (h : Attrs encoding as b) {fuel : Nat} {acc : List TiXmlAttribute}
    (hnodup : ((acc ++ as).map TiXmlAttribute.name).Nodup) (ht : t ≠ []) :
    parseTag readValue encoding name (fuel + as.length) (b ++ t) acc error =
      parseTag readValue encoding name fuel t (acc ++ as) error := by
  induction h generalizing acc with
  | nil => simp
  | @cons a as w b q hw hne hname hvalue hq _ ih =>
      have hnew : ∀ b ∈ acc, b.name ≠ a.name := by
        intro b hb he
        rw [List.map_append, List.nodup_append] at hnodup
        exact hnodup.2.2 b.name (List.mem_map_of_mem hb) a.name (by simp) he
      have hrest : parseTag readValue encoding name (fuel + as.length + 1)
          (w ++ (a.name ++ 61 :: q :: (EncodeString a.value ++ q :: (b ++ t)))) acc error =
          parseTag readValue encoding name (fuel + as.length) (b ++ t) (acc ++ [a]) error :=
        parseTag_attribute hw hne hname hvalue hq hnew (by simp [ht])
      have htail : parseTag readValue encoding name (fuel + as.length) (b ++ t) (acc ++ [a]) error =
          parseTag readValue encoding name fuel t (acc ++ [a] ++ as) error :=
        ih (by simpa using hnodup)
      simp only [List.append_assoc, List.cons_append, List.length_cons, List.nil_append]
        at hrest htail ⊢
      rw [← Nat.add_assoc, hrest, htail]

theorem parseTag_empty {readValue : ValueReader} {name : Bytes} {fuel : Nat}
    {as : List TiXmlAttribute} (hw : Blank w) :
    parseTag readValue encoding name fuel (w ++ 47 :: 62 :: t) as error =
      .ok ⟨some t, .element name as [], error⟩ := by
  rw [parseTag.eq_def, if_neg (by simp), skip_tag_end hw (.inl rfl)]
  rfl

theorem parseTag_open {readValue : ValueReader} {name : Bytes} {fuel : Nat}
    {as : List TiXmlAttribute} (hw : Blank w) :
    parseTag readValue encoding name fuel (w ++ 62 :: t) as error =
      parseEndTag readValue encoding name as t error := by
  rw [parseTag.eq_def, if_neg (by simp), skip_tag_end hw (.inr rfl)]
  rfl

/-- What follows the attributes of a tag ends its name. -/
theorem Attrs.ends_name {as : List TiXmlAttribute} {b : Bytes} (h : Attrs encoding as b)
    (hw : Blank w) (hc : c = 47 ∨ c = 62) :
    ∃ d r, b ++ (w ++ c :: t) = d :: r ∧ inName d = false := by
  have hspace : ∀ d, IsWhiteSpace d = true → inName d = false :=
    forall_byte (by decide +kernel)
  induction h with
  | nil =>
      cases w with
      | nil => exact ⟨c, t, rfl, by rcases hc with rfl | rfl <;> decide⟩
      | cons d w => exact ⟨d, w ++ c :: t, rfl, hspace d (hw d List.mem_cons_self)⟩
  | @cons a as w' b q hw' hne _ _ _ _ _ =>
      cases w' with
      | nil => exact absurd rfl hne
      | cons d w' => exact ⟨d, _, rfl, hspace d (hw' d List.mem_cons_self)⟩

/-- The parser of an element comes to its attributes. -/
theorem parseElement_tag {readValue : ValueReader} {d : UInt8} (hn : isName encoding n = true)
    (hd : inName d = false) :
    parseElement readValue encoding (some (60 :: (n ++ d :: s))) error =
      parseTag readValue encoding n (d :: s).length (d :: s) [] error := by
  have hskip : SkipWhiteSpace (some (60 :: (n ++ d :: s))) encoding = some (60 :: (n ++ d :: s)) :=
    skip_settled (settled_ascii (by decide) (by decide)) (by simp)
  have hname := skip_settled (settled_name (s := s) hn hd) (by simp)
  rw [parseElement, hskip]
  simp only [hname, readName_name hn hd]

/-! ## Comments and unknown tags -/

/-- A tag `xxy` does not begin before the end of a text without one. -/
theorem not_prefix_of_tag {x y : UInt8} (hxy : x ≠ y) (h : ¬ [x, x, y] <:+: c :: v) :
    ¬ [x, x, y] <+: c :: (v ++ x :: x :: y :: t) := by
  intro hp
  match v with
  | [] =>
      have hthird := congrArg (·[2]?) (List.prefix_iff_eq_take.mp hp)
      exact hxy (by simpa using hthird.symm)
  | [d] =>
      have hthird := congrArg (·[2]?) (List.prefix_iff_eq_take.mp hp)
      exact hxy (by simpa using hthird.symm)
  | d :: e :: v =>
      simp only [List.cons_append, List.cons_prefix_cons] at hp
      obtain ⟨rfl, rfl, rfl, _⟩ := hp
      exact h ⟨[], v, rfl⟩

theorem readUntil_tag {x y : UInt8} (hxy : x ≠ y) (h : ¬ [x, x, y] <:+: v) :
    readUntil [x, x, y] (v ++ x :: x :: y :: t) = (v, x :: x :: y :: t) := by
  induction v with
  | nil => rw [List.nil_append, readUntil, if_pos (by simp)]
  | cons c v ih =>
      have hnot := not_prefix_of_tag (t := t) hxy h
      rw [← List.isPrefixOf_iff_prefix] at hnot
      rw [List.cons_append, readUntil, if_neg hnot,
        ih fun hin => h (hin.trans (List.suffix_cons c v).isInfix)]

/-- The text of a comment that comes back. -/
def isComment (v : Bytes) : Bool :=
  !v.contains 0 && (search (ascii ['-', '-', '>']) v).isNone

theorem parseComment_text (h : isComment v = true) :
    parseComment (some (ascii ['<', '!', '-', '-'] ++ (v ++ (ascii ['-', '-', '>'] ++ t)))) encoding
      error = .ok ⟨some t, .comment v, error⟩ := by
  have hsearch : search (ascii ['-', '-', '>']) v = none := by
    simp only [isComment, Bool.and_eq_true, Option.isNone_iff_eq_none] at h
    exact h.2
  have hread := readUntil_tag (t := t) (by decide : (45 : UInt8) ≠ 62)
    (search_eq_none_iff.mp hsearch)
  have hskip : SkipWhiteSpace (some (60 :: 33 :: 45 :: 45 :: (v ++ 45 :: 45 :: 62 :: t))) encoding =
      some (60 :: 33 :: 45 :: 45 :: (v ++ 45 :: 45 :: 62 :: t)) :=
    skip_settled (settled_ascii (by decide) (by decide)) (by simp)
  have hstart : StringEqual (some (60 :: 33 :: 45 :: 45 :: (v ++ 45 :: 45 :: 62 :: t)))
      (ascii ['<', '!', '-', '-']) false = .ok true := by
    simp [ascii]
  change parseComment (some (60 :: 33 :: 45 :: 45 :: (v ++ 45 :: 45 :: 62 :: t))) encoding error = _
  unfold parseComment
  simp only [hskip, hstart, bind, Except.bind, if_true, Option.getD_some, List.drop_succ_cons,
    List.drop_zero]
  change Except.ok (Parsed.mk (some ((readUntil [45, 45, 62] _).2.drop 3))
    (TiXmlNode.comment (readUntil [45, 45, 62] _).1) error) = _
  rw [hread]
  rfl

/-- The text of an unknown tag that comes back: no other kind of node begins so, nor an end
tag. -/
def isUnknown (v : Bytes) : Bool :=
  !v.contains 0 && !v.contains 62 && !startsName (v.headD 0) && v.headD 0 ≠ 47 &&
    !(ascii ['?', 'x', 'm', 'l']).isPrefixOf (v.map tolower) &&
    !(ascii ['!', '-', '-']).isPrefixOf v &&
    !(ascii ['!', '[', 'C', 'D', 'A', 'T', 'A', '[']).isPrefixOf v

theorem parseUnknown_text (h : (62 : UInt8) ∉ v) :
    parseUnknown (some (60 :: (v ++ 62 :: t))) encoding error = ⟨some t, .unknown v, error⟩ := by
  have hskip : SkipWhiteSpace (some (60 :: (v ++ 62 :: t))) encoding = some (60 :: (v ++ 62 :: t)) :=
    skip_settled (settled_ascii (by decide) (by decide)) (by simp)
  have hall : ∀ b ∈ v, (decide (b ≠ 62)) = true := by
    intro b hb
    exact decide_eq_true fun he => h (he ▸ hb)
  have htake : (v ++ 62 :: t).takeWhile (· ≠ 62) = v := by
    rw [List.takeWhile_append_of_pos hall, List.takeWhile_cons_of_neg (by simp), List.append_nil]
  have hdrop : (v ++ 62 :: t).dropWhile (· ≠ 62) = 62 :: t := by
    rw [List.dropWhile_append_of_pos hall, List.dropWhile_cons_of_neg (by simp)]
  rw [parseUnknown, hskip]
  simp only [htake, hdrop, List.drop_succ_cons, List.drop_zero]

/-! ## CDATA -/

/-- The text of a CDATA section that comes back. -/
def isCdata (v : Bytes) : Bool :=
  !v.contains 0 && (search (ascii [']', ']', '>']) v).isNone

/-- `<![CDATA[` -/
abbrev cdataStart : Bytes := ascii ['<', '!', '[', 'C', 'D', 'A', 'T', 'A', '[']

theorem parseText_cdata {condense : Bool} (h : isCdata v = true) :
    parseText condense true (some (cdataStart ++ (v ++ (ascii [']', ']', '>'] ++ t)))) encoding
      error = .ok ⟨ifMore t, .text v true, error⟩ := by
  have hsearch : search (ascii [']', ']', '>']) v = none := by
    simp only [isCdata, Bool.and_eq_true, Option.isNone_iff_eq_none] at h
    exact h.2
  have hread : readUntil (ascii [']', ']', '>']) (v ++ 93 :: 93 :: 62 :: t) =
      (v, 93 :: 93 :: 62 :: t) :=
    readUntil_tag (by decide : (93 : UInt8) ≠ 62) (search_eq_none_iff.mp hsearch)
  have hclose : ReadText condense (some (93 :: 93 :: 62 :: t)) false (ascii [']', ']', '>'])
      encoding = .ok ([], ifMore t) := by
    have hstop : keepText (ascii [']', ']', '>']) encoding
        (bytesLeft (some (93 :: 93 :: 62 :: t))) (some (93 :: 93 :: 62 :: t)) [] =
        .ok ([], some (93 :: 93 :: 62 :: t)) :=
      keepText_stop (by simp [ascii])
    rw [ReadText]
    simp only [Bool.not_false, Bool.true_or, if_true]
    rw [hstop]
    simp [bind, Except.bind, behindTag, ascii]
  have hstart : StringEqual (some (cdataStart ++ (v ++ (ascii [']', ']', '>'] ++ t))))
      cdataStart false = .ok true := by
    change Except.ok (cdataStart.isPrefixOf (cdataStart ++ _)) = _
    rw [List.isPrefixOf_iff_prefix.mpr (List.prefix_append _ _)]
  have hdrop : (cdataStart ++ (v ++ (ascii [']', ']', '>'] ++ t))).drop 9 =
      v ++ 93 :: 93 :: 62 :: t := rfl
  unfold parseText
  simp only [Bool.true_or, hstart, bind, Except.bind, if_true, Option.getD_some, hdrop, hread,
    hclose]

/-! ## Declarations -/

/-- A value of a declaration, which is printed as it is. -/
def isRaw (encoding : TiXmlEncoding) (v : Bytes) : Bool :=
  isWhole encoding v && !v.contains 0 && !v.contains 34 && !v.contains 38

theorem keepText_raw (hv : Whole encoding v) (hquote : (34 : UInt8) ∉ v) (hamp : (38 : UInt8) ∉ v)
    {fuel : Nat} {acc : Bytes} (hfuel : v.length ≤ fuel) :
    keepText [34] encoding fuel (some (v ++ 34 :: t)) acc = .ok (acc ++ v, some (34 :: t)) := by
  induction hv generalizing fuel acc with
  | nil =>
      rw [List.nil_append, List.append_nil]
      exact keepText_stop (by simp)
  | @char c cs s hlen hcs hwhole ih =>
      have hstop : [34].isPrefixOf (c :: (cs ++ (s ++ 34 :: t))) = false := by
        have hc : (34 : UInt8) ≠ c := fun he => hquote (by simp [he])
        simp [List.isPrefixOf, hc]
      have hget := getChar_cons (s := s ++ 34 :: t) (fun he => hamp (by simp [he])) hlen
      have hquote' : (34 : UInt8) ∉ s := fun hin => hquote (List.mem_append_right _ hin)
      have hamp' : (38 : UInt8) ∉ s := fun hin => hamp (List.mem_append_right _ hin)
      simp only [List.cons_append, List.append_assoc, List.length_cons, List.length_append]
        at hfuel hget ⊢
      cases fuel with
      | zero => omega
      | succ fuel =>
          rw [keepText_char hstop hget, ih hquote' hamp' (by omega), List.append_assoc,
            List.cons_append]

/-- The attribute that spells a value of a declaration. -/
theorem parseAttribute_part (hn : isName encoding n = true) (hv : isRaw encoding v = true)
    (ht : t ≠ []) :
    parseAttribute (some (n ++ 61 :: 34 :: (v ++ 34 :: t))) encoding error =
      .ok ⟨some t, ⟨n, v⟩, error⟩ := by
  simp only [isRaw, Bool.and_eq_true, Bool.not_eq_true', List.contains_eq_mem,
    decide_eq_false_iff_not] at hv
  obtain ⟨⟨⟨hwhole, _⟩, hquote⟩, hamp⟩ := hv
  have hkeep : keepText [34] encoding (bytesLeft (some (v ++ 34 :: t))) (some (v ++ 34 :: t)) [] =
      .ok ([] ++ v, some (34 :: t)) :=
    keepText_raw (whole_of_isWhole hwhole) hquote hamp (by simp [bytesLeft])
  apply parseAttribute_quoted hn (.inl rfl)
  rw [ReadText]
  simp only [Bool.not_false, Bool.true_or, if_true]
  rw [hkeep]
  simp [bind, Except.bind, behindTag, ifMore, ht]

section Declaration

variable {fuel : Nat} {version enc standalone : Bytes}

theorem skip_part (hn : isName encoding n = true) :
    SkipWhiteSpace (some (32 :: (n ++ 61 :: s))) encoding = some (n ++ 61 :: s) :=
  skip_blank (w := [32]) (by intro b hb; rw [List.mem_singleton.mp hb]; decide)
    (settled_name hn (by decide)) (by simp)

theorem parseDeclaration_version (hv : isRaw encoding v = true) (ht : t ≠ []) :
    parseDeclarationLoop encoding (fuel + 1)
        (some (32 :: (ascii ['v', 'e', 'r', 's', 'i', 'o', 'n'] ++ 61 :: 34 :: (v ++ 34 :: t))))
        version enc standalone error =
      parseDeclarationLoop encoding fuel (some t) v enc standalone error := by
  have hn : isName encoding (ascii ['v', 'e', 'r', 's', 'i', 'o', 'n']) = true := by
    cases encoding <;> decide
  have hequal : StringEqual
      (some (ascii ['v', 'e', 'r', 's', 'i', 'o', 'n'] ++ 61 :: 34 :: (v ++ 34 :: t)))
      (ascii ['v', 'e', 'r', 's', 'i', 'o', 'n']) true = .ok true := rfl
  rw [parseDeclarationLoop.eq_def]
  simp only [(by decide : ((32 : UInt8) = 62) = False), if_false]
  rw [skip_part hn]
  simp only [hequal, parseAttribute_part hn hv ht, bind, Except.bind, if_true]

theorem parseDeclaration_encoding (hv : isRaw encoding v = true) (ht : t ≠ []) :
    parseDeclarationLoop encoding (fuel + 1)
        (some (32 :: (ascii ['e', 'n', 'c', 'o', 'd', 'i', 'n', 'g'] ++ 61 :: 34 :: (v ++ 34 :: t))))
        version enc standalone error =
      parseDeclarationLoop encoding fuel (some t) version v standalone error := by
  have hn : isName encoding (ascii ['e', 'n', 'c', 'o', 'd', 'i', 'n', 'g']) = true := by
    cases encoding <;> decide
  have hother : StringEqual
      (some (ascii ['e', 'n', 'c', 'o', 'd', 'i', 'n', 'g'] ++ 61 :: 34 :: (v ++ 34 :: t)))
      (ascii ['v', 'e', 'r', 's', 'i', 'o', 'n']) true = .ok false := rfl
  have hequal : StringEqual
      (some (ascii ['e', 'n', 'c', 'o', 'd', 'i', 'n', 'g'] ++ 61 :: 34 :: (v ++ 34 :: t)))
      (ascii ['e', 'n', 'c', 'o', 'd', 'i', 'n', 'g']) true = .ok true := rfl
  rw [parseDeclarationLoop.eq_def]
  simp only [(by decide : ((32 : UInt8) = 62) = False), if_false]
  rw [skip_part hn]
  simp only [hother, hequal, parseAttribute_part hn hv ht, bind, Except.bind, if_true,
    Bool.false_eq_true, if_false]

theorem parseDeclaration_standalone (hv : isRaw encoding v = true) (ht : t ≠ []) :
    parseDeclarationLoop encoding (fuel + 1)
        (some (32 :: (ascii ['s', 't', 'a', 'n', 'd', 'a', 'l', 'o', 'n', 'e'] ++
          61 :: 34 :: (v ++ 34 :: t)))) version enc standalone error =
      parseDeclarationLoop encoding fuel (some t) version enc v error := by
  have hn : isName encoding (ascii ['s', 't', 'a', 'n', 'd', 'a', 'l', 'o', 'n', 'e']) = true := by
    cases encoding <;> decide
  have hversion : StringEqual
      (some (ascii ['s', 't', 'a', 'n', 'd', 'a', 'l', 'o', 'n', 'e'] ++ 61 :: 34 :: (v ++ 34 :: t)))
      (ascii ['v', 'e', 'r', 's', 'i', 'o', 'n']) true = .ok false := rfl
  have hencoding : StringEqual
      (some (ascii ['s', 't', 'a', 'n', 'd', 'a', 'l', 'o', 'n', 'e'] ++ 61 :: 34 :: (v ++ 34 :: t)))
      (ascii ['e', 'n', 'c', 'o', 'd', 'i', 'n', 'g']) true = .ok false := rfl
  have hequal : StringEqual
      (some (ascii ['s', 't', 'a', 'n', 'd', 'a', 'l', 'o', 'n', 'e'] ++ 61 :: 34 :: (v ++ 34 :: t)))
      (ascii ['s', 't', 'a', 'n', 'd', 'a', 'l', 'o', 'n', 'e']) true = .ok true := rfl
  rw [parseDeclarationLoop.eq_def]
  simp only [(by decide : ((32 : UInt8) = 62) = False), if_false]
  rw [skip_part hn]
  simp only [hversion, hencoding, hequal, parseAttribute_part hn hv ht, bind, Except.bind, if_true,
    Bool.false_eq_true, if_false]

/-- The end of a declaration. -/
theorem parseDeclaration_end :
    parseDeclarationLoop encoding (fuel + 1) (some (32 :: 63 :: 62 :: t)) version enc standalone
      error = .ok ⟨some t, .declaration version enc standalone, error⟩ := by
  have hskip : SkipWhiteSpace (some (32 :: 63 :: 62 :: t)) encoding = some (63 :: 62 :: t) :=
    skip_blank (w := [32]) (by intro b hb; rw [List.mem_singleton.mp hb]; decide)
      (settled_ascii (by decide) (by decide)) (by simp)
  have hdrop : (63 :: 62 :: t).dropWhile (fun c => c ≠ 62 && !IsWhiteSpace c) = 62 :: t := by
    rw [List.dropWhile_cons_of_pos (by decide), List.dropWhile_cons_of_neg (by decide)]
  have hversion : StringEqual (some (63 :: 62 :: t)) (ascii ['v', 'e', 'r', 's', 'i', 'o', 'n']) true =
      .ok false := rfl
  have hencoding : StringEqual (some (63 :: 62 :: t))
      (ascii ['e', 'n', 'c', 'o', 'd', 'i', 'n', 'g']) true = .ok false := rfl
  have hstandalone : StringEqual (some (63 :: 62 :: t))
      (ascii ['s', 't', 'a', 'n', 'd', 'a', 'l', 'o', 'n', 'e']) true = .ok false := rfl
  rw [parseDeclarationLoop.eq_def]
  simp only [(by decide : ((32 : UInt8) = 62) = False), if_false]
  rw [hskip]
  simp only [hversion, hencoding, hstandalone, bind, Except.bind, Bool.false_eq_true, if_false,
    Option.getD_some, hdrop]
  rw [parseDeclarationLoop.eq_def]
  rfl

end Declaration

end TinyXml

end CommonCc
