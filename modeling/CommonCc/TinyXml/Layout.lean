import CommonCc.TinyXml.Print
import CommonCc.TinyXml.Tags

/-!
# Layouts of a document

What spells a node and its children, with any white space between them, and that the parser
reads every such layout.
-/

namespace CommonCc

namespace TinyXml

variable {encoding : TiXmlEncoding} {error : Option TiXmlError} {n s t v w : Bytes} {c : UInt8}

/-! ## What `Identify` makes of a node -/

theorem identify_at {p : Bytes} (hskip : SkipWhiteSpace (some (60 :: p)) encoding = some (60 :: p)) :
    Identify (some (60 :: p)) encoding =
      if ((ascii ['<', '?', 'x', 'm', 'l']).map tolower).isPrefixOf ((60 :: p).map tolower) then
        .ok (some .declaration)
      else if (ascii ['<', '!', '-', '-']).isPrefixOf (60 :: p) then .ok (some .comment)
      else if cdataStart.isPrefixOf (60 :: p) then .ok (some .cdata)
      else if (ascii ['<', '!']).isPrefixOf (60 :: p) then .ok (some .unknown)
      else if startsName (p.headD 0) then .ok (some .element)
      else .ok (some .unknown) := by
  unfold Identify
  simp only [hskip, stringEqual_ignoreCase, stringEqual_cons, bind, Except.bind,
    List.drop_succ_cons, List.drop_zero]

theorem skip_tag (p : Bytes) : SkipWhiteSpace (some (60 :: p)) encoding = some (60 :: p) :=
  skip_settled (settled_ascii (by decide) (by decide)) (by simp)

theorem startsName_facts : ∀ c, startsName c = true → tolower c ≠ 63 ∧ c ≠ 33 ∧ c ≠ 47 :=
  forall_byte (by decide +kernel)

theorem identify_element (hn : isName encoding n = true) :
    Identify (some (60 :: (n ++ s))) encoding = .ok (some .element) := by
  obtain ⟨c, r, rfl, hc, _⟩ := exists_cons_of_isName hn
  obtain ⟨hquestion, hbang, _⟩ := startsName_facts c hc
  rw [identify_at (skip_tag _)]
  have hlower : ¬ (tolower 63 = tolower c) := fun he => hquestion he.symm
  simp [ascii, List.isPrefixOf, hlower, hbang.symm, hc]

theorem identify_comment : Identify (some (ascii ['<', '!', '-', '-'] ++ s)) encoding =
    .ok (some .comment) := by
  change Identify (some (60 :: 33 :: 45 :: 45 :: s)) encoding = _
  rw [identify_at (skip_tag _)]
  rfl

theorem identify_cdata : Identify (some (cdataStart ++ s)) encoding = .ok (some .cdata) := by
  change Identify (some (60 :: 33 :: 91 :: 67 :: 68 :: 65 :: 84 :: 65 :: 91 :: s)) encoding = _
  rw [identify_at (skip_tag _)]
  rfl

theorem identify_declaration : Identify (some (ascii ['<', '?', 'x', 'm', 'l'] ++ s)) encoding =
    .ok (some .declaration) := by
  change Identify (some (60 :: 63 :: 120 :: 109 :: 108 :: s)) encoding = _
  rw [identify_at (skip_tag _)]
  rfl

/-- A prefix without a byte ends in front of it. -/
theorem prefix_of_not_mem {pat : Bytes} (hc : c ∉ pat) (h : pat <+: v ++ c :: t) : pat <+: v := by
  induction v generalizing pat with
  | nil =>
      cases pat with
      | nil => exact List.nil_prefix
      | cons d pat =>
          rw [List.nil_append, List.cons_prefix_cons] at h
          exact absurd (h.1 ▸ List.mem_cons_self) hc
  | cons d v ih =>
      cases pat with
      | nil => exact List.nil_prefix
      | cons e pat =>
          rw [List.cons_append, List.cons_prefix_cons] at h
          rw [List.cons_prefix_cons]
          exact ⟨h.1, ih (fun hin => hc (List.mem_cons_of_mem e hin)) h.2⟩

theorem identify_unknown (h : isUnknown v = true) :
    Identify (some (60 :: (v ++ 62 :: t))) encoding = .ok (some .unknown) := by
  simp only [isUnknown, Bool.and_eq_true, Bool.not_eq_true'] at h
  obtain ⟨⟨⟨⟨⟨_, hname⟩, _⟩, hxml⟩, hcomment⟩, hcdata⟩ := h
  have hno : ∀ pat : Bytes, (62 : UInt8) ∉ pat → pat.isPrefixOf v = false →
      pat.isPrefixOf (v ++ 62 :: t) = false := by
    intro pat hpat hv
    rw [← Bool.not_eq_true, List.isPrefixOf_iff_prefix] at hv ⊢
    exact fun hp => hv (prefix_of_not_mem hpat hp)
  have hxml' : (ascii ['?', 'x', 'm', 'l']).isPrefixOf ((v ++ 62 :: t).map tolower) = false := by
    rw [← Bool.not_eq_true, List.isPrefixOf_iff_prefix] at hxml ⊢
    rw [List.map_append, List.map_cons]
    exact fun hp => hxml (prefix_of_not_mem (by decide) hp)
  have hcomment' := hno _ (by decide) hcomment
  have hcdata' := hno _ (by decide) hcdata
  have hhead : startsName ((v ++ 62 :: t).headD 0) = false := by
    cases v with
    | nil => rfl
    | cons c v => exact hname
  rw [identify_at (skip_tag _)]
  have h1 : ((ascii ['<', '?', 'x', 'm', 'l']).map tolower).isPrefixOf
      ((60 :: (v ++ 62 :: t)).map tolower) = false := hxml'
  have h2 : (ascii ['<', '!', '-', '-']).isPrefixOf (60 :: (v ++ 62 :: t)) = false := hcomment'
  have h3 : cdataStart.isPrefixOf (60 :: (v ++ 62 :: t)) = false := hcdata'
  simp only [h1, h2, h3, hhead, Bool.false_eq_true, if_false]
  split <;> rfl

/-! ## Layouts -/

/-- A text outside a CDATA section. -/
def isPlain : TiXmlNode → Bool
  | .text _ false => true
  | _ => false

def startsPlain : List TiXmlNode → Bool
  | [] => false
  | node :: _ => isPlain node

/-- What a layout spells: a node, or the children of an element with the white space around
them. -/
inductive Part where
  | node (node : TiXmlNode)
  | content (nodes : List TiXmlNode)

/-- The layouts of a document.  No text follows a text. -/
inductive Renders (encoding : TiXmlEncoding) : Part → Bytes → Prop
  | text {v : Bytes} (h : isText encoding v = true) :
      Renders encoding (.node (.text v false)) (EncodeString v)
  | cdata {v : Bytes} (h : isCdata v = true) :
      Renders encoding (.node (.text v true)) (cdataStart ++ (v ++ ascii [']', ']', '>']))
  | comment {v : Bytes} (h : isComment v = true) :
      Renders encoding (.node (.comment v))
        (ascii ['<', '!', '-', '-'] ++ (v ++ ascii ['-', '-', '>']))
  | unknown {v : Bytes} (h : isUnknown v = true) :
      Renders encoding (.node (.unknown v)) (60 :: (v ++ [62]))
  | declaration {version enc standalone : Bytes} (hversion : isRaw encoding version = true)
      (hencoding : isRaw encoding enc = true) (hstandalone : isRaw encoding standalone = true) :
      Renders encoding (.node (.declaration version enc standalone))
        (printDeclaration id version enc standalone)
  | empty {n b w : Bytes} {as : List TiXmlAttribute} (hn : isName encoding n = true)
      (hnodup : (as.map TiXmlAttribute.name).Nodup) (has : Attrs encoding as b) (hw : Blank w) :
      Renders encoding (.node (.element n as [])) (60 :: (n ++ (b ++ (w ++ [47, 62]))))
  | element {n b w body w' : Bytes} {as : List TiXmlAttribute} {children : List TiXmlNode}
      (hn : isName encoding n = true) (hnodup : (as.map TiXmlAttribute.name).Nodup)
      (has : Attrs encoding as b) (hw : Blank w) (hbody : Renders encoding (.content children) body)
      (hw' : Blank w') :
      Renders encoding (.node (.element n as children))
        (60 :: (n ++ (b ++ (w ++ 62 :: (body ++ 60 :: 47 :: (n ++ (w' ++ [62])))))))
  | done {w : Bytes} (hw : Blank w) : Renders encoding (.content []) w
  | cons {w b r : Bytes} {node : TiXmlNode} {nodes : List TiXmlNode} (hw : Blank w)
      (hnode : Renders encoding (.node node) b)
      (hapart : isPlain node = true → startsPlain nodes = false)
      (hrest : Renders encoding (.content nodes) r) :
      Renders encoding (.content (node :: nodes)) (w ++ (b ++ r))

/-! ## Reading a layout -/

/-- A node other than a text is read from its layout.  A CDATA section at the end of the text
leaves the null pointer. -/
def ReadsNode (encoding : TiXmlEncoding) (b : Bytes) (node : TiXmlNode) : Prop :=
  ∀ t fuel error, b.length ≤ fuel →
    (∃ r, b ++ t = 60 :: r ∧ r.headD 0 ≠ 47) ∧
    ∃ type next, Identify (some (b ++ t)) encoding = .ok (some type) ∧
      parseNode true (ReadValue true encoding fuel) encoding type (some (b ++ t)) error =
        .ok ⟨next, node, error⟩ ∧ (next = some t ∨ t = [] ∧ next = none)

/-- Children are read from their layout up to the end tag behind them. -/
structure ReadsContent (encoding : TiXmlEncoding) (b : Bytes) (nodes : List TiXmlNode) : Prop where
  tag : startsPlain nodes = false → ∀ t, ∃ w r, Blank w ∧ b ++ 60 :: 47 :: t = w ++ 60 :: r ∧ r ≠ []
  value : ∀ t fuel children error, b.length + 1 ≤ fuel →
    ReadValue true encoding fuel (some (b ++ 60 :: 47 :: t)) children error =
      .ok ⟨some (60 :: 47 :: t), children ++ nodes, error⟩

def Part.Reads (encoding : TiXmlEncoding) (b : Bytes) : Part → Prop
  | .node (.text v false) => TextFacts encoding v
  | .node other => ReadsNode encoding b other
  | .content nodes => ReadsContent encoding b nodes

theorem Attrs.length_le {as : List TiXmlAttribute} {b : Bytes} (h : Attrs encoding as b) :
    as.length ≤ b.length := by
  induction h with
  | nil => exact Nat.le_refl 0
  | cons _ _ _ _ _ _ ih =>
      simp only [List.length_cons, List.length_append]
      omega

/-- The parser of an element comes to the end of its tag. -/
theorem parseElement_attrs (readValue : ValueReader) (error : Option TiXmlError) (t : Bytes)
    {b : Bytes} {as : List TiXmlAttribute} (hn : isName encoding n = true) (hnodup : (as.map TiXmlAttribute.name).Nodup)
    (has : Attrs encoding as b) (hw : Blank w) (hc : c = 47 ∨ c = 62) :
    ∃ fuel, parseElement readValue encoding (some (60 :: (n ++ (b ++ (w ++ c :: t))))) error =
      parseTag readValue encoding n fuel (w ++ c :: t) as error := by
  obtain ⟨d, r, hd, hdn⟩ := has.ends_name (t := t) hw hc
  have hlen := has.length_le
  have hattrs : parseTag readValue encoding n ((d :: r).length - as.length + as.length)
      (b ++ (w ++ c :: t)) [] error =
      parseTag readValue encoding n ((d :: r).length - as.length) (w ++ c :: t) ([] ++ as) error :=
    parseTag_attrs has hnodup (by simp)
  have hle : as.length ≤ (d :: r).length := by
    rw [← hd, List.length_append]
    omega
  rw [Nat.sub_add_cancel hle, hd, List.nil_append] at hattrs
  rw [hd, parseElement_tag hn hdn, hattrs]
  exact ⟨_, rfl⟩

theorem parseEndTag_read {readValue : ValueReader} {as : List TiXmlAttribute}
    {children : List TiXmlNode} {p : Bytes} (hw : Blank w)
    (hread : readValue (some p) [] error =
      .ok ⟨some (60 :: 47 :: (n ++ (w ++ 62 :: t))), children, error⟩) :
    parseEndTag readValue encoding n as p error = .ok ⟨some t, .element n as children, error⟩ := by
  have hequal : StringEqual (some (60 :: 47 :: (n ++ (w ++ 62 :: t)))) (ascii ['<', '/'] ++ n) false =
      .ok true := by
    have hp : ascii ['<', '/'] ++ n <+: 60 :: 47 :: (n ++ (w ++ 62 :: t)) :=
      ⟨w ++ 62 :: t, by simp [ascii]⟩
    rw [stringEqual_cons, List.isPrefixOf_iff_prefix.mpr hp]
  have hdrop : (60 :: 47 :: (n ++ (w ++ 62 :: t))).drop (ascii ['<', '/'] ++ n).length =
      w ++ 62 :: t := by
    simp [ascii]
  unfold parseEndTag
  simp only [hread, hequal, bind, Except.bind, if_true, hdrop, skip_tag_end hw (.inr rfl)]

theorem readsNode_empty {b : Bytes} {as : List TiXmlAttribute} (hn : isName encoding n = true)
    (hnodup : (as.map TiXmlAttribute.name).Nodup) (has : Attrs encoding as b) (hw : Blank w) :
    ReadsNode encoding (60 :: (n ++ (b ++ (w ++ [47, 62])))) (.element n as []) := by
  intro t fuel error hfuel
  obtain ⟨d, r, hd, hstart, _⟩ := exists_cons_of_isName hn
  obtain ⟨f, hparse⟩ := parseElement_attrs (ReadValue true encoding fuel) error (62 :: t) hn hnodup
    has hw (.inl (rfl : (47 : UInt8) = 47))
  simp only [List.cons_append, List.append_assoc, List.nil_append]
  constructor
  · exact ⟨_, rfl, by rw [hd]; exact (startsName_facts d hstart).2.2⟩
  · refine ⟨.element, some t, identify_element hn, ?_, .inl rfl⟩
    rw [parseNode, hparse, parseTag_empty hw]

theorem readsNode_element {b body w' : Bytes} {as : List TiXmlAttribute}
    {children : List TiXmlNode} (hn : isName encoding n = true)
    (hnodup : (as.map TiXmlAttribute.name).Nodup) (has : Attrs encoding as b) (hw : Blank w)
    (hbody : ReadsContent encoding body children) (hw' : Blank w') :
    ReadsNode encoding (60 :: (n ++ (b ++ (w ++ 62 :: (body ++ 60 :: 47 :: (n ++ (w' ++ [62])))))))
      (.element n as children) := by
  intro t fuel error hfuel
  obtain ⟨d, r, hd, hstart, _⟩ := exists_cons_of_isName hn
  obtain ⟨f, hparse⟩ := parseElement_attrs (ReadValue true encoding fuel) error
    (body ++ 60 :: 47 :: (n ++ (w' ++ 62 :: t))) hn hnodup has hw (.inr (rfl : (62 : UInt8) = 62))
  have hread := hbody.value (n ++ (w' ++ 62 :: t)) fuel [] error (by
    simp only [List.length_cons, List.length_append] at hfuel
    omega)
  simp only [List.cons_append, List.append_assoc, List.nil_append] at hread ⊢
  constructor
  · exact ⟨_, rfl, by rw [hd]; exact (startsName_facts d hstart).2.2⟩
  · refine ⟨.element, some t, identify_element hn, ?_, .inl rfl⟩
    rw [parseNode, hparse, parseTag_open hw]
    exact parseEndTag_read hw' hread

theorem readsNode_comment (h : isComment v = true) :
    ReadsNode encoding (ascii ['<', '!', '-', '-'] ++ (v ++ ascii ['-', '-', '>'])) (.comment v) := by
  intro t fuel error hfuel
  simp only [List.append_assoc]
  constructor
  · exact ⟨_, rfl, (by decide : (33 : UInt8) ≠ 47)⟩
  · exact ⟨.comment, some t, identify_comment, parseComment_text h, .inl rfl⟩

theorem readsNode_cdata (h : isCdata v = true) :
    ReadsNode encoding (cdataStart ++ (v ++ ascii [']', ']', '>'])) (.text v true) := by
  intro t fuel error hfuel
  simp only [List.append_assoc]
  constructor
  · exact ⟨_, rfl, (by decide : (33 : UInt8) ≠ 47)⟩
  · refine ⟨.cdata, ifMore t, identify_cdata, parseText_cdata h, ?_⟩
    by_cases ht : t = []
    · exact .inr ⟨ht, by simp [ifMore, ht]⟩
    · exact .inl (by simp [ifMore, ht])

theorem readsNode_unknown (h : isUnknown v = true) :
    ReadsNode encoding (60 :: (v ++ [62])) (.unknown v) := by
  intro t fuel error hfuel
  have hfacts := h
  simp only [isUnknown, Bool.and_eq_true, Bool.not_eq_true', List.contains_eq_mem,
    decide_eq_false_iff_not, decide_eq_true_eq] at hfacts
  obtain ⟨⟨⟨⟨⟨⟨_, hclose⟩, _⟩, hslash⟩, _⟩, _⟩, _⟩ := hfacts
  simp only [List.append_assoc, List.cons_append, List.nil_append]
  constructor
  · refine ⟨_, rfl, ?_⟩
    cases v with
    | nil => simp
    | cons c v => exact hslash
  · refine ⟨.unknown, some t, identify_unknown h, ?_, .inl rfl⟩
    rw [parseNode, parseUnknown_text hclose]

/-! ## Declarations -/

section Declaration

variable {version enc standalone : Bytes}

/-- A value that is not printed is not read either. -/
theorem printPart_cases (n v : Bytes) : v = [] ∧ printPart id n v = [] ∨
    printPart id n v ++ s = n ++ 61 :: 34 :: (v ++ 34 :: 32 :: s) := by
  by_cases hv : v = []
  · left
    simp [printPart, hv]
  · right
    simp [printPart, hv]

/-- The loop over a declaration that was printed. -/
theorem parseDeclarationLoop_printed (fuel : Nat) (t : Bytes) (error : Option TiXmlError)
    (hversion : isRaw encoding version = true)
    (hencoding : isRaw encoding enc = true) (hstandalone : isRaw encoding standalone = true) :
    parseDeclarationLoop encoding (fuel + 4)
      (some (32 :: (printPart id (ascii ['v', 'e', 'r', 's', 'i', 'o', 'n']) version ++
        (printPart id (ascii ['e', 'n', 'c', 'o', 'd', 'i', 'n', 'g']) enc ++
          (printPart id (ascii ['s', 't', 'a', 'n', 'd', 'a', 'l', 'o', 'n', 'e']) standalone ++
            63 :: 62 :: t))))) [] [] [] error =
      .ok ⟨some t, .declaration version enc standalone, error⟩ := by
  have hlast : ∀ f a b, parseDeclarationLoop encoding (f + 2)
      (some (32 :: (printPart id (ascii ['s', 't', 'a', 'n', 'd', 'a', 'l', 'o', 'n', 'e']) standalone ++
        63 :: 62 :: t))) a b [] error = .ok ⟨some t, .declaration a b standalone, error⟩ := by
    intro f a b
    rcases printPart_cases (s := 63 :: 62 :: t)
      (ascii ['s', 't', 'a', 'n', 'd', 'a', 'l', 'o', 'n', 'e']) standalone with ⟨rfl, hp⟩ | hp
    · rw [hp]
      exact parseDeclaration_end
    · rw [hp, parseDeclaration_standalone hstandalone (by simp), parseDeclaration_end]
  have hmiddle : ∀ f a, parseDeclarationLoop encoding (f + 3)
      (some (32 :: (printPart id (ascii ['e', 'n', 'c', 'o', 'd', 'i', 'n', 'g']) enc ++
        (printPart id (ascii ['s', 't', 'a', 'n', 'd', 'a', 'l', 'o', 'n', 'e']) standalone ++
          63 :: 62 :: t)))) a [] [] error = .ok ⟨some t, .declaration a enc standalone, error⟩ := by
    intro f a
    rcases printPart_cases
      (s := printPart id (ascii ['s', 't', 'a', 'n', 'd', 'a', 'l', 'o', 'n', 'e']) standalone ++
        63 :: 62 :: t) (ascii ['e', 'n', 'c', 'o', 'd', 'i', 'n', 'g']) enc with ⟨rfl, hp⟩ | hp
    · rw [hp]
      exact hlast (f + 1) a []
    · rw [hp, parseDeclaration_encoding hencoding (by simp)]
      exact hlast f a enc
  rcases printPart_cases
    (s := printPart id (ascii ['e', 'n', 'c', 'o', 'd', 'i', 'n', 'g']) enc ++
      (printPart id (ascii ['s', 't', 'a', 'n', 'd', 'a', 'l', 'o', 'n', 'e']) standalone ++
        63 :: 62 :: t)) (ascii ['v', 'e', 'r', 's', 'i', 'o', 'n']) version with ⟨rfl, hp⟩ | hp
  · rw [hp]
    exact hmiddle (fuel + 1) []
  · rw [hp, parseDeclaration_version hversion (by simp)]
    exact hmiddle fuel version

theorem readsNode_declaration (hversion : isRaw encoding version = true)
    (hencoding : isRaw encoding enc = true) (hstandalone : isRaw encoding standalone = true) :
    ReadsNode encoding (printDeclaration id version enc standalone)
      (.declaration version enc standalone) := by
  intro t fuel error hfuel
  have hprint : printDeclaration id version enc standalone ++ t =
      ascii ['<', '?', 'x', 'm', 'l'] ++ 32 ::
        (printPart id (ascii ['v', 'e', 'r', 's', 'i', 'o', 'n']) version ++
        (printPart id (ascii ['e', 'n', 'c', 'o', 'd', 'i', 'n', 'g']) enc ++
          (printPart id (ascii ['s', 't', 'a', 'n', 'd', 'a', 'l', 'o', 'n', 'e']) standalone ++
            63 :: 62 :: t))) := by
    simp [printDeclaration, ascii]
  generalize hparts : 32 :: (printPart id (ascii ['v', 'e', 'r', 's', 'i', 'o', 'n']) version ++
    (printPart id (ascii ['e', 'n', 'c', 'o', 'd', 'i', 'n', 'g']) enc ++
      (printPart id (ascii ['s', 't', 'a', 'n', 'd', 'a', 'l', 'o', 'n', 'e']) standalone ++
        63 :: 62 :: t))) = parts at hprint
  have hloop := parseDeclarationLoop_printed
    ((ascii ['<', '?', 'x', 'm', 'l'] ++ parts).length - 4) t error hversion hencoding hstandalone
  have hlen : (ascii ['<', '?', 'x', 'm', 'l'] ++ parts).length - 4 + 4 =
      (ascii ['<', '?', 'x', 'm', 'l'] ++ parts).length := by
    simp [ascii]
  have hskip : SkipWhiteSpace (some (ascii ['<', '?', 'x', 'm', 'l'] ++ parts)) encoding =
      some (ascii ['<', '?', 'x', 'm', 'l'] ++ parts) :=
    skip_tag _
  have hequal : StringEqual (some (ascii ['<', '?', 'x', 'm', 'l'] ++ parts))
      (ascii ['<', '?', 'x', 'm', 'l']) true = .ok true := rfl
  rw [hparts, hlen] at hloop
  rw [hprint]
  constructor
  · exact ⟨_, rfl, (by decide : (63 : UInt8) ≠ 47)⟩
  · refine ⟨.declaration, some t, identify_declaration, ?_, .inl rfl⟩
    rw [parseNode, parseDeclaration, hskip]
    change (do
      if ← StringEqual (some (ascii ['<', '?', 'x', 'm', 'l'] ++ parts))
          (ascii ['<', '?', 'x', 'm', 'l']) true then
        parseDeclarationLoop encoding (ascii ['<', '?', 'x', 'm', 'l'] ++ parts).length
          (some parts) [] [] [] error
      else .ok ⟨none, .declaration [] [] [], SetError .parsingDeclaration error⟩) = _
    simp only [hequal, bind, Except.bind, if_true, hloop]

end Declaration

/-! ## Children -/

/-- `ReadValue` skips white space first. -/
theorem readValue_blank {fuel : Nat} {children : List TiXmlNode} (hw : Blank w)
    (hs : Settled encoding s) (hne : s ≠ []) :
    ReadValue true encoding fuel (some (w ++ s)) children error =
      ReadValue true encoding fuel (some s) children error := by
  have hblank := skip_blank hw hs (by simp [hne])
  rw [ReadValue.eq_def, ReadValue.eq_def true encoding fuel (some s), hblank, skip_settled hs hne]
  cases fuel with
  | zero => rfl
  | succ fuel => simp only [if_true]

theorem settled_tag (p : Bytes) : Settled encoding (60 :: p) :=
  settled_ascii (by decide) (by decide)

theorem readsContent_done (hw : Blank w) : ReadsContent encoding w [] := by
  constructor
  · exact fun _ t => ⟨w, 47 :: t, hw, rfl, by simp⟩
  · intro t fuel children error hfuel
    rw [readValue_blank hw (settled_tag _) (by simp)]
    cases fuel with
    | zero => omega
    | succ fuel =>
        rw [ReadValue.eq_def, skip_tag, List.append_nil]
        rfl

/-- A text in front of other children. -/
theorem readsContent_text {r : Bytes} {nodes : List TiXmlNode} (hw : Blank w)
    (hv : TextFacts encoding v) (hapart : startsPlain nodes = false)
    (hrest : ReadsContent encoding r nodes) :
    ReadsContent encoding (w ++ (EncodeString v ++ r)) (.text v false :: nodes) := by
  constructor
  · exact fun h => absurd h (by simp [startsPlain, isPlain])
  · intro t fuel children error hfuel
    obtain ⟨w', r', hw', hr, hne⟩ := hrest.tag hapart t
    have hread := readText_text (t := r') hv hw' hne
    have hsettled := settled_encoded (t := r ++ 60 :: 47 :: t) hv
    have hskip := skip_settled hsettled (by simp)
    obtain ⟨c, s, hp, hc⟩ := encodeString_head hv
    rw [← hr] at hread
    simp only [List.append_assoc] at hread hskip ⊢
    rw [readValue_blank hw hsettled (by simp)]
    rw [hp] at hskip hread hfuel ⊢
    rw [List.cons_append] at hskip hread ⊢
    cases fuel with
    | zero => omega
    | succ fuel =>
        have hstart : StringEqual (some (c :: (s ++ (r ++ 60 :: 47 :: t)))) cdataStart false =
            .ok false := by
          simp [ascii, List.isPrefixOf, hc.symm]
        have htext : parseText true false (some (c :: (s ++ (r ++ 60 :: 47 :: t)))) encoding error =
            .ok ⟨some (60 :: r'), .text v false, error⟩ := by
          unfold parseText
          simp only [Bool.false_or, hstart, bind, Except.bind, Bool.false_eq_true, if_false, hread]
        have hblank : blankText (.text v false) = false := hv.notBlank
        have hlast := hrest.value t fuel (children ++ [.text v false]) error (by
          simp only [List.length_append, List.length_cons] at hfuel
          omega)
        rw [hr, readValue_blank hw' (settled_tag _) (by simp)] at hlast
        rw [ReadValue.eq_def, hskip]
        simp only [hc, ne_eq, not_false_eq_true, if_true, htext, hblank, bind, Except.bind,
          Bool.false_eq_true, if_false, hlast, List.append_assoc, List.singleton_append]

/-- A node other than a text in front of other children. -/
theorem readsContent_node {b r : Bytes} {node : TiXmlNode} {nodes : List TiXmlNode}
    (hw : Blank w) (hnode : ReadsNode encoding b node) (hne : b ≠ [])
    (hrest : ReadsContent encoding r nodes) :
    ReadsContent encoding (w ++ (b ++ r)) (node :: nodes) := by
  have hpos := List.length_pos_of_ne_nil hne
  constructor
  · intro _ t
    obtain ⟨⟨s, hs, _⟩, _⟩ := hnode (r ++ 60 :: 47 :: t) b.length none (Nat.le_refl _)
    cases b with
    | nil => exact absurd rfl hne
    | cons c b =>
        injection hs with hc hs
        subst hc
        exact ⟨w, b ++ (r ++ 60 :: 47 :: t), hw, by simp, by simp⟩
  · intro t fuel children error hfuel
    simp only [List.length_append] at hfuel
    cases fuel with
    | zero => omega
    | succ fuel =>
        obtain ⟨⟨s, hs, hslash⟩, type, next, hidentify, hparse, hnext⟩ :=
          hnode (r ++ 60 :: 47 :: t) fuel error (by omega)
        obtain rfl : next = some (r ++ 60 :: 47 :: t) := hnext.resolve_right (by simp)
        have hlast := hrest.value t fuel (children ++ [node]) error (by omega)
        have hend : StringEqual (some (60 :: s)) (ascii ['<', '/']) false = .ok false := by
          cases s with
          | nil => rfl
          | cons c s =>
              have hc : ¬ ((47 : UInt8) = c) := fun he => hslash he.symm
              simp [ascii, List.isPrefixOf, hc]
        simp only [List.append_assoc]
        rw [hs] at hidentify hparse ⊢
        rw [readValue_blank hw (settled_tag _) (by simp), ReadValue.eq_def, skip_tag]
        simp only [ne_eq, not_true_eq_false, if_false, hend, hidentify, hparse, bind, Except.bind,
          Bool.false_eq_true, hlast, List.append_assoc, List.singleton_append]

/-- Every layout is read as what it spells. -/
theorem Renders.reads {part : Part} {b : Bytes} (h : Renders encoding part b) :
    part.Reads encoding b := by
  induction h with
  | text h => exact textFacts h
  | cdata h => exact readsNode_cdata h
  | comment h => exact readsNode_comment h
  | unknown h => exact readsNode_unknown h
  | declaration hversion hencoding hstandalone =>
      exact readsNode_declaration hversion hencoding hstandalone
  | empty hn hnodup has hw => exact readsNode_empty hn hnodup has hw
  | element hn hnodup has hw _ hw' ih => exact readsNode_element hn hnodup has hw ih hw'
  | done hw => exact readsContent_done hw
  | @cons w b r node nodes hw hnode hapart _ ihnode ihrest =>
      cases hnode with
      | text h => exact readsContent_text hw ihnode (hapart rfl) ihrest
      | cdata h => exact readsContent_node hw ihnode (by simp [ascii]) ihrest
      | comment h => exact readsContent_node hw ihnode (by simp [ascii]) ihrest
      | unknown h => exact readsContent_node hw ihnode (by simp) ihrest
      | declaration _ _ _ =>
          exact readsContent_node hw ihnode (by simp [printDeclaration, ascii]) ihrest
      | empty _ _ _ _ => exact readsContent_node hw ihnode (by simp) ihrest
      | element _ _ _ _ _ _ => exact readsContent_node hw ihnode (by simp) ihrest

end TinyXml

end CommonCc
