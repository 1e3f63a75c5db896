import CommonCc.Lib.Transition
import CommonCc.TinyXml.Safety
import Mathlib.Data.List.Chain

/-!
# What the parser accepts

A document without an error has well-formed nodes: names are names, no element has two
attributes of one name, and two texts never stand side by side.
-/

namespace CommonCc

namespace TinyXml

variable {encoding : TiXmlEncoding} {p q : Bytes} {c : UInt8} {α β : Type}
  {error : Option TiXmlError}

/-- A name as `ReadName` reads it. -/
def isReadName (n : Bytes) : Bool := startsName (n.headD 0) && n.all inName

/-- A text that is no CDATA section. -/
def isPlainText : TiXmlNode → Bool
  | .text _ cdata => !cdata
  | _ => false

/-- No two texts stand side by side. -/
abbrev Separate (nodes : List TiXmlNode) : Prop :=
  nodes.IsChain fun a b => ¬ (isPlainText a = true ∧ isPlainText b = true)

inductive WellFormed : TiXmlNode → Prop where
  | element {name : Bytes} {attributeSet : List TiXmlAttribute} {children : List TiXmlNode}
      (hname : isReadName name = true) (hattrs : ∀ a ∈ attributeSet, isReadName a.name = true)
      (hdistinct : (attributeSet.map TiXmlAttribute.name).Nodup)
      (hchildren : ∀ n ∈ children, WellFormed n) (hseparate : Separate children) :
      WellFormed (.element name attributeSet children)
  | comment {value : Bytes} (h : search (ascii ['-', '-', '>']) value = none) :
      WellFormed (.comment value)
  | unknown {value : Bytes} (h : (62 : UInt8) ∉ value) : WellFormed (.unknown value)
  | text {value : Bytes} (h : value.all IsWhiteSpace = false) : WellFormed (.text value false)
  | cdata {value : Bytes} (h : search (ascii [']', ']', '>']) value = none) :
      WellFormed (.text value true)
  | declaration {version enc standalone : Bytes} : WellFormed (.declaration version enc standalone)

/-! ## Parsers that set no error -/

/-- What is read without an error is of a kind, and there was no error before. -/
def Sound (P : α → Option Bytes → Prop) (error : Option TiXmlError) :
    Except Fault (Parsed α) → Prop
  | .ok r => r.error = none → error = none ∧ P r.value r.next
  | .error _ => True

theorem setError_ne_none {err : TiXmlError} : SetError err error ≠ none := by
  cases error <;> simp [SetError]

theorem sound_setError {P : α → Option Bytes → Prop} {first : Option TiXmlError} {err : TiXmlError}
    {next : Option Bytes} {value : α} : Sound P first (.ok ⟨next, value, SetError err error⟩) :=
  fun h => absurd h setError_ne_none

theorem sound_ok {P : α → Option Bytes → Prop} {next : Option Bytes} {value : α}
    (h : error = none → P value next) : Sound P error (.ok ⟨next, value, error⟩) :=
  fun he => ⟨he, h he⟩

theorem Sound.bind {P : α → Option Bytes → Prop} {Q : β → Option Bytes → Prop}
    {x : Except Fault (Parsed α)} {f : Parsed α → Except Fault (Parsed β)} (h : Sound P error x)
    (hf : ∀ r, (r.error = none → error = none ∧ P r.value r.next) → Sound Q r.error (f r)) :
    Sound Q error (x >>= f) := by
  cases x with
  | error fault => trivial
  | ok r =>
      have hr := hf r h
      change Sound Q error (f r)
      revert hr
      cases f r with
      | error fault => exact fun _ => trivial
      | ok s =>
          intro hs he
          exact ⟨(h (hs he).1).1, (hs he).2⟩

/-- Behind what does not touch the error of the document. -/
theorem sound_after {P : β → Option Bytes → Prop} {γ : Type} {x : Except Fault γ}
    {f : γ → Except Fault (Parsed β)} (hf : ∀ r, Sound P error (f r)) :
    Sound P error (x >>= f) := by
  cases x with
  | ok r => exact hf r
  | error fault => trivial

/-! ## Tags -/

theorem isReadName_of_readName {name : Bytes} (h : ReadName p = (name, some q)) :
    isReadName name = true := by
  cases p with
  | nil => cases h
  | cons c s =>
      rw [ReadName] at h
      split at h
      · rename_i hc
        injection h with hname _
        subst hname
        rw [isReadName, Bool.and_eq_true]
        constructor
        · rw [List.takeWhile_cons_of_pos (inName_of_startsName c hc)]
          exact hc
        · exact List.all_takeWhile
      · cases h

theorem parseValue_sound {name p : Bytes} (hread : isReadName name = true) :
    Sound (fun a next => next ≠ none → isReadName a.name = true) error
      (parseValue name p encoding error) := by
  unfold parseValue
  split
  · apply sound_after
    intro r
    exact sound_ok fun _ _ => hread
  · apply sound_after
    intro r
    exact sound_ok fun _ _ => hread
  · split
    · exact sound_setError
    · exact sound_ok fun _ _ => hread

/-- An attribute that was read has a name. -/
theorem parseAttribute_sound {o : Option Bytes} :
    Sound (fun a next => next ≠ none → isReadName a.name = true) error
      (parseAttribute o encoding error) := by
  unfold parseAttribute
  split
  · exact sound_ok fun _ hne => absurd rfl hne
  · exact sound_ok fun _ hne => absurd rfl hne
  · split
    · rename_i name c s hname
      have hread := isReadName_of_readName hname
      split
      · split
        · exact parseValue_sound hread
        · exact sound_setError
      · exact sound_setError
    · exact sound_setError

/-- The attributes that `TiXmlElement::Parse` has linked. -/
structure Distinct (attributeSet : List TiXmlAttribute) : Prop where
  names : ∀ a ∈ attributeSet, isReadName a.name = true
  nodup : (attributeSet.map TiXmlAttribute.name).Nodup

theorem Distinct.append {attributeSet : List TiXmlAttribute} {a : TiXmlAttribute}
    (h : Distinct attributeSet) (hname : isReadName a.name = true)
    (hnew : ¬ attributeSet.any (·.name = a.name) = true) : Distinct (attributeSet ++ [a]) := by
  constructor
  · intro b hb
    rcases List.mem_append.mp hb with hb | hb
    · exact h.names b hb
    · rwa [List.mem_singleton.mp hb]
  · rw [List.map_append, List.nodup_append]
    simp only [List.any_eq_true, decide_eq_true_eq, not_exists, not_and] at hnew
    refine ⟨h.nodup, by simp, ?_⟩
    intro n hn m hm
    obtain ⟨b, hb, rfl⟩ := List.mem_map.mp hn
    obtain rfl : m = a.name := by simpa using hm
    exact hnew b hb

/-- The children that were read of an element. -/
structure Children (nodes : List TiXmlNode) : Prop where
  wellFormed : ∀ n ∈ nodes, WellFormed n
  separate : Separate nodes

/-- A node that is linked next to any other one. -/
def Linkable (node : TiXmlNode) : Prop := WellFormed node ∧ isPlainText node = false

theorem linkable_element {name : Bytes} {attributeSet : List TiXmlAttribute}
    {children : List TiXmlNode} (hname : isReadName name = true) (hattrs : Distinct attributeSet)
    (hchildren : Children children) : Linkable (.element name attributeSet children) :=
  ⟨.element hname hattrs.names hattrs.nodup hchildren.wellFormed hchildren.separate, rfl⟩

theorem Children.nil : Children [] := ⟨by simp, .nil⟩

/-- The reader of the children of an element that has none yet. -/
def SoundReader (readValue : ValueReader) : Prop :=
  ∀ p error, Sound (fun nodes _ => Children nodes) error (readValue (some p) [] error)

theorem parseEndTag_sound {readValue : ValueReader} (h : SoundReader readValue) {name : Bytes}
    {attributeSet : List TiXmlAttribute} (hname : isReadName name = true)
    (hattrs : error = none → Distinct attributeSet) :
    Sound (fun node _ => Linkable node) error
      (parseEndTag readValue encoding name attributeSet p error) := by
  unfold parseEndTag
  apply (h p error).bind
  intro r hchildren
  obtain ⟨next, children, last⟩ := r
  rcases next with _ | _ | ⟨c, s⟩
  · exact sound_setError
  · exact sound_setError
  · simp only [stringEqual_cons, except_ok_bind]
    cases (ascii ['<', '/'] ++ name).isPrefixOf (c :: s) with
    | false => exact sound_setError
    | true =>
        rw [if_pos rfl]
        split
        · exact sound_ok fun he =>
            linkable_element hname (hattrs (hchildren he).1) (hchildren he).2
        · exact sound_setError

theorem parseTag_sound {readValue : ValueReader} (h : SoundReader readValue) {name : Bytes}
    {fuel : Nat} {attributeSet : List TiXmlAttribute} (hname : isReadName name = true)
    (hattrs : error = none → Distinct attributeSet) :
    Sound (fun node _ => Linkable node) error
      (parseTag readValue encoding name fuel p attributeSet error) := by
  fun_induction parseTag readValue encoding name fuel p attributeSet error with
  | case1 fuel attributeSet error => exact sound_ok fun he => linkable_element hname (hattrs he) .nil
  | case2 => exact sound_setError
  | case3 => exact sound_setError
  | case4 => exact sound_ok fun he => linkable_element hname (hattrs he) .nil
  | case5 => exact sound_setError
  | case6 => exact parseEndTag_sound h hname hattrs
  | case7 => trivial
  | case8 p attributeSet error node hp c s hskip hslash hclose fuel ih =>
      apply parseAttribute_sound.bind
      intro attrib hread
      match attrib, hread with
      | ⟨none, _, _⟩, _ => exact sound_setError
      | ⟨some [], _, _⟩, _ => exact sound_setError
      | ⟨some (d :: r), value, last⟩, hread =>
          simp only
          split
          · exact sound_setError
          · rename_i hnew
            apply ih ⟨some (d :: r), value, last⟩ (d :: r)
            intro he
            obtain ⟨hbefore, hvalue⟩ := hread he
            exact (hattrs hbefore).append (hvalue (by simp)) hnew

theorem parseElement_sound {readValue : ValueReader} (h : SoundReader readValue)
    {o : Option Bytes} :
    Sound (fun node _ => Linkable node) error (parseElement readValue encoding o error) := by
  unfold parseElement
  split
  · split
    · trivial
    · split
      · exact sound_setError
      · exact sound_setError
      · rename_i name q _ hname
        exact parseTag_sound h (isReadName_of_readName hname) fun _ => ⟨by simp, by simp⟩
  · exact sound_setError

/-! ## Nodes and children -/

theorem readUntil_append (endTag p : Bytes) :
    (readUntil endTag p).1 ++ (readUntil endTag p).2 = p := by
  induction p with
  | nil => rfl
  | cons c s ih =>
      rw [readUntil]
      split
      · rfl
      · rw [List.cons_append, ih]

/-- What `readUntil` reads does not hold the end tag. -/
theorem search_readUntil {endTag : Bytes} (hne : endTag ≠ []) :
    search endTag (readUntil endTag p).1 = none := by
  induction p with
  | nil => exact search_nil hne
  | cons c s ih =>
      rw [readUntil]
      split
      · exact search_nil hne
      · rename_i htag
        have hprefix : c :: (readUntil endTag s).1 <+: c :: s := by
          rw [List.prefix_cons_inj]
          exact ⟨_, readUntil_append endTag s⟩
        rw [search, ih, if_neg]
        · rfl
        · intro h
          exact htag (List.isPrefixOf_iff_prefix.mpr (h.trans hprefix))

theorem linkable_declaration {version enc standalone : Bytes} :
    Linkable (.declaration version enc standalone) := ⟨.declaration, rfl⟩

theorem parseDeclarationLoop_sound {fuel : Nat} {o : Option Bytes}
    {version enc standalone : Bytes} :
    Sound (fun node _ => Linkable node) error
      (parseDeclarationLoop encoding fuel o version enc standalone error) := by
  fun_induction parseDeclarationLoop encoding fuel o version enc standalone error with
  | case1 => exact sound_ok fun _ => linkable_declaration
  | case2 => exact sound_ok fun _ => linkable_declaration
  | case3 => exact sound_ok fun _ => linkable_declaration
  | case4 => trivial
  | case5 version enc standalone error c s hc fuel p ihVersion ihEncoding ihStandalone ihWord =>
      apply sound_after
      intro isVersion
      split
      · exact sound_after ihVersion
      · apply sound_after
        intro isEncoding
        split
        · exact sound_after ihEncoding
        · apply sound_after
          intro isStandalone
          split
          · exact sound_after ihStandalone
          · exact ihWord

theorem parseDeclaration_sound {o : Option Bytes} :
    Sound (fun node _ => Linkable node) error (parseDeclaration o encoding error) := by
  unfold parseDeclaration
  split
  · exact sound_setError
  · exact sound_setError
  · apply sound_after
    intro found
    split
    · exact parseDeclarationLoop_sound
    · exact sound_setError

theorem parseNode_sound {condense : Bool} {readValue : ValueReader} (h : SoundReader readValue)
    {type : NodeType} {o : Option Bytes} :
    Sound (fun node _ => Linkable node) error
      (parseNode condense readValue encoding type o error) := by
  cases type with
  | element => exact parseElement_sound h
  | comment =>
      change Sound _ error (parseComment o encoding error)
      unfold parseComment
      apply sound_after
      intro found
      split
      · exact sound_ok fun _ => ⟨.comment (search_readUntil (by decide)), rfl⟩
      · exact sound_setError
  | unknown =>
      change Sound _ error (.ok (parseUnknown o encoding error))
      unfold parseUnknown
      split
      · rename_i s _
        apply sound_ok
        intro _
        refine ⟨.unknown ?_, rfl⟩
        intro hmem
        simpa using List.mem_takeWhile_imp hmem
      · exact sound_setError
  | cdata =>
      change Sound _ error (parseText condense true o encoding error)
      unfold parseText
      apply sound_after
      intro found
      rw [if_pos (Bool.true_or found)]
      apply sound_after
      intro found
      split
      · apply sound_after
        intro r
        exact sound_ok fun _ => ⟨.cdata (search_readUntil (by decide)), rfl⟩
      · exact sound_setError
  | declaration => exact parseDeclaration_sound

/-- Behind a text comes a tag. -/
def Follows (nodes : List TiXmlNode) (o : Option Bytes) : Prop :=
  ∀ n ∈ nodes.getLast?, isPlainText n = true → ∀ p, o = some p → p.head? = some 60

theorem Children.link {nodes : List TiXmlNode} {node : TiXmlNode} (h : Children nodes)
    (hnode : WellFormed node)
    (hlast : ∀ n ∈ nodes.getLast?, ¬ (isPlainText n = true ∧ isPlainText node = true)) :
    Children (nodes ++ [node]) := by
  constructor
  · intro n hn
    rcases List.mem_append.mp hn with hn | hn
    · exact h.wellFormed n hn
    · rwa [List.mem_singleton.mp hn]
  · apply h.separate.append (.singleton node)
    intro n hn m hm
    cases hm
    exact hlast n hn

theorem Children.link_linkable {nodes : List TiXmlNode} {node : TiXmlNode} (h : Children nodes)
    (hnode : Linkable node) : Children (nodes ++ [node]) :=
  h.link hnode.1 fun _ _ hplain => by simp [hnode.2] at hplain

theorem follows_linkable {nodes : List TiXmlNode} {node : TiXmlNode} {o : Option Bytes}
    (hnode : Linkable node) : Follows (nodes ++ [node]) o := by
  intro n hn hplain
  rw [List.getLast?_concat] at hn
  cases hn
  simp [hnode.2] at hplain

/-- A text that was read up to a tag, or a section. -/
def TextRead (node : TiXmlNode) (next : Option Bytes) : Prop :=
  Linkable node ∨
    ∃ value, node = .text value false ∧ ∀ q, next = some q → q.head? = some 60

theorem parseText_sound {condense : Bool} {o : Option Bytes} :
    Sound TextRead error (parseText condense false o encoding error) := by
  unfold parseText
  apply sound_after
  intro found
  split
  · apply sound_after
    intro found
    split
    · apply sound_after
      intro r
      exact sound_ok fun _ => .inl ⟨.cdata (search_readUntil (by decide)), rfl⟩
    · exact sound_setError
  · apply sound_after
    intro r
    match r with
    | (value, none) => exact sound_ok fun _ => .inr ⟨value, rfl, fun _ hq => nomatch hq⟩
    | (value, some q) =>
        apply sound_ok
        intro _
        right
        refine ⟨value, rfl, ?_⟩
        intro p hp
        cases hp
        rfl

/-- A text that is linked when it is not blank, where no text stands in front of it. -/
theorem TextRead.link {nodes : List TiXmlNode} {node : TiXmlNode} {next : Option Bytes}
    (h : TextRead node next) (hnodes : Children nodes)
    (hlast : ∀ n ∈ nodes.getLast?, isPlainText n = false) :
    Children (if blankText node then nodes else nodes ++ [node]) ∧
      Follows (if blankText node then nodes else nodes ++ [node]) next := by
  cases hblank : blankText node with
  | true =>
      constructor
      · exact hnodes
      · intro n hn hplain
        rw [hlast n hn] at hplain
        cases hplain
  | false =>
      rcases h with hlink | ⟨value, rfl, hnext⟩
      · exact ⟨hnodes.link_linkable hlink, follows_linkable hlink⟩
      · constructor
        · apply hnodes.link (.text hblank)
          intro n hn hplain
          rw [hlast n hn] at hplain
          cases hplain.1
        · intro n _ _
          exact hnext

theorem readValue_sound {condense : Bool} {fuel : Nat} {o : Option Bytes}
    {children : List TiXmlNode}
    (hchildren : error = none → Children children ∧ Follows children o) :
    Sound (fun nodes _ => Children nodes) error
      (ReadValue condense encoding fuel o children error) := by
  induction fuel generalizing o children error with
  | zero =>
      rw [ReadValue.eq_def]
      split
      · exact sound_setError
      · exact sound_ok fun he => (hchildren he).1
      · trivial
  | succ fuel ih =>
      rw [ReadValue.eq_def]
      split
      · exact sound_setError
      · exact sound_ok fun he => (hchildren he).1
      · rename_i c s hskip
        dsimp only
        split
        · rename_i hc
          apply parseText_sound.bind
          intro text hread
          apply ih
          intro he
          obtain ⟨hbefore, htext⟩ := hread he
          obtain ⟨hnodes, hfollows⟩ := hchildren hbefore
          apply htext.link hnodes
          intro n hn
          rw [← Bool.not_eq_true]
          intro hplain
          obtain ⟨p, hp, _, _⟩ := skip_some hskip
          have hhead := hfollows n hn hplain p hp
          obtain ⟨r, rfl⟩ := List.head?_eq_some_iff.mp hhead
          rw [hp, skip_tag] at hskip
          cases hskip
          exact hc rfl
        · apply sound_after
          intro found
          split
          · exact sound_ok fun he => (hchildren he).1
          · apply sound_after
            intro found
            split
            · exact sound_ok fun he => (hchildren he).1
            · rename_i type
              apply (parseNode_sound fun p error => ih fun _ => ⟨.nil, fun _ hn => by cases hn⟩).bind
              intro node hread
              apply ih
              intro he
              obtain ⟨hbefore, hnode⟩ := hread he
              exact ⟨(hchildren hbefore).1.link_linkable hnode, follows_linkable hnode⟩

/-! ## Documents -/

theorem parseChildren_sound {condense : Bool} {fuel : Nat} {o : Option Bytes}
    {children : List TiXmlNode} (hchildren : error = none → Children children) :
    Sound (fun nodes _ => Children nodes) error
      (parseChildren condense fuel o encoding children error) := by
  induction fuel generalizing o encoding children error with
  | zero =>
      match o with
      | none => rw [parseChildren.eq_def]; exact sound_ok hchildren
      | some [] => rw [parseChildren.eq_def]; exact sound_ok hchildren
      | some (c :: s) =>
          rw [parseChildren.eq_def]
          apply sound_after
          intro found
          split
          · exact sound_ok hchildren
          · trivial
  | succ fuel ih =>
      match o with
      | none => rw [parseChildren.eq_def]; exact sound_ok hchildren
      | some [] => rw [parseChildren.eq_def]; exact sound_ok hchildren
      | some (c :: s) =>
          rw [parseChildren.eq_def]
          apply sound_after
          intro found
          split
          · exact sound_ok hchildren
          · have hreader : SoundReader (ReadValue condense encoding fuel) :=
              fun p error => readValue_sound fun _ => ⟨.nil, fun _ hn => nomatch hn⟩
            apply (parseNode_sound hreader).bind
            intro node hread
            apply ih
            intro he
            obtain ⟨hbefore, hnode⟩ := hread he
            exact (hchildren hbefore).link_linkable hnode

/-- A document that was parsed without an error has well-formed nodes, when those were that it
had before. -/
theorem parse_wellFormed {condense : Bool} {doc doc' : TiXmlDocument} {p next : Option Bytes}
    (hdoc : Children doc.children)
    (h : doc.Parse condense p encoding = .ok (next, doc')) (herror : doc'.error = none) :
    Children doc'.children ∧ doc'.children ≠ [] := by
  unfold TiXmlDocument.Parse at h
  split at h
  · cases h
    cases herror
  · cases h
    cases herror
  · rename_i p _
    simp only at h
    split at h
    · cases h
      cases herror
    · rename_i q _
      have hread : Sound (fun nodes _ => Children nodes) none
          (parseChildren condense (p.length + 1) (some q)
            (if hasMicrosoftBOM encoding p then .utf8 else encoding) doc.children none) :=
        parseChildren_sound fun _ => hdoc
      revert h hread
      generalize parseChildren condense (p.length + 1) (some q)
        (if hasMicrosoftBOM encoding p then .utf8 else encoding) doc.children none = x
      intro h hread
      cases x with
      | error fault => cases h
      | ok r =>
          change (if r.value = [] then Except.ok (none, _) else Except.ok (r.next, _)) = _ at h
          split at h
          · cases h
            exact absurd herror setError_ne_none
          · rename_i hne
            cases h
            exact ⟨(hread herror).2, hne⟩

/-- `<a x=1>p<b/>q</a>` -/
def mixedText : Bytes :=
  ascii ['<', 'a', ' ', 'x', '=', '1', '>', 'p', '<', 'b', '/', '>', 'q', '<', '/', 'a', '>']

def mixed : List TiXmlNode :=
  [.element (ascii ['a']) [⟨ascii ['x'], ascii ['1']⟩]
    [.text (ascii ['p']) false, .element (ascii ['b']) [] [], .text (ascii ['q']) false]]

theorem parse_wellFormed_mixed : Children mixed ∧ mixed ≠ [] := by
  have hread : parseChildren true 18 (some mixedText) .unknown [] none =
      .ok ⟨none, mixed, none⟩ := by
    rw [parseChildren.eq_def]
    rfl
  have hparse : (⟨[], false, none⟩ : TiXmlDocument).Parse true (some mixedText) .unknown =
      .ok (none, ⟨mixed, false, none⟩) := by
    change (parseChildren true 18 (some mixedText) .unknown [] none >>= _) = _
    rw [hread]
    rfl
  exact parse_wellFormed .nil hparse rfl

end TinyXml

end CommonCc
