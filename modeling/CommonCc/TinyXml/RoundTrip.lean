import CommonCc.TinyXml.Layout

/-!
# Printed documents

`Print` writes layouts, and the parser of a document reads every layout.
-/

namespace CommonCc

namespace TinyXml

variable {encoding : TiXmlEncoding} {error : Option TiXmlError} {s t v w : Bytes} {c : UInt8}

/-! ## Documents -/

/-- The layouts of the children of a document.  A declaration changes the encoding of what is
behind it. -/
inductive TopLevel : TiXmlEncoding → List TiXmlNode → Bytes → Prop
  | done {encoding : TiXmlEncoding} {w : Bytes} (hw : Blank w) : TopLevel encoding [] w
  | cons {encoding : TiXmlEncoding} {w b r : Bytes} {node : TiXmlNode} {nodes : List TiXmlNode}
      (hw : Blank w) (hnode : Renders encoding (.node node) b) (hplain : isPlain node = false)
      (hrest : TopLevel (encodingAfter encoding node) nodes r) :
      TopLevel encoding (node :: nodes) (w ++ (b ++ r))

theorem Renders.readsNode {node : TiXmlNode} {b : Bytes} (h : Renders encoding (.node node) b)
    (hplain : isPlain node = false) : ReadsNode encoding b node := by
  have hreads := h.reads
  cases h with
  | text _ => cases hplain
  | cdata _ => exact hreads
  | comment _ => exact hreads
  | unknown _ => exact hreads
  | declaration _ _ _ => exact hreads
  | empty _ _ _ _ => exact hreads
  | element _ _ _ _ _ _ => exact hreads

theorem ReadsNode.head {node : TiXmlNode} {b : Bytes} (h : ReadsNode encoding b node) :
    ∃ s, b = 60 :: s := by
  obtain ⟨⟨s, hs, _⟩, _⟩ := h [] b.length none (Nat.le_refl _)
  rw [List.append_nil] at hs
  exact ⟨s, hs⟩

/-- The children of a document are read from their layout. -/
theorem TopLevel.reads {nodes : List TiXmlNode} (h : TopLevel encoding nodes t) {fuel : Nat}
    {children : List TiXmlNode} (hfuel : t.length + 1 ≤ fuel) :
    ∃ next, parseChildren true fuel (SkipWhiteSpace (some t) encoding) encoding children error =
      .ok ⟨next, children ++ nodes, error⟩ := by
  induction h generalizing fuel children with
  | @done encoding w hw =>
      by_cases hne : w = []
      · refine ⟨none, ?_⟩
        rw [hne, List.append_nil]
        unfold parseChildren
        rfl
      · refine ⟨some [], ?_⟩
        rw [skip_all hw hne, List.append_nil]
        unfold parseChildren
        rfl
  | @cons encoding w b r node nodes hw hnode hplain hrest ih =>
      have hreads := hnode.readsNode hplain
      obtain ⟨s, rfl⟩ := hreads.head
      have hskip : SkipWhiteSpace (some (w ++ (60 :: s ++ r))) encoding = some (60 :: s ++ r) :=
        skip_cons (by decide) (by decide) hw
      simp only [List.length_append, List.length_cons] at hfuel
      cases fuel with
      | zero => omega
      | succ fuel =>
          obtain ⟨_, type, next, hidentify, hparse, hnext⟩ := hreads r fuel error (by
            rw [List.length_cons]
            omega)
          have hrest : ∃ next, parseChildren true fuel
              (SkipWhiteSpace (some r) (encodingAfter encoding node)) (encodingAfter encoding node)
              (children ++ [node]) error = .ok ⟨next, children ++ [node] ++ nodes, error⟩ :=
            ih (by omega)
          obtain ⟨last, hlast⟩ := hrest
          refine ⟨last, ?_⟩
          have hnull : SkipWhiteSpace next (encodingAfter encoding node) =
              SkipWhiteSpace (some r) (encodingAfter encoding node) := by
            rcases hnext with rfl | ⟨rfl, rfl⟩ <;> rfl
          rw [hskip, parseChildren.eq_def]
          rw [List.cons_append] at hidentify hparse ⊢
          simp only [hidentify, hparse, hnull, hlast, bind, Except.bind, List.append_assoc,
            List.singleton_append]

/-! ## Printable documents -/

def isPrintableAttribute (encoding : TiXmlEncoding) (a : TiXmlAttribute) : Bool :=
  isName encoding a.name && isValue encoding a.value

mutual

/-- A node that comes back when it is printed. -/
def isPrintable (encoding : TiXmlEncoding) : TiXmlNode → Bool
  | .element n as children =>
      isName encoding n && decide (as.map TiXmlAttribute.name).Nodup &&
        as.all (isPrintableAttribute encoding) && arePrintable encoding children
  | .comment v => isComment v
  | .unknown v => isUnknown v
  | .text v true => isCdata v
  | .text v false => isText encoding v
  | .declaration version enc standalone =>
      isRaw encoding version && isRaw encoding enc && isRaw encoding standalone

/-- Children that come back. -/
def arePrintable (encoding : TiXmlEncoding) : List TiXmlNode → Bool
  | [] => true
  | node :: nodes =>
      isPrintable encoding node && !(isPlain node && startsPlain nodes) &&
        arePrintable encoding nodes

end

/-- The children of a document that come back. -/
def isPrintableDocument : TiXmlEncoding → List TiXmlNode → Bool
  | _, [] => true
  | encoding, node :: nodes =>
      isPrintable encoding node && !isPlain node &&
        isPrintableDocument (encodingAfter encoding node) nodes

/-! ## Texts without null bytes -/

theorem cstr_of_not_mem (h : (0 : UInt8) ∉ s) : cstr s = s := by
  apply List.takeWhile_eq_self_iff.mpr
  intro c hc
  exact decide_eq_true fun he => h (he ▸ hc)

theorem encodeString_not_mem (h : hasReference v = false) : (0 : UInt8) ∉ EncodeString v := by
  rw [encodeString_flatMap h, List.mem_flatMap]
  rintro ⟨b, _, hb⟩
  exact (encodeByte_plain b 0 hb).1 rfl

theorem inName_facts : ∀ c, inName c = true → c ≠ 0 ∧ c ≠ 38 ∧ encodeByte c = [c] :=
  forall_byte (by decide +kernel)

theorem not_mem_name {n : Bytes} (h : isName encoding n = true) : (0 : UInt8) ∉ n := by
  obtain ⟨_, _, _, _, hall⟩ := exists_cons_of_isName h
  exact fun hin => (inName_facts 0 (hall 0 hin)).1 rfl

/-- A name is encoded as itself. -/
theorem encodeString_name {n : Bytes} (h : isName encoding n = true) : EncodeString n = n := by
  obtain ⟨_, _, _, _, hall⟩ := exists_cons_of_isName h
  have hno : hasReference n = false := by
    have hnone : search referenceStart n = none := by
      apply search_eq_none_of_not_mem (c := 38)
      exact fun hin => (inName_facts 38 (hall 38 hin)).2.1 rfl
    simp [hasReference, hnone]
  rw [encodeString_flatMap hno, List.flatMap_congr fun b hb => (inName_facts b (hall b hb)).2.2]
  simp

/-! ## Attributes -/

section Text

variable {text : Bytes → Bytes} (htext : ∀ s, (0 : UInt8) ∉ s → text s = s)

theorem quoteFor_cases (v : Bytes) : quoteFor v = 34 ∨ quoteFor v = 39 := by
  unfold quoteFor
  split
  · exact .inr rfl
  · exact .inl rfl

include htext in
/-- The printed attributes of a tag. -/
theorem attrs_printed {as : List TiXmlAttribute}
    (h : as.all (isPrintableAttribute encoding) = true) :
    Attrs encoding as (as.flatMap fun a => 32 :: printAttribute text a) := by
  induction as with
  | nil => exact .nil
  | cons a as ih =>
      rw [List.all_cons, Bool.and_eq_true] at h
      obtain ⟨ha, has⟩ := h
      simp only [isPrintableAttribute, Bool.and_eq_true] at ha
      have hno : hasReference a.value = false := by
        have hvalue := ha.2
        simp only [isValue, Bool.and_eq_true, Bool.not_eq_true'] at hvalue
        exact hvalue.2
      have hprint : printAttribute text a =
          a.name ++ 61 :: quoteFor a.value :: (EncodeString a.value ++ [quoteFor a.value]) := by
        rw [printAttribute, encodeString_name ha.1, htext _ (not_mem_name ha.1),
          htext _ (encodeString_not_mem hno)]
        simp
      have hblank : Blank [32] := by
        intro b hb
        rw [List.mem_singleton.mp hb]
        decide
      have hattrs := Attrs.cons hblank (by simp) ha.1 ha.2 (quoteFor_cases a.value) (ih has)
      rw [List.flatMap_cons, hprint]
      simpa using hattrs

/-- Every attribute with a name is visited. -/
theorem visited_printable {as : List TiXmlAttribute}
    (h : as.all (isPrintableAttribute encoding) = true) : visited as = as := by
  cases as with
  | nil => rfl
  | cons a as =>
      rw [List.all_cons, Bool.and_eq_true] at h
      rw [visited, List.takeWhile_eq_self_iff.mpr]
      intro b hb
      have hname := List.all_eq_true.mp h.2 b hb
      simp only [isPrintableAttribute, Bool.and_eq_true] at hname
      obtain ⟨c, s, hs, _⟩ := exists_cons_of_isName hname.1
      simp [hs]

theorem raw_not_mem (h : isRaw encoding v = true) : (0 : UInt8) ∉ v := by
  simp only [isRaw, Bool.and_eq_true, Bool.not_eq_true', List.contains_eq_mem,
    decide_eq_false_iff_not] at h
  exact h.1.1.2

include htext in
theorem printDeclaration_text {version enc standalone : Bytes}
    (hversion : isRaw encoding version = true) (hencoding : isRaw encoding enc = true)
    (hstandalone : isRaw encoding standalone = true) :
    printDeclaration text version enc standalone = printDeclaration id version enc standalone := by
  simp only [printDeclaration, printPart, htext _ (raw_not_mem hversion),
    htext _ (raw_not_mem hencoding), htext _ (raw_not_mem hstandalone), id]

end Text

/-! ## Layouts with more white space -/

theorem Renders.blank_content {nodes : List TiXmlNode} {b : Bytes}
    (h : Renders encoding (.content nodes) b) (hw : Blank w) :
    Renders encoding (.content nodes) (w ++ b) := by
  cases h with
  | done hw' => exact .done (hw.append hw')
  | cons hw' hnode hapart hrest =>
      rw [← List.append_assoc]
      exact .cons (hw.append hw') hnode hapart hrest

theorem TopLevel.blank {nodes : List TiXmlNode} {b : Bytes} (h : TopLevel encoding nodes b)
    (hw : Blank w) : TopLevel encoding nodes (w ++ b) := by
  cases h with
  | done hw' => exact .done (hw.append hw')
  | cons hw' hnode hplain hrest =>
      rw [← List.append_assoc]
      exact .cons (hw.append hw') hnode hplain hrest

/-- A text that is a layout of a node with white space around it. -/
def RendersPadded (encoding : TiXmlEncoding) (node : TiXmlNode) (x : Bytes) : Prop :=
  ∃ w b w', x = w ++ (b ++ w') ∧ Blank w ∧ Blank w' ∧ Renders encoding (.node node) b

theorem RendersPadded.content {node : TiXmlNode} {nodes : List TiXmlNode} {x r : Bytes}
    (h : RendersPadded encoding node x) (hapart : isPlain node = true → startsPlain nodes = false)
    (hrest : Renders encoding (.content nodes) r) :
    Renders encoding (.content (node :: nodes)) (x ++ r) := by
  obtain ⟨w, b, w', rfl, hw, hw', hb⟩ := h
  rw [List.append_assoc, List.append_assoc]
  exact .cons hw hb hapart (hrest.blank_content hw')

theorem RendersPadded.topLevel {node : TiXmlNode} {nodes : List TiXmlNode} {x r : Bytes}
    (h : RendersPadded encoding node x) (hplain : isPlain node = false)
    (hrest : TopLevel (encodingAfter encoding node) nodes r) :
    TopLevel encoding (node :: nodes) (x ++ r) := by
  obtain ⟨w, b, w', rfl, hw, hw', hb⟩ := h
  rw [List.append_assoc, List.append_assoc]
  exact .cons hw hb hplain (hrest.blank hw')

theorem RendersPadded.padded {node : TiXmlNode} {x : Bytes} (h : RendersPadded encoding node x)
    {w w' : Bytes} (hw : Blank w) (hw' : Blank w') :
    RendersPadded encoding node (w ++ (x ++ w')) := by
  obtain ⟨w₁, b, w₂, rfl, hw₁, hw₂, hb⟩ := h
  exact ⟨w ++ w₁, b, w₂ ++ w', by simp, hw.append hw₁, hw₂.append hw', hb⟩

theorem Renders.padded {node : TiXmlNode} {b : Bytes} (h : Renders encoding (.node node) b) :
    RendersPadded encoding node b :=
  ⟨[], b, [], by simp, blank_nil, blank_nil, h⟩

/-! ## Printing to a file -/

theorem blank_indentation (depth : Nat) : Blank (indentation depth) :=
  blank_replicate (by decide)

theorem blank_newline : Blank [10] := by
  intro b hb
  rw [List.mem_singleton.mp hb]
  decide

/-- A text is printed as a layout of it. -/
theorem printText_padded {depth : Nat} {cdata : Bool}
    (h : isPrintable encoding (.text v cdata) = true) :
    RendersPadded encoding (.text v cdata) (printText depth v cdata) := by
  cases cdata with
  | true =>
      have hv : isCdata v = true := h
      have hzero : (0 : UInt8) ∉ v := by
        simp only [isCdata, Bool.and_eq_true, Bool.not_eq_true', List.contains_eq_mem,
          decide_eq_false_iff_not] at hv
        exact hv.1
      have hcdata : Renders encoding (.node (.text v true)) _ := .cdata hv
      have hpad := hcdata.padded.padded (blank_newline.append (blank_indentation depth)) blank_newline
      simpa [printText, cstr_of_not_mem hzero] using hpad
  | false =>
      have hv : isText encoding v = true := h
      rw [printText, if_neg (by simp), cstr_of_not_mem (encodeString_not_mem (textFacts hv).plain)]
      exact (Renders.text hv).padded

/-- What is printed between the tags of an element with children. -/
def printedBody (depth : Nat) : List TiXmlNode → Bytes
  | [.text v cdata] => printText (depth + 1) v cdata
  | children => PrintChildren (depth + 1) children ++ 10 :: indentation depth

theorem print_element {depth : Nat} {n : Bytes} {as : List TiXmlAttribute}
    {children : List TiXmlNode} (hne : children ≠ []) :
    Print depth (.element n as children) =
      indentation depth ++ 60 :: (cstr n ++ ((visited as).flatMap
        (fun a => 32 :: printAttribute cstr a) ++ 62 :: (printedBody depth children ++
          60 :: 47 :: (cstr n ++ [62])))) := by
  rw [Print]
  generalize hlines : PrintChildren (depth + 1) children = lines
  match children with
  | [] => exact absurd rfl hne
  | [.text v cdata] => simp [printElement, printedBody, ascii]
  | [.element _ _ _] => simp [printElement, printedBody, ascii, hlines]
  | [.comment _] => simp [printElement, printedBody, ascii, hlines]
  | [.unknown _] => simp [printElement, printedBody, ascii, hlines]
  | [.declaration _ _ _] => simp [printElement, printedBody, ascii, hlines]
  | _ :: _ :: _ => simp [printElement, printedBody, ascii, hlines]

theorem printedBody_renders {depth : Nat} {children : List TiXmlNode}
    (h : arePrintable encoding children = true)
    (hall : ∀ w, Blank w →
      Renders encoding (.content children) (PrintChildren (depth + 1) children ++ w)) :
    Renders encoding (.content children) (printedBody depth children) := by
  have hother := hall (10 :: indentation depth) (blank_newline.append (blank_indentation depth))
  unfold printedBody
  split
  · rename_i v cdata
    simp only [arePrintable, Bool.and_true, Bool.and_eq_true] at h
    have htext : Renders encoding (.content [.text v cdata]) (printText (depth + 1) v cdata ++ []) :=
      (printText_padded h.1).content (fun _ => rfl) (.done blank_nil)
    rwa [List.append_nil] at htext
  · exact hother

theorem element_padded {n b body : Bytes} {as : List TiXmlAttribute} {children : List TiXmlNode}
    (h : isPrintable encoding (.element n as children) = true) (has : Attrs encoding as b)
    (hbody : Renders encoding (.content children) body) :
    RendersPadded encoding (.element n as children)
      (60 :: (n ++ (b ++ 62 :: (body ++ 60 :: 47 :: (n ++ [62]))))) := by
  simp only [isPrintable, Bool.and_eq_true, decide_eq_true_eq] at h
  exact (Renders.element h.1.1.1 h.1.1.2 has blank_nil hbody blank_nil).padded

mutual

/-- A node is printed as a layout of it. -/
theorem print_padded : (node : TiXmlNode) → (depth : Nat) → isPrintable encoding node = true →
    RendersPadded encoding node (Print depth node)
  | .text _ _, _, h => printText_padded h
  | .comment v, depth, h => by
      have hv : isComment v = true := h
      have hzero : (0 : UInt8) ∉ v := by
        simp only [isComment, Bool.and_eq_true, Bool.not_eq_true', List.contains_eq_mem,
          decide_eq_false_iff_not] at hv
        exact hv.1
      have hcomment : Renders encoding (.node (.comment v)) _ := .comment hv
      have hpad := hcomment.padded.padded (blank_indentation depth) blank_nil
      simpa [Print, cstr_of_not_mem hzero] using hpad
  | .unknown v, depth, h => by
      have hv : isUnknown v = true := h
      have hzero : (0 : UInt8) ∉ v := by
        simp only [isUnknown, Bool.and_eq_true, Bool.not_eq_true', List.contains_eq_mem,
          decide_eq_false_iff_not] at hv
        exact hv.1.1.1.1.1.1
      have hunknown : Renders encoding (.node (.unknown v)) _ := .unknown hv
      have hpad := hunknown.padded.padded (blank_indentation depth) blank_nil
      simpa [Print, cstr_of_not_mem hzero] using hpad
  | .declaration version enc standalone, depth, h => by
      simp only [isPrintable, Bool.and_eq_true] at h
      rw [Print, printDeclaration_text (fun _ => cstr_of_not_mem) h.1.1 h.1.2 h.2]
      exact (Renders.declaration h.1.1 h.1.2 h.2).padded
  | .element n as children, depth, h => by
      have hfacts := h
      simp only [isPrintable, Bool.and_eq_true, decide_eq_true_eq] at hfacts
      obtain ⟨⟨⟨hn, hnodup⟩, has⟩, hchildren⟩ := hfacts
      have hattrs := attrs_printed (fun _ => cstr_of_not_mem) has
      by_cases hne : children = []
      · subst hne
        have hpad := (Renders.empty hn hnodup hattrs (w := [32]) (by
          intro b hb
          rw [List.mem_singleton.mp hb]
          decide)).padded.padded (blank_indentation depth) blank_nil
        simpa [Print, printElement, ascii, visited_printable has,
          cstr_of_not_mem (not_mem_name hn)] using hpad
      · have hbody : Renders encoding (.content children) (printedBody depth children) :=
          printedBody_renders hchildren (printChildren_renders children (depth + 1) hchildren)
        have hpad := (element_padded h hattrs hbody).padded (blank_indentation depth) blank_nil
        rw [print_element hne, visited_printable has, cstr_of_not_mem (not_mem_name hn)]
        simpa using hpad

/-- Children are printed as a layout of them, with any white space behind it. -/
theorem printChildren_renders : (nodes : List TiXmlNode) → (depth : Nat) →
    arePrintable encoding nodes = true → ∀ w, Blank w →
      Renders encoding (.content nodes) (PrintChildren depth nodes ++ w)
  | [], _, _, w, hw => .done hw
  | node :: nodes, depth, h, w, hw => by
      simp only [arePrintable, Bool.and_eq_true, Bool.not_eq_true', Bool.and_eq_false_iff] at h
      have hline : Blank (if isTextNode node then [] else [10]) := by
        split
        · exact blank_nil
        · exact blank_newline
      have hnode := (print_padded node depth h.1.1).padded hline blank_nil
      have hrest := printChildren_renders nodes depth h.2 w hw
      have hall := hnode.content (fun hp => h.1.2.resolve_left (by simp [hp])) hrest
      simpa [PrintChildren] using hall

end

/-- A document is printed as a layout of its children. -/
theorem printDocument_topLevel {nodes : List TiXmlNode}
    (h : isPrintableDocument encoding nodes = true) :
    TopLevel encoding nodes (TiXmlDocument.Print nodes) := by
  induction nodes generalizing encoding with
  | nil => exact .done blank_nil
  | cons node nodes ih =>
      simp only [isPrintableDocument, Bool.and_eq_true, Bool.not_eq_true'] at h
      have hnode := (print_padded node 0 h.1.1).padded blank_nil blank_newline
      exact hnode.topLevel h.1.2 (ih h.2)

/-! ## No layout holds a null byte -/

theorem blank_not_mem (hw : Blank w) : (0 : UInt8) ∉ w :=
  fun hin => absurd (hw 0 hin) (by decide)

theorem Attrs.not_mem {as : List TiXmlAttribute} {b : Bytes} (h : Attrs encoding as b) :
    (0 : UInt8) ∉ b := by
  induction h with
  | nil => simp
  | @cons a as w b q hw _ hname hvalue hq _ ih =>
      simp only [isValue, Bool.and_eq_true, Bool.not_eq_true'] at hvalue
      have hquote : (0 : UInt8) ≠ q := by
        rcases hq with rfl | rfl <;> decide
      simp [blank_not_mem hw, not_mem_name hname, encodeString_not_mem hvalue.2, hquote, ih]

theorem Renders.not_mem {part : Part} {b : Bytes} (h : Renders encoding part b) :
    (0 : UInt8) ∉ b := by
  induction h with
  | text h => exact encodeString_not_mem (textFacts h).plain
  | cdata h =>
      simp only [isCdata, Bool.and_eq_true, Bool.not_eq_true', List.contains_eq_mem,
        decide_eq_false_iff_not] at h
      simp [ascii, h.1]
  | comment h =>
      simp only [isComment, Bool.and_eq_true, Bool.not_eq_true', List.contains_eq_mem,
        decide_eq_false_iff_not] at h
      simp [ascii, h.1]
  | unknown h =>
      simp only [isUnknown, Bool.and_eq_true, Bool.not_eq_true', List.contains_eq_mem,
        decide_eq_false_iff_not] at h
      simp [h.1.1.1.1.1.1]
  | declaration hversion hencoding hstandalone =>
      have hpart : ∀ n v, (0 : UInt8) ∉ n → isRaw encoding v = true →
          (0 : UInt8) ∉ printPart id n v := by
        intro n v hn hv
        unfold printPart
        split
        · simp
        · simp [hn, raw_not_mem hv]
      simp only [printDeclaration, List.mem_append, not_or]
      exact ⟨⟨⟨⟨by decide, hpart _ _ (by decide) hversion⟩, hpart _ _ (by decide) hencoding⟩,
        hpart _ _ (by decide) hstandalone⟩, by decide⟩
  | empty hn _ has hw => simp [not_mem_name hn, has.not_mem, blank_not_mem hw]
  | element hn _ has hw _ hw' ih =>
      simp [not_mem_name hn, has.not_mem, blank_not_mem hw, ih, blank_not_mem hw']
  | done hw => exact blank_not_mem hw
  | cons hw _ _ _ ihnode ihrest => simp [blank_not_mem hw, ihnode, ihrest]

theorem TopLevel.not_mem {nodes : List TiXmlNode} (h : TopLevel encoding nodes t) :
    (0 : UInt8) ∉ t := by
  induction h with
  | done hw => exact blank_not_mem hw
  | cons hw hnode _ _ ih => simp [blank_not_mem hw, hnode.not_mem, ih]

/-- A layout begins with white space or a tag. -/
theorem TopLevel.head_ne {nodes : List TiXmlNode} (h : TopLevel encoding nodes t) :
    t.headD 0 ≠ 0xef := by
  have hblank : ∀ w s : Bytes, Blank w → (w = [] → s.headD 0 ≠ 0xef) → (w ++ s).headD 0 ≠ 0xef := by
    intro w s hw hs
    cases w with
    | nil => exact hs rfl
    | cons c w => exact ne_lead_of_isWhiteSpace (hw c List.mem_cons_self)
  cases h with
  | @done _ _ hw =>
      have hnil := hblank t [] hw (fun _ => by decide)
      rwa [List.append_nil] at hnil
  | cons hw hnode hplain _ =>
      obtain ⟨s, rfl⟩ := (hnode.readsNode hplain).head
      exact hblank _ _ hw (fun _ => (by decide : (60 : UInt8) ≠ 0xef))

/-! ## Parsing a layout -/

/-- The encoding that the parser begins with. -/
def firstEncoding (encoding : TiXmlEncoding) (bom : Bool) : TiXmlEncoding :=
  if encoding = .unknown && bom then .utf8 else encoding

/-- The byte order mark that `SaveFile` writes. -/
def markOf (bom : Bool) : Bytes := if bom then [0xef, 0xbb, 0xbf] else []

/-- A layout behind an optional byte order mark is parsed. -/
theorem parse_layout {nodes : List TiXmlNode} (bom : Bool) (doc : TiXmlDocument)
    (hbom : bom = true → encoding ≠ .legacy) (hne : nodes ≠ []) (ht : t ≠ [])
    (h : TopLevel (firstEncoding encoding bom) nodes t) :
    ∃ next, doc.Parse true (some (markOf bom ++ t)) encoding =
      .ok (next, ⟨doc.children ++ nodes,
        doc.useMicrosoftBOM || (decide (encoding = .unknown) && bom), none⟩) := by
  have hmark : hasMicrosoftBOM encoding (markOf bom ++ t) =
      (decide (encoding = .unknown) && bom) := by
    unfold hasMicrosoftBOM markOf
    cases bom with
    | true => simp
    | false =>
        have hhead := h.head_ne
        cases t with
        | nil => exact absurd rfl ht
        | cons c t =>
            have hc : ¬ ((0xef : UInt8) = c) := fun he => hhead he.symm
            simp [List.isPrefixOf, hc]
  have hskip : SkipWhiteSpace (some (markOf bom ++ t)) (firstEncoding encoding bom) =
      SkipWhiteSpace (some t) (firstEncoding encoding bom) := by
    cases bom with
    | false => rfl
    | true =>
        have hutf : firstEncoding encoding true = .utf8 := by
          unfold firstEncoding
          cases encoding with
          | unknown => rfl
          | utf8 => rfl
          | legacy => exact absurd rfl (hbom rfl)
        rw [hutf]
        cases t with
        | nil => exact absurd rfl ht
        | cons c t => rfl
  have hchildren : ∃ next, parseChildren true ((markOf bom ++ t).length + 1)
      (SkipWhiteSpace (some t) (firstEncoding encoding bom)) (firstEncoding encoding bom)
      doc.children none = .ok ⟨next, doc.children ++ nodes, none⟩ :=
    h.reads (by rw [List.length_append]; omega)
  obtain ⟨next, hread⟩ := hchildren
  have hsome : ∃ q, SkipWhiteSpace (some t) (firstEncoding encoding bom) = some q := by
    cases t with
    | nil => exact absurd rfl ht
    | cons c t =>
        rw [SkipWhiteSpace]
        split <;> exact ⟨_, rfl⟩
  obtain ⟨q, hq⟩ := hsome
  have hnodes : doc.children ++ nodes ≠ [] := by simp [hne]
  refine ⟨next, ?_⟩
  rw [hq] at hskip hread
  unfold TiXmlDocument.Parse
  cases hp : markOf bom ++ t with
  | nil => simp [ht] at hp
  | cons c s =>
      rw [hp] at hmark hskip hread
      have henc : (if (decide (encoding = .unknown) && bom) = true then TiXmlEncoding.utf8
          else encoding) = firstEncoding encoding bom := rfl
      simp only [hmark]
      simp only [henc, hskip, bind, Except.bind, hread, hnodes, if_false]

end TinyXml

end CommonCc
