import CommonCc.TinyXml.RoundTrip

/-!
# Documents in the buffer of a printer

`TiXmlPrinter` writes a layout for every indentation and line break that are white space, the
empty ones of `SetStreamPrinting` among them.
-/

namespace CommonCc

namespace TinyXml

variable {encoding : TiXmlEncoding} {v w : Bytes}

namespace TiXmlPrinter

variable {printer : TiXmlPrinter}

@[simp] theorem write_write (x y : Bytes) : (printer.write x).write y = printer.write (x ++ y) := by
  simp [write]

@[simp] theorem write_depth (x : Bytes) : (printer.write x).depth = printer.depth := rfl

@[simp] theorem write_indent (x : Bytes) : (printer.write x).indent = printer.indent := rfl

@[simp] theorem write_lineBreak (x : Bytes) :
    (printer.write x).lineBreak = printer.lineBreak := rfl

@[simp] theorem write_simpleTextPrint (x : Bytes) :
    (printer.write x).simpleTextPrint = printer.simpleTextPrint := rfl

/-- Indentation and line breaks are white space, and no text is being printed within its tags. -/
structure Ready (printer : TiXmlPrinter) : Prop where
  indent : Blank printer.indent
  lineBreak : Blank printer.lineBreak
  simple : printer.simpleTextPrint = false

/-- What `DoIndent` writes. -/
def margin (printer : TiXmlPrinter) : Bytes := (List.replicate printer.depth printer.indent).flatten

theorem Ready.margin (h : printer.Ready) : Blank printer.margin := by
  intro c hc
  rw [TiXmlPrinter.margin, List.mem_flatten] at hc
  obtain ⟨l, hl, hc⟩ := hc
  rw [List.eq_of_mem_replicate hl] at hc
  exact h.indent c hc

theorem Ready.write (h : printer.Ready) (x : Bytes) : (printer.write x).Ready :=
  ⟨h.indent, h.lineBreak, h.simple⟩

theorem Ready.deeper (h : printer.Ready) (x : Bytes) :
    ({ printer.write x with depth := printer.depth + 1 } : TiXmlPrinter).Ready :=
  ⟨h.indent, h.lineBreak, h.simple⟩

theorem visitLine_eq (x : Bytes) :
    printer.VisitLine x = printer.write (printer.margin ++ (x ++ printer.lineBreak)) := by
  simp [VisitLine, DoLineBreak, DoIndent, margin]

/-- The tag of an element with its attributes. -/
def openTag (value : Bytes) (attributeSet : List TiXmlAttribute) : Bytes :=
  60 :: (cstr value ++ (visited attributeSet).flatMap fun a => 32 :: printAttribute id a)

/-- An element with children of which it is not said that they are a text. -/
theorem visitEnter_lines {value : Bytes} {as : List TiXmlAttribute} {children : List TiXmlNode}
    (hne : children ≠ []) (htext : ∀ v, children ≠ [.text v false]) :
    printer.VisitEnter value as children =
      { printer.write (printer.margin ++ (openTag value as ++ 62 :: printer.lineBreak)) with
        depth := printer.depth + 1 } := by
  unfold VisitEnter
  split
  · exact absurd rfl hne
  · exact absurd rfl (htext _)
  · simp [DoIndent, DoLineBreak, margin, openTag, write]

/-- An element without children. -/
theorem accept_empty {value : Bytes} {as : List TiXmlAttribute} :
    printer.Accept (.element value as []) =
      printer.write (printer.margin ++
        (openTag value as ++ (ascii [' ', '/', '>'] ++ printer.lineBreak))) := by
  simp [Accept, AcceptAll, VisitEnter, VisitExit, DoIndent, DoLineBreak, margin, openTag, write]

/-- An element with a text and nothing else, which is printed in one line. -/
theorem accept_simple (h : printer.Ready) {value : Bytes} {as : List TiXmlAttribute} :
    printer.Accept (.element value as [.text v false]) =
      printer.write (printer.margin ++ (openTag value as ++ 62 :: (EncodeString v ++
        60 :: 47 :: (cstr value ++ 62 :: printer.lineBreak)))) := by
  have hsimple := h.simple
  cases printer
  simp only at hsimple
  subst hsimple
  simp [Accept, AcceptAll, VisitEnter, VisitExit, VisitText, DoIndent, DoLineBreak, margin, openTag,
    write, ascii]

/-- An element with other children. -/
theorem accept_lines (h : printer.Ready) {value x : Bytes} {as : List TiXmlAttribute}
    {children : List TiXmlNode} (hne : children ≠ []) (htext : ∀ v, children ≠ [.text v false])
    (hall : AcceptAll { printer.write (printer.margin ++
        (openTag value as ++ 62 :: printer.lineBreak)) with depth := printer.depth + 1 } children =
      ({ printer.write (printer.margin ++ (openTag value as ++ 62 :: printer.lineBreak)) with
        depth := printer.depth + 1 } : TiXmlPrinter).write x) :
    printer.Accept (.element value as children) =
      printer.write (printer.margin ++ (openTag value as ++ 62 :: (printer.lineBreak ++
        (x ++ (printer.margin ++ 60 :: 47 :: (cstr value ++ 62 :: printer.lineBreak)))))) := by
  have hsimple := h.simple
  rw [Accept, visitEnter_lines hne htext, hall]
  cases printer
  simp only at hsimple
  subst hsimple
  simp [VisitExit, hne, DoIndent, DoLineBreak, margin, write, ascii]

mutual

/-- A node is written as a layout of it. -/
theorem accept_padded : (node : TiXmlNode) → (printer : TiXmlPrinter) → printer.Ready →
    isPrintable encoding node = true →
      ∃ x, printer.Accept node = printer.write x ∧ RendersPadded encoding node x
  | .text v true, printer, hready, h => by
      have hv : isCdata v = true := h
      have hcdata : Renders encoding (.node (.text v true)) _ := .cdata hv
      have hzero : (0 : UInt8) ∉ v := by
        have hnot := hcdata.not_mem
        simp only [List.mem_append, not_or] at hnot
        exact hnot.2.1
      refine ⟨_, ?_, hcdata.padded.padded hready.margin hready.lineBreak⟩
      simp [Accept, VisitText, DoIndent, DoLineBreak, margin, cstr_of_not_mem hzero]
  | .text v false, printer, hready, h => by
      have hv : isText encoding v = true := h
      refine ⟨_, ?_, (Renders.text hv).padded.padded hready.margin hready.lineBreak⟩
      simp [Accept, VisitText, DoIndent, DoLineBreak, margin, hready.simple]
  | .comment v, printer, hready, h => by
      have hv : isComment v = true := h
      have hcomment : Renders encoding (.node (.comment v)) _ := .comment hv
      have hzero : (0 : UInt8) ∉ v := by
        have hnot := hcomment.not_mem
        simp only [List.mem_append, not_or] at hnot
        exact hnot.2.1
      refine ⟨_, ?_, hcomment.padded.padded hready.margin hready.lineBreak⟩
      rw [Accept, visitLine_eq, cstr_of_not_mem hzero]
      simp
  | .unknown v, printer, hready, h => by
      have hv : isUnknown v = true := h
      have hunknown : Renders encoding (.node (.unknown v)) _ := .unknown hv
      have hzero : (0 : UInt8) ∉ v := by
        have hnot := hunknown.not_mem
        simp only [List.mem_cons, List.mem_append, not_or] at hnot
        exact hnot.2.1
      refine ⟨_, ?_, hunknown.padded.padded hready.margin hready.lineBreak⟩
      rw [Accept, visitLine_eq, cstr_of_not_mem hzero]
      rfl
  | .declaration version enc standalone, printer, hready, h => by
      simp only [isPrintable, Bool.and_eq_true] at h
      refine ⟨_, ?_, (Renders.declaration h.1.1 h.1.2 h.2).padded.padded hready.margin
        hready.lineBreak⟩
      rw [Accept, visitLine_eq]
  | .element n as children, printer, hready, h => by
      have hfacts := h
      simp only [isPrintable, Bool.and_eq_true, decide_eq_true_eq] at hfacts
      obtain ⟨⟨⟨hn, hnodup⟩, has⟩, hchildren⟩ := hfacts
      have hattrs := attrs_printed (fun _ _ => rfl : ∀ s : Bytes, (0 : UInt8) ∉ s → id s = s) has
      have htag : openTag n as = 60 :: (n ++ as.flatMap fun a => 32 :: printAttribute id a) := by
        rw [openTag, visited_printable has, cstr_of_not_mem (not_mem_name hn)]
      by_cases hne : children = []
      · subst hne
        have hempty := Renders.empty hn hnodup hattrs (w := [32]) (by
          intro b hb
          rw [List.mem_singleton.mp hb]
          decide)
        refine ⟨_, accept_empty, ?_⟩
        rw [htag]
        simpa [ascii] using hempty.padded.padded hready.margin hready.lineBreak
      · by_cases htext : ∃ v, children = [.text v false]
        · obtain ⟨v, rfl⟩ := htext
          have hv : isText encoding v = true := by
            simpa [arePrintable, isPrintable, startsPlain] using hchildren
          have hbody : Renders encoding (.content [.text v false]) (EncodeString v ++ []) :=
            (Renders.text hv).padded.content (fun _ => rfl) (.done blank_nil)
          have hall := (element_padded h hattrs hbody).padded hready.margin hready.lineBreak
          refine ⟨_, accept_simple hready, ?_⟩
          rw [htag, cstr_of_not_mem (not_mem_name hn)]
          simpa using hall
        · have hnot : ∀ v, children ≠ [.text v false] := fun v he => htext ⟨v, he⟩
          obtain ⟨x, hx, hbody⟩ := acceptAll_renders children
            { printer.write (printer.margin ++ (openTag n as ++ 62 :: printer.lineBreak)) with
              depth := printer.depth + 1 } (hready.deeper _) hchildren
          have hall := (element_padded h hattrs ((hbody printer.margin hready.margin).blank_content
            hready.lineBreak)).padded hready.margin hready.lineBreak
          refine ⟨_, accept_lines hready hne hnot hx, ?_⟩
          rw [htag, cstr_of_not_mem (not_mem_name hn)]
          simpa using hall

/-- Children are written as a layout of them, with any white space behind it. -/
theorem acceptAll_renders : (nodes : List TiXmlNode) → (printer : TiXmlPrinter) → printer.Ready →
    arePrintable encoding nodes = true →
      ∃ x, printer.AcceptAll nodes = printer.write x ∧
        ∀ w, Blank w → Renders encoding (.content nodes) (x ++ w)
  | [], printer, _, _ => ⟨[], by simp [AcceptAll, write], fun w hw => .done hw⟩
  | node :: nodes, printer, hready, h => by
      simp only [arePrintable, Bool.and_eq_true, Bool.not_eq_true', Bool.and_eq_false_iff] at h
      obtain ⟨x, hx, hnode⟩ := accept_padded node printer hready h.1.1
      obtain ⟨y, hy, hrest⟩ := acceptAll_renders nodes (printer.write x) (hready.write x) h.2
      refine ⟨x ++ y, by rw [AcceptAll, hx, hy, write_write], ?_⟩
      intro w hw
      rw [List.append_assoc]
      exact hnode.content (fun hp => h.1.2.resolve_left (by simp [hp])) (hrest w hw)

end

/-- The children of a document are written as a layout of it. -/
theorem acceptAll_topLevel {nodes : List TiXmlNode} (hready : printer.Ready)
    (h : isPrintableDocument encoding nodes = true) :
    ∃ x, printer.AcceptAll nodes = printer.write x ∧ TopLevel encoding nodes x := by
  induction nodes generalizing encoding printer with
  | nil => exact ⟨[], by simp [AcceptAll, write], .done blank_nil⟩
  | cons node nodes ih =>
      simp only [isPrintableDocument, Bool.and_eq_true, Bool.not_eq_true'] at h
      obtain ⟨x, hx, hnode⟩ := accept_padded node printer hready h.1.1
      obtain ⟨y, hy, hrest⟩ := ih (hready.write x) h.2
      exact ⟨x ++ y, by rw [AcceptAll, hx, hy, write_write], hnode.topLevel h.1.2 hrest⟩

/-- A new printer with this indentation and line break. -/
def new (indent lineBreak : Bytes) : TiXmlPrinter :=
  { depth := 0, simpleTextPrint := false, buffer := [], indent, lineBreak }

end TiXmlPrinter

theorem TopLevel.ne_nil {nodes : List TiXmlNode} {t : Bytes} (h : TopLevel encoding nodes t)
    (hne : nodes ≠ []) : t ≠ [] := by
  cases h with
  | done _ => exact absurd rfl hne
  | cons _ hnode hplain _ =>
      obtain ⟨s, rfl⟩ := (hnode.readsNode hplain).head
      simp

/-- **A document that a printer visited is parsed from its buffer**, behind the children that
the parsing document has. -/
theorem parse_printed {nodes : List TiXmlNode} {indent lineBreak : Bytes} (doc : TiXmlDocument)
    (hindent : Blank indent) (hbreak : Blank lineBreak) (hne : nodes ≠ [])
    (h : isPrintableDocument encoding nodes = true) :
    ∃ next, doc.Parse true
        (some (cstr ((TiXmlPrinter.new indent lineBreak).AcceptAll nodes).buffer)) encoding =
      .ok (next, ⟨doc.children ++ nodes, doc.useMicrosoftBOM, none⟩) := by
  have hready : (TiXmlPrinter.new indent lineBreak).Ready := ⟨hindent, hbreak, rfl⟩
  obtain ⟨x, hx, hlayout⟩ := TiXmlPrinter.acceptAll_topLevel hready h
  have hfirst : firstEncoding encoding false = encoding := by simp [firstEncoding]
  obtain ⟨next, hparse⟩ := parse_layout false doc (by simp) hne (hlayout.ne_nil hne)
    (hfirst.symm ▸ hlayout)
  refine ⟨next, ?_⟩
  rw [hx, TiXmlPrinter.write, cstr_of_not_mem (by simpa [TiXmlPrinter.new] using hlayout.not_mem)]
  simpa [markOf, TiXmlPrinter.new] using hparse

theorem parse_printed_stream :
    ∃ next, (⟨[], false, none⟩ : TiXmlDocument).Parse true
        (some (cstr ((TiXmlPrinter.new [] []).AcceptAll
          [.element (ascii ['a']) [] [.text (ascii ['x', ' ', '<']) false, .element (ascii ['b']) [] []],
           .text (ascii [']', '&']) true]).buffer)) .legacy =
      .ok (next, ⟨[.element (ascii ['a']) []
          [.text (ascii ['x', ' ', '<']) false, .element (ascii ['b']) [] []],
        .text (ascii [']', '&']) true], false, none⟩) :=
  parse_printed ⟨[], false, none⟩ blank_nil blank_nil (by simp) (by decide +kernel)

end TinyXml

end CommonCc
