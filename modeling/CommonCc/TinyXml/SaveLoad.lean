import CommonCc.TinyXml.RoundTrip

/-!
# Saved documents

A document that `SaveFile` wrote comes back with `LoadFile`, which changes the ends of lines
before it parses.
-/

namespace CommonCc

namespace TinyXml

variable {encoding : TiXmlEncoding} {s v : Bytes} {c : UInt8}

/-! ## Carriage returns -/

mutual

/-- What is printed as it is holds no carriage return, which `LoadFile` would change. -/
def keepsLines : TiXmlNode → Bool
  | .element _ _ children => keepLines children
  | .comment v => !v.contains 13
  | .unknown v => !v.contains 13
  | .text v true => !v.contains 13
  | .text _ false => true
  | .declaration version enc standalone =>
      !version.contains 13 && !enc.contains 13 && !standalone.contains 13

def keepLines : List TiXmlNode → Bool
  | [] => true
  | node :: nodes => keepsLines node && keepLines nodes

end

theorem mem_cstr (h : c ∈ cstr v) : c ∈ v := (List.takeWhile_sublist _).subset h

theorem not_mem_cstr (h : c ∉ v) : c ∉ cstr v := fun hin => h (mem_cstr hin)

theorem no_return_encoded (h : hasReference v = false) : (13 : UInt8) ∉ cstr (EncodeString v) := by
  apply not_mem_cstr
  rw [encodeString_flatMap h, List.mem_flatMap]
  rintro ⟨b, _, hb⟩
  exact (encodeByte_plain b 13 hb).2 rfl

theorem no_return_indentation (depth : Nat) : (13 : UInt8) ∉ indentation depth := by
  intro hin
  exact absurd (List.eq_of_mem_replicate hin) (by decide)

theorem no_return_name {n : Bytes} (h : isName encoding n = true) : (13 : UInt8) ∉ cstr n := by
  obtain ⟨_, _, _, _, hall⟩ := exists_cons_of_isName h
  exact not_mem_cstr fun hin => absurd (hall 13 hin) (by decide)

theorem no_return_attributes {as : List TiXmlAttribute}
    (h : as.all (isPrintableAttribute encoding) = true) :
    (13 : UInt8) ∉ as.flatMap fun a => 32 :: printAttribute cstr a := by
  rw [List.mem_flatMap]
  rintro ⟨a, ha, hin⟩
  have hfacts := List.all_eq_true.mp h a ha
  simp only [isPrintableAttribute, isValue, Bool.and_eq_true, Bool.not_eq_true'] at hfacts
  have hname : (13 : UInt8) ∉ cstr (EncodeString a.name) := by
    rw [encodeString_name hfacts.1]
    exact no_return_name hfacts.1
  have hquote : (13 : UInt8) ≠ quoteFor a.value := by
    rcases quoteFor_cases a.value with hq | hq <;> rw [hq] <;> decide
  rw [printAttribute] at hin
  simp [hname, no_return_encoded hfacts.2.2, hquote] at hin

theorem no_return_text {depth : Nat} {cdata : Bool}
    (h : isPrintable encoding (.text v cdata) = true) (hlines : keepsLines (.text v cdata) = true) :
    (13 : UInt8) ∉ printText depth v cdata := by
  cases cdata with
  | true =>
      have hv : (13 : UInt8) ∉ v := by
        simpa [keepsLines] using hlines
      simp [printText, ascii, not_mem_cstr hv, no_return_indentation]
  | false =>
      rw [printText, if_neg (by simp)]
      exact no_return_encoded (textFacts h).plain

mutual

theorem no_return_print : (node : TiXmlNode) → (depth : Nat) → isPrintable encoding node = true →
    keepsLines node = true → (13 : UInt8) ∉ Print depth node
  | .text _ _, _, h, hlines => no_return_text h hlines
  | .comment v, depth, _, hlines => by
      have hv : (13 : UInt8) ∉ v := by
        simpa [keepsLines] using hlines
      simp [Print, ascii, not_mem_cstr hv, no_return_indentation]
  | .unknown v, depth, _, hlines => by
      have hv : (13 : UInt8) ∉ v := by
        simpa [keepsLines] using hlines
      simp [Print, not_mem_cstr hv, no_return_indentation]
  | .declaration version enc standalone, depth, h, hlines => by
      simp only [keepsLines, Bool.and_eq_true, Bool.not_eq_true', List.contains_eq_mem,
        decide_eq_false_iff_not] at hlines
      have hpart : ∀ n v, (13 : UInt8) ∉ n → (13 : UInt8) ∉ v →
          (13 : UInt8) ∉ printPart cstr n v := by
        intro n v hn hv
        unfold printPart
        split
        · simp
        · simp [hn, not_mem_cstr hv]
      simp only [Print, printDeclaration, List.mem_append, not_or]
      exact ⟨⟨⟨⟨by decide, hpart _ _ (by decide) hlines.1.1⟩, hpart _ _ (by decide) hlines.1.2⟩,
        hpart _ _ (by decide) hlines.2⟩, by decide⟩
  | .element n as children, depth, h, hlines => by
      have hfacts := h
      simp only [isPrintable, Bool.and_eq_true] at hfacts
      obtain ⟨⟨⟨hn, _⟩, has⟩, hchildren⟩ := hfacts
      have hlines' : keepLines children = true := hlines
      have hall := no_return_children children (depth + 1) hchildren hlines'
      have hbody : (13 : UInt8) ∉ printedBody depth children := by
        unfold printedBody
        split
        · simp only [arePrintable, Bool.and_true, Bool.and_eq_true] at hchildren
          simp only [keepLines, Bool.and_true] at hlines'
          exact no_return_text hchildren.1 hlines'
        · simp [hall, no_return_indentation]
      by_cases hne : children = []
      · subst hne
        simp [Print, printElement, ascii, no_return_indentation, no_return_name hn,
          visited_printable has, no_return_attributes has]
      · rw [print_element hne, visited_printable has]
        simp [no_return_indentation, no_return_name hn, no_return_attributes has, hbody]

theorem no_return_children : (nodes : List TiXmlNode) → (depth : Nat) →
    arePrintable encoding nodes = true → keepLines nodes = true →
      (13 : UInt8) ∉ PrintChildren depth nodes
  | [], _, _, _ => by simp [PrintChildren]
  | node :: nodes, depth, h, hlines => by
      simp only [arePrintable, Bool.and_eq_true] at h
      simp only [keepLines, Bool.and_eq_true] at hlines
      have hnode := no_return_print node depth h.1.1 hlines.1
      have hrest := no_return_children nodes depth h.2 hlines.2
      have hline : (13 : UInt8) ∉ (if isTextNode node then ([] : Bytes) else [10]) := by
        split <;> simp
      simp [PrintChildren, hnode, hrest, hline]

end

theorem no_return_document {nodes : List TiXmlNode}
    (h : isPrintableDocument encoding nodes = true) (hlines : keepLines nodes = true) :
    (13 : UInt8) ∉ TiXmlDocument.Print nodes := by
  induction nodes generalizing encoding with
  | nil => simp [TiXmlDocument.Print]
  | cons node nodes ih =>
      simp only [isPrintableDocument, Bool.and_eq_true] at h
      simp only [keepLines, Bool.and_eq_true] at hlines
      have hnode := no_return_print node 0 h.1.1 hlines.1
      have hrest := ih h.2 hlines.2
      unfold TiXmlDocument.Print at hrest ⊢
      rw [List.flatMap_cons, List.mem_append, List.mem_append]
      simp [hnode, hrest]

/-- A file without null bytes and carriage returns is not changed. -/
theorem normalizeLines_of_not_mem (h0 : (0 : UInt8) ∉ s) (h13 : (13 : UInt8) ∉ s) :
    normalizeLines s = s := by
  induction s with
  | nil => rfl
  | cons c s ih =>
      rw [List.mem_cons, not_or] at h0 h13
      have hrest := ih h0.2 h13.2
      cases s with
      | nil => simp [normalizeLines, Ne.symm h0.1, Ne.symm h13.1]
      | cons d s => rw [normalizeLines, if_neg (Ne.symm h0.1), if_neg (Ne.symm h13.1), hrest]

theorem print_ne_nil {nodes : List TiXmlNode} (h : nodes ≠ []) : TiXmlDocument.Print nodes ≠ [] := by
  cases nodes with
  | nil => exact absurd rfl h
  | cons node nodes => simp [TiXmlDocument.Print]

/-- A declaration, a comment and an element with two attributes, a text, a CDATA section and an
element without children. -/
def books : List TiXmlNode :=
  [.declaration (ascii ['1', '.', '0']) (ascii ['U', 'T', 'F', '-', '8']) [],
   .comment (ascii [' ', 'a', ' ', '-', ' ', 'b', ' ']),
   .element (ascii ['b', 'o', 'o', 'k', 's'])
     [⟨ascii ['n'], ascii ['1', '<', '2', '\n']⟩, ⟨ascii ['t'], [34, 39, 0xc3, 0xa9]⟩]
     [.text (ascii ['R', ' ', '&', ' ', '\t', 'D']) false, .text (ascii ['<', '>', ']']) true,
      .element (ascii ['e']) [] []]]

end TinyXml

end CommonCc
