import CommonCc.TinyXml.Model

/-!
# Elements and documents

`TiXmlElement::Parse` reads its children with the `ReadValue` that it is given, and the
`ReadValue` with one more step reads elements with the one with fewer steps.
-/

namespace CommonCc

namespace TinyXml

/-! ## Elements -/

/-- `TiXmlNode::Identify`, by the kind of node that it makes. -/
def Identify (p : Option Bytes) (encoding : TiXmlEncoding) : Except Fault (Option NodeType) := do
  match SkipWhiteSpace p encoding with
  | some (60 :: s) =>
      match SkipWhiteSpace (some (60 :: s)) encoding with
      | none => .ok none
      | some [] => .ok none
      | some p =>
          if ← StringEqual (some p) (ascii ['<', '?', 'x', 'm', 'l']) true then
            .ok (some .declaration)
          else if ← StringEqual (some p) (ascii ['<', '!', '-', '-']) false then
            .ok (some .comment)
          else if ← StringEqual (some p) (ascii ['<', '!', '[', 'C', 'D', 'A', 'T', 'A', '[']) false
          then .ok (some .cdata)
          else if ← StringEqual (some p) (ascii ['<', '!']) false then .ok (some .unknown)
          else if startsName ((p.drop 1).headD 0) then .ok (some .element)
          else .ok (some .unknown)
  | _ => .ok none

/-- The reader of the children of an element. -/
abbrev ValueReader : Type :=
  Option Bytes → List TiXmlNode → Option TiXmlError → Except Fault (Parsed (List TiXmlNode))

/-- `TiXmlElement::Parse` behind the tag. -/
def parseEndTag (readValue : ValueReader) (encoding : TiXmlEncoding) (name : Bytes)
    (attributeSet : List TiXmlAttribute) (p : Bytes) (error : Option TiXmlError) :
    Except Fault (Parsed TiXmlNode) := do
  let endTag := ascii ['<', '/'] ++ name
  let r ← readValue (some p) [] error
  let node := TiXmlNode.element name attributeSet r.value
  match r.next with
  | none => .ok ⟨none, node, SetError .readingEndTag r.error⟩
  | some [] => .ok ⟨none, node, SetError .readingEndTag r.error⟩
  | some q =>
      if ← StringEqual (some q) endTag false then
        match SkipWhiteSpace (some (q.drop endTag.length)) encoding with
        | some (62 :: rest) => .ok ⟨some rest, node, r.error⟩
        | _ => .ok ⟨none, node, SetError .readingEndTag r.error⟩
      else .ok ⟨none, node, SetError .readingEndTag r.error⟩

/-- The loop of `TiXmlElement::Parse` over the attributes. -/
def parseTag (readValue : ValueReader) (encoding : TiXmlEncoding) (name : Bytes) (fuel : Nat)
    (p : Bytes) (attributeSet : List TiXmlAttribute) (error : Option TiXmlError) :
    Except Fault (Parsed TiXmlNode) :=
  let node := TiXmlNode.element name attributeSet []
  if p = [] then .ok ⟨some p, node, error⟩
  else
    match SkipWhiteSpace (some p) encoding with
    | none => .ok ⟨none, node, SetError .readingAttributes error⟩
    | some [] => .ok ⟨none, node, SetError .readingAttributes error⟩
    | some (c :: s) =>
        if c = 47 then
          match s with
          | 62 :: rest => .ok ⟨some rest, node, error⟩
          | _ => .ok ⟨none, node, SetError .parsingEmpty error⟩
        else if c = 62 then parseEndTag readValue encoding name attributeSet s error
        else
          match fuel with
          | 0 => .error .diverges
          | fuel + 1 => do
              let attrib ← parseAttribute (some (c :: s)) encoding error
              match attrib.next with
              | none => .ok ⟨none, node, SetError .parsingElement attrib.error⟩
              | some [] => .ok ⟨none, node, SetError .parsingElement attrib.error⟩
              | some q =>
                  if attributeSet.any (·.name = attrib.value.name) then
                    .ok ⟨none, node, SetError .parsingElement attrib.error⟩
                  else
                    parseTag readValue encoding name fuel q (attributeSet ++ [attrib.value])
                      attrib.error

/-- `TiXmlElement::Parse`. -/
def parseElement (readValue : ValueReader) (encoding : TiXmlEncoding) (p : Option Bytes)
    (error : Option TiXmlError) : Except Fault (Parsed TiXmlNode) :=
  let node := TiXmlNode.element [] [] []
  match SkipWhiteSpace p encoding with
  | some (60 :: s) =>
      match SkipWhiteSpace (some s) encoding with
      | none => .error .assertion
      | some p =>
          match ReadName p with
          | (name, none) =>
              .ok ⟨none, .element name [] [], SetError .failedToReadElementName error⟩
          | (name, some []) =>
              .ok ⟨none, .element name [] [], SetError .failedToReadElementName error⟩
          | (name, some q) => parseTag readValue encoding name q.length q [] error
  | _ => .ok ⟨none, node, SetError .parsingElement error⟩

/-- The `Parse` of a node. -/
def parseNode (condenseWhiteSpace : Bool) (readValue : ValueReader) (encoding : TiXmlEncoding)
    (type : NodeType) (p : Option Bytes) (error : Option TiXmlError) :
    Except Fault (Parsed TiXmlNode) :=
  match type with
  | .element => parseElement readValue encoding p error
  | .comment => parseComment p encoding error
  | .unknown => .ok (parseUnknown p encoding error)
  | .cdata => parseText condenseWhiteSpace true p encoding error
  | .declaration => parseDeclaration p encoding error

/-- `TiXmlText::Blank`, for the nodes that `ReadValue` asks. -/
def blankText : TiXmlNode → Bool
  | .text value _ => value.all IsWhiteSpace
  | _ => false

/-- `TiXmlElement::ReadValue` from a pointer with white space on, with the children so far. -/
def ReadValue (condenseWhiteSpace : Bool) (encoding : TiXmlEncoding) (fuel : Nat)
    (pWithWhiteSpace : Option Bytes) (children : List TiXmlNode) (error : Option TiXmlError) :
    Except Fault (Parsed (List TiXmlNode)) :=
  match SkipWhiteSpace pWithWhiteSpace encoding with
  | none => .ok ⟨none, children, SetError .readingElementValue error⟩
  | some [] => .ok ⟨some [], children, error⟩
  | some (c :: s) =>
      match fuel with
      | 0 => .error .diverges
      | fuel + 1 => do
          if c ≠ 60 then
            let p := if condenseWhiteSpace then some (c :: s) else pWithWhiteSpace
            let text ← parseText condenseWhiteSpace false p encoding error
            ReadValue condenseWhiteSpace encoding fuel text.next
              (if blankText text.value then children else children ++ [text.value]) text.error
          else if ← StringEqual (some (c :: s)) (ascii ['<', '/']) false then
            .ok ⟨some (c :: s), children, error⟩
          else
            match ← Identify (some (c :: s)) encoding with
            | none => .ok ⟨none, children, error⟩
            | some type =>
                let node ← parseNode condenseWhiteSpace
                  (ReadValue condenseWhiteSpace encoding fuel) encoding type (some (c :: s)) error
                ReadValue condenseWhiteSpace encoding fuel node.next (children ++ [node.value])
                  node.error

/-! ## Documents -/

structure TiXmlDocument where
  children : List TiXmlNode
  useMicrosoftBOM : Bool
  error : Option TiXmlError
deriving Repr

/-- The encoding behind a node of the document. -/
def encodingAfter (encoding : TiXmlEncoding) (node : TiXmlNode) : TiXmlEncoding :=
  match encoding, node with
  | .unknown, .declaration _ [] _ => .utf8
  | .unknown, .declaration _ enc _ =>
      if ((ascii ['U', 'T', 'F', '-', '8']).map tolower).isPrefixOf (enc.map tolower) then .utf8
      else if ((ascii ['U', 'T', 'F', '8']).map tolower).isPrefixOf (enc.map tolower) then .utf8
      else .legacy
  | encoding, _ => encoding

/-- The loop of `TiXmlDocument::Parse`. -/
def parseChildren (condenseWhiteSpace : Bool) (fuel : Nat) (p : Option Bytes)
    (encoding : TiXmlEncoding) (children : List TiXmlNode) (error : Option TiXmlError) :
    Except Fault (Parsed (List TiXmlNode)) :=
  match p with
  | none => .ok ⟨p, children, error⟩
  | some [] => .ok ⟨p, children, error⟩
  | some (c :: s) => do
      match ← Identify (some (c :: s)) encoding with
      | none => .ok ⟨p, children, error⟩
      | some type =>
          match fuel with
          | 0 => .error .diverges
          | fuel + 1 =>
              let node ← parseNode condenseWhiteSpace
                (ReadValue condenseWhiteSpace encoding fuel) encoding type (some (c :: s)) error
              let encoding := encodingAfter encoding node.value
              parseChildren condenseWhiteSpace fuel (SkipWhiteSpace node.next encoding) encoding
                (children ++ [node.value]) node.error

/-- The byte order mark at the beginning of a text of unknown encoding. -/
def hasMicrosoftBOM (encoding : TiXmlEncoding) (p : Bytes) : Bool :=
  encoding = .unknown && [0xef, 0xbb, 0xbf].isPrefixOf p

/-- `TiXmlDocument::Parse`: the document behind it, and the pointer that it returns. -/
def TiXmlDocument.Parse (condenseWhiteSpace : Bool) (doc : TiXmlDocument) (p : Option Bytes)
    (encoding : TiXmlEncoding) : Except Fault (Option Bytes × TiXmlDocument) := do
  match p with
  | none => .ok (none, { doc with error := some .documentEmpty })
  | some [] => .ok (none, { doc with error := some .documentEmpty })
  | some p =>
      let bom := hasMicrosoftBOM encoding p
      let encoding := if bom then .utf8 else encoding
      let doc := { doc with useMicrosoftBOM := doc.useMicrosoftBOM || bom }
      match SkipWhiteSpace (some p) encoding with
      | none => .ok (none, { doc with error := some .documentEmpty })
      | some q =>
          let r ← parseChildren condenseWhiteSpace (p.length + 1) (some q) encoding doc.children none
          if r.value = [] then .ok (none, { doc with error := SetError .documentEmpty r.error })
          else .ok (r.next, { doc with children := r.value, error := r.error })

end TinyXml

end CommonCc
