import CommonCc.TinyXml.Base

/-!
# Nodes and their parsers

The nodes of a document and the `Parse` of each kind of node.  A node that could not be read
to its end is linked with what was read of it, and the null pointer tells its parent.
-/

namespace CommonCc

namespace TinyXml

inductive TiXmlError where
  | error
  | openingFile
  | parsingElement
  | failedToReadElementName
  | readingElementValue
  | readingAttributes
  | parsingEmpty
  | readingEndTag
  | parsingUnknown
  | parsingComment
  | parsingDeclaration
  | documentEmpty
  | embeddedNull
  | parsingCdata
  | documentTopOnly
deriving Repr, DecidableEq

/-- `TiXmlBase::errorString`, which `SetError` copies to `errorDesc`. -/
def errorString : TiXmlError → String
  | .error => "Error"
  | .openingFile => "Failed to open file"
  | .parsingElement => "Error parsing Element."
  | .failedToReadElementName => "Failed to read Element name"
  | .readingElementValue => "Error reading Element value."
  | .readingAttributes => "Error reading Attributes."
  | .parsingEmpty => "Error: empty tag."
  | .readingEndTag => "Error reading end tag."
  | .parsingUnknown => "Error parsing Unknown."
  | .parsingComment => "Error parsing Comment."
  | .parsingDeclaration => "Error parsing Declaration."
  | .documentEmpty => "Error document empty."
  | .embeddedNull => "Error null (0) or unexpected EOF found in input stream."
  | .parsingCdata => "Error parsing CDATA."
  | .documentTopOnly =>
      "Error when TiXmlDocument added to document, because TiXmlDocument can only be at the root."

structure TiXmlAttribute where
  name : Bytes
  value : Bytes
deriving Repr, DecidableEq

inductive TiXmlNode where
  | element (value : Bytes) (attributeSet : List TiXmlAttribute) (children : List TiXmlNode)
  | comment (value : Bytes)
  | unknown (value : Bytes)
  | text (value : Bytes) (cdata : Bool)
  | declaration (version encoding standalone : Bytes)
deriving Repr

/-- What `Identify` makes. -/
inductive NodeType where
  | element
  | comment
  | unknown
  | cdata
  | declaration
deriving Repr, DecidableEq

/-- What a parser leaves: the pointer that it returns, what it read and the error of the
document. -/
structure Parsed (α : Type) where
  next : Option Bytes
  value : α
  error : Option TiXmlError
deriving Repr

/-- `SetError`.  The first error stays. -/
def SetError (err : TiXmlError) : Option TiXmlError → Option TiXmlError
  | none => some err
  | some first => some first

/-! ## The parts of a tag -/

/-- The loop over an attribute value without quotes.  A quote in it is an error. -/
def bareValue : Bytes → Bytes → Bytes × Option Bytes
  | [], value => (value, some [])
  | c :: s, value =>
      if IsWhiteSpace c || c = 47 || c = 62 then (value, some (c :: s))
      else if c = 39 || c = 34 then (value, none)
      else bareValue s (value ++ [c])

/-- `TiXmlAttribute::Parse` behind the equals sign and the white space. -/
def parseValue (name : Bytes) (p : Bytes) (encoding : TiXmlEncoding)
    (error : Option TiXmlError) : Except Fault (Parsed TiXmlAttribute) :=
  match p with
  | 39 :: s => do
      let (value, p) ← ReadText true (some s) false [39] encoding
      .ok ⟨p, ⟨name, value⟩, error⟩
  | 34 :: s => do
      let (value, p) ← ReadText true (some s) false [34] encoding
      .ok ⟨p, ⟨name, value⟩, error⟩
  | p =>
      match bareValue p [] with
      | (value, none) => .ok ⟨none, ⟨name, value⟩, SetError .readingAttributes error⟩
      | (value, some p) => .ok ⟨some p, ⟨name, value⟩, error⟩

/-- `TiXmlAttribute::Parse`. -/
def parseAttribute (p : Option Bytes) (encoding : TiXmlEncoding) (error : Option TiXmlError) :
    Except Fault (Parsed TiXmlAttribute) :=
  match SkipWhiteSpace p encoding with
  | none => .ok ⟨none, ⟨[], []⟩, error⟩
  | some [] => .ok ⟨none, ⟨[], []⟩, error⟩
  | some p =>
      match ReadName p with
      | (name, some (c :: s)) =>
          match SkipWhiteSpace (some (c :: s)) encoding with
          | some (61 :: s) =>
              match SkipWhiteSpace (some s) encoding with
              | some (c :: s) => parseValue name (c :: s) encoding error
              | _ => .ok ⟨none, ⟨name, []⟩, SetError .readingAttributes error⟩
          | _ => .ok ⟨none, ⟨name, []⟩, SetError .readingAttributes error⟩
      | (name, _) => .ok ⟨none, ⟨name, []⟩, SetError .readingAttributes error⟩

/-! ## Nodes without children -/

/-- The text in front of an end tag, and what begins there. -/
def readUntil (endTag : Bytes) : Bytes → Bytes × Bytes
  | [] => ([], [])
  | c :: s =>
      if endTag.isPrefixOf (c :: s) then ([], c :: s)
      else (c :: (readUntil endTag s).1, (readUntil endTag s).2)

/-- `TiXmlUnknown::Parse`. -/
def parseUnknown (p : Option Bytes) (encoding : TiXmlEncoding) (error : Option TiXmlError) :
    Parsed TiXmlNode :=
  match SkipWhiteSpace p encoding with
  | some (60 :: s) =>
      ⟨some ((s.dropWhile (· ≠ 62)).drop 1), .unknown (s.takeWhile (· ≠ 62)), error⟩
  | _ => ⟨none, .unknown [], SetError .parsingUnknown error⟩

/-- `TiXmlComment::Parse`. -/
def parseComment (p : Option Bytes) (encoding : TiXmlEncoding) (error : Option TiXmlError) :
    Except Fault (Parsed TiXmlNode) := do
  let p := SkipWhiteSpace p encoding
  if ← StringEqual p (ascii ['<', '!', '-', '-']) false then
    let (value, q) := readUntil (ascii ['-', '-', '>']) ((p.getD []).drop 4)
    .ok ⟨some (q.drop 3), .comment value, error⟩
  else .ok ⟨none, .comment [], SetError .parsingComment error⟩

/-- `TiXmlText::Parse`, where `cdata` says what the node was made for. -/
def parseText (condenseWhiteSpace cdata : Bool) (p : Option Bytes) (encoding : TiXmlEncoding)
    (error : Option TiXmlError) : Except Fault (Parsed TiXmlNode) := do
  let startTag := ascii ['<', '!', '[', 'C', 'D', 'A', 'T', 'A', '[']
  let endTag := ascii [']', ']', '>']
  if cdata || (← StringEqual p startTag false) then
    if ← StringEqual p startTag false then
      let (value, q) := readUntil endTag ((p.getD []).drop 9)
      let (_, next) ← ReadText condenseWhiteSpace (some q) false endTag encoding
      .ok ⟨next, .text value true, error⟩
    else .ok ⟨none, .text [] true, SetError .parsingCdata error⟩
  else
    let (value, q) ← ReadText condenseWhiteSpace p true [60] encoding
    match q with
    | none => .ok ⟨none, .text value false, error⟩
    | some q => .ok ⟨some (60 :: q), .text value false, error⟩

/-- The loop of `TiXmlDeclaration::Parse`. -/
def parseDeclarationLoop (encoding : TiXmlEncoding) :
    Nat → Option Bytes → Bytes → Bytes → Bytes → Option TiXmlError →
      Except Fault (Parsed TiXmlNode)
  | _, none, version, enc, standalone, error =>
      .ok ⟨none, .declaration version enc standalone, error⟩
  | _, some [], version, enc, standalone, error =>
      .ok ⟨none, .declaration version enc standalone, error⟩
  | fuel, some (c :: s), version, enc, standalone, error =>
      if c = 62 then .ok ⟨some s, .declaration version enc standalone, error⟩
      else
        match fuel with
        | 0 => .error .diverges
        | fuel + 1 => do
            let p := SkipWhiteSpace (some (c :: s)) encoding
            if ← StringEqual p (ascii ['v', 'e', 'r', 's', 'i', 'o', 'n']) true then
              let attrib ← parseAttribute p encoding none
              parseDeclarationLoop encoding fuel attrib.next attrib.value.value enc standalone error
            else if ← StringEqual p (ascii ['e', 'n', 'c', 'o', 'd', 'i', 'n', 'g']) true then
              let attrib ← parseAttribute p encoding none
              parseDeclarationLoop encoding fuel attrib.next version attrib.value.value standalone
                error
            else if ← StringEqual p (ascii ['s', 't', 'a', 'n', 'd', 'a', 'l', 'o', 'n', 'e']) true
            then
              let attrib ← parseAttribute p encoding none
              parseDeclarationLoop encoding fuel attrib.next version enc attrib.value.value error
            else
              let p := (p.getD []).dropWhile fun c => c ≠ 62 && !IsWhiteSpace c
              parseDeclarationLoop encoding fuel (some p) version enc standalone error

/-- `TiXmlDeclaration::Parse`.  Its attributes belong to no document, so that their errors are
not set. -/
def parseDeclaration (p : Option Bytes) (encoding : TiXmlEncoding) (error : Option TiXmlError) :
    Except Fault (Parsed TiXmlNode) := do
  match SkipWhiteSpace p encoding with
  | none => .ok ⟨none, .declaration [] [] [], SetError .parsingDeclaration error⟩
  | some [] => .ok ⟨none, .declaration [] [] [], SetError .parsingDeclaration error⟩
  | some p =>
      if ← StringEqual (some p) (ascii ['<', '?', 'x', 'm', 'l']) true then
        parseDeclarationLoop encoding p.length (some (p.drop 5)) [] [] [] error
      else .ok ⟨none, .declaration [] [] [], SetError .parsingDeclaration error⟩

end TinyXml

end CommonCc
