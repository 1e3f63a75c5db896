import CommonCc.TinyXml.Document

/-!
# Printing

`Print` to a `FILE*` and the `TiXmlPrinter` that visits the nodes, with `SaveFile` and
`LoadFile` of a document.
-/

namespace CommonCc

namespace TinyXml

/-- `c_str()` of a text, as `%s` prints it. -/
def cstr (s : Bytes) : Bytes := s.takeWhile (· ≠ 0)

/-- The attributes that `Next` comes to from the first one on.  It takes one without name and
value for the sentinel. -/
def visited : List TiXmlAttribute → List TiXmlAttribute
  | [] => []
  | a :: as => a :: as.takeWhile fun a => !(a.value = [] && a.name = [])

/-- The quote around a value. -/
def quoteFor (value : Bytes) : UInt8 := if value.contains 34 then 39 else 34

/-- `TiXmlAttribute::Print`, with `text` for what is written of a text: `c_str()` to a file and
all of it to a string. -/
def printAttribute (text : Bytes → Bytes) (a : TiXmlAttribute) : Bytes :=
  text (EncodeString a.name) ++ [61, quoteFor a.value] ++ text (EncodeString a.value) ++
    [quoteFor a.value]

/-- One value of a declaration. -/
def printPart (text : Bytes → Bytes) (name value : Bytes) : Bytes :=
  if value = [] then [] else name ++ [61, 34] ++ text value ++ [34, 32]

/-- `TiXmlDeclaration::Print`. -/
def printDeclaration (text : Bytes → Bytes) (version encoding standalone : Bytes) : Bytes :=
  ascii ['<', '?', 'x', 'm', 'l', ' '] ++
    printPart text (ascii ['v', 'e', 'r', 's', 'i', 'o', 'n']) version ++
    printPart text (ascii ['e', 'n', 'c', 'o', 'd', 'i', 'n', 'g']) encoding ++
    printPart text (ascii ['s', 't', 'a', 'n', 'd', 'a', 'l', 'o', 'n', 'e']) standalone ++
    ascii ['?', '>']

/-! ## Printing to a file -/

/-- The indentation of `Print`. -/
def indentation (depth : Nat) : Bytes := List.replicate (4 * depth) 32

/-- `TiXmlText::Print`. -/
def printText (depth : Nat) (value : Bytes) (cdata : Bool) : Bytes :=
  if cdata then
    [10] ++ indentation depth ++ ascii ['<', '!', '[', 'C', 'D', 'A', 'T', 'A', '['] ++ cstr value ++
      ascii [']', ']', '>'] ++ [10]
  else cstr (EncodeString value)

def isTextNode : TiXmlNode → Bool
  | .text _ _ => true
  | _ => false

/-- `TiXmlElement::Print`, with the children printed on lines of their own. -/
def printElement (depth : Nat) (value : Bytes) (attributeSet : List TiXmlAttribute)
    (children : List TiXmlNode) (lines : Bytes) : Bytes :=
  indentation depth ++ [60] ++ cstr value ++
    (visited attributeSet).flatMap (fun a => 32 :: printAttribute cstr a) ++
    match children with
    | [] => ascii [' ', '/', '>']
    | [.text v cdata] =>
        [62] ++ printText (depth + 1) v cdata ++ ascii ['<', '/'] ++ cstr value ++ [62]
    | _ =>
        [62] ++ lines ++ [10] ++ indentation depth ++ ascii ['<', '/'] ++ cstr value ++ [62]

mutual

/-- `Print` of a node to a file. -/
def Print (depth : Nat) : TiXmlNode → Bytes
  | .element value attributeSet children =>
      printElement depth value attributeSet children (PrintChildren (depth + 1) children)
  | .comment value =>
      indentation depth ++ ascii ['<', '!', '-', '-'] ++ cstr value ++ ascii ['-', '-', '>']
  | .unknown value => indentation depth ++ [60] ++ cstr value ++ [62]
  | .text value cdata => printText depth value cdata
  | .declaration version encoding standalone => printDeclaration cstr version encoding standalone

/-- The children of an element with more than a text, where all but a text begin a line. -/
def PrintChildren (depth : Nat) : List TiXmlNode → Bytes
  | [] => []
  | node :: nodes =>
      (if isTextNode node then [] else [10]) ++ Print depth node ++ PrintChildren depth nodes

end

/-- `TiXmlDocument::Print` at depth 0. -/
def TiXmlDocument.Print (children : List TiXmlNode) : Bytes :=
  children.flatMap fun node => TinyXml.Print 0 node ++ [10]

/-! ## Files -/

/-- What `SaveFile` writes. -/
def TiXmlDocument.SaveFile (doc : TiXmlDocument) : Bytes :=
  (if doc.useMicrosoftBOM then [0xef, 0xbb, 0xbf] else []) ++ TiXmlDocument.Print doc.children

/-- The loop of `LoadFile` over its buffer, which a null byte ends: a carriage return becomes a
line feed, with the line feed behind it. -/
def normalizeLines : Bytes → Bytes
  | [] => []
  | [c] => if c = 0 then [] else if c = 13 then [10] else [c]
  | c :: d :: s =>
      if c = 0 then []
      else if c = 13 then
        if d = 10 then 10 :: normalizeLines s else 10 :: normalizeLines (d :: s)
      else c :: normalizeLines (d :: s)

/-- `LoadFile` of a file with these bytes: whether it succeeds, and the document. -/
def TiXmlDocument.LoadFile (condenseWhiteSpace : Bool) (doc : TiXmlDocument) (file : Bytes)
    (encoding : TiXmlEncoding) : Except Fault (Bool × TiXmlDocument) := do
  let doc := { doc with children := [] }
  if file = [] then
    .ok (false, { doc with error := SetError .documentEmpty doc.error })
  else
    let (_, doc) ← doc.Parse condenseWhiteSpace (some (normalizeLines file)) encoding
    .ok (doc.error = none, doc)

/-! ## Printing to a string -/

structure TiXmlPrinter where
  depth : Nat
  simpleTextPrint : Bool
  buffer : Bytes
  indent : Bytes
  lineBreak : Bytes
deriving Repr

namespace TiXmlPrinter

def write (printer : TiXmlPrinter) (s : Bytes) : TiXmlPrinter :=
  { printer with buffer := printer.buffer ++ s }

def DoIndent (printer : TiXmlPrinter) : TiXmlPrinter :=
  printer.write (List.replicate printer.depth printer.indent).flatten

def DoLineBreak (printer : TiXmlPrinter) : TiXmlPrinter := printer.write printer.lineBreak

/-- `VisitEnter` of an element. -/
def VisitEnter (printer : TiXmlPrinter) (value : Bytes) (attributeSet : List TiXmlAttribute)
    (children : List TiXmlNode) : TiXmlPrinter :=
  let printer := printer.DoIndent.write ([60] ++ cstr value ++
    (visited attributeSet).flatMap fun a => 32 :: printAttribute id a)
  let printer :=
    match children with
    | [] => (printer.write (ascii [' ', '/', '>'])).DoLineBreak
    | [.text _ false] => { printer.write [62] with simpleTextPrint := true }
    | _ => (printer.write [62]).DoLineBreak
  { printer with depth := printer.depth + 1 }

/-- `VisitExit` of an element. -/
def VisitExit (printer : TiXmlPrinter) (value : Bytes) (children : List TiXmlNode) :
    TiXmlPrinter :=
  let printer := { printer with depth := printer.depth - 1 }
  if children = [] then printer
  else
    let printer :=
      if printer.simpleTextPrint then { printer with simpleTextPrint := false }
      else printer.DoIndent
    (printer.write (ascii ['<', '/'] ++ cstr value ++ [62])).DoLineBreak

/-- `Visit` of a text. -/
def VisitText (printer : TiXmlPrinter) (value : Bytes) (cdata : Bool) : TiXmlPrinter :=
  if cdata then
    (printer.DoIndent.write (ascii ['<', '!', '[', 'C', 'D', 'A', 'T', 'A', '['] ++ cstr value ++
      ascii [']', ']', '>'])).DoLineBreak
  else if printer.simpleTextPrint then printer.write (EncodeString value)
  else (printer.DoIndent.write (EncodeString value)).DoLineBreak

/-- `Visit` of a node that is printed on a line of its own. -/
def VisitLine (printer : TiXmlPrinter) (s : Bytes) : TiXmlPrinter :=
  (printer.DoIndent.write s).DoLineBreak

mutual

/-- `Accept` of a node by the printer. -/
def Accept (printer : TiXmlPrinter) : TiXmlNode → TiXmlPrinter
  | .element value attributeSet children =>
      (AcceptAll (printer.VisitEnter value attributeSet children) children).VisitExit value children
  | .comment value => printer.VisitLine (ascii ['<', '!', '-', '-'] ++ cstr value ++
      ascii ['-', '-', '>'])
  | .unknown value => printer.VisitLine ([60] ++ cstr value ++ [62])
  | .text value cdata => printer.VisitText value cdata
  | .declaration version encoding standalone =>
      printer.VisitLine (printDeclaration id version encoding standalone)

def AcceptAll (printer : TiXmlPrinter) : List TiXmlNode → TiXmlPrinter
  | [] => printer
  | node :: nodes => AcceptAll (Accept printer node) nodes

end

end TiXmlPrinter

end TinyXml

end CommonCc
