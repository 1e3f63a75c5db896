import CommonCc.Base

/-!
# Characters, names and texts

A `const char*` into a text that ends with a null byte is what is left of the text, without
the null byte, and `none` is the null pointer.  A text itself may hold null bytes, as a
`TiXmlString` may.
-/

namespace CommonCc

namespace TinyXml

inductive TiXmlEncoding where
  | unknown
  | utf8
  | legacy
deriving Repr, DecidableEq

/-! ## White space -/

def IsWhiteSpace (c : UInt8) : Bool := isSpace c || c = 10 || c = 13

/-- The byte order mark and the two non-characters that are white space in UTF-8. -/
def isLeadMark (a b c : UInt8) : Bool :=
  a = 0xef && ((b = 0xbb && c = 0xbf) || (b = 0xbf && c = 0xbe) || (b = 0xbf && c = 0xbf))

/-- The loop of `SkipWhiteSpace` over UTF-8. -/
def skipUtf8 : Bytes → Bytes
  | [] => []
  | [a] => if IsWhiteSpace a then [] else [a]
  | [a, b] => if IsWhiteSpace a then skipUtf8 [b] else [a, b]
  | a :: b :: c :: s =>
      if isLeadMark a b c then skipUtf8 s
      else if IsWhiteSpace a then skipUtf8 (b :: c :: s)
      else a :: b :: c :: s

/-- `SkipWhiteSpace`. -/
def SkipWhiteSpace (p : Option Bytes) (encoding : TiXmlEncoding) : Option Bytes :=
  match p with
  | none => none
  | some [] => none
  | some (c :: s) =>
      if encoding = .utf8 then some (skipUtf8 (c :: s))
      else some ((c :: s).dropWhile IsWhiteSpace)

/-! ## Names -/

/-- `IsAlpha`.  From 127 on every byte counts as a letter. -/
def IsAlpha (anyByte : UInt8) : Bool :=
  if anyByte < 127 then (65 ≤ anyByte && anyByte ≤ 90) || (97 ≤ anyByte && anyByte ≤ 122)
  else true

def IsAlphaNum (anyByte : UInt8) : Bool :=
  if anyByte < 127 then IsAlpha anyByte || isDigit anyByte else true

/-- What a name begins with. -/
def startsName (c : UInt8) : Bool := IsAlpha c || c = 95

/-- What a name goes on with. -/
def inName (c : UInt8) : Bool := IsAlphaNum c || c = 95 || c = 45 || c = 46 || c = 58

/-- `ReadName`: the name, and where it ends. -/
def ReadName (p : Bytes) : Bytes × Option Bytes :=
  match p with
  | [] => ([], none)
  | c :: s =>
      if startsName c then ((c :: s).takeWhile inName, some ((c :: s).dropWhile inName))
      else ([], none)

/-! ## Comparisons -/

def tolower (c : UInt8) : UInt8 := if 65 ≤ c && c ≤ 90 then c + 32 else c

/-- `StringEqual`: the text goes on with the tag.  A text that is null or empty fails an
assertion. -/
def StringEqual (p : Option Bytes) (tag : Bytes) (ignoreCase : Bool) : Except Fault Bool :=
  match p with
  | none => .error .assertion
  | some [] => .error .assertion
  | some (c :: s) =>
      if ignoreCase then .ok ((tag.map tolower).isPrefixOf ((c :: s).map tolower))
      else .ok (tag.isPrefixOf (c :: s))

/-! ## Characters -/

/-- `utf8ByteTable`: how many bytes a character has that begins with this one. -/
def utf8ByteTable (c : UInt8) : Nat :=
  if c < 0xc2 then 1
  else if c < 0xe0 then 2
  else if c < 0xf0 then 3
  else if c < 0xf5 then 4
  else 1

/-- A byte of a character behind the first one. -/
def markByte (input : Nat) : UInt8 := ((input ||| 0x80) &&& 0xbf).toUInt8

/-- `FIRST_BYTE_MARK`. -/
def firstByteMark : Nat → Nat
  | 2 => 0xc0
  | 3 => 0xe0
  | 4 => 0xf0
  | 5 => 0xf8
  | 6 => 0xfc
  | _ => 0

def firstByte (input length : Nat) : UInt8 := (input ||| firstByteMark length).toUInt8

/-- `ConvertUTF32ToUTF8`.  The bytes are written from the last one to the first. -/
def ConvertUTF32ToUTF8 (input : Nat) : Bytes :=
  if input < 0x80 then [firstByte input 1]
  else if input < 0x800 then [firstByte (input >>> 6) 2, markByte input]
  else if input < 0x10000 then
    [firstByte (input >>> 6 >>> 6) 3, markByte (input >>> 6), markByte input]
  else if input < 0x200000 then
    [firstByte (input >>> 6 >>> 6 >>> 6) 4, markByte (input >>> 6 >>> 6), markByte (input >>> 6),
      markByte input]
  else []

/-! ## Entities -/

structure Entity where
  str : Bytes
  chr : UInt8

/-- `TiXmlBase::entity`. -/
def entity : List Entity :=
  [⟨ascii ['&', 'a', 'm', 'p', ';'], 38⟩,
   ⟨ascii ['&', 'l', 't', ';'], 60⟩,
   ⟨ascii ['&', 'g', 't', ';'], 62⟩,
   ⟨ascii ['&', 'q', 'u', 'o', 't', ';'], 34⟩,
   ⟨ascii ['&', 'a', 'p', 'o', 's', ';'], 39⟩]

def decimalDigit (c : UInt8) : Option Nat :=
  if 48 ≤ c && c ≤ 57 then some (c.toNat - 48) else none

def hexadecimalDigit (c : UInt8) : Option Nat :=
  if 48 ≤ c && c ≤ 57 then some (c.toNat - 48)
  else if 97 ≤ c && c ≤ 102 then some (c.toNat - 97 + 10)
  else if 65 ≤ c && c ≤ 70 then some (c.toNat - 65 + 10)
  else none

/-- The loop over the digits of a reference, from the last one on to the character in front of
them.  `mult` is an `unsigned` and `ucs` an `unsigned long`. -/
def referenceValue (base : Nat) (digit : UInt8 → Option Nat) (stop : UInt8) :
    Bytes → Nat → Nat → Option Nat
  | [], _, ucs => some ucs
  | c :: s, mult, ucs =>
      if c = stop then some ucs
      else
        match digit c with
        | none => none
        | some d => referenceValue base digit stop s (u32 (mult * base)) (u64 (ucs + u32 (mult * d)))

/-- What a reference stands for. -/
def referenceChar (encoding : TiXmlEncoding) (ucs : Nat) : Bytes :=
  if encoding = .utf8 then ConvertUTF32ToUTF8 ucs else [ucs.toUInt8]

/-- A reference whose digits begin here. -/
def GetReference (base : Nat) (digit : UInt8 → Option Nat) (stop : UInt8)
    (encoding : TiXmlEncoding) (p : Bytes) : Bytes × Option Bytes :=
  match p.dropWhile (· ≠ 59) with
  | [] => ([], none)
  | _ :: rest =>
      match referenceValue base digit stop (p.takeWhile (· ≠ 59)).reverse 1 0 with
      | none => ([], none)
      | some ucs => (referenceChar encoding ucs, some rest)

/-- `GetEntity` at an ampersand: the bytes that it stands for, and where it ends.  An ampersand
that begins no entity stands for nothing. -/
def GetEntity (p : Bytes) (encoding : TiXmlEncoding) : Bytes × Option Bytes :=
  match p with
  | _ :: 35 :: c :: s =>
      if c = 120 then
        if s = [] then ([], none) else GetReference 16 hexadecimalDigit 120 encoding s
      else GetReference 10 decimalDigit 35 encoding (c :: s)
  | p =>
      match entity.find? fun e => e.str.isPrefixOf p with
      | some e => ([e.chr], some (p.drop e.str.length))
      | none => ([], some (p.drop 1))

/-- `GetChar`.  A character that the end of the text cuts off takes the pointer behind the
null byte. -/
def GetChar (p : Bytes) (encoding : TiXmlEncoding) : Except Fault (Bytes × Option Bytes) :=
  match p with
  | [] => .error .outOfBounds
  | c :: s =>
      let length := if encoding = .utf8 then utf8ByteTable c else 1
      if length = 1 then
        if c = 38 then .ok (GetEntity (c :: s) encoding) else .ok ([c], some s)
      else if length ≤ (c :: s).length then
        .ok ((c :: s).take length, some ((c :: s).drop length))
      else .error .outOfBounds

/-! ## Texts -/

/-- A pointer that is neither null nor at the end of the text. -/
def ifMore (p : Bytes) : Option Bytes := if p = [] then none else some p

/-- The loop of `ReadText` that keeps the white space. -/
def keepText (endTag : Bytes) (encoding : TiXmlEncoding) :
    Nat → Option Bytes → Bytes → Except Fault (Bytes × Option Bytes)
  | _, none, text => .ok (text, none)
  | _, some [], text => .ok (text, some [])
  | fuel, some (c :: s), text => do
      if ← StringEqual (some (c :: s)) endTag false then .ok (text, some (c :: s))
      else
        match fuel with
        | 0 => .error .diverges
        | fuel + 1 =>
            let (cArr, p) ← GetChar (c :: s) encoding
            keepText endTag encoding fuel p (text ++ cArr)

/-- The loop of `ReadText` that turns white space into a single blank. -/
def condenseText (endTag : Bytes) (encoding : TiXmlEncoding) :
    Nat → Bool → Option Bytes → Bytes → Except Fault (Bytes × Option Bytes)
  | _, _, none, text => .ok (text, none)
  | _, _, some [], text => .ok (text, some [])
  | fuel, whitespace, some (c :: s), text => do
      if ← StringEqual (some (c :: s)) endTag false then .ok (text, some (c :: s))
      else
        match fuel with
        | 0 => .error .diverges
        | fuel + 1 =>
            if c = 13 || c = 10 then condenseText endTag encoding fuel true (some s) text
            else if IsWhiteSpace c then condenseText endTag encoding fuel true (some s) text
            else
              let text := if whitespace then text ++ [32] else text
              let (cArr, p) ← GetChar (c :: s) encoding
              condenseText endTag encoding fuel false p (text ++ cArr)

/-- How many bytes are left. -/
def bytesLeft (p : Option Bytes) : Nat := (p.getD []).length

/-- The pointer that `ReadText` returns. -/
def behindTag (endTag : Bytes) (p : Option Bytes) : Option Bytes :=
  match p with
  | none => none
  | some [] => none
  | some (c :: s) => ifMore ((c :: s).drop endTag.length)

/-- `ReadText`, which no caller asks to ignore the case of the end tag: the text, and what is
behind the end tag. -/
def ReadText (condenseWhiteSpace : Bool) (p : Option Bytes) (trimWhiteSpace : Bool)
    (endTag : Bytes) (encoding : TiXmlEncoding) : Except Fault (Bytes × Option Bytes) := do
  if !trimWhiteSpace || !condenseWhiteSpace then
    let (text, p) ← keepText endTag encoding (bytesLeft p) p []
    .ok (text, behindTag endTag p)
  else
    let p := SkipWhiteSpace p encoding
    let (text, p) ← condenseText endTag encoding (bytesLeft p) false p []
    .ok (text, behindTag endTag p)

/-! ## Encoding -/

/-- A digit of `%X`. -/
def upperHexDigit (n : Nat) : UInt8 := if n < 10 then (48 + n).toUInt8 else (55 + n).toUInt8

/-- `&#x%02X;` of a byte below 32. -/
def escapeByte (c : UInt8) : Bytes :=
  ascii ['&', '#', 'x'] ++ [upperHexDigit (c.toNat / 16), upperHexDigit (c.toNat % 16), 59]

/-- A byte of `EncodeString` outside a reference. -/
def encodeByte (c : UInt8) : Bytes :=
  if c = 38 then ascii ['&', 'a', 'm', 'p', ';']
  else if c = 60 then ascii ['&', 'l', 't', ';']
  else if c = 62 then ascii ['&', 'g', 't', ';']
  else if c = 34 then ascii ['&', 'q', 'u', 'o', 't', ';']
  else if c = 39 then ascii ['&', 'a', 'p', 'o', 's', ';']
  else if c < 32 then escapeByte c
  else [c]

/-- The loop of `EncodeString`.  `within` says that a hexadecimal reference is passed through:
a byte of it is appended, and a semicolon or the last byte of the text ends it. -/
def encodeFrom : Bool → Bytes → Bytes
  | _, [] => []
  | false, c :: s =>
      if c = 38 && (ascii ['#', 'x']).isPrefixOf s then
        c :: encodeFrom true s
      else encodeByte c ++ encodeFrom false s
  | true, c :: s =>
      if c = 59 || s = [] then encodeByte c ++ encodeFrom false s
      else c :: encodeFrom true s

/-- `EncodeString`. -/
def EncodeString (str : Bytes) : Bytes := encodeFrom false str

end TinyXml

end CommonCc
