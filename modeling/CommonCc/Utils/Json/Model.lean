import CommonCc.Base
import CommonCc.Lib.Replace
import CommonCc.Lib.SortedMap

/-!
# JSON values

The tree, its printer and its parser.  The parser reads a C string: `index` is the
suffix of the buffer that it points to, and a read at the empty suffix leaves the
buffer.  The conversions of `double` are a parameter.
-/

namespace CommonCc

inductive JsonType where
  | unknown
  | integer
  | real
  | string
  | boolean
  | array
  | object
deriving DecidableEq

/-- The values of `json_type_t`. -/
def JsonType.code : JsonType → Int
  | .unknown => 1
  | .integer => 2
  | .real => 3
  | .string => 4
  | .boolean => 5
  | .array => 6
  | .object => 7

/-- A value with the payload of its type; the members of an object are in the order of
their keys. -/
inductive Json (δ : Type) where
  | unknown
  | integer (m_i_value : Int)
  | real (m_d_value : δ)
  | string (m_str_value : Bytes)
  | boolean (m_b_value : Bool)
  | array (m_array : List (Json δ))
  | object (m_object : List (Bytes × Json δ))

/-- `%f` of `sprintf`, and `atof`. -/
structure DoubleText (δ : Type) where
  format : δ → Bytes
  atof : Bytes → δ

namespace Json

variable {δ : Type}

def nullText : Bytes := ascii ['n', 'u', 'l', 'l']
def trueText : Bytes := ascii ['t', 'r', 'u', 'e']
def falseText : Bytes := ascii ['f', 'a', 'l', 's', 'e']

/-! ## Escapes -/

/-- One of the loops of `encode` and `decode`. -/
def replacePass (pat rep src : Bytes) : Bytes := replaceLoop pat rep (src.length + 1) src 0

def encode (src : Bytes) : Bytes :=
  let src := replacePass [92] [92, 92] src
  let src := replacePass [13] [92, 114] src
  let src := replacePass [10] [92, 110] src
  replacePass [34] [92, 34] src

def decode (src : Bytes) : Bytes :=
  let src := replacePass [92, 34] [34] src
  let src := replacePass [92, 114] [13] src
  let src := replacePass [92, 110] [10] src
  replacePass [92, 92] [92] src

/-! ## The printer -/

mutual

def ToString (D : DoubleText δ) (quote : Bool) : Json δ → Bytes
  | .unknown => nullText
  | .integer m_i_value => printLong m_i_value
  | .real m_d_value => D.format m_d_value
  | .string m_str_value => [34] ++ encode m_str_value ++ [34]
  | .boolean m_b_value => if m_b_value then trueText else falseText
  | .array m_array => [91] ++ elements D quote true m_array ++ [93]
  | .object m_object => [123] ++ members D quote true m_object ++ [125]

def elements (D : DoubleText δ) (quote first : Bool) : List (Json δ) → Bytes
  | [] => []
  | ref :: l =>
      (if first then [] else [44]) ++ ToString D quote ref ++ elements D quote false l

def members (D : DoubleText δ) (quote first : Bool) : List (Bytes × Json δ) → Bytes
  | [] => []
  | (name, ref) :: l =>
      (if first then [] else [44]) ++
        (if quote then [34] ++ encode name ++ [34, 58] else name ++ [58]) ++
        ToString D quote ref ++ members D quote false l

end

/-! ## Tokens -/

/-- Why parsing ends without a value. -/
inductive Stop where
  | thrown (message : Bytes)
  | fault (f : Fault)
deriving DecidableEq

/-- What `Token` returns, with the type and the truth value it leaves in the object. -/
structure TokenResult where
  token : Int
  ord : Bytes
  m_type : JsonType
  m_b_value : Bool
  index : Bytes
deriving DecidableEq

/-- `char` is signed. -/
def signedChar (c : UInt8) : Int := if c < 128 then c.toNat else (c.toNat : Int) - 256

def isBlank (c : UInt8) : Bool := c = 32 || c = 9 || c = 13 || c = 10

def isNumberChar (c : UInt8) : Bool := isDigit c || c = 46

/-- The loop over a string up to its closing quote or the end of the text. -/
def scanString : Bool → Bytes → Except Stop (Bytes × Bytes)
  | _, [] => .error (.fault .outOfBounds)
  | ign, c :: s =>
      if c ≠ 0 ∧ (ign ∨ c ≠ 34) then do
        let (ord, index) ← scanString (if ign then false else c = 92) s
        return (c :: ord, index)
      else .ok ([], c :: s)

/-- The token that starts with the character `c`, once the blanks before it are skipped. -/
def tokenAt (c : UInt8) (s : Bytes) : Except Stop TokenResult :=
  if c = 45 ∨ isDigit c then
    let number := if c = 45 then s else c :: s
    let ord := number.takeWhile isNumberChar
    let m_type := if 46 ∈ ord then JsonType.real else JsonType.integer
    match number.dropWhile isNumberChar with
    | [] => .error (.fault .outOfBounds)
    | d :: rest =>
        .ok ⟨-m_type.code, (if c = 45 then [45] else []) ++ ord, m_type, false, d :: rest⟩
  else if c = 34 then do
    let (ord, rest) ← scanString false s
    return ⟨-JsonType.string.code, decode ord, .string, false, rest.drop 1⟩
  else if nullText <+: c :: s then
    .ok ⟨-JsonType.unknown.code, nullText, .unknown, false, (c :: s).drop 4⟩
  else if trueText <+: c :: s then
    .ok ⟨-JsonType.boolean.code, trueText, .boolean, true, (c :: s).drop 4⟩
  else if falseText <+: c :: s then
    .ok ⟨-JsonType.boolean.code, falseText, .boolean, false, (c :: s).drop 5⟩
  else .ok ⟨signedChar c, [], .unknown, false, s⟩

/-- `Token` on a new object. -/
def Token (index : Bytes) : Except Stop TokenResult :=
  match index.dropWhile isBlank with
  | [] => .error (.fault .outOfBounds)
  | c :: s => tokenAt c s

/-! ## The parser -/

/-- The object after the token of a value: its type and the payload of that type. -/
def TokenResult.value (D : DoubleText δ) (t : TokenResult) : Json δ :=
  match t.m_type with
  | .real => .real (D.atof t.ord)
  | .integer => .integer (atoi t.ord)
  | .string => .string t.ord
  | .boolean => .boolean t.m_b_value
  | _ => .unknown

/-- `std::string(&buffer[index])`. -/
def cString (index : Bytes) : Except Stop Bytes :=
  if 0 ∈ index then .ok (index.takeWhile (· ≠ 0)) else .error (.fault .outOfBounds)

def throwText {α : Type} (message : List Char) (rest : Bytes) : Except Stop α :=
  .error (.thrown (ascii message ++ rest))

mutual

/-- `Parse` on a new object: the character returned, the object and the index. -/
def parse (D : DoubleText δ) : Nat → Bytes → Except Stop (UInt8 × Json δ × Bytes)
  | 0, _ => .error (.fault .diverges)
  | fuel + 1, index => do
      let t ← Token index
      if t.token = -JsonType.real.code ∨ t.token = -JsonType.integer.code ∨
          t.token = -JsonType.string.code ∨ t.token = -JsonType.unknown.code ∨
          t.token = -JsonType.boolean.code then
        return (0, t.value D, t.index)
      else if t.token = 91 then parseArray D fuel t.index []
      else if t.token = 93 then return (93, .unknown, t.index)
      else if t.token = 123 then parseObject D fuel t.index 0 [] []
      else if t.token = 125 then return (125, .unknown, t.index)
      else if t.token = 44 then return (44, .unknown, t.index)
      else if t.token = 58 then return (58, .unknown, t.index)
      else do
        let rest ← cString t.index
        throwText "Can't parse Json representation: ".toList rest

/-- The loop over the elements of an array. -/
def parseArray (D : DoubleText δ) :
    Nat → Bytes → List (Json δ) → Except Stop (UInt8 × Json δ × Bytes)
  | 0, _, _ => .error (.fault .diverges)
  | fuel + 1, index, m_array => do
      let (res, o, index) ← parse D fuel index
      if res = 0 then parseArray D fuel index (m_array ++ [o])
      else if res = 93 then return (0, .array m_array, index)
      else if res = 44 then parseArray D fuel index m_array
      else throwText "Unexpected end of Array: ".toList [res]

/-- The loop over the members of an object, by the state it is in. -/
def parseObject (D : DoubleText δ) :
    Nat → Bytes → (state : Nat) → (element_name : Bytes) → List (Bytes × Json δ) →
      Except Stop (UInt8 × Json δ × Bytes)
  | 0, _, _, _, _ => .error (.fault .diverges)
  | fuel + 1, index, state, element_name, m_object => do
      let (res, o, index) ← parse D fuel index
      match state with
      | 0 =>
          if res = 44 then parseObject D fuel index 0 element_name m_object
          else if res = 125 then return (0, .object m_object, index)
          else
            match res, o with
            | 0, .string m_str_value => parseObject D fuel index 1 m_str_value m_object
            | _, _ => throwText "Object element name missing".toList []
      | 1 =>
          if res ≠ 58 then throwText "Object element separator missing".toList []
          else parseObject D fuel index 2 element_name m_object
      | _ =>
          if res ≠ 0 then
            throwText "Unexpected character when parsing anytype: ".toList [res]
          else parseObject D fuel index 0 element_name (insertOrAssign element_name o m_object)

end

/-- `Parse` from the start of a buffer.  Every call of `Token` takes at least one character,
so two steps for each character are enough. -/
def parseBuffer (D : DoubleText δ) (buffer : Bytes) : Except Stop (Json δ) := do
  let (_, obj, _) ← parse D (2 * buffer.length + 1) buffer
  return obj

/-- The static `Parse`. -/
def Parse (D : DoubleText δ) (data : Bytes) : Except Stop (Json δ) := parseBuffer D (data ++ [0])

end Json

end CommonCc
