import CommonCc.Lib.SortedMap
import CommonCc.StdString

/-!
# HTTP messages

`CHttpRequest` and `CHttpResponse` as the text they are written to and read from.
-/

namespace CommonCc

def LF : Bytes := [10]

def CRLF : Bytes := [13, 10]

def COLON : Bytes := [58]

def SPACE : Bytes := [32]

abbrev HttpHeader := SortedMap Bytes Bytes

namespace Http

/-! ## Header lines -/

/-- A line of the header; one without a colon is passed over. -/
def parseLine (m_header : HttpHeader) (line : Bytes) : Except Fault HttpHeader :=
  match find line COLON 0 with
  | none => .ok m_header
  | some p => do
      let key ← substrTo line 0 (some p)
      let value ← substr line (p + 2)
      .ok (m_header.set key value)

/-- The last line of the header of a response, which is not checked for a colon. -/
def parseLastLine (m_header : HttpHeader) (line : Bytes) : Except Fault HttpHeader := do
  let p := find line COLON 0
  let key ← substrTo line 0 p
  let value ← substr line (posAdd p 2)
  .ok (m_header.set key value)

/-- The loop of `ParseHeader`, with `last` for the line that no line end follows. -/
def parseLines (last : HttpHeader → Bytes → Except Fault HttpHeader) (headers split : Bytes) :
    Nat → HttpHeader → Nat → Option Nat → Except Fault HttpHeader
  | 0, _, _, _ => .error .diverges
  | _ + 1, m_header, pos, none => do
      let line ← substr headers pos
      last m_header line
  | n + 1, m_header, pos, some pos1 => do
      let line ← substrTo headers pos (some pos1)
      let m_header ← parseLine m_header line
      let pos := pos1 + split.length
      parseLines last headers split n m_header pos (find headers split pos)

/-- `ParseHeader` of both classes. -/
def parseHeader (last : HttpHeader → Bytes → Except Fault HttpHeader) (m_header : HttpHeader)
    (headers : Bytes) : Except Fault HttpHeader :=
  match find headers CRLF 0 with
  | none => parseLines last headers LF (headers.length + 1) m_header 0 (find headers LF 0)
  | some pos1 => parseLines last headers CRLF (headers.length + 1) m_header 0 (some pos1)

/-! ## The parts of a message -/

/-- Where the start line ends. -/
def startLineEnd (content : Bytes) : Option Nat :=
  match find content CRLF 0 with
  | some pos => some pos
  | none => find content LF 0

/-- Where the blank line is found, and the body behind it.  There is a line end at this
point, so the check for one says nothing. -/
def splitBody (content : Bytes) : Except Fault (Option Nat × Bytes) :=
  match find content (CRLF ++ CRLF) 0 with
  | some pos1 => do
      let m_body ← substr content (pos1 + 4)
      .ok (some pos1, m_body)
  | none => do
      let pos1 := find content (LF ++ LF) 0
      let m_body ← substr content (posAdd pos1 2)
      .ok (pos1, m_body)

/-- Where the header starts. -/
def headerStart (content : Bytes) : Nat :=
  match find content CRLF 0 with
  | none => posAdd (find content LF 0) 1
  | some pos => pos + 2

/-- The lines of the header as they are written. -/
def headerText (m_header : HttpHeader) : Bytes :=
  m_header.pairs.flatMap fun it => it.1 ++ (COLON ++ SPACE) ++ it.2 ++ CRLF

end Http

/-! ## Requests -/

structure CHttpRequest where
  m_header : HttpHeader
  m_params : SortedMap Bytes Bytes
  m_method : Bytes
  m_uri : Bytes
  m_body : Bytes

namespace CHttpRequest

def new : CHttpRequest where
  m_header := .empty
  m_params := .empty
  m_method := ascii ['G', 'E', 'T']
  m_uri := ascii ['/']
  m_body := []

/-- One `key=value`. -/
def parseParam (m_params : SortedMap Bytes Bytes) (kv : Bytes) :
    Except Fault (SortedMap Bytes Bytes) :=
  match find kv (ascii ['=']) 0 with
  | none => .ok m_params
  | some p => do
      let key ← substrTo kv 0 (some p)
      let value ← substr kv (p + 1)
      .ok (m_params.set key value)

/-- The loop of `ParseParams`. -/
def parseParams (param : Bytes) : Nat → SortedMap Bytes Bytes → Nat → Option Nat →
    Except Fault (SortedMap Bytes Bytes)
  | 0, _, _, _ => .error .diverges
  | _ + 1, m_params, pos1, none => do
      let kv ← substr param pos1
      parseParam m_params kv
  | n + 1, m_params, pos1, some pos2 => do
      let kv ← substrTo param pos1 (some pos2)
      let m_params ← parseParam m_params kv
      parseParams param n m_params (pos2 + 1) (find param (ascii ['&']) (pos2 + 1))

def ParseParams (r : CHttpRequest) (param : Bytes) : Except Fault CHttpRequest := do
  let m_params ← parseParams param (param.length + 1) r.m_params 0 (find param (ascii ['&']) 0)
  .ok { r with m_params := m_params }

def ParseStartLine (r : CHttpRequest) (start_line : Bytes) : Except Fault CHttpRequest :=
  match find start_line SPACE 0 with
  | none => .ok r
  | some pos => do
      let m_method ← substrTo start_line 0 (some pos)
      match find start_line SPACE (pos + 1) with
      | none => .ok { r with m_method := m_method }
      | some pos1 => do
          let m_uri ← substrTo start_line (pos + 1) (some pos1)
          match find m_uri (ascii ['?']) 0 with
          | none => .ok { r with m_method := m_method, m_uri := m_uri }
          | some pos => do
              let param ← substr m_uri (pos + 1)
              let r ← { r with m_method := m_method }.ParseParams param
              let m_uri ← substrTo m_uri 0 (some pos)
              .ok { r with m_uri := m_uri }

def ParseHeader (r : CHttpRequest) (headers : Bytes) : Except Fault CHttpRequest := do
  let m_header ← Http.parseHeader Http.parseLine r.m_header headers
  .ok { r with m_header := m_header }

def Parse (r : CHttpRequest) (content : Bytes) : Except Fault CHttpRequest :=
  let r := { r with m_header := .empty, m_params := .empty }
  match Http.startLineEnd content with
  | none => .ok r
  | some pos => do
      let start_line ← substrTo content 0 (some pos)
      let r ← r.ParseStartLine start_line
      let (pos1, m_body) ← Http.splitBody content
      let header ← substrTo content (Http.headerStart content) pos1
      { r with m_body := m_body }.ParseHeader header

def ToString (r : CHttpRequest) : Bytes :=
  r.m_method ++ SPACE ++ r.m_uri ++ ascii [' ', 'H', 'T', 'T', 'P', '/', '1', '.', '1'] ++ CRLF ++
    Http.headerText r.m_header ++ CRLF ++ r.m_body

def SetUri (r : CHttpRequest) (uri : Bytes) : CHttpRequest := { r with m_uri := uri }

def SetMethod (r : CHttpRequest) (method : Bytes) : CHttpRequest := { r with m_method := method }

def SetHeader (r : CHttpRequest) (key value : Bytes) : CHttpRequest :=
  { r with m_header := r.m_header.set key value }

def SetBody (r : CHttpRequest) (body : Bytes) : CHttpRequest := { r with m_body := body }

end CHttpRequest

/-! ## Responses -/

structure CHttpResponse where
  m_ret_code : Bytes
  m_ret_msg : Bytes
  m_http_version : Bytes
  m_header : HttpHeader
  m_body : Bytes

namespace CHttpResponse

def new : CHttpResponse where
  m_ret_code := ascii ['2', '0', '0']
  m_ret_msg := ascii ['O', 'K']
  m_http_version := ascii ['H', 'T', 'T', 'P', '/', '1', '.', '1']
  m_header := .empty
  m_body := []

def ParseStartLine (r : CHttpResponse) (start_line : Bytes) : Except Fault CHttpResponse :=
  match find start_line SPACE 0 with
  | none => .ok r
  | some pos => do
      let m_http_version ← substrTo start_line 0 (some pos)
      match find start_line SPACE (pos + 1) with
      | none => .ok { r with m_http_version := m_http_version }
      | some pos1 => do
          let m_ret_code ← substrTo start_line (pos + 1) (some pos1)
          let m_ret_msg ← substr start_line (pos1 + 1)
          .ok { r with
            m_http_version := m_http_version
            m_ret_code := m_ret_code
            m_ret_msg := m_ret_msg }

def ParseHeader (r : CHttpResponse) (headers : Bytes) : Except Fault CHttpResponse := do
  let m_header ← Http.parseHeader Http.parseLastLine r.m_header headers
  .ok { r with m_header := m_header }

/-- The header of an earlier message is not cleared. -/
def Parse (r : CHttpResponse) (content : Bytes) : Except Fault CHttpResponse :=
  match Http.startLineEnd content with
  | none => .ok r
  | some pos => do
      let start_line ← substrTo content 0 (some pos)
      let r ← r.ParseStartLine start_line
      let (pos1, m_body) ← Http.splitBody content
      let header ← substrTo content (Http.headerStart content) pos1
      { r with m_body := m_body }.ParseHeader header

def SetHttpVersion (r : CHttpResponse) (http_version : Bytes) : CHttpResponse :=
  { r with m_http_version := http_version }

def SetRetCode (r : CHttpResponse) (ret_code ret_msg : Bytes) : CHttpResponse :=
  { r with m_ret_code := ret_code, m_ret_msg := ret_msg }

def SetHeader (r : CHttpResponse) (key value : Bytes) : CHttpResponse :=
  { r with m_header := r.m_header.set key value }

def SetBody (r : CHttpResponse) (body : Bytes) : CHttpResponse :=
  { r with
    m_body := body
    m_header := r.m_header.set
      (ascii ['C', 'o', 'n', 't', 'e', 'n', 't', '-', 'L', 'e', 'n', 'g', 't', 'h'])
      (decimal body.length) }

def ToString (r : CHttpResponse) : Bytes :=
  r.m_http_version ++ SPACE ++ r.m_ret_code ++ SPACE ++ r.m_ret_msg ++ CRLF ++
    Http.headerText r.m_header ++ CRLF ++ r.m_body

end CHttpResponse

end CommonCc
