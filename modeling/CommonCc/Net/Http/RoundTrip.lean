import CommonCc.Net.Http.Lines

/-!
# HTTP messages are read back
-/

namespace CommonCc

namespace Http

/-! ## Written header lines -/

/-- A header line without its line end. -/
def headerLine (p : Bytes × Bytes) : Bytes := p.1 ++ (COLON ++ SPACE) ++ p.2

/-- A pair that can be written as a header line. -/
structure PlainPair (p : Bytes × Bytes) : Prop where
  key : OneLine p.1
  colon : 58 ∉ p.1
  value : OneLine p.2

theorem headerText_eq {m_header : HttpHeader} {p : Bytes × Bytes} {rest : List (Bytes × Bytes)}
    (h : m_header.pairs = p :: rest) :
    headerText m_header = block (headerLine p) (rest.map headerLine) ++ CRLF := by
  rw [← flatMap_lines, ← List.map_cons, ← h, List.flatMap_map]
  rfl

theorem headerLine_text {p : Bytes × Bytes} (hkey : OneLine p.1) (hvalue : OneLine p.2) :
    TextLine (headerLine p) := by
  constructor
  · simp [headerLine, COLON]
  · unfold OneLine at hkey hvalue ⊢
    simp [headerLine, COLON, SPACE, hkey, hvalue]

theorem headerLines_text {l : List (Bytes × Bytes)} (h : ∀ q ∈ l, PlainPair q) :
    ∀ line ∈ l.map headerLine, TextLine line := by
  intro line hline
  obtain ⟨q, hq, rfl⟩ := List.mem_map.mp hline
  exact headerLine_text (h q hq).key (h q hq).value

/-! ## Reading the lines -/

/-- What a handler of the last line has to do to a written line. -/
def SetsPair (last : HttpHeader → Bytes → Except Fault HttpHeader) : Prop :=
  ∀ m p, PlainPair p → last m (headerLine p) = .ok (m.set p.1 p.2)

theorem find_colon {p : Bytes × Bytes} (h : PlainPair p) :
    find (headerLine p) COLON 0 = some p.1.length := by
  have hfind := @find_zero p.1 (SPACE ++ p.2) 58 [] h.colon
  rw [headerLine]
  simpa [COLON, SPACE] using hfind

theorem key_headerLine (p : Bytes × Bytes) :
    substrTo (headerLine p) 0 (some p.1.length) = .ok p.1 := by
  rw [headerLine, List.append_assoc]
  exact substrTo_zero p.1 _

theorem value_headerLine (p : Bytes × Bytes) :
    substr (headerLine p) (p.1.length + 2) = .ok p.2 := by
  have h := substr_append (p.1 ++ (COLON ++ SPACE)) p.2
  rw [List.length_append] at h
  exact h

theorem parseLine_sets : SetsPair parseLine := by
  intro m p h
  rw [parseLine, find_colon h]
  simp only [key_headerLine, value_headerLine]
  rfl

theorem parseLastLine_sets : SetsPair parseLastLine := by
  intro m p h
  rw [parseLastLine, find_colon h]
  simp only [key_headerLine, posAdd, value_headerLine]
  rfl

/-- The loop sets the pairs of the lines that are left. -/
theorem parseLines_block {last : HttpHeader → Bytes → Except Fault HttpHeader}
    (hlast : SetsPair last) {p : Bytes × Bytes} {rest : List (Bytes × Bytes)}
    (h : ∀ q ∈ p :: rest, PlainPair q) (out : Bytes) {n : Nat} (hn : rest.length < n)
    (m : HttpHeader) :
    parseLines last (out ++ block (headerLine p) (rest.map headerLine)) CRLF n m out.length
        (find (out ++ block (headerLine p) (rest.map headerLine)) CRLF out.length) =
      .ok ((p :: rest).foldl (fun m q => m.set q.1 q.2) m) := by
  induction rest generalizing p out n m with
  | nil =>
      have hp : PlainPair p := h p List.mem_cons_self
      cases n with
      | zero => exact absurd hn (Nat.not_lt_zero _)
      | succ n =>
          rw [List.map_nil, block_nil, CRLF,
            find_of_not_mem (headerLine_text hp.key hp.value).oneLine.1, parseLines, substr_append]
          exact hlast m p hp
  | cons q rest ih =>
      have hp : PlainPair p := h p List.mem_cons_self
      cases n with
      | zero => exact absurd hn (Nat.not_lt_zero _)
      | succ n =>
          have hp' := headerLine_text hp.key hp.value
          generalize htail : block (headerLine q) (rest.map headerLine) = tail
          have hnext : out ++ (headerLine p ++ (CRLF ++ tail)) =
              (out ++ headerLine p ++ CRLF) ++ tail := by simp
          have hlen : out.length + (headerLine p).length + CRLF.length =
              (out ++ headerLine p ++ CRLF).length := by
            rw [List.length_append, List.length_append]
          have hrest := ih (p := q) (fun r hr => h r (List.mem_cons_of_mem p hr))
            (out ++ headerLine p ++ CRLF) (n := n) (by simpa using hn) (m.set p.1 p.2)
          rw [htail] at hrest
          have hfind : find (out ++ (headerLine p ++ (CRLF ++ tail))) CRLF out.length =
              some (out.length + (headerLine p).length) := find_append hp'.oneLine.1
          rw [List.map_cons, block_cons, htail, hfind, parseLines, substrTo_append]
          show (parseLine m (headerLine p)).bind _ = _
          rw [parseLine_sets m p hp]
          show parseLines last _ CRLF n (m.set p.1 p.2) (out.length + _ + CRLF.length) _ = _
          rw [hlen, hnext]
          exact hrest

theorem parseHeader_block {last : HttpHeader → Bytes → Except Fault HttpHeader}
    (hlast : SetsPair last) {p : Bytes × Bytes} {rest : List (Bytes × Bytes)}
    (h : ∀ q ∈ p :: rest, PlainPair q) (m : HttpHeader) :
    parseHeader last m (block (headerLine p) (rest.map headerLine)) =
      .ok ((p :: rest).foldl (fun m q => m.set q.1 q.2) m) := by
  have hp : PlainPair p := h p List.mem_cons_self
  have hfuel : rest.length < (block (headerLine p) (rest.map headerLine)).length + 1 :=
    Nat.lt_succ_of_lt (by
      have hlen := @length_block _ (rest.map headerLine)
        (headerLine_text hp.key hp.value).nonempty
      rwa [List.length_map] at hlen)
  have hblock := parseLines_block hlast h [] hfuel m
  rw [List.nil_append, List.length_nil] at hblock
  unfold parseHeader
  cases rest with
  | nil =>
      have hCRLF : find (headerLine p) CRLF 0 = none :=
        find_of_not_mem (a := []) (headerLine_text hp.key hp.value).oneLine.1
      have hLF : find (headerLine p) LF 0 = none :=
        find_of_not_mem (a := []) (headerLine_text hp.key hp.value).oneLine.2
      rw [List.map_nil, block_nil] at hblock ⊢
      rw [hCRLF, parseLines] at hblock
      rw [hCRLF, hLF]
      exact hblock
  | cons q rest =>
      have hfind : find (block (headerLine p) ((q :: rest).map headerLine)) CRLF 0 =
          some (headerLine p).length := by
        rw [List.map_cons, block_cons]
        exact find_zero (headerLine_text hp.key hp.value).oneLine.1
      rw [hfind] at hblock ⊢
      exact hblock

/-- The text that both classes write. -/
theorem message_eq {start body : Bytes} {m_header : HttpHeader} {p : Bytes × Bytes}
    {rest : List (Bytes × Bytes)} (h : m_header.pairs = p :: rest) :
    start ++ CRLF ++ headerText m_header ++ CRLF ++ body =
      message start (headerLine p) (rest.map headerLine) body := by
  rw [headerText_eq h, message]
  simp only [List.append_assoc]

/-- A header that is written and read back. -/
structure PlainHeader (m_header : HttpHeader) : Prop where
  nonempty : m_header.pairs ≠ []
  pairs : ∀ q ∈ m_header.pairs, PlainPair q

theorem parseHeader_written {last : HttpHeader → Bytes → Except Fault HttpHeader}
    (hlast : SetsPair last) {m_header : HttpHeader} {p : Bytes × Bytes}
    {rest : List (Bytes × Bytes)} (hpairs : m_header.pairs = p :: rest) (h : PlainHeader m_header) :
    parseHeader last .empty (block (headerLine p) (rest.map headerLine)) = .ok m_header := by
  have hplain := h.pairs
  rw [hpairs] at hplain
  rw [parseHeader_block hlast hplain, ← hpairs, SortedMap.foldl_set]

end Http

open Http

/-! ## Requests -/

namespace CHttpRequest

/-- What is asked of a request. -/
structure Plain (r : CHttpRequest) : Prop where
  method : OneLine r.m_method
  method_space : 32 ∉ r.m_method
  uri : OneLine r.m_uri
  uri_space : 32 ∉ r.m_uri
  uri_query : 63 ∉ r.m_uri
  header : PlainHeader r.m_header

def version : Bytes := ascii ['H', 'T', 'T', 'P', '/', '1', '.', '1']

variable {r : CHttpRequest}

theorem ParseStartLine_written (h : r.Plain) (s : CHttpRequest) :
    s.ParseStartLine (words r.m_method r.m_uri version) =
      .ok { s with m_method := r.m_method, m_uri := r.m_uri } := by
  have hquery : find r.m_uri (ascii ['?']) 0 = none := find_of_not_mem (a := []) h.uri_query
  rw [ParseStartLine, find_first version h.method_space]
  simp only [bind, Except.bind, first_word, find_second version h.uri_space, second_word, hquery]

theorem Parse_written (h : r.Plain) :
    new.Parse r.ToString = .ok { r with m_params := .empty } := by
  obtain ⟨p, rest, hpairs⟩ := List.exists_cons_of_ne_nil h.header.nonempty
  have hplain := h.header.pairs
  rw [hpairs] at hplain
  have hstart : OneLine (words r.m_method r.m_uri version) :=
    words_oneLine h.method h.uri ⟨by decide, by decide⟩
  have htext : r.ToString = message (words r.m_method r.m_uri version) (headerLine p)
      (rest.map headerLine) r.m_body := by
    rw [← message_eq hpairs, ToString, words, version]
    simp [ascii, SPACE]
  rw [htext, Parse_message hstart (headerLines_text hplain), ParseStartLine_written h]
  show (parseHeader parseLine .empty _).bind _ = _
  rw [parseHeader_written parseLine_sets hpairs h.header]
  rfl

end CHttpRequest

/-! ## Responses -/

namespace CHttpResponse

/-- What is asked of a response. -/
structure Plain (r : CHttpResponse) : Prop where
  version : OneLine r.m_http_version
  version_space : 32 ∉ r.m_http_version
  code : OneLine r.m_ret_code
  code_space : 32 ∉ r.m_ret_code
  reason : OneLine r.m_ret_msg
  header : PlainHeader r.m_header

variable {r : CHttpResponse}

theorem ParseStartLine_written (h : r.Plain) (s : CHttpResponse) :
    s.ParseStartLine (words r.m_http_version r.m_ret_code r.m_ret_msg) =
      .ok { s with
        m_http_version := r.m_http_version
        m_ret_code := r.m_ret_code
        m_ret_msg := r.m_ret_msg } := by
  rw [ParseStartLine, find_first r.m_ret_msg h.version_space]
  simp only [bind, Except.bind, first_word, find_second r.m_ret_msg h.code_space, second_word,
    last_words]

theorem Parse_written (h : r.Plain) : new.Parse r.ToString = .ok r := by
  obtain ⟨p, rest, hpairs⟩ := List.exists_cons_of_ne_nil h.header.nonempty
  have hplain := h.header.pairs
  rw [hpairs] at hplain
  have hstart : OneLine (words r.m_http_version r.m_ret_code r.m_ret_msg) :=
    words_oneLine h.version h.code h.reason
  have htext : r.ToString = message (words r.m_http_version r.m_ret_code r.m_ret_msg)
      (headerLine p) (rest.map headerLine) r.m_body := by
    rw [← message_eq hpairs, ToString, words]
    simp only [List.append_assoc]
  rw [htext, Parse_message hstart (headerLines_text hplain), ParseStartLine_written h]
  show (parseHeader parseLastLine .empty _).bind _ = _
  rw [parseHeader_written parseLastLine_sets hpairs h.header]
  rfl

end CHttpResponse

/-! ## Both classes -/

namespace Http

/-- A message with a header is read back by a new object of its class. -/
theorem messages_read_back {q : CHttpRequest} (hq : q.Plain) {s : CHttpResponse} (hs : s.Plain) :
    (∃ q', CHttpRequest.new.Parse q.ToString = .ok q' ∧ q'.m_method = q.m_method ∧
      q'.m_uri = q.m_uri ∧ q'.m_header = q.m_header ∧ q'.m_body = q.m_body) ∧
    ∃ s', CHttpResponse.new.Parse s.ToString = .ok s' ∧ s'.m_http_version = s.m_http_version ∧
      s'.m_ret_code = s.m_ret_code ∧ s'.m_ret_msg = s.m_ret_msg ∧ s'.m_header = s.m_header ∧
      s'.m_body = s.m_body :=
  ⟨⟨_, CHttpRequest.Parse_written hq, rfl, rfl, rfl, rfl⟩,
    ⟨_, CHttpResponse.Parse_written hs, rfl, rfl, rfl, rfl, rfl⟩⟩

/-- `POST /a` with an empty value in its header and a blank line in its body. -/
def postRequest : CHttpRequest :=
  (((CHttpRequest.new.SetMethod (ascii ['P', 'O', 'S', 'T'])).SetUri (ascii ['/', 'a'])).SetHeader
    (ascii ['A']) []).SetBody (CRLF ++ CRLF)

/-- `404 Not Found`. -/
def notFound : CHttpResponse :=
  (CHttpResponse.new.SetRetCode (ascii ['4', '0', '4'])
    (ascii ['N', 'o', 't', ' ', 'F', 'o', 'u', 'n', 'd'])).SetBody (ascii [':', '\n'])

theorem messages_read_back_two :
    (∃ q', CHttpRequest.new.Parse postRequest.ToString = .ok q' ∧
      q'.m_method = postRequest.m_method ∧ q'.m_uri = postRequest.m_uri ∧
      q'.m_header = postRequest.m_header ∧ q'.m_body = postRequest.m_body) ∧
    ∃ s', CHttpResponse.new.Parse notFound.ToString = .ok s' ∧
      s'.m_http_version = notFound.m_http_version ∧ s'.m_ret_code = notFound.m_ret_code ∧
      s'.m_ret_msg = notFound.m_ret_msg ∧ s'.m_header = notFound.m_header ∧
      s'.m_body = notFound.m_body := by
  have hrequest : PlainHeader postRequest.m_header := by
    refine ⟨List.cons_ne_nil _ _, fun q hq => ?_⟩
    rw [List.mem_singleton.mp hq]
    exact ⟨⟨by decide, by decide⟩, by decide, by decide, by decide⟩
  have hresponse : PlainHeader notFound.m_header := by
    refine ⟨List.cons_ne_nil _ _, fun q hq => ?_⟩
    rw [List.mem_singleton.mp hq]
    exact ⟨⟨by decide, by decide⟩, by decide, by decide +kernel, by decide +kernel⟩
  exact messages_read_back
    (q := postRequest)
    ⟨⟨by decide, by decide⟩, by decide, ⟨by decide, by decide⟩, by decide, by decide, hrequest⟩
    (s := notFound)
    ⟨⟨by decide, by decide⟩, by decide, ⟨by decide, by decide⟩, by decide, ⟨by decide, by decide⟩,
      hresponse⟩

end Http

end CommonCc
