import CommonCc.Net.Http.Lines

/-!
# Bodies and headers

The header of a request does not depend on its body when there is a header line.  Without
one the two ends of the header block cross, and the body is read as the header.
-/

namespace CommonCc

open Http

namespace CHttpRequest

/-! ## The start line is always accepted -/

theorem parseParam_ok (m : SortedMap Bytes Bytes) (kv : Bytes) : ∃ m', parseParam m kv = .ok m' := by
  unfold parseParam
  cases h : find kv (ascii ['=']) 0 with
  | none => exact ⟨m, rfl⟩
  | some p =>
      have hp : p + 1 ≤ kv.length := (find_spec h).2
      obtain ⟨key, hkey⟩ := substrTo_ok (Nat.zero_le kv.length) (some p)
      exact ⟨m.set key (kv.drop (p + 1)), by
        dsimp only
        rw [hkey, substr_ok hp]
        rfl⟩

theorem parseParams_ok {param : Bytes} {n pos1 : Nat} (hpos : pos1 ≤ param.length)
    (hn : param.length - pos1 < n) (m : SortedMap Bytes Bytes) :
    ∃ m', parseParams param n m pos1 (find param (ascii ['&']) pos1) = .ok m' := by
  induction n generalizing pos1 m with
  | zero => exact absurd hn (Nat.not_lt_zero _)
  | succ n ih =>
      cases h : find param (ascii ['&']) pos1 with
      | none =>
          obtain ⟨m', hm'⟩ := parseParam_ok m (param.drop pos1)
          exact ⟨m', by
            rw [parseParams, substr_ok hpos]
            exact hm'⟩
      | some pos2 =>
          have hpos2 := find_spec h
          have hle : pos2 + 1 ≤ param.length := hpos2.2
          obtain ⟨kv, hkv⟩ := substrTo_ok hpos (some pos2)
          obtain ⟨m₁, hm₁⟩ := parseParam_ok m kv
          obtain ⟨m', hm'⟩ := ih hle (by omega) m₁
          exact ⟨m', by
            rw [parseParams, hkv]
            show (parseParam m kv).bind _ = _
            rw [hm₁]
            exact hm'⟩

theorem ParseParams_ok (r : CHttpRequest) (param : Bytes) :
    ∃ m_params, r.ParseParams param = .ok { r with m_params := m_params } := by
  obtain ⟨m_params, h⟩ := parseParams_ok (n := param.length + 1) (Nat.zero_le param.length)
    (by omega) r.m_params
  exact ⟨m_params, by
    unfold ParseParams
    rw [h]
    rfl⟩

/-- The start line leaves the header alone. -/
theorem ParseStartLine_ok (r : CHttpRequest) (start_line : Bytes) :
    ∃ r', r.ParseStartLine start_line = .ok r' ∧ r'.m_header = r.m_header := by
  unfold ParseStartLine
  cases h : find start_line SPACE 0 with
  | none => exact ⟨r, rfl, rfl⟩
  | some pos =>
      have hpos : pos + 1 ≤ start_line.length := (find_spec h).2
      obtain ⟨m_method, hmethod⟩ := substrTo_ok (Nat.zero_le start_line.length) (some pos)
      dsimp only
      rw [hmethod]
      cases h₁ : find start_line SPACE (pos + 1) with
      | none => exact ⟨_, rfl, rfl⟩
      | some pos1 =>
          obtain ⟨m_uri, huri⟩ := substrTo_ok hpos (some pos1)
          cases h₂ : find m_uri (ascii ['?']) 0 with
          | none =>
              exact ⟨{ r with m_method := m_method, m_uri := m_uri }, by
                simp only [bind, Except.bind, huri, h₂], rfl⟩
          | some query =>
              have hquery : query + 1 ≤ m_uri.length := (find_spec h₂).2
              obtain ⟨m_params, hparams⟩ := ParseParams_ok { r with m_method := m_method }
                (m_uri.drop (query + 1))
              obtain ⟨uri, huri'⟩ := substrTo_ok (Nat.zero_le m_uri.length) (some query)
              exact ⟨{ r with m_method := m_method, m_params := m_params, m_uri := uri }, by
                simp only [bind, Except.bind, huri, h₂, substr_ok hquery, hparams, huri'], rfl⟩

/-! ## With a header -/

/-- What a caller sees of the header: the map, or the exception. -/
def headerOutcome (content : Bytes) : Except Fault HttpHeader :=
  (new.Parse content).map CHttpRequest.m_header

/-- Behind a header line the body is out of the parser's sight. -/
theorem headerOutcome_message {start line : Bytes} {rest : List Bytes} (hstart : OneLine start)
    (h : ∀ l ∈ line :: rest, TextLine l) (body : Bytes) :
    headerOutcome (message start line rest body) = parseHeader parseLine .empty (block line rest) := by
  obtain ⟨r', hr', hheader⟩ := ParseStartLine_ok
    { new with m_header := .empty, m_params := .empty } start
  rw [headerOutcome, Parse_message hstart h, hr']
  show Except.map _ ((parseHeader parseLine r'.m_header (block line rest)).bind _) = _
  rw [hheader]
  show Except.map _ ((parseHeader parseLine .empty (block line rest)).bind _) = _
  cases parseHeader parseLine .empty (block line rest) with
  | error e => rfl
  | ok m => rfl

/-! ## Without a header -/

/-- A message with no header line. -/
def bareMessage (start body : Bytes) : Bytes := start ++ (CRLF ++ CRLF ++ body)

/-- The header block starts behind its end, so it goes on to the end of the text. -/
theorem headerOutcome_bare {start : Bytes} (hstart : OneLine start) (body : Bytes) :
    headerOutcome (bareMessage start body) = parseHeader parseLine .empty (CRLF ++ body) := by
  have hCRLF : find (bareMessage start body) CRLF 0 = some start.length := by
    rw [bareMessage, List.append_assoc]
    exact find_zero hstart.1
  have hend : startLineEnd (bareMessage start body) = some start.length := by
    rw [startLineEnd, hCRLF]
  have hfrom : headerStart (bareMessage start body) = start.length + 2 := by
    rw [headerStart, hCRLF]
  have hblank : find (bareMessage start body) (CRLF ++ CRLF) 0 = some start.length :=
    find_zero hstart.1
  have hsplit : splitBody (bareMessage start body) = .ok (some start.length, body) := by
    have hbody := substr_append (start ++ (CRLF ++ CRLF)) body
    rw [List.length_append, List.append_assoc] at hbody
    rw [splitBody, hblank]
    show (substr _ (start.length + 4)).bind _ = _
    rw [show substr (bareMessage start body) (start.length + 4) = .ok body from hbody]
    rfl
  have hheader : substrTo (bareMessage start body) (start.length + 2) (some start.length) =
      .ok (CRLF ++ body) := by
    have hrest := substr_append (start ++ CRLF) (CRLF ++ body)
    rw [List.length_append, List.append_assoc, ← List.append_assoc CRLF] at hrest
    rw [substrTo, if_pos (by omega)]
    exact hrest
  obtain ⟨r', hr', hempty⟩ := ParseStartLine_ok
    { new with m_header := .empty, m_params := .empty } start
  unfold headerOutcome Parse
  dsimp only
  rw [hend]
  dsimp only
  rw [show substrTo (bareMessage start body) 0 (some start.length) = .ok start from
    substrTo_zero start _]
  simp only [bind, Except.bind, hr', hsplit, hfrom, hheader, ParseHeader, hempty]
  cases parseHeader parseLine .empty (CRLF ++ body) with
  | error e => rfl
  | ok m => rfl

/-- Start line, header lines and body as they are sent. -/
def sent (start : Bytes) (lines : List Bytes) (body : Bytes) : Bytes :=
  start ++ CRLF ++ (lines.flatMap fun l => l ++ CRLF) ++ CRLF ++ body

theorem sent_nil (start body : Bytes) : sent start [] body = bareMessage start body := by
  simp [sent, bareMessage]

theorem sent_cons (start line : Bytes) (rest : List Bytes) (body : Bytes) :
    sent start (line :: rest) body = message start line rest body := by
  rw [sent, flatMap_lines, message]
  simp only [List.append_assoc]

/-- The line `a: b` as a body. -/
def lineBody : Bytes := ascii ['a', ':', ' ', 'b']

theorem bodies_differ : parseHeader parseLine .empty (CRLF ++ []) ≠
    parseHeader parseLine .empty (CRLF ++ lineBody) := by
  intro h
  have hpairs := congrArg (fun m => m.toOption.map SortedMap.pairs) h
  revert hpairs
  decide +kernel

/-- Requests that differ in the body alone have the same header, or fail alike, exactly when
they have a header line. -/
theorem header_apart_iff {start : Bytes} {lines : List Bytes} (hstart : OneLine start)
    (h : ∀ l ∈ lines, TextLine l) :
    (∀ b₁ b₂, headerOutcome (sent start lines b₁) = headerOutcome (sent start lines b₂)) ↔
      lines ≠ [] := by
  cases lines with
  | nil =>
      constructor
      · intro hsame
        have hbodies := hsame [] lineBody
        rw [sent_nil, sent_nil, headerOutcome_bare hstart, headerOutcome_bare hstart] at hbodies
        exact absurd hbodies bodies_differ
      · exact fun hne => absurd rfl hne
  | cons line rest =>
      constructor
      · exact fun _ => List.cons_ne_nil line rest
      · intro _ b₁ b₂
        rw [sent_cons, sent_cons, headerOutcome_message hstart h, headerOutcome_message hstart h]

/-- `GET / HTTP/1.1`. -/
def getLine : Bytes :=
  ascii ['G', 'E', 'T', ' ', '/', ' ', 'H', 'T', 'T', 'P', '/', '1', '.', '1']

theorem header_apart_iff_get :
    (∀ b₁ b₂, headerOutcome (sent getLine [lineBody] b₁) =
      headerOutcome (sent getLine [lineBody] b₂)) ↔ [lineBody] ≠ [] := by
  apply header_apart_iff
  · exact ⟨by decide, by decide⟩
  · intro l hl
    rw [List.mem_singleton.mp hl]
    exact ⟨by decide, by decide, by decide⟩

theorem body_becomes_header :
    headerOutcome (sent getLine [] []) ≠ headerOutcome (sent getLine [] lineBody) := by
  have hstart : OneLine getLine := ⟨by decide, by decide⟩
  rw [sent_nil, sent_nil, headerOutcome_bare hstart, headerOutcome_bare hstart]
  exact bodies_differ

end CHttpRequest

end CommonCc
