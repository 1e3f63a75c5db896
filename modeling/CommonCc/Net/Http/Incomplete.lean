import CommonCc.Lib.Transition
import CommonCc.Net.Http.Pieces

/-!
# Texts without a blank line

`Parse` looks for the blank line with `pos1`, and looks at `pos` to see whether there is one.
-/

namespace CommonCc

namespace Http

section Incomplete

variable {content : Bytes}

theorem exists_lineEnd (h : 10 ∈ content) : ∃ pos, startLineEnd content = some pos := by
  unfold startLineEnd
  cases find content CRLF 0 with
  | some pos => exact ⟨pos, rfl⟩
  | none =>
      cases hlf : find content LF 0 with
      | some pos => exact ⟨pos, rfl⟩
      | none =>
          rw [find_zero_eq, search_eq_none_iff] at hlf
          exact absurd ((List.singleton_infix_iff 10 content).mpr h) hlf

/-- The failed search ends at `npos`, and the body is taken from the character at `npos + 2`. -/
theorem bodyPart_incomplete (hcrlf : ¬ CRLF ++ CRLF <:+: content) (hlf : ¬ LF ++ LF <:+: content) :
    bodyPart content = content.drop 1 := by
  have hnone : ∀ pat, ¬ pat <:+: content → find content pat 0 = none := by
    intro pat h
    rw [find_zero_eq]
    exact search_eq_none_iff.mpr h
  rw [bodyPart, hnone _ hcrlf]
  dsimp only
  rw [hnone _ hlf]
  rfl

/-- `m_body` is what it was, and nothing of the text has been stored in it. -/
def Untouched (content before after : Bytes) : Prop :=
  after = before ∧ ∀ out, splitBody content = .ok out → out.2 = []

theorem untouched_iff (hend : 10 ∈ content) (hcrlf : ¬ CRLF ++ CRLF <:+: content)
    (hlf : ¬ LF ++ LF <:+: content) (before : Bytes) :
    Untouched content before (bodyPart content) ↔ content = LF ∧ before = [] := by
  rcases exists_lineEnd hend with ⟨pos, hpos⟩
  have hstored : (∀ out, splitBody content = .ok out → out.2 = []) ↔ content = LF := by
    rw [splitBody_eq hpos, bodyPart_incomplete hcrlf hlf]
    constructor
    · intro h
      have hshort := h _ rfl
      cases content with
      | nil => cases hend
      | cons c rest =>
          have hrest : rest = [] := hshort
          rw [hrest] at hend ⊢
          rw [LF, ← List.mem_singleton.mp hend]
    · intro h out hout
      rw [h] at hout
      cases hout
      rfl
  rw [Untouched, hstored, bodyPart_incomplete hcrlf hlf]
  constructor
  · intro h
    refine ⟨h.2, ?_⟩
    rw [← h.1, h.2]
    rfl
  · intro h
    rw [h.1, h.2]
    exact ⟨rfl, rfl⟩

end Incomplete

end Http

open Http

/-! ## Requests -/

namespace CHttpRequest

/-- `Parse` up to the header: the object, and the text of the header unless it returns before. -/
def ParseBody (r : CHttpRequest) (content : Bytes) : Except Fault (CHttpRequest × Option Bytes) :=
  let r := { r with m_header := .empty, m_params := .empty }
  match Http.startLineEnd content with
  | none => .ok (r, none)
  | some pos => do
      let start_line ← substrTo content 0 (some pos)
      let r ← r.ParseStartLine start_line
      let (pos1, m_body) ← Http.splitBody content
      let header ← substrTo content (Http.headerStart content) pos1
      .ok ({ r with m_body := m_body }, some header)

/-- The header is read last. -/
theorem Parse_eq_ParseBody (r : CHttpRequest) (content : Bytes) :
    r.Parse content = (r.ParseBody content).bind fun out =>
      match out.2 with
      | none => .ok out.1
      | some header => out.1.ParseHeader header := by
  unfold Parse ParseBody
  dsimp only
  cases hend : startLineEnd content with
  | none => rfl
  | some pos =>
      rcases ParseStartLine_ok { r with m_header := .empty, m_params := .empty } (content.take pos)
        with ⟨r₁, hstart, -⟩
      simp only [bind, Except.bind, substrTo_zero_some, hstart, splitBody_eq hend,
        substrTo_headerPart hend]

theorem ParseHeader_body {r r' : CHttpRequest} {headers : Bytes} (h : r.ParseHeader headers = .ok r') :
    r'.m_body = r.m_body := by
  rw [ParseHeader_eq] at h
  rcases map_eq_ok.mp h with ⟨es, -, rfl⟩
  rfl

/-- What a `Parse` that returns has stored. -/
theorem Parse_body {r r' : CHttpRequest} {content : Bytes} (h : r.Parse content = .ok r') :
    ∃ out, r.ParseBody content = .ok out ∧ r'.m_body = out.1.m_body := by
  rw [Parse_eq_ParseBody] at h
  rcases bind_eq_ok.mp h with ⟨out, hout, hrest⟩
  refine ⟨out, hout, ?_⟩
  cases hheader : out.2 with
  | none =>
      rw [hheader] at hrest
      cases hrest
      rfl
  | some header =>
      rw [hheader] at hrest
      exact ParseHeader_body hrest

/-- The body is stored whether or not the header throws afterwards. -/
theorem ParseBody_body {content : Bytes} (hend : 10 ∈ content) (r : CHttpRequest) :
    ∃ out, r.ParseBody content = .ok out ∧ out.1.m_body = bodyPart content := by
  rcases exists_lineEnd hend with ⟨pos, hpos⟩
  rcases ParseStartLine_ok { r with m_header := .empty, m_params := .empty } (content.take pos)
    with ⟨r₁, hstart, -⟩
  refine ⟨({ r₁ with m_body := bodyPart content }, some (headerPart content)), ?_, rfl⟩
  rw [ParseBody]
  dsimp only
  rw [hpos]
  simp only [bind, Except.bind, substrTo_zero_some, hstart, splitBody_eq hpos,
    substrTo_headerPart hpos]

/-- `Parse` leaves the body alone. -/
def KeepsBody (r : CHttpRequest) (content : Bytes) : Prop :=
  ∀ out, r.ParseBody content = .ok out → Untouched content r.m_body out.1.m_body

end CHttpRequest

/-! ## Responses -/

namespace CHttpResponse

def ParseBody (r : CHttpResponse) (content : Bytes) : Except Fault (CHttpResponse × Option Bytes) :=
  match Http.startLineEnd content with
  | none => .ok (r, none)
  | some pos => do
      let start_line ← substrTo content 0 (some pos)
      let r ← r.ParseStartLine start_line
      let (pos1, m_body) ← Http.splitBody content
      let header ← substrTo content (Http.headerStart content) pos1
      .ok ({ r with m_body := m_body }, some header)

theorem Parse_eq_ParseBody (r : CHttpResponse) (content : Bytes) :
    r.Parse content = (r.ParseBody content).bind fun out =>
      match out.2 with
      | none => .ok out.1
      | some header => out.1.ParseHeader header := by
  unfold Parse ParseBody
  cases hend : startLineEnd content with
  | none => rfl
  | some pos =>
      rcases ParseStartLine_ok r (content.take pos) with ⟨r₁, hstart⟩
      simp only [bind, Except.bind, substrTo_zero_some, hstart, splitBody_eq hend,
        substrTo_headerPart hend]

theorem ParseHeader_body {r r' : CHttpResponse} {headers : Bytes}
    (h : r.ParseHeader headers = .ok r') : r'.m_body = r.m_body := by
  rw [ParseHeader_eq] at h
  rcases map_eq_ok.mp h with ⟨es, -, rfl⟩
  rfl

theorem Parse_body {r r' : CHttpResponse} {content : Bytes} (h : r.Parse content = .ok r') :
    ∃ out, r.ParseBody content = .ok out ∧ r'.m_body = out.1.m_body := by
  rw [Parse_eq_ParseBody] at h
  rcases bind_eq_ok.mp h with ⟨out, hout, hrest⟩
  refine ⟨out, hout, ?_⟩
  cases hheader : out.2 with
  | none =>
      rw [hheader] at hrest
      cases hrest
      rfl
  | some header =>
      rw [hheader] at hrest
      exact ParseHeader_body hrest

theorem ParseBody_body {content : Bytes} (hend : 10 ∈ content) (r : CHttpResponse) :
    ∃ out, r.ParseBody content = .ok out ∧ out.1.m_body = bodyPart content := by
  rcases exists_lineEnd hend with ⟨pos, hpos⟩
  rcases ParseStartLine_ok r (content.take pos) with ⟨r₁, hstart⟩
  refine ⟨({ r₁ with m_body := bodyPart content }, some (headerPart content)), ?_, rfl⟩
  rw [ParseBody, hpos]
  simp only [bind, Except.bind, substrTo_zero_some, hstart, splitBody_eq hpos,
    substrTo_headerPart hpos]

def KeepsBody (r : CHttpResponse) (content : Bytes) : Prop :=
  ∀ out, r.ParseBody content = .ok out → Untouched content r.m_body out.1.m_body

end CHttpResponse

namespace Http

/-- A text that has a line end but no blank line leaves no trace in the bodies exactly when it is one
line end and the bodies were empty. -/
theorem incomplete_iff {content : Bytes} (hend : 10 ∈ content)
    (hcrlf : ¬ CRLF ++ CRLF <:+: content) (hlf : ¬ LF ++ LF <:+: content) (r : CHttpRequest)
    (s : CHttpResponse) :
    (r.KeepsBody content ∧ s.KeepsBody content) ↔
      content = LF ∧ r.m_body = [] ∧ s.m_body = [] := by
  rcases CHttpRequest.ParseBody_body hend r with ⟨out, hout, hbody⟩
  rcases CHttpResponse.ParseBody_body hend s with ⟨out', hout', hbody'⟩
  have hrequest : r.KeepsBody content ↔ Untouched content r.m_body (bodyPart content) := by
    rw [CHttpRequest.KeepsBody, hout, ← hbody]
    exact ⟨fun h => h out rfl, fun h o ho => by cases ho; exact h⟩
  have hresponse : s.KeepsBody content ↔ Untouched content s.m_body (bodyPart content) := by
    rw [CHttpResponse.KeepsBody, hout', ← hbody']
    exact ⟨fun h => h out' rfl, fun h o ho => by cases ho; exact h⟩
  rw [hrequest, hresponse, untouched_iff hend hcrlf hlf, untouched_iff hend hcrlf hlf]
  tauto

/-- `a b c` and a line end. -/
def startOnly : Bytes := ascii ['a', ' ', 'b', ' ', 'c'] ++ CRLF

theorem incomplete_iff_startOnly :
    (CHttpRequest.new.KeepsBody startOnly ∧ CHttpResponse.new.KeepsBody startOnly) ↔
      startOnly = LF ∧ CHttpRequest.new.m_body = [] ∧ CHttpResponse.new.m_body = [] :=
  incomplete_iff (by decide) (by decide) (by decide) .new .new

/-- The start line is stored as the body, but for its first character. -/
theorem start_in_body :
    ((CHttpRequest.new.Parse startOnly).map CHttpRequest.m_body).toOption =
      some (ascii [' ', 'b', ' ', 'c'] ++ CRLF) ∧
    ((CHttpResponse.new.ParseBody startOnly).map fun out => out.1.m_body).toOption =
      some (ascii [' ', 'b', ' ', 'c'] ++ CRLF) ∧
    ¬ (CHttpRequest.new.KeepsBody startOnly ∧ CHttpResponse.new.KeepsBody startOnly) := by
  have hbody : ((CHttpRequest.new.ParseBody startOnly).map fun out => out.1.m_body).toOption =
      some (ascii [' ', 'b', ' ', 'c'] ++ CRLF) := by decide +kernel
  refine ⟨by decide +kernel, by decide +kernel, fun h => ?_⟩
  rcases map_eq_ok.mp (ok_of_toOption hbody) with ⟨out, hout, hstored⟩
  have hkept := (h.1 out hout).1
  rw [hstored] at hkept
  exact absurd hkept (by decide)

end Http

end CommonCc
