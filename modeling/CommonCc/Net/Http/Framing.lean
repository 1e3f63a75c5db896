import CommonCc.Net.Check.Text
import CommonCc.Net.Http.Bodies
import CommonCc.Net.Http.RoundTrip

/-!
# Framing of written messages

What `net_complete_http` says of the text that `ToString` writes.  The length of the body
is read from the header line that `CHttpResponse::SetBody` writes; no setter of a request
writes one.
-/

namespace CommonCc

namespace Http

/-- The key that `SetBody` writes. -/
def LENGTH_KEY : Bytes :=
  ascii ['C', 'o', 'n', 't', 'e', 'n', 't', '-', 'L', 'e', 'n', 'g', 't', 'h']

/-- A part of a header: no line end, no NUL and no `Content-Length`. -/
structure Quiet (s : Bytes) : Prop where
  oneLine : OneLine s
  nul : 0 ∉ s
  free : ¬ LENGTH_KEY <:+: s

/-! ## Texts without a length -/

theorem free_append {x : UInt8} (hx : x ∉ LENGTH_KEY) {a b : Bytes} (ha : ¬ LENGTH_KEY <:+: a)
    (hb : ¬ LENGTH_KEY <:+: b) : ¬ LENGTH_KEY <:+: a ++ x :: b := by
  rw [infix_append_cons_iff hx]
  exact fun h => h.elim ha hb

theorem free_nil : ¬ LENGTH_KEY <:+: [] := by decide

theorem free_cons {x : UInt8} (hx : x ∉ LENGTH_KEY) {b : Bytes} (hb : ¬ LENGTH_KEY <:+: b) :
    ¬ LENGTH_KEY <:+: x :: b := free_append (a := []) hx free_nil hb

/-- A text without the key has no length for the framing. -/
theorem no_length_of_free {a : Bytes} (h : ¬ LENGTH_KEY <:+: a) : ¬ CONTENT_LENGTH <:+: a :=
  fun hin => h (List.IsInfix.trans ⟨[], [58], rfl⟩ hin)

theorem headerLine_free {p : Bytes × Bytes} (hkey : Quiet p.1) (hvalue : Quiet p.2) :
    ¬ LENGTH_KEY <:+: headerLine p := by
  rw [headerLine, COLON, SPACE, List.append_assoc]
  exact free_append (by decide) hkey.free (free_cons (by decide) hvalue.free)

theorem headerLine_nul {p : Bytes × Bytes} (hkey : 0 ∉ p.1) (hvalue : 0 ∉ p.2) :
    0 ∉ headerLine p := by
  simp [headerLine, COLON, SPACE, hkey, hvalue]

theorem words_free {a b c : Bytes} (ha : Quiet a) (hb : Quiet b) (hc : Quiet c) :
    ¬ LENGTH_KEY <:+: words a b c := by
  rw [words, SPACE]
  exact free_append (by decide) ha.free (free_append (by decide) hb.free hc.free)

theorem words_nul {a b c : Bytes} (ha : 0 ∉ a) (hb : 0 ∉ b) (hc : 0 ∉ c) : 0 ∉ words a b c := by
  simp [words, SPACE, ha, hb, hc]

/-! ## Heads -/

/-- Everything in front of the body. -/
def head (start : Bytes) (m_header : HttpHeader) : Bytes :=
  start ++ CRLF ++ headerText m_header ++ CRLF

section Head

variable {start : Bytes} {m_header : HttpHeader}

theorem length_head (start : Bytes) (m_header : HttpHeader) :
    (head start m_header).length = start.length + (headerText m_header).length + 4 := by
  simp [head, CRLF]
  omega

/-- The blank line is found at the end of the head, whatever the body is. -/
theorem search_head (hstart : OneLine start)
    (h : ∀ p ∈ m_header.pairs, OneLine p.1 ∧ OneLine p.2) (body : Bytes) :
    search CRLFCRLF (head start m_header ++ body) =
      some (start.length + (headerText m_header).length) := by
  cases hpairs : m_header.pairs with
  | nil =>
      have htext : headerText m_header = [] := by rw [headerText, hpairs]; rfl
      rw [head, htext, List.append_nil, List.append_assoc start]
      exact search_append_of_not_mem hstart.1
  | cons p rest =>
      have hlines : ∀ l ∈ headerLine p :: rest.map headerLine, TextLine l := by
        rw [← List.map_cons, ← hpairs]
        intro l hl
        obtain ⟨q, hq, rfl⟩ := List.mem_map.mp hl
        exact headerLine_text (h q hq).1 (h q hq).2
      have hblank : search (CRLF ++ CRLF) (message start (headerLine p) (rest.map headerLine) body) =
          some _ := search_blank hstart hlines
      rw [head, message_eq hpairs, headerText_eq hpairs, List.length_append]
      rw [show CRLFCRLF = CRLF ++ CRLF from rfl, hblank, CRLF, List.length_cons]
      simp
      omega

theorem head_nul (hstart : 0 ∉ start) (h : ∀ p ∈ m_header.pairs, 0 ∉ p.1 ∧ 0 ∉ p.2) :
    0 ∉ head start m_header := by
  have htext : 0 ∉ headerText m_header := by
    intro hmem
    obtain ⟨p, hp, hin⟩ := List.mem_flatMap.mp hmem
    have hline := headerLine_nul (h p hp).1 (h p hp).2
    cases List.mem_append.mp hin with
    | inl hin => exact hline hin
    | inr hin => exact absurd hin (by decide)
  simp [head, CRLF, hstart, htext]

end Head

/-! ## Finding the length -/

/-- The first length in a text is read as `v`. -/
def Finds (s : Bytes) (v : Int) : Prop :=
  ∃ q, search CONTENT_LENGTH s = some q ∧ atoi (s.drop (q + 15)) = v

theorem Finds.skip {a s : Bytes} {x : UInt8} {v : Int} (h : Finds s v) (hx : x ∉ CONTENT_LENGTH)
    (ha : ¬ LENGTH_KEY <:+: a) : Finds (a ++ x :: s) v := by
  obtain ⟨q, hq, hv⟩ := h
  have hsplit : a ++ x :: s = (a ++ [x]) ++ s := by simp
  have hdrop : (a ++ x :: s).drop (a.length + 1 + q + 15) = s.drop (q + 15) := by
    rw [hsplit, show a.length + 1 + q + 15 = (a ++ [x]).length + (q + 15) by simp; omega,
      List.drop_length_add_append]
  refine ⟨a.length + 1 + q, ?_, by rw [hdrop, hv]⟩
  rw [search_skip hx (no_length_of_free ha), hq]
  rfl

/-- The line that `SetBody` writes is read. -/
theorem finds_line {n : Nat} (hn : n < 2147483648) (s : Bytes) :
    Finds (headerLine (LENGTH_KEY, decimal n) ++ (CRLF ++ s)) n := by
  have hsplit : headerLine (LENGTH_KEY, decimal n) ++ (CRLF ++ s) =
      CONTENT_LENGTH ++ (32 :: (decimal n ++ 13 :: (10 :: s))) := by
    simp [headerLine, LENGTH_KEY, CONTENT_LENGTH, COLON, SPACE, CRLF, ascii]
  refine ⟨0, ?_, ?_⟩
  · apply search_here
    rw [hsplit]
    exact List.prefix_append _ _
  · rw [hsplit]
    exact atoi_decimal hn (by decide) _

theorem Finds.lines {s : Bytes} {v : Int} (h : Finds s v) {l : List (Bytes × Bytes)}
    (hl : ∀ p ∈ l, ¬ LENGTH_KEY <:+: headerLine p) :
    Finds ((l.flatMap fun p => headerLine p ++ CRLF) ++ s) v := by
  induction l with
  | nil => exact h
  | cons p l ih =>
      have hrest := ih fun q hq => hl q (List.mem_cons_of_mem p hq)
      have hsplit : ((p :: l).flatMap fun p => headerLine p ++ CRLF) ++ s =
          headerLine p ++ 13 :: ([] ++ 10 :: ((l.flatMap fun p => headerLine p ++ CRLF) ++ s)) := by
        simp [CRLF]
      rw [hsplit]
      exact (hrest.skip (by decide) free_nil).skip (by decide) (hl p List.mem_cons_self)

end Http

open Http

/-! ## Responses -/

namespace CHttpResponse

/-- What the setters of a response are given.  A length set before is written over. -/
structure Framable (r : CHttpResponse) : Prop where
  version : Quiet r.m_http_version
  code : Quiet r.m_ret_code
  reason : Quiet r.m_ret_msg
  header : ∀ p ∈ r.m_header.pairs, p.1 = LENGTH_KEY ∨ (Quiet p.1 ∧ Quiet p.2)

def startLine (r : CHttpResponse) : Bytes := words r.m_http_version r.m_ret_code r.m_ret_msg

theorem ToString_eq (r : CHttpResponse) :
    r.ToString = head r.startLine r.m_header ++ r.m_body := by
  simp [ToString, head, startLine, words]

variable {r : CHttpResponse} {body : Bytes}

theorem digit_ne {n : Nat} {x : UInt8} (hx : isDigit x = false) : x ∉ decimal n := by
  intro hmem
  rw [isDigit_of_mem_decimal hmem] at hx
  cases hx

/-- The header after `SetBody`: the line with the length between quiet ones. -/
theorem Framable.pairs (h : r.Framable) (body : Bytes) :
    ∃ as bs, (r.SetBody body).m_header.pairs = as ++ (LENGTH_KEY, decimal body.length) :: bs ∧
      ∀ p ∈ as ++ bs, Quiet p.1 ∧ Quiet p.2 := by
  obtain ⟨as, bs, hsplit, hother⟩ := (r.SetBody body).m_header.sorted.split
    (mem_insertOrAssign_self LENGTH_KEY (decimal body.length) r.m_header.pairs)
  refine ⟨as, bs, hsplit, fun p hp => ?_⟩
  have hne := hother p hp
  have hmem : p ∈ (r.SetBody body).m_header.pairs := by
    rw [hsplit]
    cases List.mem_append.mp hp with
    | inl hp => exact List.mem_append_left _ hp
    | inr hp => exact List.mem_append_right _ (List.mem_cons_of_mem _ hp)
  cases mem_insertOrAssign hmem with
  | inl hself => exact absurd (congrArg Prod.fst hself) hne
  | inr hold => exact (h.header p hold).resolve_left hne

theorem key_plain : OneLine LENGTH_KEY ∧ 0 ∉ LENGTH_KEY := ⟨⟨by decide, by decide⟩, by decide⟩

theorem Framable.oneLine (h : r.Framable) (body : Bytes) :
    ∀ p ∈ (r.SetBody body).m_header.pairs,
      (OneLine p.1 ∧ OneLine p.2) ∧ 0 ∉ p.1 ∧ 0 ∉ p.2 := by
  obtain ⟨as, bs, hsplit, hquiet⟩ := h.pairs body
  intro p hp
  rw [hsplit, List.mem_append, List.mem_cons] at hp
  rcases hp with hp | hp | hp
  · have hq := hquiet p (List.mem_append_left bs hp)
    exact ⟨⟨hq.1.oneLine, hq.2.oneLine⟩, hq.1.nul, hq.2.nul⟩
  · rw [hp]
    exact ⟨⟨key_plain.1, digit_ne (by decide), digit_ne (by decide)⟩, key_plain.2,
      digit_ne (by decide)⟩
  · have hq := hquiet p (List.mem_append_right as hp)
    exact ⟨⟨hq.1.oneLine, hq.2.oneLine⟩, hq.1.nul, hq.2.nul⟩

theorem Framable.start (h : r.Framable) : OneLine r.startLine ∧ 0 ∉ r.startLine :=
  ⟨words_oneLine h.version.oneLine h.code.oneLine h.reason.oneLine,
    words_nul h.version.nul h.code.nul h.reason.nul⟩

/-- The length of the body is read from every text that starts with the head. -/
theorem Framable.finds (h : r.Framable) (hbody : body.length < 1073741824) (b : Bytes) :
    Finds (head r.startLine (r.SetBody body).m_header ++ b) body.length := by
  obtain ⟨as, bs, hsplit, hquiet⟩ := h.pairs body
  have hlines : ∀ p ∈ as, ¬ LENGTH_KEY <:+: headerLine p := by
    intro p hp
    have hq := hquiet p (List.mem_append_left bs hp)
    exact headerLine_free hq.1 hq.2
  have htext : headerText (r.SetBody body).m_header =
      (as.flatMap fun p => headerLine p ++ CRLF) ++
        (headerLine (LENGTH_KEY, decimal body.length) ++ CRLF ++
          bs.flatMap fun p => headerLine p ++ CRLF) := by
    show (r.SetBody body).m_header.pairs.flatMap (fun p => headerLine p ++ CRLF) = _
    rw [hsplit, List.flatMap_append, List.flatMap_cons]
  have hline := finds_line (n := body.length) (by omega)
    ((bs.flatMap fun p => headerLine p ++ CRLF) ++ (CRLF ++ b))
  have hall := ((hline.lines hlines).skip (x := 10) (by decide) free_nil).skip (x := 13) (by decide)
    (words_free h.version h.code h.reason)
  have heq : head r.startLine (r.SetBody body).m_header ++ b =
      words r.m_http_version r.m_ret_code r.m_ret_msg ++ 13 :: ([] ++ 10 ::
        ((as.flatMap fun p => headerLine p ++ CRLF) ++
          (headerLine (LENGTH_KEY, decimal body.length) ++
            (CRLF ++ ((bs.flatMap fun p => headerLine p ++ CRLF) ++ (CRLF ++ b)))))) := by
    rw [head, htext, startLine]
    simp [CRLF]
  rw [heq]
  exact hall

/-- A buffer whose text starts with the head is framed by the length of the whole response. -/
theorem Framable.complete (h : r.Framable) (hbody : body.length < 1073741824)
    (hhead : (r.SetBody body).ToString.length < body.length + 10000000) {data : Memory UInt8}
    {data_len : Nat} (hlen : ¬ data_len < 14) {b : Bytes}
    (htext : textOf data = head r.startLine (r.SetBody body).m_header ++ b) :
    net_complete_http data data_len =
      .ok (if (r.SetBody body).ToString.length ≤ data_len then
        ((r.SetBody body).ToString.length : Int) else 0) := by
  have htotal : (r.SetBody body).ToString.length =
      r.startLine.length + (headerText (r.SetBody body).m_header).length + 4 + body.length := by
    rw [ToString_eq, List.length_append, length_head]
    rfl
  obtain ⟨q, hq, hv⟩ := h.finds hbody b
  have hp := search_head h.start.1 (fun p hp => (h.oneLine body p hp).1) b
  rw [← htext] at hq hv hp
  rw [net_complete_http_body hlen hp hq, hv, framed]
  have hpkg : ((((r.startLine.length + (headerText (r.SetBody body).m_header).length : Nat) : Int) +
      4 + (body.length : Int)) % 4294967296).toNat = (r.SetBody body).ToString.length := by
    omega
  rw [hpkg, toInt_of_mem (by omega) (by omega)]

/-- The framing waits for a written response and then reports its length. -/
theorem frame_exact (h : r.Framable) (hbody : body.length < 1073741824)
    (hhead : (r.SetBody body).ToString.length < body.length + 10000000) :
    (∀ (data : Memory UInt8) (data_len : Nat),
      (r.SetBody body).ToString.length ≤ data_len →
      (r.SetBody body).ToString.length ≤ data.size →
      data.read 0 (r.SetBody body).ToString.length = (r.SetBody body).ToString →
      net_complete_http data data_len = .ok ((r.SetBody body).ToString.length : Int)) ∧
    ∀ (data : Memory UInt8) (data_len : Nat),
      data_len < (r.SetBody body).ToString.length → data_len < data.size →
      data.read 0 data_len = (r.SetBody body).ToString.take data_len → data.cell data_len = 0 →
      net_complete_http data data_len = .ok 0 := by
  have hnul := head_nul h.start.2 fun p hp => (h.oneLine body p hp).2
  have hT : (r.SetBody body).ToString = head r.startLine (r.SetBody body).m_header ++ body :=
    ToString_eq _
  have hlenH := length_head r.startLine (r.SetBody body).m_header
  generalize hH : head r.startLine (r.SetBody body).m_header = H at hT hlenH hnul
  have hlenT : (r.SetBody body).ToString.length = H.length + body.length := by
    rw [hT, List.length_append]
  have hlong : 15 ≤ H.length := by
    obtain ⟨q, hq, -⟩ := h.finds hbody []
    have hfit : q + 15 ≤ _ := search_fits hq
    rw [hH, List.append_nil] at hfit
    omega
  constructor
  · intro data data_len hle hsize hread
    have hreadH : data.read 0 H.length = H := by
      rw [← data.take_read 0 (show H.length ≤ (r.SetBody body).ToString.length by omega), hread, hT,
        List.take_left]
    have htext := textOf_append (by omega) hreadH hnul
    rw [← hH] at htext
    rw [h.complete hbody hhead (by omega) htext, if_pos hle]
  · intro data data_len hlt hsize hread hcell
    have hlen : ((r.SetBody body).ToString.take data_len).length = data_len :=
      List.length_take_of_le hlt.le
    rw [← hlen] at hsize hcell
    have hterm := textOf_terminated hsize (by rw [hlen]; exact hread) hcell
    by_cases hshort : data_len < 14
    · exact net_complete_http_short hshort
    by_cases hin : H.length ≤ data_len
    · have htext : textOf data = H ++ (body.take (data_len - H.length)).takeWhile (· ≠ 0) := by
        rw [hterm.1, hT, List.take_append, List.take_of_length_le hin, takeWhile_append_text hnul]
      rw [← hH] at htext
      rw [h.complete hbody hhead hshort htext, if_neg (by omega)]
    · -- the head is cut: its blank line, which is the first one, is not there
      have hcut : textOf data = H.take data_len := by
        rw [hterm.1, hT, List.take_append_of_le_length (by omega)]
        apply List.takeWhile_eq_self_iff.mpr
        intro x hx
        have hne : x ≠ 0 := fun he => hnul (he ▸ List.mem_of_mem_take hx)
        simpa using hne
      have hp := search_head h.start.1 (fun p hp => (h.oneLine body p hp).1) []
      rw [hH, List.append_nil] at hp
      have hnone : search CRLFCRLF (textOf data) = none := by
        rw [hcut]
        exact search_take_of_lt hp (by show data_len < _ + 4; omega)
      rw [net_complete_http_no_header hshort hnone hterm.2, if_neg (by omega)]

/-- `404 Not Found`, before its body is set. -/
def bareNotFound : CHttpResponse :=
  (new.SetRetCode (ascii ['4', '0', '4'])
    (ascii ['N', 'o', 't', ' ', 'F', 'o', 'u', 'n', 'd'])).SetHeader (ascii ['A']) []

theorem frame_exact_not_found :
    net_complete_http (bufferOf (bareNotFound.SetBody [49, 0, 50]).ToString 51 100) 99 = .ok 53 ∧
      net_complete_http
        (bufferOf ((bareNotFound.SetBody [49, 0, 50]).ToString.take 40) 0 100) 40 = .ok 0 := by
  have hquiet : Quiet (ascii ['A']) ∧ Quiet [] :=
    ⟨⟨⟨by decide, by decide⟩, by decide, by decide⟩, ⟨by decide, by decide⟩, by decide, by decide⟩
  have hframable : bareNotFound.Framable := by
    constructor
    · exact ⟨⟨by decide, by decide⟩, by decide, by decide⟩
    · exact ⟨⟨by decide, by decide⟩, by decide, by decide⟩
    · exact ⟨⟨by decide, by decide⟩, by decide, by decide⟩
    · intro p hp
      rw [List.mem_singleton.mp hp]
      exact .inr hquiet
  have hframe := @frame_exact bareNotFound [49, 0, 50] hframable (by decide) (by decide +kernel)
  constructor
  · have hlen : (bareNotFound.SetBody [49, 0, 50]).ToString.length = 53 := by decide +kernel
    have hwhole := hframe.1 (bufferOf (bareNotFound.SetBody [49, 0, 50]).ToString 51 100) 99
      (by decide +kernel) (by decide +kernel) (by decide +kernel)
    rw [hlen] at hwhole
    exact hwhole
  · exact hframe.2 (bufferOf ((bareNotFound.SetBody [49, 0, 50]).ToString.take 40) 0 100) 40
      (by decide +kernel) (by decide) (by decide +kernel) (by decide +kernel)

end CHttpResponse

/-! ## Requests -/

namespace CHttpRequest

/-- What the setters of a request are given, and a body without a length in it. -/
structure Framable (r : CHttpRequest) : Prop where
  method : Quiet r.m_method
  uri : Quiet r.m_uri
  header : ∀ p ∈ r.m_header.pairs, Quiet p.1 ∧ Quiet p.2
  body : ¬ LENGTH_KEY <:+: r.m_body

def startLine (r : CHttpRequest) : Bytes := words r.m_method r.m_uri version

theorem ToString_eq (r : CHttpRequest) :
    r.ToString = head r.startLine r.m_header ++ r.m_body := by
  simp [ToString, head, startLine, words, version, SPACE, ascii]

variable {r : CHttpRequest}

theorem version_quiet : Quiet version := ⟨⟨by decide, by decide⟩, by decide, by decide⟩

theorem Framable.start (h : r.Framable) : Quiet r.startLine :=
  ⟨words_oneLine h.method.oneLine h.uri.oneLine version_quiet.oneLine,
    words_nul h.method.nul h.uri.nul version_quiet.nul,
    words_free h.method h.uri version_quiet⟩

theorem lines_free {l : List (Bytes × Bytes)} (h : ∀ p ∈ l, Quiet p.1 ∧ Quiet p.2) {s : Bytes}
    (hs : ¬ LENGTH_KEY <:+: s) :
    ¬ LENGTH_KEY <:+: (l.flatMap fun p => headerLine p ++ CRLF) ++ s := by
  induction l with
  | nil => exact hs
  | cons p l ih =>
      have hp := h p List.mem_cons_self
      have hrest := ih fun q hq => h q (List.mem_cons_of_mem p hq)
      rw [List.flatMap_cons, CRLF, List.append_assoc, List.append_assoc]
      exact free_append (by decide) (headerLine_free hp.1 hp.2) (free_cons (by decide) hrest)

/-- Nothing in a request is a length for the framing. -/
theorem Framable.free (h : r.Framable) {b : Bytes} (hb : ¬ LENGTH_KEY <:+: b) :
    ¬ LENGTH_KEY <:+: head r.startLine r.m_header ++ b := by
  have htail : ¬ LENGTH_KEY <:+: CRLF ++ b := free_cons (by decide) (free_cons (by decide) hb)
  have hlines := lines_free h.header htail
  have hall := free_append (x := 13) (by decide) h.start.free (free_cons (x := 10) (by decide) hlines)
  have heq : head r.startLine r.m_header ++ b =
      r.startLine ++ 13 :: 10 :: ((r.m_header.pairs.flatMap fun p => headerLine p ++ CRLF) ++
        (CRLF ++ b)) := by
    show r.startLine ++ CRLF ++ (r.m_header.pairs.flatMap fun p => headerLine p ++ CRLF) ++ CRLF ++
      b = _
    simp [CRLF]
  rw [heq]
  exact hall

/-- The framing reports the length of the head alone, which is the length of the request
exactly when it has no body. -/
theorem frame_iff (h : r.Framable) {data : Memory UInt8} (hsize : r.ToString.length < data.size)
    (hread : data.read 0 r.ToString.length = r.ToString)
    (hnul : data.cell r.ToString.length = 0) :
    net_complete_http data r.ToString.length = .ok (r.ToString.length : Int) ↔
      r.m_body = [] ∧ r.ToString.length < 2147483648 := by
  have hstart := h.start
  have hnulH := head_nul hstart.nul fun p hp => ⟨(h.header p hp).1.nul, (h.header p hp).2.nul⟩
  have hterm := textOf_terminated hsize hread hnul
  have htext : textOf data = head r.startLine r.m_header ++ r.m_body.takeWhile (· ≠ 0) := by
    rw [hterm.1, ToString_eq, takeWhile_append_text hnulH]
  have hfree : ¬ LENGTH_KEY <:+: r.m_body.takeWhile (· ≠ 0) := fun hin =>
    h.body (hin.trans (List.takeWhile_prefix _).isInfix)
  have hnone : search CONTENT_LENGTH (textOf data) = none := by
    rw [htext]
    exact search_eq_none_iff.mpr (no_length_of_free (h.free hfree))
  have hp := search_head hstart.oneLine
    (fun p hp => ⟨(h.header p hp).1.oneLine, (h.header p hp).2.oneLine⟩)
    (r.m_body.takeWhile (· ≠ 0))
  rw [← htext] at hp
  have hlenH := length_head r.startLine r.m_header
  have hlenT : r.ToString.length = (head r.startLine r.m_header).length + r.m_body.length := by
    rw [ToString_eq, List.length_append]
  have hlong : 10 ≤ r.startLine.length := by
    simp [startLine, words, version, SPACE, ascii]
    omega
  have hbody : r.m_body = [] ↔ r.m_body.length = 0 := List.length_eq_zero_iff.symm
  rw [net_complete_http_no_body (by omega) hp hnone hterm.2, hbody]
  simp only [Except.ok.injEq, toInt]
  omega

/-- `GET /`. -/
def getRequest : CHttpRequest := new.SetHeader (ascii ['A']) []

theorem getRequest_framable : getRequest.Framable := by
  have hquiet : Quiet (ascii ['A']) ∧ Quiet [] :=
    ⟨⟨⟨by decide, by decide⟩, by decide, by decide⟩, ⟨by decide, by decide⟩, by decide, by decide⟩
  constructor
  · exact ⟨⟨by decide, by decide⟩, by decide, by decide⟩
  · exact ⟨⟨by decide, by decide⟩, by decide, by decide⟩
  · intro p hp
    rw [List.mem_singleton.mp hp]
    exact hquiet
  · decide

theorem frame_iff_get :
    net_complete_http (bufferOf getRequest.ToString 0 100) getRequest.ToString.length =
        .ok (getRequest.ToString.length : Int) ↔
      getRequest.m_body = [] ∧ getRequest.ToString.length < 2147483648 :=
  frame_iff getRequest_framable (by decide +kernel) (by decide +kernel)
    (by decide +kernel)

/-- A body of one byte is cut off. -/
theorem body_is_cut : net_complete_http (bufferOf (getRequest.SetBody [49]).ToString 0 100)
    (getRequest.SetBody [49]).ToString.length ≠
      .ok ((getRequest.SetBody [49]).ToString.length : Int) := by
  decide +kernel

end CHttpRequest

end CommonCc
