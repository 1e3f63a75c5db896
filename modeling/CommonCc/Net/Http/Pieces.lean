import CommonCc.Lib.Cut
import CommonCc.Lib.Traverse
import CommonCc.Net.Http.Bodies

/-!
# What is read of any text

A header is cut into lines, and the parameters into pairs.  `Parse` of a text that has a line end
reads a start line, a body and a header.
-/

namespace CommonCc

namespace Http

/-! ## Header lines -/

/-- The pair of a line, or no pair.  Two characters are passed over behind the key. -/
def lineEntry (line : Bytes) : Except Fault (Option (Bytes × Bytes)) :=
  match find line COLON 0 with
  | none => .ok none
  | some p =>
      if p + 2 ≤ line.length then .ok (some (line.take p, line.drop (p + 2)))
      else .error .outOfBounds

/-- The pair of the last line of a response. -/
def lastLineEntry (line : Bytes) : Except Fault (Option (Bytes × Bytes)) :=
  match find line COLON 0 with
  | none => if 1 ≤ line.length then .ok (some (line, line.drop 1)) else .error .outOfBounds
  | some p =>
      if p + 2 ≤ line.length then .ok (some (line.take p, line.drop (p + 2)))
      else .error .outOfBounds

/-- `m[k] = x`, when there is a pair. -/
def store (m : SortedMap Bytes Bytes) : Option (Bytes × Bytes) → SortedMap Bytes Bytes
  | none => m
  | some e => m.set e.1 e.2

theorem substrTo_zero_some {s : Bytes} (p : Nat) : substrTo s 0 (some p) = .ok (s.take p) := by
  rw [substrTo, if_neg (Nat.not_lt_zero p), if_pos (Nat.zero_le _), List.drop_zero, Nat.sub_zero]

theorem parseLine_eq (m : HttpHeader) (line : Bytes) :
    parseLine m line = (lineEntry line).map (store m) := by
  unfold parseLine lineEntry
  cases find line COLON 0 with
  | none => rfl
  | some p =>
      dsimp only
      rw [substrTo_zero_some, substr]
      split
      · rfl
      · rfl

theorem parseLastLine_eq (m : HttpHeader) (line : Bytes) :
    parseLastLine m line = (lastLineEntry line).map (store m) := by
  unfold parseLastLine lastLineEntry
  cases find line COLON 0 with
  | none =>
      have hkey : substrTo line 0 none = .ok line := substr_ok (Nat.zero_le _)
      dsimp only
      rw [hkey, posAdd, substr]
      split
      · rfl
      · rfl
  | some p =>
      dsimp only
      rw [substrTo_zero_some, posAdd, substr]
      split
      · rfl
      · rfl

/-- The line end that separates the lines of the header. -/
def separator (headers : Bytes) : Bytes :=
  match find headers CRLF 0 with
  | none => LF
  | some _ => CRLF

def headerLines (headers : Bytes) : List Bytes := cut (separator headers) headers

section Loop

variable {last : HttpHeader → Bytes → Except Fault HttpHeader}
  {entry : Bytes → Except Fault (Option (Bytes × Bytes))} {headers split : Bytes}

theorem find_of_le {s pat : Bytes} {pos : Nat} (h : pos ≤ s.length) :
    find s pat pos = (search pat (s.drop pos)).map (pos + ·) := if_pos h

/-- The loop reads the lines from a position on. -/
theorem parseLines_eq (hlast : ∀ m line, last m line = (entry line).map (store m))
    (hsplit : split ≠ []) {n pos : Nat} (hpos : pos ≤ headers.length) (hn : headers.length - pos < n)
    (m : HttpHeader) :
    parseLines last headers split n m pos (find headers split pos) =
      (traverseLast lineEntry entry (cut split (headers.drop pos))).map fun es => es.foldl store m := by
  induction n generalizing pos m with
  | zero => exact absurd hn (Nat.not_lt_zero _)
  | succ n ih =>
      rw [find_of_le hpos]
      cases hsearch : search split (headers.drop pos) with
      | none =>
          rw [cut_of_none hsearch, traverseLast, Option.map_none, parseLines, substr_ok hpos]
          show last m (headers.drop pos) = _
          rw [hlast]
          cases entry (headers.drop pos) <;> rfl
      | some i =>
          have hfit := search_fits hsearch
          have hpositive := List.length_pos_iff.mpr hsplit
          rw [List.length_drop] at hfit
          have hnext : pos + i + split.length ≤ headers.length := by omega
          have hrest := @ih (pos + i + split.length) hnext (by omega)
          have hline : substrTo headers pos (some (pos + i)) = .ok ((headers.drop pos).take i) := by
            rw [substrTo, if_neg (by omega), if_pos hpos, Nat.add_sub_cancel_left]
          rw [cut_of_some hsplit hsearch, traverseLast_cons _ (cut_ne_nil hsplit _), List.drop_drop,
            Option.map_some, parseLines, hline]
          show (parseLine m _).bind _ = _
          rw [parseLine_eq, ← Nat.add_assoc]
          cases lineEntry ((headers.drop pos).take i) with
          | error e => rfl
          | ok e =>
              show parseLines last headers split n (store m e) (pos + i + split.length) _ = _
              rw [hrest (store m e)]
              cases traverseLast lineEntry entry
                (cut split (headers.drop (pos + i + split.length))) <;> rfl

theorem parseHeader_eq (hlast : ∀ m line, last m line = (entry line).map (store m)) (m : HttpHeader)
    (headers : Bytes) :
    parseHeader last m headers =
      (traverseLast lineEntry entry (headerLines headers)).map fun es => es.foldl store m := by
  have hloop : ∀ split, split ≠ [] → parseLines last headers split (headers.length + 1) m 0
      (find headers split 0) =
        (traverseLast lineEntry entry (cut split headers)).map fun es => es.foldl store m :=
    fun split hsplit => parseLines_eq hlast hsplit (Nat.zero_le _) (by omega) m
  unfold parseHeader headerLines separator
  cases hfind : find headers CRLF 0 with
  | none => exact hloop LF (by decide)
  | some pos1 =>
      have hCRLF := hloop CRLF (by decide)
      rwa [hfind] at hCRLF

end Loop

theorem find_foldl_store (es : List (Option (Bytes × Bytes))) (m : SortedMap Bytes Bytes) (k : Bytes) :
    (es.foldl store m).find k =
      (((es.reduceOption.reverse.find? fun p => p.1 = k).map Prod.snd)).or (m.find k) := by
  have hfold : es.foldl store m = es.reduceOption.foldl (fun m p => m.set p.1 p.2) m := by
    induction es generalizing m with
    | nil => rfl
    | cons e es ih =>
        cases e with
        | none => exact ih m
        | some e => exact ih (m.set e.1 e.2)
  rw [hfold, SortedMap.find_foldl_set]
  congr 3
  funext p
  exact decide_eq_decide.mpr Iff.rfl

/-! ## The blanks of a start line -/

theorem no_second {a b : Bytes} (hb : 32 ∉ b) :
    find (a ++ (SPACE ++ b)) SPACE (a.length + 1) = none := by
  have hnone := @find_of_not_mem (a ++ SPACE) b 32 [] hb
  rw [List.length_append, List.append_assoc] at hnone
  exact hnone

/-- A start line has no blank, one, or more. -/
theorem startLine_cases (s : Bytes) :
    (s.count 32 = 0 ∧ 32 ∉ s) ∨
    (∃ a b, s.count 32 = 1 ∧ s = a ++ (SPACE ++ b) ∧ 32 ∉ a ∧ 32 ∉ b) ∨
    ∃ a b c, 2 ≤ s.count 32 ∧ s = words a b c ∧ 32 ∉ a ∧ 32 ∉ b := by
  by_cases hfirst : 32 ∈ s
  · rcases List.eq_append_cons_of_mem hfirst with ⟨a, t, hs, ha⟩
    have hcount : s.count 32 = t.count 32 + 1 := by
      rw [hs, List.count_append, List.count_cons_self, List.count_eq_zero.mpr ha, Nat.zero_add]
    by_cases hsecond : 32 ∈ t
    · rcases List.eq_append_cons_of_mem hsecond with ⟨b, c, ht, hb⟩
      have hpos := List.count_pos_iff.mpr hsecond
      exact .inr (.inr ⟨a, b, c, by omega, by rw [hs, ht]; rfl, ha, hb⟩)
    · have hzero := List.count_eq_zero.mpr hsecond
      exact .inr (.inl ⟨a, t, by omega, hs, ha, hsecond⟩)
  · exact .inl ⟨List.count_eq_zero.mpr hfirst, hfirst⟩

/-! ## The parts of a text -/

/-- The start of the blank line. -/
def blankLine (content : Bytes) : Option Nat :=
  match find content (CRLF ++ CRLF) 0 with
  | some pos1 => some pos1
  | none => find content (LF ++ LF) 0

/-- What is stored as the body. -/
def bodyPart (content : Bytes) : Bytes :=
  match find content (CRLF ++ CRLF) 0 with
  | some pos1 => content.drop (pos1 + 4)
  | none => content.drop (posAdd (find content (LF ++ LF) 0) 2)

/-- What is read as the header.  It goes to the end when the blank line is not behind its start. -/
def headerPart (content : Bytes) : Bytes :=
  match blankLine content with
  | none => content.drop (headerStart content)
  | some pos1 =>
      if pos1 < headerStart content then content.drop (headerStart content)
      else (content.drop (headerStart content)).take (pos1 - headerStart content)

section Parts

variable {content : Bytes} {pos : Nat}

theorem startLineEnd_lt (h : startLineEnd content = some pos) : pos + 1 ≤ content.length := by
  unfold startLineEnd at h
  split at h
  · next hfind =>
    cases h
    exact Nat.le_of_succ_le (find_spec hfind).2
  · exact (find_spec h).2

theorem startLineEnd_append {start : Bytes} (h : OneLine start) (rest : Bytes) :
    startLineEnd (start ++ CRLF ++ rest) = some start.length := by
  have hfind : find (start ++ (CRLF ++ rest)) CRLF 0 = some start.length := find_zero h.1
  rw [startLineEnd, List.append_assoc, hfind]

theorem headerStart_le (h : startLineEnd content = some pos) :
    headerStart content ≤ content.length := by
  unfold startLineEnd at h
  unfold headerStart
  split at h
  · next hfind =>
    rw [hfind]
    exact (find_spec hfind).2
  · next hfind =>
    rw [hfind, h]
    exact (find_spec h).2

theorem splitBody_eq (h : startLineEnd content = some pos) :
    splitBody content = .ok (blankLine content, bodyPart content) := by
  unfold splitBody blankLine bodyPart
  cases hblank : find content (CRLF ++ CRLF) 0 with
  | some pos1 =>
      have hle : pos1 + 4 ≤ content.length := (find_spec hblank).2
      dsimp only
      rw [substr_ok hle]
      rfl
  | none =>
      have hle : posAdd (find content (LF ++ LF) 0) 2 ≤ content.length := by
        cases hlf : find content (LF ++ LF) 0 with
        | some pos1 => exact (find_spec hlf).2
        | none => exact Nat.le_trans (Nat.le_add_left 1 pos) (startLineEnd_lt h)
      dsimp only
      rw [substr_ok hle]
      rfl

theorem substrTo_headerPart (h : startLineEnd content = some pos) :
    substrTo content (headerStart content) (blankLine content) = .ok (headerPart content) := by
  have hle := headerStart_le h
  unfold headerPart
  cases blankLine content with
  | none => exact substr_ok hle
  | some pos1 =>
      dsimp only
      by_cases hback : pos1 < headerStart content
      · rw [substrTo, if_pos hback, if_pos hback, substr_ok hle]
      · rw [substrTo, if_neg hback, if_neg hback, if_pos hle]

end Parts

end Http

open Http

/-! ## Requests -/

namespace CHttpRequest

/-- The pair of a parameter, or no pair. -/
def paramEntry (kv : Bytes) : Option (Bytes × Bytes) :=
  (find kv (ascii ['=']) 0).map fun p => (kv.take p, kv.drop (p + 1))

theorem parseParam_eq (m : SortedMap Bytes Bytes) (kv : Bytes) :
    parseParam m kv = .ok (store m (paramEntry kv)) := by
  unfold parseParam paramEntry
  cases hfind : find kv (ascii ['=']) 0 with
  | none => rfl
  | some p =>
      have hle : p + 1 ≤ kv.length := (find_spec hfind).2
      dsimp only
      rw [substrTo_zero_some, substr_ok hle]
      rfl

/-- The loop reads the pairs from a position on. -/
theorem parseParams_eq {param : Bytes} {n pos1 : Nat} (hpos : pos1 ≤ param.length)
    (hn : param.length - pos1 < n) (m : SortedMap Bytes Bytes) :
    parseParams param n m pos1 (find param (ascii ['&']) pos1) =
      .ok (((cut (ascii ['&']) (param.drop pos1)).map paramEntry).foldl store m) := by
  induction n generalizing pos1 m with
  | zero => exact absurd hn (Nat.not_lt_zero _)
  | succ n ih =>
      rw [find_of_le hpos]
      cases hsearch : search (ascii ['&']) (param.drop pos1) with
      | none =>
          rw [cut_of_none hsearch, Option.map_none, parseParams, substr_ok hpos]
          exact parseParam_eq m _
      | some i =>
          have hfit := search_fits hsearch
          have hone : (ascii ['&']).length = 1 := rfl
          rw [List.length_drop, hone] at hfit
          have hkv : substrTo param pos1 (some (pos1 + i)) = .ok ((param.drop pos1).take i) := by
            rw [substrTo, if_neg (by omega), if_pos hpos, Nat.add_sub_cancel_left]
          rw [cut_of_some (by decide) hsearch, List.drop_drop, hone, List.map_cons, List.foldl_cons,
            Option.map_some, parseParams, hkv]
          show (parseParam m _).bind _ = _
          rw [parseParam_eq, ← Nat.add_assoc]
          exact ih (by omega) (by omega) _

theorem ParseParams_eq (r : CHttpRequest) (param : Bytes) :
    r.ParseParams param = .ok { r with
      m_params := ((cut (ascii ['&']) param).map paramEntry).foldl store r.m_params } := by
  have hloop := parseParams_eq (n := param.length + 1) (Nat.zero_le param.length) (by omega)
    r.m_params
  rw [List.drop_zero] at hloop
  rw [ParseParams, hloop]
  rfl

/-- The path of a target, which ends at the first question mark. -/
def targetUri (target : Bytes) : Bytes :=
  match find target (ascii ['?']) 0 with
  | none => target
  | some pos => target.take pos

/-- The pairs behind the question mark. -/
def targetParams (target : Bytes) : List (Option (Bytes × Bytes)) :=
  match find target (ascii ['?']) 0 with
  | none => []
  | some pos => (cut (ascii ['&']) (target.drop (pos + 1))).map paramEntry

theorem ParseStartLine_none {s : Bytes} (h : 32 ∉ s) (r : CHttpRequest) :
    r.ParseStartLine s = .ok r := by
  have hfind : find s SPACE 0 = none := find_of_not_mem (a := []) h
  rw [ParseStartLine, hfind]

theorem ParseStartLine_one {a b : Bytes} (ha : 32 ∉ a) (hb : 32 ∉ b) (r : CHttpRequest) :
    r.ParseStartLine (a ++ (SPACE ++ b)) = .ok { r with m_method := a } := by
  have hfirst : find (a ++ (SPACE ++ b)) SPACE 0 = some a.length := find_zero ha
  rw [ParseStartLine, hfirst]
  simp only [bind, Except.bind, substrTo_zero, no_second hb]

theorem ParseStartLine_two {a b : Bytes} (c : Bytes) (ha : 32 ∉ a) (hb : 32 ∉ b) (r : CHttpRequest) :
    r.ParseStartLine (words a b c) = .ok { r with
      m_method := a
      m_uri := targetUri b
      m_params := (targetParams b).foldl store r.m_params } := by
  rw [ParseStartLine, find_first c ha]
  simp only [bind, Except.bind, first_word, find_second c hb, second_word]
  unfold targetUri targetParams
  cases hquery : find b (ascii ['?']) 0 with
  | none => rfl
  | some pos =>
      have hle : pos + 1 ≤ b.length := (find_spec hquery).2
      simp only [substr_ok hle, ParseParams_eq, substrTo_zero_some]

/-- A text with a line end is parsed part by part. -/
theorem Parse_eq {content : Bytes} {pos : Nat} (h : startLineEnd content = some pos)
    {r r' : CHttpRequest} (hstart : ParseStartLine { r with m_header := .empty, m_params := .empty }
      (content.take pos) = .ok r') :
    r.Parse content = { r' with m_body := bodyPart content }.ParseHeader (headerPart content) := by
  unfold Parse
  dsimp only
  rw [h]
  simp only [bind, Except.bind, substrTo_zero_some, hstart, splitBody_eq h, substrTo_headerPart h]

theorem ParseHeader_eq (r : CHttpRequest) (headers : Bytes) :
    r.ParseHeader headers = (traverseLast lineEntry lineEntry (headerLines headers)).map fun es =>
      { r with m_header := es.foldl store r.m_header } := by
  rw [ParseHeader, parseHeader_eq parseLine_eq]
  cases traverseLast lineEntry lineEntry (headerLines headers) <;> rfl

end CHttpRequest

/-! ## Responses -/

namespace CHttpResponse

theorem ParseStartLine_none {s : Bytes} (h : 32 ∉ s) (r : CHttpResponse) :
    r.ParseStartLine s = .ok r := by
  have hfind : find s SPACE 0 = none := find_of_not_mem (a := []) h
  rw [ParseStartLine, hfind]

theorem ParseStartLine_one {a b : Bytes} (ha : 32 ∉ a) (hb : 32 ∉ b) (r : CHttpResponse) :
    r.ParseStartLine (a ++ (SPACE ++ b)) = .ok { r with m_http_version := a } := by
  have hfirst : find (a ++ (SPACE ++ b)) SPACE 0 = some a.length := find_zero ha
  rw [ParseStartLine, hfirst]
  simp only [bind, Except.bind, substrTo_zero, no_second hb]

theorem ParseStartLine_two {a b : Bytes} (c : Bytes) (ha : 32 ∉ a) (hb : 32 ∉ b)
    (r : CHttpResponse) :
    r.ParseStartLine (words a b c) = .ok { r with
      m_http_version := a
      m_ret_code := b
      m_ret_msg := c } := by
  rw [ParseStartLine, find_first c ha]
  simp only [bind, Except.bind, first_word, find_second c hb, second_word, last_words]

theorem ParseStartLine_ok (r : CHttpResponse) (s : Bytes) :
    ∃ r', r.ParseStartLine s = .ok r' := by
  rcases startLine_cases s with ⟨-, h⟩ | ⟨a, b, -, rfl, ha, hb⟩ | ⟨a, b, c, -, rfl, ha, hb⟩
  · exact ⟨_, ParseStartLine_none h r⟩
  · exact ⟨_, ParseStartLine_one ha hb r⟩
  · exact ⟨_, ParseStartLine_two c ha hb r⟩

theorem Parse_eq {content : Bytes} {pos : Nat} (h : startLineEnd content = some pos)
    {r r' : CHttpResponse} (hstart : r.ParseStartLine (content.take pos) = .ok r') :
    r.Parse content = { r' with m_body := bodyPart content }.ParseHeader (headerPart content) := by
  unfold Parse
  rw [h]
  simp only [bind, Except.bind, substrTo_zero_some, hstart, splitBody_eq h, substrTo_headerPart h]

theorem ParseHeader_eq (r : CHttpResponse) (headers : Bytes) :
    r.ParseHeader headers = (traverseLast lineEntry lastLineEntry (headerLines headers)).map fun es =>
      { r with m_header := es.foldl store r.m_header } := by
  rw [ParseHeader, parseHeader_eq parseLastLine_eq]
  cases traverseLast lineEntry lastLineEntry (headerLines headers) <;> rfl

end CHttpResponse

end CommonCc
