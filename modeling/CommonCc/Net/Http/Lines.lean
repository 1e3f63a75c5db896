import CommonCc.Net.Http.Model

/-!
# The parts of a message

The parser finds the start line, the blank line and the header by separate searches.  In a
text that is put together from lines each search finds the place where the part begins.
-/

namespace CommonCc

namespace Http

/-! ## Lines -/

/-- No line end in a text. -/
def OneLine (s : Bytes) : Prop := 13 ∉ s ∧ 10 ∉ s

/-- A line that is not blank. -/
structure TextLine (l : Bytes) : Prop where
  nonempty : l ≠ []
  oneLine : OneLine l

/-- Lines with line ends only between them. -/
def block (line : Bytes) (rest : List Bytes) : Bytes := line ++ rest.flatMap fun l => CRLF ++ l

theorem block_nil (line : Bytes) : block line [] = line := List.append_nil _

theorem block_cons (line next : Bytes) (rest : List Bytes) :
    block line (next :: rest) = line ++ (CRLF ++ block next rest) := by
  simp [block]

/-- Lines that each end with a line end are a block and one line end more. -/
theorem flatMap_lines (line : Bytes) (rest : List Bytes) :
    ((line :: rest).flatMap fun l => l ++ CRLF) = block line rest ++ CRLF := by
  induction rest generalizing line with
  | nil => simp [block]
  | cons next rest ih =>
      rw [List.flatMap_cons, ih, block_cons]
      simp only [List.append_assoc]

theorem length_block {line : Bytes} {rest : List Bytes} (h : line ≠ []) :
    rest.length < (block line rest).length := by
  have hline : 0 < line.length := List.length_pos_iff.mpr h
  have hrest : rest.length ≤ (rest.flatMap fun l => CRLF ++ l).length := by
    induction rest with
    | nil => exact Nat.le_refl _
    | cons next rest ih =>
        rw [List.flatMap_cons, List.length_append, List.length_append, List.length_cons, CRLF,
          List.length_cons]
        rw [CRLF] at ih
        omega
  rw [block, List.length_append]
  omega

/-- A block of lines does not start with a line end. -/
theorem block_no_CRLF {line : Bytes} {rest : List Bytes} (h : TextLine line) (s : Bytes) :
    ¬ CRLF <+: block line rest ++ s := by
  obtain ⟨c, line', hline⟩ := List.exists_cons_of_ne_nil h.nonempty
  intro hpre
  rw [block, hline, CRLF, List.cons_append, List.cons_append, List.cons_prefix_cons] at hpre
  apply h.oneLine.1
  rw [hline, hpre.1]
  exact List.mem_cons_self

/-! ## Finding the blank line -/

/-- A line is passed over when no blank line follows it. -/
theorem search_line {line s : Bytes} (h : 13 ∉ line) (hs : ¬ CRLF <+: s) :
    search (CRLF ++ CRLF) (line ++ (CRLF ++ s)) =
      (search (CRLF ++ CRLF) s).map (line.length + 2 + ·) := by
  induction line with
  | nil =>
      have h₀ : ¬ CRLF ++ CRLF <+: 13 :: 10 :: s := by
        intro hpre
        exact hs ((List.prefix_append_right_inj CRLF).mp hpre)
      have h₁ : ¬ CRLF ++ CRLF <+: 10 :: s := by
        intro hpre
        exact absurd (List.cons_prefix_cons.mp hpre).1 (by decide)
      show search (CRLF ++ CRLF) (13 :: 10 :: s) = _
      rw [search, if_neg h₀, search, if_neg h₁, Option.map_map]
      congr 1
      funext i
      exact Nat.add_comm i 2
  | cons c line ih =>
      have hc : c ≠ 13 := fun he => h (he ▸ List.mem_cons_self)
      have hno : ¬ CRLF ++ CRLF <+: c :: (line ++ (CRLF ++ s)) := by
        intro hpre
        exact hc (List.cons_prefix_cons.mp hpre).1.symm
      rw [List.cons_append, search, if_neg hno, ih fun hm => h (List.mem_cons_of_mem c hm),
        Option.map_map]
      congr 1
      funext i
      simp only [Function.comp_apply, List.length_cons]
      omega

theorem search_block {line : Bytes} {rest : List Bytes} (h : ∀ l ∈ line :: rest, TextLine l)
    (body : Bytes) :
    search (CRLF ++ CRLF) (block line rest ++ (CRLF ++ CRLF ++ body)) =
      some (block line rest).length := by
  have hline := (h line List.mem_cons_self).oneLine
  induction rest generalizing line with
  | nil =>
      rw [block_nil, ← List.append_assoc]
      exact search_append_of_not_mem hline.1
  | cons next rest ih =>
      have hnext : TextLine next := h next (List.mem_cons_of_mem line List.mem_cons_self)
      rw [block_cons, List.append_assoc, List.append_assoc,
        search_line hline.1 (block_no_CRLF hnext _),
        ih (fun l hl => h l (List.mem_cons_of_mem line hl)) hnext.oneLine]
      simp only [Option.map_some, List.length_append, Option.some.injEq]
      rw [CRLF, List.length_cons]
      simp
      omega

/-! ## A message with a header -/

section Parts

variable {start body line : Bytes} {rest : List Bytes}

/-- A message with at least one header line. -/
def message (start line : Bytes) (rest : List Bytes) (body : Bytes) : Bytes :=
  start ++ (CRLF ++ (block line rest ++ (CRLF ++ CRLF ++ body)))

theorem find_CRLF (hstart : OneLine start) :
    find (message start line rest body) CRLF 0 = some start.length := find_zero hstart.1

theorem startLineEnd_message (hstart : OneLine start) :
    startLineEnd (message start line rest body) = some start.length := by
  rw [startLineEnd, find_CRLF hstart]

theorem headerStart_message (hstart : OneLine start) :
    headerStart (message start line rest body) = start.length + 2 := by
  rw [headerStart, find_CRLF hstart]

theorem search_blank (hstart : OneLine start) (h : ∀ l ∈ line :: rest, TextLine l) :
    search (CRLF ++ CRLF) (message start line rest body) =
      some (start.length + 2 + (block line rest).length) := by
  have hline : TextLine line := h line List.mem_cons_self
  rw [message, search_line hstart.1 (block_no_CRLF hline _), search_block h, Option.map_some]

theorem find_blank (hstart : OneLine start) (h : ∀ l ∈ line :: rest, TextLine l) :
    find (message start line rest body) (CRLF ++ CRLF) 0 =
      some (start.length + 2 + (block line rest).length) := by
  rw [find, searchFrom, if_pos (Nat.zero_le _), List.drop_zero, search_blank hstart h,
    Option.map_some, Nat.zero_add]

theorem splitBody_message (hstart : OneLine start) (h : ∀ l ∈ line :: rest, TextLine l) :
    splitBody (message start line rest body) =
      .ok (some (start.length + 2 + (block line rest).length), body) := by
  have hsplit : message start line rest body =
      (start ++ CRLF ++ block line rest ++ (CRLF ++ CRLF)) ++ body := by
    simp [message]
  have hlen : start.length + 2 + (block line rest).length + 4 =
      (start ++ CRLF ++ block line rest ++ (CRLF ++ CRLF)).length := by
    simp [CRLF]
    omega
  rw [splitBody, find_blank hstart h]
  show (substr _ (start.length + 2 + (block line rest).length + 4)).bind _ = _
  rw [hlen, hsplit, substr_append]
  rfl

theorem start_message :
    substrTo (message start line rest body) 0 (some start.length) = .ok start :=
  substrTo_zero start _

theorem header_message :
    substrTo (message start line rest body) (start.length + 2)
      (some (start.length + 2 + (block line rest).length)) = .ok (block line rest) := by
  have hlen : start.length + 2 = (start ++ CRLF).length := by
    rw [List.length_append]
    rfl
  rw [hlen, message, ← List.append_assoc]
  exact substrTo_append _ _ _

end Parts

/-! ## The parts of a start line -/

section Words

variable {a b : Bytes} (c : Bytes)

/-- A start line: two words and a rest. -/
def words (a b c : Bytes) : Bytes := a ++ (SPACE ++ (b ++ (SPACE ++ c)))

theorem words_oneLine {c : Bytes} (ha : OneLine a) (hb : OneLine b) (hc : OneLine c) :
    OneLine (words a b c) := by
  unfold OneLine at ha hb hc ⊢
  simp [words, SPACE, ha, hb, hc]

theorem words_split : words a b c = (a ++ SPACE) ++ (b ++ (SPACE ++ c)) := by
  rw [words, List.append_assoc]

theorem find_first (ha : 32 ∉ a) : find (words a b c) SPACE 0 = some a.length := find_zero ha

theorem first_word : substrTo (words a b c) 0 (some a.length) = .ok a := substrTo_zero a _

theorem find_second (hb : 32 ∉ b) :
    find (words a b c) SPACE (a.length + 1) = some (a.length + 1 + b.length) := by
  have h := @find_append (a ++ SPACE) b c 32 [] hb
  rw [List.length_append] at h
  rw [words_split]
  exact h

theorem second_word :
    substrTo (words a b c) (a.length + 1) (some (a.length + 1 + b.length)) = .ok b := by
  have h := substrTo_append (a ++ SPACE) b (SPACE ++ c)
  rw [List.length_append] at h
  rw [words_split]
  exact h

theorem last_words : substr (words a b c) (a.length + 1 + b.length + 1) = .ok c := by
  have h := substr_append (a ++ SPACE ++ b ++ SPACE) c
  rw [List.length_append, List.length_append, List.length_append, List.append_assoc,
    List.append_assoc] at h
  rw [words_split]
  exact h

end Words

end Http

open Http

section Parse

variable {start body line : Bytes} {rest : List Bytes}

/-- A message with a header is parsed part by part. -/
theorem CHttpRequest.Parse_message (hstart : OneLine start)
    (h : ∀ l ∈ line :: rest, TextLine l) (r : CHttpRequest) :
    r.Parse (message start line rest body) =
      (ParseStartLine { r with m_header := .empty, m_params := .empty } start).bind fun r' =>
        { r' with m_body := body }.ParseHeader (block line rest) := by
  unfold CHttpRequest.Parse
  rw [startLineEnd_message hstart]
  show (substrTo _ 0 (some _)).bind _ = _
  rw [start_message]
  show (CHttpRequest.ParseStartLine _ start).bind _ = _
  congr 1
  funext r'
  show (splitBody _).bind _ = _
  rw [splitBody_message hstart h]
  show (substrTo _ (headerStart _) (some _)).bind _ = _
  rw [headerStart_message hstart, header_message]
  rfl

theorem CHttpResponse.Parse_message (hstart : OneLine start)
    (h : ∀ l ∈ line :: rest, TextLine l) (r : CHttpResponse) :
    r.Parse (message start line rest body) =
      (r.ParseStartLine start).bind fun r' =>
        { r' with m_body := body }.ParseHeader (block line rest) := by
  unfold CHttpResponse.Parse
  rw [startLineEnd_message hstart]
  show (substrTo _ 0 (some _)).bind _ = _
  rw [start_message]
  show (CHttpResponse.ParseStartLine _ start).bind _ = _
  congr 1
  funext r'
  show (splitBody _).bind _ = _
  rw [splitBody_message hstart h]
  show (substrTo _ (headerStart _) (some _)).bind _ = _
  rw [headerStart_message hstart, header_message]
  rfl

end Parse

end CommonCc
