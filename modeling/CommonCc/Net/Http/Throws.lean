import CommonCc.Net.Http.Pieces

/-!
# Header lines that throw

The value of a header line is cut two characters behind the colon, whatever is there.
-/

namespace CommonCc

namespace Http

/-! ## The lines -/

/-- There is a character behind the first colon. -/
def ColonFollowed (line : Bytes) : Prop := ∀ p, find line COLON 0 = some p → p + 2 ≤ line.length

theorem lineEntry_ok_iff (line : Bytes) : (∃ e, lineEntry line = .ok e) ↔ ColonFollowed line := by
  unfold lineEntry ColonFollowed
  cases find line COLON 0 with
  | none => exact ⟨fun _ p hp => (nomatch hp), fun _ => ⟨none, rfl⟩⟩
  | some p =>
      dsimp only
      by_cases hle : p + 2 ≤ line.length
      · rw [if_pos hle]
        exact ⟨fun _ q hq => by cases hq; exact hle, fun _ => ⟨_, rfl⟩⟩
      · rw [if_neg hle]
        exact ⟨fun h => (nomatch h.choose_spec), fun h => absurd (h p rfl) hle⟩

theorem lastLineEntry_eq {line : Bytes} {p : Nat} (h : find line COLON 0 = some p) :
    lastLineEntry line = lineEntry line := by
  rw [lastLineEntry, lineEntry, h]

theorem lastLineEntry_ok_iff (line : Bytes) :
    (∃ e, lastLineEntry line = .ok e) ↔ ColonFollowed line ∧ line ≠ [] := by
  cases hfind : find line COLON 0 with
  | some p =>
      have hlen : p + 1 ≤ line.length := (find_spec hfind).2
      have hne : line ≠ [] := List.ne_nil_of_length_pos (by omega)
      rw [lastLineEntry_eq hfind, lineEntry_ok_iff, and_iff_left hne]
  | none =>
      have hfollowed : ColonFollowed line := by
        intro p hp
        rw [hfind] at hp
        cases hp
      rw [and_iff_right hfollowed, lastLineEntry, hfind]
      dsimp only
      by_cases hle : 1 ≤ line.length
      · rw [if_pos hle]
        exact ⟨fun _ => List.ne_nil_of_length_pos hle, fun _ => ⟨_, rfl⟩⟩
      · rw [if_neg hle]
        refine ⟨fun h => (nomatch h.choose_spec), fun h => absurd (List.length_pos_iff.mpr h) hle⟩

theorem except_map_ok_iff {α β : Type} {x : Except Fault α} {f : α → β} :
    (∃ b, x.map f = .ok b) ↔ ∃ a, x = .ok a := by
  constructor
  · intro h
    rcases h with ⟨b, hb⟩
    rcases map_eq_ok.mp hb with ⟨a, ha, -⟩
    exact ⟨a, ha⟩
  · intro h
    rcases h with ⟨a, ha⟩
    exact ⟨f a, by rw [ha]; rfl⟩

/-- No line of the header throws. -/
def LinesFollowed (content : Bytes) : Prop :=
  ∀ line ∈ headerLines (headerPart content), ColonFollowed line

/-- The last line of the header is not empty. -/
def LastNonempty (content : Bytes) : Prop :=
  ∀ line ∈ (headerLines (headerPart content)).getLast?, line ≠ []

end Http

open Http

/-! ## Whole texts -/

/-- A request is parsed exactly when every colon is followed by a character. -/
theorem CHttpRequest.Parse_ok_iff (r : CHttpRequest) (content : Bytes) :
    (∃ r', r.Parse content = .ok r') ↔ startLineEnd content = none ∨ LinesFollowed content := by
  cases hend : startLineEnd content with
  | none =>
      refine ⟨fun _ => .inl rfl, fun _ => ⟨{ r with m_header := .empty, m_params := .empty }, ?_⟩⟩
      rw [Parse]
      dsimp only
      rw [hend]
  | some pos =>
      rcases ParseStartLine_ok { r with m_header := .empty, m_params := .empty } (content.take pos)
        with ⟨r₁, hstart, -⟩
      rw [Parse_eq hend hstart, ParseHeader_eq, except_map_ok_iff, traverseLast_self_ok_iff,
        or_iff_right (Option.some_ne_none pos), LinesFollowed]
      simp only [lineEntry_ok_iff]

/-- The last line of a response throws when it is empty, too. -/
theorem CHttpResponse.Parse_ok_iff (r : CHttpResponse) (content : Bytes) :
    (∃ r', r.Parse content = .ok r') ↔
      startLineEnd content = none ∨ LinesFollowed content ∧ LastNonempty content := by
  cases hend : startLineEnd content with
  | none =>
      refine ⟨fun _ => .inl rfl, fun _ => ⟨r, ?_⟩⟩
      rw [Parse, hend]
  | some pos =>
      rcases CHttpResponse.ParseStartLine_ok r (content.take pos) with ⟨r₁, hstart⟩
      rw [Parse_eq hend hstart, ParseHeader_eq, except_map_ok_iff, traverseLast_ok_iff,
        or_iff_right (Option.some_ne_none pos)]
      simp only [lineEntry_ok_iff, lastLineEntry_ok_iff]
      have hlines := @forall_dropLast_and_getLast? _ (headerLines (headerPart content)) ColonFollowed
      constructor
      · intro h
        exact ⟨hlines.mp ⟨h.1, fun line hline => (h.2 line hline).1⟩,
          fun line hline => (h.2 line hline).2⟩
      · intro h
        have hall := hlines.mpr h.1
        exact ⟨hall.1, fun line hline => ⟨hall.2 line hline, h.2 line hline⟩⟩

namespace Http

/-- `Parse` of both classes returns. -/
def ReturnsNormally (content : Bytes) : Prop :=
  (∀ r : CHttpRequest, ∃ r', r.Parse content = .ok r') ∧
    ∀ r : CHttpResponse, ∃ r', r.Parse content = .ok r'

/-- A text is parsed by both classes exactly when it has no line end, or a character behind the first
colon of each line of its header and a last line that is not empty. -/
theorem returnsNormally_iff (content : Bytes) :
    ReturnsNormally content ↔
      startLineEnd content = none ∨ LinesFollowed content ∧ LastNonempty content := by
  unfold ReturnsNormally
  constructor
  · intro h
    exact (CHttpResponse.Parse_ok_iff .new content).mp (h.2 .new)
  · intro h
    constructor
    · intro r
      exact (CHttpRequest.Parse_ok_iff r content).mpr (h.imp_right And.left)
    · intro r
      exact (CHttpResponse.Parse_ok_iff r content).mpr h

/-- The request `G / H` with the header line `A:`, and a response without a header line. -/
theorem throws_two :
    (CHttpRequest.new.Parse (ascii ['G', ' ', '/', ' ', 'H'] ++ CRLF ++ ascii ['A', ':'] ++ CRLF ++
      CRLF)).toOption.isSome = false ∧
    (CHttpResponse.new.Parse (ascii ['H', ' ', '2', ' ', 'O'] ++ CRLF ++ CRLF)).toOption.isSome =
      false ∧
    ¬ ∀ content, ReturnsNormally content := by
  have hrequest : (CHttpRequest.new.Parse (ascii ['G', ' ', '/', ' ', 'H'] ++ CRLF ++
      ascii ['A', ':'] ++ CRLF ++ CRLF)).toOption.isSome = false := by decide +kernel
  refine ⟨hrequest, by decide +kernel, fun hall => ?_⟩
  rcases (hall _).1 .new with ⟨r', hr'⟩
  rw [hr'] at hrequest
  cases hrequest

end Http

end CommonCc
