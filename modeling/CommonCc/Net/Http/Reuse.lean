import CommonCc.Lib.Transition
import CommonCc.Net.Http.Pieces

/-!
# Parser objects that are used again

What is left of an earlier text is compared by two runs of `Parse` on the same text.
-/

namespace CommonCc

namespace Http

/-! ## The keys that a text sets -/

def lineKey (line : Bytes) : Option Bytes := (find line COLON 0).map line.take

/-- The last line of a response without a colon is a key as a whole. -/
def lastLineKey (line : Bytes) : Bytes := (lineKey line).getD line

/-- The keys of the header lines of a response. -/
def lineKeys : List Bytes → List Bytes
  | [] => []
  | [line] => [lastLineKey line]
  | line :: line' :: lines => (lineKey line).toList ++ lineKeys (line' :: lines)

theorem lineKeys_cons (line : Bytes) {lines : List Bytes} (h : lines ≠ []) :
    lineKeys (line :: lines) = (lineKey line).toList ++ lineKeys lines := by
  cases lines with
  | nil => exact absurd rfl h
  | cons line' lines => rfl

theorem lineEntry_key {line : Bytes} {e : Option (Bytes × Bytes)} (h : lineEntry line = .ok e) :
    e.map Prod.fst = lineKey line := by
  unfold lineEntry at h
  unfold lineKey
  cases hfind : find line COLON 0 with
  | none =>
      rw [hfind] at h
      cases h
      rfl
  | some p =>
      rw [hfind] at h
      dsimp only at h
      split at h
      · cases h
        rfl
      · cases h

theorem lastLineEntry_key {line : Bytes} {e : Option (Bytes × Bytes)}
    (h : lastLineEntry line = .ok e) : e.map Prod.fst = some (lastLineKey line) := by
  unfold lastLineEntry at h
  unfold lastLineKey lineKey
  cases hfind : find line COLON 0 with
  | none =>
      rw [hfind] at h
      dsimp only at h
      split at h
      · cases h
        rfl
      · cases h
  | some p =>
      rw [hfind] at h
      dsimp only at h
      split at h
      · cases h
        rfl
      · cases h

/-- The keys of the pairs that are read. -/
theorem lineKeys_eq {lines : List Bytes} {es : List (Option (Bytes × Bytes))}
    (h : traverseLast lineEntry lastLineEntry lines = .ok es) :
    es.reduceOption.map Prod.fst = lineKeys lines := by
  induction lines generalizing es with
  | nil =>
      cases h
      rfl
  | cons line lines ih =>
      by_cases hlines : lines = []
      · subst hlines
        rcases map_eq_ok.mp h with ⟨e, he, rfl⟩
        have hkey := lastLineEntry_key he
        cases e with
        | none => cases hkey
        | some e =>
            rw [lineKeys, ← Option.some.inj hkey]
            rfl
      · rw [traverseLast_cons line hlines] at h
        rcases bind_eq_ok.mp h with ⟨e, he, hrest⟩
        rcases map_eq_ok.mp hrest with ⟨es', hes', rfl⟩
        rw [lineKeys_cons line hlines, ← ih hes', ← lineEntry_key he]
        cases e <;> rfl

/-- Two maps are the same after the same pairs when they agree at the other keys. -/
theorem foldl_store_eq_iff (es : List (Option (Bytes × Bytes))) (m₁ m₂ : SortedMap Bytes Bytes) :
    es.foldl store m₁ = es.foldl store m₂ ↔
      ∀ k, k ∉ es.reduceOption.map Prod.fst → m₁.find k = m₂.find k := by
  have hset : ∀ k, (es.reduceOption.reverse.find? fun p => p.1 = k) = none ↔
      k ∉ es.reduceOption.map Prod.fst := by
    intro k
    rw [List.find?_eq_none]
    constructor
    · intro h hk
      rcases List.mem_map.mp hk with ⟨p, hp, rfl⟩
      exact h p (List.mem_reverse.mpr hp) (decide_eq_true rfl)
    · intro h p hp heq
      exact h (List.mem_map.mpr ⟨p, List.mem_reverse.mp hp, of_decide_eq_true heq⟩)
  constructor
  · intro h k hk
    have hfind : (es.foldl store m₁).find k = (es.foldl store m₂).find k := by rw [h]
    rw [find_foldl_store, find_foldl_store, (hset k).mpr hk] at hfind
    exact hfind
  · intro h
    apply SortedMap.ext_find
    intro k
    rw [find_foldl_store, find_foldl_store]
    cases hfound : es.reduceOption.reverse.find? fun p => p.1 = k with
    | none => exact h k ((hset k).mp hfound)
    | some p => rfl

end Http

open Http

/-! ## Requests -/

/-- Two requests agree in what `Parse` of the text does not replace. -/
def CHttpRequest.Agree (content : Bytes) (r₁ r₂ : CHttpRequest) : Prop :=
  match startLineEnd content with
  | none => r₁.m_method = r₂.m_method ∧ r₁.m_uri = r₂.m_uri ∧ r₁.m_body = r₂.m_body
  | some pos =>
      ((content.take pos).count 32 = 0 → r₁.m_method = r₂.m_method) ∧
        ((content.take pos).count 32 ≤ 1 → r₁.m_uri = r₂.m_uri)

theorem CHttpRequest.Parse_left {content : Bytes} {pos : Nat} {r r₁ r' : CHttpRequest}
    (hend : startLineEnd content = some pos)
    (hstart : ParseStartLine { r with m_header := .empty, m_params := .empty } (content.take pos) =
      .ok r₁) (h : r.Parse content = .ok r') :
    ∃ es, traverseLast lineEntry lineEntry (headerLines (headerPart content)) = .ok es ∧
      r' = { r₁ with m_body := bodyPart content, m_header := es.foldl store r₁.m_header } := by
  rw [Parse_eq hend hstart, ParseHeader_eq] at h
  rcases map_eq_ok.mp h with ⟨es, hes, hr⟩
  exact ⟨es, hes, hr.symm⟩

/-- Two runs leave the same request exactly when what is not replaced was the same. -/
theorem CHttpRequest.Parse_same_iff {content : Bytes} {r₁ r₂ r₁' r₂' : CHttpRequest}
    (h₁ : r₁.Parse content = .ok r₁') (h₂ : r₂.Parse content = .ok r₂') :
    r₁' = r₂' ↔ Agree content r₁ r₂ := by
  unfold Agree
  cases hend : startLineEnd content with
  | none =>
      rw [Parse] at h₁ h₂
      dsimp only at h₁ h₂
      rw [hend] at h₁ h₂
      cases h₁
      cases h₂
      simp
  | some pos =>
      dsimp only
      rcases startLine_cases (content.take pos) with
        ⟨hcount, hs⟩ | ⟨a, b, hcount, hs, ha, hb⟩ | ⟨a, b, c, hcount, hs, ha, hb⟩
      · rcases Parse_left hend (ParseStartLine_none hs _) h₁ with ⟨es, hes, rfl⟩
        rcases Parse_left hend (ParseStartLine_none hs _) h₂ with ⟨es', hes', rfl⟩
        rw [hes] at hes'
        cases hes'
        simp [hcount]
      · rcases Parse_left hend (hs ▸ ParseStartLine_one ha hb _) h₁ with ⟨es, hes, rfl⟩
        rcases Parse_left hend (hs ▸ ParseStartLine_one ha hb _) h₂ with ⟨es', hes', rfl⟩
        rw [hes] at hes'
        cases hes'
        simp [hcount]
      · rcases Parse_left hend (hs ▸ ParseStartLine_two c ha hb _) h₁ with ⟨es, hes, rfl⟩
        rcases Parse_left hend (hs ▸ ParseStartLine_two c ha hb _) h₂ with ⟨es', hes', rfl⟩
        rw [hes] at hes'
        cases hes'
        have hnot : ¬ (content.take pos).count 32 = 0 ∧ ¬ (content.take pos).count 32 ≤ 1 :=
          ⟨by omega, by omega⟩
        simp [hnot]

/-! ## Responses -/

/-- Two responses agree in what `Parse` of the text does not replace.  The header is never
cleared. -/
def CHttpResponse.Agree (content : Bytes) (r₁ r₂ : CHttpResponse) : Prop :=
  match startLineEnd content with
  | none => r₁ = r₂
  | some pos =>
      ((content.take pos).count 32 = 0 → r₁.m_http_version = r₂.m_http_version) ∧
        ((content.take pos).count 32 ≤ 1 →
          r₁.m_ret_code = r₂.m_ret_code ∧ r₁.m_ret_msg = r₂.m_ret_msg) ∧
        ∀ k, k ∉ lineKeys (headerLines (headerPart content)) →
          r₁.m_header.find k = r₂.m_header.find k

theorem CHttpResponse.Parse_left {content : Bytes} {pos : Nat} {r r₁ r' : CHttpResponse}
    (hend : startLineEnd content = some pos)
    (hstart : r.ParseStartLine (content.take pos) = .ok r₁) (h : r.Parse content = .ok r') :
    ∃ es, traverseLast lineEntry lastLineEntry (headerLines (headerPart content)) = .ok es ∧
      r' = { r₁ with m_body := bodyPart content, m_header := es.foldl store r₁.m_header } := by
  rw [Parse_eq hend hstart, ParseHeader_eq] at h
  rcases map_eq_ok.mp h with ⟨es, hes, hr⟩
  exact ⟨es, hes, hr.symm⟩

theorem CHttpResponse.Parse_same_iff {content : Bytes} {r₁ r₂ r₁' r₂' : CHttpResponse}
    (h₁ : r₁.Parse content = .ok r₁') (h₂ : r₂.Parse content = .ok r₂') :
    r₁' = r₂' ↔ Agree content r₁ r₂ := by
  unfold Agree
  cases hend : startLineEnd content with
  | none =>
      rw [Parse, hend] at h₁ h₂
      cases h₁
      cases h₂
      exact Iff.rfl
  | some pos =>
      dsimp only
      rcases startLine_cases (content.take pos) with
        ⟨hcount, hs⟩ | ⟨a, b, hcount, hs, ha, hb⟩ | ⟨a, b, c, hcount, hs, ha, hb⟩
      · rcases Parse_left hend (ParseStartLine_none hs _) h₁ with ⟨es, hes, rfl⟩
        rcases Parse_left hend (ParseStartLine_none hs _) h₂ with ⟨es', hes', rfl⟩
        rw [hes] at hes'
        cases hes'
        rw [← lineKeys_eq hes, ← foldl_store_eq_iff]
        simp [hcount]
        tauto
      · rcases Parse_left hend (hs ▸ ParseStartLine_one ha hb _) h₁ with ⟨es, hes, rfl⟩
        rcases Parse_left hend (hs ▸ ParseStartLine_one ha hb _) h₂ with ⟨es', hes', rfl⟩
        rw [hes] at hes'
        cases hes'
        rw [← lineKeys_eq hes, ← foldl_store_eq_iff]
        simp [hcount]
        tauto
      · rcases Parse_left hend (hs ▸ ParseStartLine_two c ha hb _) h₁ with ⟨es, hes, rfl⟩
        rcases Parse_left hend (hs ▸ ParseStartLine_two c ha hb _) h₂ with ⟨es', hes', rfl⟩
        rw [hes] at hes'
        cases hes'
        rw [← lineKeys_eq hes, ← foldl_store_eq_iff]
        have hnot : ¬ (content.take pos).count 32 = 0 ∧ ¬ (content.take pos).count 32 ≤ 1 :=
          ⟨by omega, by omega⟩
        simp [hnot]

namespace Http

/-- `H 2 O` and the header line `A: b`. -/
def shortResponse : Bytes :=
  ascii ['H', ' ', '2', ' ', 'O'] ++ CRLF ++ ascii ['A', ':', ' ', 'b'] ++ CRLF ++ CRLF

/-- A response that has a header `X`. -/
def usedResponse : CHttpResponse := CHttpResponse.new.SetHeader (ascii ['X']) (ascii ['1'])

/-- A request for `/b`. -/
def usedRequest : CHttpRequest := CHttpRequest.new.SetUri (ascii ['/', 'b'])

end Http

end CommonCc
