import CommonCc.Utils.Wildcard.Sets

/-!
# The language of a pattern

The patterns as syntax trees, and what `MatchWildcard` says of a text against what the pattern
stands for.
-/

namespace CommonCc

namespace StringUtility

/-! ## Syntax -/

/-- An entry of a set: a character, which may stand behind a backslash, or the range from it
to `last`. -/
structure SetItem where
  first : UInt8
  escaped : Bool
  last : Option UInt8
deriving Repr, DecidableEq

inductive Token where
  | char (c : UInt8) (escaped : Bool)
  | any
  | star
  | set (items : List SetItem)
deriving Repr, DecidableEq

/-- What follows the character when it begins a range. -/
def SetItem.rangeText (item : SetItem) : Bytes := item.last.elim [] fun last => [45, last]

def SetItem.render (item : SetItem) : Bytes :=
  if item.escaped then 92 :: item.first :: item.rangeText else item.first :: item.rangeText

def Token.render : Token → Bytes
  | .char c escaped => if escaped then [92, c] else [c]
  | .any => [63]
  | .star => [42]
  | .set items => 91 :: (items.flatMap SetItem.render ++ [93])

/-- A backslash or a `]` stands for itself only behind a backslash, and a `-` also at the
begin of the set.  A range does not end with a backslash or a `]`. -/
def SetItem.Valid (front : Bool) (item : SetItem) : Prop :=
  (item.escaped = false → item.first ≠ 92 ∧ item.first ≠ 93 ∧ (front = false → item.first ≠ 45)) ∧
    ∀ last, item.last = some last → last ≠ 92 ∧ last ≠ 93

def ValidItems : List SetItem → Prop
  | [] => True
  | item :: items => item.Valid true ∧ ∀ other ∈ items, other.Valid false

def Token.Valid : Token → Prop
  | .char c escaped => escaped = false → c ≠ 42 ∧ c ≠ 91 ∧ c ≠ 63 ∧ c ≠ 92
  | .any => True
  | .star => True
  | .set items => ValidItems items

/-- A pattern without malformed brackets or a trailing backslash. -/
structure Wildcard where
  tokens : List Token
  valid : ∀ t ∈ tokens, t.Valid

def Wildcard.render (w : Wildcard) : Bytes := w.tokens.flatMap Token.render

/-! ## Meaning -/

def SetItem.accepts (item : SetItem) (c : UInt8) : Bool :=
  match item.last with
  | none => c = item.first
  | some last => schar item.first ≤ schar c && schar c ≤ schar last

def Token.accepts : Token → UInt8 → Bool
  | .char d _, c => d = c
  | .any, _ => true
  | .star, _ => false
  | .set items, c => items.any fun item => item.accepts c

/-- What a token stands for. -/
def Token.glob : Token → Glob UInt8
  | .star => .many
  | t => .one t.accepts

/-- The text is in the language of the pattern. -/
def Wildcard.Matches (w : Wildcard) (s : Bytes) : Prop := Glob.Matches (w.tokens.map Token.glob) s

/-- It is so with a `*` for at least one character, and for at least two at the end. -/
def Wildcard.MatchesLong (w : Wildcard) (s : Bytes) : Prop :=
  Glob.MatchesLong 1 2 (w.tokens.map Token.glob) s

/-- The set has a range to the largest `char`. -/
def Token.endless : Token → Bool
  | .set items => items.any fun item => item.last = some 127
  | _ => false

/-- The search comes to an endless set.  Behind a `*` it goes from the longest suffix on, and
stops at the first one that matches. -/
def Stuck : List Token → Bytes → Prop
  | [], _ => False
  | _ :: _, [] => False
  | .star :: tokens, _ :: s =>
      StuckFirst (Stuck tokens) (Glob.MatchesLong 1 2 (tokens.map Token.glob)) s
  | t :: tokens, c :: s => t.endless = true ∨ (t.accepts c = true ∧ Stuck tokens s)

/-! ## Reading a set -/

section Items

variable {item : SetItem} {items : List SetItem} {front : Bool} {before : Option UInt8}

theorem setEnd_plain {c : UInt8} (hclose : c ≠ 93) (hslash : c ≠ 92) (rest : Bytes) :
    setEnd (c :: rest) = (setEnd rest).map fun p => (c :: p.1, p.2) := by
  rw [setEnd.eq_def]
  simp only [if_neg hclose, if_neg hslash]

theorem setEnd_escape (e : UInt8) (rest : Bytes) :
    setEnd (92 :: e :: rest) = (setEnd rest).map fun p => (92 :: e :: p.1, p.2) := by
  rw [setEnd.eq_def]
  rfl

theorem render_escaped (h : item.escaped = true) :
    item.render = 92 :: item.first :: item.rangeText := by
  rw [SetItem.render, if_pos h]

theorem render_plain (h : item.escaped = false) : item.render = item.first :: item.rangeText := by
  rw [SetItem.render, h, if_neg Bool.false_ne_true]

theorem setEnd_rangeText (h : item.Valid front) (rest : Bytes) :
    setEnd (item.rangeText ++ rest) = (setEnd rest).map fun p => (item.rangeText ++ p.1, p.2) := by
  unfold SetItem.rangeText
  cases hlast : item.last with
  | none => exact Option.map_id'.symm
  | some last =>
      have hplain := h.2 last hlast
      show setEnd (45 :: last :: rest) = _
      rw [setEnd_plain (by decide) (by decide), setEnd_plain hplain.2 hplain.1, Option.map_map]
      rfl

theorem setEnd_item (h : item.Valid front) (rest : Bytes) :
    setEnd (item.render ++ rest) = (setEnd rest).map fun p => (item.render ++ p.1, p.2) := by
  cases he : item.escaped with
  | true =>
      rw [render_escaped he, List.cons_append, List.cons_append, setEnd_escape,
        setEnd_rangeText h, Option.map_map]
      rfl
  | false =>
      have hplain := h.1 he
      rw [render_plain he, List.cons_append, setEnd_plain hplain.2.1 hplain.1,
        setEnd_rangeText h, Option.map_map]
      rfl

theorem setEnd_items (h : ∀ item ∈ items, ∃ front, item.Valid front) (rest : Bytes) :
    setEnd (items.flatMap SetItem.render ++ 93 :: rest) =
      some (items.flatMap SetItem.render, rest) := by
  induction items with
  | nil => rw [List.flatMap_nil, List.nil_append, setEnd.eq_def]; rfl
  | cons item items ih =>
      cases h item List.mem_cons_self with
      | intro front hvalid =>
          rw [List.flatMap_cons, List.append_assoc, setEnd_item hvalid,
            ih fun other hother => h other (List.mem_cons_of_mem _ hother)]
          rfl

theorem ValidItems.exists_front (h : ValidItems items) (hitem : item ∈ items) :
    ∃ front, item.Valid front := by
  cases items with
  | nil => cases hitem
  | cons other items =>
      cases List.mem_cons.mp hitem with
      | inl hsame =>
          rw [hsame]
          exact ⟨true, h.1⟩
      | inr hmem => exact ⟨false, h.2 item hmem⟩

/-- What is read for an entry. -/
def SetItem.tokens (item : SetItem) : List SetToken :=
  .single item.first :: item.last.elim [] fun last => [.range item.first last]

theorem readSet_rangeText (item : SetItem) (rest : Bytes) :
    readSet (some item.first) (item.rangeText ++ rest) =
      (item.last.elim [] (fun last => [.range item.first last]) ++
          (readSet (some (item.last.getD item.first)) rest).1,
        (readSet (some (item.last.getD item.first)) rest).2) := by
  unfold SetItem.rangeText
  cases item.last with
  | none => rfl
  | some last => exact readSet_range item.first last rest

theorem readSet_item (h : item.Valid front) (hfront : front = true → before = none)
    (rest : Bytes) : readSet before (item.render ++ rest) =
      (item.tokens ++ (readSet (some (item.last.getD item.first)) rest).1,
        (readSet (some (item.last.getD item.first)) rest).2) := by
  cases he : item.escaped with
  | true =>
      rw [render_escaped he, List.cons_append, List.cons_append, readSet_escape,
        readSet_rangeText]
      rfl
  | false =>
      have hplain := h.1 he
      have hrange := readSet_rangeText item rest
      rw [render_plain he, List.cons_append]
      by_cases hdash : item.first = 45
      · have hnone : before = none := by
          apply hfront
          cases front with
          | true => rfl
          | false => exact absurd hdash (hplain.2.2 rfl)
        rw [SetItem.tokens]
        rw [hdash] at hrange ⊢
        rw [hnone, readSet_first, hrange]
        rfl
      · rw [readSet_plain hdash hplain.1, hrange]
        rfl

theorem readSet_items (h : ∀ item ∈ items, item.Valid false) (before : Option UInt8) :
    readSet before (items.flatMap SetItem.render) = (items.flatMap SetItem.tokens, true) := by
  induction items generalizing before with
  | nil => rw [List.flatMap_nil, readSet.eq_def]; rfl
  | cons item items ih =>
      have hrest := ih fun other hother => h other (List.mem_cons_of_mem _ hother)
      rw [List.flatMap_cons, List.flatMap_cons,
        readSet_item (h item List.mem_cons_self) (fun hf => by cases hf), hrest]

theorem readSet_valid (h : ValidItems items) :
    readSet none (items.flatMap SetItem.render) = (items.flatMap SetItem.tokens, true) := by
  cases items with
  | nil => rw [List.flatMap_nil, readSet.eq_def]; rfl
  | cons item items =>
      rw [List.flatMap_cons, List.flatMap_cons, readSet_item h.1 (fun _ => rfl),
        readSet_items h.2]

/-- The characters that are collected for an entry. -/
def SetItem.chars (item : SetItem) : Bytes :=
  item.last.elim [item.first] fun last => charsFrom item.first (rangeSize item.first last)

theorem mem_chars (item : SetItem) (c : UInt8) : c ∈ item.chars ↔ item.accepts c = true := by
  unfold SetItem.chars SetItem.accepts
  cases item.last with
  | none => simp
  | some last =>
      rw [Option.elim_some, mem_range]
      simp

theorem schar_eq_max {c : UInt8} : schar c = 127 ↔ c = 127 := by
  constructor
  · intro h
    exact schar_inj (h.trans (by decide))
  · intro h
    rw [h]
    decide

theorem run_item_endless (h : item.last = some 127) (set : Bytes) :
    item.tokens.foldlM SetToken.run set = .error .diverges := by
  have hne : set ++ [item.first] ≠ [] := List.append_ne_nil_of_right_ne_nil _ (List.cons_ne_nil _ _)
  rw [SetItem.tokens, h, List.foldlM_cons]
  show SetToken.run (set ++ [item.first]) (.range item.first 127) >>= _ = _
  rw [run_range_endless (by decide) hne]
  rfl

theorem run_item (h : item.last ≠ some 127) (set : Bytes) :
    item.tokens.foldlM SetToken.run set = .ok (set ++ item.chars) := by
  unfold SetItem.tokens SetItem.chars
  cases hlast : item.last with
  | none => rfl
  | some last =>
      have hmax : schar last ≠ 127 := by
        intro hc
        rw [hlast, schar_eq_max.mp hc] at h
        exact h rfl
      have hfirst := schar_mem item.first
      have hle := schar_mem last
      have hsize : rangeSize item.first last < 256 := by
        unfold rangeSize
        omega
      have hrange : SetToken.run (set ++ [item.first]) (.range item.first last) =
          .ok (set ++ charsFrom item.first (rangeSize item.first last)) := by
        rw [run_range_eq_ok, List.dropLast_concat]
        exact ⟨List.append_ne_nil_of_right_ne_nil _ (List.cons_ne_nil _ _),
          rangeLoop_ends hmax hsize⟩
      rw [List.foldlM_cons]
      show SetToken.run (set ++ [item.first]) (.range item.first last) >>= _ = _
      rw [hrange]
      rfl

theorem run_items_endless (h : ∃ item ∈ items, item.last = some 127) (set : Bytes) :
    (items.flatMap SetItem.tokens).foldlM SetToken.run set = .error .diverges := by
  induction items generalizing set with
  | nil =>
      obtain ⟨item, hmem, _⟩ := h
      cases hmem
  | cons item items ih =>
      rw [List.flatMap_cons, List.foldlM_append]
      by_cases hitem : item.last = some 127
      · rw [run_item_endless hitem]
        rfl
      · rw [run_item hitem]
        apply ih
        obtain ⟨other, hmem, hlast⟩ := h
        cases List.mem_cons.mp hmem with
        | inl hsame =>
            rw [hsame] at hlast
            exact absurd hlast hitem
        | inr hmem => exact ⟨other, hmem, hlast⟩

theorem run_items (h : ∀ item ∈ items, item.last ≠ some 127) (set : Bytes) :
    (items.flatMap SetItem.tokens).foldlM SetToken.run set =
      .ok (set ++ items.flatMap SetItem.chars) := by
  induction items generalizing set with
  | nil =>
      rw [List.flatMap_nil, List.flatMap_nil, List.append_nil]
      rfl
  | cons item items ih =>
      rw [List.flatMap_cons, List.flatMap_cons, List.foldlM_append,
        run_item (h item List.mem_cons_self), ← List.append_assoc]
      exact ih (fun other hother => h other (List.mem_cons_of_mem _ hother)) _

/-- A set is expanded without end when it is endless, and else holds what its entries
accept. -/
theorem MatchSet_items (h : ValidItems items) (c : UInt8) :
    MatchSet (items.flatMap SetItem.render) c =
      if (Token.set items).endless then .error .diverges else .ok ((Token.set items).accepts c) := by
  rw [MatchSet_eq_run, readSet_valid h]
  by_cases hend : (Token.set items).endless = true
  · rw [if_pos hend]
    have hlast : ∃ item ∈ items, item.last = some 127 := by
      simpa [Token.endless] using hend
    rw [run_items_endless hlast]
    rfl
  · rw [if_neg hend]
    have hlast : ∀ item ∈ items, item.last ≠ some 127 := by
      simpa [Token.endless] using hend
    rw [run_items hlast]
    show Except.ok (decide (c ∈ items.flatMap SetItem.chars)) = _
    congr 1
    rw [Bool.eq_iff_iff, decide_eq_true_eq, List.mem_flatMap, Token.accepts, List.any_eq_true]
    simp only [mem_chars]

end Items

/-! ## Matching -/

section Rounds

variable {t : Token} {tokens : List Token} {c : UInt8}

/-- One character against a token that is no star. -/
theorem MatchRemainder_token (ht : t ≠ .star) (hvalid : t.Valid) (itWild : Bytes) (c : UInt8)
    (itMatch : Bytes) : MatchRemainder (t.render ++ itWild) (c :: itMatch) =
      if t.endless then .error .diverges
      else if t.accepts c then MatchRemainder itWild itMatch else .ok false := by
  cases t with
  | star => exact absurd rfl ht
  | any => exact MatchRemainder_any itWild c itMatch
  | char d escaped =>
      show _ = if decide (d = c) = true then _ else _
      simp only [decide_eq_true_eq]
      cases escaped with
      | true => exact MatchRemainder_escape d itWild c itMatch
      | false =>
          have hplain := hvalid rfl
          exact MatchRemainder_plain hplain.1 hplain.2.1 hplain.2.2.1 hplain.2.2.2
  | set items =>
      have hend := setEnd_items (fun item hitem => ValidItems.exists_front hvalid hitem) itWild
      rw [Token.render, List.cons_append, List.append_assoc, List.singleton_append,
        MatchRemainder_set hend, MatchSet_items hvalid]
      cases (Token.set items).endless with
      | true => rfl
      | false => rfl

theorem render_ne_nil (t : Token) (itWild : Bytes) : t.render ++ itWild ≠ [] := by
  cases t with
  | char c escaped => cases escaped <;> exact List.cons_ne_nil _ _
  | any => exact List.cons_ne_nil _ _
  | star => exact List.cons_ne_nil _ _
  | set items => exact List.cons_ne_nil _ _

theorem glob_eq_one (ht : t ≠ .star) : t.glob = .one t.accepts := by
  cases t with
  | star => exact absurd rfl ht
  | _ => rfl

theorem stuck_cons (ht : t ≠ .star) (c : UInt8) (s : Bytes) :
    Stuck (t :: tokens) (c :: s) ↔ t.endless = true ∨ (t.accepts c = true ∧ Stuck tokens s) := by
  cases t with
  | star => exact absurd rfl ht
  | _ => exact Iff.rfl

/-- What the results behind a character are worth in front of it. -/
theorem decides_token {w s : Bytes} (ht : t ≠ .star) (hvalid : t.Valid) (c : UInt8)
    (h : Decides .diverges (Stuck tokens s) (Glob.MatchesLong 1 2 (tokens.map Token.glob) s)
      (MatchRemainder w s)) :
    Decides .diverges (Stuck (t :: tokens) (c :: s))
      (Glob.MatchesLong 1 2 ((t :: tokens).map Token.glob) (c :: s))
      (MatchRemainder (t.render ++ w) (c :: s)) := by
  rw [MatchRemainder_token ht hvalid, List.map_cons, glob_eq_one ht, stuck_cons ht,
    Glob.matchesLong_one]
  cases t.endless with
  | true =>
      rw [if_pos rfl]
      exact ⟨fun _ => rfl, fun hstuck => absurd (.inl rfl) hstuck⟩
  | false =>
      rw [if_neg Bool.false_ne_true]
      cases t.accepts c with
      | true =>
          rw [if_pos rfl]
          apply h.congr
          · simp
          · simp
      | false =>
          rw [if_neg Bool.false_ne_true]
          apply decides_ok
          · simp
          · simp

/-- The star at the end. -/
theorem decides_star_end (c : UInt8) (s : Bytes) :
    Decides .diverges (Stuck [.star] (c :: s)) (Glob.MatchesLong 1 2 [.many] (c :: s))
      (starLoop [] s) := by
  rw [starLoop_end, Glob.matchesLong_last]
  apply decides_ok
  · exact not_stuckFirst (fun _ h => h) s
  · cases s <;> simp

/-- A star with more pattern behind it. -/
theorem decides_star {w : Bytes} (hw : w ≠ []) (htokens : tokens ≠ []) (c : UInt8)
    (h : ∀ s, Decides .diverges (Stuck tokens s)
      (Glob.MatchesLong 1 2 (tokens.map Token.glob) s) (MatchRemainder w s)) (s : Bytes) :
    Decides .diverges (Stuck (.star :: tokens) (c :: s))
      (Glob.MatchesLong 1 2 (.many :: tokens.map Token.glob) (c :: s)) (starLoop w s) := by
  rw [starLoop_eq hw]
  apply (trySuffixes_decides (fun d t => h (d :: t)) s).congr Iff.rfl
  exact Glob.matchesLong_many Nat.zero_lt_two (fun hnil => htokens (List.map_eq_nil_iff.mp hnil)) c

/-- The search runs without end where it is stuck, and else matches the texts that are in the
language with long stars. -/
theorem MatchRemainder_decides (hvalid : ∀ t ∈ tokens, t.Valid) (s : Bytes) :
    Decides .diverges (Stuck tokens s) (Glob.MatchesLong 1 2 (tokens.map Token.glob) s)
      (MatchRemainder (tokens.flatMap Token.render) s) := by
  induction tokens generalizing s with
  | nil =>
      rw [List.flatMap_nil, MatchRemainder_end]
      exact decides_ok (fun h => h) List.isEmpty_iff
  | cons t tokens ih =>
      have hrest := ih fun u hu => hvalid u (List.mem_cons_of_mem _ hu)
      rw [List.flatMap_cons]
      cases s with
      | nil =>
          rw [MatchRemainder_nil, List.isEmpty_eq_false_iff.mpr (render_ne_nil t _)]
          apply decides_ok (fun h => h)
          exact iff_of_false Bool.false_ne_true
            (Glob.not_matchesLong_nil Nat.zero_lt_one Nat.zero_lt_two _)
      | cons c s =>
          by_cases ht : t = .star
          · rw [ht]
            show Decides _ _ _ (MatchRemainder (42 :: tokens.flatMap Token.render) (c :: s))
            rw [MatchRemainder_star]
            cases tokens with
            | nil => exact decides_star_end c s
            | cons u tokens =>
                have hw := render_ne_nil u (tokens.flatMap Token.render)
                rw [List.flatMap_cons] at hrest ⊢
                exact decides_star hw (List.cons_ne_nil _ _) c hrest s
          · exact decides_token ht (hvalid t List.mem_cons_self) c (hrest s)

end Rounds

end StringUtility

end CommonCc
