import CommonCc.Lib.Transition
import CommonCc.TinyXml.Safety

/-!
# Every document is parsed

Elements read their children with the reader for the shorter texts, so that the induction is on
the steps that are left to `ReadValue`.
-/

namespace CommonCc

namespace TinyXml

variable {encoding : TiXmlEncoding} {p q r s t : Bytes} {c : UInt8} {α : Type}

/-- `Identify` never fails, and finds a node at a tag only. -/
theorem identify_cases (o : Option Bytes) (encoding : TiXmlEncoding) :
    Identify o encoding = .ok none ∨ ∃ s type, SkipWhiteSpace o encoding = some (60 :: s) ∧
      Identify o encoding = .ok (some type) ∧ (type = .element → s ≠ []) := by
  by_cases hskip : ∃ s, SkipWhiteSpace o encoding = some (60 :: s)
  · right
    obtain ⟨s, hskip⟩ := hskip
    have htag : Identify o encoding = Identify (some (60 :: s)) encoding := by
      simp only [Identify, hskip, skip_tag]
    rw [htag, identify_at (skip_tag s)]
    have hany : ∀ {x : Except Fault (Option NodeType)} {type : NodeType}, x = .ok (some type) →
        (type = .element → s ≠ []) → ∃ s' type', SkipWhiteSpace o encoding = some (60 :: s') ∧
          x = .ok (some type') ∧ (type' = .element → s' ≠ []) :=
      fun hx hs => ⟨s, _, hskip, hx, hs⟩
    split
    · exact hany rfl (by simp)
    · split
      · exact hany rfl (by simp)
      · split
        · exact hany rfl (by simp)
        · split
          · exact hany rfl (by simp)
          · split
            · rename_i hname
              apply hany rfl
              intro _ hnil
              subst hnil
              exact absurd hname (by decide)
            · exact hany rfl (by simp)
  · left
    unfold Identify
    split
    · rename_i s hs
      exact absurd ⟨s, hs⟩ hskip
    · rfl

/-- A reader of the children behind a tag, for texts up to a length. -/
def Reads (encoding : TiXmlEncoding) (n : Nat) (readValue : ValueReader) : Prop :=
  ∀ (p : Bytes) (children : List TiXmlNode) (error : Option TiXmlError), p.length ≤ n →
    Reaches encoding p (readValue (some p) children error)

theorem parseEndTag_reaches {n : Nat} {readValue : ValueReader} (h : Reads encoding n readValue)
    {name : Bytes} {attributeSet : List TiXmlAttribute} {error : Option TiXmlError}
    (hp : p.length ≤ n) :
    Reaches encoding p (parseEndTag readValue encoding name attributeSet p error) := by
  unfold parseEndTag
  apply (h p [] error hp).bind
  intro node hnext
  obtain ⟨next, children, last⟩ := node
  rcases next with _ | _ | ⟨c, s⟩
  · exact outcome_null
  · exact outcome_null
  · have hlater : Later encoding p (c :: s) := hnext _ rfl
    simp only [stringEqual_cons, except_ok_bind]
    cases (ascii ['<', '/'] ++ name).isPrefixOf (c :: s) with
    | false => exact outcome_null
    | true =>
        rw [if_pos rfl]
        split
        · rename_i rest hskip
          obtain ⟨q, hq, _, hrest⟩ := skip_some hskip
          injection hq with hq
          subst hq
          have hsuffix : 62 :: rest <:+ p :=
            (hrest.suffix.trans (List.drop_suffix _ _)).trans hlater.suffix
          exact outcome_at (ahead_behind hsuffix (by decide)).1
        · exact outcome_null

theorem parseTag_reaches {n : Nat} {readValue : ValueReader} (h : Reads encoding n readValue)
    {name : Bytes} {fuel : Nat} {attributeSet : List TiXmlAttribute} {error : Option TiXmlError}
    (hfuel : p.length ≤ fuel) (hp : p.length ≤ n) :
    Reaches encoding p (parseTag readValue encoding name fuel p attributeSet error) := by
  induction fuel generalizing p attributeSet error with
  | zero =>
      obtain rfl : p = [] := List.eq_nil_of_length_eq_zero (by omega)
      rw [parseTag.eq_def, if_pos rfl]
      exact outcome_at (.refl _)
  | succ fuel ih =>
      rw [parseTag.eq_def]
      split
      · exact outcome_at (.refl _)
      · split
        · exact outcome_null
        · exact outcome_null
        · rename_i c s hskip
          have hlater : Later encoding p (c :: s) := later_skip hskip
          have hlen : s.length < p.length := hlater.le
          split
          · rename_i hslash
            subst hslash
            split
            · exact outcome_at (hlater.trans (later_drop (a := [47, 62]) (by decide)))
            · exact outcome_null
          · split
            · rename_i hclose
              subst hclose
              apply (parseEndTag_reaches h (by omega)).of_later
                (hlater.trans (later_tail (by decide)))
              intro q hq
              exact (hlater.trans (later_tail (by decide))).trans hq
            · have hattr : Finishes encoding (c :: s) (parseAttribute (some (c :: s)) encoding error) :=
                parseAttribute_finishes fun q hq => by cases hq; exact .refl _
              apply (hattr.later hlater).bind
              intro attrib hnext
              obtain ⟨next, value, last⟩ := attrib
              rcases next with _ | _ | ⟨d, r⟩
              · exact outcome_null
              · exact outcome_null
              · have hahead : Ahead encoding p (d :: r) := hnext _ rfl
                have hlt := hahead.2
                simp only
                split
                · exact outcome_null
                · exact (ih (by omega) (by omega)).of_later hahead.1 fun _ hq =>
                    hahead.1.trans hq

theorem parseElement_finishes {readValue : ValueReader} (h : Reads encoding s.length readValue)
    {o : Option Bytes} {error : Option TiXmlError} (hs : s ≠ [])
    (hskip : SkipWhiteSpace o encoding = some (60 :: s)) :
    Finishes encoding (60 :: s) (parseElement readValue encoding o error) := by
  unfold parseElement
  rw [hskip]
  obtain ⟨c, s, rfl⟩ := List.exists_cons_of_ne_nil hs
  obtain ⟨p, hp⟩ := skip_some_cons encoding c s
  have htag : Ahead encoding (60 :: c :: s) p :=
    ⟨(later_tail (by decide)).trans (later_skip hp), Nat.lt_succ_of_le (later_skip hp).le⟩
  simp only [hp]
  split
  · exact outcome_null
  · exact outcome_null
  · rename_i name q _ hname
    have hahead : Ahead encoding (60 :: c :: s) q := Ahead.later htag (readName_later hname).1
    apply (parseTag_reaches h (Nat.le_refl _) (Nat.le_of_lt_succ hahead.2)).of_later hahead.1
    intro r hr
    exact hahead.later hr

/-! ## Nodes and children -/

/-- The `Parse` of the node that `Identify` finds. -/
theorem parseNode_finishes {condense : Bool} {readValue : ValueReader}
    (h : Reads encoding s.length readValue) {type : NodeType} {error : Option TiXmlError}
    (hskip : SkipWhiteSpace (some p) encoding = some (60 :: s)) (hs : type = .element → s ≠ []) :
    Finishes encoding p (parseNode condense readValue encoding type (some p) error) := by
  cases type with
  | element => exact (parseElement_finishes h (hs rfl) hskip).later (later_skip hskip)
  | comment => exact parseComment_finishes hskip
  | unknown => exact parseUnknown_finishes
  | cdata =>
      cases p with
      | nil => cases hskip
      | cons c s => exact parseText_finishes (by simp)
  | declaration => exact parseDeclaration_finishes

/-- The text that `ReadValue` reads, with the white space in front of it or without. -/
theorem readValue_text {condense : Bool} {error : Option TiXmlError}
    (hskip : SkipWhiteSpace (some p) encoding = some (c :: s)) (hc : c ≠ 60) :
    Finishes encoding p (parseText condense false
      (if condense then some (c :: s) else some p) encoding error) := by
  cases condense with
  | true => exact (parseText_finishes fun _ => hc).later (later_skip hskip)
  | false =>
      cases p with
      | nil => cases hskip
      | cons d r =>
          apply parseText_finishes
          intro _ hd
          subst hd
          rw [skip_tag] at hskip
          cases hskip
          exact hc rfl

/-- One more node of an element, or the end of its children. -/
theorem readValue_reaches {condense : Bool} {fuel : Nat} {o : Option Bytes}
    {children : List TiXmlNode} {error : Option TiXmlError}
    (ho : ∀ p, o = some p → Later encoding t p ∧ p.length ≤ fuel) :
    Reaches encoding t (ReadValue condense encoding fuel o children error) := by
  induction fuel generalizing t o children error with
  | zero =>
      rw [ReadValue.eq_def]
      split
      · exact outcome_null
      · rename_i hskip
        obtain ⟨p, hp, hne, hlater⟩ := skip_some hskip
        exact outcome_at ((ho p hp).1.trans hlater)
      · rename_i c s hskip
        obtain ⟨p, hp, hne, hlater⟩ := skip_some hskip
        exact absurd (List.eq_nil_of_length_eq_zero (Nat.le_zero.mp (ho p hp).2)) hne
  | succ fuel ih =>
      rw [ReadValue.eq_def]
      split
      · exact outcome_null
      · rename_i hskip
        obtain ⟨p, hp, hne, hlater⟩ := skip_some hskip
        exact outcome_at ((ho p hp).1.trans hlater)
      · rename_i c s hskip
        obtain ⟨p, hp, hne, hlater⟩ := skip_some hskip
        have hc : Later encoding t (c :: s) := (ho p hp).1.trans hlater
        have hlen : (c :: s).length ≤ fuel + 1 := Nat.le_trans hlater.le (ho p hp).2
        simp only
        split
        · rename_i hne60
          have htext : Finishes encoding p (parseText condense false
              (if condense then some (c :: s) else o) encoding error) := by
            rw [hp]
            rw [hp] at hskip
            exact readValue_text hskip hne60
          apply (htext.shorter (ho p hp).1 (ho p hp).2).bind
          intro text hnext
          exact ih hnext
        · rename_i h60
          obtain rfl : c = 60 := by simpa using h60
          rw [stringEqual_cons]
          cases (ascii ['<', '/']).isPrefixOf (60 :: s) with
          | true => exact outcome_at hc
          | false =>
              have hreads : Reads encoding s.length (ReadValue condense encoding fuel) := by
                intro p children error hlen'
                apply ih
                intro q hq
                cases hq
                exact ⟨.refl _, Nat.le_trans hlen' (Nat.le_of_succ_le_succ hlen)⟩
              rcases identify_cases (some (60 :: s)) encoding with
                hnone | ⟨s', type, htag, htype, hs⟩
              · simp only [hnone]
                exact outcome_null
              · simp only [htype]
                have htail : s' = s := by
                  rw [skip_tag] at htag
                  cases htag
                  rfl
                subst htail
                have hnode : Finishes encoding (60 :: s') (parseNode condense
                    (ReadValue condense encoding fuel) encoding type (some (60 :: s')) error) :=
                  parseNode_finishes hreads htag hs
                apply (hnode.shorter hc hlen).bind
                intro node hnext
                exact ih hnext

/-! ## Documents -/

/-- Where a document is read, with the encoding that its declaration has set. -/
structure Ongoing (encoding : TiXmlEncoding) (t : Bytes) (encoding' : TiXmlEncoding) (p : Bytes) :
    Prop where
  suffix : p <:+ t
  fit : Fit encoding t → Fit encoding' p

theorem Ongoing.later {encoding' : TiXmlEncoding} (h : Ongoing encoding t encoding' p)
    (hq : Later encoding' p q) : Ongoing encoding t encoding' q :=
  ⟨hq.suffix.trans h.suffix, fun hfit => hq.fit (h.fit hfit)⟩

/-- A declaration can only make the text of an unknown encoding one without whole characters. -/
theorem Ongoing.after {encoding' : TiXmlEncoding} (h : Ongoing encoding t encoding' p)
    (node : TiXmlNode) : Ongoing encoding t (encodingAfter encoding' node) p := by
  constructor
  · exact h.suffix
  · intro hfit
    unfold encodingAfter
    split
    · exact .inr ((h.fit hfit).resolve_left (by decide))
    · split
      · exact .inr ((h.fit hfit).resolve_left (by decide))
      · split
        · exact .inr ((h.fit hfit).resolve_left (by decide))
        · exact .inl rfl
    · exact h.fit hfit

theorem Outcome.ongoing {P Q : Bytes → Prop} {encoding' : TiXmlEncoding}
    {x : Except Fault (Parsed α)} (h : Outcome P encoding' q x) (hq : Ongoing encoding t encoding' q)
    (himp : ∀ r, P r → Q r) : Outcome Q encoding t x := by
  cases x with
  | ok r => exact fun s hs => himp s (h s hs)
  | error fault =>
      cases fault with
      | outOfBounds => exact fun hfit => h (hq.fit hfit)
      | assertion => exact OpenDeclaration.of_suffix h hq.suffix
      | diverges => exact h

theorem parseChildren_reaches {condense : Bool} {fuel : Nat} {o : Option Bytes}
    {encoding' : TiXmlEncoding} {children : List TiXmlNode} {error : Option TiXmlError}
    (ho : ∀ p, o = some p → Ongoing encoding t encoding' p ∧ p.length ≤ fuel) :
    Outcome (fun q => q <:+ t) encoding t
      (parseChildren condense fuel o encoding' children error) := by
  induction fuel generalizing o encoding' children error with
  | zero =>
      match o, ho with
      | none, _ => rw [parseChildren.eq_def]; exact outcome_null
      | some [], ho =>
          rw [parseChildren.eq_def]
          exact outcome_at (ho _ rfl).1.suffix
      | some (c :: s), ho => exact absurd (ho _ rfl).2 (by simp)
  | succ fuel ih =>
      match o, ho with
      | none, _ => rw [parseChildren.eq_def]; exact outcome_null
      | some [], ho =>
          rw [parseChildren.eq_def]
          exact outcome_at (ho _ rfl).1.suffix
      | some (c :: s), ho =>
          obtain ⟨hon, hlen⟩ := ho _ rfl
          rw [parseChildren.eq_def]
          rcases identify_cases (some (c :: s)) encoding' with hnone | ⟨s', type, htag, htype, hs⟩
          · simp only [hnone]
            exact outcome_at hon.suffix
          · simp only [htype]
            have hreads : Reads encoding' s'.length (ReadValue condense encoding' fuel) := by
              intro p children error hlen'
              apply readValue_reaches
              intro q hq
              cases hq
              have hle : (60 :: s').length ≤ fuel + 1 := Nat.le_trans (later_skip htag).le hlen
              exact ⟨.refl _, Nat.le_trans hlen' (Nat.le_of_succ_le_succ hle)⟩
            have hnode : Finishes encoding' (c :: s) (parseNode condense
                (ReadValue condense encoding' fuel) encoding' type (some (c :: s)) error) :=
              parseNode_finishes hreads htag hs
            apply ((hnode.shorter (.refl _) hlen).ongoing hon fun _ hr => hr).bind
            intro node hnext
            apply ih
            intro q hq
            obtain ⟨p, hp, _, hlater⟩ := skip_some hq
            obtain ⟨hfrom, hle⟩ := hnext p hp
            exact ⟨((hon.later hfrom).after node.value).later hlater, Nat.le_trans hlater.le hle⟩

/-- How `TiXmlDocument::Parse` ends. -/
def ParseEnds (encoding : TiXmlEncoding) (p : Bytes) :
    Except Fault (Option Bytes × TiXmlDocument) → Prop
  | .ok (next, _) => ∀ q, next = some q → q <:+ p
  | .error .outOfBounds => ¬ Fit encoding p
  | .error .assertion => OpenDeclaration p
  | .error .diverges => False

end TinyXml

end CommonCc
