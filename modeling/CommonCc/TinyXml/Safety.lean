import CommonCc.TinyXml.Layout

/-!
# Every text is parsed

The parser comes to an end on every text.  It reads behind the text only in UTF-8, where a
character is cut off, and fails an assertion only at a declaration.
-/

namespace CommonCc

namespace TinyXml

variable {encoding : TiXmlEncoding} {p q r s t : Bytes} {c : UInt8} {α : Type}

/-! ## Pointers into the text -/

/-- Whatever the encoding turns out to be, no character of the text is cut off. -/
def Fit (encoding : TiXmlEncoding) (p : Bytes) : Prop :=
  encoding = .legacy ∨ Whole .utf8 p

/-- A pointer not in front of another one. -/
structure Later (encoding : TiXmlEncoding) (p q : Bytes) : Prop where
  suffix : q <:+ p
  fit : Fit encoding p → Fit encoding q

theorem Later.refl (p : Bytes) : Later encoding p p := ⟨List.suffix_refl p, id⟩

theorem Later.trans (h : Later encoding p q) (h' : Later encoding q r) : Later encoding p r :=
  ⟨h'.suffix.trans h.suffix, fun hfit => h'.fit (h.fit hfit)⟩

theorem Later.le (h : Later encoding p q) : q.length ≤ p.length := h.suffix.length_le

/-- What begins with an ASCII character or is empty. -/
def AtAscii (q : Bytes) : Prop := ∀ c, q.head? = some c → c < 0x80

/-- A text of ASCII characters. -/
def Ascii (s : Bytes) : Prop := ∀ c ∈ s, c < 0x80

instance (s : Bytes) : Decidable (Ascii s) := List.decidableBAll _ s

theorem later_of_suffix (h : q <:+ p) (hq : AtAscii q) : Later encoding p q := by
  constructor
  · exact h
  · intro hfit
    rcases hfit with hlegacy | hwhole
    · exact .inl hlegacy
    · right
      cases q with
      | nil => exact .nil
      | cons c q =>
          obtain ⟨a, rfl⟩ := h
          exact hwhole.of_ascii rfl (hq c rfl)

/-- The first character of a whole text. -/
theorem Whole.first (h : Whole encoding (c :: s)) :
    ∃ cs t, s = cs ++ t ∧ charLength encoding c = cs.length + 1 ∧ Whole encoding t := by
  generalize hp : c :: s = p at h
  cases h with
  | nil => cases hp
  | @char d cs t hlen hcs hwhole =>
      injection hp with hd hs
      subst hd
      exact ⟨cs, t, hs, hlen, hwhole⟩

theorem Whole.tail_of_length (h : Whole encoding (c :: s)) (hc : charLength encoding c = 1) :
    Whole encoding s := by
  obtain ⟨cs, t, rfl, hlen, ht⟩ := h.first
  have hnil : cs = [] := List.eq_nil_of_length_eq_zero (by omega)
  rwa [hnil]

/-- A whole text goes on behind an ASCII character. -/
theorem Whole.tail (h : Whole encoding (c :: s)) (hc : c < 0x80) : Whole encoding s :=
  h.tail_of_length (charLength_ascii (UInt8.lt_of_lt_of_le hc (by decide)))

theorem later_tail (hc : c < 0x80) : Later encoding (c :: s) s := by
  constructor
  · exact List.suffix_cons c s
  · intro hfit
    rcases hfit with hlegacy | hwhole
    · exact .inl hlegacy
    · exact .inr (hwhole.tail hc)

/-- Behind a run of ASCII characters. -/
theorem later_drop {a : Bytes} (ha : Ascii a) : Later encoding (a ++ s) s := by
  induction a with
  | nil => exact .refl s
  | cons c a ih =>
      exact (later_tail (ha c List.mem_cons_self)).trans
        (ih fun b hb => ha b (List.mem_cons_of_mem c hb))

theorem lt_of_isWhiteSpace : ∀ c, IsWhiteSpace c = true → c < 0x80 :=
  forall_byte (by decide +kernel)

/-! ## White space and names -/

theorem later_mark {a b : UInt8} (h : isLeadMark a b c = true) :
    Later encoding (a :: b :: c :: s) s := by
  constructor
  · exact ⟨[a, b, c], rfl⟩
  · intro hfit
    rcases hfit with hlegacy | hwhole
    · exact .inl hlegacy
    · right
      obtain rfl : a = 0xef := by
        simp only [isLeadMark, Bool.and_eq_true, decide_eq_true_eq] at h
        exact h.1
      obtain ⟨cs, t, hs, hlen, ht⟩ := hwhole.first
      have hthree : charLength .utf8 0xef = 3 := by decide
      rw [hthree] at hlen
      have hdrop := congrArg (List.drop 2) hs
      rw [List.drop_left' (by omega)] at hdrop
      rwa [← hdrop] at ht

theorem later_skipUtf8 (p : Bytes) : Later encoding p (skipUtf8 p) := by
  induction p using skipUtf8.induct with
  | case1 => exact .refl _
  | case2 a h => simpa [skipUtf8, h] using later_tail (lt_of_isWhiteSpace a h)
  | case3 a h => simpa [skipUtf8, h] using Later.refl _
  | case4 a b h ih =>
      rw [skipUtf8, if_pos h]
      exact (later_tail (lt_of_isWhiteSpace a h)).trans ih
  | case5 a b h =>
      rw [skipUtf8, if_neg h]
      exact .refl _
  | case6 a b c s h ih =>
      rw [skipUtf8, if_pos h]
      exact (later_mark h).trans ih
  | case7 a b c s h h' ih =>
      rw [skipUtf8, if_neg h, if_pos h']
      exact (later_tail (lt_of_isWhiteSpace a h')).trans ih
  | case8 a b c s h h' =>
      rw [skipUtf8, if_neg h, if_neg h']
      exact .refl _

theorem later_dropWhile {f : UInt8 → Bool} (h : Ascii (p.takeWhile f)) :
    Later encoding p (p.dropWhile f) := by
  have hsplit : Later encoding (p.takeWhile f ++ p.dropWhile f) (p.dropWhile f) := later_drop h
  rwa [List.takeWhile_append_dropWhile] at hsplit

theorem later_skip (h : SkipWhiteSpace (some p) encoding = some q) : Later encoding p q := by
  cases p with
  | nil => cases h
  | cons c s =>
      rw [SkipWhiteSpace] at h
      split at h
      · cases h
        exact later_skipUtf8 _
      · cases h
        apply later_dropWhile
        intro b hb
        exact lt_of_isWhiteSpace b (List.mem_takeWhile_imp hb)

theorem skip_some {o : Option Bytes} (h : SkipWhiteSpace o encoding = some q) :
    ∃ p, o = some p ∧ p ≠ [] ∧ Later encoding p q := by
  match o, h with
  | some (c :: s), h => exact ⟨c :: s, rfl, by simp, later_skip h⟩

/-- What ends a run of bytes that takes in all that is not ASCII. -/
theorem later_dropWhile_of_ascii {f : UInt8 → Bool} (h : ∀ b, f b = false → b < 0x80) :
    Later encoding p (p.dropWhile f) := by
  apply later_of_suffix (List.dropWhile_suffix f)
  intro c hc
  apply h
  cases hp : p.dropWhile f with
  | nil => simp [hp] at hc
  | cons d s =>
      rw [hp] at hc
      cases hc
      have hnot := List.head?_dropWhile_not f p
      rw [hp] at hnot
      simpa using hnot

theorem readName_later {name : Bytes} (h : ReadName p = (name, some q)) :
    Later encoding p q ∧ q.length < p.length := by
  cases p with
  | nil => cases h
  | cons c s =>
      rw [ReadName] at h
      split at h
      · rename_i hstart
        injection h with _ hq
        injection hq with hq
        subst hq
        constructor
        · apply later_dropWhile_of_ascii
          intro b hb
          exact UInt8.lt_trans (lt_of_not_inName b hb) (by decide)
        · rw [List.dropWhile_cons_of_pos (inName_of_startsName c hstart), List.length_cons]
          exact Nat.lt_succ_of_le (List.dropWhile_suffix inName).length_le
      · cases h

/-! ## Characters -/

/-- A pointer behind another one. -/
def Ahead (encoding : TiXmlEncoding) (p q : Bytes) : Prop :=
  Later encoding p q ∧ q.length < p.length

theorem Later.ahead (h : Later encoding p q) (h' : Ahead encoding q r) : Ahead encoding p r :=
  ⟨h.trans h'.1, Nat.lt_of_lt_of_le h'.2 h.le⟩

theorem Ahead.later (h : Ahead encoding p q) (h' : Later encoding q r) : Ahead encoding p r :=
  ⟨h.1.trans h', Nat.lt_of_le_of_lt h'.le h.2⟩

/-- Behind an ASCII character somewhere in the text. -/
theorem ahead_behind (h : c :: q <:+ p) (hc : c < 0x80) : Ahead encoding p q := by
  have hlater : Later encoding p (c :: q) := by
    apply later_of_suffix h
    intro b hb
    cases hb
    exact hc
  exact hlater.ahead ⟨later_tail hc, Nat.lt_succ_self _⟩

theorem getReference_ahead {base : Nat} {digit : UInt8 → Option Nat} {stop : UInt8} {cs : Bytes}
    {encoding' : TiXmlEncoding}
    (h : GetReference base digit stop encoding p = (cs, some q)) : Ahead encoding' p q := by
  unfold GetReference at h
  split at h
  · cases h
  · rename_i d rest hdrop
    split at h
    · cases h
    · injection h with _ hq
      injection hq with hq
      subst hq
      have hsuffix := List.dropWhile_suffix (l := p) (fun c : UInt8 => decide (c ≠ 59))
      have hhead := List.head?_dropWhile_not (fun c : UInt8 => decide (c ≠ 59)) p
      rw [hdrop] at hsuffix hhead
      have hd : d = 59 := by simpa using hhead
      subst hd
      exact ahead_behind hsuffix (by decide)

theorem entity_ascii : ∀ e ∈ entity, e.str ≠ [] ∧ Ascii e.str := by
  decide

/-- Behind an entity, or behind an ampersand that begins none. -/
theorem getEntity_named_ahead {cs : Bytes} {encoding' : TiXmlEncoding}
    (hplain : ∀ c r, s ≠ 35 :: c :: r) (h : GetEntity (38 :: s) encoding = (cs, some q)) :
    Ahead encoding' (38 :: s) q := by
  rw [GetEntity] at h
  · split at h
    · rename_i e he
      obtain ⟨hne, hascii⟩ := entity_ascii e (List.mem_of_find?_eq_some he)
      have hprefix := List.find?_some he
      rw [List.isPrefixOf_iff_prefix] at hprefix
      obtain ⟨r, hr⟩ := hprefix
      rw [← hr, List.drop_left] at h
      cases h
      rw [← hr]
      have hpos := List.length_pos_of_ne_nil hne
      exact ⟨later_drop hascii, by rw [List.length_append]; omega⟩
    · cases h
      exact ahead_behind (List.suffix_refl _) (by decide)
  · intro _ c r he
    injection he with _ he
    exact hplain c r he

theorem getEntity_ahead {cs : Bytes} {encoding' : TiXmlEncoding}
    (h : GetEntity (38 :: s) encoding = (cs, some q)) : Ahead encoding' (38 :: s) q := by
  by_cases hnumber : ∃ c r, s = 35 :: c :: r
  · obtain ⟨c, r, rfl⟩ := hnumber
    rw [GetEntity] at h
    have hskip : Later encoding' (38 :: 35 :: c :: r) (c :: r) :=
      later_drop (a := [38, 35]) (by decide)
    split at h
    · rename_i hc
      subst hc
      split at h
      · cases h
      · exact hskip.ahead ((later_tail (by decide)).ahead (getReference_ahead h))
    · exact hskip.ahead (getReference_ahead h)
  · exact getEntity_named_ahead (fun c r he => hnumber ⟨c, r, he⟩) h

/-- What `GetChar` comes to: further on, or behind the end of a text that cuts a character off. -/
theorem getChar_cases (c : UInt8) (s : Bytes) (encoding : TiXmlEncoding) :
    (∃ cs next, GetChar (c :: s) encoding = .ok (cs, next) ∧ ∀ q, next = some q →
      q <:+ s ∧ (encoding = .utf8 → Whole .utf8 (c :: s) → Whole .utf8 q)) ∨
    GetChar (c :: s) encoding = .error .outOfBounds ∧ encoding = .utf8 ∧
      ¬ Whole .utf8 (c :: s) := by
  have hlength : (if encoding = .utf8 then utf8ByteTable c else 1) = charLength encoding c := rfl
  rw [GetChar]
  simp only [hlength]
  by_cases hone : charLength encoding c = 1
  · left
    rw [if_pos hone]
    by_cases hc : c = 38
    · subst hc
      rw [if_pos rfl]
      refine ⟨_, _, rfl, ?_⟩
      intro q hq
      have hahead : Ahead .utf8 (38 :: s) q := getEntity_ahead (Prod.ext rfl hq)
      constructor
      · obtain ⟨a, ha⟩ := hahead.1.suffix
        cases a with
        | nil =>
            have hlt := hahead.2
            rw [← ha] at hlt
            exact absurd hlt (Nat.lt_irrefl _)
        | cons b a =>
            injection ha with _ ha
            exact ⟨a, ha⟩
      · intro _ hwhole
        exact (hahead.1.fit (.inr hwhole)).resolve_left (by decide)
    · rw [if_neg hc]
      refine ⟨_, _, rfl, ?_⟩
      intro q hq
      cases hq
      constructor
      · exact List.suffix_refl s
      · intro henc hwhole
        subst henc
        exact hwhole.tail_of_length hone
  · rw [if_neg hone]
    have henc : encoding = .utf8 := by
      by_contra hne
      exact hone (by simp [charLength, hne])
    subst henc
    by_cases hlen : charLength .utf8 c ≤ (c :: s).length
    · left
      rw [if_pos hlen]
      refine ⟨_, _, rfl, ?_⟩
      intro q hq
      cases hq
      have hpos := one_le_charLength .utf8 c
      constructor
      · obtain ⟨n, hn⟩ := Nat.exists_eq_add_of_le hpos
        rw [hn, Nat.add_comm, List.drop_succ_cons]
        exact List.drop_suffix n s
      · intro _ hwhole
        obtain ⟨cs, t, rfl, hlen', ht⟩ := hwhole.first
        rwa [hlen', List.drop_succ_cons, List.drop_left]
    · right
      rw [if_neg hlen]
      refine ⟨rfl, rfl, ?_⟩
      intro hwhole
      obtain ⟨cs, t, rfl, hlen', _⟩ := hwhole.first
      apply hlen
      rw [hlen', List.length_cons, List.length_append]
      omega

/-! ## Texts -/

/-- How the loops of `ReadText` end: at the end tag or the end of the text, or behind it. -/
def TextEnds (encoding : TiXmlEncoding) (endTag p : Bytes) :
    Except Fault (Bytes × Option Bytes) → Prop
  | .ok (_, next) => ∀ q, next = some q → q <:+ p ∧ (q = [] ∨ endTag <+: q)
  | .error fault => fault = .outOfBounds ∧ encoding = .utf8 ∧ ¬ Whole .utf8 p

theorem TextEnds.step {endTag : Bytes} {x : Except Fault (Bytes × Option Bytes)}
    (h : TextEnds encoding endTag q x) (hq : q <:+ p)
    (hwhole : encoding = .utf8 → Whole .utf8 p → Whole .utf8 q) : TextEnds encoding endTag p x := by
  cases x with
  | ok r =>
      intro t ht
      exact ⟨(h t ht).1.trans hq, (h t ht).2⟩
  | error fault => exact ⟨h.1, h.2.1, fun hp => h.2.2 (hwhole h.2.1 hp)⟩

/-- The step of both loops that reads a character. -/
theorem textEnds_getChar {endTag : Bytes} {c : UInt8}
    {f : Bytes → Option Bytes → Except Fault (Bytes × Option Bytes)}
    (hnone : ∀ cs, TextEnds encoding endTag (c :: s) (f cs none))
    (hsome : ∀ cs q, q.length ≤ s.length → TextEnds encoding endTag q (f cs (some q))) :
    TextEnds encoding endTag (c :: s) (do
      let (cs, next) ← GetChar (c :: s) encoding
      f cs next) := by
  rcases getChar_cases c s encoding with ⟨cs, next, hget, hnext⟩ | ⟨hget, hfault⟩
  · rw [hget]
    cases next with
    | none => exact hnone cs
    | some q =>
        obtain ⟨hq, hwhole⟩ := hnext q rfl
        exact (hsome cs q hq.length_le).step (hq.trans (List.suffix_cons c s)) hwhole
  · rw [hget]
    exact ⟨rfl, hfault⟩

theorem keepText_ends {endTag : Bytes} {fuel : Nat} {acc : Bytes} (hfuel : p.length ≤ fuel) :
    TextEnds encoding endTag p (keepText endTag encoding fuel (some p) acc) := by
  induction fuel generalizing p acc with
  | zero =>
      obtain rfl : p = [] := List.eq_nil_of_length_eq_zero (by omega)
      rw [keepText]
      intro q hq
      cases hq
      exact ⟨List.suffix_refl [], .inl rfl⟩
  | succ fuel ih =>
      cases p with
      | nil =>
          rw [keepText]
          intro q hq
          cases hq
          exact ⟨List.suffix_refl [], .inl rfl⟩
      | cons c s =>
          rw [keepText, stringEqual_cons]
          cases htag : endTag.isPrefixOf (c :: s) with
          | true =>
              intro q hq
              cases hq
              exact ⟨List.suffix_refl _, .inr (List.isPrefixOf_iff_prefix.mp htag)⟩
          | false =>
              apply textEnds_getChar (f := fun cs next => keepText endTag encoding fuel next (acc ++ cs))
              · intro cs
                rw [keepText]
                exact fun q hq => by cases hq
              · intro cs q hq
                exact ih (by rw [List.length_cons] at hfuel; omega)

theorem condenseText_ends {endTag : Bytes} {fuel : Nat} {whitespace : Bool} {acc : Bytes}
    (hfuel : p.length ≤ fuel) :
    TextEnds encoding endTag p (condenseText endTag encoding fuel whitespace (some p) acc) := by
  induction fuel generalizing p whitespace acc with
  | zero =>
      obtain rfl : p = [] := List.eq_nil_of_length_eq_zero (by omega)
      rw [condenseText]
      intro q hq
      cases hq
      exact ⟨List.suffix_refl [], .inl rfl⟩
  | succ fuel ih =>
      cases p with
      | nil =>
          rw [condenseText]
          intro q hq
          cases hq
          exact ⟨List.suffix_refl [], .inl rfl⟩
      | cons c s =>
          rw [List.length_cons] at hfuel
          cases htag : endTag.isPrefixOf (c :: s) with
          | true =>
              rw [condenseText_stop htag]
              intro q hq
              cases hq
              exact ⟨List.suffix_refl _, .inr (List.isPrefixOf_iff_prefix.mp htag)⟩
          | false =>
              cases hspace : IsWhiteSpace c with
              | true =>
                  rw [condenseText_space hspace htag]
                  exact (ih (by omega)).step (List.suffix_cons c s)
                    fun _ hwhole => hwhole.tail (lt_of_isWhiteSpace c hspace)
              | false =>
                  rw [condenseText_other hspace htag]
                  apply textEnds_getChar (f := fun cs next => condenseText endTag encoding fuel false
                    next ((if whitespace then acc ++ [32] else acc) ++ cs))
                  · intro cs
                    rw [condenseText]
                    exact fun q hq => by cases hq
                  · intro cs q hq
                    exact ih (by omega)

/-- How `ReadText` ends: behind the end tag, at the null pointer or with a character cut off. -/
def ReadEnds (encoding : TiXmlEncoding) (endTag p : Bytes) :
    Except Fault (Bytes × Option Bytes) → Prop
  | .ok (_, next) => ∀ q, next = some q → endTag ++ q <:+ p
  | .error fault => fault = .outOfBounds ∧ ¬ Fit encoding p

theorem atAscii_append {endTag : Bytes} (htag : Ascii endTag) (hne : endTag ≠ []) :
    AtAscii (endTag ++ q) := by
  intro c hc
  cases endTag with
  | nil => exact absurd rfl hne
  | cons d endTag =>
      cases hc
      exact htag _ List.mem_cons_self

theorem ahead_behind_tag {endTag : Bytes} (htag : Ascii endTag) (hne : endTag ≠ [])
    (h : endTag ++ q <:+ p) : Ahead encoding p q := by
  have hlater : Later encoding p (endTag ++ q) := later_of_suffix h (atAscii_append htag hne)
  have hpos := List.length_pos_of_ne_nil hne
  exact hlater.ahead ⟨later_drop htag, by rw [List.length_append]; omega⟩

theorem behindTag_suffix {endTag text : Bytes} {next : Option Bytes}
    (h : TextEnds encoding endTag p (.ok (text, next))) (hq : behindTag endTag next = some q) :
    endTag ++ q <:+ p := by
  match next, hq with
  | some (c :: s), hq =>
      obtain ⟨hsuffix, hend⟩ := h (c :: s) rfl
      rw [behindTag, ifMore] at hq
      split at hq
      · cases hq
      · cases hq
        obtain ⟨r, hr⟩ := hend.resolve_left (by simp)
        rw [← hr] at hsuffix ⊢
        rwa [List.drop_left]

theorem readText_ends {condense trim : Bool} {endTag : Bytes} :
    ReadEnds encoding endTag p (ReadText condense (some p) trim endTag encoding) := by
  have hof : ∀ p' x, Later encoding p p' → TextEnds encoding endTag p' x →
      ReadEnds encoding endTag p (do
        let (text, next) ← x
        Except.ok (text, behindTag endTag next)) := by
    intro p' x hlater hx
    cases x with
    | ok r => exact fun q hq => (behindTag_suffix hx hq).trans hlater.suffix
    | error fault =>
        obtain ⟨rfl, rfl, hwhole⟩ := hx
        refine ⟨rfl, ?_⟩
        intro hfit
        exact hwhole ((hlater.fit hfit).resolve_left (by decide))
  rw [ReadText]
  split
  · exact hof p _ (.refl p) (keepText_ends (Nat.le_refl _))
  · cases hskip : SkipWhiteSpace (some p) encoding with
    | none =>
        change ReadEnds encoding endTag p (.ok ([], none))
        exact fun q hq => by cases hq
    | some p' => exact hof p' _ (later_skip hskip) (condenseText_ends (Nat.le_refl _))

/-! ## Parts of a tag -/

/-- A declaration begins somewhere in the text. -/
def HasDeclaration (p : Bytes) : Prop :=
  ∃ b, b <:+ p ∧ ((ascii ['<', '?', 'x', 'm', 'l']).map tolower).isPrefixOf (b.map tolower) = true

/-- The text ends in what is skipped as white space. -/
def EndsBlank (p : Bytes) : Prop :=
  ∃ w e, w ≠ [] ∧ w <:+ p ∧ SkipWhiteSpace (some w) e = some []

/-- A declaration begins in the text, which ends in white space. -/
structure OpenDeclaration (p : Bytes) : Prop where
  begins : HasDeclaration p
  blank : EndsBlank p

theorem OpenDeclaration.of_suffix (h : OpenDeclaration q) (hq : q <:+ p) : OpenDeclaration p := by
  obtain ⟨⟨b, hb, hstart⟩, w, e, hne, hw, hskip⟩ := h
  exact ⟨⟨b, hb.trans hq, hstart⟩, w, e, hne, hw.trans hq, hskip⟩

/-- How a parser comes to an end: at the null pointer, at a pointer of a kind, or with a fault
that has its reason in the text. -/
def Outcome (P : Bytes → Prop) (encoding : TiXmlEncoding) (p : Bytes) :
    Except Fault (Parsed α) → Prop
  | .ok r => ∀ q, r.next = some q → P q
  | .error .outOfBounds => ¬ Fit encoding p
  | .error .assertion => OpenDeclaration p
  | .error .diverges => False

/-- The parser comes further on in the text. -/
abbrev Finishes (encoding : TiXmlEncoding) (p : Bytes) (x : Except Fault (Parsed α)) : Prop :=
  Outcome (Ahead encoding p) encoding p x

/-- The parser does not go back in the text. -/
abbrev Reaches (encoding : TiXmlEncoding) (p : Bytes) (x : Except Fault (Parsed α)) : Prop :=
  Outcome (Later encoding p) encoding p x

theorem Outcome.of_later {P Q : Bytes → Prop} {x : Except Fault (Parsed α)}
    (h : Outcome P encoding q x) (hq : Later encoding p q) (himp : ∀ t, P t → Q t) :
    Outcome Q encoding p x := by
  cases x with
  | ok r => exact fun t ht => himp t (h t ht)
  | error fault =>
      cases fault with
      | outOfBounds => exact fun hfit => h (hq.fit hfit)
      | assertion => exact OpenDeclaration.of_suffix h hq.suffix
      | diverges => exact h

theorem Outcome.later {x : Except Fault (Parsed α)} (h : Finishes encoding q x)
    (hq : Later encoding p q) : Finishes encoding p x :=
  h.of_later hq fun _ ht => hq.ahead ht

/-- What is left behind a parser needs fewer steps. -/
theorem Outcome.shorter {fuel : Nat} {x : Except Fault (Parsed α)} (h : Finishes encoding q x)
    (hq : Later encoding p q) (hfuel : q.length ≤ fuel + 1) :
    Outcome (fun r => Later encoding p r ∧ r.length ≤ fuel) encoding p x :=
  h.of_later hq fun _ hr => ⟨hq.trans hr.1, Nat.le_of_lt_succ (Nat.lt_of_lt_of_le hr.2 hfuel)⟩

/-- One parser after another. -/
theorem Outcome.bind {β : Type} {P Q : Bytes → Prop} {x : Except Fault (Parsed α)}
    {f : Parsed α → Except Fault (Parsed β)} (h : Outcome P encoding p x)
    (hf : ∀ r, (∀ q, r.next = some q → P q) → Outcome Q encoding p (f r)) :
    Outcome Q encoding p (x >>= f) := by
  cases x with
  | ok r => exact hf r h
  | error fault =>
      cases fault with
      | outOfBounds => exact h
      | assertion => exact h
      | diverges => exact h

/-- The null pointer ends a parser. -/
theorem outcome_null {P : Bytes → Prop} {value : α} {error : Option TiXmlError} :
    Outcome P encoding p (.ok ⟨none, value, error⟩) := fun _ hq => nomatch hq

theorem outcome_at {P : Bytes → Prop} {value : α} {error : Option TiXmlError} (h : P q) :
    Outcome P encoding p (.ok ⟨some q, value, error⟩) := by
  intro t ht
  cases ht
  exact h

/-- A text that ends a parser. -/
theorem ReadEnds.outcome {P : Bytes → Prop} {endTag : Bytes}
    {x : Except Fault (Bytes × Option Bytes)} {f : Bytes → Option Bytes → Except Fault (Parsed α)}
    (h : ReadEnds encoding endTag p x)
    (hf : ∀ text next, (∀ q, next = some q → endTag ++ q <:+ p) →
      Outcome P encoding p (f text next)) :
    Outcome P encoding p (do
      let (text, next) ← x
      f text next) := by
  cases x with
  | ok r => exact hf r.1 r.2 h
  | error fault =>
      obtain ⟨rfl, hfit⟩ := h
      exact hfit

theorem bareValue_ends {value value' : Bytes} (h : bareValue p value = (value', some q)) :
    q <:+ p ∧ AtAscii q := by
  induction p generalizing value with
  | nil =>
      cases h
      exact ⟨List.suffix_refl [], fun _ hc => nomatch hc⟩
  | cons c s ih =>
      rw [bareValue] at h
      split at h
      · rename_i hc
        cases h
        constructor
        · exact List.suffix_refl _
        · intro b hb
          cases hb
          simp only [Bool.or_eq_true, decide_eq_true_eq] at hc
          rcases hc with (hc | rfl) | rfl
          · exact lt_of_isWhiteSpace c hc
          · decide
          · decide
      · split at h
        · cases h
        · obtain ⟨hsuffix, hascii⟩ := ih h
          exact ⟨hsuffix.trans (List.suffix_cons c s), hascii⟩

theorem parseValue_finishes {name : Bytes} {error : Option TiXmlError} (hp : p ≠ [])
    (hlater : Ahead encoding t p) : Finishes encoding t (parseValue name p encoding error) := by
  have hquoted : ∀ q s, q < 0x80 → p = q :: s → Finishes encoding t (do
      let (value, next) ← ReadText true (some s) false [q] encoding
      Except.ok ⟨next, (⟨name, value⟩ : TiXmlAttribute), error⟩) := by
    intro q s hq he
    have hs : Later encoding t s := hlater.1.trans (by rw [he]; exact later_tail hq)
    have hread : ReadEnds encoding [q] s (ReadText true (some s) false [q] encoding) :=
      readText_ends
    have hdone : ∀ text next, (∀ r, next = some r → [q] ++ r <:+ s) →
        Finishes encoding s (.ok ⟨next, (⟨name, text⟩ : TiXmlAttribute), error⟩) :=
      fun _ _ hnext r hr => ahead_behind_tag (by simpa [Ascii] using hq) (by simp) (hnext r hr)
    exact (hread.outcome hdone).later hs
  unfold parseValue
  split
  · rename_i s
    exact hquoted 39 s (by decide) rfl
  · rename_i s
    exact hquoted 34 s (by decide) rfl
  · split
    · exact outcome_null
    · rename_i value q hbare
      obtain ⟨hsuffix, hascii⟩ := bareValue_ends hbare
      exact outcome_at (hlater.later (later_of_suffix hsuffix hascii))

/-- An attribute is read to a pointer further on. -/
theorem parseAttribute_finishes {o : Option Bytes} {error : Option TiXmlError}
    (ho : ∀ p, o = some p → Later encoding t p) :
    Finishes encoding t (parseAttribute o encoding error) := by
  unfold parseAttribute
  split
  · exact outcome_null
  · exact outcome_null
  · rename_i p hp hskip
    obtain ⟨p', rfl, _, hp'⟩ := skip_some hskip
    have hlater := (ho p' rfl).trans hp'
    split
    · rename_i name c s hname
      have hahead : Ahead encoding t (c :: s) := hlater.ahead (readName_later hname)
      split
      · rename_i s' hequals
        have hequals' := hahead.later (later_skip hequals)
        have htail := hequals'.later (later_tail (by decide))
        split
        · rename_i c s hvalue
          exact parseValue_finishes (by simp) (htail.later (later_skip hvalue))
        · exact outcome_null
      · exact outcome_null
    · exact outcome_null

/-! ## Nodes without children -/

theorem readUntil_suffix {endTag : Bytes} : (readUntil endTag p).2 <:+ p ∧
    ((readUntil endTag p).2 = [] ∨ endTag <+: (readUntil endTag p).2) := by
  induction p with
  | nil => exact ⟨List.suffix_refl [], .inl rfl⟩
  | cons c s ih =>
      rw [readUntil]
      split
      · rename_i htag
        exact ⟨List.suffix_refl _, .inr (List.isPrefixOf_iff_prefix.mp htag)⟩
      · exact ⟨ih.1.trans (List.suffix_cons c s), ih.2⟩

theorem later_readUntil {endTag : Bytes} (htag : Ascii endTag) (hne : endTag ≠ []) :
    Later encoding p (readUntil endTag p).2 := by
  apply later_of_suffix readUntil_suffix.1
  rcases readUntil_suffix.2 with hnil | ⟨r, hr⟩
  · rw [hnil]
    exact fun _ hc => nomatch hc
  · rw [← hr]
    exact atAscii_append htag hne

theorem stringEqual_true {o : Option Bytes} {tag : Bytes}
    (h : StringEqual o tag false = .ok true) : ∃ p, o = some p ∧ tag <+: p := by
  match o, h with
  | some (c :: s), h =>
      rw [stringEqual_cons] at h
      exact ⟨c :: s, rfl, List.isPrefixOf_iff_prefix.mp (Except.ok.inj h)⟩

theorem parseUnknown_finishes {error : Option TiXmlError} :
    Finishes encoding p (.ok (parseUnknown (some p) encoding error)) := by
  unfold parseUnknown
  split
  · rename_i s hskip
    have htag := (later_skip hskip).ahead ⟨later_tail (by decide), Nat.lt_succ_self _⟩
    have hclose : Later encoding s (s.dropWhile (· ≠ 62)) := by
      apply later_dropWhile_of_ascii
      intro b hb
      have hb' : b = 62 := by simpa using hb
      rw [hb']
      decide
    have hhead := List.head?_dropWhile_not (fun c : UInt8 => decide (c ≠ 62)) s
    apply outcome_at
    cases hdrop : s.dropWhile (· ≠ 62) with
    | nil =>
        rw [hdrop] at hclose
        exact htag.later hclose
    | cons d r =>
        rw [hdrop] at hclose hhead
        have hd : d = 62 := by simpa using hhead
        subst hd
        exact htag.later (hclose.trans (later_tail (by decide)))
  · exact outcome_null

theorem bool_getD_drop {tag : Bytes} {o : Option Bytes} (ho : ∃ p, o = some p ∧ tag <+: p) :
    ∃ q, o = some (tag ++ q) ∧ (o.getD []).drop tag.length = q := by
  obtain ⟨p, rfl, q, rfl⟩ := ho
  exact ⟨q, rfl, List.drop_left⟩

/-- The text behind a start tag, up to an end tag. -/
theorem ahead_section {startTag endTag : Bytes} (hstart : Ascii startTag)
    (hend : Ascii endTag) (hne : startTag ≠ []) (hne' : endTag ≠ []) :
    Ahead encoding (startTag ++ q) (readUntil endTag q).2 := by
  have hpos := List.length_pos_of_ne_nil hne
  have hbehind : Ahead encoding (startTag ++ q) q :=
    ⟨later_drop hstart, by rw [List.length_append]; omega⟩
  exact hbehind.later (later_readUntil hend hne')

theorem parseComment_finishes {error : Option TiXmlError}
    (hp : SkipWhiteSpace (some p) encoding = some (c :: s)) :
    Finishes encoding p (parseComment (some p) encoding error) := by
  have hlater := later_skip hp
  unfold parseComment
  rw [hp]
  cases htag : (ascii ['<', '!', '-', '-']).isPrefixOf (c :: s) with
  | false =>
      simp only [stringEqual_cons, htag]
      exact outcome_null
  | true =>
      obtain ⟨q, hq⟩ := List.isPrefixOf_iff_prefix.mp htag
      have hahead : Ahead encoding p (readUntil (ascii ['-', '-', '>']) q).2 := by
        have hsection : Ahead encoding (ascii ['<', '!', '-', '-'] ++ q)
            (readUntil (ascii ['-', '-', '>']) q).2 :=
          ahead_section (by decide) (by decide) (by decide) (by decide)
        rw [hq] at hsection
        exact hlater.ahead hsection
      have hdrop : (c :: s).drop 4 = q := by rw [← hq]; rfl
      have hclose : Later encoding (readUntil (ascii ['-', '-', '>']) q).2
          ((readUntil (ascii ['-', '-', '>']) q).2.drop 3) := by
        have hend : (readUntil (ascii ['-', '-', '>']) q).2 = [] ∨
            ascii ['-', '-', '>'] <+: (readUntil (ascii ['-', '-', '>']) q).2 := readUntil_suffix.2
        rcases hend with hnil | ⟨r, hr⟩
        · rw [hnil]
          exact .refl []
        · rw [← hr]
          exact later_drop (a := ascii ['-', '-', '>']) (by decide)
      simp only [stringEqual_cons, htag]
      change Finishes encoding p (.ok ⟨some ((readUntil _ ((c :: s).drop 4)).2.drop 3), _, error⟩)
      rw [hdrop]
      exact outcome_at (hahead.later hclose)

/-- What `TiXmlText::Parse` returns for a text. -/
def textResult (error : Option TiXmlError) (value : Bytes) (q : Option Bytes) :
    Except Fault (Parsed TiXmlNode) :=
  match q with
  | none => .ok ⟨none, .text value false, error⟩
  | some q => .ok ⟨some (60 :: q), .text value false, error⟩

/-- A text comes to the tag behind it, and a CDATA section behind its end tag. -/
theorem parseText_finishes {condense cdata : Bool} {error : Option TiXmlError}
    (hc : cdata = false → c ≠ 60) :
    Finishes encoding (c :: s) (parseText condense cdata (some (c :: s)) encoding error) := by
  unfold parseText
  cases htag : cdataStart.isPrefixOf (c :: s) with
  | true =>
      obtain ⟨q, hq⟩ := List.isPrefixOf_iff_prefix.mp htag
      have hdrop : (c :: s).drop 9 = q := by rw [← hq]; rfl
      have hsection : Ahead encoding (cdataStart ++ q) (readUntil (ascii [']', ']', '>']) q).2 :=
        ahead_section (by decide) (by decide) (by decide) (by decide)
      have hread : ReadEnds encoding (ascii [']', ']', '>']) (readUntil (ascii [']', ']', '>']) q).2
          (ReadText condense (some (readUntil (ascii [']', ']', '>']) q).2) false
            (ascii [']', ']', '>']) encoding) := readText_ends
      have hall : Finishes encoding (c :: s) (do
          let (_, next) ← ReadText condense (some (readUntil (ascii [']', ']', '>']) q).2) false
            (ascii [']', ']', '>']) encoding
          .ok ⟨next, TiXmlNode.text (readUntil (ascii [']', ']', '>']) q).1 true, error⟩) := by
        rw [hq] at hsection
        apply Outcome.later _ hsection.1
        apply hread.outcome (f := fun _ next => .ok ⟨next, TiXmlNode.text _ true, error⟩)
        intro text next hnext r hr
        exact ahead_behind_tag (by decide) (by decide) (hnext r hr)
      have hstart : StringEqual (some (c :: s)) cdataStart false = .ok true := by
        rw [stringEqual_cons, htag]
      simp only [hstart, Option.getD_some, hdrop]
      cases cdata <;> exact hall
  | false =>
      have hstart : StringEqual (some (c :: s)) cdataStart false = .ok false := by
        rw [stringEqual_cons, htag]
      simp only [hstart]
      cases cdata with
      | true => exact outcome_null
      | false =>
          have hread : ReadEnds encoding [60] (c :: s)
              (ReadText condense (some (c :: s)) true [60] encoding) := readText_ends
          change Finishes encoding (c :: s) (do
            let (value, q) ← ReadText condense (some (c :: s)) true [60] encoding
            textResult error value q)
          apply hread.outcome
          intro text next hnext
          cases next with
          | none => exact outcome_null
          | some q =>
              have hsuffix : 60 :: q <:+ c :: s := hnext q rfl
              apply outcome_at
              constructor
              · apply later_of_suffix hsuffix
                intro b hb
                cases hb
                decide
              · rcases List.suffix_cons_iff.mp hsuffix with heq | hin
                · injection heq with he _
                  exact absurd he.symm (hc rfl)
                · exact Nat.lt_succ_of_le hin.length_le

/-! ## Declarations -/

/-- A text of more than nothing is skipped to some pointer. -/
theorem skip_some_cons (encoding : TiXmlEncoding) (c : UInt8) (s : Bytes) :
    ∃ q, SkipWhiteSpace (some (c :: s)) encoding = some q := by
  rw [SkipWhiteSpace]
  split <;> exact ⟨_, rfl⟩

/-- What is left behind a word of a declaration. -/
theorem later_word :
    Later encoding p (p.dropWhile fun c => c ≠ 62 && !IsWhiteSpace c) := by
  apply later_dropWhile_of_ascii
  intro b hb
  rw [Bool.and_eq_false_iff, decide_eq_false_iff_not, Bool.not_eq_false'] at hb
  rcases hb with hb | hb
  · have hb' : b = 62 := by simpa using hb
    rw [hb']
    decide
  · exact lt_of_isWhiteSpace b hb

theorem word_progress {d : UInt8} {r : Bytes} (hd : d ≠ 62) (hspace : IsWhiteSpace d = false) :
    ((d :: r).dropWhile fun c => c ≠ 62 && !IsWhiteSpace c).length ≤ r.length := by
  have hword : (decide (d ≠ 62) && !IsWhiteSpace d) = true := by simp [hd, hspace]
  rw [List.dropWhile_cons, if_pos hword]
  exact (List.dropWhile_suffix _).length_le

/-- Behind an attribute of a declaration. -/
theorem declarationAttribute_finishes {fuel : Nat} {f : Parsed TiXmlAttribute →
    Except Fault (Parsed TiXmlNode)} (hp : Later encoding t q) (hfuel : q.length ≤ fuel + 1)
    (hf : ∀ attrib : Parsed TiXmlAttribute, (∀ r, attrib.next = some r →
      Later encoding t r ∧ r.length ≤ fuel) → Finishes encoding t (f attrib)) :
    Finishes encoding t (do
      let attrib ← parseAttribute (some q) encoding none
      f attrib) := by
  have hattr : Finishes encoding q (parseAttribute (some q) encoding none) :=
    parseAttribute_finishes fun r hr => by cases hr; exact .refl _
  exact (hattr.shorter hp hfuel).bind hf

/-- Where white space was skipped, or nothing that is white space begins. -/
theorem skip_progress (h : SkipWhiteSpace (some (c :: s)) encoding = some q) :
    q.length ≤ s.length ∨ q = c :: s ∧ IsWhiteSpace c = false := by
  cases hc : IsWhiteSpace c with
  | true =>
      left
      rw [SkipWhiteSpace] at h
      split at h
      · cases h
        rw [skipUtf8_space hc]
        have hlater : Later encoding s (skipUtf8 s) := later_skipUtf8 s
        exact hlater.le
      · cases h
        rw [List.dropWhile_cons, if_pos hc]
        exact (List.dropWhile_suffix _).length_le
  | false =>
      obtain ⟨a, ha⟩ := (later_skip h).suffix
      cases a with
      | nil => exact .inr ⟨ha, rfl⟩
      | cons d a =>
          left
          injection ha with _ ha
          have hlen := congrArg List.length ha
          rw [List.append_eq, List.length_append] at hlen
          omega

/-- The loop over a declaration, whose beginning is somewhere in the text. -/
theorem parseDeclarationLoop_finishes (hdecl : HasDeclaration t) {fuel : Nat}
    {version enc standalone : Bytes} {error : Option TiXmlError} {o : Option Bytes}
    (ho : ∀ p, o = some p → Later encoding t p ∧ p.length ≤ fuel) :
    Finishes encoding t (parseDeclarationLoop encoding fuel o version enc standalone error) := by
  induction fuel generalizing o version enc standalone with
  | zero =>
      rcases o with _ | _ | ⟨c, s⟩
      · rw [parseDeclarationLoop]
        exact outcome_null
      · rw [parseDeclarationLoop]
        exact outcome_null
      · exact absurd (ho _ rfl).2 (by simp)
  | succ fuel ih =>
      rcases o with _ | _ | ⟨c, s⟩
      · rw [parseDeclarationLoop]
        exact outcome_null
      · rw [parseDeclarationLoop]
        exact outcome_null
      · obtain ⟨hp, hfuel⟩ := ho _ rfl
        rw [List.length_cons] at hfuel
        rw [parseDeclarationLoop]
        by_cases hc : c = 62
        · rw [if_pos hc]
          subst hc
          exact outcome_at (hp.ahead ⟨later_tail (by decide), Nat.lt_succ_self _⟩)
        · rw [if_neg hc]
          obtain ⟨q, hq⟩ := skip_some_cons encoding c s
          have hlater : Later encoding t q := hp.trans (later_skip hq)
          have hlen : q.length ≤ fuel + 1 := Nat.le_trans (later_skip hq).le hfuel
          rw [hq]
          cases q with
          | nil => exact ⟨hdecl, c :: s, encoding, by simp, hp.suffix, hq⟩
          | cons d r =>
              have hword : ∀ tag, ∃ b, StringEqual (some (d :: r)) tag true = .ok b :=
                fun _ => ⟨_, rfl⟩
              obtain ⟨isVersion, hversion⟩ := hword (ascii ['v', 'e', 'r', 's', 'i', 'o', 'n'])
              obtain ⟨isEncoding, hencoding⟩ :=
                hword (ascii ['e', 'n', 'c', 'o', 'd', 'i', 'n', 'g'])
              obtain ⟨isStandalone, hstandalone⟩ :=
                hword (ascii ['s', 't', 'a', 'n', 'd', 'a', 'l', 'o', 'n', 'e'])
              simp only [hversion, hencoding, hstandalone]
              cases isVersion with
              | true => exact declarationAttribute_finishes hlater hlen fun _ hnext => ih hnext
              | false =>
                  cases isEncoding with
                  | true =>
                      exact declarationAttribute_finishes hlater hlen fun _ hnext => ih hnext
                  | false =>
                      cases isStandalone with
                      | true =>
                          exact declarationAttribute_finishes hlater hlen fun _ hnext => ih hnext
                      | false =>
                          apply ih
                          intro p hp'
                          cases hp'
                          constructor
                          · exact hlater.trans later_word
                          · rcases skip_progress hq with hle | ⟨heq, hspace⟩
                            · have hmore : (d :: r).length ≤ fuel := by omega
                              exact Nat.le_trans (List.dropWhile_suffix _).length_le hmore
                            · injection heq with hd hr
                              subst hd hr
                              exact Nat.le_trans (word_progress hc hspace) (by omega)

theorem lt_of_tolower : ∀ c, tolower c < 0x80 → c < 0x80 := forall_byte (by decide +kernel)

/-- Behind the beginning of a text in either case. -/
theorem ahead_ignoreCase {tag : Bytes} (htag : Ascii (tag.map tolower)) (hne : tag ≠ [])
    (h : (tag.map tolower).isPrefixOf (p.map tolower) = true) :
    Ahead encoding p (p.drop tag.length) := by
  rw [List.isPrefixOf_iff_prefix] at h
  have htake : (p.take tag.length).map tolower = tag.map tolower := by
    rw [List.map_take]
    rw [← List.length_map tolower, ← List.prefix_iff_eq_take.mp h]
  have hlen : tag.length ≤ p.length := by simpa using h.length_le
  have hascii : ∀ b ∈ p.take tag.length, b < 0x80 := by
    intro b hb
    apply lt_of_tolower
    apply htag
    rw [← htake]
    exact List.mem_map_of_mem hb
  have hlater : Later encoding (p.take tag.length ++ p.drop tag.length) (p.drop tag.length) :=
    later_drop hascii
  rw [List.take_append_drop] at hlater
  have hpos := List.length_pos_of_ne_nil hne
  exact ⟨hlater, by rw [List.length_drop]; omega⟩

theorem parseDeclaration_finishes {error : Option TiXmlError} :
    Finishes encoding p (parseDeclaration (some p) encoding error) := by
  unfold parseDeclaration
  cases hskip : SkipWhiteSpace (some p) encoding with
  | none => exact outcome_null
  | some q =>
      have hlater : Later encoding p q := later_skip hskip
      cases q with
      | nil => exact outcome_null
      | cons c s =>
          cases htag : ((ascii ['<', '?', 'x', 'm', 'l']).map tolower).isPrefixOf
              ((c :: s).map tolower) with
          | false =>
              have hstart : StringEqual (some (c :: s)) (ascii ['<', '?', 'x', 'm', 'l']) true =
                  .ok false := by rw [StringEqual, if_pos rfl, htag]
              simp only [hstart]
              exact outcome_null
          | true =>
              have hstart : StringEqual (some (c :: s)) (ascii ['<', '?', 'x', 'm', 'l']) true =
                  .ok true := by rw [StringEqual, if_pos rfl, htag]
              simp only [hstart]
              have hdecl : HasDeclaration p := ⟨c :: s, hlater.suffix, htag⟩
              have hbehind : Ahead encoding (c :: s) ((c :: s).drop 5) :=
                ahead_ignoreCase (by decide) (by decide) htag
              have hloop : Finishes encoding p (parseDeclarationLoop encoding (c :: s).length
                  (some ((c :: s).drop 5)) [] [] [] error) := by
                apply parseDeclarationLoop_finishes hdecl
                intro q hq
                cases hq
                exact ⟨hlater.trans hbehind.1, Nat.le_of_lt hbehind.2⟩
              exact hloop

end TinyXml

end CommonCc
