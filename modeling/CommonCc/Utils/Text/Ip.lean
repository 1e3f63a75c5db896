import CommonCc.Lib.Words
import CommonCc.Utils.Text.Split
import CommonCc.Utils.Wildcard.Model

/-!
# Digit IPs

`StringUtility::IsDigitIp`.  What `SplitString` trims and leaves out is not looked at.
-/

namespace CommonCc

namespace StringUtility

/-- For so few digits that the `int` has room for the value. -/
def Str2Int (str : Bytes) : Int := str.foldl (fun dwRet c => dwRet * 10 + schar c - 48) 0

/-- What is tested of one part. -/
def digitPart (part : Bytes) : Bool :=
  !(3 < part.length || part.length = 0) && part.all isDigit && !(255 < Str2Int part)

def IsDigitIp (strIp : Bytes) : Rounds Fault Bool :=
  andThen (SplitString strIp [46]) fun strList => now (strList.length = 4 && strList.all digitPart)

/-! ## Addresses -/

/-- One to three digits of a value of at most 255. -/
structure IsGroup (g : Bytes) : Prop where
  digits : ∀ c ∈ g, isDigit c = true
  short : 1 ≤ g.length ∧ g.length ≤ 3
  value : digitsValue g ≤ 255

/-- Four groups with single dots between them. -/
def IsIp (s : Bytes) : Prop :=
  ∃ gs : List Bytes, gs.length = 4 ∧ (∀ g ∈ gs, IsGroup g) ∧ s = [46].intercalate gs

def AllBlank (b : Bytes) : Prop := ∀ c ∈ b, c ∈ blanks

/-- What may stand behind the last group: blanks, or a dot and blanks. -/
def Trails (e : Bytes) : Prop := AllBlank e ∨ ∃ b, e = 46 :: b ∧ AllBlank b

/-- Four groups, each with blanks in front of it, and what may stand behind them. -/
structure Spaced (parts : List (Bytes × Bytes)) (e : Bytes) : Prop where
  length : parts.length = 4
  blank : ∀ p ∈ parts, AllBlank p.1
  group : ∀ p ∈ parts, IsGroup p.2
  trails : Trails e

def spacedText (parts : List (Bytes × Bytes)) (e : Bytes) : Bytes :=
  [46].intercalate (parts.map fun p => p.1 ++ p.2) ++ e

/-- There are blanks in front of a group, or there is something behind the last one. -/
def Slack (s : Bytes) : Prop :=
  ∃ parts e, Spaced parts e ∧ s = spacedText parts e ∧ ((∃ p ∈ parts, p.1 ≠ []) ∨ e ≠ [])

/-! ## The value of a part -/

theorem Str2Int_foldl {str : Bytes} (h : ∀ c ∈ str, isDigit c = true) (n : Nat) :
    str.foldl (fun dwRet c => dwRet * 10 + schar c - 48) (n : Int) =
      (str.foldl (fun n d => n * 10 + (d.toNat - 48)) n : Nat) := by
  induction str generalizing n with
  | nil => rfl
  | cons c str ih =>
      have hc := List.forall_mem_cons.mp h
      have hdigit := hc.1
      simp only [isDigit, Bool.and_eq_true, decide_eq_true_eq, UInt8.le_iff_toNat_le,
        UInt8.toNat_ofNat] at hdigit
      have hvalue : (n : Int) * 10 + schar c - 48 = ((n * 10 + (c.toNat - 48) : Nat) : Int) := by
        rw [schar, if_pos (by omega)]
        omega
      rw [List.foldl_cons, List.foldl_cons, hvalue, ih hc.2]

theorem Str2Int_eq {str : Bytes} (h : ∀ c ∈ str, isDigit c = true) :
    Str2Int str = digitsValue str := Str2Int_foldl h 0

theorem digitPart_iff (g : Bytes) : digitPart g = true ↔ IsGroup g := by
  constructor
  · intro h
    simp only [digitPart, Bool.and_eq_true, Bool.not_eq_true', Bool.or_eq_false_iff,
      decide_eq_false_iff_not, List.all_eq_true] at h
    obtain ⟨⟨hlen, hdigits⟩, hvalue⟩ := h
    rw [Str2Int_eq hdigits] at hvalue
    exact ⟨hdigits, by omega, by omega⟩
  · intro h
    have hshort := h.short
    have hvalue := h.value
    simp only [digitPart, Bool.and_eq_true, Bool.not_eq_true', Bool.or_eq_false_iff,
      decide_eq_false_iff_not, List.all_eq_true, Str2Int_eq h.digits]
    exact ⟨⟨by omega, h.digits⟩, by omega⟩

/-! ## The pieces -/

theorem inTarget_blanks (c : UInt8) : inTarget blanks c = true ↔ c ∈ blanks := by
  simp [inTarget]

theorem not_mem_blanks_of_isDigit {c : UInt8} (h : isDigit c = true) : c ∉ blanks ∧ c ≠ 46 := by
  have hall : ∀ b ∈ (46 :: blanks : Bytes), isDigit b = false := by decide +kernel
  constructor
  · intro hmem
    rw [hall c (List.mem_cons_of_mem _ hmem)] at h
    cases h
  · rintro rfl
    cases h

theorem IsGroup.ne_nil {g : Bytes} (h : IsGroup g) : g ≠ [] := by
  rintro rfl
  exact absurd h.short.1 (by decide)

theorem IsGroup.dropWhile {b g : Bytes} (hb : AllBlank b) (h : IsGroup g) :
    (b ++ g).dropWhile (inTarget blanks) = g := by
  have hpos : ∀ c ∈ b, inTarget blanks c = true := fun c hc => (inTarget_blanks c).mpr (hb c hc)
  obtain ⟨d, g, rfl⟩ := List.exists_cons_of_ne_nil h.ne_nil
  have hd := (not_mem_blanks_of_isDigit (h.digits d List.mem_cons_self)).1
  rw [List.dropWhile_append_of_pos hpos, List.dropWhile_cons_of_neg (by simpa [inTarget] using hd)]

/-- What is put in front of a text stands in front of its first piece. -/
theorem append_intercalate (a p : Bytes) (ps : List Bytes) :
    a ++ [46].intercalate (p :: ps) = [46].intercalate ((a ++ p) :: ps) := by
  cases ps with
  | nil => simp
  | cons q ps => simp [List.intercalate_cons_cons]

/-- A text that neither begins nor ends with a blank. -/
def Tight (s : Bytes) : Prop := (∀ c ∈ s.head?, c ∉ blanks) ∧ ∀ c ∈ s.getLast?, c ∉ blanks

theorem Tight.splitPieces {a m b : Bytes} {ps : List Bytes} (hm : Tight m) (ha : AllBlank a)
    (hb : AllBlank b) (hne : ps ≠ []) (hcut : m = [46].intercalate ps)
    (hdot : ∀ p ∈ ps, (46 : UInt8) ∉ p) :
    splitPieces (a ++ (m ++ b)) [46] =
      dropLastEmpty (ps.map (List.dropWhile (inTarget blanks))) := by
  have hstrip : strip (inTarget blanks) (a ++ (m ++ b)) = m := by
    rw [strip_append (fun c hc => (inTarget_blanks c).mpr (ha c hc))
      fun c hc => (inTarget_blanks c).mpr (hb c hc)]
    apply strip_eq_self
    · intro c hc
      simpa [inTarget] using hm.1 c hc
    · intro c hc
      simpa [inTarget] using hm.2 c hc
  rw [StringUtility.splitPieces, hstrip, hcut, cut_intercalate hne hdot]

/-- The text ends with the end of its last piece. -/
theorem getLast?_pieces {q : Bytes} {ps : List Bytes}
    (h : ∀ p ∈ q :: ps, ∃ c, p.getLast? = some c ∧ c ∉ blanks) :
    ∃ c, ([46].intercalate (q :: ps)).getLast? = some c ∧ c ∉ blanks := by
  induction ps generalizing q with
  | nil =>
      rw [List.intercalate_singleton]
      exact h q List.mem_cons_self
  | cons r ps ih =>
      have hq := List.forall_mem_cons.mp h
      obtain ⟨c, hlast, hc⟩ := ih hq.2
      refine ⟨c, ?_, hc⟩
      rw [List.intercalate_cons_cons, List.append_assoc, List.getLast?_append, List.getLast?_append,
        hlast]
      rfl

theorem IsGroup.getLast? {b g : Bytes} (h : IsGroup g) :
    ∃ c, (b ++ g).getLast? = some c ∧ c ∉ blanks := by
  have hlast := List.getLast?_eq_some_getLast h.ne_nil
  refine ⟨g.getLast h.ne_nil, ?_, ?_⟩
  · rw [List.getLast?_append, hlast]
    rfl
  · exact (not_mem_blanks_of_isDigit (h.digits _ (List.getLast_mem h.ne_nil))).1

/-- Nothing is left out behind a group. -/
theorem dropLastEmpty_groups {gs : List Bytes} (h : ∀ g ∈ gs, IsGroup g) :
    dropLastEmpty gs = gs := by
  rw [dropLastEmpty, if_neg]
  intro hlast
  exact (h [] (List.mem_of_getLast? hlast)).ne_nil rfl

theorem not_dot_of_part {b g : Bytes} (hb : AllBlank b) (hg : IsGroup g) :
    (46 : UInt8) ∉ b ++ g := by
  intro hmem
  cases List.mem_append.mp hmem with
  | inl hmem => exact absurd (hb 46 hmem) (by decide)
  | inr hmem => exact (not_mem_blanks_of_isDigit (hg.digits 46 hmem)).2 rfl

/-- A dot behind the last piece makes one more, which is empty. -/
theorem splitPieces_trails {a e : Bytes} {ps gs : List Bytes} (hm : Tight ([46].intercalate ps))
    (hne : ps ≠ []) (hdot : ∀ p ∈ ps, (46 : UInt8) ∉ p)
    (hmap : ps.map (List.dropWhile (inTarget blanks)) = gs) (hg : ∀ g ∈ gs, IsGroup g)
    (ha : AllBlank a) (he : Trails e) :
    splitPieces (a ++ ([46].intercalate ps ++ e)) [46] = gs := by
  cases he with
  | inl he => rw [hm.splitPieces ha he hne rfl hdot, hmap, dropLastEmpty_groups hg]
  | inr he =>
      obtain ⟨b, rfl, hb⟩ := he
      obtain ⟨p, ps, rfl⟩ := List.exists_cons_of_ne_nil hne
      have hmore := intercalate_append_cons 46 p ps []
      have htight : Tight ([46].intercalate (p :: ps ++ [[]])) := by
        rw [hmore]
        constructor
        · intro c hc
          cases htext : [46].intercalate (p :: ps) with
          | nil =>
              rw [htext] at hc
              cases hc
              decide
          | cons d t =>
              rw [htext] at hc hm
              exact hm.1 c hc
        · intro c hc
          rw [List.getLast?_concat] at hc
          cases hc
          decide
      have hdots : ∀ q ∈ p :: ps ++ [[]], (46 : UInt8) ∉ q := by
        intro q hq
        cases List.mem_append.mp hq with
        | inl hq => exact hdot q hq
        | inr hq =>
            rw [List.mem_singleton.mp hq]
            exact List.not_mem_nil
      have htext : [46].intercalate (p :: ps) ++ 46 :: b =
          [46].intercalate (p :: ps ++ [[]]) ++ b := by
        rw [hmore, List.append_assoc]
        rfl
      have hmaps : (p :: ps ++ [[]]).map (List.dropWhile (inTarget blanks)) = gs ++ [[]] := by
        rw [List.map_append, hmap]
        rfl
      rw [htext, htight.splitPieces ha hb (List.cons_ne_nil _ _) rfl hdots]
      -- and is left out
      refine (congrArg dropLastEmpty hmaps).trans ?_
      rw [dropLastEmpty, if_pos List.getLast?_concat, List.dropLast_concat]

/-- What is left of a text whose first group has nothing in front of it. -/
theorem splitPieces_parts {a e g : Bytes} {rest : List (Bytes × Bytes)} (ha : AllBlank a)
    (hb : ∀ p ∈ rest, AllBlank p.1) (hg : IsGroup g) (hgs : ∀ p ∈ rest, IsGroup p.2)
    (he : Trails e) :
    splitPieces (a ++ ([46].intercalate (g :: rest.map fun p => p.1 ++ p.2) ++ e)) [46] =
      g :: rest.map Prod.snd := by
  have hpart : ∀ q ∈ g :: rest.map (fun p => p.1 ++ p.2),
      ∃ b h, q = b ++ h ∧ AllBlank b ∧ IsGroup h := by
    intro q hq
    cases List.mem_cons.mp hq with
    | inl heq => exact ⟨[], g, heq, fun c hc => absurd hc List.not_mem_nil, hg⟩
    | inr hq =>
        obtain ⟨p, hp, rfl⟩ := List.mem_map.mp hq
        exact ⟨p.1, p.2, rfl, hb p hp, hgs p hp⟩
  apply splitPieces_trails _ (List.cons_ne_nil _ _) _ _ _ ha he
  · constructor
    · have hfront := append_intercalate g [] (rest.map fun p => p.1 ++ p.2)
      obtain ⟨d, g, rfl⟩ := List.exists_cons_of_ne_nil hg.ne_nil
      rw [List.append_nil] at hfront
      intro c hc
      rw [← hfront] at hc
      cases hc
      exact (not_mem_blanks_of_isDigit (hg.digits d List.mem_cons_self)).1
    · have hlast : ∃ z, ([46].intercalate (g :: rest.map fun p => p.1 ++ p.2)).getLast? = some z ∧
          z ∉ blanks := by
        apply getLast?_pieces
        intro q hq
        obtain ⟨b, h, rfl, -, hh⟩ := hpart q hq
        exact hh.getLast?
      obtain ⟨z, hz, hblank⟩ := hlast
      intro c hc
      rw [hz] at hc
      cases hc
      exact hblank
  · intro q hq
    obtain ⟨b, h, rfl, hbl, hh⟩ := hpart q hq
    exact not_dot_of_part hbl hh
  · have hfirst := hg.dropWhile (b := []) fun c hc => absurd hc List.not_mem_nil
    rw [List.nil_append] at hfirst
    rw [List.map_cons, hfirst, List.map_map]
    congr 1
    apply List.map_congr_left
    intro p hp
    exact (hgs p hp).dropWhile (hb p hp)
  · intro h hh
    cases List.mem_cons.mp hh with
    | inl heq =>
        rw [heq]
        exact hg
    | inr hh =>
        obtain ⟨p, hp, rfl⟩ := List.mem_map.mp hh
        exact hgs p hp

/-- The pieces of a text with groups, blanks and dots. -/
theorem splitPieces_spacedText {parts : List (Bytes × Bytes)} {e : Bytes} (h : Spaced parts e) :
    splitPieces (spacedText parts e) [46] = parts.map Prod.snd := by
  obtain ⟨⟨b, g⟩, rest, rfl⟩ : ∃ first rest, parts = first :: rest := by
    apply List.exists_cons_of_ne_nil
    rintro rfl
    cases h.length
  have hb := List.forall_mem_cons.mp h.blank
  have hg := List.forall_mem_cons.mp h.group
  have htext : spacedText ((b, g) :: rest) e =
      b ++ ([46].intercalate (g :: rest.map fun p => p.1 ++ p.2) ++ e) := by
    rw [← List.append_assoc, append_intercalate]
    rfl
  rw [htext, splitPieces_parts hb.1 hb.2 hg.1 hg.2 h.trails]
  rfl

/-- Every piece is what it has been trimmed to behind some blanks. -/
theorem exists_parts (ps : List Bytes)
    (hgroup : ∀ g ∈ ps.map (List.dropWhile (inTarget blanks)), IsGroup g) :
    ∃ parts : List (Bytes × Bytes), parts.length = ps.length ∧ (∀ p ∈ parts, AllBlank p.1) ∧
      (∀ p ∈ parts, IsGroup p.2) ∧ parts.map (fun p => p.1 ++ p.2) = ps := by
  refine ⟨ps.map fun p => (p.takeWhile (inTarget blanks), p.dropWhile (inTarget blanks)),
    List.length_map _, ?_, ?_, ?_⟩
  · intro p hp c hc
    obtain ⟨q, -, rfl⟩ := List.mem_map.mp hp
    exact (inTarget_blanks c).mp (List.mem_takeWhile_imp hc)
  · intro p hp
    obtain ⟨q, hq, rfl⟩ := List.mem_map.mp hp
    exact hgroup _ (List.mem_map_of_mem hq)
  · rw [List.map_map]
    conv_rhs => rw [← List.map_id ps]
    apply List.map_congr_left
    intro p _
    exact List.takeWhile_append_dropWhile

theorem spaced_of_pieces {a e : Bytes} {ps : List Bytes} (hlen : ps.length = 4)
    (hgroup : ∀ g ∈ ps.map (List.dropWhile (inTarget blanks)), IsGroup g) (ha : AllBlank a)
    (he : Trails e) :
    ∃ parts, Spaced parts e ∧ a ++ ([46].intercalate ps ++ e) = spacedText parts e := by
  obtain ⟨parts, hparts, hblank, hgroups, hmap⟩ := exists_parts ps hgroup
  cases parts with
  | nil =>
      rw [hlen] at hparts
      cases hparts
  | cons p parts =>
      have hb := List.forall_mem_cons.mp hblank
      have hg := List.forall_mem_cons.mp hgroups
      refine ⟨(a ++ p.1, p.2) :: parts, ?_, ?_⟩
      · exact {
          length := by
            rw [← hlen, ← hparts]
            rfl
          blank := by
            intro q hq
            cases List.mem_cons.mp hq with
            | inl heq =>
                intro c hc
                rw [heq] at hc
                cases List.mem_append.mp hc with
                | inl hc => exact ha c hc
                | inr hc => exact hb.1 c hc
            | inr hmem => exact hb.2 q hmem
          group := by
            intro q hq
            cases List.mem_cons.mp hq with
            | inl heq =>
                rw [heq]
                exact hg.1
            | inr hmem => exact hg.2 q hmem
          trails := he }
      · rw [← hmap, ← List.append_assoc, List.map_cons, append_intercalate, ← List.append_assoc]
        rfl

/-- A text of four pieces that are groups. -/
theorem exists_spaced {s : Bytes} (hlen : (splitPieces s [46]).length = 4)
    (hgroup : ∀ g ∈ splitPieces s [46], IsGroup g) :
    ∃ parts e, Spaced parts e ∧ s = spacedText parts e := by
  obtain ⟨a, b, hs, ha, hb⟩ := exists_strip (inTarget blanks) s
  have ha' : AllBlank a := fun c hc => (inTarget_blanks c).mp (ha c hc)
  have hb' : AllBlank b := fun c hc => (inTarget_blanks c).mp (hb c hc)
  have hcut := intercalate_cut (List.cons_ne_nil 46 []) (strip (inTarget blanks) s)
  rw [splitPieces, dropLastEmpty] at hlen hgroup
  generalize cut [46] (strip (inTarget blanks) s) = ps at hlen hgroup hcut
  rw [← hcut] at hs
  by_cases hlast : (ps.map (List.dropWhile (inTarget blanks))).getLast? = some []
  · rw [if_pos hlast, ← List.map_dropLast] at hlen hgroup
    rw [List.length_map] at hlen
    -- the last piece is blank
    have hne : ps ≠ [] := by
      rintro rfl
      cases hlast
    have hsplit := List.dropLast_append_getLast hne
    rw [List.getLast?_map, List.getLast?_eq_some_getLast hne] at hlast
    generalize ps.getLast hne = q at hsplit hlast
    have hq : ∀ c ∈ q, inTarget blanks c = true :=
      List.dropWhile_eq_nil_iff.mp (Option.some.inj hlast)
    have htrails : Trails (46 :: (q ++ b)) := by
      refine .inr ⟨q ++ b, rfl, fun c hc => ?_⟩
      cases List.mem_append.mp hc with
      | inl hc => exact (inTarget_blanks c).mp (hq c hc)
      | inr hc => exact hb' c hc
    obtain ⟨parts, hspaced, htext⟩ := spaced_of_pieces hlen hgroup ha' htrails
    refine ⟨parts, _, hspaced, ?_⟩
    obtain ⟨p, rest, hp⟩ := List.exists_cons_of_length_pos (l := ps.dropLast) (by omega)
    rw [hp] at hsplit htext
    rw [← htext, hs, ← hsplit, intercalate_append_cons, List.append_assoc]
    rfl
  · rw [if_neg hlast] at hlen hgroup
    rw [List.length_map] at hlen
    obtain ⟨parts, hspaced, htext⟩ := spaced_of_pieces hlen hgroup ha' (.inl hb')
    exact ⟨parts, b, hspaced, hs.trans htext⟩

theorem IsDigitIp_yields (s : Bytes) : Yields (IsDigitIp s)
    (.ok ((splitPieces s [46]).length = 4 && (splitPieces s [46]).all digitPart)) := by
  have hdot : ∀ c ∈ ([46] : Bytes), c ∉ blanks := by
    intro c hc
    rw [List.mem_singleton.mp hc]
    decide
  have hsplit := SplitString_pieces (List.cons_ne_nil 46 []) hdot s
  obtain ⟨n, hn⟩ := hsplit
  exact ⟨n, by rw [IsDigitIp, andThen, hn]; rfl⟩

/-! ## What is accepted -/

theorem settles_IsDigitIp (s : Bytes) : Settles (IsDigitIp s) :=
  settles_andThen (settles_SplitString s [46]) fun _ => settles_now _

theorem digitPieces_iff (s : Bytes) :
    ((splitPieces s [46]).length = 4 && (splitPieces s [46]).all digitPart) = true ↔
      ∃ parts e, Spaced parts e ∧ s = spacedText parts e := by
  simp only [Bool.and_eq_true, decide_eq_true_eq, List.all_eq_true, digitPart_iff]
  constructor
  · rintro ⟨hlen, hgroup⟩
    exact exists_spaced hlen hgroup
  · rintro ⟨parts, e, h, rfl⟩
    rw [splitPieces_spacedText h, List.length_map]
    refine ⟨h.length, fun g hg => ?_⟩
    obtain ⟨p, hp, rfl⟩ := List.mem_map.mp hg
    exact h.group p hp

theorem IsIp.spaced {s : Bytes} (h : IsIp s) :
    ∃ parts e, Spaced parts e ∧ s = spacedText parts e := by
  obtain ⟨gs, hlen, hg, rfl⟩ := h
  refine ⟨gs.map fun g => ([], g), [], ?_, ?_⟩
  · exact {
      length := by rw [List.length_map, hlen]
      blank := by
        intro p hp c hc
        obtain ⟨g, -, rfl⟩ := List.mem_map.mp hp
        cases hc
      group := by
        intro p hp
        obtain ⟨g, hmem, rfl⟩ := List.mem_map.mp hp
        exact hg g hmem
      trails := .inl fun c hc => absurd hc List.not_mem_nil }
  · rw [spacedText, List.map_map, List.append_nil]
    congr 1
    exact (List.map_id gs).symm

/-- An address has no blank, and no dot at its end. -/
theorem IsIp.chars {s : Bytes} (h : IsIp s) :
    (∀ c ∈ s, c ∉ blanks) ∧ ∀ c ∈ s.getLast?, c ≠ 46 := by
  obtain ⟨gs, -, hg, rfl⟩ := h
  have hword : ∀ g ∈ gs, IsWord (fun c => !isDigit c) g := fun g hmem =>
    ⟨(hg g hmem).ne_nil, fun c hc => by simp [(hg g hmem).digits c hc]⟩
  constructor
  · intro c hc
    cases mem_intercalate hc with
    | inl hdot =>
        rw [hdot]
        decide
    | inr hin =>
        obtain ⟨g, hmem, hc⟩ := hin
        exact (not_mem_blanks_of_isDigit ((hg g hmem).digits c hc)).1
  · intro c hc
    have hdigit := getLast?_intercalate hword hc
    exact (not_mem_blanks_of_isDigit (by simpa using hdigit)).2

theorem IsIp.not_slack {s : Bytes} (h : IsIp s) : ¬ Slack s := by
  rintro ⟨parts, e, hspaced, rfl, hslack⟩
  obtain ⟨hblank, hlast⟩ := h.chars
  have hnone : ∀ {b : Bytes}, AllBlank b → (∀ c ∈ b, c ∈ spacedText parts e) → b = [] := by
    intro b hb hsub
    cases b with
    | nil => rfl
    | cons c b =>
        exact absurd (hb c List.mem_cons_self) (hblank c (hsub c List.mem_cons_self))
  cases hslack with
  | inl hfront =>
      obtain ⟨p, hp, hne⟩ := hfront
      apply hne
      apply hnone (hspaced.blank p hp)
      intro c hc
      have hpart : p.1 ++ p.2 ∈ parts.map fun p => p.1 ++ p.2 := List.mem_map_of_mem hp
      exact List.mem_append_left _ (subset_intercalate hpart (List.mem_append_left _ hc))
  | inr hend =>
      cases hspaced.trails with
      | inl hb => exact hend (hnone hb fun c hc => List.mem_append_right _ hc)
      | inr hb =>
          obtain ⟨b, rfl, hb⟩ := hb
          obtain rfl : b = [] :=
            hnone hb fun c hc => List.mem_append_right _ (List.mem_cons_of_mem _ hc)
          exact hlast 46 List.getLast?_concat rfl

theorem IsIp.of_not_slack {s : Bytes} {parts : List (Bytes × Bytes)} {e : Bytes}
    (h : Spaced parts e) (hs : s = spacedText parts e) (hslack : ¬ Slack s) : IsIp s := by
  have htight : ¬ ((∃ p ∈ parts, p.1 ≠ []) ∨ e ≠ []) := fun hmore =>
    hslack ⟨parts, e, h, hs, hmore⟩
  rw [not_or, not_not] at htight
  refine ⟨parts.map Prod.snd, by rw [List.length_map, h.length], ?_, ?_⟩
  · intro g hg
    obtain ⟨p, hp, rfl⟩ := List.mem_map.mp hg
    exact h.group p hp
  · rw [hs, spacedText, htight.2, List.append_nil]
    congr 1
    apply List.map_congr_left
    intro p hp
    have hfront : p.1 = [] := by
      by_contra hne
      exact htight.1 ⟨p, hp, hne⟩
    rw [hfront, List.nil_append]

/-- A text of that kind is accepted, and is no address. -/
theorem Slack.wrong {s : Bytes} (h : Slack s) :
    ¬ ∃ b, Yields (IsDigitIp s) (.ok b) ∧ (b = true ↔ IsIp s) := by
  rintro ⟨b, hb, hip⟩
  obtain rfl := Except.ok.inj ((settles_IsDigitIp s).unique (IsDigitIp_yields s) hb)
  have hsome : ∃ parts e, Spaced parts e ∧ s = spacedText parts e := by
    obtain ⟨parts, e, hspaced, hs, -⟩ := h
    exact ⟨parts, e, hspaced, hs⟩
  exact (hip.mp ((digitPieces_iff s).mpr hsome)).not_slack h

/-- What is accepted is an address, but for blanks in front of the groups and what may stand
behind the last one. -/
theorem IsDigitIp_iff (s : Bytes) :
    (∃ b, Yields (IsDigitIp s) (.ok b) ∧ (b = true ↔ IsIp s)) ↔ ¬ Slack s := by
  constructor
  · intro hright hslack
    exact hslack.wrong hright
  · intro hslack
    refine ⟨_, IsDigitIp_yields s, ?_⟩
    rw [digitPieces_iff]
    constructor
    · rintro ⟨parts, e, h, hs⟩
      exact IsIp.of_not_slack h hs hslack
    · exact IsIp.spaced

/-- `1.2.3.4.` is accepted. -/
theorem IsDigitIp_trailing_dot :
    ¬ ∃ b, Yields (IsDigitIp [49, 46, 50, 46, 51, 46, 52, 46]) (.ok b) ∧
      (b = true ↔ IsIp [49, 46, 50, 46, 51, 46, 52, 46]) := by
  apply Slack.wrong
  refine ⟨[([], [49]), ([], [50]), ([], [51]), ([], [52])], [46], ?_, rfl, ?_⟩
  · exact {
      length := rfl
      blank := by
        intro p hp c hc
        have hnil : ∀ p ∈ [([], [49]), ([], [50]), ([], [51]), (([], [52]) : Bytes × Bytes)],
            p.1 = [] := by
          decide
        rw [hnil p hp] at hc
        cases hc
      group := by
        intro p hp
        rw [← digitPart_iff]
        revert p
        decide
      trails := .inr ⟨[], rfl, fun c hc => absurd hc List.not_mem_nil⟩ }
  · exact .inr (List.cons_ne_nil 46 [])

end StringUtility

end CommonCc
