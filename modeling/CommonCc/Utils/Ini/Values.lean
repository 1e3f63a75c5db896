import CommonCc.Utils.Ini
import Mathlib.Data.List.Find

/-!
# Values with brackets

A line is a section when it has a `[` before a `]`, wherever these are; a value may have both.
-/

namespace CommonCc

namespace CIniFile

/-- The name of a section or of a key. -/
structure Name (s : Bytes) : Prop where
  noDash : 45 ∉ s
  noEquals : 61 ∉ s
  noOpen : 91 ∉ s
  noClose : 93 ∉ s
  noComment : s.head? ≠ some 35
  oneLine : 10 ∉ s

/-- `[f]` or `k=v`, where the value is any text of one line. -/
inductive TextLine where
  | header (field : Bytes) (h : Name field)
  | entry (key value : Bytes) (hkey : Name key) (hvalue : 10 ∉ value)

namespace TextLine

def text : TextLine → Bytes
  | header field _ => 91 :: (field ++ [93])
  | entry key value .. => key ++ 61 :: value

/-- The entries of a file in order, each in the section of the last header in front of it. -/
def entriesFrom (field : Bytes) : List TextLine → List Entry
  | [] => []
  | .header field' _ :: lines => entriesFrom field' lines
  | .entry key value .. :: lines => ⟨field, key, value⟩ :: entriesFrom field lines

def entries (lines : List TextLine) : List Entry := entriesFrom [] lines

theorem oneLine (l : TextLine) : 10 ∉ l.text := by
  cases l with
  | header field h => simp [text, h.oneLine]
  | entry key value hkey hvalue => simp [text, hkey.oneLine, hvalue]

theorem text_ne_nil (l : TextLine) : l.text ≠ [] := by
  cases l <;> simp [text]

end TextLine

/-- What a text has between its first `[` and its first `]`, when they are in this order. -/
def bracketed (s : Bytes) : Option Bytes :=
  match find s [91] 0, find s [93] 0 with
  | some pos, some pos2 =>
      if pos < pos2 then some ((s.drop (pos + 1)).take (pos2 - (pos + 1))) else none
  | _, _ => none

/-! ## One line -/

theorem readLine_eq {line : Bytes} (h : ¬ (line.head? = some 35 ∨ line.length = 0))
    (state : Bytes × SortedMap Bytes Bytes) :
    readLine state line =
      match bracketed line with
      | some field => .ok (field, state.2)
      | none => readEntry state.1 state.2 line := by
  rw [readLine, if_neg h, bracketed]
  cases hopen : find line [91] 0 with
  | none => rfl
  | some pos =>
      cases hclose : find line [93] 0 with
      | none => rfl
      | some pos2 =>
          dsimp only
          by_cases hlt : pos < pos2
          · have hfits : pos + 1 ≤ line.length := (find_spec hopen).2
            have hcut : substrTo line (pos + 1) (some pos2) =
                .ok ((line.drop (pos + 1)).take (pos2 - (pos + 1))) := by
              rw [substrTo, if_neg (by omega), if_pos hfits]
            rw [if_pos hlt, if_pos hlt, hcut]
            rfl
          · rw [if_neg hlt, if_neg hlt]

theorem bracketed_header {field : Bytes} (h : Name field) :
    bracketed (91 :: (field ++ [93])) = some field := by
  have hopen : find (91 :: (field ++ [93])) [91] 0 = some 0 :=
    find_zero (b := []) (c := field ++ [93]) (by simp)
  have hclose : find (91 :: (field ++ [93])) [93] 0 = some (field.length + 1) :=
    find_zero (b := 91 :: field) (c := []) (by simp [h.noClose])
  rw [bracketed, hopen, hclose]
  dsimp only
  rw [if_pos (Nat.succ_pos _)]
  simp

/-- The brackets of an entry are those of its value. -/
theorem bracketed_entry {key : Bytes} (hkey : Name key) (value : Bytes) :
    bracketed (key ++ 61 :: value) = bracketed value := by
  have hskip : ∀ c : UInt8, c ≠ 61 → c ∉ key →
      find (key ++ 61 :: value) [c] 0 = (find value [c] 0).map (key.length + 1 + ·) := by
    intro c hc hk
    have hno : ¬ [c] <:+: key := fun h => hk (h.subset List.mem_cons_self)
    rw [find_zero_eq, find_zero_eq]
    exact search_skip (by simpa using Ne.symm hc) hno value
  rw [bracketed, hskip 91 (by decide) hkey.noOpen, hskip 93 (by decide) hkey.noClose, bracketed]
  cases find value [91] 0 with
  | none => rfl
  | some pos =>
      cases find value [93] 0 with
      | none => rfl
      | some pos2 =>
          have hdrop : (key ++ 61 :: value).drop (key.length + 1 + pos + 1) =
              value.drop (pos + 1) := by
            rw [show key.length + 1 + pos + 1 = key.length + (pos + 1 + 1) by omega,
              List.drop_length_add_append, List.drop_succ_cons]
          simp only [Option.map_some, hdrop]
          by_cases hlt : pos < pos2
          · rw [if_pos (by omega), if_pos hlt]
            congr 2
            omega
          · rw [if_neg (by omega), if_neg hlt]

theorem readEntry_entry {key : Bytes} (hkey : Name key) (value field : Bytes)
    (m_kv : SortedMap Bytes Bytes) :
    readEntry field m_kv (key ++ 61 :: value) = .ok (field, m_kv.set (joined field key) value) := by
  have hequal : find (key ++ 61 :: value) [61] 0 = some key.length :=
    find_zero (c := value) hkey.noEquals
  have hname : substrTo (key ++ 61 :: value) 0 (some key.length) = .ok key := substrTo_zero _ _
  have hrest : substr (key ++ 61 :: value) (posAdd (some key.length) 1) = .ok value := by
    have happend := substr_append (key ++ [61]) value
    rwa [List.append_assoc, List.singleton_append, List.length_append] at happend
  rw [readEntry, hequal]
  simp only [bind, Except.bind, hname, hrest]

/-- What a line does to the section and to the map. -/
def TextLine.effect (state : Bytes × SortedMap Bytes Bytes) :
    TextLine → Bytes × SortedMap Bytes Bytes
  | header field _ => (field, state.2)
  | entry key value .. =>
      match bracketed value with
      | some field => (field, state.2)
      | none => (state.1, state.2.set (joined state.1 key) value)

theorem readLine_text (state : Bytes × SortedMap Bytes Bytes) (l : TextLine) :
    readLine state l.text = .ok (l.effect state) := by
  cases l with
  | header field h =>
      rw [TextLine.text, readLine_eq (by simp), bracketed_header h]
      rfl
  | entry key value hkey hvalue =>
      have hfirst : ¬ ((key ++ 61 :: value).head? = some 35 ∨ (key ++ 61 :: value).length = 0) := by
        have hcomment := hkey.noComment
        cases key with
        | nil => simp
        | cons c key => simpa using hcomment
      rw [TextLine.text, readLine_eq hfirst, bracketed_entry hkey, TextLine.effect]
      cases bracketed value with
      | some field => rfl
      | none => exact readEntry_entry hkey value state.1 state.2

theorem readLines_text (lines : List TextLine) (state : Bytes × SortedMap Bytes Bytes) :
    (lines.map TextLine.text).foldlM readLine state = .ok (lines.foldl TextLine.effect state) := by
  induction lines generalizing state with
  | nil => rfl
  | cons l lines ih =>
      rw [List.map_cons, List.foldlM_cons, readLine_text]
      exact ih _

/-! ## Sections -/

/-- What an entry has in brackets is the section it stands in. -/
def Entry.NamesOwn (e : Entry) : Prop := ∀ field, bracketed e.value = some field → field = e.field

theorem effect_entry_iff {key value : Bytes} {hkey : Name key} {hvalue : 10 ∉ value}
    (state : Bytes × SortedMap Bytes Bytes) :
    ((TextLine.entry key value hkey hvalue).effect state).1 = state.1 ↔
      Entry.NamesOwn ⟨state.1, key, value⟩ := by
  rw [TextLine.effect, Entry.NamesOwn]
  cases bracketed value <;> simp

/-- The entries leave the section alone exactly when each of them names its own or none. -/
theorem keep_section_iff (lines : List TextLine) (state : Bytes × SortedMap Bytes Bytes) :
    (∀ before key value hkey hvalue after,
      lines = before ++ TextLine.entry key value hkey hvalue :: after →
      ((TextLine.entry key value hkey hvalue).effect (before.foldl TextLine.effect state)).1 =
        (before.foldl TextLine.effect state).1) ↔
    ∀ e ∈ TextLine.entriesFrom state.1 lines, e.NamesOwn := by
  induction lines generalizing state with
  | nil => simp [TextLine.entriesFrom]
  | cons l lines ih =>
      have htail := ih (l.effect state)
      cases l with
      | header field h =>
          rw [TextLine.entriesFrom]
          refine Iff.trans ?_ htail
          constructor
          · intro hkeep before key value hkey hvalue after hlines
            exact hkeep (.header field h :: before) key value hkey hvalue after (by rw [hlines]; rfl)
          · intro hkeep before key value hkey hvalue after hlines
            cases before with
            | nil => cases hlines
            | cons l' before =>
                cases hlines
                exact hkeep before key value hkey hvalue after rfl
      | entry key value hkey hvalue =>
          rw [TextLine.entriesFrom, List.forall_mem_cons, ← @effect_entry_iff key value hkey hvalue]
          constructor
          · intro hkeep
            have hfirst := hkeep [] key value hkey hvalue lines rfl
            constructor
            · exact hfirst
            · rw [List.foldl_nil] at hfirst
              rw [← hfirst, ← htail]
              intro before key' value' hkey' hvalue' after hlines
              exact hkeep (.entry key value hkey hvalue :: before) key' value' hkey' hvalue' after
                (by rw [hlines]; rfl)
          · intro h before key' value' hkey' hvalue' after hlines
            cases before with
            | nil =>
                cases hlines
                exact h.1
            | cons l' before =>
                cases hlines
                have hrest := h.2
                rw [← h.1, ← htail] at hrest
                exact hrest before key' value' hkey' hvalue' after rfl

/-- The entries that are stored. -/
def plainEntries (es : List Entry) : List Entry := es.filter fun e => bracketed e.value = none

theorem foldl_effect {lines : List TextLine} {state : Bytes × SortedMap Bytes Bytes}
    (h : ∀ e ∈ TextLine.entriesFrom state.1 lines, e.NamesOwn) :
    (lines.foldl TextLine.effect state).2 =
      ((plainEntries (TextLine.entriesFrom state.1 lines)).map fun e =>
        (joined e.field e.key, e.value)).foldl (fun m p => m.set p.1 p.2) state.2 := by
  induction lines generalizing state with
  | nil => rfl
  | cons l lines ih =>
      cases l with
      | header field hf => exact @ih (field, state.2) h
      | entry key value hkey hvalue =>
          rw [TextLine.entriesFrom] at h ⊢
          rcases List.forall_mem_cons.mp h with ⟨hown, hrest⟩
          have hsection := (@effect_entry_iff key value hkey hvalue state).mpr hown
          rw [List.foldl_cons, ih (by rwa [hsection]), hsection, TextLine.effect]
          cases hbracketed : bracketed value <;> simp [plainEntries, hbracketed]

/-! ## Lookups -/

theorem name_of_mem_entriesFrom {lines : List TextLine} {field : Bytes} (h : Name field) {e : Entry}
    (he : e ∈ TextLine.entriesFrom field lines) : Name e.field ∧ Name e.key := by
  induction lines generalizing field with
  | nil => cases he
  | cons l lines ih =>
      cases l with
      | header field' h' => exact ih h' he
      | entry key value hkey hvalue =>
          rcases List.mem_cons.mp he with rfl | he
          · exact ⟨h, hkey⟩
          · exact ih h he

/-- Names without a `-` are joined in one way. -/
theorem joined_eq_iff_of_name {e : Entry} {field key : Bytes} (he : Name e.field)
    (h : Name field) : joined e.field e.key = joined field key ↔ e.field = field ∧ e.key = key := by
  rw [joined_eq_iff]
  constructor
  · intro hor
    rcases hor with hsame | ⟨w, hw | hw⟩
    · exact hsame
    · exact absurd (hw.1 ▸ List.mem_append_right field List.mem_cons_self) he.noDash
    · exact absurd (hw.1 ▸ List.mem_append_right e.field List.mem_cons_self) h.noDash
  · exact .inl

theorem find_plainEntries {es : List Entry} (hnames : ∀ e ∈ es, Name e.field) {field key : Bytes}
    (h : Name field) (m_kv : SortedMap Bytes Bytes) :
    (((plainEntries es).map fun e => (joined e.field e.key, e.value)).foldl
        (fun m p => m.set p.1 p.2) m_kv).find (joined field key) =
      (lastValue (plainEntries es) field key).or (m_kv.find (joined field key)) := by
  rw [SortedMap.find_foldl_set, ← List.map_reverse, List.find?_map, Option.map_map, lastValue]
  have hsame : ∀ e ∈ (plainEntries es).reverse,
      decide (joined e.field e.key = joined field key) = decide (e.field = field ∧ e.key = key) := by
    intro e he
    have hmem := List.mem_of_mem_filter (List.mem_reverse.mp he)
    exact decide_eq_decide.mpr (joined_eq_iff_of_name (hnames e hmem) h)
  rw [← List.find?_congr hsame]
  apply congrArg fun found => (Option.map Entry.value found).or (m_kv.find (joined field key))
  congr 1
  funext e
  exact decide_eq_decide.mpr Iff.rfl

/-- The stored entries give the value of the last line exactly when that has no brackets. -/
theorem lastValue_plainEntries_iff (es : List Entry) (field key : Bytes) :
    lastValue (plainEntries es) field key = lastValue es field key ↔
      ∀ v, lastValue es field key = some v → bracketed v = none := by
  rw [lastValue, lastValue, plainEntries, ← List.filter_reverse, List.find?_filter]
  constructor
  · intro heq v hv
    rw [← heq] at hv
    rcases Option.map_eq_some_iff.mp hv with ⟨e, he, rfl⟩
    have hboth := List.find?_some he
    simp only [decide_eq_true_eq] at hboth
    exact hboth.1
  · intro hlast
    cases hfind : es.reverse.find? fun e => e.field = field ∧ e.key = key with
    | none =>
        rw [List.find?_eq_none] at hfind
        rw [List.find?_eq_none.mpr]
        intro e he hboth
        exact hfind e he (of_decide_eq_true hboth).2
    | some e =>
        have hplain := hlast e.value (by rw [hfind]; rfl)
        rcases List.find?_eq_some_iff_append.mp hfind with ⟨he, as, bs, hsplit, has⟩
        congr 1
        rw [List.find?_eq_some_iff_append]
        refine ⟨by simpa [hplain] using he, as, bs, hsplit, ?_⟩
        intro e' he'
        have hno := has e' he'
        rw [Bool.not_eq_true'] at hno ⊢
        rw [hno]
        simp

/-! ## Files -/

def textFile (lines : List TextLine) : Bytes := lines.flatMap fun l => l.text ++ [10]

theorem getlines_textFile {lines : List TextLine} {content : Bytes}
    (h : content = textFile lines ∨ content = (textFile lines).dropLast) :
    getlines content = lines.map TextLine.text := by
  have htexts : textFile lines = (lines.map TextLine.text).flatMap (· ++ [10]) := by
    rw [textFile, List.flatMap_map]
  rw [htexts] at h
  apply getlines_joined _ h
  intro t ht
  rcases List.mem_map.mp ht with ⟨l, -, rfl⟩
  exact ⟨l.oneLine, l.text_ne_nil⟩

/-- No line `k=v` changes the section that the lines in front of it lead to. -/
def EntriesKeepSection (ini : CIniFile) (lines : List TextLine) : Prop :=
  ∀ before key value hkey hvalue after,
    lines = before ++ TextLine.entry key value hkey hvalue :: after →
    ∀ state, (before.map TextLine.text).foldlM readLine ([], ini.m_kv) = .ok state →
      ∃ state', readLine state (TextLine.entry key value hkey hvalue).text = .ok state' ∧
        state'.1 = state.1

/-- Whatever was read before, a lookup gives the value of the last line of the key in the section,
or what was there when there is no such line. -/
def ReadsAnyValue (disk : Bytes → Option Bytes) (path : Bytes) (lines : List TextLine) : Prop :=
  ∀ ini, (∃ ini', OpenIniFile disk ini path = .ok (ini', true) ∧
      ∀ field key, Name field → Name key → ini'.GetFiledValue field key =
        (lastValue (TextLine.entries lines) field key).or (ini.GetFiledValue field key)) ∧
    EntriesKeepSection ini lines

theorem entriesKeepSection_iff (ini : CIniFile) (lines : List TextLine) :
    EntriesKeepSection ini lines ↔ ∀ e ∈ TextLine.entries lines, e.NamesOwn := by
  rw [TextLine.entries, ← keep_section_iff lines ([], ini.m_kv)]
  simp only [EntriesKeepSection, readLines_text, readLine_text, Except.ok.injEq]
  constructor
  · intro h before key value hkey hvalue after hlines
    rcases h before key value hkey hvalue after hlines _ rfl with ⟨_, rfl, hsection⟩
    exact hsection
  · intro h before key value hkey hvalue after hlines state hstate
    rw [← hstate]
    exact ⟨_, rfl, h before key value hkey hvalue after hlines⟩

/-- No value has the name of another section in brackets, and the last value of a key has none. -/
structure ValuesRead (es : List Entry) : Prop where
  own : ∀ e ∈ es, e.NamesOwn
  last : ∀ field key v, lastValue es field key = some v → bracketed v = none

theorem name_nil : Name [] := by constructor <;> simp

section Opened

variable {disk : Bytes → Option Bytes} {path content : Bytes} {lines : List TextLine}

theorem OpenIniFile_textFile (hdisk : disk (path.takeWhile (· ≠ 0)) = some content)
    (hcontent : content = textFile lines ∨ content = (textFile lines).dropLast)
    (hown : ∀ e ∈ TextLine.entries lines, e.NamesOwn) (ini : CIniFile) :
    ∃ ini', OpenIniFile disk ini path = .ok (ini', true) ∧ ∀ field key, Name field →
      ini'.GetFiledValue field key =
        (lastValue (plainEntries (TextLine.entries lines)) field key).or
          (ini.GetFiledValue field key) := by
  constructor
  constructor
  · rw [OpenIniFile, hdisk]
    dsimp only
    rw [getlines_textFile hcontent, readLines_text]
    rfl
  · intro field key hfield
    have hmap := @foldl_effect lines ([], ini.m_kv) hown
    rw [GetFiledValue, hmap]
    exact find_plainEntries (fun e he => (name_of_mem_entriesFrom name_nil he).1) hfield ini.m_kv

/-- A file is read as it should be exactly when no value has the name of another section in brackets,
and the value of the last line of each key has no brackets at all. -/
theorem values_any_iff (hdisk : disk (path.takeWhile (· ≠ 0)) = some content)
    (hcontent : content = textFile lines ∨ content = (textFile lines).dropLast) :
    ReadsAnyValue disk path lines ↔ ValuesRead (TextLine.entries lines) := by
  constructor
  · intro h
    have hown := (entriesKeepSection_iff ⟨.empty⟩ lines).mp (h ⟨.empty⟩).2
    rcases (h ⟨.empty⟩).1 with ⟨ini', hopen, hlookup⟩
    rcases OpenIniFile_textFile hdisk hcontent hown ⟨.empty⟩ with ⟨ini'', hopen', hplain⟩
    rw [hopen] at hopen'
    cases hopen'
    constructor
    · exact hown
    · intro field key v hv
      rcases Option.map_eq_some_iff.mp hv with ⟨e, he, -⟩
      have hmem := List.mem_reverse.mp (List.mem_of_find?_eq_some he)
      have hnames := name_of_mem_entriesFrom name_nil hmem
      have hsame : e.field = field ∧ e.key = key := by
        have hfound := List.find?_some he
        exact of_decide_eq_true hfound
      rw [hsame.1, hsame.2] at hnames
      apply (lastValue_plainEntries_iff _ field key).mp _ v hv
      have hboth := hlookup field key hnames.1 hnames.2
      rw [hplain field key hnames.1] at hboth
      rwa [show (CIniFile.mk .empty).GetFiledValue field key = none from rfl, Option.or_none,
        Option.or_none] at hboth
  · intro h ini
    constructor
    · rcases OpenIniFile_textFile hdisk hcontent h.own ini with ⟨ini', hopen, hplain⟩
      exists ini'
      constructor
      · exact hopen
      · intro field key hfield hkey
        rw [hplain field key hfield, (lastValue_plainEntries_iff _ field key).mpr (h.last field key)]
    · exact (entriesKeepSection_iff ini lines).mpr h.own

end Opened

/-- `[a]`, `k=[b]` and `m=1`. -/
def bracketedFile : List TextLine :=
  [.header [97] (by constructor <;> decide),
   .entry [107] [91, 98, 93] (by constructor <;> decide) (by decide),
   .entry [109] [49] (by constructor <;> decide) (by decide)]

theorem values_any_iff_bracketed :
    ReadsAnyValue (fun _ => some (textFile bracketedFile)) [105] bracketedFile ↔
      ValuesRead (TextLine.entries bracketedFile) :=
  @values_any_iff (fun _ => some (textFile bracketedFile)) [105] _ bracketedFile rfl (.inl rfl)

/-- The value `[b]` is taken for a section: it is not found, and `m` is found in the section `b`. -/
theorem value_as_section :
    ¬ ReadsAnyValue (fun _ => some (textFile bracketedFile)) [105] bracketedFile ∧
    ∃ ini', OpenIniFile (fun _ => some (textFile bracketedFile)) ⟨.empty⟩ [105] = .ok (ini', true) ∧
      ini'.GetFiledValue [97] [107] = none ∧ ini'.GetFiledValue [97] [109] = none ∧
      ini'.GetFiledValue [98] [109] = some [49] := by
  have hopen : OpenIniFile (fun _ => some (textFile bracketedFile)) ⟨.empty⟩ [105] =
      .ok (⟨⟨[([98, 45, 109], [49])], List.pairwise_singleton _ _⟩⟩, true) := rfl
  constructor
  · intro h
    rcases (h ⟨.empty⟩).1 with ⟨ini', hini, hlookup⟩
    rw [hopen] at hini
    cases hini
    have hvalue := hlookup [97] [107] (by constructor <;> decide) (by constructor <;> decide)
    exact absurd hvalue (by decide)
  · exact ⟨_, hopen, by decide, by decide, by decide⟩

end CIniFile

end CommonCc
