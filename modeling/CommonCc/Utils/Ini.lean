import CommonCc.StdString
import CommonCc.Lib.SortedMap

/-!
# Configuration files

`CIniFile::OpenIniFile` and the lookups, which `CNetConf` has word for word.  Section and
key are joined to one key of the map.
-/

namespace CommonCc

/-- The lines that `getline` delivers; the last one may end with the file. -/
def getlinesFrom (line : Bytes) : Bytes → List Bytes
  | [] => if line = [] then [] else [line]
  | c :: s => if c = 10 then line :: getlinesFrom [] s else getlinesFrom (line ++ [c]) s

def getlines (s : Bytes) : List Bytes := getlinesFrom [] s

structure CIniFile where
  m_kv : SortedMap Bytes Bytes

namespace CIniFile

/-- The key of the map for a key in a section. -/
def joined (field key : Bytes) : Bytes := field ++ [45] ++ key

/-- `k=v`; without a `=` both are the whole line. -/
def readEntry (field : Bytes) (m_kv : SortedMap Bytes Bytes) (line : Bytes) :
    Except Fault (Bytes × SortedMap Bytes Bytes) := do
  let pos := find line [61] 0
  let key ← substrTo line 0 pos
  let value ← substr line (posAdd pos 1)
  .ok (field, m_kv.set (joined field key) value)

/-- The loop body, on the current section and the map. -/
def readLine (state : Bytes × SortedMap Bytes Bytes) (line : Bytes) :
    Except Fault (Bytes × SortedMap Bytes Bytes) :=
  if line.head? = some 35 ∨ line.length = 0 then .ok state
  else
    match find line [91] 0, find line [93] 0 with
    | some pos, some pos2 =>
        if pos < pos2 then do
          let field ← substrTo line (pos + 1) (some pos2)
          .ok (field, state.2)
        else readEntry state.1 state.2 line
    | _, _ => readEntry state.1 state.2 line

def OpenIniFile (disk : Bytes → Option Bytes) (ini : CIniFile) (path : Bytes) :
    Except Fault (CIniFile × Bool) :=
  match disk (path.takeWhile (· ≠ 0)) with
  | none => .ok (ini, false)
  | some content => do
      let state ← (getlines content).foldlM readLine ([], ini.m_kv)
      .ok (⟨state.2⟩, true)

def GetFiledValue (ini : CIniFile) (field key : Bytes) : Option Bytes :=
  ini.m_kv.find (joined field key)

def GetFiledString (ini : CIniFile) (field key deflt : Bytes) : Bytes :=
  (ini.GetFiledValue field key).getD deflt

def GetFiledInt (ini : CIniFile) (field key : Bytes) (deflt : Int) : Int :=
  match ini.GetFiledValue field key with
  | none => deflt
  | some s => atoi s

def GetFiledBool (ini : CIniFile) (field key : Bytes) (deflt : Bool) : Bool :=
  match ini.GetFiledValue field key with
  | none => deflt
  | some s => atoi s ≠ 0

/-! ## The lines of a file -/

/-- Neither a bracket nor a line end. -/
structure Plain (s : Bytes) : Prop where
  noOpen : 91 ∉ s
  noClose : 93 ∉ s
  oneLine : 10 ∉ s

/-- `[f]` or `k=v`. -/
inductive Line where
  | header (field : Bytes) (h : Plain field)
  | entry (key value : Bytes) (hkey : Plain key) (hequals : 61 ∉ key)
      (hcomment : key.head? ≠ some 35) (hvalue : Plain value)

def Line.text : Line → Bytes
  | header field _ => 91 :: (field ++ [93])
  | entry key value .. => key ++ 61 :: value

/-- The file, with a line end behind every line. -/
def fileText (lines : List Line) : Bytes := lines.flatMap fun l => l.text ++ [10]

/-- A key in a section, with its value. -/
structure Entry where
  field : Bytes
  key : Bytes
  value : Bytes
deriving DecidableEq

/-- The entries of a file in order, each in the section of the last header in front of it;
`field` is the section in the beginning. -/
def entriesFrom (field : Bytes) : List Line → List Entry
  | [] => []
  | .header field' _ :: lines => entriesFrom field' lines
  | .entry key value .. :: lines => ⟨field, key, value⟩ :: entriesFrom field lines

def entries (lines : List Line) : List Entry := entriesFrom [] lines

/-- What a lookup should find: the value of the last line of this key in this section. -/
def lastValue (es : List Entry) (field key : Bytes) : Option Bytes :=
  (es.reverse.find? fun e => e.field = field ∧ e.key = key).map Entry.value

/-! ## Reading the lines -/

theorem getlinesFrom_append {a : Bytes} (h : 10 ∉ a) (line s : Bytes) :
    getlinesFrom line (a ++ 10 :: s) = (line ++ a) :: getlinesFrom [] s := by
  induction a generalizing line with
  | nil => rw [List.nil_append, getlinesFrom, if_pos rfl, List.append_nil]
  | cons c a ih =>
      have hc : c ≠ 10 := fun he => h (he ▸ List.mem_cons_self)
      have ha : 10 ∉ a := fun hm => h (List.mem_cons_of_mem _ hm)
      rw [List.cons_append, getlinesFrom, if_neg hc, ih ha, List.append_assoc, List.singleton_append]

theorem getlinesFrom_last {a : Bytes} (h : 10 ∉ a) (line : Bytes) :
    getlinesFrom line a = if line ++ a = [] then [] else [line ++ a] := by
  induction a generalizing line with
  | nil => rw [getlinesFrom, List.append_nil]
  | cons c a ih =>
      have hc : c ≠ 10 := fun he => h (he ▸ List.mem_cons_self)
      have ha : 10 ∉ a := fun hm => h (List.mem_cons_of_mem _ hm)
      rw [getlinesFrom, if_neg hc, ih ha, List.append_assoc, List.singleton_append]

theorem Line.oneLine (l : Line) : 10 ∉ l.text := by
  cases l with
  | header field h => simp [text, h.oneLine]
  | entry key value hkey _ _ hvalue => simp [text, hkey.oneLine, hvalue.oneLine]

theorem Line.text_ne_nil (l : Line) : l.text ≠ [] := by
  cases l <;> simp [text]

theorem getlines_append {texts : List Bytes} (h : ∀ t ∈ texts, 10 ∉ t) (s : Bytes) :
    getlines (texts.flatMap (· ++ [10]) ++ s) = texts ++ getlines s := by
  induction texts with
  | nil => rfl
  | cons t texts ih =>
      have hrest := ih fun t' ht' => h t' (List.mem_cons_of_mem _ ht')
      rw [List.flatMap_cons, List.append_assoc, List.append_assoc, List.singleton_append, getlines,
        getlinesFrom_append (h t List.mem_cons_self), List.nil_append, ← getlines, hrest,
        List.cons_append]

/-- The line end of the last line may be missing. -/
theorem getlines_joined {texts : List Bytes} {content : Bytes} (h : ∀ t ∈ texts, 10 ∉ t ∧ t ≠ [])
    (hcontent : content = texts.flatMap (· ++ [10]) ∨
      content = (texts.flatMap (· ++ [10])).dropLast) :
    getlines content = texts := by
  cases hcontent with
  | inl hcontent =>
      have hwhole := getlines_append (fun t ht => (h t ht).1) []
      rw [List.append_nil] at hwhole
      rw [hcontent, hwhole]
      exact List.append_nil _
  | inr hcontent =>
      cases texts using List.reverseRecOn with
      | nil => rw [hcontent]; rfl
      | append_singleton texts t =>
          have hcut : ((texts ++ [t]).flatMap (· ++ [10])).dropLast =
              texts.flatMap (· ++ [10]) ++ t := by
            rw [List.flatMap_append, List.flatMap_singleton, ← List.append_assoc,
              List.dropLast_concat]
          have ht := h t (List.mem_append_right _ List.mem_cons_self)
          have hlines : ∀ t' ∈ texts, 10 ∉ t' := fun t' ht' => (h t' (List.mem_append_left _ ht')).1
          rw [hcontent, hcut, getlines_append hlines, getlines, getlinesFrom_last ht.1,
            List.nil_append, if_neg ht.2]

theorem getlines_fileText {lines : List Line} {content : Bytes}
    (h : content = fileText lines ∨ content = (fileText lines).dropLast) :
    getlines content = lines.map Line.text := by
  have htexts : fileText lines = (lines.map Line.text).flatMap (· ++ [10]) := by
    rw [fileText, List.flatMap_map]
  rw [htexts] at h
  apply getlines_joined _ h
  intro t ht
  rcases List.mem_map.mp ht with ⟨l, -, rfl⟩
  exact ⟨l.oneLine, l.text_ne_nil⟩

/-- A header changes the section. -/
theorem readLine_header {field' : Bytes} (h : Plain field') (field : Bytes)
    (m_kv : SortedMap Bytes Bytes) :
    readLine (field, m_kv) (Line.text (.header field' h)) = .ok (field', m_kv) := by
  have hopen : find (91 :: (field' ++ [93])) [91] 0 = some 0 :=
    find_zero (b := []) (c := field' ++ [93]) (by simp)
  have hclose : find (91 :: (field' ++ [93])) [93] 0 = some (field'.length + 1) :=
    find_zero (b := 91 :: field') (c := []) (by simp [h.noClose])
  have hcut : substrTo (91 :: (field' ++ [93])) 1 (some (1 + field'.length)) = .ok field' :=
    substrTo_append [91] field' [93]
  rw [Nat.add_comm] at hcut
  rw [Line.text, readLine, if_neg (by simp), hopen, hclose]
  dsimp only
  rw [if_pos (Nat.succ_pos _)]
  simp only [bind, Except.bind, hcut]

/-- An entry sets the joined key. -/
theorem readLine_entry {key value : Bytes} (hkey : Plain key) (hequals : 61 ∉ key)
    (hcomment : key.head? ≠ some 35) (hvalue : Plain value) (field : Bytes)
    (m_kv : SortedMap Bytes Bytes) :
    readLine (field, m_kv) (Line.text (.entry key value hkey hequals hcomment hvalue)) =
      .ok (field, m_kv.set (joined field key) value) := by
  have hno : ∀ c : UInt8, c ≠ 61 → c ∉ key → c ∉ value → find (key ++ 61 :: value) [c] 0 = none := by
    intro c hc hk hv
    apply find_of_not_mem (a := [])
    simp [hc, hk, hv]
  have hopen := hno 91 (by decide) hkey.noOpen hvalue.noOpen
  have hequal : find (key ++ 61 :: value) [61] 0 = some key.length :=
    find_zero (c := value) hequals
  have hfirst : ¬ ((key ++ 61 :: value).head? = some 35 ∨ (key ++ 61 :: value).length = 0) := by
    cases key with
    | nil => simp
    | cons c key => simpa using hcomment
  have hname : substrTo (key ++ 61 :: value) 0 (some key.length) = .ok key := substrTo_zero _ _
  have hrest : substr (key ++ 61 :: value) (posAdd (some key.length) 1) = .ok value := by
    have happend := substr_append (key ++ [61]) value
    rwa [List.append_assoc, List.singleton_append, List.length_append] at happend
  rw [Line.text, readLine, if_neg hfirst, hopen]
  dsimp only
  rw [readEntry, hequal]
  simp only [bind, Except.bind, hname, hrest]

theorem readLines (lines : List Line) (field : Bytes) (m_kv : SortedMap Bytes Bytes) :
    ∃ field', (lines.map Line.text).foldlM readLine (field, m_kv) =
      .ok (field', ((entriesFrom field lines).map fun e => (joined e.field e.key, e.value)).foldl
        (fun m p => m.set p.1 p.2) m_kv) := by
  induction lines generalizing field m_kv with
  | nil => exact ⟨field, rfl⟩
  | cons l lines ih =>
      cases l with
      | header field' h =>
          rw [List.map_cons, List.foldlM_cons, readLine_header]
          exact ih field' m_kv
      | entry key value hkey hequals hcomment hvalue =>
          rw [List.map_cons, List.foldlM_cons, readLine_entry]
          exact ih field _

/-- A lookup finds the last entry whose section and key are joined to the same text. -/
theorem GetFiledValue_OpenIniFile {disk : Bytes → Option Bytes} {path content : Bytes}
    {lines : List Line} (hdisk : disk (path.takeWhile (· ≠ 0)) = some content)
    (hcontent : content = fileText lines ∨ content = (fileText lines).dropLast) :
    ∃ ini, OpenIniFile disk ⟨.empty⟩ path = .ok (ini, true) ∧ ∀ field key,
      ini.GetFiledValue field key =
        ((entries lines).reverse.find? fun e => joined e.field e.key = joined field key).map
          Entry.value := by
  cases readLines lines [] .empty with
  | intro field' hrun =>
      constructor
      constructor
      · rw [OpenIniFile, hdisk]
        dsimp only
        rw [getlines_fileText hcontent, hrun]
        rfl
      · intro field key
        rw [GetFiledValue, SortedMap.find_foldl_set, ← List.map_reverse, List.find?_map,
          Option.map_map, ← entries, show SortedMap.empty.find (joined field key) = none from rfl,
          Option.or_none]
        apply congrArg (Option.map Entry.value)
        congr 1
        funext e
        exact decide_eq_decide.mpr Iff.rfl

/-! ## Joined keys -/

/-- An entry for another key in another section that is joined to the same text: one of the
two sections goes on with a `-` and the begin of the other key. -/
def Disturbs (e : Entry) (field key : Bytes) : Prop :=
  ∃ w, (e.field = field ++ 45 :: w ∧ key = w ++ 45 :: e.key) ∨
    (field = e.field ++ 45 :: w ∧ e.key = w ++ 45 :: key)

theorem joined_eq_iff (e : Entry) (field key : Bytes) :
    joined e.field e.key = joined field key ↔
      (e.field = field ∧ e.key = key) ∨ Disturbs e field key := by
  simp only [joined, List.append_assoc, List.singleton_append]
  constructor
  · intro h
    have hside : ∀ {f f' k k' a : Bytes}, f' = f ++ a → 45 :: k = a ++ 45 :: k' →
        (f = f' ∧ k = k') ∨ ∃ w, f' = f ++ 45 :: w ∧ k = w ++ 45 :: k' := by
      intro f f' k k' a hf hk
      cases a with
      | nil => exact .inl ⟨by rw [hf, List.append_nil], (List.cons.inj hk).2⟩
      | cons c a => exact .inr ⟨a, by rw [hf, (List.cons.inj hk).1], (List.cons.inj hk).2⟩
    cases List.append_eq_append_iff.mp h with
    | inl h =>
        obtain ⟨a, hf, hk⟩ := h
        cases hside hf hk with
        | inl hsame => exact .inl hsame
        | inr hw => exact .inr (hw.imp fun w hw => .inr hw)
    | inr h =>
        obtain ⟨a, hf, hk⟩ := h
        cases hside hf hk with
        | inl hsame => exact .inl ⟨hsame.1.symm, hsame.2.symm⟩
        | inr hw => exact .inr (hw.imp fun w hw => .inl hw)
  · intro h
    cases h with
    | inl hsame => rw [hsame.1, hsame.2]
    | inr hw =>
        obtain ⟨w, h⟩ := hw
        cases h with
        | inl h => rw [h.1, h.2, List.append_assoc, List.cons_append]
        | inr h => rw [h.1, h.2, List.append_assoc, List.cons_append]

theorem Disturbs.other {e : Entry} {field key : Bytes} (h : Disturbs e field key) :
    ¬ (e.field = field ∧ e.key = key) := by
  intro hsame
  obtain ⟨w, h⟩ := h
  have hlen : e.field.length = field.length := congrArg List.length hsame.1
  cases h with
  | inl h =>
      rw [h.1, List.length_append, List.length_cons] at hlen
      omega
  | inr h =>
      rw [h.1, List.length_append, List.length_cons] at hlen
      omega

section LastLine

variable {es before after : List Entry} {e : Entry} {field key : Bytes}

theorem find_last {p : Entry → Bool} (h : es = before ++ e :: after)
    (hafter : ∀ e' ∈ after, ¬ p e') :
    es.reverse.find? p = if p e then some e else before.reverse.find? p := by
  have hnone : after.reverse.find? p = none := by
    rw [List.find?_eq_none]
    intro e' he'
    exact hafter e' (List.mem_reverse.mp he')
  rw [h, List.reverse_append, List.reverse_cons, List.append_assoc, List.find?_append, hnone,
    Option.none_or, List.singleton_append, List.find?_cons]
  cases p e <;> rfl

/-- When the last of the lines that are joined to the text of this key belongs to another key,
it has the value of the last line of this one. -/
def Undisturbed (es : List Entry) (field key : Bytes) : Prop :=
  ∀ before e after, es = before ++ e :: after → Disturbs e field key →
    (∀ e' ∈ after, ¬ (e'.field = field ∧ e'.key = key) ∧ ¬ Disturbs e' field key) →
    lastValue before field key = some e.value

theorem joined_eq_lastValue_iff :
    (es.reverse.find? fun e => joined e.field e.key = joined field key).map Entry.value =
        lastValue es field key ↔ Undisturbed es field key := by
  have hskip : ∀ before e after, es = before ++ e :: after → Disturbs e field key →
      (∀ e' ∈ after, ¬ (e'.field = field ∧ e'.key = key)) →
      lastValue es field key = lastValue before field key := by
    intro before e after hes hdisturbs hafter
    rw [lastValue, find_last hes (by simpa using hafter), if_neg (by simpa using hdisturbs.other),
      ← lastValue]
  constructor
  · intro heq before e after hes hdisturbs hafter
    have hjoined : ∀ e' ∈ after, ¬ joined e'.field e'.key = joined field key := by
      intro e' he' hj
      cases (joined_eq_iff e' field key).mp hj with
      | inl hsame => exact (hafter e' he').1 hsame
      | inr hdisturbs' => exact (hafter e' he').2 hdisturbs'
    rw [find_last hes (by simpa using hjoined),
      if_pos (by simpa using (joined_eq_iff e field key).mpr (.inr hdisturbs)),
      hskip before e after hes hdisturbs fun e' he' => (hafter e' he').1] at heq
    exact heq.symm
  · intro hundisturbed
    cases hfind : es.reverse.find? fun e => joined e.field e.key = joined field key with
    | none =>
        have hnone : lastValue es field key = none := by
          rw [lastValue, Option.map_eq_none_iff, List.find?_eq_none]
          intro e he hsame
          rw [List.find?_eq_none] at hfind
          apply hfind e he
          rw [decide_eq_true_eq] at hsame ⊢
          exact (joined_eq_iff e field key).mpr (.inl hsame)
        rw [hnone]
        rfl
    | some e =>
        obtain ⟨hj, as, bs, hsplit, has⟩ := List.find?_eq_some_iff_append.mp hfind
        have hes : es = bs.reverse ++ e :: as.reverse := by
          rw [← List.reverse_reverse es, hsplit]
          simp
        have hafter : ∀ e' ∈ as.reverse, ¬ (e'.field = field ∧ e'.key = key) ∧
            ¬ Disturbs e' field key := by
          intro e' he'
          have hno := has e' (List.mem_reverse.mp he')
          simpa [joined_eq_iff] using hno
        cases (joined_eq_iff e field key).mp (by simpa using hj) with
        | inl hsame =>
            rw [lastValue, find_last hes (by simpa using fun e' he' =>
              (hafter e' (List.mem_reverse.mpr he')).1), if_pos (by simpa using hsame)]
        | inr hdisturbs =>
            rw [hskip _ _ _ hes hdisturbs fun e' he' => (hafter e' he').1,
              hundisturbed _ _ _ hes hdisturbs hafter]
            rfl

end LastLine

/-- After a file has been opened, a lookup finds what it should exactly when no line for another
key disturbs it. -/
theorem GetFiledValue_iff {disk : Bytes → Option Bytes} {path content : Bytes}
    {lines : List Line} (hdisk : disk (path.takeWhile (· ≠ 0)) = some content)
    (hcontent : content = fileText lines ∨ content = (fileText lines).dropLast) :
    ∃ ini, OpenIniFile disk ⟨.empty⟩ path = .ok (ini, true) ∧ ∀ field key,
      (ini.GetFiledValue field key = lastValue (entries lines) field key ↔
        Undisturbed (entries lines) field key) := by
  cases GetFiledValue_OpenIniFile hdisk hcontent with
  | intro ini h =>
      exists ini
      constructor
      · exact h.1
      · intro field key
        rw [h.2]
        exact joined_eq_lastValue_iff

/-- A section and a key that are joined as another section and key are. -/
def dashed : List Line :=
  [.header [97] (by constructor <;> decide),
   .entry [98, 45, 99] [49] (by constructor <;> decide) (by decide) (by decide)
    (by constructor <;> decide)]

theorem GetFiledValue_iff_dashed :
    ∃ ini, OpenIniFile (fun _ => some (fileText dashed)) ⟨.empty⟩ [105] = .ok (ini, true) ∧
      ∀ field key, (ini.GetFiledValue field key = lastValue (entries dashed) field key ↔
        Undisturbed (entries dashed) field key) :=
  @GetFiledValue_iff (fun _ => some (fileText dashed)) [105] _ dashed rfl (.inl rfl)

/-- `b-c=1` in section `a` is found as the key `c` of the section `a-b`. -/
theorem finds_other_section :
    ¬ ∀ (disk : Bytes → Option Bytes) (path content : Bytes) (lines : List Line),
      disk (path.takeWhile (· ≠ 0)) = some content →
      (content = fileText lines ∨ content = (fileText lines).dropLast) →
      ∃ ini, OpenIniFile disk ⟨.empty⟩ path = .ok (ini, true) ∧ ∀ field key,
        ini.GetFiledValue field key = lastValue (entries lines) field key := by
  intro hall
  cases hall (fun _ => some (fileText dashed)) [105] (fileText dashed) dashed rfl (.inl rfl) with
  | intro ini h =>
      have hopen : OpenIniFile (fun _ => some (fileText dashed)) ⟨.empty⟩ [105] =
          .ok (⟨⟨[([97, 45, 98, 45, 99], [49])], List.pairwise_singleton _ _⟩⟩, true) := rfl
      rw [hopen] at h
      cases h.1
      exact absurd (h.2 [97, 45, 98] [99]) (by decide)

end CIniFile

end CommonCc
