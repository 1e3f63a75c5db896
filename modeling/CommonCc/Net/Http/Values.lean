import CommonCc.Net.Http.Throws

/-!
# The values of header lines

A blank is passed over behind the colon, and nothing else.
-/

namespace CommonCc

namespace Http

/-- The parts of a header line with any number of blanks before its value. -/
structure HeaderField where
  key : Bytes
  blanks : Nat
  value : Bytes
  hkey : OneLine key ∧ 58 ∉ key
  hvalue : OneLine value ∧ value.head? ≠ some 32

namespace HeaderField

def text (f : HeaderField) : Bytes := f.key ++ (COLON ++ (List.replicate f.blanks 32 ++ f.value))

/-- What is stored as the value. -/
def stored (f : HeaderField) : Bytes := (List.replicate f.blanks 32 ++ f.value).drop 1

theorem find_colon (f : HeaderField) : find f.text COLON 0 = some f.key.length := find_zero f.hkey.2

theorem oneLine (f : HeaderField) : OneLine f.text := by
  have hkey := f.hkey.1
  have hvalue := f.hvalue.1
  unfold OneLine at hkey hvalue ⊢
  simp [text, COLON, hkey, hvalue]

theorem colonFollowed_iff (f : HeaderField) :
    ColonFollowed f.text ↔ 1 ≤ f.blanks + f.value.length := by
  have hlen : f.text.length = f.key.length + 1 + (f.blanks + f.value.length) := by
    simp [text, COLON]
    omega
  unfold ColonFollowed
  rw [hlen]
  constructor
  · intro h
    have hfit := h f.key.length f.find_colon
    omega
  · intro h p hp
    rw [f.find_colon] at hp
    cases hp
    omega

theorem lineEntry_text {f : HeaderField} (h : ColonFollowed f.text) :
    lineEntry f.text = .ok (some (f.key, f.stored)) := by
  have hkey : f.text.take f.key.length = f.key := by rw [text, List.take_left]
  have hstored : f.text.drop (f.key.length + 2) = f.stored := by
    rw [text, List.drop_length_add_append, COLON, List.singleton_append, List.drop_succ_cons, stored]
  rw [lineEntry, f.find_colon]
  dsimp only
  rw [if_pos (h _ f.find_colon), hkey, hstored]

/-- What is stored is the value when there is one blank, and only then. -/
theorem stored_eq_iff (f : HeaderField) :
    (1 ≤ f.blanks + f.value.length ∧ f.stored = f.value) ↔ f.blanks = 1 := by
  constructor
  · intro h
    have hlen := congrArg List.length h.2
    rw [stored, List.length_drop, List.length_append, List.length_replicate] at hlen
    omega
  · intro h
    refine ⟨by omega, ?_⟩
    rw [stored, h]
    rfl

end HeaderField

/-- Header lines joined by line ends. -/
def joinedLines (fields : List HeaderField) : Bytes := CRLF.intercalate (fields.map HeaderField.text)

/-- Lines that are joined are cut apart again. -/
theorem headerLines_intercalate {lines : List Bytes} (hne : lines ≠ []) (h : ∀ l ∈ lines, OneLine l) :
    headerLines (CRLF.intercalate lines) = lines := by
  have hcut : cut CRLF (CRLF.intercalate lines) = lines := cut_intercalate hne fun l hl => (h l hl).1
  cases lines with
  | nil => exact absurd rfl hne
  | cons l lines =>
      cases lines with
      | nil =>
          have hline := h l List.mem_cons_self
          have hnone : find l CRLF 0 = none := find_of_not_mem (a := []) hline.1
          rw [List.intercalate_singleton, headerLines, separator, hnone]
          exact cut_of_none (search_eq_none_of_not_mem hline.2)
      | cons l' lines =>
          have hfound : find (CRLF.intercalate (l :: l' :: lines)) CRLF 0 = some l.length := by
            rw [List.intercalate_cons_cons, List.append_assoc]
            exact find_zero (h l List.mem_cons_self).1
          rw [headerLines, separator, hfound]
          exact hcut

section Stores

variable {fields : List HeaderField} {entry : Bytes → Except Fault (Option (Bytes × Bytes))}

/-- The keys of the lines have these values after the parse. -/
def StoresAll (parsed : Except Fault HttpHeader) (fields : List HeaderField) : Prop :=
  ∃ m, parsed = .ok m ∧ ∀ f ∈ fields, m.find f.key = some f.value

/-- Of lines with different keys each one stores its value. -/
theorem find_stored (hkeys : (fields.map HeaderField.key).Nodup) {f : HeaderField} (hf : f ∈ fields)
    (m : HttpHeader) :
    ((fields.map fun f => some (f.key, f.stored)).foldl store m).find f.key = some f.stored := by
  have hfold : (fields.map fun f => some (f.key, f.stored)).foldl store m =
      (fields.map fun f => (f.key, f.stored)).foldl (fun m p => m.set p.1 p.2) m := by
    rw [List.foldl_map, List.foldl_map]
    rfl
  have hnodup : ((fields.map fun f => (f.key, f.stored)).map Prod.fst).Nodup := by
    rw [List.map_map]
    exact hkeys
  rw [hfold]
  exact SortedMap.find_foldl_set_of_mem hnodup (List.mem_map_of_mem hf) m

theorem storesAll_iff (hne : fields ≠ []) (hkeys : (fields.map HeaderField.key).Nodup)
    (hentry : ∀ line p, find line COLON 0 = some p → entry line = lineEntry line) (m : HttpHeader) :
    StoresAll ((traverseLast lineEntry entry (headerLines (joinedLines fields))).map fun es =>
      es.foldl store m) fields ↔ ∀ f ∈ fields, f.blanks = 1 := by
  have htexts : ∀ line ∈ fields.map HeaderField.text, entry line = lineEntry line := by
    intro line hline
    rcases List.mem_map.mp hline with ⟨f, -, rfl⟩
    exact hentry _ _ f.find_colon
  have hlines : ∀ line ∈ fields.map HeaderField.text, OneLine line := by
    intro line hline
    rcases List.mem_map.mp hline with ⟨f, -, rfl⟩
    exact f.oneLine
  have hcut : headerLines (joinedLines fields) = fields.map HeaderField.text :=
    headerLines_intercalate (by simpa using hne) hlines
  have hread : (∀ f ∈ fields, ColonFollowed f.text) →
      traverseLast lineEntry lineEntry (fields.map HeaderField.text) =
        .ok (fields.map fun f => some (f.key, f.stored)) := by
    intro hall
    rw [traverseLast_map]
    exact traverseLast_eq fun f hf => HeaderField.lineEntry_text (hall f hf)
  rw [hcut, traverseLast_congr htexts]
  constructor
  · intro h f hf
    rcases h with ⟨m', hm', hvalues⟩
    rcases map_eq_ok.mp hm' with ⟨es, hes, hstore⟩
    have hall : ∀ f ∈ fields, ColonFollowed f.text := fun f hf =>
      (lineEntry_ok_iff _).mp (traverseLast_self_ok_iff.mp ⟨es, hes⟩ _ (List.mem_map_of_mem hf))
    have hvalue := hvalues f hf
    rw [hread hall] at hes
    cases hes
    rw [← hstore, find_stored hkeys hf] at hvalue
    exact f.stored_eq_iff.mp ⟨f.colonFollowed_iff.mp (hall f hf), Option.some.inj hvalue⟩
  · intro h
    have hall : ∀ f ∈ fields, ColonFollowed f.text := fun f hf =>
      f.colonFollowed_iff.mpr (f.stored_eq_iff.mpr (h f hf)).1
    rw [hread hall]
    refine ⟨_, rfl, fun f hf => ?_⟩
    rw [find_stored hkeys hf, (f.stored_eq_iff.mpr (h f hf)).2]

end Stores

/-- Both classes store every value exactly when there is one blank in front of each. -/
theorem values_whole_iff {fields : List HeaderField} (hne : fields ≠ [])
    (hkeys : (fields.map HeaderField.key).Nodup) (q : CHttpRequest) (s : CHttpResponse) :
    (StoresAll ((q.ParseHeader (joinedLines fields)).map CHttpRequest.m_header) fields ∧
      StoresAll ((s.ParseHeader (joinedLines fields)).map CHttpResponse.m_header) fields) ↔
      ∀ f ∈ fields, f.blanks = 1 := by
  have hrequest : (q.ParseHeader (joinedLines fields)).map CHttpRequest.m_header =
      (traverseLast lineEntry lineEntry (headerLines (joinedLines fields))).map fun es =>
        es.foldl store q.m_header := by
    rw [CHttpRequest.ParseHeader_eq]
    cases traverseLast lineEntry lineEntry (headerLines (joinedLines fields)) <;> rfl
  have hresponse : (s.ParseHeader (joinedLines fields)).map CHttpResponse.m_header =
      (traverseLast lineEntry lastLineEntry (headerLines (joinedLines fields))).map fun es =>
        es.foldl store s.m_header := by
    rw [CHttpResponse.ParseHeader_eq]
    cases traverseLast lineEntry lastLineEntry (headerLines (joinedLines fields)) <;> rfl
  rw [hrequest, hresponse, storesAll_iff hne hkeys (fun _ _ _ => rfl),
    storesAll_iff hne hkeys fun _ _ => lastLineEntry_eq, and_self_iff]

/-- `A: b` and `C:d`. -/
def twoFields : List HeaderField :=
  [⟨ascii ['A'], 1, ascii ['b'], ⟨⟨by decide, by decide⟩, by decide⟩,
      ⟨⟨by decide, by decide⟩, by decide⟩⟩,
    ⟨ascii ['C'], 0, ascii ['d'], ⟨⟨by decide, by decide⟩, by decide⟩,
      ⟨⟨by decide, by decide⟩, by decide⟩⟩]

theorem values_whole_iff_two :
    (StoresAll ((CHttpRequest.new.ParseHeader (joinedLines twoFields)).map CHttpRequest.m_header)
      twoFields ∧
    StoresAll ((CHttpResponse.new.ParseHeader (joinedLines twoFields)).map CHttpResponse.m_header)
      twoFields) ↔ ∀ f ∈ twoFields, f.blanks = 1 :=
  values_whole_iff (by decide) (by decide) .new .new

/-- The value `d` is lost. -/
theorem value_cut :
    ((CHttpRequest.new.ParseHeader (joinedLines twoFields)).map fun r =>
      r.m_header.find (ascii ['C'])).toOption = some (some []) ∧
    ¬ (StoresAll ((CHttpRequest.new.ParseHeader (joinedLines twoFields)).map CHttpRequest.m_header)
        twoFields ∧
      StoresAll ((CHttpResponse.new.ParseHeader (joinedLines twoFields)).map CHttpResponse.m_header)
        twoFields) := by
  have hfind : ((CHttpRequest.new.ParseHeader (joinedLines twoFields)).map fun r =>
      r.m_header.find (ascii ['C'])).toOption = some (some []) := by decide +kernel
  refine ⟨hfind, fun h => ?_⟩
  rcases h.1 with ⟨m, hm, hvalues⟩
  rcases map_eq_ok.mp hm with ⟨r, hr, rfl⟩
  have hvalue : r.m_header.find (ascii ['C']) = some (ascii ['d']) :=
    hvalues _ (List.mem_cons_of_mem _ List.mem_cons_self)
  rw [hr] at hfind
  have hcut : r.m_header.find (ascii ['C']) = some [] := Option.some.inj hfind
  rw [hcut] at hvalue
  exact absurd hvalue (by decide)

end Http

end CommonCc
