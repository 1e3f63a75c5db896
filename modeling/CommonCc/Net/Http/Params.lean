import CommonCc.Lib.Transition
import CommonCc.Lib.Words
import CommonCc.Net.Http.Pieces

/-!
# The parameters of a request
-/

namespace CommonCc

open Http

namespace CHttpRequest

/-- `key=value` without the characters that end it. -/
structure PlainParam (p : Bytes × Bytes) : Prop where
  equals : 61 ∉ p.1
  ampersand : 38 ∉ p.1 ∧ 38 ∉ p.2
  blank : 32 ∉ p.1 ∧ 32 ∉ p.2
  key : OneLine p.1
  value : OneLine p.2

def paramText (p : Bytes × Bytes) : Bytes := p.1 ++ ascii ['='] ++ p.2

/-- `k1=v1&...&kn=vn`. -/
def query (pairs : List (Bytes × Bytes)) : Bytes := (ascii ['&']).intercalate (pairs.map paramText)

theorem paramEntry_text {p : Bytes × Bytes} (h : 61 ∉ p.1) : paramEntry (paramText p) = some p := by
  have hfind : find (paramText p) (ascii ['=']) 0 = some p.1.length := by
    rw [paramText, List.append_assoc]
    exact find_zero h
  have hkey : (paramText p).take p.1.length = p.1 := by
    rw [paramText, List.append_assoc, List.take_left]
  have hvalue : (paramText p).drop (p.1.length + 1) = p.2 := by
    have hlen : p.1.length + 1 = (p.1 ++ ascii ['=']).length := by
      rw [List.length_append]
      rfl
    rw [paramText, hlen, List.drop_left]
  rw [paramEntry, hfind, Option.map_some, hkey, hvalue]

/-- The pairs of a query come back in order. -/
theorem foldl_query {pairs : List (Bytes × Bytes)} (h : ∀ p ∈ pairs, PlainParam p)
    (m : SortedMap Bytes Bytes) :
    ((cut (ascii ['&']) (query pairs)).map paramEntry).foldl store m =
      pairs.foldl (fun m p => m.set p.1 p.2) m := by
  by_cases hne : pairs = []
  · subst hne
    have hcut : cut (ascii ['&']) (query []) = [[]] := cut_of_none rfl
    rw [hcut]
    rfl
  · have hpieces : cut (ascii ['&']) (query pairs) = pairs.map paramText := by
      apply cut_intercalate (by simpa using hne)
      intro t ht
      rcases List.mem_map.mp ht with ⟨p, hp, rfl⟩
      have hplain := (h p hp).ampersand
      simp [paramText, ascii, hplain]
    have hentries : (pairs.map paramText).map paramEntry = pairs.map some := by
      rw [List.map_map]
      exact List.map_congr_left fun p hp => paramEntry_text (h p hp).equals
    rw [hpieces, hentries, List.foldl_map]
    rfl

theorem mem_query {pairs : List (Bytes × Bytes)} {c : UInt8} (h : c ∈ query pairs) :
    c = 38 ∨ c = 61 ∨ ∃ p ∈ pairs, c ∈ p.1 ∨ c ∈ p.2 := by
  cases mem_intercalate h with
  | inl hsep => exact .inl hsep
  | inr hpiece =>
      rcases hpiece with ⟨t, ht, hc⟩
      rcases List.mem_map.mp ht with ⟨p, hp, rfl⟩
      rw [paramText, List.mem_append, List.mem_append] at hc
      rcases hc with (hkey | heq) | hvalue
      · exact .inr (.inr ⟨p, hp, .inl hkey⟩)
      · exact .inr (.inl (List.mem_singleton.mp heq))
      · exact .inr (.inr ⟨p, hp, .inr hvalue⟩)

/-- A path and a query. -/
def target (path : Bytes) (pairs : List (Bytes × Bytes)) : Bytes :=
  path ++ ascii ['?'] ++ query pairs

section Target

variable {path : Bytes} {pairs : List (Bytes × Bytes)}

theorem notMem_target {c : UInt8} (hpath : c ∉ path) (hmark : c ≠ 63) (hequals : c ≠ 61)
    (hampersand : c ≠ 38) (h : ∀ p ∈ pairs, c ∉ p.1 ∧ c ∉ p.2) : c ∉ target path pairs := by
  intro hc
  rw [target, List.mem_append, List.mem_append] at hc
  rcases hc with (hc | hc) | hc
  · exact hpath hc
  · exact hmark (List.mem_singleton.mp hc)
  · rcases mem_query hc with hc | hc | ⟨p, hp, hc⟩
    · exact hampersand hc
    · exact hequals hc
    · exact hc.elim (h p hp).1 (h p hp).2

theorem find_mark (h : 63 ∉ path) : find (target path pairs) (ascii ['?']) 0 = some path.length := by
  rw [target, List.append_assoc]
  exact find_zero h

theorem targetUri_target (h : 63 ∉ path) : targetUri (target path pairs) = path := by
  rw [targetUri, find_mark h]
  dsimp only
  rw [target, List.append_assoc, List.take_left]

theorem targetParams_target (h : 63 ∉ path) :
    targetParams (target path pairs) = (cut (ascii ['&']) (query pairs)).map paramEntry := by
  have hlen : path.length + 1 = (path ++ ascii ['?']).length := by
    rw [List.length_append]
    rfl
  rw [targetParams, find_mark h]
  dsimp only
  rw [hlen, target, List.drop_left]

end Target

/-- The method, the path and the parameters of the first line are what `Parse` leaves, when it does
not throw. -/
theorem Parse_params {method path version rest : Bytes} {pairs : List (Bytes × Bytes)}
    {r r' : CHttpRequest} (hmethod : OneLine method ∧ 32 ∉ method)
    (hpath : OneLine path ∧ 32 ∉ path ∧ 63 ∉ path) (hpairs : ∀ p ∈ pairs, PlainParam p)
    (hversion : OneLine version)
    (hparse : r.Parse (words method (target path pairs) version ++ CRLF ++ rest) = .ok r') :
    r'.m_method = method ∧ r'.m_uri = path ∧
      r'.m_params = pairs.foldl (fun m p => m.set p.1 p.2) .empty ∧
      ∀ k, r'.m_params.find k = (pairs.reverse.find? fun p => p.1 = k).map Prod.snd := by
  have hblank : 32 ∉ target path pairs := notMem_target hpath.2.1 (by decide) (by decide) (by decide)
    fun p hp => (hpairs p hp).blank
  have hline : OneLine (target path pairs) :=
    ⟨notMem_target hpath.1.1 (by decide) (by decide) (by decide)
      fun p hp => ⟨(hpairs p hp).key.1, (hpairs p hp).value.1⟩,
    notMem_target hpath.1.2 (by decide) (by decide) (by decide)
      fun p hp => ⟨(hpairs p hp).key.2, (hpairs p hp).value.2⟩⟩
  have hstart := words_oneLine hmethod.1 hline hversion
  have hread := ParseStartLine_two version hmethod.2 hblank
    { r with m_header := .empty, m_params := .empty }
  have htake : (words method (target path pairs) version ++ CRLF ++ rest).take
      (words method (target path pairs) version).length = words method (target path pairs) version := by
    rw [List.append_assoc, List.take_left]
  rw [← htake] at hread
  rw [Parse_eq (startLineEnd_append hstart rest) hread, ParseHeader_eq] at hparse
  rcases map_eq_ok.mp hparse with ⟨es, -, rfl⟩
  have hparams : (targetParams (target path pairs)).foldl store .empty =
      pairs.foldl (fun m p => m.set p.1 p.2) .empty := by
    rw [targetParams_target hpath.2.2, foldl_query hpairs]
  refine ⟨rfl, targetUri_target hpath.2.2, hparams, fun k => ?_⟩
  show ((targetParams (target path pairs)).foldl store .empty).find k = _
  rw [hparams, SortedMap.find_foldl_set, show SortedMap.empty.find k = none from rfl, Option.or_none]
  congr 2
  funext p
  exact decide_eq_decide.mpr Iff.rfl

/-- `GET /?a=1&=x=?&a= 1` and an empty line. -/
theorem Parse_params_get :
    ∃ r', new.Parse (words (ascii ['G', 'E', 'T']) (target (ascii ['/'])
        [(ascii ['a'], ascii ['1']), ([], ascii ['x', '=', '?']), (ascii ['a'], [])]) (ascii ['1']) ++
          CRLF ++ CRLF) = .ok r' ∧
      r'.m_method = ascii ['G', 'E', 'T'] ∧ r'.m_uri = ascii ['/'] ∧
      r'.m_params.find (ascii ['a']) = some [] ∧
      r'.m_params.find [] = some (ascii ['x', '=', '?']) := by
  have hok : (new.Parse (words (ascii ['G', 'E', 'T']) (target (ascii ['/'])
      [(ascii ['a'], ascii ['1']), ([], ascii ['x', '=', '?']), (ascii ['a'], [])]) (ascii ['1']) ++
        CRLF ++ CRLF)).toOption.isSome = true := by decide +kernel
  rcases Option.isSome_iff_exists.mp hok with ⟨r', hr'⟩
  have hpairs : ∀ p ∈ [(ascii ['a'], ascii ['1']), ([], ascii ['x', '=', '?']), (ascii ['a'], [])],
      PlainParam p := by
    intro p hp
    simp only [List.mem_cons, List.not_mem_nil, or_false] at hp
    rcases hp with rfl | rfl | rfl <;>
      exact ⟨by decide, by decide, by decide, ⟨by decide, by decide⟩, ⟨by decide, by decide⟩⟩
  rcases Parse_params ⟨⟨by decide, by decide⟩, by decide⟩ ⟨⟨by decide, by decide⟩, by decide⟩ hpairs
    ⟨by decide, by decide⟩ (ok_of_toOption hr') with ⟨hmethod, huri, -, hfind⟩
  refine ⟨r', ok_of_toOption hr', hmethod, huri, ?_, ?_⟩
  · rw [hfind]
    decide
  · rw [hfind]
    decide

end CHttpRequest

end CommonCc
