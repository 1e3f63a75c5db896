import CommonCc.Base
import CommonCc.Lib.Search
import CommonCc.Lib.SortedMap

/-!
# SQL statements

`CDatabase` writes the text of an `UPDATE` or `INSERT` from a map of columns and hands it to
the client library, which is a parameter.
-/

namespace CommonCc

/-- The client library on a handle; a string is handed over up to its first NUL. -/
structure Mysql (σ ρ : Type) where
  mysql_query : σ → Bytes → σ × Int
  mysql_error : σ → Bytes
  mysql_store_result : σ → σ × Option ρ
  mysql_field_count : σ → Nat
  mysql_affected_rows : σ → Nat

structure CDatabase (σ ρ : Type) where
  m_handle : σ
  m_result : Option ρ
  m_num_rows : Int
  m_error : Bytes
  m_last_sql : Bytes

/-- A row of a table, or the changes to one: the values of some columns. -/
abbrev Columns := SortedMap Bytes Bytes

namespace CDatabase

variable {σ ρ : Type}

def DoQuery (lib : Mysql σ ρ) (db : CDatabase σ ρ) (sql : Bytes) : CDatabase σ ρ × Bool :=
  let db := { db with m_last_sql := sql }
  let queried := lib.mysql_query db.m_handle (sql.takeWhile (· ≠ 0))
  let db := { db with m_handle := queried.1 }
  if queried.2 ≠ 0 then ({ db with m_error := lib.mysql_error db.m_handle }, false)
  else
    let stored := lib.mysql_store_result db.m_handle
    let db := { db with m_handle := stored.1, m_result := stored.2 }
    if stored.2.isSome then (db, true)
    else if lib.mysql_field_count db.m_handle = 0 then
      ({ db with m_num_rows := toInt (lib.mysql_affected_rows db.m_handle) }, true)
    else ({ db with m_error := lib.mysql_error db.m_handle }, false)

def GetLastSql (db : CDatabase σ ρ) : Bytes := db.m_last_sql

def COMMA : Bytes := [44]

def QUOTE : Bytes := [39]

/-- The spellings that are written without quotes. -/
def isNull (value : Bytes) : Bool :=
  value = ascii ['N', 'U', 'L', 'L'] || value = ascii ['n', 'u', 'l', 'l']

/-- The loops over the map put a comma in front of every text but the first one. -/
def separated : List Bytes → Bytes
  | [] => []
  | text :: texts => text ++ texts.flatMap (COMMA ++ ·)

def valueText (value : Bytes) : Bytes :=
  if isNull value then ascii ['N', 'U', 'L', 'L'] else QUOTE ++ value ++ QUOTE

def updateSql (table : Bytes) (dat : Columns) (where_ : Bytes) : Bytes :=
  ascii ['U', 'P', 'D', 'A', 'T', 'E', ' '] ++ table ++ ascii [' ', 'S', 'E', 'T', ' '] ++
    separated (dat.pairs.map fun iter => iter.1 ++ [61] ++ valueText iter.2) ++
    if where_.length ≠ 0 then ascii [' ', 'W', 'H', 'E', 'R', 'E', ' '] ++ where_ else []

def insertSql (table : Bytes) (dat : Columns) : Bytes :=
  ascii ['I', 'N', 'S', 'E', 'R', 'T', ' ', 'I', 'N', 'T', 'O', ' '] ++ table ++ ascii [' ', '('] ++
    separated (dat.pairs.map fun iter => iter.1) ++
    ascii [')', ' ', 'V', 'A', 'L', 'U', 'E', 'S', ' ', '('] ++
    separated (dat.pairs.map fun iter => valueText iter.2) ++ ascii [')']

def Update (lib : Mysql σ ρ) (db : CDatabase σ ρ) (table : Bytes) (dat : Columns)
    (where_ : Bytes) : CDatabase σ ρ × Bool :=
  DoQuery lib db (updateSql table dat where_)

def Insert (lib : Mysql σ ρ) (db : CDatabase σ ρ) (table : Bytes) (dat : Columns) :
    CDatabase σ ρ × Bool :=
  DoQuery lib db (insertSql table dat)

/-- Whatever the library answers, the statement is kept. -/
theorem DoQuery_last_sql (lib : Mysql σ ρ) (db : CDatabase σ ρ) (sql : Bytes) :
    (DoQuery lib db sql).1.GetLastSql = sql := by
  unfold DoQuery GetLastSql
  dsimp only
  split
  · rfl
  · split
    · rfl
    · split <;> rfl

/-! ## What a statement tells of the values -/

/-- Maps of these columns with values that are `ok` have different statements. -/
def KeepsApart (sql : Columns → Bytes) (cols : List Bytes) (ok : Bytes → Prop) : Prop :=
  ∀ dat dat' : Columns, dat.pairs.map Prod.fst = cols → dat'.pairs.map Prod.fst = cols →
    (∀ iter ∈ dat.pairs, ok iter.2) → (∀ iter ∈ dat'.pairs, ok iter.2) → sql dat = sql dat' →
    dat = dat'

/-- A value that is written in quotes. -/
abbrev Quoted (value : Bytes) : Prop := isNull value = false

/-- A value that is written in quotes and has none. -/
def Quoteless (value : Bytes) : Prop := isNull value = false ∧ 39 ∉ value

section Lists

variable {l l' : List (Bytes × Bytes)} {pre : Bytes → Bytes}

/-- The values in quotes, each behind a text that depends on its column. -/
def listText (pre : Bytes → Bytes) (l : List (Bytes × Bytes)) : Bytes :=
  separated (l.map fun iter => pre iter.1 ++ (QUOTE ++ iter.2 ++ QUOTE))

theorem values_text (pre : Bytes → Bytes) (h : ∀ iter ∈ l, Quoted iter.2) :
    separated (l.map fun iter => pre iter.1 ++ valueText iter.2) = listText pre l := by
  unfold listText
  congr 1
  apply List.map_congr_left
  intro iter hiter
  rw [valueText, if_neg (by rw [h iter hiter]; decide)]

theorem listText_cons (iter : Bytes × Bytes) (l : List (Bytes × Bytes)) :
    listText pre (iter :: l) = pre iter.1 ++ 39 :: (iter.2 ++ 39 ::
      (l.map fun iter => pre iter.1 ++ (QUOTE ++ iter.2 ++ QUOTE)).flatMap (COMMA ++ ·)) := by
  simp [listText, separated, QUOTE]

/-- Values without quotes end where the next quote is. -/
theorem listText_injective (hkeys : l.map Prod.fst = l'.map Prod.fst)
    (h : ∀ iter ∈ l, 39 ∉ iter.2) (h' : ∀ iter ∈ l', 39 ∉ iter.2)
    (heq : listText pre l = listText pre l') : l = l' := by
  induction l generalizing l' with
  | nil => exact (List.map_eq_nil_iff.mp hkeys.symm).symm
  | cons iter l ih =>
      cases l' with
      | nil => cases hkeys
      | cons iter' l' =>
          have hkey := List.cons.inj hkeys
          rw [listText_cons, listText_cons, hkey.1] at heq
          have hcut := append_cons_inj_of_first (h iter List.mem_cons_self)
            (h' iter' List.mem_cons_self) (List.cons.inj (List.append_cancel_left heq)).2
          have hrest : l = l' := by
            apply ih hkey.2 (fun i hi => h i (List.mem_cons_of_mem _ hi))
              fun i hi => h' i (List.mem_cons_of_mem _ hi)
            cases l with
            | nil =>
                rw [List.map_eq_nil_iff.mp hkey.2.symm]
            | cons i l =>
                cases l' with
                | nil => cases hkey.2
                | cons i' l' => exact (List.cons.inj hcut.2).2
          rw [hrest, Prod.ext hkey.1 hcut.1]

/-- A value that looks like the next column moves the border between two columns. -/
theorem listText_collide (k k' : Bytes) (l : List (Bytes × Bytes)) (a b c : Bytes) :
    listText pre ((k, a ++ (QUOTE ++ COMMA ++ pre k' ++ QUOTE) ++ b) :: (k', c) :: l) =
      listText pre ((k, a) :: (k', b ++ (QUOTE ++ COMMA ++ pre k' ++ QUOTE) ++ c) :: l) := by
  simp [listText, separated]

end Lists

/-- The row whose first two values are given and whose other values are empty. -/
def row (k k' : Bytes) (cols : List Bytes) (h : (k :: k' :: cols).Pairwise (· < ·))
    (value value' : Bytes) : Columns :=
  ⟨(k, value) :: (k', value') :: cols.map fun c => (c, []), by
    apply List.pairwise_map.mp
    simpa [Function.comp_def] using h⟩

section Statements

variable {cols : List Bytes}

theorem row_keys {k k' : Bytes} (h : (k :: k' :: cols).Pairwise (· < ·)) (value value' : Bytes) :
    (row k k' cols h value value').pairs.map Prod.fst = k :: k' :: cols := by
  simp [row, Function.comp_def]

theorem row_quoted {k k' : Bytes} (h : (k :: k' :: cols).Pairwise (· < ·)) {value value' : Bytes}
    (hvalue : Quoted value) (hvalue' : Quoted value') :
    ∀ iter ∈ (row k k' cols h value value').pairs, Quoted iter.2 := by
  intro iter hiter
  cases List.mem_cons.mp hiter with
  | inl heq => rw [heq]; exact hvalue
  | inr hiter =>
      cases List.mem_cons.mp hiter with
      | inl heq => rw [heq]; exact hvalue'
      | inr hiter =>
          cases List.mem_map.mp hiter with
          | intro c hc => rw [← hc.2]; rfl

/-- With the border between two columns in the value of the first one, or of the second one. -/
theorem exists_collision {k k' : Bytes} (pre : Bytes → Bytes)
    (h : (k :: k' :: cols).Pairwise (· < ·)) :
    ∃ dat dat' : Columns, dat.pairs.map Prod.fst = k :: k' :: cols ∧
      dat'.pairs.map Prod.fst = k :: k' :: cols ∧ (∀ iter ∈ dat.pairs, Quoted iter.2) ∧
      (∀ iter ∈ dat'.pairs, Quoted iter.2) ∧ listText pre dat.pairs = listText pre dat'.pairs ∧
      dat ≠ dat' := by
  have hdigit : ∀ (c : UInt8) (s : Bytes), c < 78 → Quoted (c :: s) := by
    intro c s hc
    have hN : c ≠ 78 := hc.ne
    have hn : c ≠ 110 := (hc.trans (by decide)).ne
    simp [Quoted, isNull, ascii, hN, hn]
  exists row k k' cols h ([49] ++ (QUOTE ++ COMMA ++ pre k' ++ QUOTE) ++ [50]) [51]
  exists row k k' cols h [49] ([50] ++ (QUOTE ++ COMMA ++ pre k' ++ QUOTE) ++ [51])
  constructor
  · exact row_keys h _ _
  constructor
  · exact row_keys h _ _
  constructor
  · exact row_quoted h (hdigit 49 _ (by decide)) (hdigit 51 _ (by decide))
  constructor
  · exact row_quoted h (hdigit 49 _ (by decide)) (hdigit 50 _ (by decide))
  constructor
  · exact listText_collide k k' _ _ _ _
  · intro hsame
    have hpairs := congrArg SortedMap.pairs hsame
    simp [row, QUOTE] at hpairs

theorem eq_of_one_column {l l' : List (Bytes × Bytes)} {pre : Bytes → Bytes} (hone : l.length ≤ 1)
    (hkeys : l.map Prod.fst = l'.map Prod.fst) (heq : listText pre l = listText pre l') :
    l = l' := by
  match l, l' with
  | [], [] => rfl
  | [], _ :: _ => cases hkeys
  | _ :: _, [] => cases hkeys
  | [iter], [iter'] =>
      have hkey := (List.cons.inj hkeys).1
      rw [listText_cons, listText_cons, hkey] at heq
      have hvalue := List.append_cancel_right (List.cons.inj (List.append_cancel_left heq)).2
      rw [Prod.ext hkey hvalue]
  | [_], _ :: _ :: _ => exact absurd (List.cons.inj hkeys).2 (List.cons_ne_nil _ _).symm
  | _ :: _ :: _, _ =>
      rw [List.length_cons, List.length_cons] at hone
      omega

/-- Statements that differ only in the list of the values keep the values of one column apart,
of more columns only when there is no quote in them. -/
theorem keepsApart_of_list (sql : Columns → Bytes) (pre : Bytes → Bytes)
    (hcols : cols.Pairwise (· < ·))
    (hsql : ∀ dat dat' : Columns, dat.pairs.map Prod.fst = dat'.pairs.map Prod.fst →
      (∀ iter ∈ dat.pairs, Quoted iter.2) → (∀ iter ∈ dat'.pairs, Quoted iter.2) →
      (sql dat = sql dat' ↔ listText pre dat.pairs = listText pre dat'.pairs)) :
    (KeepsApart sql cols Quoted ↔ cols.length ≤ 1) ∧ KeepsApart sql cols Quoteless := by
  constructor
  · constructor
    · intro hapart
      match cols with
      | [] => exact Nat.zero_le 1
      | [_] => exact Nat.le_refl 1
      | k :: k' :: cols =>
          obtain ⟨dat, dat', hdat, hdat', hok, hok', htext, hne⟩ := exists_collision pre hcols
          have hsame := (hsql dat dat' (hdat.trans hdat'.symm) hok hok').mpr htext
          exact absurd (hapart dat dat' hdat hdat' hok hok' hsame) hne
    · intro hone dat dat' hdat hdat' hok hok' heq
      have hkeys := hdat.trans hdat'.symm
      apply SortedMap.ext
      apply eq_of_one_column _ hkeys ((hsql dat dat' hkeys hok hok').mp heq)
      rwa [← List.length_map Prod.fst, hdat]
  · intro dat dat' hdat hdat' hok hok' heq
    have hkeys := hdat.trans hdat'.symm
    have htext := (hsql dat dat' hkeys (fun i hi => (hok i hi).1) fun i hi => (hok' i hi).1).mp heq
    apply SortedMap.ext
    exact listText_injective hkeys (fun i hi => (hok i hi).2) (fun i hi => (hok' i hi).2) htext

variable (lib : Mysql σ ρ) (db : CDatabase σ ρ) (table where_ : Bytes)

theorem updateSql_eq_iff {dat dat' : Columns} (h : ∀ iter ∈ dat.pairs, Quoted iter.2)
    (h' : ∀ iter ∈ dat'.pairs, Quoted iter.2) :
    updateSql table dat where_ = updateSql table dat' where_ ↔
      listText (· ++ [61]) dat.pairs = listText (· ++ [61]) dat'.pairs := by
  rw [updateSql, updateSql, values_text (· ++ [61]) h,
    values_text (· ++ [61]) h', List.append_cancel_right_eq, List.append_cancel_left_eq]

theorem insertSql_eq_iff {dat dat' : Columns}
    (hkeys : dat.pairs.map Prod.fst = dat'.pairs.map Prod.fst)
    (h : ∀ iter ∈ dat.pairs, Quoted iter.2) (h' : ∀ iter ∈ dat'.pairs, Quoted iter.2) :
    insertSql table dat = insertSql table dat' ↔
      listText (fun _ => []) dat.pairs = listText (fun _ => []) dat'.pairs := by
  have hnames : dat.pairs.map (fun iter => iter.1) = dat'.pairs.map fun iter => iter.1 := hkeys
  rw [← values_text (fun _ => []) h, ← values_text (fun _ => []) h', insertSql,
    insertSql, hnames, List.append_cancel_right_eq, List.append_cancel_left_eq]
  rfl

/-- The statement tells the values of at most one column, whatever they are, and the values of
any columns when there is no quote in them. -/
theorem keepsApart_iff (hcols : cols.Pairwise (· < ·)) :
    ((KeepsApart (fun dat => (Update lib db table dat where_).1.GetLastSql) cols Quoted ↔
        cols.length ≤ 1) ∧
      (KeepsApart (fun dat => (Insert lib db table dat).1.GetLastSql) cols Quoted ↔
        cols.length ≤ 1)) ∧
    KeepsApart (fun dat => (Update lib db table dat where_).1.GetLastSql) cols Quoteless ∧
    KeepsApart (fun dat => (Insert lib db table dat).1.GetLastSql) cols Quoteless := by
  have hupdate := keepsApart_of_list (fun dat => (Update lib db table dat where_).1.GetLastSql)
    (· ++ [61]) hcols fun dat dat' _ h h' => by
      simp only [Update, DoQuery_last_sql]
      exact updateSql_eq_iff table where_ h h'
  have hinsert := keepsApart_of_list (fun dat => (Insert lib db table dat).1.GetLastSql)
    (fun _ => []) hcols fun dat dat' hkeys h h' => by
      simp only [Insert, DoQuery_last_sql]
      exact insertSql_eq_iff table hkeys h h'
  exact ⟨⟨hupdate.1, hinsert.1⟩, hupdate.2, hinsert.2⟩

end Statements

/-- A library that accepts every statement. -/
def accepting : Mysql Unit Unit where
  mysql_query _ _ := ((), 0)
  mysql_error _ := []
  mysql_store_result _ := ((), none)
  mysql_field_count _ := 0
  mysql_affected_rows _ := 1

def connected : CDatabase Unit Unit := ⟨(), none, 0, [], []⟩

theorem keepsApart_iff_two :
    ((KeepsApart (fun dat => (Update accepting connected [116] dat []).1.GetLastSql) [[97], [98]]
        Quoted ↔ 2 ≤ 1) ∧
      (KeepsApart (fun dat => (Insert accepting connected [116] dat).1.GetLastSql) [[97], [98]]
        Quoted ↔ 2 ≤ 1)) ∧
    KeepsApart (fun dat => (Update accepting connected [116] dat []).1.GetLastSql) [[97], [98]]
      Quoteless ∧
    KeepsApart (fun dat => (Insert accepting connected [116] dat).1.GetLastSql) [[97], [98]]
      Quoteless :=
  keepsApart_iff accepting connected [116] [] (by decide)

/-- `a='1',b='2'` in the value of the first column, and in the value of the second one. -/
theorem value_sets_column :
    ¬ ∀ (table where_ : Bytes) (cols : List Bytes),
      KeepsApart (fun dat => (Update accepting connected table dat where_).1.GetLastSql) cols Quoted := by
  intro hall
  have hsame := hall [116] [] [[97], [98]]
    (row [97] [98] [] (by decide) [49, 39, 44, 98, 61, 39, 50] [51])
    (row [97] [98] [] (by decide) [49] [50, 39, 44, 98, 61, 39, 51]) rfl rfl (by decide) (by decide)
    (by decide)
  have hpairs := congrArg SortedMap.pairs hsame
  exact absurd hpairs (by decide)

end CDatabase

end CommonCc
