import CommonCc.Net.Logger.Trace

/-!
# Rotation by count

While the names of the row fit into the buffers of `ChangeNum`, the row holds at every
moment what was written since the last rotations, also in the middle of a chain of renames.
-/

namespace CommonCc

namespace CLogger

/-! ## Names that fit -/

/-- All but the newest piece are whole lines, and not more of them than a file may have. -/
structure Lines (ps : List (List Bytes)) : Prop where
  even : ∀ i, 0 < i → 2 ∣ (ps.getD i []).length
  short : ∀ i, 0 < i → (ps.getD i []).length ≤ 2 * kChangeLine

section Fits

variable {path : Bytes} {t : List SysCall}

/-- The row joins to what was written since some rotation. -/
theorem keeps_of_joined (h : Lines (pieces t)) {m : Nat} (hm : kChangeLineFileNum ≤ m)
    (hkept : kept path t = joined (piece t) m)
    (hfile : ∀ i, 0 < i → i < kChangeLineFileNum →
      ((files t).content (rowName path i)).length ≤ 2 * kChangeLine) : Keeps path t := by
  constructor
  · rw [hkept]
    by_cases hold : (pieces t).length ≤ m
    · exact ⟨0, joined_piece t hold⟩
    · rw [written_eq]
      apply joined_eq_drop (Nat.le_of_not_le hold)
      intro i hi
      have hpos : 0 < kChangeLineFileNum := by decide
      exact h.even i (by omega)
  · rw [hkept]
    exact joined_suffix _ hm
  · exact hfile

theorem content_of_getElem? {i j : Nat} (h : files t (rowName path i) = (pieces t)[j]?) :
    (files t).content (rowName path i) = piece t j := by
  rw [Files.content, h, piece, List.getD_eq_getElem?_getD]

/-- Between two calls each file of the row is one piece. -/
theorem keeps_of_row (h : Lines (pieces t))
    (hrow : Files.Row (rowName path) (fun i => (pieces t)[i]?) kChangeLineFileNum (files t)) :
    Keeps path t := by
  apply keeps_of_joined h (Nat.le_refl _)
  · exact joined_congr fun i hi => content_of_getElem? (hrow i hi)
  · intro i hpos hi
    rw [content_of_getElem? (hrow i hi)]
    exact h.short i hpos

/-- When the file has just been closed, the row has one piece more. -/
theorem keeps_of_closed (h : Lines (pieces t)) (hzero : piece t 0 = [])
    (hrow : Files.Row (rowName path) (fun i => (pieces t)[i + 1]?) kChangeLineFileNum (files t)) :
    Keeps path t := by
  apply keeps_of_joined h (Nat.le_succ _)
  · rw [joined_succ, hzero, List.append_nil]
    exact joined_congr fun i hi => content_of_getElem? (hrow i hi)
  · intro i hpos hi
    rw [content_of_getElem? (hrow i hi)]
    exact h.short (i + 1) (Nat.succ_pos i)

/-- During the renames one place of the row is empty. -/
theorem keeps_of_gap (h : Lines (pieces t)) (hzero : piece t 0 = []) {g : Nat}
    (hg : g < kChangeLineFileNum)
    (hgap : Files.Gap (rowName path) (fun i => (pieces t)[i]?) kChangeLineFileNum g (files t)) :
    Keeps path t := by
  have hcontent : ∀ i < kChangeLineFileNum, (files t).content (rowName path i) =
      if g < i then piece t i else if i = g then [] else piece t (i + 1) := by
    intro i hi
    have hi' := hgap i hi
    by_cases habove : g < i
    · rw [if_pos habove] at hi' ⊢
      exact content_of_getElem? hi'
    · rw [if_neg habove] at hi' ⊢
      by_cases hat : i = g
      · rw [if_pos hat] at hi' ⊢
        rw [Files.content, hi']
        rfl
      · rw [if_neg hat] at hi' ⊢
        exact content_of_getElem? hi'
  apply keeps_of_joined h (Nat.le_refl _)
  · exact joined_gap hg hzero hcontent
  · intro i hpos hi
    rw [hcontent i hi]
    split
    · exact h.short i hpos
    · split
      · exact Nat.zero_le _
      · exact h.short (i + 1) (Nat.succ_pos i)

/-- The chain of renames moves the gap down to the log file. -/
theorem throughout_renames {l : CLogger} (hname : c_str l.m_path = path)
    (hlen : path.length ≤ 509) {g : Nat} (hg : g < kChangeLineFileNum) (h : Lines (pieces t))
    (hzero : piece t 0 = [])
    (hgap : Files.Gap (rowName path) (fun i => (pieces t)[i]?) kChangeLineFileNum g (files t)) :
    Throughout (Keeps path) t (l.renames g) ∧ pieces (t ++ l.renames g) = pieces t ∧
      Files.Gap (rowName path) (fun i => (pieces t)[i]?) kChangeLineFileNum 0
        (files (t ++ l.renames g)) := by
  induction g generalizing t with
  | zero =>
      rw [renames, List.append_nil, throughout_nil]
      exact ⟨keeps_of_gap h hzero hg hgap, rfl, hgap⟩
  | succ g ih =>
      rw [renames_of_fits hname hlen hg, throughout_cons,
        List.append_cons t _ (l.renames g)]
      generalize ht' : t ++ [.rename (rowName path g) (rowName path (g + 1))] = t'
      have hpieces : pieces t' = pieces t := by
        rw [← ht', pieces_rename]
      have hgap' : Files.Gap (rowName path) (fun i => (pieces t')[i]?) kChangeLineFileNum g
          (files t') := by
        rw [hpieces, ← ht', files_concat]
        exact hgap.rename hg fun i _ j _ => rowName_injective
      have hrest := ih (Nat.lt_of_succ_lt hg) (by rwa [hpieces])
        (by rw [piece, hpieces]; exact hzero) hgap'
      rw [hpieces] at hrest
      exact ⟨⟨keeps_of_gap h hzero hg hgap, hrest.1⟩, hrest.2⟩

/-- The whole chain.  Its first rename is apart: it writes over the last file. -/
theorem throughout_chain {l : CLogger} (hname : c_str l.m_path = path) (hlen : path.length ≤ 509)
    (h : Lines (pieces t)) (hzero : piece t 0 = [])
    (hrow : Files.Row (rowName path) (fun i => (pieces t)[i + 1]?) kChangeLineFileNum (files t)) :
    let t' := t ++ l.renames (kChangeLineFileNum - 1)
    Throughout (Keeps path) t (l.renames (kChangeLineFileNum - 1)) ∧ pieces t' = pieces t ∧
      Files.Gap (rowName path) (fun i => (pieces t)[i]?) kChangeLineFileNum 0 (files t') := by
  show Throughout (Keeps path) t (l.renames (8 + 1)) ∧
    pieces (t ++ l.renames (8 + 1)) = pieces t ∧ Files.Gap (rowName path)
      (fun i => (pieces t)[i]?) kChangeLineFileNum 0 (files (t ++ l.renames (8 + 1)))
  rw [renames_of_fits hname hlen (by decide), throughout_cons, List.append_cons t _ (l.renames 8)]
  generalize ht' : t ++ [.rename (rowName path 8) (rowName path (8 + 1))] = t'
  have hpieces : pieces t' = pieces t := by
    rw [← ht', pieces_rename]
  have hgap : Files.Gap (rowName path) (fun i => (pieces t')[i]?) kChangeLineFileNum 8
      (files t') := by
    rw [hpieces, ← ht', files_concat]
    apply Files.Row.rename_top hrow fun i _ j _ => rowName_injective
    intro hnone
    rw [List.getElem?_eq_none_iff] at hnone ⊢
    omega
  have hrest := throughout_renames (g := 8) hname hlen (by decide) (by rwa [hpieces])
    (by rw [piece, hpieces]; exact hzero) hgap
  rw [hpieces] at hrest
  exact ⟨⟨keeps_of_closed h hzero hrow, hrest.1⟩, hrest.2⟩

/-- Opening the log file again closes the gap. -/
theorem row_create {ps : List (List Bytes)} (hps : pieces t = [] :: ps)
    (hgap : Files.Gap (rowName path) (fun i => (pieces t)[i]?) kChangeLineFileNum 0 (files t)) :
    Files.Row (rowName path) (fun i => (pieces t)[i]?) kChangeLineFileNum
      (files (t ++ [.create path])) := by
  rw [files_concat]
  apply hgap.openAppend _ fun i _ j _ => rowName_injective
  rw [hps]
  rfl

/-- Writing to the log file extends the newest piece. -/
theorem row_write (text : Bytes)
    (hrow : Files.Row (rowName path) (fun i => (pieces t)[i]?) kChangeLineFileNum (files t)) :
    Files.Row (rowName path) (fun i => (pieces (t ++ [.write path text]))[i]?)
      kChangeLineFileNum (files (t ++ [.write path text])) := by
  have hfile : files t path = some (piece t 0) := by
    have h := hrow 0 (by decide)
    rw [pieces_eq_cons] at h
    exact h
  intro i hi
  rw [files_concat, SysCall.run, Files.append_eq hfile, pieces_concat, record,
    Function.update_apply]
  cases i with
  | zero =>
      rw [if_pos rowName_zero, pieces_eq_cons]
      rfl
  | succ i =>
      have hold := hrow (i + 1) hi
      rw [pieces_eq_cons] at hold
      rw [if_neg (rowName_ne i), hold]
      rfl

theorem lines_write (fd text : Bytes) (h : Lines (pieces t)) :
    Lines (pieces (t ++ [.write fd text])) := by
  have htail : ∀ i, 0 < i → (pieces (t ++ [.write fd text])).getD i [] =
      (pieces t).getD i [] := by
    intro i hi
    cases i with
    | zero => exact absurd hi (Nat.lt_irrefl 0)
    | succ i => exact piece_write_succ t fd text i
  constructor
  · intro i hi
    rw [htail i hi]
    exact h.even i hi
  · intro i hi
    rw [htail i hi]
    exact h.short i hi

/-- The directory between two calls of `Log`.  The newest piece has at most as many lines as
the counter tells. -/
structure Settled (path : Bytes) (l : CLogger) (t : List SysCall) : Prop where
  row : Files.Row (rowName path) (fun i => (pieces t)[i]?) kChangeLineFileNum (files t)
  lines : Lines (pieces t)
  newest : ∃ n, n ≤ l.m_count % kChangeLine + 1 ∧ (piece t 0).length = 2 * n
  count : l.m_count < 4294967296

/-- The newest piece can be closed. -/
theorem Settled.lines_close {l : CLogger} (h : Settled path l t) : Lines ([] :: pieces t) := by
  have hall : ∀ i, 2 ∣ (piece t i).length ∧ (piece t i).length ≤ 2 * kChangeLine := by
    intro i
    cases i with
    | zero =>
        cases h.newest with
        | intro n hn =>
            have hlt : l.m_count % kChangeLine < kChangeLine := Nat.mod_lt _ (by decide)
            rw [hn.2]
            exact ⟨Nat.dvd_mul_right 2 n, by omega⟩
    | succ i => exact ⟨h.lines.even _ (Nat.succ_pos i), h.lines.short _ (Nat.succ_pos i)⟩
  constructor
  · intro i hi
    cases i with
    | zero => exact absurd hi (Nat.lt_irrefl 0)
    | succ i => exact (hall i).1
  · intro i hi
    cases i with
    | zero => exact absurd hi (Nat.lt_irrefl 0)
    | succ i => exact (hall i).2

/-- A rotation keeps the promise throughout. -/
theorem Settled.rotate {l : CLogger} (h : Settled path l t) (hname : c_str l.m_path = path)
    (hlen : path.length ≤ 509) :
    let calls := .close path :: (l.renames (kChangeLineFileNum - 1) ++ [.create path])
    Throughout (Keeps path) t calls ∧ pieces (t ++ calls) = [] :: pieces t ∧
      Files.Row (rowName path) (fun i => (pieces (t ++ calls))[i]?) kChangeLineFileNum
        (files (t ++ calls)) := by
  dsimp only
  rw [throughout_cons, throughout_append, List.append_cons t _ (_ ++ _),
    ← List.append_assoc (t ++ _)]
  generalize ht₁ : t ++ [.close path] = t₁
  have hpieces₁ : pieces t₁ = [] :: pieces t := by
    rw [← ht₁, pieces_close]
  have hlines₁ : Lines (pieces t₁) := by
    rw [hpieces₁]
    exact h.lines_close
  have hrow₁ : Files.Row (rowName path) (fun i => (pieces t₁)[i + 1]?) kChangeLineFileNum
      (files t₁) := by
    rw [hpieces₁, ← ht₁, files_concat]
    exact h.row
  have hchain := throughout_chain hname hlen hlines₁ (by rw [piece, hpieces₁]; rfl) hrow₁
  dsimp only at hchain
  generalize t₁ ++ l.renames (kChangeLineFileNum - 1) = t₂ at hchain ⊢
  have hpieces₂ : pieces t₂ = [] :: pieces t := hchain.2.1.trans hpieces₁
  have hgap : Files.Gap (rowName path) (fun i => (pieces t₂)[i]?) kChangeLineFileNum 0
      (files t₂) := by
    rw [hchain.2.1]
    exact hchain.2.2
  have hpieces : pieces (t₂ ++ [.create path]) = pieces t₂ := pieces_create t₂ path
  have hrow := row_create hpieces₂ hgap
  rw [← hpieces] at hrow
  have hlines : Lines (pieces (t₂ ++ [.create path])) := by
    rw [hpieces, hchain.2.1]
    exact hlines₁
  have hlines₂ : Lines (pieces t₂) := by rwa [← hpieces]
  rw [throughout_cons, throughout_nil]
  exact ⟨⟨keeps_of_row h.lines h.row, hchain.1,
    keeps_of_gap hlines₂ (by rw [piece, hpieces₂]; rfl) (by decide) hgap,
    keeps_of_row hlines hrow⟩, hpieces.trans hpieces₂, hrow⟩

/-- So does writing a line. -/
theorem throughout_writes {a b : Bytes} (h : Lines (pieces t))
    (hrow : Files.Row (rowName path) (fun i => (pieces t)[i]?) kChangeLineFileNum (files t)) :
    let calls := [.write path a, .write path b]
    Throughout (Keeps path) t calls ∧ Lines (pieces (t ++ calls)) ∧
      (piece (t ++ calls) 0).length = (piece t 0).length + 2 ∧
      Files.Row (rowName path) (fun i => (pieces (t ++ calls))[i]?) kChangeLineFileNum
        (files (t ++ calls)) := by
  dsimp only
  rw [throughout_cons, throughout_cons, throughout_nil, List.append_cons t _ [_]]
  have hrow₁ := row_write a hrow
  have hlines₁ := lines_write path a h
  have hrow₂ := row_write b hrow₁
  have hlines₂ := lines_write path b hlines₁
  refine ⟨⟨keeps_of_row h hrow, keeps_of_row hlines₁ hrow₁, keeps_of_row hlines₂ hrow₂⟩,
    hlines₂, ?_, hrow₂⟩
  rw [piece_write_zero, piece_write_zero, List.length_append, List.length_append]
  rfl

/-- A logged line keeps the promise throughout and settles again. -/
theorem Settled.line {l l' : CLogger} {a b : Bytes} (h : Settled path l t)
    (hname : c_str l.m_path = path) (hlen : path.length ≤ 509)
    (hcount : l'.m_count = u32 (l.m_count + 1)) :
    Throughout (Keeps path) t (lineCalls path l a b) ∧
      Settled path l' (t ++ lineCalls path l a b) := by
  have hlt : l'.m_count < 4294967296 := by
    rw [hcount]
    exact Nat.mod_lt _ (by decide)
  unfold lineCalls
  by_cases hrotate : u32 (l.m_count + 1) % kChangeLine = 0
  · rw [if_pos hrotate, throughout_append, ← List.append_assoc]
    have h₁ := h.rotate hname hlen
    dsimp only at h₁
    generalize t ++ .close path :: (l.renames (kChangeLineFileNum - 1) ++ [.create path]) = t₁
      at h₁ ⊢
    have hlines₁ : Lines (pieces t₁) := by
      rw [h₁.2.1]
      exact h.lines_close
    have hzero : piece t₁ 0 = [] := by
      rw [piece, h₁.2.1]
      rfl
    have h₂ := throughout_writes (a := a) (b := b) hlines₁ h₁.2.2
    refine ⟨⟨h₁.1, h₂.1⟩, h₂.2.2.2, h₂.2.1, ⟨1, Nat.le_add_left _ _, ?_⟩, hlt⟩
    rw [h₂.2.2.1, hzero]
    rfl
  · rw [if_neg hrotate, List.nil_append]
    have h₂ := throughout_writes (a := a) (b := b) h.lines h.row
    refine ⟨h₂.1, h₂.2.2.2, h₂.2.1, ?_, hlt⟩
    cases h.newest with
    | intro n hn =>
        have hbound : n ≤ l'.m_count % kChangeLine := by
          have hle := hn.1
          have hsmall := h.count
          rw [hcount]
          by_cases hwrap : l.m_count + 1 < 4294967296
          · rw [u32_of_lt hwrap] at hrotate ⊢
            simp only [kChangeLine] at hrotate hle ⊢
            omega
          · have hmax : l.m_count + 1 = 4294967296 := by omega
            rw [hmax] at hrotate
            exact absurd rfl hrotate
        exact ⟨n + 1, Nat.succ_le_succ hbound, by rw [h₂.2.2.1, hn.2]; rfl⟩

/-- Every run of calls keeps the promise throughout. -/
theorem throughout_logAll {localtime_r : Int → Tm} {l : CLogger} {calls : List LogCall}
    (hready : Ready path l) (h : Settled path l t) (hlen : path.length ≤ 509)
    (hopens : ∀ c ∈ calls, c.opens = true) :
    Throughout (Keeps path) t (logAll localtime_r l calls) := by
  induction calls generalizing l t with
  | nil =>
      rw [logAll, throughout_nil]
      exact keeps_of_row h.lines h.row
  | cons c cs ih =>
      have hrest : ∀ c' ∈ cs, c'.opens = true := fun c' hc => hopens c' (List.mem_cons_of_mem c hc)
      unfold logAll
      dsimp only
      by_cases hlevel : c.level < l.m_log_level
      · rw [Log_below localtime_r hlevel]
        exact ih hready h hrest
      · obtain ⟨l', a, b, hlog, hready', -, -, hcount⟩ := Log_line localtime_r hready
          (Int.not_lt.mp hlevel) (hopens c List.mem_cons_self)
        have hline := h.line (a := a) (b := b) hready.name hlen hcount
        rw [hlog, throughout_append]
        exact ⟨hline.1, ih hready' hline.2 hrest⟩

end Fits

end CLogger

end CommonCc
