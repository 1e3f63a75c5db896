import CommonCc.Net.Logger.Model
import Mathlib.Data.List.GetD
import Mathlib.Data.List.Induction

/-!
# Traces of the logger

What is promised of the row `path`, `path.1`, `path.2`, ... at one moment of a trace of
system calls, and the trace that a call of `Log` leaves.
-/

namespace CommonCc

namespace CLogger

/-! ## What a trace says -/

/-- File `i` of the row: the log file itself, then `path.1`, `path.2`, ... -/
def rowName (path : Bytes) (i : Nat) : Bytes :=
  if i = 0 then path else path ++ ascii ['.'] ++ decimal i

/-- The directory after a trace that starts with no files. -/
def files (t : List SysCall) : Files Bytes Bytes := t.foldl SysCall.run fun _ => none

/-- The log: what was written, in order.  A line is two writes. -/
def written (t : List SysCall) : List Bytes :=
  t.filterMap fun
    | .write _ text => some text
    | _ => none

/-- One more call: a rotation begins when it closes the file. -/
def record (ps : List (List Bytes)) : SysCall → List (List Bytes)
  | .close _ => [] :: ps
  | .write _ text => (ps.headD [] ++ [text]) :: ps.tail
  | _ => ps

/-- What was written between the rotations, the newest first. -/
def pieces (t : List SysCall) : List (List Bytes) := t.foldl record [[]]

/-- What was written since the rotation `i` before the last one, up to the next. -/
def piece (t : List SysCall) (i : Nat) : List Bytes := (pieces t).getD i []

/-- What was written since the `n`-th most recent rotation, or everything if there were
fewer. -/
def sinceRotation (n : Nat) (t : List SysCall) : List Bytes := joined (piece t) n

/-- The files of the row one after the other, the oldest first. -/
def kept (path : Bytes) (t : List SysCall) : List Bytes :=
  joined (fun i => (files t).content (rowName path i)) kChangeLineFileNum

/-- What is promised at one moment. -/
structure Keeps (path : Bytes) (t : List SysCall) : Prop where
  /-- The row is the log without some of its first lines. -/
  ordered : ∃ n, kept path t = (written t).drop (2 * n)
  recent : sinceRotation kChangeLineFileNum t <:+ kept path t
  /-- No rotated file has more than `kChangeLine` lines. -/
  short : ∀ i, 0 < i → i < kChangeLineFileNum →
    ((files t).content (rowName path i)).length ≤ 2 * kChangeLine

/-- The calls that a list of calls of `Log` makes. -/
def logAll (localtime_r : Int → Tm) : CLogger → List LogCall → List SysCall
  | _, [] => []
  | l, c :: cs =>
      let logged := Log localtime_r l c
      logged.2 ++ logAll localtime_r logged.1 cs

/-- A logger is made, its level set, and lines are logged. -/
def session (localtime_r : Int → Tm) (path : Bytes) (timep level : Int) (calls : List LogCall) :
    List SysCall :=
  let made := new path (localtime_r timep)
  made.2 ++ logAll localtime_r (made.1.SetLevel level) calls

/-- Every moment of every session keeps the promise, when files can be opened and the
counter does not wrap. -/
def RotatesSafely (path : Bytes) : Prop :=
  ∀ (localtime_r : Int → Tm) (timep level : Int) (calls : List LogCall),
    calls.length < 4294967296 → (∀ c ∈ calls, c.opens = true) →
    ∀ moment, moment <+: session localtime_r path timep level calls → Keeps (c_str path) moment

/-! ## Traces grow by one call -/

section Traces

variable (t : List SysCall)

@[simp] theorem files_concat (c : SysCall) : files (t ++ [c]) = SysCall.run (files t) c := by
  simp [files]

theorem pieces_concat (c : SysCall) : pieces (t ++ [c]) = record (pieces t) c := by
  simp [pieces]

theorem pieces_rename (source target : Bytes) :
    pieces (t ++ [.rename source target]) = pieces t := by
  rw [pieces_concat]
  rfl

theorem pieces_close (fd : Bytes) : pieces (t ++ [.close fd]) = [] :: pieces t := by
  rw [pieces_concat]
  rfl

theorem pieces_create (path : Bytes) : pieces (t ++ [.create path]) = pieces t := by
  rw [pieces_concat]
  rfl

theorem pieces_ne_nil : pieces t ≠ [] := by
  induction t using List.reverseRecOn with
  | nil => simp [pieces]
  | append_singleton t c ih =>
      rw [pieces_concat]
      cases c <;> first | exact ih | exact List.cons_ne_nil _ _

theorem pieces_eq_cons : pieces t = piece t 0 :: (pieces t).tail := by
  cases h : pieces t with
  | nil => exact absurd h (pieces_ne_nil t)
  | cons p ps => simp [piece, h]

theorem piece_succ (i : Nat) : piece t (i + 1) = (pieces t).tail.getD i [] := by
  unfold piece
  rw [pieces_eq_cons]
  rfl

@[simp] theorem piece_close_zero (fd : Bytes) : piece (t ++ [.close fd]) 0 = [] := by
  simp [piece, pieces_close]

@[simp] theorem piece_close_succ (fd : Bytes) (i : Nat) :
    piece (t ++ [.close fd]) (i + 1) = piece t i := by
  simp [piece, pieces_close]

@[simp] theorem piece_write_zero (fd text : Bytes) :
    piece (t ++ [.write fd text]) 0 = piece t 0 ++ [text] := by
  rw [piece, pieces_concat, record, pieces_eq_cons]
  rfl

@[simp] theorem piece_write_succ (fd text : Bytes) (i : Nat) :
    piece (t ++ [.write fd text]) (i + 1) = piece t (i + 1) := by
  rw [piece, pieces_concat, record, piece_succ]
  rfl

theorem written_append (ops : List SysCall) : written (t ++ ops) = written t ++ written ops :=
  List.filterMap_append ..

theorem piece_of_quiet {c : SysCall} (h : record (pieces t) c = pieces t) :
    piece (t ++ [c]) = piece t := by
  funext i
  rw [piece, pieces_concat, h, piece]

theorem pieces_write_length (fd text : Bytes) :
    (pieces (t ++ [.write fd text])).length = (pieces t).length := by
  rw [pieces_concat, record, pieces_eq_cons t]
  rfl

/-- The log is what was written between all rotations. -/
theorem written_eq : written t = joined (piece t) (pieces t).length := by
  induction t using List.reverseRecOn with
  | nil => rfl
  | append_singleton t c ih =>
      rw [written_append, ih, pieces_concat]
      cases c with
      | close fd =>
          rw [record, List.length_cons, joined_succ, piece_close_zero]
          simp only [piece_close_succ]
          rfl
      | write fd text =>
          have hlen : (pieces t).length = (pieces t).tail.length + 1 := by
            rw [pieces_eq_cons]
            rfl
          rw [record, List.length_cons, hlen, joined_succ, joined_succ, piece_write_zero,
            ← List.append_assoc]
          simp only [piece_write_succ]
          rfl
      | _ =>
          rw [piece_of_quiet t rfl]
          exact List.append_nil _

theorem piece_of_le {i : Nat} (h : (pieces t).length ≤ i) : piece t i = [] :=
  List.getD_eq_default _ _ h

/-- Nothing older than the first piece was written. -/
theorem joined_piece {n : Nat} (h : (pieces t).length ≤ n) : joined (piece t) n = written t := by
  rw [written_eq]
  exact joined_of_nil h fun i hi => piece_of_le t hi

theorem sinceRotation_suffix (n : Nat) : sinceRotation n t <:+ written t := by
  by_cases h : (pieces t).length ≤ n
  · have hall : sinceRotation n t = written t := joined_piece t h
    exact ⟨[], hall⟩
  · rw [written_eq]
    exact joined_suffix _ (Nat.le_of_not_le h)

end Traces

/-! ## Names -/

section Names

variable {path : Bytes}

theorem rowName_zero : rowName path 0 = path := rfl

theorem rowName_succ (i : Nat) :
    rowName path (i + 1) = path ++ ascii ['.'] ++ decimal (i + 1) := rfl

theorem decimal_injective {i j : Nat} (h : decimal i = decimal j) : i = j := by
  rw [← digitsValue_decimal i, h, digitsValue_decimal]

theorem rowName_ne (i : Nat) : rowName path (i + 1) ≠ path := by
  intro h
  have hlen := congrArg List.length h
  rw [rowName_succ] at hlen
  simp [ascii] at hlen

theorem rowName_injective {i j : Nat} (h : rowName path i = rowName path j) : i = j := by
  cases i with
  | zero =>
      cases j with
      | zero => rfl
      | succ j => exact absurd h.symm (rowName_ne j)
  | succ i =>
      cases j with
      | zero => exact absurd h (rowName_ne i)
      | succ j =>
          rw [rowName_succ, rowName_succ] at h
          exact decimal_injective (List.append_cancel_left h)

theorem decimal_length {i : Nat} (h : i < 10) : (decimal i).length = 1 := by
  rw [decimal, if_pos h]
  rfl

theorem snprintf_eq {size : Nat} {text : Bytes} (h : text.length ≤ size - 1) :
    snprintf size text = text := List.take_of_length_le h

variable {l : CLogger}

/-- Names that fit into the buffers are those of the row. -/
theorem renames_of_fits (hpath : c_str l.m_path = path) (hlen : path.length ≤ 509) {n : Nat}
    (hn : n + 1 < 10) :
    l.renames (n + 1) = .rename (rowName path n) (rowName path (n + 1)) :: l.renames n := by
  have hfits : ∀ {i : Nat}, i < 10 →
      snprintf 512 (path ++ ascii ['.'] ++ decimal i) = path ++ ascii ['.'] ++ decimal i := by
    intro i hi
    apply snprintf_eq
    simp [decimal_length hi, ascii]
    omega
  have hfile1 : l.file1 (n + 1) = rowName path (n + 1) := by
    rw [file1, hpath, hfits hn, rowName_succ]
  have hfile2 : l.file2 (n + 1) = rowName path n := by
    cases n with
    | zero => rw [file2, if_pos rfl, hpath, snprintf_eq (by omega), rowName_zero]
    | succ n =>
        rw [file2, if_neg (by omega), hpath, Nat.add_sub_cancel, hfits (by omega), rowName_succ]
  rw [renames, hfile1, hfile2]

end Names

/-! ## What a call of `Log` does -/

/-- The logger changes files by count and has its file open. -/
structure Ready (path : Bytes) (l : CLogger) : Prop where
  name : c_str l.m_path = path
  fd : l.m_fd = some path
  change : l.m_change_type = .num

/-- What a logged line does to the directory, with or without a rotation before it. -/
def lineCalls (path : Bytes) (l : CLogger) (a b : Bytes) : List SysCall :=
  (if u32 (l.m_count + 1) % kChangeLine = 0 then
    .close path :: (l.renames (kChangeLineFileNum - 1) ++ [.create path]) else []) ++
    [.write path a, .write path b]

section Log

variable {path : Bytes} {l : CLogger} (localtime_r : Int → Tm) {c : LogCall}

theorem Log_below (h : c.level < l.m_log_level) : Log localtime_r l c = (l, []) := by
  unfold Log
  by_cases hfd : l.m_fd = none
  · rw [if_pos hfd]
  · rw [if_neg hfd, if_pos h]

theorem renames_of_path {l' : CLogger} (h : l'.m_path = l.m_path) (n : Nat) :
    l'.renames n = l.renames n := by
  induction n with
  | zero => rfl
  | succ n ih => rw [renames, renames, ih, file1, file1, file2, file2, h]

/-- A call at the threshold or above logs a line and leaves the logger ready. -/
theorem Log_line (h : Ready path l) (hlevel : l.m_log_level ≤ c.level) (hopens : c.opens = true) :
    ∃ l' a b, Log localtime_r l c = (l', lineCalls path l a b) ∧ Ready path l' ∧
      l'.m_path = l.m_path ∧ l'.m_log_level = l.m_log_level ∧
      l'.m_count = u32 (l.m_count + 1) := by
  have hfd : l.m_fd ≠ none := by simp [h.fd]
  unfold Log
  rw [if_neg hfd, if_neg (Int.not_lt.mpr hlevel)]
  generalize hl₁ : { l with m_time := localtime_r c.timep, m_count := u32 (l.m_count + 1) } = l₁
  have hpath : l₁.m_path = l.m_path := by rw [← hl₁]
  have hfd₁ : l₁.m_fd = some path := by rw [← hl₁, ← h.fd]
  have hlevel₁ : l₁.m_log_level = l.m_log_level := by rw [← hl₁]
  have hcount : l₁.m_count = u32 (l.m_count + 1) := by rw [← hl₁]
  have hchange : l₁.m_change_type = .num := by rw [← hl₁, ← h.change]
  have hready : Ready path l₁ := ⟨by rw [hpath, h.name], hfd₁, hchange⟩
  rw [ChangeFile, hchange]
  by_cases hrotate : u32 (l.m_count + 1) % kChangeLine = 0
  · have hopen : l₁.openPath true = (l₁, [.create path]) := by
      rw [openPath, hready.name, if_pos rfl, ← hfd₁]
    have hnum : l₁.ChangeNum c.opens =
        (l₁, .close path :: l.renames (kChangeLineFileNum - 1) ++ [.create path]) := by
      rw [ChangeNum, hcount, if_neg (not_not.mpr hrotate), hfd₁, hopens, hopen,
        renames_of_path hpath]
    exact ⟨l₁, l₁.m_time.stamp, _, by
      rw [hnum, lineCalls, if_pos hrotate]
      simp only [line, write, hfd₁]
      rfl, hready, hpath, hlevel₁, hcount⟩
  · have hnum : l₁.ChangeNum c.opens = (l₁, []) := by
      rw [ChangeNum, hcount, if_pos hrotate]
    exact ⟨l₁, l₁.m_time.stamp, _, by
      rw [hnum, lineCalls, if_neg hrotate]
      simp only [line, write, hfd₁]
      rfl, hready, hpath, hlevel₁, hcount⟩

end Log

end CLogger

end CommonCc
