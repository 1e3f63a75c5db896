import CommonCc.Net.Logger.Rotate

/-!
# Names that do not fit

`ChangeNum` builds its names in buffers of 512 characters.  When the path alone fills them,
every rename is one of a file to itself and nothing rotates.  In between lies one length at
which the number of a file is cut off, and the only rename moves the log out of the row.
-/

namespace CommonCc

namespace CLogger

section Alone

variable {path : Bytes} {t : List SysCall}

/-- The log file is the only file and holds the whole log. -/
def Alone (path : Bytes) (t : List SysCall) : Prop :=
  files t = Function.update (fun _ => none) path (some (written t))

theorem keeps_of_alone (h : Alone path t) : Keeps path t := by
  have hpath : (files t).content (rowName path 0) = written t := by
    rw [Files.content, h, rowName_zero, Function.update_self]
    rfl
  have hrest : ∀ i, (files t).content (rowName path (i + 1)) = [] := by
    intro i
    rw [Files.content, h, Function.update_of_ne (rowName_ne i)]
    rfl
  have hkept : kept path t = written t := by
    show joined _ (9 + 1) = _
    rw [joined_succ, joined_of_nil (Nat.zero_le 9) fun i _ => hrest i, hpath]
    rfl
  constructor
  · exact ⟨0, hkept⟩
  · rw [hkept]
    exact sinceRotation_suffix t _
  · intro i hpos _
    cases i with
    | zero => exact absurd hpos (Nat.lt_irrefl 0)
    | succ i =>
        rw [hrest i]
        exact Nat.zero_le _

/-- A call that leaves the log file the only file. -/
def Harmless (path : Bytes) : SysCall → Prop
  | .create name => name = path
  | .close _ => True
  | .rename source target => source = target
  | .remove _ => False
  | .write fd _ => fd = path

theorem Alone.concat (h : Alone path t) {c : SysCall} (hc : Harmless path c) :
    Alone path (t ++ [c]) := by
  unfold Alone at h ⊢
  rw [files_concat, written_append, h]
  cases c with
  | create name =>
      rw [Harmless] at hc
      rw [SysCall.run, Files.openAppend, Files.content, hc, Function.update_idem,
        Function.update_self]
      simp [written]
  | close fd => simp [SysCall.run, written]
  | rename source target =>
      rw [Harmless] at hc
      rw [SysCall.run, hc, Files.rename_self]
      simp [written]
  | remove name => exact absurd hc id
  | write fd text =>
      rw [Harmless] at hc
      rw [SysCall.run, hc, Files.append_eq (Function.update_self ..), Function.update_idem]
      rfl

theorem Alone.append (h : Alone path t) {ops : List SysCall}
    (hops : ∀ c ∈ ops, Harmless path c) :
    Throughout (Keeps path) t ops ∧ Alone path (t ++ ops) := by
  induction ops generalizing t with
  | nil =>
      rw [throughout_nil, List.append_nil]
      exact ⟨keeps_of_alone h, h⟩
  | cons c cs ih =>
      have hrest := ih (h.concat (hops c List.mem_cons_self)) fun c' hc =>
        hops c' (List.mem_cons_of_mem c hc)
      rw [throughout_cons, List.append_cons t c cs]
      exact ⟨⟨keeps_of_alone h, hrest.1⟩, hrest.2⟩

end Alone

/-! ## Nothing rotates -/

section Filled

variable {path : Bytes} {l : CLogger}

theorem snprintf_append {size : Nat} {a b : Bytes} (h : size - 1 ≤ a.length) :
    snprintf size (a ++ b) = snprintf size a := List.take_append_of_le_length h

/-- A path that fills the buffer makes every rename one of a file to itself. -/
theorem renames_filled (hname : c_str l.m_path = path) (hlen : 511 ≤ path.length) (n : Nat) :
    ∀ c ∈ l.renames n, Harmless path c := by
  have hcut : ∀ b : Bytes, snprintf 512 (path ++ ascii ['.'] ++ b) = snprintf 512 path := by
    intro b
    rw [List.append_assoc, snprintf_append hlen]
  induction n with
  | zero =>
      intro c hc
      exact absurd hc List.not_mem_nil
  | succ n ih =>
      intro c hc
      rw [renames, List.mem_cons] at hc
      cases hc with
      | inl hc =>
          rw [hc, Harmless, file1, file2, hname, hcut, hcut, ite_self]
      | inr hc => exact ih c hc

theorem lineCalls_filled (hname : c_str l.m_path = path) (hlen : 511 ≤ path.length)
    (a b : Bytes) : ∀ c ∈ lineCalls path l a b, Harmless path c := by
  intro c hc
  unfold lineCalls at hc
  rw [List.mem_append] at hc
  cases hc with
  | inl hc =>
      split at hc
      · rw [List.mem_cons, List.mem_append, List.mem_singleton] at hc
        rcases hc with hc | hc | hc
        · rw [hc]
          trivial
        · exact renames_filled hname hlen _ c hc
        · rw [hc]
          rfl
      · exact absurd hc List.not_mem_nil
  | inr hc =>
      simp only [List.mem_cons, List.not_mem_nil, or_false] at hc
      cases hc with
      | inl hc => rw [hc]; rfl
      | inr hc => rw [hc]; rfl

theorem logAll_filled {localtime_r : Int → Tm} {calls : List LogCall} (hready : Ready path l)
    (hlen : 511 ≤ path.length) (hopens : ∀ c ∈ calls, c.opens = true) :
    ∀ c ∈ logAll localtime_r l calls, Harmless path c := by
  induction calls generalizing l with
  | nil =>
      intro c hc
      exact absurd hc List.not_mem_nil
  | cons call cs ih =>
      have hrest : ∀ c ∈ cs, c.opens = true := fun c hc => hopens c (List.mem_cons_of_mem call hc)
      unfold logAll
      dsimp only
      by_cases hlevel : call.level < l.m_log_level
      · rw [Log_below localtime_r hlevel]
        exact ih hready hrest
      · obtain ⟨l', a, b, hlog, hready', -, -, -⟩ := Log_line localtime_r hready
          (Int.not_lt.mp hlevel) (hopens call List.mem_cons_self)
        intro c hc
        rw [hlog, List.mem_append] at hc
        cases hc with
        | inl hc => exact lineCalls_filled hready.name hlen a b c hc
        | inr hc => exact ih hready' hrest c hc

end Filled

/-! ## The number is cut off -/

section Cut

variable {path : Bytes} {l : CLogger} {t : List SysCall}

/-- The name that all files of the row share when the number is cut off. -/
def cutName (path : Bytes) : Bytes := path ++ ascii ['.']

theorem snprintf_cut (hlen : path.length = 510) (b : Bytes) :
    snprintf 512 (path ++ ascii ['.'] ++ b) = cutName path := by
  have hlen' : (cutName path).length = 511 := by simp [cutName, ascii, hlen]
  rw [snprintf_append (by simpa [cutName] using Nat.le_of_eq hlen'.symm)]
  exact snprintf_eq (Nat.le_of_eq hlen')

/-- All renames but the last are of a file to itself; the last moves the log away. -/
theorem renames_cut (hname : c_str l.m_path = path) (hlen : path.length = 510) (n : Nat) :
    ∃ n', l.renames (n + 1) =
      List.replicate n' (.rename (cutName path) (cutName path)) ++
        [.rename path (cutName path)] := by
  induction n with
  | zero =>
      exists 0
      rw [renames, renames, file1, file2, if_pos rfl, hname, snprintf_cut hlen,
        snprintf_eq (by omega)]
      rfl
  | succ n ih =>
      cases ih with
      | intro n' ih =>
          exists n' + 1
          rw [renames, ih, file1, file2, if_neg (by omega), hname, snprintf_cut hlen,
            snprintf_cut hlen]
          rfl

theorem cutName_ne (i : Nat) : rowName path i ≠ cutName path := by
  intro h
  cases i with
  | zero =>
      have hlen := congrArg List.length h
      rw [rowName_zero, cutName] at hlen
      simp [ascii] at hlen
  | succ i =>
      rw [rowName_succ, cutName] at h
      exact decimal_ne_nil _ (List.append_right_eq_self.mp h)

/-- When the log has moved away, the row has nothing. -/
theorem Alone.moved (h : Alone path t) :
    kept path (t ++ [.rename path (cutName path)]) = [] := by
  have hne : path ≠ cutName path := cutName_ne 0
  have hnone : ∀ i, files (t ++ [.rename path (cutName path)]) (rowName path i) = none := by
    intro i
    unfold Alone at h
    rw [files_concat, SysCall.run, h, Files.rename_apply fun hnone => by
      rw [Function.update_self] at hnone
      cases hnone]
    rw [if_neg (cutName_ne i)]
    split
    · rfl
    · next hi => rw [Function.update_of_ne hi]
  rw [kept, joined_of_nil (Nat.zero_le _) fun i _ => by
    rw [Files.content, hnone i]
    rfl]
  rfl

theorem pieces_append_renames (n : Nat) (source target : Bytes) :
    pieces (t ++ List.replicate n (.rename source target)) = pieces t := by
  induction n with
  | zero => rw [List.replicate_zero, List.append_nil]
  | succ n ih =>
      rw [List.replicate_succ', ← List.append_assoc, pieces_rename, ih]

/-- The first rotation breaks the promise. -/
theorem not_throughout_rotate (h : Alone path t) (hname : c_str l.m_path = path)
    (hlen : path.length = 510) (hpieces : (pieces t).length = 1) (hwritten : written t ≠ [])
    (ops : List SysCall) :
    ¬ Throughout (Keeps path) t (.close path :: (l.renames (kChangeLineFileNum - 1) ++ ops)) := by
  obtain ⟨n, hrenames⟩ := renames_cut hname hlen 8
  intro hall
  have hkeeps : Keeps path (t ++ (.close path :: l.renames (kChangeLineFileNum - 1))) := by
    apply hall
    rw [← List.cons_append]
    exact List.prefix_append _ _
  have hsplit : t ++ .close path :: l.renames (kChangeLineFileNum - 1) =
      t ++ [.close path] ++ List.replicate n (.rename (cutName path) (cutName path)) ++
        [.rename path (cutName path)] := by
    show t ++ .close path :: l.renames (8 + 1) = _
    rw [hrenames]
    simp
  rw [hsplit] at hkeeps
  have hclosed : Alone path (t ++ [.close path]) := h.concat trivial
  have hself : Alone path (t ++ [.close path] ++
      List.replicate n (.rename (cutName path) (cutName path))) :=
    (hclosed.append fun c hc => by
      rw [List.eq_of_mem_replicate hc]
      rfl).2
  have hnil := hkeeps.recent
  rw [hself.moved, List.suffix_nil, sinceRotation, joined_piece] at hnil
  · rw [written_append, List.append_eq_nil_iff, written_append, List.append_eq_nil_iff,
      written_append, List.append_eq_nil_iff] at hnil
    exact hwritten hnil.1.1.1
  · rw [pieces_rename, pieces_append_renames, pieces_close, List.length_cons, hpieces]
    decide

theorem logAll_replicate (localtime_r : Int → Tm) {c : LogCall} (hready : Ready path l)
    (hlevel : l.m_log_level ≤ c.level) (hopens : c.opens = true) (d : Nat) :
    ∃ l' a b, logAll localtime_r l (List.replicate (d + 1) c) =
        lineCalls path l a b ++ logAll localtime_r l' (List.replicate d c) ∧
      Ready path l' ∧ l'.m_log_level ≤ c.level ∧ l'.m_count = u32 (l.m_count + 1) := by
  obtain ⟨l', a, b, hlog, hready', -, hlevel', hcount⟩ := Log_line localtime_r hready
    hlevel hopens
  refine ⟨l', a, b, ?_, hready', by rwa [hlevel'], hcount⟩
  rw [List.replicate_succ, logAll, hlog]

/-- Lines at the threshold lead to a first rotation. -/
theorem not_throughout_logAll {localtime_r : Int → Tm} {c : LogCall} {d : Nat}
    (hready : Ready path l) (hlevel : l.m_log_level ≤ c.level) (hopens : c.opens = true)
    (hlen : path.length = 510) (h : Alone path t) (hpieces : (pieces t).length = 1)
    (hcount : l.m_count + d + 1 = kChangeLine) (hwritten : 0 < l.m_count → written t ≠ []) :
    ¬ Throughout (Keeps path) t (logAll localtime_r l (List.replicate (d + 1) c)) := by
  have hmany : 1 < kChangeLine := by decide
  have hfew : kChangeLine < 4294967296 := by decide
  induction d generalizing l t with
  | zero =>
      obtain ⟨l', a, b, hcalls, -, -, -⟩ := logAll_replicate localtime_r hready hlevel
        hopens 0
      have hrotate : u32 (l.m_count + 1) % kChangeLine = 0 := by
        rw [u32_of_lt (by omega), show l.m_count + 1 = kChangeLine from hcount, Nat.mod_self]
      rw [hcalls, lineCalls, if_pos hrotate, List.append_assoc, throughout_append]
      intro hall
      exact not_throughout_rotate h hready.name hlen hpieces (hwritten (by omega)) _ hall.1
  | succ d ih =>
      obtain ⟨l', a, b, hcalls, hready', hlevel', hcount'⟩ :=
        logAll_replicate localtime_r hready hlevel hopens (d + 1)
      rw [u32_of_lt (by omega)] at hcount'
      have hsame : ¬ u32 (l.m_count + 1) % kChangeLine = 0 := by
        rw [u32_of_lt (by omega), Nat.mod_eq_of_lt (by omega)]
        exact Nat.succ_ne_zero _
      rw [hcalls, lineCalls, if_neg hsame, List.nil_append, throughout_append]
      intro hall
      have hnext : Alone path (t ++ [.write path a, .write path b]) :=
        (h.append fun c hc => by
          simp only [List.mem_cons, List.not_mem_nil, or_false] at hc
          cases hc with
          | inl hc => rw [hc]; rfl
          | inr hc => rw [hc]; rfl).2
      have hpieces' : (pieces (t ++ [.write path a, .write path b])).length = 1 := by
        rw [List.append_cons, pieces_write_length, pieces_write_length, hpieces]
      apply ih hready' hlevel' hnext hpieces' (by omega) _ hall.2
      intro _
      rw [written_append]
      exact List.append_ne_nil_of_right_ne_nil _ (List.cons_ne_nil a _)

end Cut

/-! ## The exact condition -/

section Sessions

variable {path : Bytes}

/-- Before the log file is made there is nothing. -/
theorem keeps_nil : Keeps path [] := by
  have hkept : kept path [] = [] := joined_of_nil (Nat.zero_le _) fun _ _ => rfl
  constructor
  · exact ⟨0, hkept⟩
  · rw [hkept, sinceRotation, joined_piece [] (by decide)]
    exact List.suffix_rfl
  · intro i _ _
    exact Nat.zero_le _

theorem alone_create : Alone path [.create path] := rfl

theorem settled_create {l : CLogger} (hcount : l.m_count = 0) :
    Settled path l [.create path] := by
  have hpiece : ∀ i, (pieces [.create path]).getD (i + 1) [] = [] := fun _ => rfl
  have hrow : ∀ i, files [.create path] (rowName path i) = (pieces [.create path])[i]? := by
    intro i
    rw [alone_create]
    cases i with
    | zero => exact Function.update_self ..
    | succ i => exact Function.update_of_ne (rowName_ne i) ..
  constructor
  · exact fun i _ => hrow i
  · constructor
    · intro i hi
      cases i with
      | zero => exact absurd hi (Nat.lt_irrefl 0)
      | succ i =>
          rw [hpiece i]
          exact Nat.dvd_zero 2
    · intro i hi
      cases i with
      | zero => exact absurd hi (Nat.lt_irrefl 0)
      | succ i =>
          rw [hpiece i]
          exact Nat.zero_le _
  · exact ⟨0, Nat.zero_le _, rfl⟩
  · rw [hcount]
    decide

theorem ready_new (path : Bytes) (now : Tm) (level : Int) :
    Ready (c_str path) ((new path now).1.SetLevel level) := ⟨rfl, rfl, rfl⟩

/-- The promise over a session is the promise throughout its trace. -/
theorem throughout_session (localtime_r : Int → Tm) (timep level : Int) (calls : List LogCall) :
    (∀ moment, moment <+: session localtime_r path timep level calls →
      Keeps (c_str path) moment) ↔
      Throughout (Keeps (c_str path)) [.create (c_str path)]
        (logAll localtime_r ((new path (localtime_r timep)).1.SetLevel level) calls) := by
  constructor
  · intro h
    have hall : Throughout (Keeps (c_str path)) [] (session localtime_r path timep level calls) :=
      fun m hm => h m hm
    exact (throughout_append.mp hall).2
  · intro h moment hm
    have hall : Throughout (Keeps (c_str path)) [] (session localtime_r path timep level calls) :=
      throughout_append.mpr ⟨throughout_cons.mpr ⟨keeps_nil, throughout_nil.mpr
        (keeps_of_alone alone_create)⟩, h⟩
    exact hall moment hm

/-- A path whose numbers are cut off loses its log in the first rotation. -/
theorem not_rotatesSafely (hlen : (c_str path).length = 510) : ¬ RotatesSafely path := by
  intro h
  let now : Tm := ⟨0, 0, 0, 0, 0, 0⟩
  let c : LogCall := ⟨LOG_LEVEL_INFO, [], 0, 0, true⟩
  obtain ⟨d, hd⟩ : ∃ d, d + 1 = kChangeLine := ⟨999999, by decide⟩
  have hfew : d + 1 < 4294967296 := by
    rw [hd]
    decide
  have hsession := h (fun _ => now) 0 LOG_LEVEL_INFO (List.replicate (d + 1) c)
    (by rwa [List.length_replicate]) (fun c' hc => by rw [List.eq_of_mem_replicate hc])
  rw [throughout_session] at hsession
  have hcount : ((new path now).1.SetLevel LOG_LEVEL_INFO).m_count + d + 1 = kChangeLine := by
    rw [← hd]
    exact congrArg (· + 1) (Nat.zero_add d)
  exact not_throughout_logAll (ready_new path now LOG_LEVEL_INFO) (Int.le_refl _) rfl hlen
    alone_create rfl hcount (fun hpos => absurd hpos (Nat.lt_irrefl 0)) hsession

/-- A directory with a name of 255 bytes, and a file with one of 254. -/
def cutPath : Bytes := List.replicate 255 97 ++ 47 :: List.replicate 254 97

theorem cutPath_loses : ¬ RotatesSafely cutPath := by
  have hall : c_str cutPath = cutPath := by
    apply List.takeWhile_eq_self_iff.mpr
    intro x hx
    simp only [cutPath, List.mem_append, List.mem_cons, List.mem_replicate] at hx
    rcases hx with hx | hx | hx
    · simp [hx.2]
    · simp [hx]
    · simp [hx.2]
  apply not_rotatesSafely
  rw [hall, cutPath, List.length_append, List.length_cons, List.length_replicate,
    List.length_replicate]

/-- Rotation by count loses only the oldest file, unless the path leaves room for the dot
and not for the number. -/
theorem rotatesSafely_iff (path : Bytes) : RotatesSafely path ↔ (c_str path).length ≠ 510 := by
  constructor
  · exact fun h hlen => not_rotatesSafely hlen h
  · intro hlen localtime_r timep level calls _ hopens
    rw [throughout_session]
    have hready := ready_new path (localtime_r timep) level
    by_cases hfits : (c_str path).length ≤ 509
    · exact throughout_logAll hready (settled_create rfl) hfits hopens
    · exact (alone_create.append (logAll_filled hready (by omega) hopens)).1

end Sessions

end CLogger

end CommonCc
