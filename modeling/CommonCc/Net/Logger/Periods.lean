import CommonCc.Lib.Calendar
import CommonCc.Net.Logger.Model

/-!
# Rotation by time

What a call of `Log` does in the modes hour, day and month, on a directory that keeps with each
text the local time it was written at.
-/

namespace CommonCc

/-! ## Local times -/

/-- The local time of a zone without offset. -/
def gmtime (t : Int) : Tm :=
  let date := Date.ofDays (t / 86400)
  { tm_year := date.year - 1900, tm_mon := date.month - 1, tm_mday := date.day,
    tm_hour := t % 86400 / 3600, tm_min := t % 3600 / 60, tm_sec := t % 60 }

/-- A directory that keeps the local time of each text. -/
abbrev Dated := Files Bytes (Tm × Bytes)

/-- A system call at the local time `now`. -/
def SysCall.runAt (now : Tm) (fs : Dated) : SysCall → Dated
  | .create path => fs.openAppend path
  | .close _ => fs
  | .rename source target => fs.rename source target
  | .remove path => fs.remove path
  | .write fd text => fs.append fd (now, text)

/-- Without the times it is the directory of the texts. -/
theorem SysCall.map_runAt (now : Tm) (fs : Dated) (c : SysCall) :
    (SysCall.runAt now fs c).map Prod.snd = SysCall.run (fs.map Prod.snd) c := by
  cases c with
  | create path => exact Files.map_openAppend ..
  | close fd => rfl
  | rename source target => exact Files.map_rename ..
  | remove path => exact Files.map_remove ..
  | write fd text => exact Files.map_append ..

namespace CLogger

/-- The modes that look at the time. -/
def Timed (mode : LogChange) : Prop := mode = .hour ∨ mode = .day ∨ mode = .month

instance (mode : LogChange) : Decidable (Timed mode) := by
  unfold Timed
  infer_instance

/-- The field that `ChangeHour` and its siblings compare. -/
def field (mode : LogChange) (t : Tm) : Int :=
  match mode with
  | .hour => t.tm_hour
  | .day => t.tm_mday
  | .month => t.tm_mon
  | _ => 0

/-- The calendar hour, day or month of a time. -/
def period (mode : LogChange) (t : Tm) : List Int :=
  match mode with
  | .hour => [t.tm_year, t.tm_mon, t.tm_mday, t.tm_hour]
  | .day => [t.tm_year, t.tm_mon, t.tm_mday]
  | .month => [t.tm_year, t.tm_mon]
  | _ => []

/-- The period in the name of a file. -/
def periodText (mode : LogChange) (t : Tm) : Bytes :=
  match mode with
  | .hour => t.hour
  | .day => t.day
  | .month => t.month
  | _ => []

/-- How far `DeleteHistory` goes back, in seconds. -/
def goesBack (mode : LogChange) : Int :=
  match mode with
  | .hour => kChangeHourFileNum * 3600
  | .day => kChangeHourFileNum * 3600 * 24
  | .month => kChangeHourFileNum * 3600 * 24 * 30
  | _ => 0

/-- The file that a rotation makes for the period of the last one. -/
def target (mode : LogChange) (l : CLogger) : Bytes := l.periodFile (periodText mode l.m_last_time)

/-- The file that `DeleteHistory` removes. -/
def deleted (localtime_r : Int → Tm) (mode : LogChange) (l : CLogger) (timep : Int) : Bytes :=
  l.periodFile (periodText mode (localtime_r (timep - goesBack mode)))

/-! ## One call -/

/-- The log file is open and rotates by time. -/
structure Timing (mode : LogChange) (path : Bytes) (l : CLogger) : Prop where
  timed : Timed mode
  name : c_str l.m_path = path
  fd : l.m_fd = some path
  change : l.m_change_type = mode

section

variable {localtime_r : Int → Tm} {mode : LogChange} {path : Bytes} {l : CLogger} {c : LogCall}

/-- The three modes are one. -/
theorem ChangeFile_timed (h : Timed mode) (hchange : l.m_change_type = mode) :
    ChangeFile localtime_r l c =
      if field mode l.m_last_time = field mode l.m_time then (l, [])
      else l.changePeriod localtime_r c (periodText mode) := by
  rw [ChangeFile, hchange]
  rcases h with rfl | rfl | rfl
  · rfl
  · rfl
  · rfl

theorem DeleteHistory_timed (h : Timed mode) (hchange : l.m_change_type = mode) (timep : Int) :
    DeleteHistory localtime_r l timep = [.remove (deleted localtime_r mode l timep)] := by
  rw [DeleteHistory, hchange]
  rcases h with rfl | rfl | rfl
  · rfl
  · rfl
  · rfl

theorem periodFile_congr {l' : CLogger} (h : l'.m_path = l.m_path) (text : Bytes) :
    l'.periodFile text = l.periodFile text := by
  rw [periodFile, periodFile, h]

/-- The name is cut off to the path itself when the path is as long as the buffer. -/
theorem periodFile_eq_path_iff (hname : c_str l.m_path = path) (text : Bytes) :
    l.periodFile text = path ↔ path.length = 511 := by
  rw [periodFile, hname, snprintf, List.append_assoc]
  constructor
  · intro h
    have hlen := congrArg List.length h
    rw [List.length_take, List.length_append, List.length_append] at hlen
    simp only [ascii, List.length_map, List.length_singleton] at hlen
    omega
  · intro h
    rw [List.take_append_of_le_length (by omega), List.take_of_length_le (by omega)]

theorem periodFile_ne_path (hname : c_str l.m_path = path) (hpath : path.length ≠ 511)
    (text : Bytes) : l.periodFile text ≠ path :=
  fun he => hpath ((periodFile_eq_path_iff hname text).mp he)

theorem changePeriod_of_open (h : Timing mode path l) (hopens : c.opens = true)
    (text : Tm → Bytes) :
    l.changePeriod localtime_r c text =
      ({ l with m_last_time := l.m_time },
        [.close path, .rename path (l.periodFile (text l.m_last_time)), .create path,
          .remove (deleted localtime_r mode l c.timep_delete)]) := by
  have hopen : ({ l with m_last_time := l.m_time } : CLogger).openPath c.opens =
      ({ l with m_last_time := l.m_time }, [.create path]) := by
    rw [openPath, hopens, if_pos rfl]
    dsimp only
    rw [h.name, ← h.fd]
  have hdelete : DeleteHistory localtime_r { l with m_last_time := l.m_time } c.timep_delete =
      [.remove (deleted localtime_r mode l c.timep_delete)] :=
    DeleteHistory_timed h.timed h.change c.timep_delete
  unfold changePeriod
  split
  · next hnone => exact absurd (h.fd.symm.trans hnone) (by simp)
  · next fd hsome =>
      obtain rfl := Option.some.inj (h.fd.symm.trans hsome)
      dsimp only
      rw [hopen, h.name]
      dsimp only
      rw [hdelete]
      rfl

/-- What a call at the threshold or above does first. -/
theorem Log_of_level (h : Timing mode path l) (hlevel : l.m_log_level ≤ c.level) :
    Log localtime_r l c =
      let changed := ChangeFile localtime_r
        { l with m_time := localtime_r c.timep, m_count := u32 (l.m_count + 1) } c
      (changed.1, changed.2 ++ changed.1.line c) := by
  have hfd : l.m_fd ≠ none := by simp [h.fd]
  rw [Log, if_neg hfd, if_neg (Int.not_lt.mpr hlevel)]

theorem Log_low (hlevel : c.level < l.m_log_level) : Log localtime_r l c = (l, []) := by
  unfold Log
  by_cases hfd : l.m_fd = none
  · rw [if_pos hfd]
  · rw [if_neg hfd, if_pos hlevel]

/-- The file stays when the field does. -/
theorem Log_same (h : Timing mode path l) (hlevel : l.m_log_level ≤ c.level)
    (hfield : field mode l.m_last_time = field mode (localtime_r c.timep)) :
    ∃ l' a b, Log localtime_r l c = (l', [.write path a, .write path b]) ∧
      Timing mode path l' ∧ l'.m_path = l.m_path ∧ l'.m_log_level = l.m_log_level ∧
      l'.m_last_time = l.m_last_time := by
  rw [Log_of_level h hlevel]
  generalize hl₁ : ({ l with
    m_time := localtime_r c.timep
    m_count := u32 (l.m_count + 1) } : CLogger) = l₁
  have hfd₁ : l₁.m_fd = some path := by rw [← hl₁, ← h.fd]
  have htiming : Timing mode path l₁ :=
    ⟨h.timed, by rw [← hl₁, h.name], hfd₁, by rw [← hl₁, h.change]⟩
  have hsame : field mode l₁.m_last_time = field mode l₁.m_time := by
    rw [← hl₁]
    exact hfield
  refine ⟨l₁, l₁.m_time.stamp, c_str (snprintf l₁.m_buf_len c.message), ?_, htiming,
    by rw [← hl₁], by rw [← hl₁], by rw [← hl₁]⟩
  rw [ChangeFile_timed h.timed htiming.change, if_pos hsame]
  dsimp only
  rw [line, write, write, hfd₁]
  rfl

/-- The file changes when the field does. -/
theorem Log_rotates (h : Timing mode path l) (hlevel : l.m_log_level ≤ c.level)
    (hopens : c.opens = true)
    (hfield : field mode l.m_last_time ≠ field mode (localtime_r c.timep)) :
    ∃ l' a b, Log localtime_r l c = (l', [.close path, .rename path (target mode l), .create path,
        .remove (deleted localtime_r mode l c.timep_delete), .write path a, .write path b]) ∧
      Timing mode path l' ∧ l'.m_path = l.m_path ∧ l'.m_log_level = l.m_log_level ∧
      l'.m_last_time = localtime_r c.timep := by
  rw [Log_of_level h hlevel]
  generalize hl₁ : ({ l with
    m_time := localtime_r c.timep
    m_count := u32 (l.m_count + 1) } : CLogger) = l₁
  have hfd₁ : l₁.m_fd = some path := by rw [← hl₁, ← h.fd]
  have hpath₁ : l₁.m_path = l.m_path := by rw [← hl₁]
  have hlast₁ : l₁.m_last_time = l.m_last_time := by rw [← hl₁]
  have htime₁ : l₁.m_time = localtime_r c.timep := by rw [← hl₁]
  have htiming : Timing mode path l₁ :=
    ⟨h.timed, by rw [hpath₁, h.name], hfd₁, by rw [← hl₁, h.change]⟩
  have hchanged : ChangeFile localtime_r l₁ c = ({ l₁ with m_last_time := l₁.m_time },
      [.close path, .rename path (target mode l), .create path,
        .remove (deleted localtime_r mode l c.timep_delete)]) := by
    rw [ChangeFile_timed h.timed htiming.change, hlast₁, htime₁, if_neg hfield,
      changePeriod_of_open htiming hopens, hlast₁, htime₁, target, deleted, deleted,
      periodFile_congr hpath₁, periodFile_congr hpath₁]
  refine ⟨{ l₁ with m_last_time := l₁.m_time }, l₁.m_time.stamp,
    c_str (snprintf l₁.m_buf_len c.message), ?_,
    ⟨h.timed, htiming.name, htiming.fd, htiming.change⟩, hpath₁, by rw [← hl₁], htime₁⟩
  rw [hchanged]
  dsimp only
  rw [line, write, write]
  dsimp only
  rw [hfd₁]
  rfl

end

/-! ## Runs -/

/-- A logger with its directory.  `turns` are the files that it has rotated to, the newest first,
with the times that named them. -/
structure LogRun where
  logger : CLogger
  dir : Dated
  turns : List (Bytes × Tm)

/-- The rotations among the system calls of a logger that made its file at `last`. -/
def turnsOf (last : Tm) (calls : List SysCall) : List (Bytes × Tm) :=
  calls.filterMap fun
    | .rename _ name => some (name, last)
    | _ => none

namespace LogRun

/-- A logger is made, and its level and mode are set. -/
def start (localtime_r : Int → Tm) (path : Bytes) (timep level : Int) (mode : LogChange)
    (dir : Dated) : LogRun :=
  let made := CLogger.new path (localtime_r timep)
  { logger := (made.1.SetLevel level).SetChange mode
    dir := made.2.foldl (SysCall.runAt (localtime_r timep)) dir
    turns := [] }

/-- A call of `Log`. -/
def log (localtime_r : Int → Tm) (r : LogRun) (c : LogCall) : LogRun :=
  let logged := Log localtime_r r.logger c
  { logger := logged.1
    dir := logged.2.foldl (SysCall.runAt (localtime_r c.timep)) r.dir
    turns := turnsOf r.logger.m_last_time logged.2 ++ r.turns }

def after (localtime_r : Int → Tm) (r : LogRun) (calls : List LogCall) : LogRun :=
  calls.foldl (log localtime_r) r

/-- The call logs a line. -/
def Logs (r : LogRun) (c : LogCall) : Prop := r.logger.m_log_level ≤ c.level

instance (r : LogRun) (c : LogCall) : Decidable (r.Logs c) := by
  unfold Logs
  infer_instance

/-- The call changes the file. -/
def Rotates (localtime_r : Int → Tm) (mode : LogChange) (r : LogRun) (c : LogCall) : Prop :=
  r.Logs c ∧ field mode r.logger.m_last_time ≠ field mode (localtime_r c.timep)

instance (localtime_r : Int → Tm) (mode : LogChange) (r : LogRun) (c : LogCall) :
    Decidable (r.Rotates localtime_r mode c) := by
  unfold Rotates
  infer_instance

section

variable {localtime_r : Int → Tm} {mode : LogChange} {path : Bytes} {r : LogRun} {c : LogCall}

/-- The texts of the directory are those that the system calls leave. -/
theorem map_dir_log : (r.log localtime_r c).dir.map Prod.snd =
    (Log localtime_r r.logger c).2.foldl SysCall.run (r.dir.map Prod.snd) := by
  unfold log
  dsimp only
  generalize (Log localtime_r r.logger c).2 = calls
  generalize r.dir = dir
  induction calls generalizing dir with
  | nil => rfl
  | cons call calls ih => rw [List.foldl_cons, List.foldl_cons, ih, SysCall.map_runAt]

theorem log_low (h : ¬ r.Logs c) : r.log localtime_r c = r := by
  rw [log, Log_low (Int.not_le.mp h)]
  rfl

theorem log_same (h : Timing mode path r.logger) (hlogs : r.Logs c)
    (hstay : ¬ r.Rotates localtime_r mode c) :
    ∃ a b, (r.log localtime_r c).dir =
        (r.dir.append path (localtime_r c.timep, a)).append path (localtime_r c.timep, b) ∧
      (r.log localtime_r c).turns = r.turns ∧ Timing mode path (r.log localtime_r c).logger ∧
      (r.log localtime_r c).logger.m_path = r.logger.m_path ∧
      (r.log localtime_r c).logger.m_log_level = r.logger.m_log_level ∧
      (r.log localtime_r c).logger.m_last_time = r.logger.m_last_time ∧
      field mode r.logger.m_last_time = field mode (localtime_r c.timep) := by
  have hfield : field mode r.logger.m_last_time = field mode (localtime_r c.timep) :=
    not_not.mp fun hne => hstay ⟨hlogs, hne⟩
  obtain ⟨l', a, b, hlog, htiming, hpath, hlevel, hlast⟩ := Log_same h hlogs hfield
  exists a, b
  rw [log, hlog]
  exact ⟨rfl, rfl, htiming, hpath, hlevel, hlast, hfield⟩

theorem log_rotates (h : Timing mode path r.logger) (hrotates : r.Rotates localtime_r mode c)
    (hopens : c.opens = true) :
    ∃ a b, (r.log localtime_r c).dir =
        r.dir.turn path (target mode r.logger)
          (deleted localtime_r mode r.logger c.timep_delete) (localtime_r c.timep, a)
          (localtime_r c.timep, b) ∧
      (r.log localtime_r c).turns = (target mode r.logger, r.logger.m_last_time) :: r.turns ∧
      Timing mode path (r.log localtime_r c).logger ∧
      (r.log localtime_r c).logger.m_path = r.logger.m_path ∧
      (r.log localtime_r c).logger.m_log_level = r.logger.m_log_level ∧
      (r.log localtime_r c).logger.m_last_time = localtime_r c.timep := by
  obtain ⟨l', a, b, hlog, htiming, hpath, hlevel, hlast⟩ :=
    Log_rotates h hrotates.1 hopens hrotates.2
  exists a, b
  rw [log, hlog]
  exact ⟨rfl, rfl, htiming, hpath, hlevel, hlast⟩

theorem start_timing (localtime_r : Int → Tm) (path : Bytes) (timep level : Int)
    (hmode : Timed mode) (dir : Dated) :
    Timing mode (c_str path) (start localtime_r path timep level mode dir).logger :=
  ⟨hmode, rfl, rfl, rfl⟩

end

end LogRun

end CLogger

end CommonCc
