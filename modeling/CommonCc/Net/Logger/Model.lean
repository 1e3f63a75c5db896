import CommonCc.Base
import CommonCc.Lib.Files
import CommonCc.Lib.Transition

/-!
# The log file writer

`CLogger` as the system calls it makes.  A descriptor is the name it was opened under: the
code closes its file before any rename.  What the calls do to the directory is the business
of `SysCall.run`.
-/

namespace CommonCc

/-- The system calls of the logger. -/
inductive SysCall where
  | create (path : Bytes)
  | close (fd : Bytes)
  | rename (source target : Bytes)
  | remove (path : Bytes)
  | write (fd text : Bytes)
deriving Repr, DecidableEq

/-- What a system call does to the directory.  A file is the list of what each `write`
appended to it. -/
def SysCall.run (fs : Files Bytes Bytes) : SysCall → Files Bytes Bytes
  | .create path => fs.openAppend path
  | .close _ => fs
  | .rename source target => fs.rename source target
  | .remove path => fs.remove path
  | .write fd text => fs.append fd text

/-! ## Formatting -/

/-- A string up to its terminating zero. -/
def c_str (s : Bytes) : Bytes := s.takeWhile (· ≠ 0)

/-- What `snprintf` leaves in a buffer of `size` characters. -/
def snprintf (size : Nat) (text : Bytes) : Bytes := text.take (size - 1)

/-- `%0wd` of `printf`. -/
def printPadded (w : Nat) (z : Int) : Bytes :=
  let digits := decimal z.natAbs
  let sign := if z < 0 then [45] else []
  sign ++ List.replicate (w - sign.length - digits.length) 48 ++ digits

/-- `struct tm`, as far as it is read. -/
structure Tm where
  tm_year : Int
  tm_mon : Int
  tm_mday : Int
  tm_hour : Int
  tm_min : Int
  tm_sec : Int
deriving Repr, DecidableEq

def Tm.month (t : Tm) : Bytes := printPadded 4 (1900 + t.tm_year) ++ printPadded 2 (t.tm_mon + 1)

def Tm.day (t : Tm) : Bytes := t.month ++ printPadded 2 t.tm_mday

def Tm.hour (t : Tm) : Bytes := t.day ++ printPadded 2 t.tm_hour

/-- The time in front of a line. -/
def Tm.stamp (t : Tm) : Bytes :=
  ascii ['['] ++ printPadded 4 (1900 + t.tm_year) ++ ascii ['-'] ++ printPadded 2 (t.tm_mon + 1) ++
    ascii ['-'] ++ printPadded 2 t.tm_mday ++ ascii [' '] ++ printPadded 2 t.tm_hour ++
    ascii [':'] ++ printPadded 2 t.tm_min ++ ascii [':'] ++ printPadded 2 t.tm_sec ++ ascii [']']

/-! ## Settings -/

def LOG_LEVEL_INFO : Int := 2

/-- When the logger starts a new file: `LOG_CHANGE_HOUR` and its siblings.  `other` stands for
a value that is none of them. -/
inductive LogChange where
  | hour
  | day
  | month
  | num
  | other
deriving Repr, DecidableEq

def kChangeLine : Nat := 1000000

def kChangeLineFileNum : Nat := 10

def kChangeHourFileNum : Int := 3

/-- Nothing in the code reads this one and the next. -/
def kChangeDayFileNum : Int := 10

def kChangeMonthFileNum : Int := 10

structure CLogger where
  m_path : Bytes
  /-- `none` is a negative descriptor. -/
  m_fd : Option Bytes
  m_log_level : Int
  m_change_type : LogChange
  m_count : Nat
  m_buf_len : Nat
  m_time : Tm
  m_last_time : Tm
deriving Repr, DecidableEq

/-- A call of `Log`: its arguments, with the text that the format expands to, the clock at
the two places where it is read, and whether a file can be opened during the call. -/
structure LogCall where
  level : Int
  message : Bytes
  timep : Int
  timep_delete : Int
  opens : Bool
deriving Repr, DecidableEq

namespace CLogger

/-- Open the log file for appending. -/
def openPath (l : CLogger) (opens : Bool) : CLogger × List SysCall :=
  let path := c_str l.m_path
  if opens then ({ l with m_fd := some path }, [.create path])
  else ({ l with m_fd := none }, [])

/-- `write` to the log file. -/
def write (l : CLogger) (text : Bytes) : List SysCall :=
  match l.m_fd with
  | none => []
  | some fd => [.write fd text]

/-! ## Rotation by count -/

/-- `file1` of round `i`. -/
def file1 (l : CLogger) (i : Nat) : Bytes :=
  snprintf 512 (c_str l.m_path ++ ascii ['.'] ++ decimal i)

/-- `file2` of round `i`. -/
def file2 (l : CLogger) (i : Nat) : Bytes :=
  if i = 1 then snprintf 512 (c_str l.m_path)
  else snprintf 512 (c_str l.m_path ++ ascii ['.'] ++ decimal (i - 1))

/-- The rounds `i`, ..., `1` of the loop of `ChangeNum`. -/
def renames (l : CLogger) : Nat → List SysCall
  | 0 => []
  | i + 1 => .rename (l.file2 (i + 1)) (l.file1 (i + 1)) :: l.renames i

def ChangeNum (l : CLogger) (opens : Bool) : CLogger × List SysCall :=
  if l.m_count % kChangeLine ≠ 0 then (l, [])
  else
    match l.m_fd with
    | none => (l, [])
    | some fd =>
        let opened := l.openPath opens
        (opened.1, .close fd :: l.renames (kChangeLineFileNum - 1) ++ opened.2)

/-! ## Rotation by time -/

/-- The name of the file of one period. -/
def periodFile (l : CLogger) (period : Bytes) : Bytes :=
  snprintf 512 (c_str l.m_path ++ ascii ['.'] ++ period)

def DeleteHistory (localtime_r : Int → Tm) (l : CLogger) (timep : Int) : List SysCall :=
  match l.m_change_type with
  | .hour => [.remove (l.periodFile (localtime_r (timep - kChangeHourFileNum * 3600)).hour)]
  | .day => [.remove (l.periodFile (localtime_r (timep - kChangeHourFileNum * 3600 * 24)).day)]
  | .month =>
      [.remove (l.periodFile (localtime_r (timep - kChangeHourFileNum * 3600 * 24 * 30)).month)]
  | _ => []

/-- Move the file of the last period away and start a new one. -/
def changePeriod (localtime_r : Int → Tm) (l : CLogger) (c : LogCall) (period : Tm → Bytes) :
    CLogger × List SysCall :=
  match l.m_fd with
  | none => (l, [])
  | some fd =>
      let file1 := l.periodFile (period l.m_last_time)
      let opened := openPath { l with m_last_time := l.m_time } c.opens
      (opened.1, .close fd :: .rename (c_str l.m_path) file1 :: opened.2 ++
        opened.1.DeleteHistory localtime_r c.timep_delete)

def ChangeHour (localtime_r : Int → Tm) (l : CLogger) (c : LogCall) : CLogger × List SysCall :=
  if l.m_last_time.tm_hour = l.m_time.tm_hour then (l, [])
  else l.changePeriod localtime_r c Tm.hour

def ChangeDay (localtime_r : Int → Tm) (l : CLogger) (c : LogCall) : CLogger × List SysCall :=
  if l.m_last_time.tm_mday = l.m_time.tm_mday then (l, [])
  else l.changePeriod localtime_r c Tm.day

def ChangeMonth (localtime_r : Int → Tm) (l : CLogger) (c : LogCall) : CLogger × List SysCall :=
  if l.m_last_time.tm_mon = l.m_time.tm_mon then (l, [])
  else l.changePeriod localtime_r c Tm.month

/-! ## Logging -/

def ChangeFile (localtime_r : Int → Tm) (l : CLogger) (c : LogCall) : CLogger × List SysCall :=
  match l.m_change_type with
  | .num => l.ChangeNum c.opens
  | .hour => l.ChangeHour localtime_r c
  | .month => l.ChangeMonth localtime_r c
  | .day => l.ChangeDay localtime_r c
  | .other => (l, [])

/-- The two writes of a line. -/
def line (l : CLogger) (c : LogCall) : List SysCall :=
  l.write l.m_time.stamp ++ l.write (c_str (snprintf l.m_buf_len c.message))

def Log (localtime_r : Int → Tm) (l : CLogger) (c : LogCall) : CLogger × List SysCall :=
  if l.m_fd = none then (l, [])
  else if c.level < l.m_log_level then (l, [])
  else
    let changed := ChangeFile localtime_r
      { l with m_time := localtime_r c.timep, m_count := u32 (l.m_count + 1) } c
    (changed.1, changed.2 ++ changed.1.line c)

/-- The constructor, where the log file can be opened. -/
def new (log_file : Bytes) (now : Tm) : CLogger × List SysCall :=
  openPath
    { m_path := log_file, m_fd := none, m_log_level := LOG_LEVEL_INFO, m_change_type := .num,
      m_count := 0, m_buf_len := 1024 * 100, m_time := now, m_last_time := now } true

def SetLevel (l : CLogger) (level : Int) : CLogger := { l with m_log_level := level }

def SetChange (l : CLogger) (type : LogChange) : CLogger := { l with m_change_type := type }

end CLogger

end CommonCc
