import CommonCc.Lib.Transition
import CommonCc.Net.Logger.Periods
import CommonCc.Numbers
import Mathlib.Data.Finset.Card

/-!
# Old files

Which files `DeleteHistory` removes, and how many stay.
-/

namespace CommonCc

/-! ## Names of periods -/

theorem digitsValue_zeros (n : Nat) (ds : Bytes) :
    digitsValue (List.replicate n 48 ++ ds) = digitsValue ds := by
  induction n with
  | zero => rfl
  | succ n ih => exact ih

/-- Only a negative number starts with a sign. -/
theorem printPadded_of_neg {w : Nat} {z : Int} (h : z < 0) :
    ∃ n, printPadded w z = 45 :: (List.replicate n 48 ++ decimal z.natAbs) := by
  unfold printPadded
  rw [if_pos h]
  exact ⟨_, rfl⟩

theorem printPadded_of_nonneg {w : Nat} {z : Int} (h : ¬ z < 0) :
    ∃ n, printPadded w z = List.replicate n 48 ++ decimal z.natAbs := by
  unfold printPadded
  rw [if_neg h]
  exact ⟨_, rfl⟩

theorem isDigit_of_mem_padded {n k : Nat} {c : UInt8} (h : c ∈ List.replicate n 48 ++ decimal k) :
    isDigit c = true := by
  rcases List.mem_append.mp h with h | h
  · rw [List.eq_of_mem_replicate h]
    rfl
  · exact isDigit_of_mem_decimal h

theorem padded_injective {n n' k k' : Nat}
    (h : List.replicate n 48 ++ decimal k = List.replicate n' 48 ++ decimal k') : k = k' := by
  have hvalue := congrArg digitsValue h
  rwa [digitsValue_zeros, digitsValue_zeros, digitsValue_decimal, digitsValue_decimal] at hvalue

theorem printPadded_injective {w : Nat} {z z' : Int} (h : printPadded w z = printPadded w z') :
    z = z' := by
  by_cases hz : z < 0
  · rcases printPadded_of_neg (w := w) hz with ⟨n, hn⟩
    by_cases hz' : z' < 0
    · rcases printPadded_of_neg (w := w) hz' with ⟨n', hn'⟩
      rw [hn, hn'] at h
      have habs := padded_injective (List.cons.inj h).2
      omega
    · rcases printPadded_of_nonneg (w := w) hz' with ⟨n', hn'⟩
      rw [hn, hn'] at h
      exact absurd (isDigit_of_mem_padded (h ▸ List.mem_cons_self)) (by decide)
  · rcases printPadded_of_nonneg (w := w) hz with ⟨n, hn⟩
    by_cases hz' : z' < 0
    · rcases printPadded_of_neg (w := w) hz' with ⟨n', hn'⟩
      rw [hn, hn'] at h
      exact absurd (isDigit_of_mem_padded (h ▸ List.mem_cons_self)) (by decide)
    · rcases printPadded_of_nonneg (w := w) hz' with ⟨n', hn'⟩
      rw [hn, hn'] at h
      have habs := padded_injective h
      omega

/-- A number of one or two digits takes two characters. -/
theorem printPadded_two_length {z : Int} (h : 0 ≤ z) (h' : z < 100) :
    (printPadded 2 z).length = 2 := by
  have hlen : (decimal z.natAbs).length ≤ 2 := decimal_length_le (k := 1) (by omega)
  unfold printPadded
  rw [if_neg (by omega)]
  dsimp only
  rw [List.nil_append, List.length_append, List.length_replicate, List.length_nil]
  omega

/-- The ranges of the fields that are printed. -/
structure Tm.InRange (t : Tm) : Prop where
  mon : 0 ≤ t.tm_mon ∧ t.tm_mon ≤ 11
  mday : 1 ≤ t.tm_mday ∧ t.tm_mday ≤ 31
  hour : 0 ≤ t.tm_hour ∧ t.tm_hour ≤ 23

theorem gmtime_inRange (t : Int) : (gmtime t).InRange := by
  have hvalid := Date.valid_ofDays (t / 86400)
  unfold gmtime
  refine ⟨?_, ⟨hvalid.day_pos, hvalid.day_le⟩, ?_⟩
  · have hpos := hvalid.month_pos
    have hle := hvalid.month_le
    dsimp only
    omega
  · dsimp only
    omega

section

variable {s t : Tm}

/-- Two digits at the end of a text can be told from what is before them. -/
theorem append_padded_injective {v w : Bytes} {y z : Int} (hy : 0 ≤ y ∧ y < 100)
    (hz : 0 ≤ z ∧ z < 100) (h : v ++ printPadded 2 y = w ++ printPadded 2 z) : v = w ∧ y = z := by
  have hlen : (printPadded 2 y).length = (printPadded 2 z).length := by
    rw [printPadded_two_length hy.1 hy.2, printPadded_two_length hz.1 hz.2]
  have hparts := List.append_inj' h hlen
  exact ⟨hparts.1, printPadded_injective hparts.2⟩

theorem Tm.month_injective (hs : s.InRange) (ht : t.InRange) (h : s.month = t.month) :
    s.tm_year = t.tm_year ∧ s.tm_mon = t.tm_mon := by
  have hsmon := hs.mon
  have htmon := ht.mon
  have hparts := append_padded_injective (by omega) (by omega) h
  have hyear := printPadded_injective hparts.1
  omega

theorem Tm.day_injective (hs : s.InRange) (ht : t.InRange) (h : s.day = t.day) :
    s.month = t.month ∧ s.tm_mday = t.tm_mday := by
  have hsday := hs.mday
  have htday := ht.mday
  exact append_padded_injective (by omega) (by omega) h

theorem Tm.hour_injective (hs : s.InRange) (ht : t.InRange) (h : s.hour = t.hour) :
    s.day = t.day ∧ s.tm_hour = t.tm_hour := by
  have hshour := hs.hour
  have hthour := ht.hour
  exact append_padded_injective (by omega) (by omega) h

end

namespace CLogger

/-- The hours, days or months up to a time, so that ages are differences. -/
def number (mode : LogChange) (t : Tm) : Int :=
  let days := Date.toDays ⟨1900 + t.tm_year, t.tm_mon + 1, t.tm_mday⟩
  match mode with
  | .hour => 24 * days + t.tm_hour
  | .day => days
  | .month => 12 * t.tm_year + t.tm_mon
  | _ => 0

/-- The period in a file's name tells its number. -/
theorem number_of_periodText {mode : LogChange} {s t : Tm} (hmode : Timed mode) (hs : s.InRange)
    (ht : t.InRange) (h : periodText mode s = periodText mode t) :
    number mode s = number mode t := by
  rcases hmode with rfl | rfl | rfl
  · have hhour := Tm.hour_injective hs ht h
    have hday := Tm.day_injective hs ht hhour.1
    have hmonth := Tm.month_injective hs ht hday.1
    unfold number
    rw [hmonth.1, hmonth.2, hday.2, hhour.2]
  · have hday := Tm.day_injective hs ht h
    have hmonth := Tm.month_injective hs ht hday.1
    unfold number
    rw [hmonth.1, hmonth.2, hday.2]
  · have hmonth := Tm.month_injective hs ht h
    unfold number
    rw [hmonth.1, hmonth.2]

/-- Without an offset, `DeleteHistory` goes back by three hours or days. -/
theorem number_goesBack {mode : LogChange} (hmode : mode = .hour ∨ mode = .day) (t : Int) :
    number mode (gmtime t) - number mode (gmtime (t - goesBack mode)) = 3 := by
  have hdays : ∀ t : Int, Date.toDays ⟨1900 + (gmtime t).tm_year, (gmtime t).tm_mon + 1,
      (gmtime t).tm_mday⟩ = t / 86400 := by
    intro t
    have hyear : 1900 + ((Date.ofDays (t / 86400)).year - 1900) =
        (Date.ofDays (t / 86400)).year := by
      omega
    unfold gmtime
    dsimp only
    rw [hyear, Int.sub_add_cancel]
    exact Date.toDays_ofDays _
  rcases hmode with rfl | rfl
  · unfold number
    dsimp only
    rw [hdays, hdays]
    unfold gmtime goesBack kChangeHourFileNum
    dsimp only
    omega
  · unfold number
    dsimp only
    rw [hdays, hdays]
    unfold goesBack kChangeHourFileNum
    dsimp only
    omega

/-! ## What is kept -/

/-- How many files of periods the header asks for. -/
def fileNum (mode : LogChange) : Int :=
  match mode with
  | .hour => kChangeHourFileNum
  | .day => kChangeDayFileNum
  | .month => kChangeMonthFileNum
  | _ => 0

/-- The files that the calls remove, each with the directory that it is removed from. -/
def removals (now : Tm) : Dated → List SysCall → List (Dated × Bytes)
  | _, [] => []
  | fs, .remove name :: calls => (fs, name) :: removals now (fs.remove name) calls
  | fs, call :: calls => removals now (SysCall.runAt now fs call) calls

/-- The rotated files that are there. -/
def LogRun.rotated (r : LogRun) : Finset Bytes :=
  (r.turns.map Prod.fst).toFinset.filter fun name => (r.dir name).isSome

/-- A rotated file of the period of `q`: this logger made it, or it has the name of one. -/
def Rotated (mode : LogChange) (path : Bytes) (turns : List (Bytes × Tm)) (name : Bytes) (q : Tm) :
    Prop :=
  (name, q) ∈ turns ∨ q.InRange ∧ name = path ++ ascii ['.'] ++ periodText mode q

/-- The call removes no rotated file that is too young, and leaves not too many. -/
structure Retains (localtime_r : Int → Tm) (mode : LogChange) (path : Bytes) (r : LogRun)
    (c : LogCall) : Prop where
  spares : ∀ x ∈ removals (localtime_r c.timep) r.dir (Log localtime_r r.logger c).2,
    (x.1 x.2).isSome → ∀ q, Rotated mode path (r.log localtime_r c).turns x.2 q →
      fileNum mode ≤ number mode (localtime_r c.timep_delete) - number mode q
  few : ((r.log localtime_r c).rotated.card : Int) ≤ fileNum mode

/-- The name of a period's file fits into its buffer. -/
def Uncut (mode : LogChange) (path : Bytes) (q : Tm) : Prop :=
  (path ++ ascii ['.'] ++ periodText mode q).length ≤ 511

/-- So do the names that the call removes and makes, and those of the rotated files. -/
def Fits (localtime_r : Int → Tm) (mode : LogChange) (path : Bytes) (r : LogRun) (c : LogCall) :
    Prop :=
  ∀ q ∈ localtime_r (c.timep_delete - goesBack mode) :: r.logger.m_last_time ::
    r.turns.map Prod.snd, Uncut mode path q

/-- A rotation that meets the file of the past period only where that is old enough, and that
has room for one more file where it is not one of the logger's. -/
def Clears (localtime_r : Int → Tm) (mode : LogChange) (path : Bytes) (r : LogRun) (c : LogCall) :
    Prop :=
  r.Rotates localtime_r mode c →
    let past := localtime_r (c.timep_delete - goesBack mode)
    let name := r.logger.periodFile (periodText mode past)
    let files := insert (target mode r.logger) r.rotated
    (name = target mode r.logger ∨ (r.dir name).isSome →
      fileNum mode ≤ number mode (localtime_r c.timep_delete) - number mode past ∧
        Fits localtime_r mode path r c) ∧
    (name ∉ files → (files.card : Int) ≤ fileNum mode)

instance (mode : LogChange) (path : Bytes) (q : Tm) : Decidable (Uncut mode path q) := by
  unfold Uncut
  infer_instance

instance (localtime_r : Int → Tm) (mode : LogChange) (path : Bytes) (r : LogRun) (c : LogCall) :
    Decidable (Fits localtime_r mode path r c) := by
  unfold Fits
  infer_instance

instance (localtime_r : Int → Tm) (mode : LogChange) (path : Bytes) (r : LogRun) (c : LogCall) :
    Decidable (Clears localtime_r mode path r c) := by
  unfold Clears
  infer_instance

/-- What holds between the calls. -/
structure Tidy (mode : LogChange) (path : Bytes) (r : LogRun) : Prop where
  timing : Timing mode path r.logger
  file : ∃ f, r.dir path = some f
  named : ∀ x ∈ r.turns, x.1 = r.logger.periodFile (periodText mode x.2)
  apart : ∀ x ∈ r.turns, x.1 ≠ path
  inRange : ∀ x ∈ r.turns, x.2.InRange
  last : r.logger.m_last_time.InRange
  few : (r.rotated.card : Int) ≤ fileNum mode

section

variable {localtime_r : Int → Tm} {mode : LogChange} {path : Bytes} {r : LogRun} {c : LogCall}
  {l : CLogger} {q : Tm}

theorem periodFile_of_uncut (hname : c_str l.m_path = path) (h : Uncut mode path q) :
    l.periodFile (periodText mode q) = path ++ ascii ['.'] ++ periodText mode q := by
  rw [periodFile, hname]
  exact List.take_of_length_le h

theorem not_uncut (hpath : path.length = 511) : ¬ Uncut mode path q := by
  intro h
  rw [Uncut, List.length_append, List.length_append, hpath] at h
  simp only [ascii, List.length_map, List.length_singleton] at h
  omega

theorem mem_rotated {name : Bytes} :
    name ∈ r.rotated ↔ name ∈ r.turns.map Prod.fst ∧ (r.dir name).isSome := by
  rw [LogRun.rotated, Finset.mem_filter, List.mem_toFinset]

/-- The files that are there when one is removed were there before the call, or the call made
them. -/
theorem there_iff {dir : Dated} {f : List (Tm × Bytes)} {target name : Bytes}
    (hf : dir path = some f) :
    (((dir.rename path target).openAppend path) name).isSome ↔
      name = target ∨ (dir name).isSome := by
  by_cases hpath : name = path
  · rw [hpath, Files.openAppend, Function.update_self, hf]
    exact iff_of_true rfl (.inr rfl)
  · rw [Files.openAppend, Function.update_of_ne hpath]
    unfold Files.rename
    rw [hf]
    dsimp only
    rw [Function.update_apply]
    split
    · next heq => exact iff_of_true rfl (.inl heq)
    · next hne => rw [Function.update_of_ne hpath, or_iff_right hne]

/-! ## One call -/

theorem Tidy.clears_not_cut (h : Tidy mode path r) (hrotates : r.Rotates localtime_r mode c)
    (hclears : Clears localtime_r mode path r c) : path.length ≠ 511 := by
  intro hpath
  have hsame : r.logger.periodFile (periodText mode (localtime_r (c.timep_delete - goesBack mode))) =
      target mode r.logger := by
    rw [target, (periodFile_eq_path_iff h.timing.name _).mpr hpath,
      (periodFile_eq_path_iff h.timing.name _).mpr hpath]
  exact not_uncut hpath (((hclears hrotates).1 (.inl hsame)).2 _ List.mem_cons_self)

/-- A rotation removes only a file that is old enough. -/
theorem Tidy.spares (h : Tidy mode path r) (hlocal : ∀ t, (localtime_r t).InRange)
    (hrotates : r.Rotates localtime_r mode c) (hopens : c.opens = true)
    (hclears : Clears localtime_r mode path r c) :
    ∀ x ∈ removals (localtime_r c.timep) r.dir (Log localtime_r r.logger c).2,
      (x.1 x.2).isSome → ∀ q, Rotated mode path (r.log localtime_r c).turns x.2 q →
        fileNum mode ≤ number mode (localtime_r c.timep_delete) - number mode q := by
  intro x hx hthere q hq
  rcases Log_rotates h.timing hrotates.1 hopens hrotates.2 with ⟨l', a, b, hlog, -⟩
  rcases LogRun.log_rotates h.timing hrotates hopens with ⟨_, _, -, hturns, -⟩
  rw [hlog] at hx
  obtain rfl := List.mem_singleton.mp hx
  rcases h.file with ⟨f, hf⟩
  rcases (hclears hrotates).1 ((there_iff hf).mp hthere) with ⟨hage, huncut⟩
  -- the name says which period it is, as it is not cut off
  have hpast := periodFile_of_uncut h.timing.name (huncut _ List.mem_cons_self)
  have hname : q.InRange ∧ deleted localtime_r mode r.logger c.timep_delete =
      path ++ ascii ['.'] ++ periodText mode q := by
    rcases hq with hq | hq
    · rw [hturns] at hq
      rcases List.mem_cons.mp hq with hq | hq
      · rcases Prod.mk.inj hq with ⟨hnew, rfl⟩
        refine ⟨h.last, hnew.trans (periodFile_of_uncut h.timing.name (huncut _ ?_))⟩
        exact List.mem_cons_of_mem _ List.mem_cons_self
      · refine ⟨h.inRange _ hq, (h.named _ hq).trans
          (periodFile_of_uncut h.timing.name (huncut _ ?_))⟩
        exact List.mem_cons_of_mem _ (List.mem_cons_of_mem _ (List.mem_map_of_mem hq))
    · exact hq
  have htext := List.append_cancel_left (hpast.symm.trans hname.2)
  rw [← number_of_periodText h.timing.timed (hlocal _) hname.1 htext]
  exact hage

/-- The rotated files after a rotation: one more, without the one that is removed. -/
theorem Tidy.rotated_log (h : Tidy mode path r) (hrotates : r.Rotates localtime_r mode c)
    (hopens : c.opens = true) (hpath : path.length ≠ 511) :
    (r.log localtime_r c).rotated =
      (insert (target mode r.logger) r.rotated).erase
        (deleted localtime_r mode r.logger c.timep_delete) := by
  rcases LogRun.log_rotates h.timing hrotates hopens with ⟨a, b, hdir, hturns, -⟩
  rcases h.file with ⟨f, hf⟩
  have htarget : target mode r.logger ≠ path := periodFile_ne_path h.timing.name hpath _
  have hdeleted : deleted localtime_r mode r.logger c.timep_delete ≠ path :=
    periodFile_ne_path h.timing.name hpath _
  have happly := Files.turn_apply hf htarget hdeleted (localtime_r c.timep, a)
    (localtime_r c.timep, b)
  ext name
  rw [mem_rotated, Finset.mem_erase, Finset.mem_insert, mem_rotated, hturns, List.map_cons,
    List.mem_cons, hdir, happly]
  by_cases hname : name = path
  · -- the log file is not a rotated one
    have hnot : ¬ (name = target mode r.logger ∨ name ∈ r.turns.map Prod.fst) := by
      intro hmem
      rcases hmem with hmem | hmem
      · exact htarget (hmem.symm.trans hname)
      · rcases List.mem_map.mp hmem with ⟨x, hx, hxn⟩
        exact h.apart x hx (hxn.trans hname)
    refine iff_of_false (fun hin => hnot hin.1) (fun hin => hnot ?_)
    exact hin.2.imp_right And.left
  · rw [if_neg hname]
    by_cases hgone : name = deleted localtime_r mode r.logger c.timep_delete
    · rw [if_pos hgone]
      exact iff_of_false (fun hin => by simp at hin) (fun hin => hin.1 hgone)
    · rw [if_neg hgone]
      by_cases hnew : name = target mode r.logger
      · rw [if_pos hnew]
        exact iff_of_true ⟨.inl hnew, rfl⟩ ⟨hgone, .inl hnew⟩
      · rw [if_neg hnew, or_iff_right hnew, or_iff_right hnew, and_iff_right hgone]

/-- A rotation removes a rotated file, or makes no more than there is room for. -/
theorem Tidy.rotated_card (h : Tidy mode path r) (hrotates : r.Rotates localtime_r mode c)
    (hopens : c.opens = true) (hclears : Clears localtime_r mode path r c) :
    ((r.log localtime_r c).rotated.card : Int) ≤ fileNum mode := by
  rw [h.rotated_log hrotates hopens (h.clears_not_cut hrotates hclears)]
  have hinsert := Finset.card_insert_le (target mode r.logger) r.rotated
  have hfew := h.few
  by_cases hmem : deleted localtime_r mode r.logger c.timep_delete ∈
      insert (target mode r.logger) r.rotated
  · rw [Finset.card_erase_of_mem hmem]
    omega
  · rw [Finset.erase_eq_of_notMem hmem]
    exact (hclears hrotates).2 hmem

/-- Where the names fit there is no other way. -/
theorem Tidy.clears_of_retains (h : Tidy mode path r) (hlocal : ∀ t, (localtime_r t).InRange)
    (hopens : c.opens = true) (hfits : Fits localtime_r mode path r c)
    (hretains : Retains localtime_r mode path r c) : Clears localtime_r mode path r c := by
  intro hrotates
  have huncut := hfits _ List.mem_cons_self
  rcases h.file with ⟨f, hf⟩
  constructor
  · intro hthere
    refine ⟨?_, hfits⟩
    rcases Log_rotates h.timing hrotates.1 hopens hrotates.2 with ⟨l', a, b, hlog, -⟩
    refine hretains.spares
      ((r.dir.rename path (target mode r.logger)).openAppend path,
        deleted localtime_r mode r.logger c.timep_delete) ?_ ((there_iff hf).mpr hthere) _
      (.inr ⟨hlocal _, periodFile_of_uncut h.timing.name huncut⟩)
    rw [hlog]
    exact List.mem_singleton.mpr rfl
  · intro hmem
    have hfew := hretains.few
    rw [h.rotated_log hrotates hopens (fun hpath => not_uncut hpath huncut)] at hfew
    rw [deleted, Finset.erase_eq_of_notMem hmem] at hfew
    exact hfew

theorem Tidy.log_rotates (h : Tidy mode path r) (hlocal : ∀ t, (localtime_r t).InRange)
    (hrotates : r.Rotates localtime_r mode c) (hopens : c.opens = true)
    (hclears : Clears localtime_r mode path r c) : Tidy mode path (r.log localtime_r c) := by
  rcases LogRun.log_rotates h.timing hrotates hopens with
    ⟨a, b, hdir, hturns, htiming, hpathEq, -, hlast⟩
  rcases h.file with ⟨f, hf⟩
  have hpath := h.clears_not_cut hrotates hclears
  have htarget : target mode r.logger ≠ path := periodFile_ne_path h.timing.name hpath _
  have hdeleted : deleted localtime_r mode r.logger c.timep_delete ≠ path :=
    periodFile_ne_path h.timing.name hpath _
  refine ⟨htiming, ?_, ?_, ?_, ?_, ?_, h.rotated_card hrotates hopens hclears⟩
  · exact ⟨_, by rw [hdir, Files.turn_apply hf htarget hdeleted, if_pos rfl]⟩
  · intro x hx
    rw [periodFile_congr hpathEq]
    rw [hturns] at hx
    rcases List.mem_cons.mp hx with rfl | hx
    · rfl
    · exact h.named x hx
  · intro x hx
    rw [hturns] at hx
    rcases List.mem_cons.mp hx with rfl | hx
    · exact htarget
    · exact h.apart x hx
  · intro x hx
    rw [hturns] at hx
    rcases List.mem_cons.mp hx with rfl | hx
    · exact h.last
    · exact h.inRange x hx
  · rw [hlast]
    exact hlocal _

/-- A line without a rotation leaves the rotated files alone. -/
theorem Tidy.log_same (h : Tidy mode path r) (hlogs : r.Logs c)
    (hstay : ¬ r.Rotates localtime_r mode c) :
    Tidy mode path (r.log localtime_r c) ∧
      removals (localtime_r c.timep) r.dir (Log localtime_r r.logger c).2 = [] := by
  rcases LogRun.log_same h.timing hlogs hstay with
    ⟨a, b, hdir, hturns, htiming, hpathEq, -, hlast, hfield⟩
  rcases Log_same h.timing hlogs hfield with ⟨l', a', b', hlog, -⟩
  rcases h.file with ⟨f, hf⟩
  rw [Files.append_append hf] at hdir
  have hrotated : (r.log localtime_r c).rotated = r.rotated := by
    ext name
    rw [mem_rotated, mem_rotated, hturns, hdir, Function.update_apply]
    split
    · next heq => rw [heq, hf]; rfl
    · rfl
  refine ⟨⟨htiming, ⟨_, by rw [hdir, Function.update_self]⟩, ?_, ?_, ?_, by rw [hlast]; exact h.last,
    by rw [hrotated]; exact h.few⟩, by rw [hlog]; rfl⟩
  · intro x hx
    rw [hturns] at hx
    rw [periodFile_congr hpathEq]
    exact h.named x hx
  · rw [hturns]
    exact h.apart
  · rw [hturns]
    exact h.inRange

theorem Tidy.log (h : Tidy mode path r) (hlocal : ∀ t, (localtime_r t).InRange)
    (hopens : c.opens = true) (hclears : Clears localtime_r mode path r c) :
    Tidy mode path (r.log localtime_r c) ∧ Retains localtime_r mode path r c := by
  by_cases hlogs : r.Logs c
  · by_cases hrotates : r.Rotates localtime_r mode c
    · have htidy := h.log_rotates hlocal hrotates hopens hclears
      exact ⟨htidy, h.spares hlocal hrotates hopens hclears, htidy.few⟩
    · rcases h.log_same hlogs hrotates with ⟨htidy, hnone⟩
      refine ⟨htidy, fun x hx => ?_, htidy.few⟩
      rw [hnone] at hx
      exact absurd hx List.not_mem_nil
  · refine ⟨?_, fun x hx => ?_, ?_⟩
    · rw [LogRun.log_low hlogs]
      exact h
    · rw [Log_low (Int.not_le.mp hlogs)] at hx
      exact absurd hx List.not_mem_nil
    · rw [LogRun.log_low hlogs]
      exact h.few

/-! ## Whole runs -/

theorem start_tidy (hlocal : ∀ t, (localtime_r t).InRange) (path : Bytes) (timep level : Int)
    (hmode : Timed mode) (dir : Dated) :
    Tidy mode (c_str path) (LogRun.start localtime_r path timep level mode dir) := by
  refine ⟨LogRun.start_timing localtime_r path timep level hmode dir, ?_, ?_, ?_, ?_, hlocal timep,
    ?_⟩
  · refine ⟨dir.content (c_str path), ?_⟩
    change dir.openAppend (c_str path) (c_str path) = _
    rw [Files.openAppend, Function.update_self]
  · exact fun x hx => absurd hx List.not_mem_nil
  · exact fun x hx => absurd hx List.not_mem_nil
  · exact fun x hx => absurd hx List.not_mem_nil
  · have hnone : (LogRun.start localtime_r path timep level mode dir).rotated = ∅ := rfl
    rw [hnone, Finset.card_empty]
    rcases hmode with rfl | rfl | rfl
    · decide
    · decide
    · decide

/-- Every call of the run meets `guard`. -/
abbrev LogRun.Along (localtime_r : Int → Tm) (r : LogRun) (calls : List LogCall)
    (guard : LogRun → LogCall → Prop) : Prop :=
  Allowed (fun r c => some (r.log localtime_r c)) guard r calls

end

/-- A logger whose rotations all clear away as they should removes no young file and keeps no more
files than the header says.  Where the names of the files fit, no other logger does. -/
theorem retains_of_clears (localtime_r : Int → Tm) (hlocal : ∀ t, (localtime_r t).InRange)
    (path : Bytes) (timep level : Int) (mode : LogChange) (hmode : Timed mode) (dir : Dated)
    (calls : List LogCall) (hopens : ∀ c ∈ calls, c.opens = true) :
    let r := LogRun.start localtime_r path timep level mode dir
    (r.Along localtime_r calls (Clears localtime_r mode (c_str path)) →
      r.Along localtime_r calls (Retains localtime_r mode (c_str path))) ∧
    (r.Along localtime_r calls (Fits localtime_r mode (c_str path)) →
      r.Along localtime_r calls (Retains localtime_r mode (c_str path)) →
      r.Along localtime_r calls (Clears localtime_r mode (c_str path))) := by
  intro r
  have hstart := start_tidy hlocal path timep level hmode dir
  constructor
  · intro hclears
    refine Allowed.imp (I := Tidy mode (c_str path)) ?_ hstart
      (hclears.and (allowed_of_forall hopens))
    intro r c htidy hguard
    have hlog := htidy.log hlocal hguard.2 hguard.1
    refine ⟨hlog.2, fun r' hr' => ?_⟩
    rw [← Option.some.inj hr']
    exact hlog.1
  · intro hfits hretains
    refine Allowed.imp (I := Tidy mode (c_str path)) ?_ hstart
      ((hfits.and hretains).and (allowed_of_forall hopens))
    intro r c htidy hguard
    have hclears := htidy.clears_of_retains hlocal hguard.2 hguard.1.1 hguard.1.2
    refine ⟨hclears, fun r' hr' => ?_⟩
    rw [← Option.some.inj hr']
    exact (htidy.log hlocal hguard.2 hclears).1

/-- A line at the time `t`. -/
def lineAt (t : Int) : LogCall :=
  { level := 2, message := [97], timep := t, timep_delete := t, opens := true }

/-- A line in each of four hours. -/
theorem retains_of_clears_hourly :
    (LogRun.start gmtime [108] 1800 2 .hour fun _ => none).Along gmtime
      ([5400, 9000, 12600, 16200].map lineAt) (Retains gmtime .hour [108]) :=
  (retains_of_clears gmtime gmtime_inRange [108] 1800 2 .hour (by decide) _ _ (by decide)).1
    (by decide +kernel)

/-- A line at noon of four days: the file of the first day goes when it is three days old. -/
theorem not_retains_daily : ¬ ∀ calls : List LogCall, (∀ c ∈ calls, c.opens = true) →
    calls.IsChain (fun c d => c.timep ≤ d.timep) →
      (LogRun.start gmtime [108] 43200 2 .day fun _ => none).Along gmtime calls
        (Retains gmtime .day [108]) := by
  intro h
  have hall := h ([129600, 216000, 302400].map lineAt) (by decide) (by decide)
  generalize hr : ((LogRun.start gmtime [108] 43200 2 .day fun _ => none).after gmtime
    ([129600, 216000].map lineAt)) = r
  have hretains : Retains gmtime .day [108] r (lineAt 302400) := by
    rw [← hr]
    exact hall.2.2.1
  have hremoved : ∃ x ∈ removals (gmtime 302400) r.dir (Log gmtime r.logger (lineAt 302400)).2,
      (x.1 x.2).isSome ∧ x.2 = [108] ++ ascii ['.'] ++ periodText .day (gmtime 43200) := by
    rw [← hr]
    decide +kernel
  rcases hremoved with ⟨x, hx, hthere, hname⟩
  have hage := hretains.spares x hx hthere (gmtime 43200) (.inr ⟨gmtime_inRange _, hname⟩)
  exact absurd hage (by decide)

end CLogger

end CommonCc
