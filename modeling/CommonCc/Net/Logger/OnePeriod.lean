import CommonCc.Net.Logger.Periods
import Mathlib.Data.List.Chain

/-!
# Files of one period

Which calls leave lines of two hours, days or months in one file.
-/

namespace CommonCc

namespace CLogger

/-- No file has lines of two periods. -/
def OnePeriod (mode : LogChange) (dir : Dated) : Prop :=
  ∀ name f, dir name = some f → ∀ x ∈ f, ∀ y ∈ f, period mode x.1 = period mode y.1

/-- The times of the calls that log a line. -/
def timesOf (localtime_r : Int → Tm) (level : Int) (calls : List LogCall) : List Tm :=
  (calls.filter fun c => level ≤ c.level).map fun c => localtime_r c.timep

/-- Two periods do not agree in the field that is compared. -/
def Told (mode : LogChange) (s t : Tm) : Prop :=
  field mode s = field mode t → period mode s = period mode t

/-- The times of the lines that reach a file.  Where the name of a period is cut off to the path,
the log file is removed with the first rotation and never comes back. -/
def reaching (mode : LogChange) (path : Bytes) (last : Tm) (times : List Tm) : List Tm :=
  if path.length = 511 then times.takeWhile fun t => field mode t = field mode last else times

section

variable {localtime_r : Int → Tm} {mode : LogChange} {path : Bytes} {level : Int}
  {calls : List LogCall} {c : LogCall} {last : Tm} {times : List Tm} {t : Tm}

theorem timesOf_cons_low (h : ¬ level ≤ c.level) :
    timesOf localtime_r level (c :: calls) = timesOf localtime_r level calls := by
  rw [timesOf, timesOf, List.filter_cons_of_neg (by simpa using h)]

theorem timesOf_cons (h : level ≤ c.level) :
    timesOf localtime_r level (c :: calls) =
      localtime_r c.timep :: timesOf localtime_r level calls := by
  rw [timesOf, timesOf, List.filter_cons_of_pos (by simpa using h), List.map_cons]

theorem reaching_cons (h : field mode t = field mode last) :
    reaching mode path last (t :: times) = t :: reaching mode path last times := by
  unfold reaching
  split
  · rw [List.takeWhile_cons_of_pos (by simpa using h)]
  · rfl

/-- Without a cut the last rotation does not matter. -/
theorem reaching_of_ne (hpath : path.length ≠ 511) : reaching mode path last times = times :=
  if_neg hpath

theorem reaching_cut (hpath : path.length = 511) (h : field mode t ≠ field mode last) :
    reaching mode path last (t :: times) = [] := by
  rw [reaching, if_pos hpath, List.takeWhile_cons_of_neg (by simpa using h)]

end

/-! ## The open file -/

/-- The open file has lines of the period of `last`, or none before the first line. -/
structure Live (mode : LogChange) (path : Bytes) (last : Option Tm) (r : LogRun) : Prop where
  timing : Timing mode path r.logger
  file : ∃ f, r.dir path = some f ∧
    ∀ p, (∃ x ∈ f, period mode x.1 = p) ↔ p ∈ last.map (period mode)
  same : ∀ s ∈ last, field mode s = field mode r.logger.m_last_time
  one : OnePeriod mode r.dir

/-- The log file was removed. -/
structure Gone (mode : LogChange) (path : Bytes) (r : LogRun) : Prop where
  timing : Timing mode path r.logger
  file : r.dir path = none
  one : OnePeriod mode r.dir

section

variable {localtime_r : Int → Tm} {mode : LogChange} {path : Bytes} {last : Option Tm}
  {r : LogRun} {c : LogCall} {dir : Dated} {f : List (Tm × Bytes)} {a b : Bytes} {t : Tm}

theorem OnePeriod.update (h : OnePeriod mode dir) (name : Bytes)
    (hf : ∀ x ∈ f, ∀ y ∈ f, period mode x.1 = period mode y.1) :
    OnePeriod mode (Function.update dir name (some f)) := by
  intro n g hg
  rw [Function.update_apply] at hg
  split at hg
  · obtain rfl := Option.some.inj hg
    exact hf
  · exact h n g hg

theorem OnePeriod.remove (h : OnePeriod mode dir) (name : Bytes) :
    OnePeriod mode (Function.update dir name none) := by
  intro n g hg
  rw [Function.update_apply] at hg
  split at hg
  · exact absurd hg (by simp)
  · exact h n g hg

/-- A file of the period of `t` stays one with a line of `t`. -/
theorem periods_append (hf : ∀ x ∈ f, period mode x.1 = period mode t) (p : List Int) :
    (∃ x ∈ f ++ [(t, a), (t, b)], period mode x.1 = p) ↔ p ∈ (some t).map (period mode) := by
  simp only [Option.map_some, Option.mem_def, Option.some.injEq]
  constructor
  · intro h
    rcases h with ⟨x, hx, rfl⟩
    rcases List.mem_append.mp hx with hx | hx
    · exact (hf x hx).symm
    · simp only [List.mem_cons, List.not_mem_nil, or_false] at hx
      rcases hx with rfl | rfl
      · rfl
      · rfl
  · intro h
    exact ⟨(t, a), List.mem_append_right _ List.mem_cons_self, h⟩

theorem periods_of_iff (hf : ∀ p, (∃ x ∈ f, period mode x.1 = p) ↔ p ∈ (some t).map (period mode)) :
    ∀ x ∈ f, period mode x.1 = period mode t := by
  intro x hx
  have hp := (hf (period mode x.1)).mp ⟨x, hx, rfl⟩
  simpa using hp.symm

theorem one_of_eq (hf : ∀ x ∈ f, period mode x.1 = period mode t) :
    ∀ x ∈ f, ∀ y ∈ f, period mode x.1 = period mode y.1 :=
  fun x hx y hy => (hf x hx).trans (hf y hy).symm

namespace Live

/-- The lines of the open file are of one period. -/
theorem file_eq (h : Live mode path last r) : ∃ f, r.dir path = some f ∧
    ∀ x ∈ f, ∃ s ∈ last, period mode x.1 = period mode s := by
  rcases h.file with ⟨f, hf, hperiods⟩
  refine ⟨f, hf, fun x hx => ?_⟩
  have hp := (hperiods (period mode x.1)).mp ⟨x, hx, rfl⟩
  rcases Option.mem_map.mp hp with ⟨s, hs, heq⟩
  exact ⟨s, hs, heq.symm⟩

/-- A line of the period goes into the open file. -/
theorem log_same (h : Live mode path last r) (hlogs : r.Logs c)
    (hstay : ¬ r.Rotates localtime_r mode c)
    (htold : ∀ s ∈ last, Told mode s (localtime_r c.timep)) :
    Live mode path (some (localtime_r c.timep)) (r.log localtime_r c) := by
  rcases h.file_eq with ⟨f, hf, hperiods⟩
  rcases LogRun.log_same h.timing hlogs hstay with
    ⟨a, b, hdir, -, htiming, -, -, hlast, hfield⟩
  have hperiod : ∀ x ∈ f, period mode x.1 = period mode (localtime_r c.timep) := by
    intro x hx
    rcases hperiods x hx with ⟨s, hs, heq⟩
    exact heq.trans (htold s hs ((h.same s hs).trans hfield))
  have hnew := periods_append (a := a) (b := b) hperiod
  rw [Files.append_append hf] at hdir
  refine ⟨htiming, ⟨_, by rw [hdir, Function.update_self], hnew⟩, ?_, ?_⟩
  · intro s hs
    rw [← Option.mem_some.mp hs, hlast, hfield]
  · rw [hdir]
    exact h.one.update path (one_of_eq (periods_of_iff hnew))

/-- A line of another period with the same field goes into the open file too. -/
theorem not_one (h : Live mode path last r) (hlogs : r.Logs c)
    (hstay : ¬ r.Rotates localtime_r mode c) {s : Tm} (hs : s ∈ last)
    (htold : ¬ Told mode s (localtime_r c.timep)) :
    ¬ OnePeriod mode (r.log localtime_r c).dir := by
  intro hone
  rcases h.file with ⟨f, hf, hperiods⟩
  rcases LogRun.log_same h.timing hlogs hstay with ⟨a, b, hdir, -⟩
  rw [Files.append_append hf] at hdir
  rcases (hperiods (period mode s)).mpr (Option.mem_map_of_mem _ hs) with ⟨x, hx, heq⟩
  have hsame := hone path _ (by rw [hdir, Function.update_self]) x (List.mem_append_left _ hx)
    (localtime_r c.timep, a) (List.mem_append_right _ List.mem_cons_self)
  exact htold fun _ => heq.symm.trans hsame

/-- The line of a rotation is the first one of a new file. -/
theorem log_rotates (h : Live mode path last r) (hrotates : r.Rotates localtime_r mode c)
    (hopens : c.opens = true) (hpath : path.length ≠ 511) :
    Live mode path (some (localtime_r c.timep)) (r.log localtime_r c) := by
  rcases h.file_eq with ⟨f, hf, hperiods⟩
  rcases LogRun.log_rotates h.timing hrotates hopens with ⟨a, b, hdir, -, htiming, -, -, hlast⟩
  have htarget : target mode r.logger ≠ path := periodFile_ne_path h.timing.name hpath _
  have hdeleted : deleted localtime_r mode r.logger c.timep_delete ≠ path :=
    periodFile_ne_path h.timing.name hpath _
  have hnew : ∀ p, (∃ x ∈ [(localtime_r c.timep, a), (localtime_r c.timep, b)],
      period mode x.1 = p) ↔ p ∈ (some (localtime_r c.timep)).map (period mode) :=
    periods_append (f := []) fun x hx => absurd hx List.not_mem_nil
  have happly := Files.turn_apply hf htarget hdeleted (localtime_r c.timep, a)
    (localtime_r c.timep, b)
  refine ⟨htiming, ⟨_, by rw [hdir, happly, if_pos rfl], hnew⟩, ?_, ?_⟩
  · intro s hs
    rw [← Option.mem_some.mp hs, hlast]
  · intro n g hg
    rw [hdir, happly] at hg
    split at hg
    · obtain rfl := Option.some.inj hg
      exact one_of_eq (periods_of_iff hnew)
    · split at hg
      · exact absurd hg (by simp)
      · split at hg
        · exact h.one path g (by rw [hf, Option.some.inj hg])
        · exact h.one n g hg

end Live

/-- Where the names are cut off to the path, a rotation removes the log file. -/
theorem Gone.of_rotates (h : Timing mode path r.logger) (hone : OnePeriod mode r.dir)
    (hrotates : r.Rotates localtime_r mode c) (hopens : c.opens = true)
    (hpath : path.length = 511) : Gone mode path (r.log localtime_r c) := by
  rcases LogRun.log_rotates h hrotates hopens with ⟨a, b, hdir, -, htiming, -⟩
  rw [target, deleted, (periodFile_eq_path_iff h.name _).mpr hpath,
    (periodFile_eq_path_iff h.name _).mpr hpath, Files.turn_self] at hdir
  refine ⟨htiming, by rw [hdir, Function.update_self], ?_⟩
  rw [hdir]
  exact hone.remove path

theorem Gone.log (h : Gone mode path r) (hopens : c.opens = true) (hpath : path.length = 511) :
    Gone mode path (r.log localtime_r c) := by
  by_cases hlogs : r.Logs c
  · by_cases hrotates : r.Rotates localtime_r mode c
    · exact .of_rotates h.timing h.one hrotates hopens hpath
    · rcases LogRun.log_same h.timing hlogs hrotates with ⟨a, b, hdir, -, htiming, -⟩
      rw [Files.append_of_none h.file, Files.append_of_none h.file] at hdir
      exact ⟨htiming, by rw [hdir, h.file], by rw [hdir]; exact h.one⟩
  · rw [LogRun.log_low hlogs]
    exact h

theorem Gone.after (h : Gone mode path r) {calls : List LogCall}
    (hopens : ∀ c ∈ calls, c.opens = true) (hpath : path.length = 511) :
    Gone mode path (r.after localtime_r calls) := by
  induction calls generalizing r with
  | nil => exact h
  | cons c calls ih =>
      exact ih (h.log (hopens c List.mem_cons_self) hpath)
        fun c hc => hopens c (List.mem_cons_of_mem _ hc)

/-! ## Whole runs -/

/-- All moments of a run: the first one and those after the first call. -/
theorem forall_prefix_cons {P : LogRun → Prop} {calls : List LogCall} :
    (∀ moment, moment <+: c :: calls → P (r.after localtime_r moment)) ↔
      P r ∧ ∀ moment, moment <+: calls → P ((r.log localtime_r c).after localtime_r moment) := by
  constructor
  · intro h
    exact ⟨h [] List.nil_prefix, fun moment hmoment =>
      h (c :: moment) ((List.prefix_cons_inj c).mpr hmoment)⟩
  · intro h moment hmoment
    rcases List.prefix_cons_iff.mp hmoment with rfl | ⟨rest, rfl, hrest⟩
    · exact h.1
    · exact h.2 rest hrest

theorem isChain_of_told {rest : List Tm} (h : ∀ s ∈ last, Told mode s t) :
    (last.toList ++ t :: rest).IsChain (Told mode) ↔
      ((some t).toList ++ rest).IsChain (Told mode) := by
  cases last with
  | none => rfl
  | some s =>
      change (s :: t :: rest).IsChain (Told mode) ↔ (t :: rest).IsChain (Told mode)
      rw [List.isChain_cons_cons, and_iff_right (h s rfl)]

/-- From a live state on, the files are of one period as long as the logger tells each line's
period from that of the line before. -/
theorem Live.onePeriod_iff (h : Live mode path last r) {calls : List LogCall}
    (hopens : ∀ c ∈ calls, c.opens = true) :
    (∀ moment, moment <+: calls → OnePeriod mode (r.after localtime_r moment).dir) ↔
      (last.toList ++ reaching mode path r.logger.m_last_time
        (timesOf localtime_r r.logger.m_log_level calls)).IsChain (Told mode) := by
  induction calls generalizing r last with
  | nil =>
      have hall : ∀ moment, moment <+: [] → OnePeriod mode (r.after localtime_r moment).dir := by
        intro moment hmoment
        rw [List.prefix_nil.mp hmoment]
        exact h.one
      have hchain : (last.toList ++ reaching mode path r.logger.m_last_time []).IsChain
          (Told mode) := by
        rw [reaching, List.takeWhile_nil, ite_self, List.append_nil]
        cases last with
        | none => exact .nil
        | some s => exact .singleton s
      exact iff_of_true hall hchain
  | cons c calls ih =>
      have hc := hopens c List.mem_cons_self
      have hcalls : ∀ c ∈ calls, c.opens = true := fun c hc => hopens c (List.mem_cons_of_mem _ hc)
      rw [forall_prefix_cons (P := fun r => OnePeriod mode r.dir), and_iff_right h.one]
      by_cases hlogs : r.Logs c
      · rw [timesOf_cons hlogs]
        by_cases hrotates : r.Rotates localtime_r mode c
        · by_cases hpath : path.length = 511
          · -- nothing reaches a file any more
            have hgone := Gone.of_rotates h.timing h.one hrotates hc hpath
            rw [reaching_cut hpath (Ne.symm hrotates.2), List.append_nil]
            refine iff_of_true (fun moment hmoment => (hgone.after (fun c hc =>
              hcalls c (hmoment.subset hc)) hpath).one) ?_
            cases last with
            | none => exact .nil
            | some s => exact .singleton s
          · have hlive := h.log_rotates hrotates hc hpath
            rcases LogRun.log_rotates h.timing hrotates hc with ⟨_, _, -, -, -, -, hlevel, -⟩
            rw [ih hlive hcalls, hlevel, reaching_of_ne hpath, reaching_of_ne hpath,
              isChain_of_told]
            intro s hs hfield
            exact absurd ((h.same s hs).symm.trans hfield) hrotates.2
        · rcases LogRun.log_same h.timing hlogs hrotates with ⟨_, _, -, -, -, -, hlevel, hlast, hf⟩
          rw [reaching_cons hf.symm]
          by_cases htold : ∀ s ∈ last, Told mode s (localtime_r c.timep)
          · rw [ih (h.log_same hlogs hrotates htold) hcalls, hlevel, hlast, isChain_of_told htold]
          · -- the line of another period is in the open file at once
            rcases not_forall.mp htold with ⟨s, hs⟩
            rcases Classical.not_imp.mp hs with ⟨hs, hnot⟩
            refine iff_of_false (fun hall => h.not_one hlogs hrotates hs hnot
              (hall [] List.nil_prefix)) ?_
            rw [Option.mem_def.mp hs]
            intro hchain
            exact hnot (List.isChain_cons_cons.mp hchain).1
      · rw [LogRun.log_low hlogs, timesOf_cons_low hlogs, ih h hcalls]

/-- A logger on a directory without lines of its own is live. -/
theorem start_live (path : Bytes) (timep level : Int) (hmode : Timed mode)
    (hclean : ∀ name f, dir name = some f → f = []) :
    Live mode (c_str path) none (LogRun.start localtime_r path timep level mode dir) := by
  have hcontent : dir.content (c_str path) = [] := by
    unfold Files.content
    cases hdir : dir (c_str path) with
    | none => rfl
    | some f => exact hclean _ f hdir
  have hdir : (LogRun.start localtime_r path timep level mode dir).dir =
      Function.update dir (c_str path) (some []) := by
    change dir.openAppend (c_str path) = _
    rw [Files.openAppend, hcontent]
  refine ⟨LogRun.start_timing localtime_r path timep level hmode dir,
    ⟨[], by rw [hdir, Function.update_self], by simp⟩, by simp, ?_⟩
  rw [hdir]
  refine OnePeriod.update ?_ _ (by simp)
  intro name f hf x hx
  rw [hclean name f hf] at hx
  exact absurd hx List.not_mem_nil

end

/-- On a directory without lines of its own, a logger that can always open its file keeps the
periods apart exactly when no two lines in a row are of two periods with the same hour, day or
month number. -/
theorem onePeriod_iff_told (localtime_r : Int → Tm) (path : Bytes) (timep level : Int)
    (mode : LogChange) (hmode : Timed mode) (dir : Dated)
    (hclean : ∀ name f, dir name = some f → f = []) (calls : List LogCall)
    (hopens : ∀ c ∈ calls, c.opens = true) :
    (∀ moment, moment <+: calls → OnePeriod mode
      ((LogRun.start localtime_r path timep level mode dir).after localtime_r moment).dir) ↔
      (reaching mode (c_str path) (localtime_r timep) (timesOf localtime_r level calls)).IsChain
        (Told mode) :=
  (start_live path timep level hmode hclean).onePeriod_iff hopens

/-- Two lines that are written at ten o'clock on two days in a row. -/
def dailyCalls : List LogCall :=
  [{ level := 2, message := [97], timep := 36000, timep_delete := 36000, opens := true },
    { level := 2, message := [98], timep := 122400, timep_delete := 122400, opens := true }]

theorem onePeriod_iff_told_daily : (∀ moment, moment <+: dailyCalls → OnePeriod .day
      ((LogRun.start gmtime [108] 36000 2 .day fun _ => none).after gmtime moment).dir) ↔
      (reaching .day [108] (gmtime 36000) (timesOf gmtime 2 dailyCalls)).IsChain (Told .day) :=
  onePeriod_iff_told gmtime [108] 36000 2 .day (by decide) _
    (fun _ _ h => absurd h (by simp)) dailyCalls (by decide)

/-- By the hour they end up in one file. -/
theorem not_onePeriod_hour : ¬ ∀ calls : List LogCall, (∀ c ∈ calls, c.opens = true) →
    calls.IsChain (fun c d => c.timep ≤ d.timep) → ∀ moment, moment <+: calls → OnePeriod .hour
      ((LogRun.start gmtime [108] 36000 2 .hour fun _ => none).after gmtime moment).dir := by
  intro h
  have hone := h dailyCalls (by decide) (by decide) dailyCalls List.prefix_rfl
  have hperiods : (((LogRun.start gmtime [108] 36000 2 .hour fun _ => none).after gmtime
      dailyCalls).dir [108]).map (List.map fun x => period .hour x.1) =
        some [[70, 0, 1, 10], [70, 0, 1, 10], [70, 0, 2, 10], [70, 0, 2, 10]] := by
    decide +kernel
  rcases Option.map_eq_some_iff.mp hperiods with ⟨f, hf, hmap⟩
  have hfirst : [70, 0, 1, 10] ∈ f.map fun x => period .hour x.1 := by
    rw [hmap]
    decide
  have hsecond : [70, 0, 2, 10] ∈ f.map fun x => period .hour x.1 := by
    rw [hmap]
    decide
  rcases List.mem_map.mp hfirst with ⟨x, hx, hxp⟩
  rcases List.mem_map.mp hsecond with ⟨y, hy, hyp⟩
  have hsame := hone [108] f hf x hx y hy
  rw [hxp, hyp] at hsame
  exact absurd hsame (by decide)

end CLogger

end CommonCc
