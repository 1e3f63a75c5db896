import Mathlib.Tactic.Common

/-!
# Dates

The Gregorian calendar as a numbering of days.  Day 0 is the first of January 1970.  Years are
counted from March on, so that a leap day is the last one of its year.
-/

namespace CommonCc

/-- Months and days count from 1. -/
structure Date where
  year : Int
  month : Int
  day : Int
deriving Repr, DecidableEq

namespace Date

/-- The months and days that there are in some year. -/
structure Valid (d : Date) : Prop where
  month_pos : 1 ≤ d.month
  month_le : d.month ≤ 12
  day_pos : 1 ≤ d.day
  day_le : d.day ≤ 31

/-- The days before year `y`, counted from March of the year 0. -/
def daysBefore (y : Int) : Int := 365 * y + y / 4 - y / 100 + y / 400

/-- The number of a day. -/
def toDays (d : Date) : Int :=
  let y := if d.month ≤ 2 then d.year - 1 else d.year
  let m := if d.month ≤ 2 then d.month + 9 else d.month - 3
  daysBefore y + (153 * m + 2) / 5 + d.day - 1 - 719468

/-- The year and the day in it of day `n`, counted from March of the year 0. -/
def yearOf (n : Int) : Int × Int :=
  let doe := n % 146097
  let century := if doe / 36524 = 4 then 3 else doe / 36524
  let doc := doe - 36524 * century
  let quad := doc / 1461
  let doq := doc - 1461 * quad
  let y := if doq / 365 = 4 then 3 else doq / 365
  (400 * (n / 146097) + 100 * century + 4 * quad + y, doq - 365 * y)

/-- The date of a day. -/
def ofDays (n : Int) : Date :=
  let y := yearOf (n + 719468)
  let m := (5 * y.2 + 2) / 153
  let day := y.2 - (153 * m + 2) / 5 + 1
  if m < 10 then ⟨y.1, m + 3, day⟩ else ⟨y.1 + 1, m - 9, day⟩

/-- The years of a cycle of 400 have their days one after the other. -/
theorem daysBefore_cycle {era century quad y : Int} (hcentury : 0 ≤ century ∧ century ≤ 3)
    (hquad : 0 ≤ quad ∧ quad ≤ 24) (hy : 0 ≤ y ∧ y ≤ 3) :
    daysBefore (400 * era + 100 * century + 4 * quad + y) =
      146097 * era + 36524 * century + 1461 * quad + 365 * y := by
  unfold daysBefore
  omega

theorem yearOf_spec (n : Int) :
    daysBefore (yearOf n).1 + (yearOf n).2 = n ∧ 0 ≤ (yearOf n).2 ∧ (yearOf n).2 ≤ 365 := by
  unfold yearOf
  dsimp only
  generalize hdoe : n % 146097 = doe
  have hrange : 0 ≤ doe ∧ doe < 146097 := by omega
  generalize hcentury : (if doe / 36524 = 4 then 3 else doe / 36524) = century
  have hcentury' : 0 ≤ century ∧ century ≤ 3 ∧ 0 ≤ doe - 36524 * century ∧
      doe - 36524 * century ≤ 36524 := by
    split at hcentury <;> omega
  generalize hdoc : doe - 36524 * century = doc at hcentury' ⊢
  generalize hquad : doc / 1461 = quad
  have hquad' : 0 ≤ quad ∧ quad ≤ 24 ∧ 0 ≤ doc - 1461 * quad ∧ doc - 1461 * quad ≤ 1460 := by omega
  generalize hdoq : doc - 1461 * quad = doq at hquad' ⊢
  generalize hy : (if doq / 365 = 4 then 3 else doq / 365) = y
  have hy' : 0 ≤ y ∧ y ≤ 3 ∧ 0 ≤ doq - 365 * y ∧ doq - 365 * y ≤ 365 := by
    split at hy <;> omega
  rw [daysBefore_cycle ⟨hcentury'.1, hcentury'.2.1⟩ ⟨hquad'.1, hquad'.2.1⟩ ⟨hy'.1, hy'.2.1⟩]
  omega

theorem toDays_ofDays (n : Int) : (ofDays n).toDays = n := by
  have hspec := yearOf_spec (n + 719468)
  unfold ofDays
  dsimp only
  generalize (yearOf (n + 719468)).1 = year at hspec ⊢
  generalize (yearOf (n + 719468)).2 = doy at hspec ⊢
  generalize hm : (5 * doy + 2) / 153 = m
  have hm' : 0 ≤ m ∧ m ≤ 11 := by omega
  by_cases hspring : m < 10
  · rw [if_pos hspring]
    unfold toDays
    dsimp only
    rw [if_neg (by omega), if_neg (by omega), Int.add_sub_cancel]
    omega
  · rw [if_neg hspring]
    unfold toDays
    dsimp only
    rw [if_pos (by omega), if_pos (by omega), Int.add_sub_cancel, Int.sub_add_cancel]
    omega

theorem valid_ofDays (n : Int) : (ofDays n).Valid := by
  have hspec := yearOf_spec (n + 719468)
  unfold ofDays
  dsimp only
  generalize (yearOf (n + 719468)).2 = doy at hspec ⊢
  generalize hm : (5 * doy + 2) / 153 = m
  have hm' : 0 ≤ m ∧ m ≤ 11 := by omega
  by_cases hspring : m < 10
  · rw [if_pos hspring]
    constructor <;> dsimp only <;> omega
  · rw [if_neg hspring]
    constructor <;> dsimp only <;> omega

/-- A leap day. -/
example : ofDays 19782 = ⟨2024, 2, 29⟩ := by decide

end Date

end CommonCc
