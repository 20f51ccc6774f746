import Mathlib.Data.Nat.Find
import Mathlib.Data.Int.Order.Basic
import Mathlib.Tactic.IntervalCases

/-!
# Calendar times

The Gregorian calendar in both directions. `timegm` counts the seconds from 1970 to a calendar
time, and `gmtime` reads a count as the calendar time it is.

**Years and months.** A day belongs to the one year, and within it to the one month, that begins
on it or before and ends after it (`yearOf_eq`, `monthOf_eq`).

Main results: `timegm_gmtime`, and `gmtime_timegm` for a time whose fields are in their ranges.
-/

namespace BambooNet.Calendar

/-! ## Years -/

def isLeap (y : ℤ) : Bool := y % 4 = 0 && (y % 100 ≠ 0 || y % 400 = 0)

def yearDays (y : ℤ) : ℤ := if isLeap y then 366 else 365

/-- Days from the first of January 1970 to that of `y`. -/
def daysBeforeYear (y : ℤ) : ℤ :=
  365 * (y - 1) + (y - 1) / 4 - (y - 1) / 100 + (y - 1) / 400 - 719162

/-- The year of a day. The mean length of a year is 146097 days in 400 years, which is off by at
most one year. -/
def yearOf (d : ℤ) : ℤ :=
  let y := 400 * (d + 719162) / 146097 + 1
  if d < daysBeforeYear y then y - 1
  else if daysBeforeYear (y + 1) ≤ d then y + 1
  else y

theorem daysBeforeYear_succ (y : ℤ) : daysBeforeYear (y + 1) = daysBeforeYear y + yearDays y := by
  simp only [daysBeforeYear, yearDays, isLeap, Bool.and_eq_true, Bool.or_eq_true,
    decide_eq_true_eq]
  split <;> omega

theorem yearDays_cases (y : ℤ) : yearDays y = 365 ∨ yearDays y = 366 := by
  rw [yearDays]
  cases isLeap y
  · exact .inl rfl
  · exact .inr rfl

theorem daysBeforeYear_mono {y z : ℤ} (h : y ≤ z) : daysBeforeYear y ≤ daysBeforeYear z := by
  simp only [daysBeforeYear]
  omega

theorem yearOf_spec (d : ℤ) :
    daysBeforeYear (yearOf d) ≤ d ∧ d < daysBeforeYear (yearOf d + 1) := by
  obtain ⟨y, hy⟩ : ∃ y, y = 400 * (d + 719162) / 146097 + 1 := ⟨_, rfl⟩
  have hprev : daysBeforeYear (y - 1) ≤ d := by
    simp only [daysBeforeYear]
    omega
  have hnext : d < daysBeforeYear (y + 1 + 1) := by
    simp only [daysBeforeYear]
    omega
  simp only [yearOf, ← hy]
  by_cases hlow : d < daysBeforeYear y
  · rw [if_pos hlow, sub_add_cancel]
    exact ⟨hprev, hlow⟩
  · rw [if_neg hlow]
    by_cases hhigh : daysBeforeYear (y + 1) ≤ d
    · rw [if_pos hhigh]
      exact ⟨hhigh, hnext⟩
    · rw [if_neg hhigh]
      exact ⟨not_lt.1 hlow, not_le.1 hhigh⟩

/-- A day belongs to one year. -/
theorem yearOf_eq {d y : ℤ} (hlow : daysBeforeYear y ≤ d) (hhigh : d < daysBeforeYear (y + 1)) :
    yearOf d = y := by
  obtain ⟨hlow', hhigh'⟩ := yearOf_spec d
  rcases lt_trichotomy (yearOf d) y with h | h | h
  · exact absurd (hhigh'.trans_le (daysBeforeYear_mono h)) (not_lt.2 hlow)
  · exact h
  · exact absurd (hhigh.trans_le (daysBeforeYear_mono h)) (not_lt.2 hlow')

/-! ## Months -/

/-- Days from the first of January to the first of month `m`, counted from zero. -/
def daysBeforeMonth (leap : Bool) (m : ℕ) : ℤ :=
  [0, 31, 59, 90, 120, 151, 181, 212, 243, 273, 304, 334].getD m 365 +
    if leap && 2 ≤ m then 1 else 0

/-- The month of the day `n` of a year. -/
def monthOf (leap : Bool) (n : ℤ) : ℕ := Nat.findGreatest (fun m => daysBeforeMonth leap m ≤ n) 11

theorem daysBeforeMonth_lt_succ (leap : Bool) {m : ℕ} (h : m ≤ 11) :
    daysBeforeMonth leap m < daysBeforeMonth leap (m + 1) := by
  revert leap
  interval_cases m <;> decide

theorem daysBeforeMonth_mono (leap : Bool) {m k : ℕ} (h : m ≤ k) (hk : k ≤ 12) :
    daysBeforeMonth leap m ≤ daysBeforeMonth leap k := by
  induction k, h using Nat.le_induction with
  | base => exact le_refl _
  | succ k _ ih => exact (ih (by omega)).trans (daysBeforeMonth_lt_succ leap (by omega)).le

theorem daysBeforeMonth_twelve (y : ℤ) : daysBeforeMonth (isLeap y) 12 = yearDays y := by
  rw [yearDays]
  cases isLeap y <;> rfl

/-- From March on, a leap year is one day ahead. -/
theorem daysBeforeMonth_of_two_le (y : ℤ) {m : ℕ} (h : 2 ≤ m) :
    daysBeforeMonth (isLeap y) m = daysBeforeMonth false m + (yearDays y - 365) := by
  rw [yearDays, daysBeforeMonth, daysBeforeMonth]
  cases isLeap y
  · simp
  · simp [h]

theorem monthOf_le (leap : Bool) (n : ℤ) : monthOf leap n ≤ 11 := Nat.findGreatest_le 11

theorem monthOf_spec {leap : Bool} {n : ℤ} (h : 0 ≤ n) (h' : n < daysBeforeMonth leap 12) :
    daysBeforeMonth leap (monthOf leap n) ≤ n ∧ n < daysBeforeMonth leap (monthOf leap n + 1) := by
  have hzero : daysBeforeMonth leap 0 ≤ n := by
    cases leap <;> exact h
  refine ⟨Nat.findGreatest_spec (P := fun m => daysBeforeMonth leap m ≤ n) (Nat.zero_le 11) hzero,
    ?_⟩
  rcases (monthOf_le leap n).eq_or_lt with heq | hlt
  · rw [heq]
    exact h'
  · exact not_le.1 (Nat.findGreatest_is_greatest (Nat.lt_succ_self _) hlt)

/-- A day belongs to one month of its year. -/
theorem monthOf_eq {leap : Bool} {n : ℤ} {m : ℕ} (hm : m ≤ 11) (hlow : daysBeforeMonth leap m ≤ n)
    (hhigh : n < daysBeforeMonth leap (m + 1)) : monthOf leap n = m := by
  refine Nat.findGreatest_eq_iff.2 ⟨hm, fun _ => hlow, fun k hk hk' => ?_⟩
  exact not_le.2 (hhigh.trans_le (daysBeforeMonth_mono leap hk (by omega)))

/-! ## Calendar times -/

/-- A calendar time in UTC. -/
structure Tm where
  /-- Years since 1900. -/
  year : ℤ := 0
  /-- Months since January. -/
  mon : ℤ := 0
  mday : ℤ := 0
  hour : ℤ := 0
  min : ℤ := 0
  sec : ℤ := 0
  deriving DecidableEq, Repr

/-- Days from 1970 to the first day of month `mon`; months beyond December are in later years. -/
def daysBefore (year mon : ℤ) : ℤ :=
  let y := year + 1900 + mon / 12
  daysBeforeYear y + daysBeforeMonth (isLeap y) (mon % 12).toNat

/-- Seconds since 1970. Fields beyond their range run over into the next one. -/
def timegm (tm : Tm) : ℤ :=
  (daysBefore tm.year tm.mon + tm.mday - 1) * 86400 + tm.hour * 3600 + tm.min * 60 + tm.sec

/-- The calendar time of a count of seconds. -/
def gmtime (t : ℤ) : Tm :=
  let d := t / 86400
  let y := yearOf d
  let n := d - daysBeforeYear y
  let m := monthOf (isLeap y) n
  { year := y - 1900
    mon := m
    mday := n - daysBeforeMonth (isLeap y) m + 1
    hour := t % 86400 / 3600
    min := t % 3600 / 60
    sec := t % 60 }

/-- Every field is in its range. -/
structure Tm.Valid (tm : Tm) : Prop where
  mon : 0 ≤ tm.mon ∧ tm.mon ≤ 11
  mday : 1 ≤ tm.mday ∧ daysBefore tm.year tm.mon + tm.mday ≤ daysBefore tm.year (tm.mon + 1)
  hour : 0 ≤ tm.hour ∧ tm.hour < 24
  min : 0 ≤ tm.min ∧ tm.min < 60
  sec : 0 ≤ tm.sec ∧ tm.sec < 60

/-- The first day of a month, in its own year. -/
theorem daysBefore_of_le (year : ℤ) {m : ℕ} (h : m ≤ 11) :
    daysBefore year m =
      daysBeforeYear (year + 1900) + daysBeforeMonth (isLeap (year + 1900)) m := by
  have hdiv : (m : ℤ) / 12 = 0 := by omega
  have hmod : ((m : ℤ) % 12).toNat = m := by omega
  rw [daysBefore, hdiv, hmod, add_zero]

/-- The day after a month. -/
theorem daysBefore_succ (year : ℤ) {m : ℕ} (h : m ≤ 11) :
    daysBefore year (m + 1) =
      daysBeforeYear (year + 1900) + daysBeforeMonth (isLeap (year + 1900)) (m + 1) := by
  rcases h.eq_or_lt with rfl | hlt
  · have hnext : daysBefore year ((11 : ℕ) + 1) = daysBeforeYear (year + 1900 + 1) := by
      simp [daysBefore, daysBeforeMonth]
    rw [hnext, daysBeforeYear_succ, daysBeforeMonth_twelve]
  · exact_mod_cast daysBefore_of_le year hlt

/-- A date from March on is as many days ahead in the next year as that year has. -/
theorem daysBefore_next_year (year : ℤ) {m : ℕ} (h : 2 ≤ m) (h' : m ≤ 12) :
    daysBefore (year + 1) m = daysBefore year m + yearDays (year + 1 + 1900) := by
  obtain ⟨k, rfl⟩ : ∃ k, m = k + 1 := ⟨m - 1, by omega⟩
  have hyear : year + 1 + 1900 = year + 1900 + 1 := by omega
  rw [Nat.cast_succ, daysBefore_succ _ (by omega), daysBefore_succ _ (by omega),
    daysBeforeMonth_of_two_le _ h, daysBeforeMonth_of_two_le _ h, hyear, daysBeforeYear_succ]
  omega

/-- The day of the year, from the first of January on. -/
theorem dayOfYear_spec (d : ℤ) :
    0 ≤ d - daysBeforeYear (yearOf d) ∧
      d - daysBeforeYear (yearOf d) < daysBeforeMonth (isLeap (yearOf d)) 12 := by
  obtain ⟨hlow, hhigh⟩ := yearOf_spec d
  rw [daysBeforeYear_succ] at hhigh
  rw [daysBeforeMonth_twelve]
  omega

/-- The date that `gmtime` reads is the day. -/
theorem daysBefore_gmtime (t : ℤ) :
    daysBefore (gmtime t).year (gmtime t).mon + (gmtime t).mday - 1 = t / 86400 := by
  show daysBefore (yearOf (t / 86400) - 1900) (monthOf _ _ : ℕ) + _ - 1 = _
  rw [daysBefore_of_le _ (monthOf_le _ _)]
  simp only [gmtime, sub_add_cancel]
  omega

theorem gmtime_valid (t : ℤ) : (gmtime t).Valid := by
  obtain ⟨hlow, hhigh⟩ := monthOf_spec (dayOfYear_spec (t / 86400)).1 (dayOfYear_spec (t / 86400)).2
  have hmon := monthOf_le (isLeap (yearOf (t / 86400)))
    (t / 86400 - daysBeforeYear (yearOf (t / 86400)))
  refine ⟨⟨Int.natCast_nonneg _, Int.ofNat_le.2 hmon⟩, ⟨?_, ?_⟩, ?_, ?_, ?_⟩
  · simp only [gmtime]
    omega
  · have hday := daysBefore_gmtime t
    have hnext : daysBefore (gmtime t).year ((gmtime t).mon + 1) = _ :=
      daysBefore_succ (gmtime t).year hmon
    have hyear : (gmtime t).year + 1900 = yearOf (t / 86400) := sub_add_cancel _ _
    rw [hnext, hyear]
    omega
  · simp only [gmtime]
    omega
  · simp only [gmtime]
    omega
  · simp only [gmtime]
    omega

/-- No month is longer than a year. -/
theorem Tm.Valid.mday_le {tm : Tm} (h : tm.Valid) : tm.mday ≤ 366 := by
  obtain ⟨m, hm⟩ := Int.eq_ofNat_of_zero_le h.mon.1
  have hm11 : m ≤ 11 := by
    have := h.mon.2
    omega
  have hmday := h.mday.2
  rw [hm, daysBefore_of_le _ hm11, daysBefore_succ _ hm11] at hmday
  have hfirst := daysBeforeMonth_mono (isLeap (tm.year + 1900)) (Nat.zero_le m) (by omega)
  have hlast := daysBeforeMonth_mono (isLeap (tm.year + 1900)) (m := m + 1) (k := 12) (by omega)
    (le_refl _)
  rw [daysBeforeMonth_twelve] at hlast
  have hzero : daysBeforeMonth (isLeap (tm.year + 1900)) 0 = 0 := by
    cases isLeap (tm.year + 1900) <;> rfl
  have hyear := yearDays_cases (tm.year + 1900)
  omega

/-- **Counting back what was read.** -/
theorem timegm_gmtime (t : ℤ) : timegm (gmtime t) = t := by
  rw [timegm, daysBefore_gmtime]
  simp only [gmtime]
  omega

/-- **Reading back what was counted.** -/
theorem gmtime_timegm {tm : Tm} (h : tm.Valid) : gmtime (timegm tm) = tm := by
  obtain ⟨m, hm⟩ := Int.eq_ofNat_of_zero_le h.mon.1
  have hm11 : m ≤ 11 := by
    have := h.mon.2
    omega
  obtain ⟨hmday, hmday'⟩ := h.mday
  rw [hm, daysBefore_of_le _ hm11, daysBefore_succ _ hm11] at hmday'
  obtain ⟨hhour, hhour'⟩ := h.hour
  obtain ⟨hmin, hmin'⟩ := h.min
  obtain ⟨hsec, hsec'⟩ := h.sec
  have hday : timegm tm / 86400 = daysBeforeYear (tm.year + 1900) +
      daysBeforeMonth (isLeap (tm.year + 1900)) m + tm.mday - 1 := by
    rw [timegm, hm, daysBefore_of_le _ hm11]
    omega
  have hlow := daysBeforeMonth_mono (isLeap (tm.year + 1900)) (Nat.zero_le m) (by omega)
  have hhigh := daysBeforeMonth_mono (isLeap (tm.year + 1900)) (m := m + 1) (k := 12) (by omega)
    le_rfl
  have hzero : daysBeforeMonth (isLeap (tm.year + 1900)) 0 = 0 := by
    cases isLeap (tm.year + 1900) <;> rfl
  have hyear : yearOf (timegm tm / 86400) = tm.year + 1900 := by
    refine yearOf_eq ?_ ?_
    · omega
    · rw [daysBeforeYear_succ, ← daysBeforeMonth_twelve]
      omega
  have hmonth : monthOf (isLeap (tm.year + 1900))
      (timegm tm / 86400 - daysBeforeYear (tm.year + 1900)) = m :=
    monthOf_eq hm11 (by omega) (by omega)
  have hrest : timegm tm % 86400 = tm.hour * 3600 + tm.min * 60 + tm.sec := by
    rw [timegm]
    omega
  cases tm
  simp only [gmtime, hyear, hmonth, Tm.mk.injEq] at *
  refine ⟨by omega, hm.symm, by omega, by omega, by omega, by omega⟩

/-- The same date of the next year, from March on. -/
theorem Tm.Valid.next_year {tm : Tm} (h : tm.Valid) (hmon : 2 ≤ tm.mon) :
    ({ tm with year := tm.year + 1 } : Tm).Valid ∧
      timegm { tm with year := tm.year + 1 } =
        timegm tm + yearDays (tm.year + 1 + 1900) * 86400 := by
  obtain ⟨m, hm⟩ := Int.eq_ofNat_of_zero_le h.mon.1
  have hm11 := h.mon.2
  have hthis := daysBefore_next_year tm.year (m := m) (by omega) (by omega)
  have hnext := daysBefore_next_year tm.year (m := m + 1) (by omega) (by omega)
  rw [Nat.cast_succ] at hnext
  obtain ⟨hmday, hmday'⟩ := h.mday
  rw [hm] at hmday'
  refine ⟨⟨h.mon, ⟨hmday, ?_⟩, h.hour, h.min, h.sec⟩, ?_⟩
  · show daysBefore (tm.year + 1) tm.mon + tm.mday ≤ daysBefore (tm.year + 1) (tm.mon + 1)
    rw [hm, hthis, hnext]
    omega
  · show (daysBefore (tm.year + 1) tm.mon + tm.mday - 1) * 86400 + tm.hour * 3600 + tm.min * 60 +
      tm.sec = _
    rw [timegm, hm, hthis]
    omega

/-- Later times are in later years. -/
theorem gmtime_year_mono {t u : ℤ} (h : t ≤ u) : (gmtime t).year ≤ (gmtime u).year := by
  obtain ⟨-, hhigh⟩ := yearOf_spec (u / 86400)
  obtain ⟨hlow, -⟩ := yearOf_spec (t / 86400)
  have hday : t / 86400 ≤ u / 86400 := Int.ediv_le_ediv (by decide) h
  show yearOf (t / 86400) - 1900 ≤ yearOf (u / 86400) - 1900
  by_contra hlt
  have := daysBeforeYear_mono (y := yearOf (u / 86400) + 1) (z := yearOf (t / 86400)) (by omega)
  omega

end BambooNet.Calendar
