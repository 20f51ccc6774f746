import BambooNet.Ftps.ListLine

/-!
# The year of a listed file

A listing prints the time of a recent file without its year. The parser takes the current year, or
the one before it if that gives a time more than 183 days ahead.

**The two years.** A file of the last 183 days is of the current year or of the one before it
(`year_cases`). In the second case it is of March or later, so the same date of the current year
is a whole year of the current year's length ahead (`timegm_next_year`). It is rolled back if that
is more than 183 days after the current time, and a year has 365 or 366 days, which is one day
less than twice 183 unless the year is a leap year.

Main result: `mtime_iff`.
-/

namespace BambooNet.Ftps

open CString (atoi_digits)
open Calendar

/-! ## Listed times -/

def monthNames : List Bytes :=
  [ascii "Jan", ascii "Feb", ascii "Mar", ascii "Apr", ascii "May", ascii "Jun",
    ascii "Jul", ascii "Aug", ascii "Sep", ascii "Oct", ascii "Nov", ascii "Dec"]

/-- The time without its seconds. -/
def toMinute (t : ℤ) : ℤ := t - t % 60

/-- The digits of a number. -/
structure Numeral (digits : Bytes) (n : ℤ) : Prop where
  ne : digits ≠ []
  digit : ∀ c ∈ digits, isDigit c = true
  value : (natOf digits : ℤ) = n

/-- The date columns of a line are the month, day, hour and minute of a time. -/
structure Shows (t : ℤ) (l : LsLine) : Prop where
  mon : monthNames[(gmtime t).mon.toNat]? = some (l.col 5)
  day : Numeral (l.col 6) (gmtime t).mday
  time : ∃ hour min, l.col 7 = hour ++ 0x3a :: min ∧ Numeral hour (gmtime t).hour ∧
    Numeral min (gmtime t).min

theorem Numeral.atoi {digits : Bytes} {n : ℤ} (h : Numeral digits n) (hlt : n < 2 ^ 31) :
    CString.atoi digits = n := by
  rw [atoi_digits h.digit, h.value]
  have hvalue := h.value
  omega

theorem colon_notMem {digits : Bytes} {n : ℤ} (h : Numeral digits n) : 0x3a ∉ digits :=
  fun hc => absurd (h.digit _ hc) (by decide)

theorem lsMonthIndex_name {m : ℕ} {name : Bytes} (h : monthNames[m]? = some name) :
    lsMonthIndex name = m + 1 := by
  have hm : m < 12 := (List.getElem?_eq_some_iff.1 h).1
  interval_cases m <;> (obtain rfl := Option.some.inj h; decide)

/-- The parser reads the fields of the time. -/
theorem lsTime_shows {t : ℤ} {l : LsLine} (h : Shows t l) (now : ℤ) :
    lsTime (l.col 5) (l.col 6) (l.col 7) now =
      let candidate := recentTime ((gmtime t).mon.toNat + 1) (gmtime t).mday (gmtime t).hour
        (gmtime t).min now
      if candidate > 0 then some candidate else none := by
  obtain ⟨hour, min, htime, hhour, hmin⟩ := h.time
  have hvalid := gmtime_valid t
  have hday : 0 < (gmtime t).mday := hvalid.mday.1
  have hne : l.col 7 ≠ [] := by simp [htime]
  have hcut : cutAt 0x3a (l.col 7) = some (hour, min) :=
    cutAt_eq_some_iff.2 ⟨htime, colon_notMem hhour⟩
  have hhour' := hhour.atoi (by have := hvalid.hour.2; omega)
  have hmin' := hmin.atoi (by have := hvalid.min.2; omega)
  have hday' := h.day.atoi (by have := hvalid.mday_le; omega)
  simp only [lsTime, lsMonthIndex_name h.mon, hday', hcut, hhour', hmin']
  rw [if_pos ⟨Nat.succ_pos _, hday, hne⟩]

/-! ## Years of recent times -/

/-- A time without its seconds, by its fields. -/
theorem timegm_toMinute (t : ℤ) : timegm { gmtime t with sec := 0 } = toMinute t := by
  have h := timegm_gmtime t
  have hsec : (gmtime t).sec = t % 60 := rfl
  simp only [timegm, toMinute, hsec] at h ⊢
  omega

theorem valid_toMinute (t : ℤ) : ({ gmtime t with sec := 0 } : Tm).Valid := by
  have h := gmtime_valid t
  exact ⟨h.mon, h.mday, h.hour, h.min, le_refl 0, Int.ofNat_lt.2 (by decide)⟩

variable {t now : ℤ}

/-- A file of the last 183 days is of the current year, or of March or later of the one before. -/
theorem year_cases (hle : t ≤ now) (hge : now - kSixMonths ≤ t) :
    (gmtime t).year = (gmtime now).year ∨
      (gmtime t).year + 1 = (gmtime now).year ∧ 2 ≤ (gmtime t).mon := by
  by_cases heq : (gmtime t).year = (gmtime now).year
  · exact .inl heq
  have hlt := lt_of_le_of_ne (gmtime_year_mono hle) heq
  have hday : now / 86400 ≤ t / 86400 + 183 := by
    simp only [kSixMonths] at hge
    omega
  have ht : yearOf (t / 86400) = (gmtime t).year + 1900 := (sub_add_cancel _ _).symm
  have hnow : yearOf (now / 86400) = (gmtime now).year + 1900 := (sub_add_cancel _ _).symm
  obtain ⟨hlow, -⟩ := yearOf_spec (now / 86400)
  obtain ⟨-, hhigh⟩ := yearOf_spec (t / 86400)
  rw [hnow] at hlow
  rw [ht] at hhigh
  have hyear := yearDays_cases ((gmtime t).year + 1900)
  have hsucc := daysBeforeYear_succ ((gmtime t).year + 1900)
  refine .inr ⟨?_, ?_⟩
  · -- two years are more than 183 days
    by_contra hne
    have hmono := daysBeforeYear_mono (y := (gmtime t).year + 1900 + 1 + 1)
      (z := (gmtime now).year + 1900) (by omega)
    have hsucc' := daysBeforeYear_succ ((gmtime t).year + 1900 + 1)
    have hyear' := yearDays_cases ((gmtime t).year + 1900 + 1)
    omega
  · -- the first two months end more than 183 days before the year does
    by_contra hmon
    have hmono := daysBeforeYear_mono (y := (gmtime t).year + 1900 + 1)
      (z := (gmtime now).year + 1900) (by omega)
    have hvalid := gmtime_valid t
    obtain ⟨m, hm⟩ := Int.eq_ofNat_of_zero_le hvalid.mon.1
    have hdate := daysBefore_gmtime t
    have hend := hvalid.mday.2
    have hmonth := daysBefore_of_le (gmtime t).year (m := m + 1) (by omega)
    have hmarch := daysBeforeMonth_mono (isLeap ((gmtime t).year + 1900)) (m := m + 1) (k := 2)
      (by omega) (by decide)
    have hsixty := daysBeforeMonth_of_two_le ((gmtime t).year + 1900) (le_refl 2)
    have hfifty : daysBeforeMonth false 2 = 59 := rfl
    rw [Nat.cast_succ] at hmonth
    rw [hm] at hend hdate
    omega

/-- **The time of a recent file** is the right one, or a year ahead if that is not too far. -/
theorem recentTime_eq (hle : t ≤ now) (hge : now - kSixMonths ≤ t) :
    recentTime ((gmtime t).mon.toNat + 1) (gmtime t).mday (gmtime t).hour (gmtime t).min now =
      if (gmtime t).year = (gmtime now).year ∨
          now + kSixMonths < toMinute t + yearDays ((gmtime now).year + 1900) * 86400 then
        toMinute t
      else toMinute t + yearDays ((gmtime now).year + 1900) * 86400 := by
  have hmon : (((gmtime t).mon.toNat + 1 : ℕ) : ℤ) - 1 = (gmtime t).mon := by
    have := (gmtime_valid t).mon.1
    omega
  have hminute : toMinute t ≤ t := by
    rw [toMinute]
    omega
  rcases year_cases hle hge with hyear | ⟨hyear, hmarch⟩
  · have hthis : timegm { gmtime t with year := (gmtime now).year, sec := 0 } = toMinute t :=
      hyear ▸ timegm_toMinute t
    have hsix : (0 : ℤ) < kSixMonths := by decide
    rw [recentTime, hmon]
    dsimp only
    rw [hthis, if_neg (by omega), if_pos (Or.inl hyear)]
  · obtain ⟨hvalid, hnext⟩ := (valid_toMinute t).next_year hmarch
    have hnow : timegm { gmtime t with year := (gmtime now).year, sec := 0 } =
        toMinute t + yearDays ((gmtime now).year + 1900) * 86400 := by
      rw [← timegm_toMinute, ← hyear]
      exact hnext
    have hne : (gmtime t).year ≠ (gmtime now).year := by omega
    rw [recentTime, hmon]
    dsimp only
    rw [hnow]
    by_cases hlate : now + kSixMonths < toMinute t + yearDays ((gmtime now).year + 1900) * 86400
    · -- the fields were in their ranges, so only the year changes
      rw [if_pos hlate, if_pos (Or.inr hlate), ← hnow, ← hyear, gmtime_timegm hvalid,
        ← timegm_toMinute]
      show timegm { gmtime t with year := (gmtime t).year + 1 - 1, sec := 0 } = _
      rw [add_sub_cancel_right]
    · rw [if_neg hlate, if_neg (not_or.2 ⟨hne, hlate⟩)]

/-- The time of the entry, as a number. -/
theorem mtime_eq (l : LsLine) (h : Shows t l) (nowUtc clock : ℤ) :
    ((parseLsLine l.bytes {} nowUtc clock).mtime : ℤ) =
      max 0 (recentTime ((gmtime t).mon.toNat + 1) (gmtime t).mday (gmtime t).hour (gmtime t).min
        (currentTime nowUtc clock)) := by
  rw [l.parseLsLine_bytes, lsTime_shows h]
  dsimp only
  split
  · next hpos =>
    simp only [Option.map_some, Option.getD_some]
    omega
  · next hpos =>
    simp only [Option.map_none, Option.getD_none]
    omega

/-- **The time of a recent file is right** exactly if it is after 1970, and of the current year or
late enough in the one before: a year further on must be more than 183 days ahead. -/
theorem mtime_iff (l : LsLine) (h : Shows t l) (nowUtc clock : ℤ)
    (hle : t ≤ currentTime nowUtc clock) (hge : currentTime nowUtc clock - kSixMonths ≤ t) :
    ((parseLsLine l.bytes {} nowUtc clock).mtime : ℤ) = toMinute t ↔
      0 ≤ toMinute t ∧ ((gmtime t).year = (gmtime (currentTime nowUtc clock)).year ∨
        currentTime nowUtc clock + kSixMonths <
          toMinute t + yearDays ((gmtime (currentTime nowUtc clock)).year + 1900) * 86400) := by
  rw [mtime_eq l h, recentTime_eq hle hge]
  have hyear := yearDays_cases ((gmtime (currentTime nowUtc clock)).year + 1900)
  split
  · next hcond =>
    rw [and_iff_left hcond]
    omega
  · next hcond =>
    refine iff_of_false (fun heq => ?_) fun hand => hcond hand.2
    omega

theorem oldLine_fits : LsLine.Spaced
    (["-rw-r--r--", "1", "root", "root", "99", "Dec", "12", "08:00"].map ascii)
    (ascii "old.3mf") := ⟨rfl, by decide, by decide, by decide⟩

/-- `-rw-r--r-- 1 root root 99 Dec 12 08:00 old.3mf`. -/
def oldLine : LsLine :=
  .spaced (["-rw-r--r--", "1", "root", "root", "99", "Dec", "12", "08:00"].map ascii)
    (ascii "old.3mf") oldLine_fits

theorem shows_old : Shows 1765526430 oldLine where
  mon := by decide
  day := ⟨by decide, List.all_iff_forall_prop.1 (by decide), by decide⟩
  time := ⟨ascii "08", ascii "00", by decide,
    ⟨by decide, List.all_iff_forall_prop.1 (by decide), by decide⟩,
    ⟨by decide, List.all_iff_forall_prop.1 (by decide), by decide⟩⟩

/-- On the 21st of April 2026 a file of the 12th of December 2025. -/
theorem mtime_iff_old : ((parseLsLine oldLine.bytes {} 0 1776765600).mtime : ℤ) = 1765526400 :=
  (mtime_iff oldLine shows_old 0 1776765600 (by decide) (by decide)).2
    ⟨by decide, .inr (by decide)⟩

theorem octoberLine_fits : LsLine.Spaced
    (["-rw-r--r--", "1", "root", "root", "99", "Oct", "20", "22:00"].map ascii)
    (ascii "old.3mf") := ⟨rfl, by decide, by decide, by decide⟩

/-- `-rw-r--r-- 1 root root 99 Oct 20 22:00 old.3mf`. -/
def octoberLine : LsLine :=
  .spaced (["-rw-r--r--", "1", "root", "root", "99", "Oct", "20", "22:00"].map ascii)
    (ascii "old.3mf") octoberLine_fits

theorem shows_october : Shows 1760997600 octoberLine where
  mon := by decide
  day := ⟨by decide, List.all_iff_forall_prop.1 (by decide), by decide⟩
  time := ⟨ascii "22", ascii "00", by decide,
    ⟨by decide, List.all_iff_forall_prop.1 (by decide), by decide⟩,
    ⟨by decide, List.all_iff_forall_prop.1 (by decide), by decide⟩⟩

/-- On the 21st of April 2026 a file of the 20th of October 2025, 182 and a half days before, is
listed as one of October 2026. -/
theorem october_a_year_ahead :
    ¬ ∀ (l : LsLine) (t nowUtc clock : ℤ), Shows t l → t ≤ currentTime nowUtc clock →
      currentTime nowUtc clock - kSixMonths ≤ t → 0 ≤ toMinute t →
      ((parseLsLine l.bytes {} nowUtc clock).mtime : ℤ) = toMinute t := by
  intro h
  have hmtime := h octoberLine 1760997600 0 1776765600 shows_october (by decide) (by decide)
    (by decide)
  rw [mtime_eq octoberLine shows_october] at hmtime
  revert hmtime
  decide

end BambooNet.Ftps
