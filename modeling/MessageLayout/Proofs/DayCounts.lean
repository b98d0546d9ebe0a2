import Mathlib.Tactic.IntervalCases
import MessageLayout.Calendar.Date

/-!
# Days and dates

Every day has one date and every date one day, in both directions of time. A year that starts in
March is counted first: its number and the day within it tell the day, and the date is read off the
day of the year. So the dates are those of the Gregorian calendar before its introduction too: day
zero is the first of January 1970, and the date of the next day is the next date.

    (ofDays n).toDays = n                                               (toDays_ofDays)
    d.IsReal → ofDays d.toDays = d                                      (ofDays_toDays)
    ofDays (n + 1) = (ofDays n).next                                    (ofDays_add_one)
-/

namespace MessageLayout.Calendar

theorem isLeapYear_iff {year : Int} :
    isLeapYear year = true ↔ year % 4 = 0 ∧ (year % 100 ≠ 0 ∨ year % 400 = 0) := by
  simp [isLeapYear]

theorem daysInMonth_bounds (year : Int) (month : Nat) :
    28 ≤ daysInMonth year month ∧ daysInMonth year month ≤ 31 := by
  unfold daysInMonth
  split
  · split <;> decide
  all_goals decide

namespace Date

/-! ## Dates that exist -/

/-- There is such a date, in any year. -/
structure IsReal (d : Date) : Prop where
  one_le_month : 1 ≤ d.month
  month_le : d.month ≤ 12
  one_le_day : 1 ≤ d.day
  day_le : d.day ≤ daysInMonth d.year d.month

theorem IsReal.isValid {d : Date} (h : d.IsReal) (hfirst : -262143 ≤ d.year)
    (hlast : d.year ≤ 262142) : d.isValid = true := by
  simp [Date.isValid, h.one_le_month, h.month_le, h.one_le_day, h.day_le, hfirst, hlast]

/-- The date of the next day. -/
def next (d : Date) : Date :=
  if d.day < daysInMonth d.year d.month then ⟨d.year, d.month, d.day + 1⟩
  else if d.month < 12 then ⟨d.year, d.month + 1, 1⟩
  else ⟨d.year + 1, 1, 1⟩

/-! ## Years that start in March -/

/-- The days from the first of March of year zero to that of another year. -/
def daysBefore (year : Int) : Int :=
  365 * year + year / 4 - year / 100 + year / 400

/-- A year that starts in March has such a day, counted from zero. Its last month is the February of
the next year. -/
structure IsDayOf (year : Int) (day : Nat) : Prop where
  le : day ≤ 365
  leap : day = 365 → isLeapYear (year + 1) = true

theorem daysBefore_add_one (year : Int) :
    daysBefore (year + 1) = daysBefore year + if isLeapYear (year + 1) then 366 else 365 := by
  unfold daysBefore
  split
  next h =>
    rw [isLeapYear_iff] at h
    omega
  next h =>
    rw [isLeapYear_iff] at h
    omega

theorem daysBefore_mono {y y' : Int} (h : y ≤ y') : daysBefore y ≤ daysBefore y' := by
  induction y', h using Int.leInduction with
  | base => exact le_refl _
  | succ n _ ih =>
    rw [daysBefore_add_one]
    split <;> omega

theorem IsDayOf.lt {y : Int} {n : Nat} (h : IsDayOf y n) :
    daysBefore y + n < daysBefore (y + 1) := by
  rw [daysBefore_add_one]
  have hle := h.le
  split
  · omega
  next hleap =>
    have hn : n ≠ 365 := fun he => hleap (h.leap he)
    omega

/-- Years do not overlap. -/
theorem IsDayOf.eq {y y' : Int} {n n' : Nat} (h : IsDayOf y n) (h' : IsDayOf y' n')
    (he : daysBefore y + n = daysBefore y' + n') : y = y' ∧ n = n' := by
  have hlt := h.lt
  have hlt' := h'.lt
  have hy : y = y' := by
    rcases Int.lt_trichotomy y y' with hyy | hyy | hyy
    · have hmono := daysBefore_mono (show y + 1 ≤ y' by omega)
      omega
    · exact hyy
    · have hmono := daysBefore_mono (show y' + 1 ≤ y by omega)
      omega
  subst hy
  exact ⟨rfl, by omega⟩

/-! ## Months from March on -/

/-- The days from the first of March to the first of a month, where March is zero. -/
def monthStart (m : Nat) : Nat :=
  (153 * m + 2) / 5

/-- The number of a month that is counted from March, where March is zero. -/
def monthNumber (m : Nat) : Nat :=
  if m < 10 then m + 3 else m - 9

/-- The date of a day of a year that starts in March. -/
def ofMarchDay (year : Int) (n : Nat) : Date :=
  let m := (5 * n + 2) / 153
  ⟨if m < 10 then year else year + 1, monthNumber m, n - monthStart m + 1⟩

/-- The year from March on to which a date belongs. -/
def marchYear (d : Date) : Int :=
  if d.month ≤ 2 then d.year - 1 else d.year

/-- The month of a date, where March is zero. -/
def marchMonth (d : Date) : Nat :=
  if d.month ≤ 2 then d.month + 9 else d.month - 3

/-- The days from the first of March to a date. -/
def marchDay (d : Date) : Nat :=
  monthStart d.marchMonth + d.day - 1

theorem month_eq_iff {n m : Nat} :
    (5 * n + 2) / 153 = m ↔ monthStart m ≤ n ∧ n < monthStart (m + 1) := by
  unfold monthStart
  omega

/-- But for February, a month lasts until the next one starts, in whatever year. -/
theorem daysInMonth_monthNumber {m : Nat} (hm : m < 11) (year : Int) :
    daysInMonth year (monthNumber m) = monthStart (m + 1) - monthStart m := by
  interval_cases m <;> rfl

theorem daysInMonth_february (year : Int) :
    daysInMonth year (monthNumber 11) = if isLeapYear year then 29 else 28 := rfl

section Numbers

variable {m : Nat} (hm : m ≤ 11) (year : Int) (day : Nat)

include hm

theorem marchMonth_mk :
    (Date.mk (if m < 10 then year else year + 1) (monthNumber m) day).marchMonth = m := by
  simp only [marchMonth, monthNumber]
  split_ifs <;> omega

theorem marchYear_mk :
    (Date.mk (if m < 10 then year else year + 1) (monthNumber m) day).marchYear = year := by
  simp only [marchYear, monthNumber]
  split_ifs <;> omega

end Numbers

/-- The year, the month and the day of a date that is counted from March. -/
theorem IsReal.eq_mk {d : Date} (h : d.IsReal) : d.marchMonth ≤ 11 ∧
    d = ⟨if d.marchMonth < 10 then d.marchYear else d.marchYear + 1, monthNumber d.marchMonth,
      d.day⟩ := by
  obtain ⟨year, month, day⟩ := d
  have hone : 1 ≤ month := h.one_le_month
  have hle : month ≤ 12 := h.month_le
  simp only [marchMonth, marchYear, monthNumber, mk.injEq, and_true]
  by_cases hmonth : month ≤ 2
  · simp only [if_pos hmonth]
    rw [if_neg (by omega), if_neg (by omega)]
    omega
  · simp only [if_neg hmonth]
    split_ifs <;> omega

theorem IsReal.marchDay_bounds {d : Date} (h : d.IsReal) :
    monthStart d.marchMonth ≤ d.marchDay ∧ d.marchDay < monthStart (d.marchMonth + 1) := by
  obtain ⟨hm, hd⟩ := h.eq_mk
  have hone := h.one_le_day
  have hle := h.day_le
  rw [congrArg Date.month hd] at hle
  unfold marchDay
  by_cases hfeb : d.marchMonth = 11
  · rw [hfeb, daysInMonth_february] at hle
    rw [hfeb]
    unfold monthStart
    split at hle <;> omega
  · rw [daysInMonth_monthNumber (by omega)] at hle
    omega

theorem IsReal.isDayOf {d : Date} (h : d.IsReal) : IsDayOf d.marchYear d.marchDay := by
  obtain ⟨hm, hd⟩ := h.eq_mk
  have hle := h.day_le
  rw [congrArg Date.month hd] at hle
  by_cases hfeb : d.marchMonth = 11
  · have hyear := congrArg Date.year hd
    simp only [hfeb] at hyear
    rw [hfeb, daysInMonth_february] at hle
    have hday : d.marchDay = 336 + d.day := by
      unfold marchDay monthStart
      omega
    rw [if_neg (by decide)] at hyear
    rw [hyear] at hle
    split at hle
    next hleap => exact ⟨by omega, fun _ => hleap⟩
    · exact ⟨by omega, by omega⟩
  · have hbounds := h.marchDay_bounds
    have hday : d.marchDay < 337 := by
      unfold monthStart at hbounds
      omega
    exact ⟨by omega, by omega⟩

theorem IsReal.ofMarchDay_marchDay {d : Date} (h : d.IsReal) :
    ofMarchDay d.marchYear d.marchDay = d := by
  have hmonth := month_eq_iff.mpr h.marchDay_bounds
  have hone := h.one_le_day
  have hday : d.marchDay - monthStart d.marchMonth + 1 = d.day := by
    unfold marchDay
    omega
  simp only [ofMarchDay, hmonth, hday]
  exact h.eq_mk.2.symm

/-- A day of a year is read off as a date, and nothing is lost. -/
theorem IsDayOf.ofMarchDay {year : Int} {n : Nat} (h : IsDayOf year n) :
    (ofMarchDay year n).IsReal ∧ (Date.ofMarchDay year n).marchYear = year ∧
      (Date.ofMarchDay year n).marchDay = n := by
  obtain ⟨m, hm⟩ : ∃ m, (5 * n + 2) / 153 = m := ⟨_, rfl⟩
  obtain ⟨hstart, hend⟩ := month_eq_iff.mp hm
  have hle := h.le
  have hlast : m ≤ 11 := by omega
  simp only [Date.ofMarchDay, hm, marchDay, marchMonth_mk hlast, marchYear_mk hlast, true_and]
  refine ⟨⟨?_, ?_, ?_, ?_⟩, ?_⟩
  · show 1 ≤ monthNumber m
    unfold monthNumber
    split <;> omega
  · show monthNumber m ≤ 12
    unfold monthNumber
    split <;> omega
  · simp
  · by_cases hfeb : m = 11
    · subst hfeb
      simp only [daysInMonth_february, monthStart] at hstart ⊢
      rw [if_neg (show ¬(11 < 10) by decide)]
      split
      · omega
      next hleap =>
        have hn : n ≠ 365 := fun he => hleap (h.leap he)
        omega
    · simp only [daysInMonth_monthNumber (show m < 11 by omega)]
      omega
  · simp
    omega

/-! ## Days and dates -/

theorem toDays_eq {d : Date} (h : 1 ≤ d.day) :
    d.toDays = daysBefore d.marchYear + d.marchDay - 719468 := by
  simp only [toDays, daysBefore, marchDay, monthStart, marchYear, marchMonth]
  split <;> omega

/-- The days before a year of a cycle, of a century and of four years. -/
theorem daysBefore_parts {q c f y : Int} (hc : 0 ≤ c ∧ c ≤ 3) (hf : 0 ≤ f ∧ f ≤ 24)
    (hy : 0 ≤ y ∧ y ≤ 3) :
    daysBefore (q * 400 + c * 100 + f * 4 + y) = 146097 * q + 36524 * c + 1461 * f + 365 * y := by
  unfold daysBefore
  omega

/-- The date of a day is that of a day of a year that starts in March. -/
theorem exists_ofDays (days : Int) : ∃ year n, IsDayOf year n ∧
    ofDays days = ofMarchDay year n ∧ daysBefore year + n = days + 719468 := by
  unfold ofDays
  generalize days + 719468 = n
  -- the day within its cycle, its century, its four years and its year
  obtain ⟨c, hc⟩ : ∃ c, min 3 (n % 146097 / 36524) = c := ⟨_, rfl⟩
  obtain ⟨f, hf⟩ : ∃ f, (n % 146097 - c * 36524) / 1461 = f := ⟨_, rfl⟩
  obtain ⟨k, hk⟩ : ∃ k, (n % 146097 - c * 36524) % 1461 = k := ⟨_, rfl⟩
  obtain ⟨y, hy⟩ : ∃ y, min 3 (k / 365) = y := ⟨_, rfl⟩
  have hcbounds : 0 ≤ c ∧ c ≤ 3 := by omega
  have hcentury : 0 ≤ n % 146097 - c * 36524 ∧
      n % 146097 - c * 36524 ≤ if c = 3 then 36524 else 36523 := by
    split <;> omega
  have hfbounds : 0 ≤ f ∧ f ≤ 24 := by
    split at hcentury <;> omega
  have hybounds : 0 ≤ y ∧ y ≤ 3 := by omega
  have hday : 0 ≤ k - y * 365 ∧ k - y * 365 ≤ if y = 3 then 365 else 364 := by
    split <;> omega
  have hcast : ((k - y * 365).toNat : Int) = k - y * 365 := Int.toNat_of_nonneg hday.1
  refine ⟨n / 146097 * 400 + c * 100 + f * 4 + y, (k - y * 365).toNat, ⟨?_, ?_⟩, ?_, ?_⟩
  · split at hday <;> omega
  · intro hlast
    rw [isLeapYear_iff]
    split at hday
    · split at hcentury <;> omega
    · omega
  · simp only [hc, hf, hk, hy, ofMarchDay, monthNumber, monthStart]
    split <;> rfl
  · rw [daysBefore_parts hcbounds hfbounds hybounds, hcast]
    omega

theorem isReal_ofDays (days : Int) : (ofDays days).IsReal := by
  obtain ⟨year, n, h, hd, -⟩ := exists_ofDays days
  rw [hd]
  exact h.ofMarchDay.1

theorem toDays_ofDays (days : Int) : (ofDays days).toDays = days := by
  obtain ⟨year, n, h, hd, hdays⟩ := exists_ofDays days
  obtain ⟨hreal, hyear, hday⟩ := h.ofMarchDay
  rw [hd, toDays_eq hreal.one_le_day, hyear, hday, hdays]
  omega

theorem ofDays_toDays {d : Date} (h : d.IsReal) : ofDays d.toDays = d := by
  obtain ⟨year, n, hn, hd, hdays⟩ := exists_ofDays d.toDays
  rw [toDays_eq h.one_le_day] at hdays
  obtain ⟨rfl, rfl⟩ := hn.eq h.isDayOf (by omega)
  rw [hd, h.ofMarchDay_marchDay]

theorem IsReal.next {d : Date} (h : d.IsReal) : d.next.IsReal := by
  obtain ⟨hone, hle, hday, hlast⟩ := h
  have hmonths : ∀ year month, 1 ≤ daysInMonth year month := fun year month =>
    (daysInMonth_bounds year month).1.trans' (by decide)
  unfold Date.next
  split_ifs with hmore hyear
  · exact ⟨hone, hle, by simp, hmore⟩
  · exact ⟨by simp, hyear, le_refl _, hmonths _ _⟩
  · exact ⟨le_refl _, by simp, le_refl _, hmonths _ _⟩

/-- Behind the last day of a month but February comes the first of the next month of the same year
from March on. -/
theorem IsReal.next_of_last {d : Date} (h : d.IsReal) (hm : d.marchMonth < 11)
    (hlast : ¬d.day < daysInMonth d.year d.month) :
    d.next = ⟨if d.marchMonth + 1 < 10 then d.marchYear else d.marchYear + 1,
      monthNumber (d.marchMonth + 1), 1⟩ := by
  obtain ⟨-, hd⟩ := h.eq_mk
  have hmonth := congrArg Date.month hd
  have hyear := congrArg Date.year hd
  rw [Date.next, if_neg hlast, hmonth, hyear]
  generalize d.marchMonth = m at hm
  interval_cases m <;> rfl

/-- The next date is the date of the next day. -/
theorem IsReal.toDays_next {d : Date} (h : d.IsReal) : d.next.toDays = d.toDays + 1 := by
  have hone := h.one_le_day
  have hle := h.day_le
  obtain ⟨hm, hd⟩ := h.eq_mk
  rw [toDays_eq hone, toDays_eq h.next.one_le_day]
  have hday : d.marchDay = monthStart d.marchMonth + d.day - 1 := rfl
  by_cases hmore : d.day < daysInMonth d.year d.month
  · have hnext : d.next = ⟨d.year, d.month, d.day + 1⟩ := if_pos hmore
    have hyear : d.next.marchYear = d.marchYear := by rw [hnext]; rfl
    have hnextDay : d.next.marchDay = monthStart d.marchMonth + (d.day + 1) - 1 := by
      rw [hnext]
      rfl
    rw [hyear, hnextDay, hday]
    omega
  · have hlast : d.day = daysInMonth d.year d.month := by omega
    rw [congrArg Date.month hd] at hlast
    by_cases hfeb : d.marchMonth = 11
    · -- the first of March begins a year
      have hmonth : d.month = 2 := by rw [congrArg Date.month hd, hfeb]; rfl
      have hyear : d.year = d.marchYear + 1 := by rw [congrArg Date.year hd, hfeb]; rfl
      have hnext : d.next = ⟨d.year, 3, 1⟩ := by
        rw [Date.next, if_neg hmore, hmonth]
        rfl
      have hnextYear : d.next.marchYear = d.year := by rw [hnext]; rfl
      have hnextDay : d.next.marchDay = 0 := by simp [hnext, marchDay, marchMonth, monthStart]
      rw [hfeb, daysInMonth_february, hyear] at hlast
      rw [hnextYear, hnextDay, hyear, daysBefore_add_one, hday, hlast, hfeb]
      split <;> simp [monthStart] <;> omega
    · have hm' : d.marchMonth < 11 := by omega
      have hnext := h.next_of_last hm' hmore
      have hnextYear : d.next.marchYear = d.marchYear := by rw [hnext, marchYear_mk (by omega)]
      have hnextDay : d.next.marchDay = monthStart (d.marchMonth + 1) := by
        unfold marchDay
        rw [hnext, marchMonth_mk (by omega)]
        simp
      rw [daysInMonth_monthNumber hm'] at hlast
      rw [hnextYear, hnextDay, hday]
      unfold monthStart at hlast ⊢
      omega

/-- The date of the next day is the next date. -/
theorem ofDays_add_one (days : Int) : ofDays (days + 1) = (ofDays days).next := by
  have h := isReal_ofDays days
  have hnext := h.toDays_next
  rw [toDays_ofDays] at hnext
  rw [← hnext, ofDays_toDays h.next]

end Date

end MessageLayout.Calendar
