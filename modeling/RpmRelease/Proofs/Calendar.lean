import Mathlib.Tactic.Common
import Mathlib.Tactic.IntervalCases
import RpmRelease.Calendar
import RpmRelease.Proofs.Text.Decimal

/-!
# The calendar behind day numbers

The proleptic Gregorian calendar is a chain of dates, each with one after it.  The epoch has day
number 0, and numbers follow the chain in both directions: `Date.IsDay`.  `Date.ofDayNumber`
computes the date of a number without walking there, and `Date.isDay_iff` says that it is the same
date.

The link between the two is the number `Date.toDayNumber` of a date.  It counts years from March to
February, as `Date.ofDayNumber` does, so that a leap day is the last day of its year.
-/

set_option autoImplicit false

namespace RpmRelease.Date

/-- Whether the calendar has this date. -/
structure Valid (d : Date) : Prop where
  month_pos : 1 ≤ d.month
  month_le : d.month ≤ 12
  day_pos : 1 ≤ d.day
  day_le : d.day ≤ daysIn d.year d.month

/-- The date after this one. -/
def next (d : Date) : Date :=
  if d.day < daysIn d.year d.month then ⟨d.year, d.month, d.day + 1⟩
  else if d.month < 12 then ⟨d.year, d.month + 1, 1⟩
  else ⟨d.year + 1, 1, 1⟩

/-- Which date has a day number: the epoch has 0, and going to the next or back to the previous
date adds or takes one. -/
inductive IsDay : Int → Date → Prop
  | epoch : IsDay 0 epoch
  | next {n : Int} {d : Date} : IsDay n d → IsDay (n + 1) d.next
  | previous {n : Int} {d : Date} : d.Valid → IsDay (n + 1) d.next → IsDay n d

/-- Every month has a day. -/
theorem daysIn_pos {year : Int} {month : Nat} (hlow : 1 ≤ month) (hhigh : month ≤ 12) :
    1 ≤ daysIn year month := by
  interval_cases month <;> simp only [daysIn] <;> first | omega | (split <;> omega)

/-- The date after a date of the calendar is one too. -/
theorem Valid.next {d : Date} (h : d.Valid) : d.next.Valid := by
  have hmonth := h.month_le
  unfold Date.next
  split
  · next hday => exact ⟨h.month_pos, hmonth, by simp, hday⟩
  · split
    · next hlast => exact ⟨by simp, hlast, by simp, daysIn_pos (Nat.le_add_left 1 _) hlast⟩
    · exact ⟨by simp, by simp, by simp, daysIn_pos (by simp) (by simp)⟩

/-! ### Years that begin in March -/

/-- The days from 1 March of year 0 to 1 March of a year. -/
def marchStart (year : Int) : Int :=
  365 * year + year / 4 - year / 100 + year / 400

/-- The year in which the March before a month lies. -/
def marchYear (year : Int) (month : Nat) : Int :=
  if month ≤ 2 then year - 1 else year

/-- The number of a month counted from March. -/
def marchIndex (month : Nat) : Nat :=
  if month ≤ 2 then month + 9 else month - 3

/-- The days from 1 March to the first day of a month counted from March. -/
def monthStart (index : Nat) : Nat :=
  (153 * index + 2) / 5

/-- The days from 1 March to a date. -/
def dayOfYear (d : Date) : Nat :=
  monthStart (marchIndex d.month) + (d.day - 1)

/-- The number of a date. -/
def toDayNumber (d : Date) : Int :=
  marchStart (marchYear d.year d.month) + d.dayOfYear - 719468

/-- A year from March to March has eleven months and the February of the next year. -/
theorem marchStart_succ (year : Int) :
    marchStart (year + 1) = marchStart year + monthStart 11 + daysIn (year + 1) 2 := by
  unfold marchStart daysIn isLeap monthStart
  simp only [Bool.and_eq_true, Bool.or_eq_true, beq_iff_eq, bne_iff_ne]
  split <;> simp only [Nat.cast_ofNat] <;> omega

/-- Later years begin later. -/
theorem marchStart_mono {a b : Int} (h : a ≤ b) : marchStart a ≤ marchStart b := by
  unfold marchStart
  omega

/-- Each month but February begins when the one before it is over. -/
theorem monthStart_succ {month : Nat} (hlow : 1 ≤ month) (hhigh : month ≤ 12) (hne : month ≠ 2)
    (year : Int) :
    monthStart (marchIndex month + 1) = monthStart (marchIndex month) + daysIn year month := by
  interval_cases month <;> first | rfl | exact absurd rfl hne

/-- The number of the next date is the next number. -/
theorem toDayNumber_next {d : Date} (h : d.Valid) : d.next.toDayNumber = d.toDayNumber + 1 := by
  have hpos := h.day_pos
  unfold next
  split
  · simp only [toDayNumber, dayOfYear]
    omega
  -- after the last day of a month the next month begins, or the next year
  · next hday =>
    have hlast : d.day = daysIn d.year d.month := Nat.le_antisymm h.day_le (Nat.le_of_not_lt hday)
    split
    · next hmonth =>
      by_cases htwo : d.month = 2
      · -- the first day of March begins a year
        have hstart := marchStart_succ (d.year - 1)
        rw [Int.sub_add_cancel] at hstart
        rw [htwo] at hlast
        simp only [toDayNumber, dayOfYear, htwo, marchYear, marchIndex, monthStart] at hstart ⊢
        simp only [Nat.le_refl, if_true, Nat.reduceLeDiff, if_false]
        omega
      · have hstart := monthStart_succ h.month_pos h.month_le htwo d.year
        have hindex : marchIndex (d.month + 1) = marchIndex d.month + 1 := by
          unfold marchIndex
          split <;> split <;> omega
        have hyear : marchYear d.year (d.month + 1) = marchYear d.year d.month := by
          unfold marchYear
          split <;> split <;> omega
        simp only [toDayNumber, dayOfYear, hindex, hyear, hstart]
        omega
    · have htwelve : d.month = 12 := by
        have := h.month_le
        omega
      rw [htwelve] at hlast
      simp only [toDayNumber, dayOfYear, htwelve, marchYear, marchIndex, monthStart, daysIn] at hlast ⊢
      simp only [Nat.reduceLeDiff, if_true, if_false, Int.add_sub_cancel]
      omega

/-- There are twelve months from March on, the last one with the index 11. -/
theorem marchIndex_le {d : Date} (h : d.Valid) : marchIndex d.month ≤ 11 := by
  have hlow := h.month_pos
  have hhigh := h.month_le
  unfold marchIndex
  split <;> omega

/-- Before the last month of a year no date reaches the start of the next month. -/
theorem dayOfYear_lt_monthStart {d : Date} (h : d.Valid) (hindex : marchIndex d.month ≠ 11) :
    d.dayOfYear < monthStart (marchIndex d.month + 1) := by
  have htwo : d.month ≠ 2 := fun htwo => hindex (by rw [htwo]; rfl)
  have hpos := h.day_pos
  have hle := h.day_le
  rw [monthStart_succ h.month_pos h.month_le htwo d.year, dayOfYear]
  omega

/-- No date reaches the start of the next year. -/
theorem dayOfYear_lt {d : Date} (h : d.Valid) :
    marchStart (marchYear d.year d.month) + d.dayOfYear <
      marchStart (marchYear d.year d.month + 1) := by
  have hle := marchIndex_le h
  rw [marchStart_succ]
  by_cases hindex : marchIndex d.month = 11
  · have htwo : d.month = 2 := by
      have hhigh := h.month_le
      unfold marchIndex at hindex
      split at hindex <;> omega
    have hday := h.day_le
    have hpos := h.day_pos
    rw [htwo] at hday
    simp only [dayOfYear, htwo, marchYear, marchIndex, Nat.le_refl, if_true, Int.sub_add_cancel,
      Nat.reduceAdd]
    omega
  · have hlt := dayOfYear_lt_monthStart h hindex
    simp only [monthStart] at hlt ⊢
    omega

/-- A number has at most one date. -/
theorem toDayNumber_injective {d e : Date} (hd : d.Valid) (he : e.Valid)
    (h : d.toDayNumber = e.toDayNumber) : d = e := by
  -- both dates lie in one year counted from March, there in one month, and there on one day
  have hyear : marchYear d.year d.month = marchYear e.year e.month := by
    have hdlt := dayOfYear_lt hd
    have helt := dayOfYear_lt he
    unfold toDayNumber at h
    rcases Int.lt_trichotomy (marchYear d.year d.month) (marchYear e.year e.month) with
      hlt | heq | hgt
    · have := marchStart_mono (Int.add_one_le_of_lt hlt)
      omega
    · exact heq
    · have := marchStart_mono (Int.add_one_le_of_lt hgt)
      omega
  have hday : d.dayOfYear = e.dayOfYear := by
    rw [toDayNumber, toDayNumber, hyear] at h
    omega
  have hindex : marchIndex d.month = marchIndex e.month := by
    have hdle := marchIndex_le hd
    have hele := marchIndex_le he
    have hdlt := dayOfYear_lt_monthStart hd
    have helt := dayOfYear_lt_monthStart he
    have hdge : monthStart (marchIndex d.month) ≤ d.dayOfYear := Nat.le_add_right _ _
    have hege : monthStart (marchIndex e.month) ≤ e.dayOfYear := Nat.le_add_right _ _
    unfold monthStart at hdlt helt hdge hege
    omega
  have hmonth : d.month = e.month := by
    have hdlow := hd.month_pos
    have helow := he.month_pos
    have hdhigh := hd.month_le
    have hehigh := he.month_le
    unfold marchIndex at hindex
    split at hindex <;> split at hindex <;> omega
  have hyears : d.year = e.year := by
    rw [hmonth] at hyear
    unfold marchYear at hyear
    split at hyear <;> omega
  have hdays : d.day = e.day := by
    have hdpos := hd.day_pos
    have hepos := he.day_pos
    rw [dayOfYear, dayOfYear, hindex] at hday
    omega
  cases d
  cases e
  simp_all

/-! ### The date of a number -/

/-- The year of an era in which a day of the era lies. -/
def yearOfEra (dayOfEra : Nat) : Nat :=
  (dayOfEra - dayOfEra / 1460 + dayOfEra / 36524 - dayOfEra / 146096) / 365

/-- The days of an era before one of its years. -/
def eraStart (year : Nat) : Nat :=
  365 * year + year / 4 - year / 100 + year / 400

/-- Later days of an era are in later years. -/
theorem yearOfEra_mono {a b : Nat} (h : a ≤ b) (hb : b < 146097) : yearOfEra a ≤ yearOfEra b := by
  induction h with
  | refl => exact Nat.le_refl _
  | step _ ih =>
    refine Nat.le_trans (ih (by omega)) (Nat.div_le_div_right ?_)
    omega

/-- The first and the last day of a year of an era are in that year. -/
theorem yearOfEra_eraStart : ∀ year < 400,
    yearOfEra (eraStart year) = year ∧ yearOfEra (eraStart (year + 1) - 1) = year := by
  decide +kernel

/-- A day lies between the starts of its year and of the next one. -/
theorem eraStart_yearOfEra (day : Nat) (hday : day < 146097) :
    yearOfEra day < 400 ∧ eraStart (yearOfEra day) ≤ day ∧
      day < eraStart (yearOfEra day + 1) := by
  have hlast : yearOfEra day ≤ 399 := yearOfEra_mono (Nat.le_of_lt_succ hday) (by omega)
  refine ⟨by omega, ?_, ?_⟩
  · -- a day before its year would lie in the year before
    by_contra! hlow
    obtain ⟨year, hyear⟩ : ∃ year, yearOfEra day = year + 1 := by
      refine Nat.exists_eq_add_one_of_ne_zero fun hzero => ?_
      rw [hzero] at hlow
      exact absurd hlow (Nat.not_lt_zero day)
    have hbefore := (yearOfEra_eraStart year (by omega)).2
    rw [hyear] at hlow
    have hle := yearOfEra_mono (a := day) (b := eraStart (year + 1) - 1) (by omega)
      (by unfold eraStart; omega)
    omega
  · by_contra! hhigh
    by_cases hyear : yearOfEra day = 399
    · rw [hyear] at hhigh
      have : eraStart (399 + 1) = 146097 := rfl
      omega
    · have hafter := (yearOfEra_eraStart (yearOfEra day + 1) (by omega)).1
      have hle := yearOfEra_mono hhigh hday
      omega

/-- Every day of a year lies in one of twelve months counted from March, and in none but the last
one past the thirtieth or thirty-first day. -/
theorem month_of_dayOfYear : ∀ day < 366,
    monthStart ((5 * day + 2) / 153) ≤ day ∧ (5 * day + 2) / 153 ≤ 11 ∧
      ((5 * day + 2) / 153 ≠ 11 → day < monthStart ((5 * day + 2) / 153 + 1)) := by
  decide +kernel

/-- The date a number of days after 1 March of a year. -/
def ofMarch (year : Int) (day : Nat) : Date :=
  let index := (5 * day + 2) / 153
  let month := if index < 10 then index + 3 else index - 9
  ⟨year + (if month ≤ 2 then 1 else 0), month, day - (153 * index + 2) / 5 + 1⟩

/-- A day before the next 1 March has a date, which it can be read off. -/
theorem ofMarch_spec (year : Int) (day : Nat) (h : marchStart year + day < marchStart (year + 1)) :
    (ofMarch year day).Valid ∧
      (ofMarch year day).toDayNumber = marchStart year + day - 719468 := by
  have hleap := marchStart_succ year
  have hday : day < 366 := by
    simp only [marchStart] at h
    omega
  obtain ⟨hstart, hindex, hend⟩ := month_of_dayOfYear day hday
  generalize hmonth : (if (5 * day + 2) / 153 < 10 then (5 * day + 2) / 153 + 3
    else (5 * day + 2) / 153 - 9) = month
  have hdate : ofMarch year day = ⟨year + (if month ≤ 2 then 1 else 0), month,
      day - monthStart ((5 * day + 2) / 153) + 1⟩ := by
    rw [← hmonth]
    rfl
  -- from here on the month is known by its bounds only, however it was computed
  generalize (5 * day + 2) / 153 = index at hstart hindex hend hmonth hdate
  have hcases : index < 10 ∧ month = index + 3 ∨ ¬index < 10 ∧ month = index - 9 := by
    split at hmonth <;> omega
  have hback : marchIndex month = index := by
    unfold marchIndex
    split <;> omega
  have hyear : marchYear (year + (if month ≤ 2 then 1 else 0)) month = year := by
    unfold marchYear
    split <;> omega
  rw [hdate]
  refine ⟨⟨by dsimp only; omega, by dsimp only; omega, Nat.le_add_left 1 _, ?_⟩, ?_⟩
  · dsimp only
    by_cases htwo : month = 2
    · rw [htwo] at hback ⊢
      rw [← hback, if_pos (Nat.le_refl 2)]
      rw [← hback] at hstart
      simp only [marchIndex, Nat.le_refl, if_true, Nat.reduceAdd] at hstart ⊢
      omega
    · have hlt := hend (by omega)
      rw [← hback, monthStart_succ (by omega) (by omega) htwo
        (year + (if month ≤ 2 then 1 else 0)), hback] at hlt
      omega
  · simp only [toDayNumber, dayOfYear, hback, hyear]
    omega

/-- The computed date is in the calendar and has the number it was computed from. -/
theorem ofDayNumber_spec (n : Int) :
    (ofDayNumber n).Valid ∧ (ofDayNumber n).toDayNumber = n := by
  generalize hera : (n + 719468) / 146097 = era
  generalize hday : ((n + 719468) % 146097).toNat = day
  -- eras of 400 years are equally long, so the year is found within the era
  obtain ⟨hyear, hlow, hhigh⟩ := eraStart_yearOfEra day (by omega)
  have hdate : ofDayNumber n = ofMarch (yearOfEra day + era * 400)
      (day - (365 * yearOfEra day + yearOfEra day / 4 - yearOfEra day / 100)) := by
    rw [← hday, ← hera]
    rfl
  have hwhole : 365 * yearOfEra day + yearOfEra day / 4 - yearOfEra day / 100 =
      eraStart (yearOfEra day) := by
    unfold eraStart
    omega
  have hstart (year : Nat) :
      marchStart (year + era * 400) = 146097 * era + eraStart year := by
    unfold marchStart eraStart
    omega
  have hnext := hstart (yearOfEra day + 1)
  rw [Nat.cast_add_one, Int.add_right_comm] at hnext
  rw [hdate, hwhole]
  obtain ⟨hvalid, hnumber⟩ := ofMarch_spec (yearOfEra day + era * 400)
    (day - eraStart (yearOfEra day)) (by rw [hstart, hnext]; omega)
  refine ⟨hvalid, ?_⟩
  rw [hnumber, hstart]
  omega

/-- A date has a number in the chain of dates just when it is in the calendar and has that number
by the count of years. -/
theorem isDay_iff_toDayNumber {n : Int} {d : Date} : IsDay n d ↔ d.Valid ∧ d.toDayNumber = n := by
  constructor
  · intro h
    induction h with
    | epoch => exact ⟨⟨by decide, by decide, by decide, by decide⟩, by decide⟩
    | next _ ih => exact ⟨ih.1.next, by rw [toDayNumber_next ih.1, ih.2]⟩
    | previous hvalid _ ih =>
      have hnext := toDayNumber_next hvalid
      exact ⟨hvalid, by omega⟩
  · rintro ⟨hvalid, hnumber⟩
    have hdate : d = ofDayNumber n :=
      toDayNumber_injective hvalid (ofDayNumber_spec n).1 (by rw [hnumber, (ofDayNumber_spec n).2])
    subst hdate
    clear hvalid hnumber
    -- the dates of two numbers in a row are in a row
    have hnext (n : Int) : ofDayNumber (n + 1) = (ofDayNumber n).next := by
      refine toDayNumber_injective (ofDayNumber_spec _).1 (ofDayNumber_spec n).1.next ?_
      rw [toDayNumber_next (ofDayNumber_spec n).1, (ofDayNumber_spec n).2, (ofDayNumber_spec _).2]
    induction n using Int.induction_on with
    | zero => exact .epoch
    | succ n ih => exact hnext n ▸ ih.next
    | pred n ih =>
      refine .previous (ofDayNumber_spec _).1 ?_
      rw [← hnext, Int.sub_add_cancel]
      exact ih

/-- The computed date is the one that the calendar gives to the number. -/
theorem isDay_iff {n : Int} {d : Date} : IsDay n d ↔ d = ofDayNumber n := by
  rw [isDay_iff_toDayNumber]
  constructor
  · rintro ⟨hvalid, hnumber⟩
    exact toDayNumber_injective hvalid (ofDayNumber_spec n).1
      (by rw [hnumber, (ofDayNumber_spec n).2])
  · rintro rfl
    exact ofDayNumber_spec n

/-- The date at a time is that of the day in which the time lies, or the epoch where the year of
that day is out of range. -/
theorem ofTimestamp_eq {seconds : Int} {d : Date} (h : IsDay (seconds / 86400) d) :
    ofTimestamp seconds = if yearInRange d.year then d else epoch := by
  rw [isDay_iff] at h
  rw [ofTimestamp, h]

/-! ### Dates as text -/

/-- A date is written with digits and signs, beginning with a year of at least four digits. -/
theorem render_spec (d : Date) :
    d.render.toList ≠ [] ∧ ∀ c ∈ d.render.toList, Text.isBlank c = false := by
  have hdigits (width n : Nat) (c : Char) (hc : c ∈ Text.padZeros width (Text.digits 10 n)) :
      Text.isBlank c = false :=
    (Text.isDigit_of_mem_padZeros (by omega) (fun _ hd =>
      Text.isDigit_of_mem_digits (by omega) (Nat.le_refl 10) hd) hc).isBlank_eq_false
      (Nat.le_refl 10)
  have hyear (c : Char) (hc : c ∈ renderYear d.year) : Text.isBlank c = false := by
    unfold renderYear at hc
    split at hc
    · rcases List.mem_cons.1 hc with rfl | hc
      · decide
      · exact hdigits _ _ c hc
    · split at hc
      · exact hdigits _ _ c hc
      · rcases List.mem_cons.1 hc with rfl | hc
        · decide
        · exact hdigits _ _ c hc
  simp only [render, String.toList_ofList]
  refine ⟨by simp, fun c hc => ?_⟩
  simp only [List.mem_append, List.mem_cons] at hc
  rcases hc with (hc | rfl | hc) | rfl | hc
  · exact hyear c hc
  · decide
  · exact hdigits _ _ c hc
  · decide
  · exact hdigits _ _ c hc

end RpmRelease.Date
