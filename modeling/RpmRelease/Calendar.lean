import RpmRelease.Text.Decimal

/-!
# Dates of the proleptic Gregorian calendar

Days are counted from 1 January 1970.  A day number is cut into eras of 400 years, which all have
146097 days; inside an era years begin on 1 March, so that the leap day is the last day of a year.
-/

set_option autoImplicit false

namespace RpmRelease

/-- A day of the proleptic Gregorian calendar. -/
structure Date where
  year : Int
  month : Nat
  day : Nat
deriving DecidableEq, Repr

namespace Date

/-- Whether a year has a 29 February. -/
def isLeap (year : Int) : Bool :=
  year % 4 == 0 && (year % 100 != 0 || year % 400 == 0)

/-- The number of days of a month; none for a number that is no month. -/
def daysIn (year : Int) (month : Nat) : Nat :=
  match month with
  | 1 | 3 | 5 | 7 | 8 | 10 | 12 => 31
  | 4 | 6 | 9 | 11 => 30
  | 2 => if isLeap year then 29 else 28
  | _ => 0

/-- The years that a date may have. -/
def yearInRange (year : Int) : Bool :=
  -262143 ≤ year && year ≤ 262142

/-- The date with these numbers, if the calendar has it. -/
def ofNumbers? (year : Int) (month day : Nat) : Option Date :=
  if yearInRange year ∧ 1 ≤ day ∧ day ≤ daysIn year month then some ⟨year, month, day⟩ else none

/-- The date of a day number. -/
def ofDayNumber (n : Int) : Date :=
  -- days since 1 March of year 0
  let shifted := n + 719468
  let era := shifted / 146097
  let dayOfEra := (shifted % 146097).toNat
  let yearOfEra :=
    (dayOfEra - dayOfEra / 1460 + dayOfEra / 36524 - dayOfEra / 146096) / 365
  let dayOfYear := dayOfEra - (365 * yearOfEra + yearOfEra / 4 - yearOfEra / 100)
  -- months counted from March
  let monthIndex := (5 * dayOfYear + 2) / 153
  let day := dayOfYear - (153 * monthIndex + 2) / 5 + 1
  let month := if monthIndex < 10 then monthIndex + 3 else monthIndex - 9
  ⟨yearOfEra + era * 400 + (if month ≤ 2 then 1 else 0), month, day⟩

/-- The first day of the epoch. -/
def epoch : Date := ⟨1970, 1, 1⟩

/-- The date at a number of seconds after the epoch; the epoch itself when the year of that date
is out of range. -/
def ofTimestamp (seconds : Int) : Date :=
  let date := ofDayNumber (seconds / 86400)
  if yearInRange date.year then date else epoch

/-- A year: four digits from 0 to 9999, else a sign and at least four digits. -/
def renderYear (year : Int) : List Char :=
  let digits := Text.padZeros 4 (Text.digits 10 year.natAbs)
  if year < 0 then '-' :: digits else if year ≤ 9999 then digits else '+' :: digits

/-- A date as year, month and day with hyphens between. -/
def render (date : Date) : String :=
  let two (n : Nat) := Text.padZeros 2 (Text.digits 10 n)
  String.ofList (renderYear date.year ++ '-' :: two date.month ++ '-' :: two date.day)

end Date

end RpmRelease
