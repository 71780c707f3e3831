/-!
Days of the week, dates of the proleptic Gregorian calendar, and months. A date is the number of
days from 1970-01-01, so that neighbouring dates differ by one and the calendar has neither a first
nor a last day. A `Civil` triple names a date by year, month and day; `Civil.date?` finds the date
of that name, if there is one. Neither direction knows how long a month is: a year starts on 1
March, which puts the leap day at its end, and the months that follow one another are 153 days for
every five. The lengths of months come from the leap year rule.
-/
namespace Recurrence

/-- The days of the week. Monday is 1 and Sunday is 7; counted from Sunday they run from 0 to 6, so
that the two numberings agree modulo 7. -/
inductive Weekday
  | monday | tuesday | wednesday | thursday | friday | saturday | sunday
deriving DecidableEq

namespace Weekday

def number : Weekday → Nat
  | monday => 1
  | tuesday => 2
  | wednesday => 3
  | thursday => 4
  | friday => 5
  | saturday => 6
  | sunday => 7

def fromSunday (w : Weekday) : Nat := w.number % 7

/-- Counts on from Monday, taking `n` modulo 7. -/
def ofDaysAfterMonday (n : Int) : Weekday :=
  match (n % 7).toNat with
  | 0 => monday
  | 1 => tuesday
  | 2 => wednesday
  | 3 => thursday
  | 4 => friday
  | 5 => saturday
  | _ => sunday

theorem number_ofDaysAfterMonday (n : Int) : ((ofDaysAfterMonday n).number : Int) = n % 7 + 1 := by
  have h : n % 7 = 0 ∨ n % 7 = 1 ∨ n % 7 = 2 ∨ n % 7 = 3 ∨ n % 7 = 4 ∨ n % 7 = 5 ∨ n % 7 = 6 := by
    omega
  rcases h with h | h | h | h | h | h | h <;> simp [ofDaysAfterMonday, h, number]

theorem number_bounds (w : Weekday) : 1 ≤ w.number ∧ w.number ≤ 7 := by
  cases w <;> decide

theorem number_injective {v w : Weekday} (h : v.number = w.number) : v = w := by
  cases v <;> cases w <;> simp_all [number]

end Weekday

/-- Year, month and day of month; nothing says that the calendar has such a day. Years are
astronomical: year 0 comes before year 1. -/
structure Civil where
  year : Int
  month : Nat
  day : Nat
deriving DecidableEq

structure Date where
  /-- Days from 1970-01-01 -/
  dayNumber : Int
deriving DecidableEq

/-- Days from 1970-01-01 to the given day, for a day that exists. -/
def Civil.dayNumber (c : Civil) : Int :=
  let year := if c.month ≤ 2 then c.year - 1 else c.year
  let monthsFromMarch : Int := (c.month + 9) % 12
  365 * year + year / 4 - year / 100 + year / 400 + (153 * monthsFromMarch + 2) / 5 + c.day - 719469

/-- Days from 1 March of year 0 to 1 March of the given year. -/
def yearStart (year : Int) : Int := 365 * year + year / 4 - year / 100 + year / 400

/-- Days from 1 March to the first day of the month that comes `month` months later. -/
def monthOffset (month : Int) : Int := (153 * month + 2) / 5

theorem yearStart_succ (year : Int) : yearStart (year + 1) = yearStart year +
    if (year + 1) % 4 = 0 ∧ ((year + 1) % 100 ≠ 0 ∨ (year + 1) % 400 = 0) then 366 else 365 := by
  unfold yearStart
  have h : year % 4 < 3 ∨ year % 4 = 3 ∧ year % 100 < 99 ∨ year % 100 = 99 := by omega
  rcases h with h | h | h
  · have h4 : (year + 1) / 4 = year / 4 := by omega
    have h100 : (year + 1) / 100 = year / 100 := by omega
    have h400 : (year + 1) / 400 = year / 400 := by omega
    split <;> omega
  · have h100 : (year + 1) / 100 = year / 100 := by omega
    have h400 : (year + 1) / 400 = year / 400 := by omega
    split <;> omega
  · split <;> omega

namespace Date

/-- The name of a date. Years are counted from 1 March of year 0, which is 719468 days before
1970-01-01: 400 years have 146097 days, a century 36524 or one more, four years 1461 or one less,
and the day that makes a longer century or year comes last in it. -/
def civil (d : Date) : Civil :=
  let fromMarch := d.dayNumber + 719468
  let era := fromMarch / 146097
  let dayOfEra := fromMarch % 146097
  let century := min 3 (dayOfEra / 36524)
  let dayOfCentury := dayOfEra - 36524 * century
  let fourYears := dayOfCentury / 1461
  let dayOfFourYears := dayOfCentury % 1461
  let yearOfFour := min 3 (dayOfFourYears / 365)
  let dayOfYear := dayOfFourYears - 365 * yearOfFour
  let year := 400 * era + 100 * century + 4 * fourYears + yearOfFour
  let monthsFromMarch := (5 * dayOfYear + 2) / 153
  let day := dayOfYear - (153 * monthsFromMarch + 2) / 5 + 1
  if monthsFromMarch < 10 then ⟨year, (monthsFromMarch + 3).toNat, day.toNat⟩
  else ⟨year + 1, (monthsFromMarch - 9).toNat, day.toNat⟩

/-- The year and the month, both counted from March, are those in which the date lies. -/
theorem civil_eq (d : Date) : ∃ year month : Int, 0 ≤ month ∧ month ≤ 11 ∧
    yearStart year + monthOffset month ≤ d.dayNumber + 719468 ∧
    d.dayNumber + 719468 < yearStart year + monthOffset (month + 1) ∧
    d.dayNumber + 719468 < yearStart (year + 1) ∧
    d.civil = ⟨if month < 10 then year else year + 1, ((month + 2) % 12 + 1).toNat,
      (d.dayNumber + 719468 - yearStart year - monthOffset month + 1).toNat⟩ := by
  obtain ⟨n⟩ := d
  simp only [civil, yearStart_succ]
  simp only [yearStart, monthOffset]
  generalize hz : n + 719468 = z
  have hera : 0 ≤ z % 146097 ∧ z % 146097 < 146097 := by omega
  generalize he : z / 146097 = era at *
  generalize hd : z % 146097 = dayOfEra at *
  generalize hc : min 3 (dayOfEra / 36524) = century at *
  have hcentury : 0 ≤ century ∧ century ≤ 3 ∧ 0 ≤ dayOfEra - 36524 * century ∧
      dayOfEra - 36524 * century ≤ 36524 ∧
      (dayOfEra - 36524 * century = 36524 → century = 3) := by omega
  generalize hdc : dayOfEra - 36524 * century = dayOfCentury at *
  generalize hq : dayOfCentury / 1461 = four at *
  generalize hdq : dayOfCentury % 1461 = dayOfFour at *
  generalize hy : min 3 (dayOfFour / 365) = yearOfFour at *
  have hyear : 0 ≤ yearOfFour ∧ yearOfFour ≤ 3 ∧ 0 ≤ four ∧ four ≤ 24 ∧
      0 ≤ dayOfFour - 365 * yearOfFour ∧ dayOfFour - 365 * yearOfFour ≤ 365 ∧
      (dayOfFour - 365 * yearOfFour = 365 → yearOfFour = 3 ∧ (four = 24 → century = 3)) := by
    omega
  generalize hdy : dayOfFour - 365 * yearOfFour = dayOfYear at *
  generalize hm : (5 * dayOfYear + 2) / 153 = m at *
  generalize hY : 400 * era + 100 * century + 4 * four + yearOfFour = year
  have h4 : year / 4 = 100 * era + 25 * century + four := by omega
  have h100 : year / 100 = 4 * era + century := by omega
  have h400 : year / 400 = era := by omega
  have hleap : dayOfYear = 365 →
      (year + 1) % 4 = 0 ∧ ((year + 1) % 100 ≠ 0 ∨ (year + 1) % 400 = 0) := by omega
  refine ⟨year, m, by omega, by omega, by omega, by omega, ?_, ?_⟩
  · split <;> omega
  · split <;> congr 1 <;> omega

/-- Counting the days to the date that a name stands for gives the date back. -/
theorem dayNumber_civil (d : Date) : d.civil.dayNumber = d.dayNumber := by
  obtain ⟨year, month, h0, h11, hlow, -, -, hd⟩ := d.civil_eq
  rw [hd]
  simp only [Civil.dayNumber, yearStart, monthOffset] at *
  by_cases hm : month < 10
  · rw [if_neg (by omega), if_pos hm]
    omega
  · rw [if_pos (by omega), if_neg hm, Int.add_sub_cancel]
    omega

def year (d : Date) : Int := d.civil.year

def month (d : Date) : Nat := d.civil.month

def day (d : Date) : Nat := d.civil.day

/-- The date 1970-01-01 is a Thursday. -/
def weekday (d : Date) : Weekday := .ofDaysAfterMonday (d.dayNumber + 3)

def next (d : Date) : Date := ⟨d.dayNumber + 1⟩

def previous (d : Date) : Date := ⟨d.dayNumber - 1⟩

end Date

/-- The date of this name, if the calendar has one. -/
def Civil.date? (c : Civil) : Option Date :=
  if Date.civil ⟨c.dayNumber⟩ = c then some ⟨c.dayNumber⟩ else none

theorem Civil.civil_of_date? {c : Civil} {d : Date} (h : c.date? = some d) : d.civil = c := by
  unfold date? at h
  split at h
  · cases h
    assumption
  · contradiction

theorem Date.date?_civil (d : Date) : d.civil.date? = some d := by
  simp [Civil.date?, dayNumber_civil]

/-- Every fourth year is a leap year, except those centuries whose number four hundred does not
divide. -/
def IsLeap (year : Int) : Prop := year % 4 = 0 ∧ (year % 100 ≠ 0 ∨ year % 400 = 0)

instance (year : Int) : Decidable (IsLeap year) := inferInstanceAs (Decidable (_ ∧ _))

/-- The number of days of a month, for a month that exists. -/
def daysInMonth? (year : Int) : Nat → Option Nat
  | 1 | 3 | 5 | 7 | 8 | 10 | 12 => some 31
  | 4 | 6 | 9 | 11 => some 30
  | 2 => some (if IsLeap year then 29 else 28)
  | _ => none

namespace Date

def IsLastOfMonth (d : Date) : Prop := daysInMonth? d.year d.month = some d.day

instance (d : Date) : Decidable d.IsLastOfMonth := inferInstanceAs (Decidable (_ = _))

/-- The dates of the given days of a month, up to the first day that does not exist. -/
def ofDays (year : Int) (month : Nat) : List Nat → List Date
  | [] => []
  | day :: days =>
    (Civil.date? ⟨year, month, day⟩).elim [] fun date => date :: ofDays year month days

/-- The dates of a month. No month is longer than 31 days. -/
def ofMonth (year : Int) (month : Nat) : List Date := ofDays year month (List.range' 1 31)

end Date

/-- The date itself from Monday to Friday, Friday for a Saturday and Monday for a Sunday, whatever
month they are in. -/
def Date.nearestWorkday (d : Date) : Date :=
  match d.weekday with
  | .saturday => d.previous
  | .sunday => d.next
  | _ => d

/-- The day of the month on which the day `weekday` of the week falls for the `nth` time, with
`weekday` counted from Sunday and taken modulo 7. There is none before the first time or after the
end of the month. -/
def nthWeekday? (year : Int) (month weekday nth : Nat) : Option Nat := do
  let first ← Civil.date? ⟨year, month, 1⟩
  let length ← daysInMonth? year month
  let offset := (weekday % 7 + 7 - first.weekday.fromSunday) % 7
  let day : Int := 1 + offset + 7 * (nth - 1)
  if day < 1 ∨ length < day then none else some day.toNat

end Recurrence
