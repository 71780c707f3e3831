import Recurrence.Pattern
import Recurrence.Proofs.Calendar.Gregorian

/-!
The ends of months. The calendar names the days one after the other, and the lengths of months by
the leap year rule say where a day of the month is followed by the first of the next one. So a day
exists exactly if it is within the length of its month, and the last day is the one before a first.
-/
namespace Recurrence

/-- A rule of divisibility holds whichever way remainders of negative years are rounded. -/
theorem isLeap_iff_tmod {year : Int} :
    IsLeap year ↔ year.tmod 4 = 0 ∧ (year.tmod 100 ≠ 0 ∨ year.tmod 400 = 0) := by
  simp only [IsLeap, ne_eq, ← Int.dvd_iff_emod_eq_zero, ← Int.dvd_iff_tmod_eq_zero]

namespace Civil

/-- The name of the following day, by the length of the month and the number of months. -/
def following (c : Civil) : Civil :=
  if daysInMonth? c.year c.month ≠ some c.day then ⟨c.year, c.month, c.day + 1⟩
  else if c.month ≠ 12 then ⟨c.year, c.month + 1, 1⟩
  else ⟨c.year + 1, 1, 1⟩

variable {c : Civil}

/-- Either a day is left in the month, or the first of the next month follows its last. -/
theorem following_cases (h : c.Valid) :
    (daysInMonth? c.year c.month ≠ some c.day ∧ c.following = ⟨c.year, c.month, c.day + 1⟩) ∨
    (daysInMonth? c.year c.month = some c.day ∧ c.following.day = 1 ∧
      (1 ≤ c.following.month ∧ c.following.month ≤ 12) ∧
      c.following.monthIndex = c.monthIndex + 1) := by
  have hmonth := month_of_valid h
  unfold following
  split_ifs with hlast hyear
  · exact .inl ⟨hlast, rfl⟩
  · refine .inr ⟨not_not.mp hlast, rfl, ⟨by simp only; omega, by simp only; omega⟩, ?_⟩
    simp only [monthIndex]
    omega
  · refine .inr ⟨not_not.mp hlast, rfl, by simp only; omega, ?_⟩
    simp only [monthIndex]
    omega

theorem valid_following (h : c.Valid) : c.following.Valid := by
  obtain ⟨hlast, heq⟩ | ⟨-, hday, hmonth, -⟩ := following_cases h
  · obtain ⟨length, hlength, hday⟩ := h
    rw [heq, valid_iff hlength]
    have hne : length ≠ c.day := fun hne => hlast (hne ▸ hlength)
    omega
  · obtain ⟨length, hlength, hlow, -⟩ := exists_daysInMonth? c.following.year hmonth
    exact ⟨length, hlength, by omega, by omega⟩

theorem dayNumber_following (h : c.Valid) : c.following.dayNumber = c.dayNumber + 1 := by
  have hmonth := month_of_valid h
  obtain ⟨-, heq⟩ | ⟨hlength, hday, hmonth', hindex⟩ := following_cases h
  · rw [heq]
    simp only [dayNumber]
    omega
  · have hsucc := monthStart_succ hlength
    rw [dayNumber_eq_monthStart hmonth', dayNumber_eq_monthStart hmonth, hindex, hday]
    simp only [monthIndex]
    omega

end Civil

namespace Date

/-- The days of the calendar are named one after the other. -/
theorem civil_next (d : Date) : d.next.civil = d.civil.following := by
  have hnext : d.next = ⟨d.civil.following.dayNumber⟩ := by
    rw [next, Civil.dayNumber_following d.valid_civil, dayNumber_civil]
  rw [hnext, civil_of_valid (Civil.valid_following d.valid_civil)]

/-- The day after the last of a month is the first of one, and no other is. -/
theorem isLastOfMonth_iff (d : Date) : d.IsLastOfMonth ↔ d.next.day = 1 := by
  obtain ⟨length, -, hfirst, -⟩ := d.day_bounds
  rw [day, civil_next]
  obtain ⟨hlast, heq⟩ | ⟨hlast, hday, -⟩ := Civil.following_cases d.valid_civil
  · rw [heq]
    constructor
    · intro h
      exact absurd h hlast
    · intro h
      rw [day] at hfirst
      simp only at h
      omega
  · exact ⟨fun _ => hday, fun _ => hlast⟩

theorem exists_civil_iff {c : Civil} : (∃ d : Date, d.civil = c) ↔ c.Valid := by
  constructor
  · intro h
    obtain ⟨d, rfl⟩ := h
    exact d.valid_civil
  · intro h
    exact ⟨_, civil_of_valid h⟩

/-- Each month has one last day. -/
theorem existsUnique_isLastOfMonth (year : Int) {month : Nat} (h : 1 ≤ month ∧ month ≤ 12) :
    ∃! d : Date, d.InMonth year month ∧ d.IsLastOfMonth := by
  obtain ⟨length, hlength, hlow, -⟩ := exists_daysInMonth? year h
  have hvalid : Civil.Valid ⟨year, month, length⟩ := (Civil.valid_iff hlength).mpr (by omega)
  obtain ⟨d, hd⟩ := exists_civil_iff.mpr hvalid
  have hname : d.year = year ∧ d.month = month ∧ d.day = length := by
    rw [Date.year, Date.month, Date.day, hd]
    exact ⟨rfl, rfl, rfl⟩
  refine ⟨d, ⟨⟨hname.1, hname.2.1⟩, ?_⟩, ?_⟩
  · rw [IsLastOfMonth, hname.1, hname.2.1, hname.2.2]
    exact hlength
  · intro c hc
    obtain ⟨⟨hyear, hmonth⟩, hlast⟩ := hc
    rw [IsLastOfMonth, hyear, hmonth, hlength, Option.some.injEq] at hlast
    apply dayNumber_injective
    rw [← c.dayNumber_fields, ← d.dayNumber_fields, hyear, hmonth, ← hlast, hname.1, hname.2.1,
      hname.2.2]

end Date

namespace DayOfMonth

theorem accepts_last_iff {d : Date} : accepts .last d = .ok true ↔ d.IsLastOfMonth := by
  rw [accepts, Except.ok.injEq, decide_eq_true_eq]

/-- The lengths of months are those of the calendar that begins with 1970-01-01 as its day 0 and
names the days before and after it one by one. A day of a month exists if it is within the length,
the search for days of a month finds all of them, and the pattern `L` accepts the one after which a
month begins. -/
theorem accepts_last_calendar (year : Int) {month : Nat} (hmonth : 1 ≤ month ∧ month ≤ 12) :
    (Date.civil ⟨0⟩ = ⟨1970, 1, 1⟩ ∧ ∀ d : Date, d.next.civil = d.civil.following) ∧
    (IsLeap year ↔ year.tmod 4 = 0 ∧ (year.tmod 100 ≠ 0 ∨ year.tmod 400 = 0)) ∧
    (∃ length, daysInMonth? year month = some length ∧
      ∀ day, (∃ d : Date, d.civil = ⟨year, month, day⟩) ↔ 1 ≤ day ∧ day ≤ length) ∧
    (∀ d : Date, ∃ b, accepts .last d = .ok b ∧ (b = true ↔ d.next.day = 1)) ∧
    (∃! d : Date, d.InMonth year month ∧ accepts .last d = .ok true) ∧
    ∀ d, d ∈ Date.ofMonth year month ↔ d.InMonth year month := by
  obtain ⟨length, hlength, -⟩ := exists_daysInMonth? year hmonth
  refine ⟨⟨by decide, Date.civil_next⟩, isLeap_iff_tmod, ⟨length, hlength, ?_⟩, ?_, ?_, ?_⟩
  · intro day
    rw [Date.exists_civil_iff, Civil.valid_iff hlength]
  · intro d
    refine ⟨_, rfl, ?_⟩
    rw [decide_eq_true_eq, d.isLastOfMonth_iff]
  · simp only [accepts_last_iff]
    exact Date.existsUnique_isLastOfMonth year hmonth
  · intro d
    exact Date.mem_ofMonth hmonth

/-- Year -100 is a century that is no leap year. -/
theorem accepts_last_calendar_century : (∃! d : Date, d.InMonth (-100) 2 ∧
    accepts .last d = .ok true) ∧ ¬ ∃ d : Date, d.civil = ⟨-100, 2, 29⟩ := by
  obtain ⟨-, -, ⟨length, hlength, hday⟩, -, hlast, -⟩ :=
    accepts_last_calendar (-100) (show 1 ≤ 2 ∧ 2 ≤ 12 by decide)
  refine ⟨hlast, ?_⟩
  cases hlength
  rw [hday]
  decide

end DayOfMonth

end Recurrence
