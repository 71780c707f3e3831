import Mathlib.Data.Set.Card
import Recurrence.Pattern
import Recurrence.Proofs.Calendar.Gregorian

/-!
Days that are named by the days of the week. The working day of a pattern is the nearest one of the
whole calendar, which may lie in another month than the day that it is nearest to, and the `n`th day
of its name in a month comes after `n - 1` others of that name. The latter is found by counting from
the first of the month, which can be done in words of 32 and 64 bits.
-/
namespace Recurrence

namespace Date

theorem number_weekday (d : Date) : (d.weekday.number : Int) = (d.dayNumber + 3) % 7 + 1 := by
  rw [weekday, Weekday.number_ofDaysAfterMonday]

/-- Days of the week come round every seven days. -/
theorem weekday_eq_iff {c d : Date} :
    c.weekday = d.weekday ↔ c.dayNumber % 7 = d.dayNumber % 7 := by
  have hc := c.number_weekday
  have hd := d.number_weekday
  constructor
  · intro h
    rw [h] at hc
    omega
  · intro h
    apply Weekday.number_injective
    omega

/-! ### Working days -/

/-- From Monday to Friday. -/
def IsWorkday (d : Date) : Prop := d.weekday.number ≤ 5

/-- The number of days between two dates. -/
def distance (c d : Date) : Nat := (c.dayNumber - d.dayNumber).natAbs

/-- No working day, of whatever month, lies closer to the date `base`. -/
structure IsNearestWorkday (d base : Date) : Prop where
  workday : d.IsWorkday
  nearest : ∀ other : Date, other.IsWorkday → d.distance base ≤ other.distance base

theorem isWorkday_iff (d : Date) : d.IsWorkday ↔ (d.dayNumber + 3) % 7 ≤ 4 := by
  have := d.number_weekday
  rw [IsWorkday]
  omega

/-- A working day stays, a Saturday moves back and a Sunday moves on. -/
theorem nearestWorkday_cases (d : Date) :
    d.IsWorkday ∧ d.nearestWorkday = d ∨ d.weekday = .saturday ∧ d.nearestWorkday = d.previous ∨
      d.weekday = .sunday ∧ d.nearestWorkday = d.next := by
  rw [nearestWorkday, IsWorkday]
  cases d.weekday <;> simp [Weekday.number]

theorem dayNumber_nearestWorkday (d : Date) :
    (d.dayNumber + 3) % 7 ≤ 4 ∧ d.nearestWorkday.dayNumber = d.dayNumber ∨
      (d.dayNumber + 3) % 7 = 5 ∧ d.nearestWorkday.dayNumber = d.dayNumber - 1 ∨
      (d.dayNumber + 3) % 7 = 6 ∧ d.nearestWorkday.dayNumber = d.dayNumber + 1 := by
  have hnumber := d.number_weekday
  obtain ⟨hday, heq⟩ | ⟨hday, heq⟩ | ⟨hday, heq⟩ := d.nearestWorkday_cases
  · exact .inl ⟨d.isWorkday_iff.mp hday, by rw [heq]⟩
  · rw [hday, Weekday.number] at hnumber
    exact .inr (.inl ⟨by omega, by rw [heq, previous]⟩)
  · rw [hday, Weekday.number] at hnumber
    exact .inr (.inr ⟨by omega, by rw [heq, next]⟩)

theorem isWorkday_nearestWorkday (d : Date) : d.nearestWorkday.IsWorkday := by
  have := d.dayNumber_nearestWorkday
  rw [isWorkday_iff]
  omega

/-- There is one nearest working day. A Saturday has the other one two days after it, and a Sunday
two days before it. -/
theorem isNearestWorkday_iff {d base : Date} :
    d.IsNearestWorkday base ↔ d = base.nearestWorkday := by
  have hmoved := base.dayNumber_nearestWorkday
  constructor
  · intro h
    have hday := d.isWorkday_iff.mp h.workday
    have hle := h.nearest _ base.isWorkday_nearestWorkday
    rw [distance, distance] at hle
    apply dayNumber_injective
    omega
  · rintro rfl
    refine ⟨base.isWorkday_nearestWorkday, ?_⟩
    intro other hother
    rw [isWorkday_iff] at hother
    rw [distance, distance]
    omega

/-- The working day nearest to a Saturday lies in the month before if the Saturday is the first of
its month, and that nearest to a Sunday in the month after if the Sunday is the last of its month.
-/
theorem nearestWorkday_inMonth_iff {d : Date} {length : Nat}
    (h : daysInMonth? d.year d.month = some length) : d.nearestWorkday.InMonth d.year d.month ↔
      ¬ (d.day = 1 ∧ d.weekday = .saturday) ∧ ¬ (d.day = length ∧ d.weekday = .sunday) := by
  have hday := (Civil.valid_iff h).mp d.valid
  rw [inMonth_iff h]
  obtain ⟨hworkday, heq⟩ | ⟨hworkday, heq⟩ | ⟨hworkday, heq⟩ := d.nearestWorkday_cases
  · rw [IsWorkday] at hworkday
    have hne : d.weekday ≠ .saturday ∧ d.weekday ≠ .sunday := by
      cases hw : d.weekday <;> simp [hw, Weekday.number] at hworkday ⊢
    simp only [heq, hne, and_false, not_false_eq_true, and_self, iff_true]
    omega
  · simp only [heq, hworkday, previous, and_true, reduceCtorEq, and_false, not_false_eq_true]
    omega
  · simp only [heq, hworkday, next, and_true, reduceCtorEq, and_false, not_false_eq_true, true_and]
    omega

end Date

namespace DayOfMonth

theorem accepts_workday_iff {n : Nat} {d : Date} : accepts (.workday n) d = .ok true ↔
    ∃ base, Civil.date? ⟨d.year, d.month, n⟩ = some base ∧ d = base.nearestWorkday := by
  simp only [accepts, Except.ok.injEq, decide_eq_true_eq, Option.map_eq_some_iff,
    eq_comm (a := d)]

/-- The dates of a month that the pattern `nW` accepts. -/
def workdaysIn (n : Nat) (year : Int) (month : Nat) : Set Date :=
  {d | d.InMonth year month ∧ accepts (.workday n) d = .ok true}

theorem mem_workdaysIn {n month : Nat} {year : Int} {d : Date} : d ∈ workdaysIn n year month ↔
    d.InMonth year month ∧
      ∃ base, Civil.date? ⟨year, month, n⟩ = some base ∧ d = base.nearestWorkday := by
  rw [workdaysIn, Set.mem_ofPred_eq, accepts_workday_iff]
  apply and_congr_right
  rintro ⟨rfl, rfl⟩
  rfl

theorem workdaysIn_of_date? {n month : Nat} {year : Int} {base : Date}
    (h : Civil.date? ⟨year, month, n⟩ = some base) : workdaysIn n year month = ∅ ↔
      n = 1 ∧ base.weekday = .saturday ∨
        Civil.date? ⟨year, month, n + 1⟩ = none ∧ base.weekday = .sunday := by
  have hname := Civil.civil_of_date? h
  obtain rfl : base.year = year := congrArg Civil.year hname
  obtain rfl : base.month = month := congrArg Civil.month hname
  obtain rfl : base.day = n := congrArg Civil.day hname
  obtain ⟨length, hlength, hfirst, hlast⟩ := base.day_bounds
  have hend : Civil.date? ⟨base.year, base.month, base.day + 1⟩ = none ↔ base.day = length := by
    rw [Date.date?_month hlength, ite_eq_right_iff]
    simp only [reduceCtorEq, imp_false]
    omega
  have hempty : workdaysIn base.day base.year base.month = ∅ ↔
      ¬ base.nearestWorkday.InMonth base.year base.month := by
    simp only [Set.eq_empty_iff_forall_notMem, mem_workdaysIn, h, Option.some.injEq,
      exists_eq_left', not_and, imp_not_comm, forall_eq]
  rw [hempty, Date.nearestWorkday_inMonth_iff hlength, hend, not_and_or, not_not, not_not]

/-- The pattern `nW` accepts the working day nearest to the day `n` of the month, if there is such a
day. It accepts no other day of the month, and none at all if that day does not exist or if the
nearest working day lies in the month before or after. -/
theorem accepts_workday_nearest (n : Nat) :
    (∀ d : Date, ∃ b, accepts (.workday n) d = .ok b ∧ (b = true ↔
      ∃ base, Civil.date? ⟨d.year, d.month, n⟩ = some base ∧ d.IsNearestWorkday base)) ∧
    ∀ year month, (workdaysIn n year month).Subsingleton ∧
      (workdaysIn n year month = ∅ ↔ Civil.date? ⟨year, month, n⟩ = none ∨
        ∃ base, Civil.date? ⟨year, month, n⟩ = some base ∧
          (n = 1 ∧ base.weekday = .saturday ∨
            Civil.date? ⟨year, month, n + 1⟩ = none ∧ base.weekday = .sunday)) := by
  constructor
  · intro d
    refine ⟨_, rfl, ?_⟩
    simp only [Date.isNearestWorkday_iff]
    rw [← accepts_workday_iff, accepts, Except.ok.injEq]
  · intro year month
    constructor
    · intro c hc d hd
      obtain ⟨-, base, hbase, rfl⟩ := mem_workdaysIn.mp hc
      obtain ⟨-, base', hbase', rfl⟩ := mem_workdaysIn.mp hd
      cases hbase.symm.trans hbase'
      rfl
    · cases h : Civil.date? ⟨year, month, n⟩ with
      | none => simp [Set.eq_empty_iff_forall_notMem, mem_workdaysIn, h]
      | some base => simp [workdaysIn_of_date? h]

end DayOfMonth

/-! ### Days of a name in a month -/

namespace Date

theorem fromSunday_weekday (d : Date) : (d.weekday.fromSunday : Int) = (d.dayNumber + 4) % 7 := by
  have := d.number_weekday
  rw [Weekday.fromSunday]
  omega

/-- The days before a date that have its name and are in its month. -/
def earlierNamesakes (d : Date) : Set Date :=
  {c | c.InMonth d.year d.month ∧ c.dayNumber < d.dayNumber ∧ c.weekday = d.weekday}

/-- They come one week before the other. -/
theorem earlierNamesakes_eq (d : Date) : d.earlierNamesakes =
    (fun k : Nat => ⟨d.dayNumber - 7 * (k + 1)⟩) '' (Finset.range ((d.day - 1) / 7)) := by
  obtain ⟨length, hlength, hfirst, hlast⟩ := d.day_bounds
  ext c
  simp only [earlierNamesakes, Set.mem_ofPred_eq, inMonth_iff hlength, weekday_eq_iff,
    Set.mem_image, Finset.coe_range, Set.mem_Iio]
  constructor
  · rintro ⟨⟨hlow, -⟩, hlt, hname⟩
    refine ⟨((d.dayNumber - c.dayNumber) / 7 - 1).toNat, by omega, ?_⟩
    apply dayNumber_injective
    simp only
    omega
  · rintro ⟨k, hk, rfl⟩
    simp only
    omega

theorem ncard_earlierNamesakes (d : Date) : d.earlierNamesakes.ncard = (d.day - 1) / 7 := by
  have hinjective : Function.Injective fun k : Nat => Date.mk (d.dayNumber - 7 * (k + 1)) := by
    intro j k hjk
    simp only [mk.injEq] at hjk
    omega
  rw [earlierNamesakes_eq, Set.ncard_image_of_injective _ hinjective, Set.ncard_coe_finset,
    Finset.card_range]

theorem finite_earlierNamesakes (d : Date) : d.earlierNamesakes.Finite := by
  rw [earlierNamesakes_eq]
  exact (Finset.finite_toSet _).image _

end Date

theorem nthWeekday?_eq_day_iff {d : Date} {weekday n : Nat} :
    nthWeekday? d.year d.month weekday n = some d.day ↔
      d.weekday.fromSunday = weekday % 7 ∧ (d.day - 1) / 7 + 1 = n := by
  obtain ⟨length, hlength, hfirst, hlast⟩ := d.day_bounds
  have hone : Civil.date? ⟨d.year, d.month, 1⟩ = some ⟨d.dayNumber - d.day + 1⟩ := by
    rw [Date.date?_month hlength, if_pos (by omega)]
    rfl
  have hname := d.fromSunday_weekday
  have hname' := Date.fromSunday_weekday ⟨d.dayNumber - d.day + 1⟩
  simp only [nthWeekday?, hone, hlength, Option.bind_eq_bind, Option.bind_some,
    Option.ite_none_left_eq_some, Option.some.injEq]
  simp only at hname'
  omega

/-- A number as an unsigned word of 32 bits, if it fits. -/
def word32? (n : Int) : Option Int := if 0 ≤ n ∧ n < 2 ^ 32 then some n else none

/-- A number as a signed word of 64 bits, if it fits. -/
def signedWord64? (n : Int) : Option Int := if -2 ^ 63 ≤ n ∧ n < 2 ^ 63 then some n else none

/-- The day of `nthWeekday?` in machine words, for a month whose first day has the name `first`: the
offset of the first day of the name in 32 bits, the day in 64. -/
def dayInWords? (first : Weekday) (weekday nth : Nat) : Option Int := do
  let raised ← word32? (weekday % 7 + 7)
  let difference ← word32? (raised - first.fromSunday)
  let weeks ← signedWord64? (nth - 1)
  let days ← signedWord64? (7 * weeks)
  let firstDay ← signedWord64? (1 + difference % 7)
  signedWord64? (firstDay + days)

/-- The computation of `nthWeekday?` in machine words, with no result if a step leaves its word. -/
def nthWeekdayInWords? (year : Int) (month weekday nth : Nat) : Option (Option Nat) :=
  match Civil.date? ⟨year, month, 1⟩, daysInMonth? year month with
  | some first, some length => do
    let day ← dayInWords? first.weekday weekday nth
    if day < 1 ∨ length < day then return none
    else
      let day ← word32? day
      return some day.toNat
  | _, _ => some none

theorem word32?_of_bounds {n : Int} (h : 0 ≤ n ∧ n < 2 ^ 32) : word32? n = some n := if_pos h

theorem signedWord64?_of_bounds {n : Int} (h : -2 ^ 63 ≤ n ∧ n < 2 ^ 63) :
    signedWord64? n = some n := if_pos h

theorem dayInWords?_eq (first : Weekday) (weekday : Nat) {n : Nat} (hn : n ≤ maxNumber) :
    dayInWords? first weekday n =
      some (1 + ((weekday % 7 + 7 - first.fromSunday) % 7 : Nat) + 7 * (n - 1) : Int) := by
  have hfirst : first.fromSunday < 7 := Nat.mod_lt _ (by decide)
  rw [maxNumber] at hn
  simp (disch := omega) only [dayInWords?, word32?_of_bounds, signedWord64?_of_bounds,
    Option.bind_eq_bind, Option.bind_some]
  congr 1
  omega

theorem nthWeekdayInWords?_eq (year : Int) (month weekday : Nat) {n : Nat} (hn : n ≤ maxNumber) :
    nthWeekdayInWords? year month weekday n = some (nthWeekday? year month weekday n) := by
  unfold nthWeekdayInWords? nthWeekday?
  cases Civil.date? ⟨year, month, 1⟩ with
  | none => rfl
  | some first =>
      cases hlength : daysInMonth? year month with
      | none => rfl
      | some length =>
          have hmonth := month_of_daysInMonth? hlength
          obtain ⟨length', hlength', -, h31⟩ := exists_daysInMonth? year hmonth
          cases hlength.symm.trans hlength'
          simp only [dayInWords?_eq _ _ hn, Option.bind_eq_bind, Option.bind_some]
          split
          · rfl
          · rw [word32?_of_bounds (by omega)]
            rfl

namespace DayOfWeek

theorem accepts_nth_iff {weekday n : Nat} {d : Date} : accepts (.nth weekday n) d = .ok true ↔
    d.weekday.fromSunday = weekday % 7 ∧ d.earlierNamesakes.ncard + 1 = n := by
  rw [d.ncard_earlierNamesakes, ← nthWeekday?_eq_day_iff, accepts, Except.ok.injEq,
    decide_eq_true_eq]

/-- The pattern `d#n` accepts the day of the name `d` before which there are `n - 1` others of this
name in its month. So it accepts nothing if `n` is zero, and one `n` belongs to each day. Machine
words hold every step of the computation, for all numbers that can be written. -/
theorem accepts_nth_counts (d : Date) (weekday n : Nat) :
    (∃ b, accepts (.nth weekday n) d = .ok b ∧ (b = true ↔
      d.weekday.fromSunday = weekday % 7 ∧ d.earlierNamesakes.Finite ∧
        d.earlierNamesakes.ncard + 1 = n)) ∧
    accepts (.nth weekday 0) d = .ok false ∧
    ((∃! m, accepts (.nth weekday m) d = .ok true) ↔ d.weekday.fromSunday = weekday % 7) ∧
    (n ≤ maxNumber → ∀ year month,
      nthWeekdayInWords? year month weekday n = some (nthWeekday? year month weekday n)) := by
  refine ⟨⟨_, rfl, ?_⟩, ?_, ?_, fun hn year month => nthWeekdayInWords?_eq year month weekday hn⟩
  · simp only [d.finite_earlierNamesakes, true_and]
    rw [← accepts_nth_iff, accepts, Except.ok.injEq]
  · have hnot : accepts (.nth weekday 0) d ≠ .ok true := by
      rw [ne_eq, accepts_nth_iff]
      omega
    simpa [accepts] using hnot
  · simp only [accepts_nth_iff]
    constructor
    · rintro ⟨m, ⟨hname, -⟩, -⟩
      exact hname
    · intro hname
      exact ⟨_, ⟨hname, rfl⟩, fun m hm => hm.2.symm⟩

/-- The greatest number that can be written stands for a Wednesday, such as 2024-06-26, and no month
has so many of them. -/
theorem accepts_nth_counts_greatest :
    nthWeekdayInWords? 2024 6 maxNumber maxNumber = some none ∧
      ∃! n, accepts (.nth maxNumber n) ⟨19900⟩ = .ok true := by
  have h := accepts_nth_counts ⟨19900⟩ maxNumber maxNumber
  refine ⟨?_, h.2.2.1.mpr (by decide)⟩
  rw [h.2.2.2 (Nat.le_refl _) 2024 6]
  decide

end DayOfWeek

end Recurrence
