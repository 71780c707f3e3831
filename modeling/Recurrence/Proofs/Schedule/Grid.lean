import Mathlib.Order.Lattice
import Recurrence.Proofs.Calendar.Gregorian
import Recurrence.Proofs.Clock.FirstReading
import Recurrence.Proofs.Evaluation

/-!
The wall times that a search tries: one list, in ascending order, of the whole minutes that every
field admits. The nested search gives the first of the occurrences that this list gives.
-/
namespace Recurrence

namespace WallTime

theorem hour_lt (w : WallTime) : w.hour < 24 := by
  rw [hour]
  omega

theorem minute_lt (w : WallTime) : w.minute < 60 := by
  rw [minute]
  omega

theorem lt_of_date_lt {v w : WallTime} (h : v.date.dayNumber < w.date.dayNumber) : v < w := by
  simp only [lt_def, date] at *
  omega

end WallTime

/-- The wall times of a date at the given hours and minutes. -/
def Date.times (d : Date) (hours minutes : List Nat) : List WallTime :=
  hours.flatMap fun hour => minutes.map fun minute => .ofDate d hour minute 0

namespace Date

variable {d : Date} {hours minutes : List Nat}

theorem mem_times (hhours : ∀ hour ∈ hours, hour < 24) (hminutes : ∀ minute ∈ minutes, minute < 60)
    {w : WallTime} : w ∈ d.times hours minutes ↔
      w.date = d ∧ w.hour ∈ hours ∧ w.minute ∈ minutes ∧ w.second = 0 := by
  simp only [times, List.mem_flatMap, List.mem_map]
  constructor
  · rintro ⟨hour, hhour, minute, hminute, rfl⟩
    obtain ⟨hdate, hhour', hminute', hsecond⟩ :=
      WallTime.fields_ofDate (d := d) (hhours hour hhour) (hminutes minute hminute)
        (show 0 < 60 by decide)
    rw [hdate, hhour', hminute', hsecond]
    exact ⟨rfl, hhour, hminute, rfl⟩
  · rintro ⟨rfl, hhour, hminute, hsecond⟩
    refine ⟨w.hour, hhour, w.minute, hminute, ?_⟩
    rw [← hsecond, w.ofDate_fields]

theorem times_ascending (hhours : hours.Pairwise (· < ·)) (hminutes : minutes.Pairwise (· < ·))
    (hlt : ∀ minute ∈ minutes, minute < 60) : (d.times hours minutes).Pairwise (· < ·) := by
  rw [times, List.pairwise_flatMap]
  constructor
  · intro hour _
    rw [List.pairwise_map]
    apply hminutes.imp
    intro a b hab
    simp only [WallTime.lt_def, WallTime.ofDate]
    omega
  · apply hhours.imp
    intro a b hab v hv w hw
    obtain ⟨m, hm, rfl⟩ := List.mem_map.mp hv
    obtain ⟨n, hn, rfl⟩ := List.mem_map.mp hw
    have := hlt m hm
    simp only [WallTime.lt_def, WallTime.ofDate]
    omega

/-- The dates of the given months of the given years. -/
def ofYears (years months : List Nat) : List Date :=
  years.flatMap fun year : Nat => months.flatMap (ofMonth year)

theorem mem_ofYears {years months : List Nat} (hmonths : ∀ month ∈ months, 1 ≤ month ∧ month ≤ 12) :
    d ∈ ofYears years months ↔ 0 ≤ d.year ∧ d.year.toNat ∈ years ∧ d.month ∈ months := by
  simp only [ofYears, List.mem_flatMap]
  constructor
  · rintro ⟨year, hyear, month, hmonth, hd⟩
    obtain ⟨hy, rfl⟩ := (mem_ofMonth (hmonths month hmonth)).mp hd
    rw [hy]
    exact ⟨by omega, hyear, hmonth⟩
  · rintro ⟨h0, hyear, hmonth⟩
    refine ⟨d.year.toNat, hyear, d.month, hmonth, (mem_ofMonth (hmonths _ hmonth)).mpr ⟨?_, rfl⟩⟩
    omega

theorem ofYears_ascending {years months : List Nat} (hyears : years.Pairwise (· < ·))
    (hmonths : months.Pairwise (· < ·)) (hbounds : ∀ month ∈ months, 1 ≤ month ∧ month ≤ 12) :
    (ofYears years months).Pairwise (·.dayNumber < ·.dayNumber) := by
  rw [ofYears, List.pairwise_flatMap]
  constructor
  · intro year _
    rw [List.pairwise_flatMap]
    refine ⟨fun month hmonth => ofMonth_ascending (hbounds month hmonth), ?_⟩
    apply (List.Pairwise.and_mem.mp hmonths).imp
    rintro m n ⟨hm, hn, hmn⟩ a ha b hb
    obtain ⟨hyear, rfl⟩ := (mem_ofMonth (hbounds m hm)).mp ha
    obtain ⟨hyear', rfl⟩ := (mem_ofMonth (hbounds n hn)).mp hb
    apply dayNumber_lt_of_month_lt
    omega
  · apply hyears.imp
    intro x y hxy a ha b hb
    obtain ⟨m, hm, ha⟩ := List.mem_flatMap.mp ha
    obtain ⟨n, hn, hb⟩ := List.mem_flatMap.mp hb
    obtain ⟨hyear, rfl⟩ := (mem_ofMonth (hbounds m hm)).mp ha
    obtain ⟨hyear', rfl⟩ := (mem_ofMonth (hbounds n hn)).mp hb
    have := hbounds _ hm
    have := hbounds _ hn
    apply dayNumber_lt_of_month_lt
    omega

end Date

theorem Zone.occurrencesOn_eq {ε : Type} (z : Zone) (start : Int) (localStart : WallTime)
    (hours minutes : List Nat) (d : Date) (n : Nat) :
    (z.occurrencesOn start localStart hours minutes d n : Except ε (List Instant)) =
      .ok (((d.times hours minutes).filterMap (z.occurrence? start localStart)).take n) := by
  have hminute (hour minute : Nat) (n : Nat) :
      (.ok (z.occurrence? start localStart (.ofDate d hour minute 0)).toList :
          Except ε (List Instant)) =
        .ok ((z.occurrence? start localStart (.ofDate d hour minute 0)).toList.take (n + 1)) := by
    cases z.occurrence? start localStart (.ofDate d hour minute 0) <;> simp
  rw [occurrencesOn, collect_eq fun hour n => collect_eq (hminute hour) minutes (n + 1)]
  simp only [Date.times, List.filterMap_eq_flatMap_toList, List.flatMap_assoc, List.flatMap_map]

namespace Expression

variable {e : Expression}

/-- Days from `today` on that both day fields accept. -/
def selectsFrom (e : Expression) (today d : Date) : Bool :=
  today.dayNumber ≤ d.dayNumber && (e.daysOfMonth.admits d && e.daysOfWeek.admits d)

def hoursAdmitted (e : Expression) : List Nat := (List.range 24).filter (e.hours.admits ·)

def minutesAdmitted (e : Expression) : List Nat := (List.range 60).filter (e.minutes.admits ·)

def monthsAdmitted (e : Expression) : List Nat := (List.range' 1 12).filter (e.months.admits ·)

def yearsAdmitted (e : Expression) (first : Nat) : List Nat :=
  (List.range' first (lastYear + 1 - first)).filter (e.years.admits ·)

/-- The wall times that the search tries, day by day from `today` on. -/
def grid (e : Expression) (today : Date) : List WallTime :=
  ((Date.ofYears (e.yearsAdmitted today.year.toNat) e.monthsAdmitted).filter
    (e.selectsFrom today)).flatMap (·.times e.hoursAdmitted e.minutesAdmitted)

theorem mem_hoursAdmitted {hour : Nat} :
    hour ∈ e.hoursAdmitted ↔ hour < 24 ∧ e.hours.admits hour = true := by
  simp [hoursAdmitted]

theorem mem_minutesAdmitted {minute : Nat} :
    minute ∈ e.minutesAdmitted ↔ minute < 60 ∧ e.minutes.admits minute = true := by
  simp [minutesAdmitted]

theorem mem_monthsAdmitted {month : Nat} :
    month ∈ e.monthsAdmitted ↔ (1 ≤ month ∧ month ≤ 12) ∧ e.months.admits month = true := by
  rw [monthsAdmitted, List.mem_filter, List.mem_range'_1]
  refine and_congr_left fun _ => ?_
  omega

theorem mem_yearsAdmitted {first year : Nat} : year ∈ e.yearsAdmitted first ↔
    (first ≤ year ∧ year ≤ lastYear) ∧ e.years.admits year = true := by
  rw [yearsAdmitted, List.mem_filter, List.mem_range'_1]
  refine and_congr_left fun _ => ?_
  omega

theorem mem_times {d : Date} {w : WallTime} : w ∈ d.times e.hoursAdmitted e.minutesAdmitted ↔
    w.date = d ∧ w.hour ∈ e.hoursAdmitted ∧ w.minute ∈ e.minutesAdmitted ∧ w.second = 0 :=
  Date.mem_times (fun _ h => (mem_hoursAdmitted.mp h).1) fun _ h => (mem_minutesAdmitted.mp h).1

theorem mem_grid {today : Date} {w : WallTime} : w ∈ e.grid today ↔
    w.second = 0 ∧ today.dayNumber ≤ w.date.dayNumber ∧ w.date.year ≤ lastYear ∧
      e.admits w = true := by
  have hyears (d : Date) :
      d ∈ Date.ofYears (e.yearsAdmitted today.year.toNat) e.monthsAdmitted ↔ _ :=
    Date.mem_ofYears fun _ h => (mem_monthsAdmitted.mp h).1
  simp only [grid, List.mem_flatMap, List.mem_filter, mem_times, hyears, mem_hoursAdmitted,
    mem_minutesAdmitted, mem_monthsAdmitted, mem_yearsAdmitted, selectsFrom, admits,
    Bool.and_eq_true, decide_eq_true_eq]
  constructor
  · rintro ⟨d, ⟨⟨h0, ⟨⟨-, hlast⟩, hyear⟩, -, hmonth⟩, htoday, hdom, hdow⟩, rfl, ⟨-, hhour⟩,
      ⟨-, hminute⟩, hsecond⟩
    exact ⟨hsecond, htoday, by omega, ⟨⟨⟨⟨hminute, hhour⟩, hdom⟩, hmonth⟩, hdow⟩, hyear, h0⟩
  · rintro ⟨hsecond, htoday, hlast, ⟨⟨⟨⟨hminute, hhour⟩, hdom⟩, hmonth⟩, hdow⟩, hyear, h0⟩
    have hfirst := Date.year_le_of_dayNumber_le htoday
    refine ⟨w.date, ⟨⟨h0, ⟨⟨?_, ?_⟩, hyear⟩, w.date.month_bounds, hmonth⟩, htoday, hdom, hdow⟩, rfl,
      ⟨w.hour_lt, hhour⟩, ⟨w.minute_lt, hminute⟩, hsecond⟩ <;> omega

theorem grid_ascending (today : Date) : (e.grid today).Pairwise (· < ·) := by
  have hhours : e.hoursAdmitted.Pairwise (· < ·) := List.pairwise_lt_range.filter _
  have hminutes : e.minutesAdmitted.Pairwise (· < ·) := List.pairwise_lt_range.filter _
  have hmonths : e.monthsAdmitted.Pairwise (· < ·) := List.Pairwise.filter _ List.pairwise_lt_range'
  have hyears : (e.yearsAdmitted today.year.toNat).Pairwise (· < ·) :=
    List.Pairwise.filter _ List.pairwise_lt_range'
  have hdates := Date.ofYears_ascending hyears hmonths fun _ h => (mem_monthsAdmitted.mp h).1
  rw [grid, List.pairwise_flatMap]
  have hlt : ∀ minute ∈ e.minutesAdmitted, minute < 60 := fun _ h => (mem_minutesAdmitted.mp h).1
  refine ⟨fun d _ => Date.times_ascending hhours hminutes hlt, ?_⟩
  apply (hdates.filter _).imp
  intro a b hab v hv w hw
  apply WallTime.lt_of_date_lt
  rw [(mem_times.mp hv).1, (mem_times.mp hw).1]
  exact hab

theorem flatMap_filter {α β : Type} (p : α → Bool) (f : α → List β) (as : List α) :
    (as.filter p).flatMap f = as.flatMap fun a => if p a then f a else [] := by
  induction as with
  | nil => rfl
  | cons a as ih => cases h : p a <;> simp [h, ih]

/-- The search on one day gives the first of the occurrences of that day, if it is to be tried. -/
theorem occurrencesOn_selected (he : e.Evaluable) {selects : Date → Except EvaluationError Bool}
    (hselects : e.dayField? = some selects) (z : Zone) (start : Int) (localStart : WallTime)
    (hours minutes : List Nat) (today d : Date) (n : Nat) :
    (if d.dayNumber < today.dayNumber then (.ok [] : Except EvaluationError (List Instant))
    else do
      let selected ← selects d
      if selected then z.occurrencesOn start localStart hours minutes d n else return []) =
    .ok (((if e.selectsFrom today d then d.times hours minutes else []).filterMap
      (z.occurrence? start localStart)).take n) := by
  rw [selects_of_evaluable he hselects, selectsFrom]
  by_cases hlt : d.dayNumber < today.dayNumber
  · simp [hlt, Int.not_le.mpr hlt]
  · cases hd : e.daysOfMonth.admits d && e.daysOfWeek.admits d with
    | true =>
        simp only [hlt, Int.not_lt.mp hlt, decide_true, Bool.and_self, if_true, if_false, bind,
          Except.bind]
        exact z.occurrencesOn_eq start localStart hours minutes d n
    | false => simp [hlt, bind, Except.bind, pure, Except.pure]

/-- The search gives the first of the occurrences that the wall times of the grid give. -/
theorem search_eq (he : e.Evaluable) {selects : Date → Except EvaluationError Bool}
    (hselects : e.dayField? = some selects) (z : Zone) (start : Int)
    (localStart : WallTime) (n : Nat) : e.search selects z start localStart n =
      .ok (((e.grid localStart.date).filterMap (z.occurrence? start localStart)).take n) := by
  obtain ⟨hminutes, hhours, -, hmonths, -, hyears⟩ := evaluable_iff.mp he
  simp only [search, Field.select_of_evaluable hminutes, Field.select_of_evaluable hhours,
    Field.select_of_evaluable hmonths, Field.select_of_evaluable hyears, grid, yearsAdmitted,
    monthsAdmitted, hoursAdmitted, minutesAdmitted]
  generalize localStart.date = today
  generalize (List.range' today.year.toNat (lastYear + 1 - today.year.toNat)).filter
    (e.years.admits ·) = years
  generalize (List.range' 1 12).filter (e.months.admits ·) = months
  generalize (List.range 24).filter (e.hours.admits ·) = hours
  generalize (List.range 60).filter (e.minutes.admits ·) = minutes
  simp only [bind, Except.bind]
  split
  · next hempty =>
      rcases hempty with rfl | rfl | rfl | rfl <;>
        simp [Date.ofYears, Date.times, pure, Except.pure]
  · have hday (d : Date) (n : Nat) :=
      occurrencesOn_selected he hselects z start localStart hours minutes today d (n + 1)
    refine (collect_eq (fun _ _ => collect_eq (fun _ _ => collect_eq hday _ _) _ _) _ _).trans ?_
    simp only [List.filterMap_flatMap, flatMap_filter, Date.ofYears, List.flatMap_assoc]

end Expression

end Recurrence
