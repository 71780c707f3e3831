import Mathlib.Data.List.Sort
import Recurrence.Proofs.Schedule.Grid

/-!
The search against a walk along the clock. The search picks years, months, days, hours and minutes
one within the other and tests one day field; the walk goes from minute to minute and tests the
whole expression. Both give the same occurrences in the same order.
-/
namespace Recurrence

/-- The whole minutes that a clock may show, from `w` on and up to the end of the last year. -/
def WallTime.minutesFrom (w : WallTime) : List WallTime :=
  let first := (w.seconds + 59) / 60
  let stop := 1440 * (Civil.dayNumber ⟨lastYear, 12, 31⟩ + 1)
  (List.range (stop - first).toNat).map fun k : Nat => ⟨60 * (first + k)⟩

namespace WallTime

theorem minutesFrom_ascending (w : WallTime) : w.minutesFrom.Pairwise (· < ·) := by
  rw [minutesFrom, List.pairwise_map]
  apply List.pairwise_lt_range.imp
  intro j k hjk
  rw [lt_def]
  simp only
  omega

theorem mem_minutesFrom {v w : WallTime} :
    v ∈ w.minutesFrom ↔ v.second = 0 ∧ w ≤ v ∧ v.date.year ≤ lastYear := by
  rw [Date.year_le_iff, minutesFrom, List.mem_map, le_def]
  simp only [List.mem_range, second, date]
  constructor
  · rintro ⟨k, hk, rfl⟩
    simp only
    omega
  · rintro ⟨hsecond, hle, hyear⟩
    refine ⟨(v.seconds / 60 - (w.seconds + 59) / 60).toNat, by omega, ?_⟩
    apply seconds_injective
    simp only
    omega

theorem seconds_bounds {w : WallTime} (hfirst : 0 ≤ w.date.year)
    (hlast : w.date.year ≤ lastYear) : -62167219200 ≤ w.seconds ∧ w.seconds < 7258118400 := by
  have hafter : Civil.dayNumber ⟨lastYear, 12, 31⟩ = 84005 := by decide
  rw [Date.year_nonneg_iff] at hfirst
  rw [Date.year_le_iff, hafter] at hlast
  simp only [date] at hfirst hlast
  omega

end WallTime

/-- A clock that was put forward from two to three in the night of 2024-03-31, and back in that of
2024-10-27. -/
def Zone.summerTime : Zone where
  base := 3600
  transitions := [⟨1711846800, 7200⟩, ⟨1729990800, 3600⟩]

theorem Zone.summerTime_spaced : summerTime.Spaced := by
  refine ⟨by decide, ?_⟩
  simp [summerTime, Transition.Apart]

/-- If the minute of an instant begins at a representable second of UTC, the clock shows a
representable time then. -/
def Zone.KeepsRange (z : Zone) (i : Instant) : Prop :=
  ∀ start ∈ z.startOfMinute? i, Representable (z.wallTime start).seconds

theorem Zone.keepsRange_of_shown {z : Zone} {i : Instant} {start : Int}
    (hstart : z.startOfMinute? i = some start) (hshown : Representable (z.wallTime start).seconds) :
    z.KeepsRange i := by
  intro start' hstart'
  cases hstart.symm.trans hstart'
  exact hshown

namespace Expression

/-- The occurrence at a minute of the clock: the first instant that shows it, unless it lies before
the second `start` of UTC or the expression does not hold then. -/
def onMinute? (e : Expression) (z : Zone) (start : Int) (w : WallTime) : Option Instant :=
  (z.earliest? w).bind fun t =>
    if start ≤ t ∧ e.holdsAt z { seconds := t } = .ok true then some { seconds := t } else none

/-- The occurrences from the second `start` of UTC that a walk from minute to minute comes upon. -/
def scan (e : Expression) (z : Zone) (start : Int) : List Instant :=
  (z.wallTime start).minutesFrom.filterMap (e.onMinute? z start)

variable {e : Expression}

theorem onMinute?_eq_some_iff {z : Zone} {start : Int} {w : WallTime} {t : Instant} :
    e.onMinute? z start w = some t ↔ z.wallTime t.seconds = w ∧ z.IsFirstReading t.seconds ∧
      t.nanoseconds = 0 ∧ start ≤ t.seconds ∧ e.holdsAt z t = .ok true := by
  obtain ⟨seconds, nanoseconds⟩ := t
  simp only [onMinute?, Option.bind_eq_some_iff, Zone.earliest?_eq_some_iff,
    Option.ite_none_right_eq_some, Option.some.injEq, Instant.mk.injEq]
  constructor
  · intro h
    obtain ⟨u, ⟨hshown, hfirst⟩, ⟨hle, hholds⟩, rfl, rfl⟩ := h
    exact ⟨hshown, hfirst, rfl, hle, hholds⟩
  · intro h
    obtain ⟨hshown, hfirst, rfl, hle, hholds⟩ := h
    exact ⟨seconds, ⟨hshown, hfirst⟩, ⟨hle, hholds⟩, rfl, rfl⟩

/-- In the years in which occurrences are sought every wall time is representable. -/
theorem holdsAt_iff_admits (he : e.Evaluable) {z : Zone} {t : Instant}
    (hyear : (z.wallTime t.seconds).date.year ≤ lastYear) :
    e.holdsAt z t = .ok true ↔ e.admits (z.wallTime t.seconds) = true := by
  rw [holdsAt_eq_ok_iff]
  constructor
  · intro h
    rw [holdsOn_of_evaluable he] at h
    exact Except.ok.inj h.2
  · intro h
    have hholds := (holdsOn_of_evaluable he _).trans (congrArg _ h)
    have hbounds := WallTime.seconds_bounds (year_nonneg_of_holdsOn hholds) hyear
    refine ⟨?_, hholds⟩
    rw [representable_iff]
    omega

/-- From a wall time on, the grid holds the minutes of the clock that the expression admits. -/
theorem filter_grid (w : WallTime) :
    (e.grid w.date).filter (w ≤ ·) = w.minutesFrom.filter e.admits := by
  apply List.Pairwise.eq_of_mem_iff ((grid_ascending w.date).filter _)
    (w.minutesFrom_ascending.filter _)
  intro v
  simp only [List.mem_filter, mem_grid, WallTime.mem_minutesFrom, decide_eq_true_eq]
  constructor
  · rintro ⟨⟨hsecond, -, hyear, hadmits⟩, hle⟩
    exact ⟨⟨hsecond, hle, hyear⟩, hadmits⟩
  · rintro ⟨⟨hsecond, hle, hyear⟩, hadmits⟩
    refine ⟨⟨hsecond, ?_, hyear, hadmits⟩, hle⟩
    rw [WallTime.le_def] at hle
    simp only [WallTime.date]
    omega

theorem scan_eq_filterMap_grid (he : e.Evaluable) (z : Zone) (start : Int) : e.scan z start =
    (e.grid (z.wallTime start).date).filterMap (z.occurrence? start (z.wallTime start)) := by
  have hgrid : (e.grid (z.wallTime start).date).filterMap (z.occurrence? start (z.wallTime start)) =
      ((e.grid (z.wallTime start).date).filter (z.wallTime start ≤ ·)).filterMap
        (z.occurrence? start (z.wallTime start)) := by
    rw [List.filterMap_filter]
    apply List.filterMap_congr
    intro w _
    by_cases hle : z.wallTime start ≤ w
    · simp only [hle, decide_true, if_true]
    · simp only [hle, decide_false, Bool.false_eq_true, if_false]
      exact if_pos (Int.not_le.mp hle)
  rw [hgrid, filter_grid, List.filterMap_filter]
  apply List.filterMap_congr
  intro w hw
  obtain ⟨-, hle, hyear⟩ := WallTime.mem_minutesFrom.mp hw
  rw [Zone.occurrence?, if_neg (Int.not_lt.mpr hle), onMinute?]
  cases hearliest : z.earliest? w with
  | none => cases e.admits w <;> rfl
  | some t =>
      have hshown := (Zone.earliest?_eq_some_iff.mp hearliest).1
      have hholds : e.holdsAt z ⟨t, 0⟩ = .ok true ↔ e.admits w = true := by
        rw [holdsAt_iff_admits he (hshown ▸ hyear), hshown]
      rw [Option.bind_some]
      simp only [hholds]
      by_cases hstart : start ≤ t <;> cases e.admits w <;> simp [Option.filter, hstart]

/-- All occurrences that searches from an instant can come to. -/
def allFrom (e : Expression) (z : Zone) (i : Instant) : List Instant :=
  match z.startOfMinute? i, e.dayField? with
  | some start, some _ => e.scan z start
  | _, _ => []

/-- A search for days that one day field selects breaks off before it tries any, because the clock
shows no representable time at the start. -/
def BeginsOutOfRange (e : Expression) (z : Zone) (i : Instant) : Prop :=
  e.daysOfMonth.unspecified ≠ e.daysOfWeek.unspecified ∧ ¬ z.KeepsRange i

theorem nextN_of_fault {err : EvaluationError} (h : e.fault? = some err) (z : Zone) (i : Instant)
    (n : Nat) : e.nextN z i n = .error (.evaluation err) := by
  rw [nextN, check_eq, h]
  rfl

theorem nextN_zero (he : e.Evaluable) (z : Zone) (i : Instant) : e.nextN z i 0 = .ok [] := by
  rw [nextN, check_of_evaluable he]
  rfl

theorem nextN_of_pos (he : e.Evaluable) (z : Zone) (i : Instant) {n : Nat} (hn : 0 < n) :
    e.nextN z i n = match z.startOfMinute? i, e.dayField? with
      | some start, some _ => (z.localTime start).map fun _ => (e.scan z start).take n
      | _, _ => .ok [] := by
  rw [nextN, check_of_evaluable he]
  simp only [Except.mapError, bind, Except.bind, if_neg hn.ne']
  cases z.startOfMinute? i with
  | none => rfl
  | some start =>
      cases hselects : e.dayField? with
      | none => rfl
      | some selects =>
          by_cases hshown : Representable (z.wallTime start).seconds
          · simp only [Zone.localTime, if_pos hshown, search_eq he hselects,
              scan_eq_filterMap_grid he, Except.map]
          · simp only [Zone.localTime, if_neg hshown, Except.map]

/-- A search that does not break off finds the first of all occurrences. -/
theorem nextN_eq_take (he : e.Evaluable) {z : Zone} {i : Instant} (h : ¬ e.BeginsOutOfRange z i)
    (n : Nat) : e.nextN z i n = .ok ((e.allFrom z i).take n) := by
  obtain rfl | hn := n.eq_zero_or_pos
  · exact nextN_zero he z i
  · rw [nextN_of_pos he z i hn, allFrom]
    cases hstart : z.startOfMinute? i with
    | none => rw [List.take_nil]
    | some start =>
        cases hselects : e.dayField? with
        | none => rw [List.take_nil]
        | some selects =>
            have hshown : Representable (z.wallTime start).seconds := by
              by_contra hnot
              refine h ⟨mt dayField?_eq_none_iff.mpr (by simp [hselects]), ?_⟩
              exact fun hkeeps => hnot (hkeeps start hstart)
            simp only [Zone.localTime, if_pos hshown, Except.map]

theorem nextN_of_beginsOutOfRange (he : e.Evaluable) {z : Zone} {i : Instant}
    (h : e.BeginsOutOfRange z i) {n : Nat} (hn : 0 < n) : e.nextN z i n = .error .outOfRange := by
  obtain ⟨hone, hnot⟩ := h
  obtain ⟨selects, hselects⟩ := Option.ne_none_iff_exists'.mp (mt dayField?_eq_none_iff.mp hone)
  simp only [Zone.KeepsRange, not_forall] at hnot
  obtain ⟨start, hstart, hshown⟩ := hnot
  rw [nextN_of_pos he z i hn, hstart, hselects]
  simp only [Zone.localTime, if_neg hshown, Except.map]

/-- A search reports the fault, or breaks off, or finds the first of all occurrences. -/
theorem nextN_cases (e : Expression) (z : Zone) (i : Instant) (n : Nat) :
    (∃ err, e.fault? = some err ∧ e.nextN z i n = .error (.evaluation err)) ∨
    (e.fault? = none ∧ 0 < n ∧ e.BeginsOutOfRange z i ∧ e.nextN z i n = .error .outOfRange) ∨
    e.fault? = none ∧ (n = 0 ∨ ¬ e.BeginsOutOfRange z i) ∧
      e.nextN z i n = .ok ((e.allFrom z i).take n) := by
  cases hfault : e.fault? with
  | some err => exact .inl ⟨err, rfl, nextN_of_fault hfault z i n⟩
  | none =>
      have he := fault?_eq_none_iff.mp hfault
      by_cases h : e.BeginsOutOfRange z i
      · obtain rfl | hn := n.eq_zero_or_pos
        · exact .inr (.inr ⟨rfl, .inl rfl, nextN_zero he z i⟩)
        · exact .inr (.inl ⟨rfl, hn, h, nextN_of_beginsOutOfRange he h hn⟩)
      · exact .inr (.inr ⟨rfl, .inr h, nextN_eq_take he h n⟩)

theorem nextN_eq_outOfRange_iff {z : Zone} {i : Instant} {n : Nat} :
    e.nextN z i n = .error .outOfRange ↔ e.fault? = none ∧ 0 < n ∧ e.BeginsOutOfRange z i := by
  obtain ⟨err, hfault, h⟩ | ⟨hfault, hn, hbegins, h⟩ | ⟨hfault, hno, h⟩ := nextN_cases e z i n
  · simp [h, hfault]
  · simp [h, hfault, hn, hbegins]
  · simp only [h, reduceCtorEq, false_iff]
    rintro ⟨-, hn, hbegins⟩
    obtain rfl | hno := hno
    · contradiction
    · exact hno hbegins

theorem eq_take_of_nextN {z : Zone} {i : Instant} {n : Nat} {ts : List Instant}
    (h : e.nextN z i n = .ok ts) : ts = (e.allFrom z i).take n := by
  obtain ⟨err, -, h'⟩ | ⟨-, -, -, h'⟩ | ⟨-, -, h'⟩ := nextN_cases e z i n
  · exact nomatch h.symm.trans h'
  · exact nomatch h.symm.trans h'
  · exact Except.ok.inj (h.symm.trans h')

theorem next_eq_head? (he : e.Evaluable) {z : Zone} {i : Instant} (h : ¬ e.BeginsOutOfRange z i) :
    e.next z i = .ok (e.allFrom z i).head? := by
  rw [next, nextN_eq_take he h]
  cases e.allFrom z i <;> rfl

theorem eq_head?_of_next {z : Zone} {i : Instant} {found : Option Instant}
    (h : e.next z i = .ok found) : found = (e.allFrom z i).head? := by
  cases hts : e.nextN z i 1 with
  | error err =>
      rw [next, hts] at h
      contradiction
  | ok ts =>
      rw [next, hts, eq_take_of_nextN hts] at h
      cases h
      cases e.allFrom z i <;> rfl

theorem next_of_beginsOutOfRange (he : e.Evaluable) {z : Zone} {i : Instant}
    (h : e.BeginsOutOfRange z i) : e.next z i = .error .outOfRange := by
  rw [next, nextN_of_beginsOutOfRange he h Nat.one_pos]
  rfl

theorem allFrom_eq_scan (hone : e.daysOfMonth.unspecified ≠ e.daysOfWeek.unspecified) {z : Zone}
    {i : Instant} {start : Int} (hstart : z.startOfMinute? i = some start) :
    e.allFrom z i = e.scan z start := by
  obtain ⟨selects, hselects⟩ := Option.ne_none_iff_exists'.mp (mt dayField?_eq_none_iff.mp hone)
  rw [allFrom, hstart, hselects]

theorem allFrom_eq_nil (hboth : e.daysOfMonth.unspecified = e.daysOfWeek.unspecified) (z : Zone)
    (i : Instant) : e.allFrom z i = [] := by
  rw [allFrom, dayField?_eq_none_iff.mpr hboth]
  cases z.startOfMinute? i <;> rfl

theorem mem_allFrom {z : Zone} {i t : Instant} : t ∈ e.allFrom z i ↔
    e.daysOfMonth.unspecified ≠ e.daysOfWeek.unspecified ∧
      ∃ start, z.startOfMinute? i = some start ∧ t ∈ e.scan z start := by
  by_cases hboth : e.daysOfMonth.unspecified = e.daysOfWeek.unspecified
  · simp [allFrom_eq_nil hboth, hboth]
  · cases hstart : z.startOfMinute? i with
    | none => simp [allFrom, hstart]
    | some start => simp [allFrom_eq_scan hboth hstart, hboth]

/-- At half past two in the night of the last day of each month. -/
def lastNights : Expression where
  minutes := ⟨[.number 30], List.cons_ne_nil _ _⟩
  hours := ⟨[.number 2], List.cons_ne_nil _ _⟩
  daysOfMonth := ⟨[.last], List.cons_ne_nil _ _⟩
  months := ⟨[.numeric .all], List.cons_ne_nil _ _⟩
  daysOfWeek := ⟨[.unspecified], List.cons_ne_nil _ _⟩
  years := ⟨[.all], List.cons_ne_nil _ _⟩

/-- A search that begins at a wall time that can be represented finds what the walk along the clock
comes upon, provided that one day field is left unspecified and the other is not. -/
theorem nextN_eq_take_scan (he : e.Evaluable) {z : Zone} {i : Instant} {start : Int}
    (hstart : z.startOfMinute? i = some start) (hshown : Representable (z.wallTime start).seconds)
    (n : Nat) :
    (e.daysOfMonth.unspecified ≠ e.daysOfWeek.unspecified →
        e.nextN z i n = .ok ((e.scan z start).take n) ∧ e.next z i = .ok (e.scan z start).head?) ∧
      (e.daysOfMonth.unspecified = e.daysOfWeek.unspecified →
        e.nextN z i n = .ok [] ∧ e.next z i = .ok none) := by
  have hkeeps : ¬ e.BeginsOutOfRange z i := fun h => h.2 (Zone.keepsRange_of_shown hstart hshown)
  rw [nextN_eq_take he hkeeps, next_eq_head? he hkeeps]
  refine ⟨?_, ?_⟩
  · intro hone
    rw [allFrom_eq_scan hone hstart]
    exact ⟨rfl, rfl⟩
  · intro hboth
    rw [allFrom_eq_nil hboth]
    simp

theorem nextN_eq_take_scan_lastNights :
    lastNights.nextN .summerTime ⟨1711843230, 0⟩ 2 =
      .ok ((lastNights.scan .summerTime 1711843200).take 2) := by
  have hstart : Zone.summerTime.startOfMinute? ⟨1711843230, 0⟩ = some 1711843200 := by decide
  have h := nextN_eq_take_scan (e := lastNights) (by decide) hstart (by decide) 2
  exact (h.1 (by decide)).1

end Expression

end Recurrence
