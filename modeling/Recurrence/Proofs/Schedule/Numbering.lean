import Recurrence.Proofs.Schedule.Alike
import Recurrence.Proofs.Schedule.Ascending
import Recurrence.Proofs.Text.Spelling

/-!
Numbers in place of names. Months and days of the week can be written by number instead, a range of
days that begins with Sunday as the seventh day and a range from the first. This changes nothing,
except for the range from Sunday to Sunday: it would be that one day, but it accepts all of them.
-/
namespace Recurrence

/-- Patterns that accept together what one pattern accepts. -/
def Covers {π ι : Type} [Pattern π ι] (qs : List π) (p : π) : Prop :=
  ∀ x, (∃ q ∈ qs, Pattern.accepts q x = .ok true) ↔ Pattern.accepts p x = .ok true

theorem covers_singleton {π ι : Type} [Pattern π ι] (p : π) : Covers [p] p := by
  intro x
  simp

namespace Field

variable {π ι : Type} [Pattern π ι]

/-- Puts other patterns in the place of each one. -/
def replace (f : Field π) (g : π → List π) (hg : ∀ p, g p ≠ []) : Field π where
  patterns := f.patterns.flatMap g
  patterns_ne_nil h := by
    obtain ⟨p, ps, hcons⟩ := List.exists_cons_of_ne_nil f.patterns_ne_nil
    exact hg p (List.flatMap_eq_nil_iff.mp h p (hcons ▸ List.mem_cons_self))

variable {f : Field π} {g : π → List π} (hg : ∀ p, g p ≠ [])

theorem strides_replace [Stepped π ι]
    (h : ∀ p, (g p).filterMap Stepped.stride? = (Stepped.stride? p).toList) :
    (f.replace g hg).strides = f.strides := by
  rw [strides, strides, replace, List.filterMap_flatMap]
  simp only [h, List.filterMap_eq_flatMap_toList]

theorem unspecified_replace (h : ∀ p, (g p).any Pattern.unspecified = Pattern.unspecified p) :
    (f.replace g hg).unspecified = f.unspecified := by
  simp only [unspecified, replace, List.any_flatMap, h]

theorem admits_replace (h : ∀ p ∈ f.patterns, Covers (g p) p) (x : ι) :
    (f.replace g hg).admits x = f.admits x := by
  rw [Bool.eq_iff_iff]
  simp only [admits, replace, List.any_flatMap, List.any_eq_true, decide_eq_true_eq]
  exact exists_congr fun p => and_congr_right fun hp => h p hp x

end Field

namespace MonthPattern

/-- The same months by number. -/
def numbered : MonthPattern → List MonthPattern
  | named name => [numeric (.number name.number)]
  | namedRange a b => [numeric (.range a.number b.number)]
  | numeric p => [numeric p]

variable (p : MonthPattern)

theorem numbered_ne_nil : p.numbered ≠ [] := by
  cases p <;> exact List.cons_ne_nil _ _

theorem strides_numbered :
    p.numbered.filterMap Stepped.stride? = (Stepped.stride? p).toList := by
  cases p with
  | numeric p => cases p <;> rfl
  | named _ | namedRange _ _ => rfl

theorem numbered_covers : Covers p.numbered p := by
  cases p with
  | numeric p => exact covers_singleton _
  | named name =>
      intro month
      simp [numbered, Pattern.accepts, accepts, Numeric.accepts, eq_comm]
  | namedRange a b =>
      intro month
      simp [numbered, Pattern.accepts, accepts, Numeric.accepts]

end MonthPattern

namespace DayOfWeek

/-- The same days by number. The week of a range begins on Monday, which is day 1, unless the range
begins with Sunday, which is day 7. -/
def numbered : DayOfWeek → List DayOfWeek
  | named name => [numeric (.number name.number)]
  | namedRange a b =>
    if a.number ≠ 7 then [numeric (.range a.number b.number)]
    else if b.number ≠ 7 then [numeric (.number 7), numeric (.range 1 b.number)]
    else [numeric (.number 7)]
  | p => [p]

/-- The range of names from Sunday to Sunday. -/
def FromSundayToSunday : DayOfWeek → Prop
  | namedRange a b => a.number = 7 ∧ b.number = 7
  | _ => False

section
variable (p : DayOfWeek)

theorem numbered_ne_nil : p.numbered ≠ [] := by
  cases p with
  | namedRange a b =>
      rw [numbered]
      split_ifs <;> exact List.cons_ne_nil _ _
  | numeric _ | unspecified | last | named _ | nth _ _ => exact List.cons_ne_nil _ _

theorem strides_numbered :
    p.numbered.filterMap Stepped.stride? = (Stepped.stride? p).toList := by
  cases p with
  | numeric p => cases p <;> rfl
  | namedRange a b =>
      rw [numbered]
      split_ifs <;> rfl
  | unspecified | last | named _ | nth _ _ => rfl

theorem unspecified_numbered : p.numbered.any Pattern.unspecified = Pattern.unspecified p := by
  cases p with
  | namedRange a b =>
      rw [numbered]
      split_ifs <;> rfl
  | numeric _ | unspecified | last | named _ | nth _ _ => rfl

end

variable {p : DayOfWeek} {d : Date}

theorem accepts_named_iff {name : WeekdayName} :
    accepts (named name) d = .ok true ↔ d.weekday.number = name.number := by
  simp [accepts, eq_comm]

theorem accepts_number_iff {n : Nat} :
    accepts (numeric (.number n)) d = .ok true ↔ d.weekday.number = n := by
  simp [accepts, Numeric.accepts]

theorem accepts_range_iff {low high : Nat} : accepts (numeric (.range low high)) d = .ok true ↔
    low ≤ d.weekday.number ∧ d.weekday.number ≤ high := by
  simp [accepts, Numeric.accepts]

/-- A range of names that begins with Sunday accepts Sundays whatever its last day. -/
theorem accepts_namedRange_iff {a b : WeekdayName} : accepts (namedRange a b) d = .ok true ↔
    if a.number = 7 then d.weekday.number = 7 ∨ d.weekday.number ≤ b.number
    else a.number ≤ d.weekday.number ∧ d.weekday.number ≤ b.number := by
  have ha : 1 ≤ a.number ∧ a.number ≤ 7 := a.number_bounds
  by_cases h : a.number = 7
  · simp only [accepts, h, if_true, Nat.mod_self, Nat.zero_le, decide_true, Bool.true_and,
      Except.ok.injEq, decide_eq_true_eq]
    cases d.weekday <;> simp [Weekday.fromSunday, Weekday.number]
  · have hlow : a.number % 7 = a.number := Nat.mod_eq_of_lt (by omega)
    have hpos : a.number ≠ 0 := by omega
    simp [accepts, hlow, hpos, h]

theorem accepts_of_fromSundayToSunday (h : p.FromSundayToSunday) (d : Date) :
    p.accepts d = .ok true := by
  cases p with
  | namedRange a b =>
      rw [accepts_namedRange_iff, if_pos h.1, h.2]
      exact .inr d.weekday.number_bounds.2
  | numeric _ | unspecified | last | named _ | nth _ _ => contradiction

theorem numbered_covers (h : ¬ p.FromSundayToSunday) : Covers p.numbered p := by
  cases p with
  | named name =>
      intro d
      simp [numbered, Pattern.accepts, accepts_number_iff, accepts_named_iff]
  | namedRange a b =>
      intro d
      rw [numbered]
      split_ifs with ha hb
      · simp [Pattern.accepts, accepts_range_iff, accepts_namedRange_iff, ha]
      · have hd := d.weekday.number_bounds
        simp [Pattern.accepts, accepts_number_iff, accepts_range_iff, accepts_namedRange_iff, ha,
          hd]
      · exact absurd ⟨not_not.mp ha, not_not.mp hb⟩ h
  | numeric _ | unspecified | last | nth _ _ => exact covers_singleton _

end DayOfWeek

namespace Expression

/-- The same expression with numbers in place of all names. -/
def numbered (e : Expression) : Expression :=
  { e with
    months := e.months.replace MonthPattern.numbered MonthPattern.numbered_ne_nil
    daysOfWeek := e.daysOfWeek.replace DayOfWeek.numbered DayOfWeek.numbered_ne_nil }

variable {e : Expression}

theorem admits_of_fromSundayToSunday {p : DayOfWeek} (hp : p ∈ e.daysOfWeek.patterns)
    (h : p.FromSundayToSunday) (d : Date) : e.daysOfWeek.admits d = true :=
  List.any_eq_true.mpr ⟨p, hp, decide_eq_true (DayOfWeek.accepts_of_fromSundayToSunday h d)⟩

/-- Whether the numbers accept the same days as the names. -/
theorem admits_numbered (h : ∀ p ∈ e.daysOfWeek.patterns, p.FromSundayToSunday →
    ∀ d, e.numbered.daysOfWeek.admits d = true) (d : Date) :
    e.numbered.daysOfWeek.admits d = e.daysOfWeek.admits d := by
  by_cases hsunday : ∃ p ∈ e.daysOfWeek.patterns, p.FromSundayToSunday
  · obtain ⟨p, hp, hsunday⟩ := hsunday
    rw [h p hp hsunday, admits_of_fromSundayToSunday hp hsunday]
  · have hcovers : ∀ p ∈ e.daysOfWeek.patterns, Covers p.numbered p :=
      fun p hp => DayOfWeek.numbered_covers fun hs => hsunday ⟨p, hp, hs⟩
    exact Field.admits_replace DayOfWeek.numbered_ne_nil hcovers d

theorem alike_numbered (h : ∀ d, e.numbered.daysOfWeek.admits d = e.daysOfWeek.admits d) :
    Alike e.numbered e where
  fault := by
    rw [fault?, fault?, strides, strides]
    simp only [numbered, Field.strides_replace _ MonthPattern.strides_numbered,
      Field.strides_replace _ DayOfWeek.strides_numbered]
  admits w := by
    have hmonth : e.numbered.months.admits w.date.month = e.months.admits w.date.month :=
      Field.admits_replace MonthPattern.numbered_ne_nil (fun p _ => p.numbered_covers) _
    simp only [admits, h, hmonth]
    rfl
  undecided := by
    simp only [numbered, Field.unspecified_replace _ DayOfWeek.unspecified_numbered]

/-- Names can be written as numbers, unless a range from Sunday to Sunday stands in a field that
does not accept every day without it. Then there are days that the field accepts in names only. -/
theorem schedule_numbered (e : Expression) :
    ((∀ p ∈ e.daysOfWeek.patterns, p.FromSundayToSunday →
        ∀ d, e.numbered.daysOfWeek.admits d = true) →
      ∀ z i n, e.numbered.holdsAt z i = e.holdsAt z i ∧ e.numbered.nextN z i n = e.nextN z i n) ∧
    (∀ p ∈ e.daysOfWeek.patterns, p.FromSundayToSunday →
      ∀ d, e.numbered.daysOfWeek.admits d = false → e.daysOfWeek.admits d = true) := by
  refine ⟨?_, fun p hp hsunday d _ => admits_of_fromSundayToSunday hp hsunday d⟩
  intro h z i n
  have halike := alike_numbered (admits_numbered h)
  exact ⟨halike.holdsAt_eq z i, halike.nextN_eq z i n⟩

def june : MonthName := ⟨['J', 'u', 'n'], 6, rfl⟩

def august : MonthName := ⟨['A', 'u', 'g'], 8, rfl⟩

/-- At noon on the days of the week in some patterns, from June to August. -/
def summerNoons (days : List DayOfWeek) (hdays : days ≠ []) : Expression where
  minutes := .single (.number 0)
  hours := .single (.number 12)
  daysOfMonth := .single .unspecified
  months := .single (.namedRange june august)
  daysOfWeek := ⟨days, hdays⟩
  years := .single .all

def sunday : WeekdayName := ⟨['S', 'u', 'n'], 7, rfl⟩

def tuesday : WeekdayName := ⟨['T', 'u', 'e'], 2, rfl⟩

/-- A range that begins with Sunday, and one from Sunday to Sunday beside a star. -/
theorem schedule_numbered_summerNoons :
    let e := summerNoons [.namedRange sunday tuesday, .namedRange sunday sunday, .numeric .all]
      (List.cons_ne_nil _ _)
    e.numbered.nextN .summerTime ⟨1719792000, 0⟩ 2 = e.nextN .summerTime ⟨1719792000, 0⟩ 2 := by
  intro e
  have hall : ∀ p ∈ e.daysOfWeek.patterns, p.FromSundayToSunday →
      ∀ d, e.numbered.daysOfWeek.admits d = true := by
    intro p _ _ d
    apply List.any_eq_true.mpr
    refine ⟨.numeric .all, ?_, rfl⟩
    simp [numbered, e, summerNoons, Field.replace, DayOfWeek.numbered]
  exact ((schedule_numbered e).1 hall .summerTime ⟨1719792000, 0⟩ 2).2

/-- From Sunday to Sunday, Monday is accepted. -/
theorem not_schedule_numbered : ¬ ∀ (e : Expression) (z : Zone) (i : Instant) (n : Nat),
    e.Evaluable → e.numbered.holdsAt z i = e.holdsAt z i ∧
      e.numbered.nextN z i n = e.nextN z i n := by
  intro h
  have hmonday := (h (summerNoons [.namedRange sunday sunday] (List.cons_ne_nil _ _)) (.fixed 0)
    ⟨1719835200, 0⟩ 1 (by decide)).1
  revert hmonday
  decide

end Expression

end Recurrence
