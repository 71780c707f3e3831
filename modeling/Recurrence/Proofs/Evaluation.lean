import Mathlib.Control.Monad.Basic
import Recurrence.Schedule

/-!
When testing an expression succeeds. The one thing that a pattern can fail by is a stride whose step
is zero, and then it fails for every value, so that a field, which tests all of its patterns, fails
by the first of them. An expression without such strides is tested like a predicate.
-/
namespace Recurrence

/-- Patterns that fail by a step of zero and by nothing else, whatever they are tested against. -/
class Stepped (π : Type) (ι : outParam Type) [Pattern π ι] where
  stride? : π → Option Stride
  accepts_of_zero {p : π} {s : Stride} (x : ι) : stride? p = some s → s.step = 0 →
    Pattern.accepts p x = .error (.zeroStep s)
  accepts_of_nonzero {p : π} (x : ι) : (∀ s, stride? p = some s → s.step ≠ 0) →
    ∃ b, Pattern.accepts p x = .ok b
  accepts_of_unspecified {p : π} (x : ι) : Pattern.unspecified p = true →
    Pattern.accepts p x = .ok true

namespace Numeric

def stride? : Numeric → Option Stride
  | stride s => some s
  | _ => none

theorem accepts_of_zero {p : Numeric} {s : Stride} (x : Nat) (h : p.stride? = some s)
    (hs : s.step = 0) : p.accepts x = .error (.zeroStep s) := by
  cases p <;> simp only [stride?, Option.some.injEq, reduceCtorEq] at h
  subst h
  simp [accepts, Stride.accepts, hs]

theorem accepts_of_nonzero {p : Numeric} (x : Nat) (h : ∀ s, p.stride? = some s → s.step ≠ 0) :
    ∃ b, p.accepts x = .ok b := by
  cases p with
  | stride s => exact ⟨_, if_neg (h s rfl)⟩
  | all | number _ | range _ _ => exact ⟨_, rfl⟩

instance : Stepped Numeric Nat where
  stride? := stride?
  accepts_of_zero := accepts_of_zero
  accepts_of_nonzero := accepts_of_nonzero
  accepts_of_unspecified _ h := nomatch h

end Numeric

instance : Stepped MonthPattern Nat where
  stride?
    | .numeric p => p.stride?
    | _ => none
  accepts_of_zero {p _} x h hs := by
    cases p with
    | numeric p => exact p.accepts_of_zero x h hs
    | named _ | namedRange _ _ => contradiction
  accepts_of_nonzero {p} x h := by
    cases p with
    | numeric p => exact p.accepts_of_nonzero x h
    | named _ | namedRange _ _ => exact ⟨_, rfl⟩
  accepts_of_unspecified _ h := nomatch h

instance : Stepped DayOfMonth Date where
  stride?
    | .numeric p => p.stride?
    | _ => none
  accepts_of_zero {p _} x h hs := by
    cases p with
    | numeric p => exact p.accepts_of_zero x.day h hs
    | unspecified | last | workday _ => contradiction
  accepts_of_nonzero {p} x h := by
    cases p with
    | numeric p => exact p.accepts_of_nonzero x.day h
    | unspecified | last | workday _ => exact ⟨_, rfl⟩
  accepts_of_unspecified {p} x h := by
    cases p with
    | unspecified => rfl
    | numeric _ | last | workday _ => contradiction

instance : Stepped DayOfWeek Date where
  stride?
    | .numeric p => p.stride?
    | _ => none
  accepts_of_zero {p _} x h hs := by
    cases p with
    | numeric p => exact p.accepts_of_zero x.weekday.number h hs
    | unspecified | last | named _ | namedRange _ _ | nth _ _ => contradiction
  accepts_of_nonzero {p} x h := by
    cases p with
    | numeric p => exact p.accepts_of_nonzero x.weekday.number h
    | unspecified | last | named _ | namedRange _ _ | nth _ _ => exact ⟨_, rfl⟩
  accepts_of_unspecified {p} x h := by
    cases p with
    | unspecified => rfl
    | numeric _ | last | named _ | namedRange _ _ | nth _ _ => contradiction

/-- A result, unless a fault stands in its way. -/
def unlessFault {ε α : Type} (fault : Option ε) (a : α) : Except ε α :=
  match fault with
  | some err => .error err
  | none => .ok a

theorem unlessFault_bind {ε α β : Type} {fault more : Option ε} {a : α} {b : β}
    {f : α → Except ε β} (h : f a = unlessFault more b) :
    (unlessFault fault a >>= f) = unlessFault (fault.or more) b := by
  cases fault with
  | some _ => rfl
  | none => exact h

theorem unlessFault_eq_ok_iff {ε α : Type} {fault : Option ε} {a b : α} :
    unlessFault fault a = .ok b ↔ fault = none ∧ a = b := by
  cases fault <;> simp [unlessFault]

namespace Field

variable {π ι : Type} [Pattern π ι] [Stepped π ι]

/-- The strides of a field from left to right. -/
def strides (f : Field π) : List Stride := f.patterns.filterMap Stepped.stride?

/-- Whether one of the patterns accepts the value. -/
def admits (f : Field π) (x : ι) : Bool :=
  f.patterns.any fun p => decide (Pattern.accepts p x = .ok true)

theorem anyAccepts_eq (ps : List π) (x : ι) : anyAccepts ps x =
    match (ps.filterMap Stepped.stride?).find? (·.step = 0) with
    | some s => .error (.zeroStep s)
    | none => .ok (ps.any fun p => decide (Pattern.accepts p x = .ok true)) := by
  induction ps with
  | nil => rfl
  | cons p ps ih =>
      rw [anyAccepts, ih]
      by_cases hp : ∃ s, Stepped.stride? p = some s ∧ s.step = 0
      · obtain ⟨s, hp, hs⟩ := hp
        simp [Stepped.accepts_of_zero x hp hs, hp, hs, bind, Except.bind]
      · have hstep (s : Stride) (h : Stepped.stride? p = some s) : s.step ≠ 0 :=
          fun hs => hp ⟨s, h, hs⟩
        have hfind : ((p :: ps).filterMap Stepped.stride?).find? (·.step = 0) =
            (ps.filterMap Stepped.stride?).find? (·.step = 0) := by
          cases h : Stepped.stride? p with
          | none => rw [List.filterMap_cons_none h]
          | some s => simp [h, hstep s h]
        obtain ⟨b, hb⟩ := Stepped.accepts_of_nonzero x hstep
        rw [hfind, hb, List.any_cons, hb]
        cases (ps.filterMap Stepped.stride?).find? (·.step = 0) <;>
          simp [bind, Except.bind, pure, Except.pure]

/-- The first of the strides of a field whose step is zero, as an error. -/
def fault? (f : Field π) : Option EvaluationError := (f.strides.find? (·.step = 0)).map .zeroStep

/-- A field fails by the first of its strides whose step is zero, whatever the value. -/
theorem accepts_eq (f : Field π) (x : ι) : f.accepts x = unlessFault f.fault? (f.admits x) := by
  rw [accepts, anyAccepts_eq, fault?, strides]
  cases (f.patterns.filterMap Stepped.stride?).find? (·.step = 0) <;> rfl

def Evaluable (f : Field π) : Prop := ∀ s ∈ f.strides, s.step ≠ 0

instance (f : Field π) : Decidable f.Evaluable :=
  inferInstanceAs (Decidable (∀ s ∈ f.strides, _))

theorem accepts_of_evaluable {f : Field π} (h : f.Evaluable) (x : ι) :
    f.accepts x = .ok (f.admits x) := by
  have hfault : f.fault? = none :=
    Option.map_eq_none_iff.mpr (List.find?_eq_none.mpr fun s hs => by simpa using h s hs)
  rw [accepts_eq, hfault]
  rfl

theorem select_of_evaluable {f : Field π} (h : f.Evaluable) (xs : List ι) :
    f.select xs = .ok (xs.filter (f.admits ·)) := by
  induction xs with
  | nil => rfl
  | cons x xs ih =>
      rw [select, accepts_of_evaluable h, ih, List.filter_cons]
      rfl

theorem admits_of_unspecified {f : Field π} (h : f.unspecified = true) (x : ι) :
    f.admits x = true := by
  obtain ⟨p, hp, hunspecified⟩ := List.any_eq_true.mp h
  apply List.any_eq_true.mpr
  exact ⟨p, hp, decide_eq_true (Stepped.accepts_of_unspecified x hunspecified)⟩

end Field

namespace Expression

/-- The strides of an expression, field by field and from left to right. -/
def strides (e : Expression) : List Stride :=
  e.minutes.strides ++ e.hours.strides ++ e.daysOfMonth.strides ++ e.months.strides ++
    e.daysOfWeek.strides ++ e.years.strides

def Evaluable (e : Expression) : Prop := ∀ s ∈ e.strides, s.step ≠ 0

instance (e : Expression) : Decidable e.Evaluable :=
  inferInstanceAs (Decidable (∀ s ∈ e.strides, _))

theorem evaluable_iff {e : Expression} : e.Evaluable ↔
    e.minutes.Evaluable ∧ e.hours.Evaluable ∧ e.daysOfMonth.Evaluable ∧ e.months.Evaluable ∧
      e.daysOfWeek.Evaluable ∧ e.years.Evaluable := by
  simp only [Evaluable, strides, Field.Evaluable, List.mem_append, or_imp, forall_and, and_assoc]

/-- Whether every field accepts what the clock shows. -/
def admits (e : Expression) (w : WallTime) : Bool :=
  e.minutes.admits w.minute && e.hours.admits w.hour && e.daysOfMonth.admits w.date &&
    e.months.admits w.date.month && e.daysOfWeek.admits w.date &&
    (e.years.admits w.date.year.toNat && 0 ≤ w.date.year)

variable {e : Expression}

/-- The first stride of an expression whose step is zero, as an error. -/
def fault? (e : Expression) : Option EvaluationError :=
  (e.strides.find? (·.step = 0)).map .zeroStep

theorem fault?_eq_none_iff : e.fault? = none ↔ e.Evaluable := by
  simp [fault?, Evaluable]

theorem fault?_eq (e : Expression) : e.fault? = e.minutes.fault?.or (e.hours.fault?.or
    (e.daysOfMonth.fault?.or (e.months.fault?.or (e.daysOfWeek.fault?.or e.years.fault?)))) := by
  simp only [fault?, strides, Field.fault?, List.find?_append, Option.map_or, Option.or_assoc]

/-- All six fields are tested, and they fail by the first stride whose step is zero. -/
theorem holdsOn_eq (e : Expression) (w : WallTime) :
    e.holdsOn w = unlessFault e.fault? (e.admits w) := by
  simp only [holdsOn, acceptsYear, Field.accepts_eq, fault?_eq]
  refine unlessFault_bind (unlessFault_bind (unlessFault_bind (unlessFault_bind
    (unlessFault_bind ?_))))
  cases e.years.fault? <;> rfl

theorem year_nonneg_of_holdsOn {w : WallTime} (h : e.holdsOn w = .ok true) : 0 ≤ w.date.year := by
  rw [holdsOn_eq, unlessFault_eq_ok_iff] at h
  simp only [admits, Bool.and_eq_true, decide_eq_true_eq] at h
  exact h.2.2.2

theorem check_eq (e : Expression) : e.check = unlessFault e.fault? () := by
  simp only [check, Field.accepts_eq, fault?_eq]
  refine unlessFault_bind (unlessFault_bind (unlessFault_bind (unlessFault_bind
    (unlessFault_bind ?_))))
  cases e.years.fault? <;> rfl

theorem holdsOn_of_evaluable (h : e.Evaluable) (w : WallTime) : e.holdsOn w = .ok (e.admits w) := by
  rw [holdsOn_eq, fault?_eq_none_iff.mpr h]
  rfl

theorem check_of_evaluable (h : e.Evaluable) : e.check = .ok () := by
  rw [check_eq, fault?_eq_none_iff.mpr h]
  rfl

theorem holdsAt_of_representable {z : Zone} {i : Instant}
    (h : Representable (z.wallTime i.seconds).seconds) :
    e.holdsAt z i = (e.holdsOn (z.wallTime i.seconds)).mapError .evaluation := by
  rw [holdsAt, Zone.localTime, if_pos h]
  rfl

theorem holdsAt_of_not_representable {z : Zone} {i : Instant}
    (h : ¬ Representable (z.wallTime i.seconds).seconds) :
    e.holdsAt z i = .error .outOfRange := by
  rw [holdsAt, Zone.localTime, if_neg h]
  rfl

theorem holdsAt_eq_ok_iff {z : Zone} {i : Instant} {b : Bool} : e.holdsAt z i = .ok b ↔
    Representable (z.wallTime i.seconds).seconds ∧ e.holdsOn (z.wallTime i.seconds) = .ok b := by
  by_cases h : Representable (z.wallTime i.seconds).seconds
  · rw [holdsAt_of_representable h]
    cases e.holdsOn (z.wallTime i.seconds) <;> simp [Except.mapError, h]
  · simp [holdsAt_of_not_representable h, h]

theorem dayField?_eq_none_iff :
    e.dayField? = none ↔ e.daysOfMonth.unspecified = e.daysOfWeek.unspecified := by
  rw [dayField?]
  cases e.daysOfMonth.unspecified <;> cases e.daysOfWeek.unspecified <;> simp

/-- The day field that is left unspecified accepts every day, so that the other one decides. -/
theorem selects_of_evaluable (h : e.Evaluable) {selects : Date → Except EvaluationError Bool}
    (hselects : e.dayField? = some selects) (d : Date) :
    selects d = .ok (e.daysOfMonth.admits d && e.daysOfWeek.admits d) := by
  obtain ⟨-, -, hdays, -, hweek, -⟩ := evaluable_iff.mp h
  rw [dayField?] at hselects
  split at hselects <;> simp only [Option.some.injEq, reduceCtorEq] at hselects <;> subst hselects
  · next hunspecified _ =>
      rw [Field.accepts_of_evaluable hweek, Field.admits_of_unspecified hunspecified, Bool.true_and]
  · next _ hunspecified =>
      rw [Field.accepts_of_evaluable hdays, Field.admits_of_unspecified hunspecified, Bool.and_true]

end Expression

end Recurrence
