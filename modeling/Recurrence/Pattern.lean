import Recurrence.Calendar
import Recurrence.Text

/-!
The patterns of the fields. All fields take patterns of numbers, which are all that minutes, hours
and years take. Months can be given by name, days by their place in the month or in the week. What
patterns have in common is the class `Pattern`: they are tested against a value of the calendar,
they can be written as words, and some leave their field unspecified.
-/
namespace Recurrence

/-- The values `top`, `top + step`, …; with `wildcard` the multiples of `step`, whatever `top`. -/
structure Stride where
  wildcard : Bool
  top : Nat
  step : Nat
deriving DecidableEq

def Stride.lexemes (s : Stride) : List Lexeme :=
  [if s.wildcard then .star else .number s.top, .slash, .number s.step]

/-- A progression whose step is zero can be written down but not tested, and testing it is the one
error that a well-formed expression may give. -/
inductive EvaluationError
  | zeroStep (stride : Stride)
deriving DecidableEq

namespace EvaluationError

def detail : EvaluationError → String
  | zeroStep stride =>
    "zero step in repeating pattern `" ++ String.ofList (Lexeme.join stride.lexemes) ++ "`"

def message (e : EvaluationError) : String := "invalid value: " ++ e.detail

end EvaluationError

/-- Compares remainders, from `top` on. -/
def Stride.accepts (s : Stride) (x : Nat) : Except EvaluationError Bool :=
  if s.step = 0 then .error (.zeroStep s)
  else
    let start := if s.wildcard then 0 else s.top
    .ok (decide (start ≤ x) && x % s.step = start % s.step)

theorem bind_eq_ok {ε α β : Type} {x : Except ε α} {f : α → Except ε β} {b : β} :
    (x >>= f) = .ok b ↔ ∃ a, x = .ok a ∧ f a = .ok b := by
  cases x <;> simp [bind, Except.bind]

theorem bind_pure_eq_error {ε α β : Type} {x : Except ε α} {f : α → β} {err : ε} :
    (do let a ← x; return f a) = .error err ↔ x = .error err := by
  cases x <;> simp [bind, Except.bind, pure, Except.pure]

/-- Patterns `π` for values of `ι`. -/
class Pattern (π : Type) (ι : outParam Type) where
  accepts : π → ι → Except EvaluationError Bool
  /-- Whether this is the mark `?`, by which a day field leaves the days to the other day field -/
  unspecified : π → Bool
  lexemes : π → List Lexeme

def Pattern.text {π ι : Type} [Pattern π ι] (p : π) : List Char := Lexeme.join (Pattern.lexemes p)

inductive Numeric
  | all
  | number (value : Nat)
  | range (low high : Nat)
  | stride (stride : Stride)
deriving DecidableEq

namespace Numeric

/-- A range includes both ends and is empty if they are reversed. -/
def accepts : Numeric → Nat → Except EvaluationError Bool
  | all, _ => .ok true
  | number value, x => .ok (x = value)
  | range low high, x => .ok (low ≤ x && x ≤ high)
  | stride s, x => s.accepts x

def lexemes : Numeric → List Lexeme
  | all => [.star]
  | number value => [.number value]
  | range low high => [.number low, .dash, .number high]
  | stride s => s.lexemes

instance : Pattern Numeric Nat where
  accepts := accepts
  unspecified _ := false
  lexemes := lexemes

end Numeric

inductive MonthPattern
  | numeric (pattern : Numeric)
  | named (name : MonthName)
  | namedRange (first last : MonthName)
deriving DecidableEq

namespace MonthPattern

def accepts : MonthPattern → Nat → Except EvaluationError Bool
  | numeric p, month => p.accepts month
  | named name, month => .ok (name.number = month)
  | namedRange a b, month => .ok (a.number ≤ month && month ≤ b.number)

def lexemes : MonthPattern → List Lexeme
  | numeric p => p.lexemes
  | named name => [.month name]
  | namedRange a b => [.month a, .dash, .month b]

instance : Pattern MonthPattern Nat where
  accepts := accepts
  unspecified _ := false
  lexemes := lexemes

end MonthPattern

inductive DayOfMonth
  | numeric (pattern : Numeric)
  | unspecified
  | last
  | workday (day : Nat)
deriving DecidableEq

namespace DayOfMonth

/-- A working day is the one nearest to the given day of the month of the date. It is sought from
the date's own month only, although it may lie in the month before or after. -/
def accepts : DayOfMonth → Date → Except EvaluationError Bool
  | numeric p, date => p.accepts date.day
  | unspecified, _ => .ok true
  | last, date => .ok date.IsLastOfMonth
  | workday day, date =>
    .ok ((Civil.date? ⟨date.year, date.month, day⟩).map Date.nearestWorkday = some date)

def lexemes : DayOfMonth → List Lexeme
  | numeric p => p.lexemes
  | unspecified => [.question]
  | last => [.last]
  | workday day => [.number day, .workday]

instance : Pattern DayOfMonth Date where
  accepts := accepts
  unspecified p := p = unspecified
  lexemes := lexemes

end DayOfMonth

inductive DayOfWeek
  | numeric (pattern : Numeric)
  | unspecified
  | last
  | named (name : WeekdayName)
  | namedRange (first last : WeekdayName)
  | nth (weekday nth : Nat)
deriving DecidableEq

namespace DayOfWeek

/-- The last day of the week is Saturday. A range of names that begins with Sunday begins with day
0, and then a Sunday counts as day 0 and not as day 7. -/
def accepts : DayOfWeek → Date → Except EvaluationError Bool
  | numeric p, date => p.accepts date.weekday.number
  | unspecified, _ => .ok true
  | last, date => .ok (date.weekday = .saturday)
  | named name, date => .ok (name.number = date.weekday.number)
  | namedRange a b, date =>
    let low := a.number % 7
    let day := if low = 0 then date.weekday.fromSunday else date.weekday.number
    .ok (low ≤ day && day ≤ b.number)
  | nth weekday n, date => .ok (nthWeekday? date.year date.month weekday n = some date.day)

def lexemes : DayOfWeek → List Lexeme
  | numeric p => p.lexemes
  | unspecified => [.question]
  | last => [.last]
  | named name => [.weekday name]
  | namedRange a b => [.weekday a, .dash, .weekday b]
  | nth weekday n => [.number weekday, .hash, .number n]

instance : Pattern DayOfWeek Date where
  accepts := accepts
  unspecified p := p = unspecified
  lexemes := lexemes

end DayOfWeek

end Recurrence
