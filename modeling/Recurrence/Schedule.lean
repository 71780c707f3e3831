import Recurrence.Clock
import Recurrence.Expression

/-!
Whether an expression holds at an instant, the search for its occurrences, and the occurrences one
after the other. An expression holds if all six fields accept what the clock on the wall shows.
Seconds do not count, and a mark `?` accepts every day. A search chooses years, months, hours and
minutes by their fields beforehand, days by the one day field that is specified, and tries the wall
times that they make up in ascending order. Each is an occurrence if the clock ever shows it, at the
first instant at which it does, unless that lies before the start.
-/
namespace Recurrence

/-- Why there is no answer. Only the error of a field is reported. Where the clock shows a time that
is not representable, evaluation breaks off. -/
inductive ScheduleError
  | evaluation (error : EvaluationError)
  | outOfRange
deriving DecidableEq

/-- What the clock shows at a second of UTC. -/
def Zone.localTime (z : Zone) (t : Int) : Except ScheduleError WallTime :=
  if Representable (z.wallTime t).seconds then .ok (z.wallTime t) else .error .outOfRange

namespace Expression

/-- An expression holds no negative numbers, so that no year before 0 is accepted. -/
def acceptsYear (e : Expression) (year : Int) : Except EvaluationError Bool := do
  let accepted ← e.years.accepts year.toNat
  return accepted && 0 ≤ year

def holdsOn (e : Expression) (w : WallTime) : Except EvaluationError Bool := do
  let minute ← e.minutes.accepts w.minute
  let hour ← e.hours.accepts w.hour
  let dayOfMonth ← e.daysOfMonth.accepts w.date
  let month ← e.months.accepts w.date.month
  let dayOfWeek ← e.daysOfWeek.accepts w.date
  let year ← e.acceptsYear w.date.year
  return minute && hour && dayOfMonth && month && dayOfWeek && year

/-- The clock is read before any field is tested. -/
def holdsAt (e : Expression) (z : Zone) (i : Instant) : Except ScheduleError Bool := do
  let w ← z.localTime i.seconds
  (e.holdsOn w).mapError .evaluation

end Expression

/-- The last year in which occurrences are sought. -/
def lastYear : Nat := 2199

/-- The first `n` of the values that `find` gives along a list. It is told how many are still
wanted. -/
def collect {α β ε : Type} (find : α → Nat → Except ε (List β)) :
    List α → Nat → Except ε (List β)
  | [], _ | _, 0 => .ok []
  | a :: as, n => do
    let found ← find a n
    let more ← collect find as (n - found.length)
    return found ++ more

/-- If `find` gives the first values of a list, as many as are wanted, so does `collect`. -/
theorem collect_eq {α β ε : Type} {find : α → Nat → Except ε (List β)} {all : α → List β}
    (h : ∀ a n, find a (n + 1) = .ok ((all a).take (n + 1))) (as : List α) (n : Nat) :
    collect find as n = .ok ((as.flatMap all).take n) := by
  induction as generalizing n with
  | nil => simp [collect]
  | cons a as ih =>
    cases n with
    | zero => simp [collect]
    | succ n =>
      have hn : n + 1 - ((all a).take (n + 1)).length = n + 1 - (all a).length := by
        rw [List.length_take]
        omega
      simp only [collect, h, ih, bind, Except.bind, pure, Except.pure, hn, List.flatMap_cons,
        List.take_append]

/-- The occurrence that a wall time gives to a search from the second `start` of UTC, at which the
clock shows `localStart`. -/
def Zone.occurrence? (z : Zone) (start : Int) (localStart w : WallTime) : Option Instant :=
  if w.seconds < localStart.seconds then none
  else ((z.earliest? w).filter (start ≤ ·)).map fun t => { seconds := t }

/-- The first `n` occurrences on a date, at the given hours and minutes. -/
def Zone.occurrencesOn {ε : Type} (z : Zone) (start : Int) (localStart : WallTime)
    (hours minutes : List Nat) (date : Date) (n : Nat) : Except ε (List Instant) :=
  collect (fun hour => collect (fun minute _ =>
    .ok (z.occurrence? start localStart (.ofDate date hour minute 0)).toList) minutes) hours n

namespace Expression

/-- The day field that selects the days of occurrences: the other one has to be left unspecified,
and this one not. -/
def dayField? (e : Expression) : Option (Date → Except EvaluationError Bool) :=
  match e.daysOfMonth.unspecified, e.daysOfWeek.unspecified with
  | true, false => some e.daysOfWeek.accepts
  | false, true => some e.daysOfMonth.accepts
  | _, _ => none

/-- Tests each field on one value. Whether a pattern can be tested does not depend on the value. -/
def check (e : Expression) : Except EvaluationError Unit := do
  let _ ← e.minutes.accepts 0
  let _ ← e.hours.accepts 0
  let _ ← e.daysOfMonth.accepts .first
  let _ ← e.months.accepts 1
  let _ ← e.daysOfWeek.accepts .first
  let _ ← e.years.accepts 0

/-- The first `n` occurrences from the second `start` of UTC, at which the clock shows `localStart`,
on the days that `selects` picks. -/
def search (e : Expression) (selects : Date → Except EvaluationError Bool) (z : Zone) (start : Int)
    (localStart : WallTime) (n : Nat) : Except EvaluationError (List Instant) := do
  let today := localStart.date
  let firstYear := today.year.toNat
  let years ← e.years.select (List.range' firstYear (lastYear + 1 - firstYear))
  let months ← e.months.select (List.range' 1 12)
  let hours ← e.hours.select (List.range 24)
  let minutes ← e.minutes.select (List.range 60)
  if years = [] ∨ months = [] ∨ hours = [] ∨ minutes = [] then return []
  let onDate (date : Date) (wanted : Nat) : Except EvaluationError (List Instant) := do
    if date.dayNumber < today.dayNumber then return []
    let selected ← selects date
    if selected then z.occurrencesOn start localStart hours minutes date wanted else return []
  collect (fun (year : Nat) => collect (fun month => collect onDate (Date.ofMonth year month))
    months) years n

/-- The first `n` occurrences from the minute of `i` on. There are none if that minute begins before
all representable dates, or if both day fields or neither of them are left unspecified. Where the
minute begins at a representable second of UTC, the clock may still be out of range. -/
def nextN (e : Expression) (z : Zone) (i : Instant) (n : Nat) :
    Except ScheduleError (List Instant) := do
  e.check.mapError .evaluation
  if n = 0 then return []
  match z.startOfMinute? i, e.dayField? with
  | some start, some selects =>
    let localStart ← z.localTime start
    (e.search selects z start localStart n).mapError .evaluation
  | _, _ => return []

def next (e : Expression) (z : Zone) (i : Instant) : Except ScheduleError (Option Instant) := do
  let found ← e.nextN z i 1
  return found.head?

end Expression

/-- Occurrences one after the other. The first is sought from a given instant, and each that follows
from one minute after the one before. -/
structure Occurrences where
  expression : Expression
  zone : Zone
  pending : Option Instant

def Expression.occurrences (e : Expression) (z : Zone) (i : Instant) :
    Except ScheduleError Occurrences := do
  let first ← e.next z i
  return ⟨e, z, first⟩

namespace Occurrences

/-- What is sought after an occurrence. An error of a field would be lost here, but an expression of
which one occurrence was found can be tested. -/
def following (o : Occurrences) (i : Instant) : Except ScheduleError (Option Instant) :=
  match i.minuteLater? with
  | none => .ok none
  | some later =>
    match o.expression.next o.zone later with
    | .error (.evaluation _) => .ok none
    | found => found

/-- The next occurrence, and what comes after it. -/
def step (o : Occurrences) : Except ScheduleError (Option Instant × Occurrences) :=
  match o.pending with
  | none => .ok (none, o)
  | some i => do
    let pending ← o.following i
    return (some i, { o with pending })

/-- What some steps gave; `ended` says whether one of them gave nothing. -/
structure Run where
  times : List Instant
  ended : Bool
  rest : Occurrences

/-- Takes `n` steps, or fewer up to the first that gives nothing. -/
def take (o : Occurrences) : Nat → Except ScheduleError Run
  | 0 => .ok ⟨[], false, o⟩
  | n + 1 => do
    match ← o.step with
    | (none, rest) => return ⟨[], true, rest⟩
    | (some i, rest) =>
      let run ← take rest n
      return { run with times := i :: run.times }

end Occurrences

end Recurrence
