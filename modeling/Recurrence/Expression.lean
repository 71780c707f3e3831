import Recurrence.Pattern

/-!
Expressions: six fields, the text that writes them with single spaces between, and their order. A
field is one or more patterns with commas between them. It accepts a value if one of its patterns
does. All of them are tested, from left to right, so that one that cannot be tested is found
wherever it stands.
-/
namespace Recurrence

structure Field (π : Type) where
  patterns : List π
  patterns_ne_nil : patterns ≠ []
deriving DecidableEq

/-- A field of one pattern. -/
def Field.single {π : Type} (p : π) : Field π where
  patterns := [p]
  patterns_ne_nil := List.cons_ne_nil p []

namespace Field

variable {π ι : Type} [Pattern π ι]

def anyAccepts : List π → ι → Except EvaluationError Bool
  | [], _ => .ok false
  | p :: ps, x => do
    let here ← Pattern.accepts p x
    let there ← anyAccepts ps x
    return here || there

def accepts (f : Field π) (x : ι) : Except EvaluationError Bool := anyAccepts f.patterns x

/-- The values of a list that the field accepts. -/
def select (f : Field π) : List ι → Except EvaluationError (List ι)
  | [] => .ok []
  | x :: xs => do
    let accepted ← f.accepts x
    let more ← f.select xs
    return if accepted then x :: more else more

def unspecified (f : Field π) : Bool := f.patterns.any Pattern.unspecified

def lexemes (f : Field π) : List Lexeme :=
  [Lexeme.comma].intercalate (f.patterns.map Pattern.lexemes)

def text (f : Field π) : List Char := Lexeme.join f.lexemes

end Field

structure Expression where
  minutes : Field Numeric
  hours : Field Numeric
  daysOfMonth : Field DayOfMonth
  months : Field MonthPattern
  daysOfWeek : Field DayOfWeek
  years : Field Numeric
deriving DecidableEq

namespace Expression

def lexemes (e : Expression) : List Lexeme :=
  [Lexeme.space].intercalate
    [e.minutes.lexemes, e.hours.lexemes, e.daysOfMonth.lexemes, e.months.lexemes,
      e.daysOfWeek.lexemes, e.years.lexemes]

def text (e : Expression) : List Char := Lexeme.join e.lexemes

instance : ToString Expression where
  toString e := String.ofList e.text

end Expression

/-! Expressions are ordered field by field, pattern by pattern, a shorter list before one that it
begins. Patterns are ordered by their form and then by what they hold. Each is given a key, a list
of numbers that starts with the place of its form, so that the order is the lexicographic one of
keys. -/

/-- The letters of a name come before its number, and a name before one that it begins. -/
def Name.key {table : List (List Char)} (n : Name table) : List Nat :=
  n.text.map (·.toNat + 1) ++ [0, n.number]

def Numeric.key : Numeric → List Nat
  | all => [0]
  | number value => [1, value]
  | range low high => [2, low, high]
  | stride s => [3, s.wildcard.toNat, s.top, s.step]

def DayOfMonth.key : DayOfMonth → List Nat
  | numeric p => 0 :: p.key
  | unspecified => [1]
  | last => [2]
  | workday day => [3, day]

def MonthPattern.key : MonthPattern → List Nat
  | numeric p => 0 :: p.key
  | named name => 1 :: name.key
  | namedRange a b => 2 :: (a.key ++ b.key)

def DayOfWeek.key : DayOfWeek → List Nat
  | numeric p => 0 :: p.key
  | unspecified => [1]
  | last => [2]
  | named name => 3 :: name.key
  | namedRange a b => 4 :: (a.key ++ b.key)
  | nth weekday n => [5, weekday, n]

namespace Expression

def key (e : Expression) : List (List (List Nat)) :=
  [e.minutes.patterns.map (·.key), e.hours.patterns.map (·.key), e.daysOfMonth.patterns.map (·.key),
    e.months.patterns.map (·.key), e.daysOfWeek.patterns.map (·.key), e.years.patterns.map (·.key)]

instance : Ord Expression where
  compare a b := compare a.key b.key

def sort (es : List Expression) : List Expression := es.mergeSort fun a b => (compare a b).isLE

end Expression

end Recurrence
