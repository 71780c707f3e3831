import Recurrence.Expression

/-!
Reading an expression: six fields with blanks between them, each of one or more patterns with commas
between them, and nothing after the last. Patterns are read from the front of a sequence of words;
what may follow a number or a name is looked at before it is decided which pattern it begins. The
first word that cannot go on is where reading fails.
-/
namespace Recurrence

/-- The words that were left at the place where reading failed. -/
structure Failure where
  expected : Expectation
  unread : List Lexeme
deriving DecidableEq

/-- Gives what was read together with the words after it. -/
def readNumber : List Lexeme → Except Failure (Nat × List Lexeme)
  | .number n :: rest => .ok (n, rest)
  | rest => .error ⟨.number, rest⟩

/-- Patterns that can be read, if only from one word or more. -/
class Readable (π : Type) where
  read : List Lexeme → Except Failure (π × List Lexeme)
  length_of_read : ∀ {xs rest : List Lexeme} {p : π}, read xs = .ok (p, rest) →
    rest.length < xs.length

def Numeric.read : List Lexeme → Except Failure (Numeric × List Lexeme)
  | .star :: .slash :: rest => do
    let (step, rest) ← readNumber rest
    return (.stride ⟨true, 0, step⟩, rest)
  | .star :: rest => .ok (.all, rest)
  | .number n :: .slash :: rest => do
    let (step, rest) ← readNumber rest
    return (.stride ⟨false, n, step⟩, rest)
  | .number n :: .dash :: rest => do
    let (high, rest) ← readNumber rest
    return (.range n high, rest)
  | .number n :: rest => .ok (.number n, rest)
  | rest => .error ⟨.numberOrStar, rest⟩

def DayOfMonth.read : List Lexeme → Except Failure (DayOfMonth × List Lexeme)
  | .number day :: .workday :: rest => .ok (.workday day, rest)
  | .question :: rest => .ok (.unspecified, rest)
  | .last :: rest => .ok (.last, rest)
  | xs@(.number _ :: _) | xs@(.star :: _) => do
    let (p, rest) ← Numeric.read xs
    return (.numeric p, rest)
  | rest => .error ⟨.dayOfMonth, rest⟩

def MonthPattern.read : List Lexeme → Except Failure (MonthPattern × List Lexeme)
  | .month a :: .dash :: .month b :: rest => .ok (.namedRange a b, rest)
  | .month _ :: .dash :: rest => .error ⟨.monthName, rest⟩
  | .month name :: rest => .ok (.named name, rest)
  | xs@(.number _ :: _) | xs@(.star :: _) => do
    let (p, rest) ← Numeric.read xs
    return (.numeric p, rest)
  | rest => .error ⟨.month, rest⟩

def DayOfWeek.read : List Lexeme → Except Failure (DayOfWeek × List Lexeme)
  | .number weekday :: .hash :: rest => do
    let (n, rest) ← readNumber rest
    return (.nth weekday n, rest)
  | .weekday a :: .dash :: .weekday b :: rest => .ok (.namedRange a b, rest)
  | .weekday _ :: .dash :: rest => .error ⟨.weekdayName, rest⟩
  | .weekday name :: rest => .ok (.named name, rest)
  | .question :: rest => .ok (.unspecified, rest)
  | .last :: rest => .ok (.last, rest)
  | xs@(.number _ :: _) | xs@(.star :: _) => do
    let (p, rest) ← Numeric.read xs
    return (.numeric p, rest)
  | rest => .error ⟨.dayOfWeek, rest⟩

theorem length_of_readNumber {xs rest : List Lexeme} {n : Nat} (h : readNumber xs = .ok (n, rest)) :
    rest.length < xs.length := by
  unfold readNumber at h
  split at h <;> simp_all

theorem Numeric.length_of_read {xs rest : List Lexeme} {p : Numeric}
    (h : Numeric.read xs = .ok (p, rest)) : rest.length < xs.length := by
  unfold Numeric.read at h
  split at h
  case h_1 | h_3 | h_4 =>
    obtain ⟨⟨n, rest'⟩, hn, h⟩ := bind_eq_ok.mp h
    have := length_of_readNumber hn
    cases h
    simp only [List.length_cons]
    omega
  case h_2 | h_5 =>
    cases h
    simp only [List.length_cons]
    omega
  case h_6 => contradiction

theorem DayOfMonth.length_of_read {xs rest : List Lexeme} {p : DayOfMonth}
    (h : DayOfMonth.read xs = .ok (p, rest)) : rest.length < xs.length := by
  unfold DayOfMonth.read at h
  split at h
  case h_1 | h_2 | h_3 =>
    cases h
    simp only [List.length_cons]
    omega
  case h_4 | h_5 =>
    obtain ⟨⟨n, rest'⟩, hn, h⟩ := bind_eq_ok.mp h
    cases h
    exact Numeric.length_of_read hn
  case h_6 => contradiction

theorem MonthPattern.length_of_read {xs rest : List Lexeme} {p : MonthPattern}
    (h : MonthPattern.read xs = .ok (p, rest)) : rest.length < xs.length := by
  unfold MonthPattern.read at h
  split at h
  case h_1 | h_3 =>
    cases h
    simp only [List.length_cons]
    omega
  case h_4 | h_5 =>
    obtain ⟨⟨n, rest'⟩, hn, h⟩ := bind_eq_ok.mp h
    cases h
    exact Numeric.length_of_read hn
  case h_2 | h_6 => contradiction

theorem DayOfWeek.length_of_read {xs rest : List Lexeme} {p : DayOfWeek}
    (h : DayOfWeek.read xs = .ok (p, rest)) : rest.length < xs.length := by
  unfold DayOfWeek.read at h
  split at h
  case h_1 =>
    obtain ⟨⟨n, rest'⟩, hn, h⟩ := bind_eq_ok.mp h
    have := length_of_readNumber hn
    cases h
    simp only [List.length_cons]
    omega
  case h_2 | h_4 | h_5 | h_6 =>
    cases h
    simp only [List.length_cons]
    omega
  case h_7 | h_8 =>
    obtain ⟨⟨n, rest'⟩, hn, h⟩ := bind_eq_ok.mp h
    cases h
    exact Numeric.length_of_read hn
  case h_3 | h_9 => contradiction

instance : Readable Numeric := ⟨Numeric.read, Numeric.length_of_read⟩

instance : Readable DayOfMonth := ⟨DayOfMonth.read, DayOfMonth.length_of_read⟩

instance : Readable MonthPattern := ⟨MonthPattern.read, MonthPattern.length_of_read⟩

instance : Readable DayOfWeek := ⟨DayOfWeek.read, DayOfWeek.length_of_read⟩

/-- Reads patterns for as long as a comma follows the last one. -/
def Field.read {π : Type} [Readable π] (xs : List Lexeme) :
    Except Failure (Field π × List Lexeme) :=
  match _h : Readable.read xs with
  | .error failure => .error failure
  | .ok (p, .comma :: rest) => do
    let (field, rest) ← Field.read rest
    return (⟨p :: field.patterns, List.cons_ne_nil _ _⟩, rest)
  | .ok (p, rest) => .ok (.single p, rest)
termination_by xs.length
decreasing_by
  have := Readable.length_of_read _h
  simp only [List.length_cons] at this
  omega

/-- The blanks between two fields. -/
def readSeparator : List Lexeme → Except Failure (List Lexeme)
  | .space :: rest => .ok rest
  | [] => .error ⟨.nextField, []⟩
  | rest => .error ⟨.separator, rest⟩

namespace Expression

def read (xs : List Lexeme) : Except Failure Expression := do
  let (minutes, xs) ← Field.read xs
  let xs ← readSeparator xs
  let (hours, xs) ← Field.read xs
  let xs ← readSeparator xs
  let (daysOfMonth, xs) ← Field.read xs
  let xs ← readSeparator xs
  let (months, xs) ← Field.read xs
  let xs ← readSeparator xs
  let (daysOfWeek, xs) ← Field.read xs
  let xs ← readSeparator xs
  let (years, xs) ← Field.read xs
  if xs = [] then return { minutes, hours, daysOfMonth, months, daysOfWeek, years }
  else throw ⟨.endOfExpression, xs⟩

/-- A failure is placed at the first word that was not read, or at the end of the text if all were
read. Only texts that are wholly made of words come so far, so the end is the number of characters
as well as of bytes. -/
def ofText (cs : List Char) : Except SyntaxError Expression := do
  let tokens ← Token.ofText cs
  match read (tokens.map (·.lexeme)) with
  | .ok e => return e
  | .error failure =>
    match tokens.drop (tokens.length - failure.unread.length) with
    | t :: _ => throw ⟨t.start, failure.expected⟩
    | [] => throw ⟨(trimEnd cs).length, failure.expected⟩

def parse (s : String) : Except SyntaxError Expression := ofText s.toList

end Expression

end Recurrence
