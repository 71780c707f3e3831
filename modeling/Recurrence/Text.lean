/-!
The words of an expression and their places. Words are numbers, names, symbols and the blanks
between fields: `Lexeme.text` writes a word and `Lexeme.front` takes the longest one from the front
of a text, so that a text is cut into the longest words from the left. The blanks around it are no
words. All characters that words are made of are ASCII, so that a word has as many bytes as
characters. A place is an offset in bytes from the beginning of the text.
-/
namespace Recurrence

/-- The three letters of names may be capital or small alike. -/
def monthNames : List (List Char) :=
  [['J', 'A', 'N'], ['F', 'E', 'B'], ['M', 'A', 'R'], ['A', 'P', 'R'], ['M', 'A', 'Y'],
    ['J', 'U', 'N'], ['J', 'U', 'L'], ['A', 'U', 'G'], ['S', 'E', 'P'], ['O', 'C', 'T'],
    ['N', 'O', 'V'], ['D', 'E', 'C']]

/-- Monday comes first, as in `Weekday.number`. -/
def weekdayNames : List (List Char) :=
  [['M', 'O', 'N'], ['T', 'U', 'E'], ['W', 'E', 'D'], ['T', 'H', 'U'], ['F', 'R', 'I'],
    ['S', 'A', 'T'], ['S', 'U', 'N']]

/-- The place of a spelling in a table of capitals, counted from 1. -/
def numberIn (table : List (List Char)) (text : List Char) : Option Nat :=
  (table.findIdx? (· = text.map Char.toUpper)).map (· + 1)

/-- A name keeps the letters it was written with, and its number is their place in the table. -/
structure Name (table : List (List Char)) where
  text : List Char
  number : Nat
  number_eq : numberIn table text = some number
deriving DecidableEq

abbrev MonthName := Name monthNames

abbrev WeekdayName := Name weekdayNames

namespace Name

def read? (table : List (List Char)) (text : List Char) : Option (Name table) :=
  match h : numberIn table text with
  | some number => some ⟨text, number, h⟩
  | none => none

variable {table : List (List Char)}

theorem read?_text (n : Name table) : read? table n.text = some n := by
  unfold read?
  split
  · next number h =>
    obtain ⟨text, number', h'⟩ := n
    cases Option.some.inj (h.symm.trans h')
    rfl
  · next h => simp [n.number_eq] at h

theorem text_of_read? {text : List Char} {n : Name table} (h : read? table text = some n) :
    n.text = text := by
  unfold read? at h
  split at h
  · cases h
    rfl
  · contradiction

/-- The letters of a name determine it. -/
theorem text_injective {m n : Name table} (h : m.text = n.text) : m = n := by
  have hm := m.read?_text
  rw [h, n.read?_text] at hm
  exact (Option.some.inj hm).symm

end Name

/-- What would have been right at the place of an error. -/
inductive Expectation
  | lexeme
  | smallNumber
  | number
  | numberOrStar
  | dayOfMonth
  | month
  | monthName
  | dayOfWeek
  | weekdayName
  | separator
  | nextField
  | endOfExpression
deriving DecidableEq

def Expectation.text : Expectation → String
  | lexeme => "number, month or day of week name, whitespace or one of `, - * ? / L W #`"
  | smallNumber => "number not greater than 4294967295"
  | number => "number"
  | numberOrStar => "number or `*`"
  | dayOfMonth => "number, `*`, `?` or `L`"
  | month => "number, `*` or month name"
  | monthName => "month name"
  | dayOfWeek => "number, `*`, `?`, `L` or day of week name"
  | weekdayName => "day of week name"
  | separator => "`,` or whitespace"
  | nextField => "next field"
  | endOfExpression => "end of expression"

/-- An error in the text of an expression: the place, and what was expected there. -/
structure SyntaxError where
  position : Nat
  expected : Expectation
deriving DecidableEq

def SyntaxError.message (e : SyntaxError) : String :=
  "syntax error at position " ++ e.position.repr ++ ": expected " ++ e.expected.text

/-- Errors are ordered by place, and at one place by the wording of what was expected. -/
instance : Ord SyntaxError where
  compare a b := (compare a.position b.position).then (compare a.expected.text b.expected.text)

inductive Lexeme
  | number (value : Nat)
  | month (name : MonthName)
  | weekday (name : WeekdayName)
  | space
  | comma
  | dash
  | star
  | question
  | slash
  | last
  | workday
  | hash
deriving DecidableEq

/-- Blanks are space, tab, line feed, form feed and carriage return. -/
def isBlank (c : Char) : Bool := c = ' ' || c = '\t' || c = '\n' || c = '\x0c' || c = '\r'

/-- The greatest number that an expression may hold. -/
def maxNumber : Nat := 4294967295

namespace Lexeme

def text : Lexeme → List Char
  | number value => Nat.toDigits 10 value
  | month name => name.text
  | weekday name => name.text
  | space => [' ']
  | comma => [',']
  | dash => ['-']
  | star => ['*']
  | question => ['?']
  | slash => ['/']
  | last => ['L']
  | workday => ['W']
  | hash => ['#']

def ofSymbol? : Char → Option Lexeme
  | ',' => some comma
  | '-' => some dash
  | '*' => some star
  | '?' => some question
  | '/' => some slash
  | 'L' => some last
  | 'W' => some workday
  | '#' => some hash
  | _ => none

/-- The longest word at the front of the text `c :: cs`, and how many characters of `cs` belong to
it. A name comes before a symbol that has its first letter. -/
def front (c : Char) (cs : List Char) : Except Expectation (Lexeme × Nat) :=
  if isBlank c then .ok (space, (cs.takeWhile isBlank).length)
  else if c.isDigit then
    let digits := cs.takeWhile Char.isDigit
    let value := Nat.ofDigitChars 10 (c :: digits) 0
    if value ≤ maxNumber then .ok (number value, digits.length) else .error .smallNumber
  else
    match Name.read? monthNames (c :: cs.take 2), Name.read? weekdayNames (c :: cs.take 2) with
    | some name, _ => .ok (month name, 2)
    | none, some name => .ok (weekday name, 2)
    | none, none =>
      match ofSymbol? c with
      | some symbol => .ok (symbol, 0)
      | none => .error .lexeme

end Lexeme

/-- The text of a sequence of words. -/
def Lexeme.join (xs : List Lexeme) : List Char := xs.flatMap text

/-- A word that covers the bytes of a text from `start` to before `stop`. -/
structure Token where
  lexeme : Lexeme
  start : Nat
  stop : Nat
deriving DecidableEq

namespace Token

/-- Cuts a text that begins at the byte `start` and whose first `taken` characters belong to the
word before it. -/
def scan (start : Nat) : Nat → List Char → Except SyntaxError (List Token)
  | _, [] => .ok []
  | taken + 1, _ :: cs => scan (start + 1) taken cs
  | 0, c :: cs =>
    match Lexeme.front c cs with
    | .error expected => .error ⟨start, expected⟩
    | .ok (lexeme, more) => do
      let tokens ← scan (start + 1) more cs
      return ⟨lexeme, start, start + 1 + more⟩ :: tokens

end Token

/-- The text without the blanks at its end. -/
def trimEnd (cs : List Char) : List Char := (cs.reverse.dropWhile isBlank).reverse

/-- The words of a text, which leave out the blanks at both ends. -/
def Token.ofText (cs : List Char) : Except SyntaxError (List Token) :=
  let body := trimEnd cs
  let leading := (body.takeWhile isBlank).length
  scan 0 leading body

theorem Token.scan_taken (start taken : Nat) (cs : List Char) :
    scan start taken cs = scan (start + taken) 0 (cs.drop taken) := by
  induction taken generalizing start cs with
  | zero => rfl
  | succ taken ih =>
    cases cs with
    | nil => rfl
    | cons c cs =>
      rw [scan, List.drop_succ_cons, ih]
      congr 1
      omega

end Recurrence
