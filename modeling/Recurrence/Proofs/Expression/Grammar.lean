import Recurrence.Expression
import Recurrence.Proofs.Text.Spelling

/-!
The grammar of expressions, over the characters of a text. It derives an expression from the
spellings of the words that the expression is written with. For a stride with a star, whose top
these words do not show, that is the one whose top is 0.
-/
namespace Recurrence

/-- Texts that have some properties, one after the other and with separators between. -/
inductive Separated (sep : List Char → Prop) : List (List Char → Prop) → List Char → Prop
  | single {P cs} (h : P cs) : Separated sep [P] cs
  | cons {P Ps as bs cs} (h : P as) (hsep : sep bs) (hs : Separated sep Ps cs) :
      Separated sep (P :: Ps) (as ++ bs ++ cs)

theorem separated_singleton_iff {sep P : List Char → Prop} {cs : List Char} :
    Separated sep [P] cs ↔ P cs := by
  constructor
  · intro h
    cases h with
    | single h => exact h
    | cons _ _ hs => cases hs
  · intro h
    exact .single h

theorem separated_cons_cons_iff {sep P Q : List Char → Prop} {Ps : List (List Char → Prop)}
    {cs : List Char} : Separated sep (P :: Q :: Ps) cs ↔
      ∃ as bs ds, cs = as ++ bs ++ ds ∧ P as ∧ sep bs ∧ Separated sep (Q :: Ps) ds := by
  constructor
  · intro h
    cases h with
    | cons h hsep hs => exact ⟨_, _, _, rfl, h, hsep, hs⟩
  · intro h
    obtain ⟨as, bs, ds, rfl, h, hsep, hs⟩ := h
    exact .cons h hsep hs

namespace Numeric

inductive Derives : Numeric → List Char → Prop
  | all : Derives .all ['*']
  | number {n cs} (h : Numeral n cs) : Derives (.number n) cs
  | range {low high as bs} (ha : Numeral low as) (hb : Numeral high bs) :
      Derives (.range low high) (as ++ '-' :: bs)
  | stride {top step as bs} (ha : Numeral top as) (hb : Numeral step bs) :
      Derives (.stride ⟨false, top, step⟩) (as ++ '/' :: bs)
  | every {step cs} (h : Numeral step cs) : Derives (.stride ⟨true, 0, step⟩) ('*' :: '/' :: cs)

def Canonical : Numeric → Prop
  | stride s => s.wildcard = true → s.top = 0
  | _ => True

end Numeric

inductive DayOfMonth.Derives : DayOfMonth → List Char → Prop
  | numeric {p cs} (h : p.Derives cs) : Derives (.numeric p) cs
  | unspecified : Derives .unspecified ['?']
  | last : Derives .last ['L']
  | workday {day cs} (h : Numeral day cs) : Derives (.workday day) (cs ++ ['W'])

inductive MonthPattern.Derives : MonthPattern → List Char → Prop
  | numeric {p cs} (h : p.Derives cs) : Derives (.numeric p) cs
  | named {name cs} (h : name.SpelledBy cs) : Derives (.named name) cs
  | namedRange {a b as bs} (ha : a.SpelledBy as) (hb : b.SpelledBy bs) :
      Derives (.namedRange a b) (as ++ '-' :: bs)

inductive DayOfWeek.Derives : DayOfWeek → List Char → Prop
  | numeric {p cs} (h : p.Derives cs) : Derives (.numeric p) cs
  | unspecified : Derives .unspecified ['?']
  | last : Derives .last ['L']
  | named {name cs} (h : name.SpelledBy cs) : Derives (.named name) cs
  | namedRange {a b as bs} (ha : a.SpelledBy as) (hb : b.SpelledBy bs) :
      Derives (.namedRange a b) (as ++ '-' :: bs)
  | nth {weekday n as bs} (ha : Numeral weekday as) (hb : Numeral n bs) :
      Derives (.nth weekday n) (as ++ '#' :: bs)

/-- A sign between two words. -/
theorem spelled_between_iff {x y z : Lexeme} {c : Char} (hy : ∀ cs, y.Spells cs ↔ cs = [c])
    {cs : List Char} :
    Spelled [x, y, z] cs ↔ ∃ as bs, cs = as ++ c :: bs ∧ x.Spells as ∧ z.Spells bs := by
  constructor
  · intro h
    obtain ⟨as, rest, rfl, ha, hrest⟩ := spelled_cons_iff.mp h
    obtain ⟨sign, bs, rfl, hsign, hb⟩ := spelled_cons_iff.mp hrest
    rw [(hy sign).mp hsign]
    exact ⟨as, bs, rfl, ha, spelled_singleton_iff.mp hb⟩
  · intro h
    obtain ⟨as, bs, rfl, ha, hb⟩ := h
    have hrest : Spelled [y, z] ([c] ++ bs) :=
      .cons ((hy [c]).mpr rfl) (spelled_singleton_iff.mpr hb)
    exact .cons ha hrest

/-- Patterns that are derived from the spellings of their words. -/
class Grammar (π : Type) (ι : outParam Type) [Pattern π ι] where
  Derives : π → List Char → Prop
  Canonical : π → Prop
  derives_iff {p : π} {cs : List Char} :
    Derives p cs ↔ Canonical p ∧ Spelled (Pattern.lexemes p) cs
  solid (p : π) : Solid (Pattern.lexemes p)

theorem Numeric.derives_iff {p : Numeric} {cs : List Char} :
    p.Derives cs ↔ p.Canonical ∧ Spelled p.lexemes cs := by
  constructor
  · intro h
    cases h with
    | all => exact ⟨trivial, spelled_singleton_iff.mpr rfl⟩
    | number h => exact ⟨trivial, spelled_singleton_iff.mpr h⟩
    | range ha hb =>
        exact ⟨trivial, (spelled_between_iff fun _ => Iff.rfl).mpr ⟨_, _, rfl, ha, hb⟩⟩
    | stride ha hb =>
        exact ⟨nofun, (spelled_between_iff fun _ => Iff.rfl).mpr ⟨_, _, rfl, ha, hb⟩⟩
    | every h =>
        exact ⟨fun _ => rfl, (spelled_between_iff fun _ => Iff.rfl).mpr ⟨['*'], _, rfl, rfl, h⟩⟩
  · intro h
    obtain ⟨hcanonical, h⟩ := h
    cases p with
    | all =>
        cases spelled_singleton_iff.mp h
        exact .all
    | number n => exact .number (spelled_singleton_iff.mp h)
    | range low high =>
        obtain ⟨as, bs, rfl, ha, hb⟩ := (spelled_between_iff fun _ => Iff.rfl).mp h
        exact .range ha hb
    | stride s =>
        obtain ⟨as, bs, rfl, ha, hb⟩ := (spelled_between_iff fun _ => Iff.rfl).mp h
        obtain ⟨wildcard, top, step⟩ := s
        cases wildcard with
        | false => exact .stride ha hb
        | true =>
            cases hcanonical rfl
            cases ha
            exact .every hb

theorem Numeric.solid (p : Numeric) : Solid p.lexemes := by
  cases p with
  | all | number n | range low high =>
      refine ⟨List.cons_ne_nil _ _, ?_, ?_⟩
      · simp [lexemes]
      · simp [lexemes, Lexeme.Apart]
  | stride s =>
      obtain ⟨wildcard, top, step⟩ := s
      refine ⟨List.cons_ne_nil _ _, ?_, ?_⟩
      · cases wildcard <;> simp [lexemes, Stride.lexemes]
      · cases wildcard <;> simp [lexemes, Stride.lexemes, Lexeme.Apart]

instance : Grammar Numeric Nat :=
  ⟨Numeric.Derives, Numeric.Canonical, Numeric.derives_iff, Numeric.solid⟩

instance : Grammar DayOfMonth Date where
  Derives := DayOfMonth.Derives
  Canonical
    | .numeric p => p.Canonical
    | _ => True
  derives_iff {p cs} := by
    constructor
    · intro h
      cases h with
      | numeric h => exact Numeric.derives_iff.mp h
      | unspecified | last => exact ⟨trivial, spelled_singleton_iff.mpr rfl⟩
      | workday h => exact ⟨trivial, .cons h (spelled_singleton_iff.mpr rfl)⟩
    · intro h
      obtain ⟨hcanonical, h⟩ := h
      cases p with
      | numeric p => exact .numeric (Numeric.derives_iff.mpr ⟨hcanonical, h⟩)
      | unspecified =>
          cases spelled_singleton_iff.mp h
          exact .unspecified
      | last =>
          cases spelled_singleton_iff.mp h
          exact .last
      | workday day =>
          obtain ⟨as, bs, rfl, ha, hb⟩ := spelled_cons_iff.mp h
          cases spelled_singleton_iff.mp hb
          exact .workday ha
  solid p := by
    cases p with
    | numeric p => exact p.solid
    | unspecified | last | workday _ =>
        refine ⟨List.cons_ne_nil _ _, ?_, ?_⟩
        · simp [Pattern.lexemes, DayOfMonth.lexemes]
        · simp [Pattern.lexemes, DayOfMonth.lexemes, Lexeme.Apart]

theorem spelled_month_iff {name : MonthName} {cs : List Char} :
    Spelled [.month name] cs ↔ name.SpelledBy cs := by
  rw [spelled_singleton_iff, Name.spelledBy_iff]
  exact eq_comm

theorem spelled_weekday_iff {name : WeekdayName} {cs : List Char} :
    Spelled [.weekday name] cs ↔ name.SpelledBy cs := by
  rw [spelled_singleton_iff, Name.spelledBy_iff]
  exact eq_comm

instance : Grammar MonthPattern Nat where
  Derives := MonthPattern.Derives
  Canonical
    | .numeric p => p.Canonical
    | _ => True
  derives_iff {p cs} := by
    constructor
    · intro h
      cases h with
      | numeric h => exact Numeric.derives_iff.mp h
      | named h => exact ⟨trivial, spelled_month_iff.mpr h⟩
      | namedRange ha hb =>
          exact ⟨trivial, (spelled_between_iff fun _ => Iff.rfl).mpr
            ⟨_, _, rfl, ha.text.symm, hb.text.symm⟩⟩
    · intro h
      obtain ⟨hcanonical, h⟩ := h
      cases p with
      | numeric p => exact .numeric (Numeric.derives_iff.mpr ⟨hcanonical, h⟩)
      | named name => exact .named (spelled_month_iff.mp h)
      | namedRange a b =>
          obtain ⟨as, bs, rfl, ha, hb⟩ := (spelled_between_iff fun _ => Iff.rfl).mp h
          exact .namedRange (Name.spelledBy_iff.mpr ha.symm) (Name.spelledBy_iff.mpr hb.symm)
  solid p := by
    cases p with
    | numeric p => exact p.solid
    | named _ | namedRange _ _ =>
        refine ⟨List.cons_ne_nil _ _, ?_, ?_⟩
        · simp [Pattern.lexemes, MonthPattern.lexemes]
        · simp [Pattern.lexemes, MonthPattern.lexemes, Lexeme.Apart]

instance : Grammar DayOfWeek Date where
  Derives := DayOfWeek.Derives
  Canonical
    | .numeric p => p.Canonical
    | _ => True
  derives_iff {p cs} := by
    constructor
    · intro h
      cases h with
      | numeric h => exact Numeric.derives_iff.mp h
      | unspecified | last => exact ⟨trivial, spelled_singleton_iff.mpr rfl⟩
      | named h => exact ⟨trivial, spelled_weekday_iff.mpr h⟩
      | namedRange ha hb =>
          exact ⟨trivial, (spelled_between_iff fun _ => Iff.rfl).mpr
            ⟨_, _, rfl, ha.text.symm, hb.text.symm⟩⟩
      | nth ha hb =>
          exact ⟨trivial, (spelled_between_iff fun _ => Iff.rfl).mpr ⟨_, _, rfl, ha, hb⟩⟩
    · intro h
      obtain ⟨hcanonical, h⟩ := h
      cases p with
      | numeric p => exact .numeric (Numeric.derives_iff.mpr ⟨hcanonical, h⟩)
      | unspecified =>
          cases spelled_singleton_iff.mp h
          exact .unspecified
      | last =>
          cases spelled_singleton_iff.mp h
          exact .last
      | named name => exact .named (spelled_weekday_iff.mp h)
      | namedRange a b =>
          obtain ⟨as, bs, rfl, ha, hb⟩ := (spelled_between_iff fun _ => Iff.rfl).mp h
          exact .namedRange (Name.spelledBy_iff.mpr ha.symm) (Name.spelledBy_iff.mpr hb.symm)
      | nth weekday n =>
          obtain ⟨as, bs, rfl, ha, hb⟩ := (spelled_between_iff fun _ => Iff.rfl).mp h
          exact .nth ha hb
  solid p := by
    cases p with
    | numeric p => exact p.solid
    | unspecified | last | named _ | namedRange _ _ | nth _ _ =>
        refine ⟨List.cons_ne_nil _ _, ?_, ?_⟩
        · simp [Pattern.lexemes, DayOfWeek.lexemes]
        · simp [Pattern.lexemes, DayOfWeek.lexemes, Lexeme.Apart]

/-- Texts that spell some words, under a condition each, with a word between them. -/
theorem separated_spelled_iff (s : Lexeme) {as : List (Prop × List Lexeme)} (hne : as ≠ [])
    (cs : List Char) :
    Separated s.Spells (as.map fun a cs => a.1 ∧ Spelled a.2 cs) cs ↔
      (∀ a ∈ as, a.1) ∧ Spelled ([s].intercalate (as.map Prod.snd)) cs := by
  induction as generalizing cs with
  | nil => contradiction
  | cons a as ih =>
      cases as with
      | nil =>
          rw [List.map_singleton, separated_singleton_iff, List.map_singleton,
            List.intercalate_singleton, List.forall_mem_singleton]
      | cons b as =>
          rw [List.map_cons, List.map_cons, separated_cons_cons_iff, List.map_cons, List.map_cons,
            List.intercalate_cons_cons, List.append_assoc, List.forall_mem_cons]
          simp only [List.map_cons] at ih
          simp only [spelled_append_iff, spelled_singleton_iff, ih (List.cons_ne_nil _ _)]
          constructor
          · intro h
            obtain ⟨bs, ds, es, rfl, ⟨ha, hbs⟩, hds, hs, hes⟩ := h
            exact ⟨⟨ha, hs⟩, bs, ds ++ es, List.append_assoc .., hbs, ds, es, rfl, hds, hes⟩
          · intro h
            obtain ⟨⟨ha, hs⟩, bs, rest, rfl, hbs, ds, es, rfl, hds, hes⟩ := h
            exact ⟨bs, ds, es, (List.append_assoc ..).symm, ⟨ha, hbs⟩, hds, hs, hes⟩

/-- Patterns with commas between them. -/
def Field.Derives {π ι : Type} [Pattern π ι] [Grammar π ι] (f : Field π) : List Char → Prop :=
  Separated (· = [',']) (f.patterns.map Grammar.Derives)

def Field.Canonical {π ι : Type} [Pattern π ι] [Grammar π ι] (f : Field π) : Prop :=
  ∀ p ∈ f.patterns, Grammar.Canonical p

theorem Field.derives_iff {π ι : Type} [Pattern π ι] [Grammar π ι] {f : Field π} {cs : List Char} :
    f.Derives cs ↔ f.Canonical ∧ Spelled f.lexemes cs := by
  have hmap : f.patterns.map Grammar.Derives =
      (f.patterns.map fun p => (Grammar.Canonical p, Pattern.lexemes p)).map
        fun a cs => a.1 ∧ Spelled a.2 cs := by
    rw [List.map_map]
    apply List.map_congr_left
    intro p _
    funext cs
    exact propext Grammar.derives_iff
  have hne : (f.patterns.map fun p => (Grammar.Canonical p, Pattern.lexemes p)) ≠ [] :=
    mt List.map_eq_nil_iff.mp f.patterns_ne_nil
  rw [Derives, hmap]
  apply (separated_spelled_iff .comma hne cs).trans
  rw [List.forall_mem_map, List.map_map]
  rfl

theorem Field.derives_eq {π ι : Type} [Pattern π ι] [Grammar π ι] (f : Field π) :
    f.Derives = fun cs => f.Canonical ∧ Spelled f.lexemes cs := by
  funext cs
  exact propext f.derives_iff

theorem Field.solid {π ι : Type} [Pattern π ι] [Grammar π ι] (f : Field π) : Solid f.lexemes := by
  have hpatterns : ∀ xs ∈ f.patterns.map Pattern.lexemes, Solid xs :=
    List.forall_mem_map.mpr fun p _ => Grammar.solid p
  refine ⟨?_, ?_, ?_⟩
  · intro hnil
    obtain ⟨p, ps, hcons⟩ := List.exists_cons_of_ne_nil f.patterns_ne_nil
    have hhead := head?_intercalate (s := .comma) (Grammar.solid p).ne_nil
      (ps.map Pattern.lexemes)
    rw [← List.map_cons, ← hcons] at hhead
    rw [lexemes] at hnil
    rw [hnil] at hhead
    exact (Grammar.solid p).ne_nil (List.head?_eq_none_iff.mp hhead.symm)
  · intro h
    obtain h | ⟨xs, hxs, hspace⟩ := mem_intercalate h
    · contradiction
    · exact (hpatterns xs hxs).space_not_mem hspace
  · apply isChain_intercalate hpatterns
    intro x _
    cases x <;> exact ⟨trivial, trivial⟩

namespace Expression

/-- Six fields with blanks between them, and blanks or none around. -/
def Derives (e : Expression) : List Char → Prop :=
  Surrounded (Separated Blanks [e.minutes.Derives, e.hours.Derives, e.daysOfMonth.Derives,
    e.months.Derives, e.daysOfWeek.Derives, e.years.Derives])

structure Canonical (e : Expression) : Prop where
  minutes : e.minutes.Canonical
  hours : e.hours.Canonical
  daysOfMonth : e.daysOfMonth.Canonical
  months : e.months.Canonical
  daysOfWeek : e.daysOfWeek.Canonical
  years : e.years.Canonical

theorem derives_iff {e : Expression} {cs : List Char} :
    e.Derives cs ↔ e.Canonical ∧ Surrounded (Spelled e.lexemes) cs := by
  have hfields : Separated Blanks [e.minutes.Derives, e.hours.Derives, e.daysOfMonth.Derives,
      e.months.Derives, e.daysOfWeek.Derives, e.years.Derives] =
        fun body => e.Canonical ∧ Spelled e.lexemes body := by
    funext body
    have hspelled := separated_spelled_iff .space
      (List.cons_ne_nil (e.minutes.Canonical, e.minutes.lexemes)
        [(e.hours.Canonical, e.hours.lexemes), (e.daysOfMonth.Canonical, e.daysOfMonth.lexemes),
          (e.months.Canonical, e.months.lexemes), (e.daysOfWeek.Canonical, e.daysOfWeek.lexemes),
          (e.years.Canonical, e.years.lexemes)]) body
    simp only [List.map_cons, List.map_nil, ← Field.derives_eq, List.forall_mem_cons] at hspelled
    apply propext
    apply hspelled.trans
    apply and_congr_left'
    constructor
    · intro h
      exact ⟨h.1, h.2.1, h.2.2.1, h.2.2.2.1, h.2.2.2.2.1, h.2.2.2.2.2.1⟩
    · intro h
      exact ⟨h.minutes, h.hours, h.daysOfMonth, h.months, h.daysOfWeek, h.years, nofun⟩
  rw [Derives, hfields, surrounded_and_iff]

end Expression

end Recurrence
