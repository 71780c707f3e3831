import Recurrence.Parser
import Recurrence.Proofs.Expression.Grammar

/-!
Reading is the inverse of writing down words. A pattern is read from its words, whatever comes after
them as long as it cannot be part of a pattern, and what was read is written with the words that
were taken. Fields and expressions are read from their words in the same sense.
-/
namespace Recurrence

/-- What can follow a pattern. -/
inductive EndsPattern : List Lexeme → Prop
  | nil : EndsPattern []
  | comma (rest) : EndsPattern (.comma :: rest)
  | space (rest) : EndsPattern (.space :: rest)

/-- What can follow a field. -/
inductive EndsField : List Lexeme → Prop
  | nil : EndsField []
  | space (rest) : EndsField (.space :: rest)

/-- Patterns that are read from the words that they are written with. -/
class Legible (π : Type) (ι : outParam Type) [Pattern π ι] [Grammar π ι] [Readable π] : Prop where
  read_sound {xs rest : List Lexeme} {p : π} : Readable.read xs = .ok (p, rest) →
    Grammar.Canonical p ∧ xs = Pattern.lexemes p ++ rest
  read_complete {rest : List Lexeme} {p : π} : Grammar.Canonical p → EndsPattern rest →
    Readable.read (Pattern.lexemes p ++ rest) = .ok (p, rest)

theorem readNumber_eq_ok_iff {xs rest : List Lexeme} {n : Nat} :
    readNumber xs = .ok (n, rest) ↔ xs = .number n :: rest := by
  constructor
  · intro h
    unfold readNumber at h
    split at h
    · cases h
      rfl
    · contradiction
  · intro h
    subst h
    rfl

namespace Numeric

theorem read_sound {xs rest : List Lexeme} {p : Numeric} (h : Numeric.read xs = .ok (p, rest)) :
    p.Canonical ∧ xs = p.lexemes ++ rest := by
  unfold Numeric.read at h
  split at h
  case h_1 | h_3 | h_4 =>
    obtain ⟨⟨n, rest'⟩, hn, h⟩ := bind_eq_ok.mp h
    cases h
    rw [readNumber_eq_ok_iff.mp hn]
    exact ⟨by simp [Canonical], rfl⟩
  case h_2 | h_5 =>
    cases h
    exact ⟨trivial, rfl⟩
  case h_6 => contradiction

theorem read_complete {rest : List Lexeme} {p : Numeric} (h : p.Canonical)
    (hend : EndsPattern rest) : Numeric.read (p.lexemes ++ rest) = .ok (p, rest) := by
  cases p with
  | all | number n => cases hend <;> rfl
  | range low high => rfl
  | stride s =>
      obtain ⟨wildcard, top, step⟩ := s
      cases wildcard with
      | false => rfl
      | true =>
          cases h rfl
          rfl

/-- The same for a reader that leaves to this one what begins with a star, or with a number that no
sign of another pattern follows. -/
theorem read_complete_as {π : Type} (read : List Lexeme → Except Failure (π × List Lexeme))
    {wrap : Numeric → π} (hstar : ∀ xs, read (.star :: xs) =
      (Numeric.read (.star :: xs)).map fun found => (wrap found.1, found.2))
    (hnumber : ∀ n xs, (∀ ys, xs ≠ .workday :: ys) → (∀ ys, xs ≠ .hash :: ys) →
      read (.number n :: xs) =
        (Numeric.read (.number n :: xs)).map fun found => (wrap found.1, found.2))
    {rest : List Lexeme} {p : Numeric} (h : p.Canonical) (hend : EndsPattern rest) :
    read (p.lexemes ++ rest) = .ok (wrap p, rest) := by
  have hread : read (p.lexemes ++ rest) =
      (Numeric.read (p.lexemes ++ rest)).map fun found => (wrap found.1, found.2) := by
    cases p with
    | all => exact hstar _
    | number n =>
        apply hnumber n rest
        · cases hend <;> exact nofun
        · cases hend <;> exact nofun
    | range low high => exact hnumber low _ nofun nofun
    | stride s =>
        obtain ⟨wildcard, top, step⟩ := s
        cases wildcard with
        | false => exact hnumber top _ nofun nofun
        | true => exact hstar _
  rw [hread, read_complete h hend]
  rfl

end Numeric

instance : Legible Numeric Nat := ⟨Numeric.read_sound, Numeric.read_complete⟩

instance : Legible DayOfMonth Date where
  read_sound {xs rest p} h := by
    change DayOfMonth.read xs = _ at h
    unfold DayOfMonth.read at h
    split at h
    case h_1 | h_2 | h_3 =>
      cases h
      exact ⟨trivial, rfl⟩
    case h_4 | h_5 =>
      obtain ⟨⟨q, rest'⟩, hq, h⟩ := bind_eq_ok.mp h
      cases h
      exact Numeric.read_sound hq
    case h_6 => contradiction
  read_complete {rest p} h hend := by
    cases p with
    | numeric p =>
        apply Numeric.read_complete_as DayOfMonth.read (fun _ => rfl) _ h hend
        intro n xs hworkday _
        cases xs with
        | nil => rfl
        | cons x xs =>
            cases x
            case workday => exact absurd rfl (hworkday xs)
            all_goals rfl
    | unspecified | last | workday day => rfl

instance : Legible MonthPattern Nat where
  read_sound {xs rest p} h := by
    change MonthPattern.read xs = _ at h
    unfold MonthPattern.read at h
    split at h
    case h_1 | h_3 =>
      cases h
      exact ⟨trivial, rfl⟩
    case h_4 | h_5 =>
      obtain ⟨⟨q, rest'⟩, hq, h⟩ := bind_eq_ok.mp h
      cases h
      exact Numeric.read_sound hq
    case h_2 | h_6 => contradiction
  read_complete {rest p} h hend := by
    cases p with
    | numeric p =>
        exact Numeric.read_complete_as MonthPattern.read (fun _ => rfl)
          (fun _ _ _ _ => rfl) h hend
    | named name => cases hend <;> rfl
    | namedRange a b => rfl

instance : Legible DayOfWeek Date where
  read_sound {xs rest p} h := by
    change DayOfWeek.read xs = _ at h
    unfold DayOfWeek.read at h
    split at h
    case h_1 =>
      obtain ⟨⟨n, rest'⟩, hn, h⟩ := bind_eq_ok.mp h
      cases h
      rw [readNumber_eq_ok_iff.mp hn]
      exact ⟨trivial, rfl⟩
    case h_2 | h_4 | h_5 | h_6 =>
      cases h
      exact ⟨trivial, rfl⟩
    case h_7 | h_8 =>
      obtain ⟨⟨q, rest'⟩, hq, h⟩ := bind_eq_ok.mp h
      cases h
      exact Numeric.read_sound hq
    case h_3 | h_9 => contradiction
  read_complete {rest p} h hend := by
    cases p with
    | numeric p =>
        apply Numeric.read_complete_as DayOfWeek.read (fun _ => rfl) _ h hend
        intro n xs _ hhash
        cases xs with
        | nil => rfl
        | cons x xs =>
            cases x
            case hash => exact absurd rfl (hhash xs)
            all_goals rfl
    | named name => cases hend <;> rfl
    | unspecified | last | namedRange a b | nth weekday n => rfl

namespace Field

variable {π ι : Type} [Pattern π ι]

theorem lexemes_singleton (p : π) (hne : [p] ≠ []) :
    (⟨[p], hne⟩ : Field π).lexemes = Pattern.lexemes p := by
  rw [lexemes, List.map_singleton, List.intercalate_singleton]

theorem lexemes_cons (p : π) (f : Field π) (hne : p :: f.patterns ≠ []) :
    (⟨p :: f.patterns, hne⟩ : Field π).lexemes = Pattern.lexemes p ++ .comma :: f.lexemes := by
  rw [lexemes, List.map_cons,
    List.intercalate_cons_of_ne_nil (mt List.map_eq_nil_iff.mp f.patterns_ne_nil),
    List.append_assoc]
  rfl

variable [Readable π]

theorem read_of_error {xs : List Lexeme} {f : Failure} (h : @Readable.read π _ xs = .error f) :
    @Field.read π _ xs = .error f := by
  rw [Field.read]
  split
  · next hfailure =>
      cases h.symm.trans hfailure
      rfl
  · next hcomma => cases h.symm.trans hcomma
  · next hfound => cases h.symm.trans hfound

theorem read_of_comma {xs rest : List Lexeme} {p : π}
    (h : Readable.read xs = .ok (p, .comma :: rest)) :
    Field.read xs = do
      let (f, rest) ← Field.read rest
      return (⟨p :: f.patterns, List.cons_ne_nil _ _⟩, rest) := by
  rw [Field.read]
  split
  · next hfailure => cases h.symm.trans hfailure
  · next hcomma =>
      cases h.symm.trans hcomma
      rfl
  · next hother hfound =>
      cases h.symm.trans hfound
      exact (hother _ rfl).elim

theorem read_of_head {xs rest : List Lexeme} {p : π} (h : Readable.read xs = .ok (p, rest))
    (hcomma : rest.head? ≠ some .comma) :
    Field.read xs = .ok (⟨[p], List.cons_ne_nil _ _⟩, rest) := by
  rw [Field.read]
  split
  · next hfailure => cases h.symm.trans hfailure
  · next hfound =>
      cases h.symm.trans hfound
      contradiction
  · next hfound =>
      cases h.symm.trans hfound
      rfl

variable [Grammar π ι] [Legible π ι]

theorem read_sound {xs rest : List Lexeme} {f : Field π} (h : Field.read xs = .ok (f, rest)) :
    f.Canonical ∧ xs = f.lexemes ++ rest := by
  cases hread : @Readable.read π _ xs with
  | error failure => cases (read_of_error hread).symm.trans h
  | ok found =>
      obtain ⟨p, more⟩ := found
      obtain ⟨hp, hxs⟩ := Legible.read_sound hread
      by_cases hcomma : more.head? = some .comma
      · obtain ⟨more, rfl⟩ := List.head?_eq_some_iff.mp hcomma
        rw [read_of_comma hread] at h
        obtain ⟨⟨g, rest'⟩, hg, h⟩ := bind_eq_ok.mp h
        cases h
        obtain ⟨hcanonical, hmore⟩ := read_sound hg
        rw [lexemes_cons, hxs, hmore, List.append_assoc, List.cons_append]
        exact ⟨List.forall_mem_cons.mpr ⟨hp, hcanonical⟩, rfl⟩
      · rw [read_of_head hread hcomma] at h
        cases h
        rw [lexemes_singleton]
        exact ⟨List.forall_mem_singleton.mpr hp, hxs⟩
termination_by xs.length
decreasing_by
  have := Readable.length_of_read hread
  simp only [List.length_cons] at this
  omega

theorem read_complete {rest : List Lexeme} {f : Field π} (h : f.Canonical) (hend : EndsField rest) :
    Field.read (f.lexemes ++ rest) = .ok (f, rest) := by
  obtain ⟨ps, hne⟩ := f
  induction ps with
  | nil => contradiction
  | cons p ps ih =>
      rw [Canonical, List.forall_mem_cons] at h
      cases ps with
      | nil =>
          have hread : Readable.read (Pattern.lexemes p ++ rest) = .ok (p, rest) :=
            Legible.read_complete h.1 (by cases hend <;> constructor)
          rw [lexemes_singleton]
          exact read_of_head hread (by cases hend <;> exact nofun)
      | cons q qs =>
          let g : Field π := ⟨q :: qs, List.cons_ne_nil _ _⟩
          have hread : Readable.read (Pattern.lexemes p ++ .comma :: (g.lexemes ++ rest)) =
              .ok (p, .comma :: (g.lexemes ++ rest)) :=
            Legible.read_complete h.1 (.comma _)
          rw [lexemes_cons p g, List.append_assoc, List.cons_append, read_of_comma hread,
            ih (List.cons_ne_nil _ _) h.2]
          rfl

end Field

theorem readSeparator_eq_ok_iff {xs rest : List Lexeme} :
    readSeparator xs = .ok rest ↔ xs = .space :: rest := by
  constructor
  · intro h
    unfold readSeparator at h
    split at h
    · cases h
      rfl
    · contradiction
    · contradiction
  · intro h
    subst h
    rfl

theorem read_field_separator {π ι : Type} [Pattern π ι] [Grammar π ι] [Readable π] [Legible π ι]
    {xs more rest : List Lexeme} {f : Field π} (hfield : Field.read xs = .ok (f, more))
    (hseparator : readSeparator more = .ok rest) :
    f.Canonical ∧ xs = f.lexemes ++ .space :: rest := by
  rw [← readSeparator_eq_ok_iff.mp hseparator]
  exact Field.read_sound hfield

namespace Expression

theorem lexemes_eq (e : Expression) : e.lexemes =
    e.minutes.lexemes ++ .space :: (e.hours.lexemes ++ .space :: (e.daysOfMonth.lexemes ++ .space ::
      (e.months.lexemes ++ .space :: (e.daysOfWeek.lexemes ++ .space :: e.years.lexemes)))) := by
  simp only [lexemes, List.intercalate_cons_cons, List.intercalate_singleton, List.append_assoc,
    List.singleton_append]

theorem read_sound {xs : List Lexeme} {e : Expression} (h : read xs = .ok e) :
    e.Canonical ∧ xs = e.lexemes := by
  obtain ⟨⟨minutes, xs₁⟩, hread₁, h⟩ := bind_eq_ok.mp h
  obtain ⟨xs₂, hseparator₁, h⟩ := bind_eq_ok.mp h
  obtain ⟨⟨hours, xs₃⟩, hread₂, h⟩ := bind_eq_ok.mp h
  obtain ⟨xs₄, hseparator₂, h⟩ := bind_eq_ok.mp h
  obtain ⟨⟨daysOfMonth, xs₅⟩, hread₃, h⟩ := bind_eq_ok.mp h
  obtain ⟨xs₆, hseparator₃, h⟩ := bind_eq_ok.mp h
  obtain ⟨⟨months, xs₇⟩, hread₄, h⟩ := bind_eq_ok.mp h
  obtain ⟨xs₈, hseparator₄, h⟩ := bind_eq_ok.mp h
  obtain ⟨⟨daysOfWeek, xs₉⟩, hread₅, h⟩ := bind_eq_ok.mp h
  obtain ⟨xs₁₀, hseparator₅, h⟩ := bind_eq_ok.mp h
  obtain ⟨⟨years, xs₁₁⟩, hread₆, h⟩ := bind_eq_ok.mp h
  simp only at h
  split at h
  · next hend =>
      cases h
      cases hend
      obtain ⟨hminutes, rfl⟩ := read_field_separator hread₁ hseparator₁
      obtain ⟨hhours, rfl⟩ := read_field_separator hread₂ hseparator₂
      obtain ⟨hdaysOfMonth, rfl⟩ := read_field_separator hread₃ hseparator₃
      obtain ⟨hmonths, rfl⟩ := read_field_separator hread₄ hseparator₄
      obtain ⟨hdaysOfWeek, rfl⟩ := read_field_separator hread₅ hseparator₅
      obtain ⟨hyears, rfl⟩ := Field.read_sound hread₆
      rw [lexemes_eq, List.append_nil]
      exact ⟨⟨hminutes, hhours, hdaysOfMonth, hmonths, hdaysOfWeek, hyears⟩, rfl⟩
  · contradiction

theorem read_complete {e : Expression} (h : e.Canonical) : read e.lexemes = .ok e := by
  have hyears := Field.read_complete h.years .nil
  rw [List.append_nil] at hyears
  rw [lexemes_eq, read]
  simp only [Field.read_complete h.minutes (.space _), Field.read_complete h.hours (.space _),
    Field.read_complete h.daysOfMonth (.space _), Field.read_complete h.months (.space _),
    Field.read_complete h.daysOfWeek (.space _), hyears, readSeparator, bind, Except.bind, if_true]
  rfl

/-- Expressions are read from their own words and no others. -/
theorem read_eq_ok_iff {xs : List Lexeme} {e : Expression} :
    read xs = .ok e ↔ e.Canonical ∧ xs = e.lexemes := by
  constructor
  · intro h
    exact read_sound h
  · intro h
    obtain ⟨hcanonical, rfl⟩ := h
    exact read_complete hcanonical

end Expression

end Recurrence
