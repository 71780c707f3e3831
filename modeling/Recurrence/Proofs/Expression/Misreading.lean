import Recurrence.Proofs.Expression.Reading

/-!
Where reading fails. The words that were taken before can be gone on with, so that they are the
beginning of an expression, but not with the word at which reading failed, whatever comes after it.
No pattern is decided on by more than the word that comes after it.
-/
namespace Recurrence

def Reads {α : Type} (read : List Lexeme → Except Failure α) (xs : List Lexeme) : Prop :=
  ∃ a, read xs = .ok a

/-- The words `taken` are the beginning of a whole, but together with the first one that was left
unread they go on in no way. -/
structure Misread (whole goes : List Lexeme → Prop) (taken unread : List Lexeme) : Prop where
  viable : ∃ ys, (∀ y ∈ ys, y.Writable) ∧ whole (taken ++ ys)
  offending : ∀ y ∈ unread.head?, ∀ zs, ¬ goes (taken ++ y :: zs)

/-- All words of one pattern. -/
def Pattern.Whole (π : Type) {ι : Type} [Pattern π ι] [Grammar π ι] (xs : List Lexeme) : Prop :=
  ∃ p : π, Grammar.Canonical p ∧ Pattern.lexemes p = xs

/-- Patterns whose reader fails at the first word that no such pattern goes on with. -/
class Prompt (π : Type) (ι : outParam Type) [Pattern π ι] [Grammar π ι] [Readable π] : Prop where
  read_congr {xs ys : List Lexeme} {y : Lexeme} {p : π} : Readable.read xs = .ok (p, y :: ys) →
    ∀ zs, Readable.read (Pattern.lexemes p ++ y :: zs) = .ok (p, y :: zs)
  read_error {xs : List Lexeme} {f : Failure} : @Readable.read π _ xs = .error f →
    ∃ taken, xs = taken ++ f.unread ∧
      Misread (Pattern.Whole π) (Reads (@Readable.read π _)) taken f.unread

theorem readNumber_eq_error_iff {xs : List Lexeme} {f : Failure} :
    readNumber xs = .error f ↔ f = ⟨.number, xs⟩ ∧ ∀ n, xs.head? ≠ some (.number n) := by
  cases xs with
  | nil => simp [readNumber, eq_comm]
  | cons x xs => cases x <;> simp [readNumber, eq_comm]

namespace Numeric

/-- The words of a pattern before its last number. -/
inductive Unfinished : List Lexeme → Prop
  | every : Unfinished [.star, .slash]
  | stride (top) : Unfinished [.number top, .slash]
  | range (low) : Unfinished [.number low, .dash]

theorem Unfinished.exists_lexemes {taken : List Lexeme} (h : Unfinished taken) :
    ∃ p : Numeric, p.Canonical ∧ p.lexemes = taken ++ [.number 1] := by
  cases h with
  | every => exact ⟨.stride ⟨true, 0, 1⟩, fun _ => rfl, rfl⟩
  | stride top => exact ⟨.stride ⟨false, top, 1⟩, nofun, rfl⟩
  | range low => exact ⟨.range low 1, trivial, rfl⟩

theorem Unfinished.exists_number {taken rest : List Lexeme} (h : Unfinished taken)
    (hread : Reads Numeric.read (taken ++ rest)) : ∃ n, rest.head? = some (.number n) := by
  obtain ⟨found, hread⟩ := hread
  cases h with
  | every | stride top | range low =>
      obtain ⟨⟨n, more⟩, hn, -⟩ := bind_eq_ok.mp hread
      have hrest : rest = .number n :: more := readNumber_eq_ok_iff.mp hn
      exact ⟨n, by rw [hrest, List.head?_cons]⟩

theorem read_error_cases {xs : List Lexeme} {f : Failure} (h : Numeric.read xs = .error f) :
    (∃ taken, Unfinished taken ∧ xs = taken ++ f.unread ∧
      ∀ n, f.unread.head? ≠ some (.number n)) ∨
    (f.unread = xs ∧ xs.head? ≠ some .star ∧ ∀ n, xs.head? ≠ some (.number n)) := by
  unfold Numeric.read at h
  split at h
  case h_1 =>
    obtain ⟨rfl, hhead⟩ := readNumber_eq_error_iff.mp (bind_pure_eq_error.mp h)
    exact .inl ⟨_, .every, rfl, hhead⟩
  case h_3 top _ =>
    obtain ⟨rfl, hhead⟩ := readNumber_eq_error_iff.mp (bind_pure_eq_error.mp h)
    exact .inl ⟨_, .stride top, rfl, hhead⟩
  case h_4 low _ =>
    obtain ⟨rfl, hhead⟩ := readNumber_eq_error_iff.mp (bind_pure_eq_error.mp h)
    exact .inl ⟨_, .range low, rfl, hhead⟩
  case h_2 | h_5 => contradiction
  case h_6 _ hstar _ _ hnumber =>
    cases h
    simp only [ne_eq, List.head?_eq_some_iff, not_exists]
    exact .inr ⟨trivial, hstar, hnumber⟩

theorem read_congr {xs ys : List Lexeme} {y : Lexeme} {p : Numeric}
    (h : Numeric.read xs = .ok (p, y :: ys)) (zs : List Lexeme) :
    Numeric.read (p.lexemes ++ y :: zs) = .ok (p, y :: zs) := by
  obtain ⟨hcanonical, rfl⟩ := read_sound h
  cases p with
  | all =>
      cases y with
      | slash =>
          obtain ⟨_, _, h⟩ := bind_eq_ok.mp h
          cases h
      | _ => rfl
  | number n =>
      cases y with
      | slash | dash =>
          obtain ⟨_, _, h⟩ := bind_eq_ok.mp h
          cases h
      | _ => rfl
  | range low high => rfl
  | stride s =>
      obtain ⟨wildcard, top, step⟩ := s
      cases wildcard with
      | false => rfl
      | true =>
          cases hcanonical rfl
          rfl

/-- The same for a reader that leaves these words to this one. -/
theorem read_congr_as {π : Type} {read : List Lexeme → Except Failure (π × List Lexeme)}
    {wrap : Numeric → π} (hwrap : ∀ p q, wrap p = wrap q → p = q) {y : Lexeme} {p : Numeric}
    (hread : ∀ zs, read (p.lexemes ++ y :: zs) =
      (Numeric.read (p.lexemes ++ y :: zs)).map fun found => (wrap found.1, found.2))
    {ys : List Lexeme} (h : read (p.lexemes ++ y :: ys) = .ok (wrap p, y :: ys))
    (zs : List Lexeme) : read (p.lexemes ++ y :: zs) = .ok (wrap p, y :: zs) := by
  have hnumeric : Numeric.read (p.lexemes ++ y :: ys) = .ok (p, y :: ys) := by
    rw [hread] at h
    cases hfound : Numeric.read (p.lexemes ++ y :: ys) with
    | error f =>
        rw [hfound] at h
        contradiction
    | ok found =>
        rw [hfound] at h
        simp only [Except.map, Except.ok.injEq, Prod.mk.injEq] at h
        rw [← hwrap _ _ h.1, ← h.2]
  rw [hread, read_congr hnumeric]
  rfl

end Numeric

section Patterns

variable {π ι : Type} [Pattern π ι] [Grammar π ι] [Readable π]

/-- Where one more word would make a pattern. -/
theorem misread_before {taken unread : List Lexeme} {x : Lexeme} (hx : x.Writable) {p : π}
    (hp : Grammar.Canonical p) (hwords : Pattern.lexemes p = taken ++ [x])
    (h : ∀ y ys zs found, unread = y :: ys →
      @Readable.read π _ (taken ++ y :: zs) ≠ .ok found) :
    Misread (Pattern.Whole π) (Reads (@Readable.read π _)) taken unread where
  viable := ⟨[x], List.forall_mem_singleton.mpr hx, p, hp, hwords⟩
  offending := by
    intro y hy zs hreads
    obtain ⟨ys, hys⟩ := List.head?_eq_some_iff.mp hy
    obtain ⟨found, hfound⟩ := hreads
    exact h y ys zs found hys hfound

/-- Where a pattern needs one more number, or where there is none. The reader leaves to that of
numbers what it has taken before it needs one more. -/
theorem Numeric.misread_of_read_error (wrap : Numeric → π)
    (hcanonical : ∀ p : Numeric, p.Canonical → Grammar.Canonical (wrap p))
    (hlexemes : ∀ p : Numeric, Pattern.lexemes (wrap p) = p.lexemes)
    (hread : ∀ taken, Unfinished taken → ∀ rest, Readable.read (taken ++ rest) =
      (Numeric.read (taken ++ rest)).map fun found => (wrap found.1, found.2))
    {xs : List Lexeme} (hnone : xs.head? ≠ some .star → (∀ n, xs.head? ≠ some (.number n)) →
      ∀ y ys zs found, xs = y :: ys → @Readable.read π _ (y :: zs) ≠ .ok found)
    {f : Failure} (h : Numeric.read xs = .error f) : ∃ taken, xs = taken ++ f.unread ∧
      Misread (Pattern.Whole π) (Reads (@Readable.read π _)) taken f.unread := by
  obtain ⟨taken, htaken, hxs, hunread⟩ | ⟨hxs, hstar, hnumber⟩ := read_error_cases h
  · obtain ⟨p, hp, hwords⟩ := htaken.exists_lexemes
    refine ⟨taken, hxs, misread_before (Lexeme.writable_number (by decide)) (hcanonical p hp)
      ((hlexemes p).trans hwords) ?_⟩
    intro y ys zs found hys hfound
    rw [hread taken htaken] at hfound
    cases hnumeric : Numeric.read (taken ++ y :: zs) with
    | error f =>
        rw [hnumeric] at hfound
        contradiction
    | ok found =>
        obtain ⟨n, hn⟩ := htaken.exists_number ⟨found, hnumeric⟩
        cases hn
        exact hunread n (by rw [hys, List.head?_cons])
  · rw [hxs]
    exact ⟨[], rfl, misread_before Lexeme.writable_star (hcanonical .all trivial) (hlexemes .all)
      (hnone hstar hnumber)⟩

end Patterns

instance : Prompt Numeric Nat where
  read_congr := Numeric.read_congr
  read_error {xs f} h := by
    refine Numeric.misread_of_read_error id (fun _ hp => hp) (fun _ => rfl) ?_ ?_ h
    · intro taken _ rest
      change Numeric.read (taken ++ rest) = _
      cases Numeric.read (taken ++ rest) <;> rfl
    · intro hstar hnumber y ys zs found hys hfound
      subst hys
      cases y with
      | star => exact hstar rfl
      | number n => exact hnumber n rfl
      | _ => cases hfound

instance : Prompt DayOfMonth Date where
  read_congr {xs ys y p} h zs := by
    obtain ⟨-, rfl⟩ := Legible.read_sound h
    cases p with
    | numeric p =>
        refine Numeric.read_congr_as (fun _ _ => DayOfMonth.numeric.inj) ?_ h zs
        intro rest
        cases p with
        | all | range low high => rfl
        | number n =>
            cases y with
            | workday => cases h
            | _ => rfl
        | stride s => obtain ⟨_ | _, top, step⟩ := s <;> rfl
    | unspecified | last | workday day => rfl
  read_error {xs f} h := by
    change DayOfMonth.read xs = _ at h
    unfold DayOfMonth.read at h
    split at h
    case h_1 | h_2 | h_3 => contradiction
    case h_4 | h_5 =>
      refine Numeric.misread_of_read_error DayOfMonth.numeric (fun _ hp => hp) (fun _ => rfl) ?_
        (by simp) (bind_pure_eq_error.mp h)
      intro taken htaken rest
      cases htaken <;> rfl
    case h_6 _ hquestion hlast hnumber hstar =>
      cases h
      refine ⟨[], rfl, misread_before Lexeme.writable_star
        (p := DayOfMonth.numeric .all) trivial rfl ?_⟩
      intro y rest zs found hxs hfound
      cases hxs
      cases y with
      | question => exact hquestion rest rfl
      | last => exact hlast rest rfl
      | number n => exact hnumber n rest rfl
      | star => exact hstar rest rfl
      | _ => cases hfound

instance : Prompt MonthPattern Nat where
  read_congr {xs ys y p} h zs := by
    obtain ⟨-, rfl⟩ := Legible.read_sound h
    cases p with
    | numeric p =>
        refine Numeric.read_congr_as (fun _ _ => MonthPattern.numeric.inj) ?_ h zs
        intro rest
        cases p with
        | all | range low high | number n => rfl
        | stride s => obtain ⟨_ | _, top, step⟩ := s <;> rfl
    | named name =>
        cases y with
        | dash =>
            cases ys with
            | nil => cases h
            | cons x ys => cases x <;> cases h
        | _ => rfl
    | namedRange a b => rfl
  read_error {xs f} h := by
    change MonthPattern.read xs = _ at h
    unfold MonthPattern.read at h
    split at h
    case h_1 | h_3 => contradiction
    case h_2 name rest hmonth =>
      cases h
      refine ⟨[.month name, .dash], rfl, misread_before (Lexeme.writable_month name)
        (p := MonthPattern.namedRange name name) trivial rfl ?_⟩
      intro y more zs found hxs hfound
      cases hxs
      cases y with
      | month b => exact hmonth b more rfl
      | _ => cases hfound
    case h_4 | h_5 =>
      refine Numeric.misread_of_read_error MonthPattern.numeric (fun _ hp => hp) (fun _ => rfl) ?_
        (by simp) (bind_pure_eq_error.mp h)
      intro taken htaken rest
      cases htaken <;> rfl
    case h_6 _ _ hname hnumber hstar =>
      cases h
      refine ⟨[], rfl, misread_before Lexeme.writable_star
        (p := MonthPattern.numeric .all) trivial rfl ?_⟩
      intro y rest zs found hxs hfound
      cases hxs
      cases y with
      | month name => exact hname name rest rfl
      | number n => exact hnumber n rest rfl
      | star => exact hstar rest rfl
      | _ => cases hfound

instance : Prompt DayOfWeek Date where
  read_congr {xs ys y p} h zs := by
    obtain ⟨-, rfl⟩ := Legible.read_sound h
    cases p with
    | numeric p =>
        refine Numeric.read_congr_as (fun _ _ => DayOfWeek.numeric.inj) ?_ h zs
        intro rest
        cases p with
        | all | range low high => rfl
        | number n =>
            cases y with
            | hash =>
                obtain ⟨_, _, h⟩ := bind_eq_ok.mp h
                cases h
            | _ => rfl
        | stride s => obtain ⟨_ | _, top, step⟩ := s <;> rfl
    | named name =>
        cases y with
        | dash =>
            cases ys with
            | nil => cases h
            | cons x ys => cases x <;> cases h
        | _ => rfl
    | unspecified | last | namedRange a b | nth weekday n => rfl
  read_error {xs f} h := by
    change DayOfWeek.read xs = _ at h
    unfold DayOfWeek.read at h
    split at h
    case h_2 | h_4 | h_5 | h_6 => contradiction
    case h_1 weekday rest =>
      obtain ⟨rfl, hhead⟩ := readNumber_eq_error_iff.mp (bind_pure_eq_error.mp h)
      refine ⟨[.number weekday, .hash], rfl, misread_before
        (Lexeme.writable_number (n := 1) (by decide)) (p := DayOfWeek.nth weekday 1) trivial rfl ?_⟩
      intro y more zs found hxs hfound
      cases hxs
      obtain ⟨⟨n, _⟩, hn, -⟩ := bind_eq_ok.mp hfound
      cases readNumber_eq_ok_iff.mp hn
      exact hhead n rfl
    case h_3 name rest hweekday =>
      cases h
      refine ⟨[.weekday name, .dash], rfl, misread_before (Lexeme.writable_weekday name)
        (p := DayOfWeek.namedRange name name) trivial rfl ?_⟩
      intro y more zs found hxs hfound
      cases hxs
      cases y with
      | weekday b => exact hweekday b more rfl
      | _ => cases hfound
    case h_7 | h_8 =>
      refine Numeric.misread_of_read_error DayOfWeek.numeric (fun _ hp => hp) (fun _ => rfl) ?_
        (by simp) (bind_pure_eq_error.mp h)
      intro taken htaken rest
      cases htaken <;> rfl
    case h_9 _ _ _ hname hquestion hlast hnumber hstar =>
      cases h
      refine ⟨[], rfl, misread_before Lexeme.writable_star
        (p := DayOfWeek.numeric .all) trivial rfl ?_⟩
      intro y rest zs found hxs hfound
      cases hxs
      cases y with
      | weekday name => exact hname name rest rfl
      | question => exact hquestion rest rfl
      | last => exact hlast rest rfl
      | number n => exact hnumber n rest rfl
      | star => exact hstar rest rfl
      | _ => cases hfound

namespace Field

variable {π ι : Type} [Pattern π ι] [Grammar π ι] [Readable π] [Prompt π ι]

theorem read_congr {xs ys : List Lexeme} {y : Lexeme} {f : Field π}
    (h : Field.read xs = .ok (f, y :: ys)) (zs : List Lexeme) :
    Field.read (f.lexemes ++ y :: zs) = .ok (f, y :: zs) := by
  cases hread : @Readable.read π _ xs with
  | error failure => cases (read_of_error hread).symm.trans h
  | ok found =>
      obtain ⟨p, rest⟩ := found
      by_cases hcomma : rest.head? = some .comma
      · obtain ⟨more, rfl⟩ := List.head?_eq_some_iff.mp hcomma
        rw [read_of_comma hread] at h
        obtain ⟨⟨g, rest⟩, hg, h⟩ := bind_eq_ok.mp h
        cases h
        rw [lexemes_cons, List.append_assoc, List.cons_append,
          read_of_comma (Prompt.read_congr hread _), read_congr hg zs]
        rfl
      · rw [read_of_head hread hcomma] at h
        cases h
        rw [lexemes_singleton]
        exact read_of_head (Prompt.read_congr hread zs) hcomma
termination_by xs.length
decreasing_by
  have := Readable.length_of_read hread
  simp only [List.length_cons] at this
  omega

theorem read_error [Legible π ι] {xs : List Lexeme} {f : Failure}
    (h : @Field.read π _ xs = .error f) : ∃ taken, xs = taken ++ f.unread ∧
      Misread (fun ys => ∃ g : Field π, g.Canonical ∧ g.lexemes = ys)
        (Reads (@Field.read π _)) taken f.unread := by
  cases hread : @Readable.read π _ xs with
  | error failure =>
      cases (read_of_error hread).symm.trans h
      obtain ⟨taken, hxs, hmisread⟩ := Prompt.read_error hread
      refine ⟨taken, hxs, ?_, ?_⟩
      · obtain ⟨ys, hys, p, hp, hlexemes⟩ := hmisread.viable
        refine ⟨ys, hys, ⟨[p], List.cons_ne_nil _ _⟩, List.forall_mem_singleton.mpr hp, ?_⟩
        rw [lexemes_singleton, hlexemes]
      · intro y hy zs hgoes
        obtain ⟨found, hfound⟩ := hgoes
        cases hpattern : @Readable.read π _ (taken ++ y :: zs) with
        | error failure => cases (read_of_error hpattern).symm.trans hfound
        | ok found => exact hmisread.offending y hy zs ⟨found, hpattern⟩
  | ok found =>
      obtain ⟨p, rest⟩ := found
      by_cases hcomma : rest.head? = some .comma
      · obtain ⟨more, rfl⟩ := List.head?_eq_some_iff.mp hcomma
        rw [read_of_comma hread, bind_pure_eq_error] at h
        obtain ⟨taken, rfl, hmisread⟩ := read_error h
        obtain ⟨hp, hxs⟩ := Legible.read_sound hread
        refine ⟨Pattern.lexemes p ++ .comma :: taken, ?_, ?_, ?_⟩
        · rw [hxs, List.append_assoc, List.cons_append]
        · obtain ⟨ys, hys, g, hg, hlexemes⟩ := hmisread.viable
          refine ⟨ys, hys, ⟨p :: g.patterns, List.cons_ne_nil _ _⟩,
            List.forall_mem_cons.mpr ⟨hp, hg⟩, ?_⟩
          rw [lexemes_cons, hlexemes, List.append_assoc, List.cons_append]
        · intro y hy zs hgoes
          obtain ⟨found, hfound⟩ := hgoes
          rw [List.append_assoc, List.cons_append,
            read_of_comma (Prompt.read_congr hread (taken ++ y :: zs))] at hfound
          obtain ⟨found, hrest, -⟩ := bind_eq_ok.mp hfound
          exact hmisread.offending y hy zs ⟨found, hrest⟩
      · cases (read_of_head hread hcomma).symm.trans h
termination_by xs.length
decreasing_by
  have := Readable.length_of_read hread
  simp only [List.length_cons] at this
  omega

end Field

/-- Readers of all words that fail at the first word with which there is no going on. -/
def FailsFirst {α : Type} (read : List Lexeme → Except Failure α) : Prop :=
  ∀ xs f, read xs = .error f →
    ∃ taken, xs = taken ++ f.unread ∧ Misread (Reads read) (Reads read) taken f.unread

theorem readSeparator_of_head {xs : List Lexeme} (h : xs.head? ≠ some .space) :
    ∃ expected, readSeparator xs = .error ⟨expected, xs⟩ := by
  cases xs with
  | nil => exact ⟨_, rfl⟩
  | cons x xs =>
      cases x with
      | space => contradiction
      | _ => exact ⟨_, rfl⟩

theorem Reads.endsField {α : Type} {read : List Lexeme → Except Failure α} {xs : List Lexeme}
    (h : Reads (fun xs => readSeparator xs >>= read) xs) : EndsField xs := by
  obtain ⟨a, ha⟩ := h
  obtain ⟨rest, hrest, -⟩ := bind_eq_ok.mp ha
  cases readSeparator_eq_ok_iff.mp hrest
  exact .space rest

namespace FailsFirst

variable {α : Type}

/-- There is something that such a reader reads. -/
theorem exists_reads {read : List Lexeme → Except Failure α} (h : FailsFirst read) :
    ∃ ys, (∀ y ∈ ys, y.Writable) ∧ Reads read ys := by
  cases hnil : read [] with
  | ok a => exact ⟨[], nofun, a, hnil⟩
  | error f =>
      obtain ⟨taken, htaken, hmisread⟩ := h [] f hnil
      cases (List.append_eq_nil_iff.mp htaken.symm).1
      exact hmisread.viable

theorem separator {read : List Lexeme → Except Failure α} (h : FailsFirst read) :
    FailsFirst (fun xs => readSeparator xs >>= read) := by
  intro xs f hfailure
  by_cases hspace : xs.head? = some .space
  · obtain ⟨rest, rfl⟩ := List.head?_eq_some_iff.mp hspace
    obtain ⟨taken, rfl, hmisread⟩ := h rest f hfailure
    exact ⟨.space :: taken, rfl, hmisread.viable, hmisread.offending⟩
  · obtain ⟨expected, hseparator⟩ := readSeparator_of_head hspace
    simp only [hseparator] at hfailure
    cases hfailure
    obtain ⟨ys, hys, a, ha⟩ := h.exists_reads
    refine ⟨[], rfl, ⟨.space :: ys, ?_, a, ha⟩, ?_⟩
    · exact List.forall_mem_cons.mpr ⟨Lexeme.writable_space, hys⟩
    · intro y hy zs hgoes
      obtain ⟨b, hb⟩ := hgoes
      obtain ⟨rest, hrest, -⟩ := bind_eq_ok.mp hb
      cases readSeparator_eq_ok_iff.mp hrest
      exact hspace hy

/-- What comes after the field decides only where the field ends. -/
theorem field {π ι : Type} [Pattern π ι] [Grammar π ι] [Readable π] [Legible π ι] [Prompt π ι]
    {read : Field π × List Lexeme → Except Failure α}
    (h : ∀ g, FailsFirst fun xs => read (g, xs))
    (hends : ∀ g xs, Reads (fun xs => read (g, xs)) xs → EndsField xs) :
    FailsFirst (fun xs => Field.read xs >>= read) := by
  intro xs f hfailure
  cases hfield : @Field.read π _ xs with
  | error failure =>
      simp only [hfield] at hfailure
      cases hfailure
      obtain ⟨taken, hxs, hmisread⟩ := Field.read_error hfield
      refine ⟨taken, hxs, ?_, ?_⟩
      · obtain ⟨ys, hys, g, hg, hlexemes⟩ := hmisread.viable
        obtain ⟨more, hmore, a, ha⟩ := (h g).exists_reads
        refine ⟨ys ++ more, List.forall_mem_append.mpr ⟨hys, hmore⟩, a, ?_⟩
        rw [← List.append_assoc, ← hlexemes]
        exact bind_eq_ok.mpr ⟨_, Field.read_complete hg (hends g more ⟨a, ha⟩), ha⟩
      · intro y hy zs hgoes
        obtain ⟨a, ha⟩ := hgoes
        obtain ⟨found, hfound, -⟩ := bind_eq_ok.mp ha
        exact hmisread.offending y hy zs ⟨found, hfound⟩
  | ok found =>
      obtain ⟨g, rest⟩ := found
      simp only [hfield] at hfailure
      obtain ⟨taken, rfl, hmisread⟩ := h g rest f hfailure
      obtain ⟨hg, hxs⟩ := Field.read_sound hfield
      refine ⟨g.lexemes ++ taken, by rw [hxs, List.append_assoc], ?_, ?_⟩
      · obtain ⟨ys, hys, a, ha⟩ := hmisread.viable
        refine ⟨ys, hys, a, ?_⟩
        rw [List.append_assoc]
        exact bind_eq_ok.mpr ⟨_, Field.read_complete hg (hends g _ ⟨a, ha⟩), ha⟩
      · intro y hy zs hgoes
        obtain ⟨a, ha⟩ := hgoes
        have hsame : Field.read (g.lexemes ++ (taken ++ y :: zs)) = .ok (g, taken ++ y :: zs) := by
          cases taken with
          | nil =>
              obtain ⟨ys, hys⟩ := List.head?_eq_some_iff.mp hy
              rw [hys] at hfield
              exact Field.read_congr hfield zs
          | cons x taken => exact Field.read_congr hfield _
        obtain ⟨found, hfound, hrest⟩ := bind_eq_ok.mp ha
        rw [List.append_assoc, hsame] at hfound
        cases hfound
        exact hmisread.offending y hy zs ⟨a, hrest⟩

end FailsFirst

namespace Expression

theorem failsFirst_end (e : Expression) : FailsFirst fun xs =>
    if xs = [] then pure e else throw ⟨.endOfExpression, xs⟩ := by
  intro xs f h
  cases xs with
  | nil => contradiction
  | cons x xs =>
      cases h
      refine ⟨[], rfl, ⟨[], nofun, e, rfl⟩, ?_⟩
      intro y _ zs hgoes
      obtain ⟨e', he'⟩ := hgoes
      contradiction

theorem endsField_end {e : Expression} {xs : List Lexeme} (h : Reads (fun xs =>
    if xs = [] then pure e else throw (⟨.endOfExpression, xs⟩ : Failure)) xs) : EndsField xs := by
  obtain ⟨a, ha⟩ := h
  cases xs with
  | nil => exact .nil
  | cons x xs => contradiction

theorem failsFirst_read : FailsFirst read := by
  refine .field (fun minutes => .separator ?_) (fun _ _ => Reads.endsField)
  refine .field (fun hours => .separator ?_) (fun _ _ => Reads.endsField)
  refine .field (fun daysOfMonth => .separator ?_) (fun _ _ => Reads.endsField)
  refine .field (fun months => .separator ?_) (fun _ _ => Reads.endsField)
  refine .field (fun daysOfWeek => .separator ?_) (fun _ _ => Reads.endsField)
  exact .field (fun years => failsFirst_end _) (fun _ _ => endsField_end)

end Expression

end Recurrence
