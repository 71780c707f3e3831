import Recurrence.Proofs.Expression.Reading
import Recurrence.Proofs.Text.NormalForm

/-!
Parsing against the grammar, and printing as its inverse. A text is parsed by cutting it into words
and reading these; the grammar derives it from characters. As the words of an expression never merge
in any of their spellings, both give the same expression, and no text has two. The text that is
printed of an expression is one of the spellings that it is parsed from, and of all these texts it
is the normal form.
-/
namespace Recurrence

namespace Expression

/-- The words of an expression begin and end with those of a field and stay apart. -/
theorem lexemes_apart (e : Expression) : e.lexemes ≠ [] ∧ e.lexemes.head? ≠ some .space ∧
    e.lexemes.getLast? ≠ some .space ∧ e.lexemes.IsChain Lexeme.Apart := by
  have hfields : ∀ xs ∈ [e.minutes.lexemes, e.hours.lexemes, e.daysOfMonth.lexemes,
      e.months.lexemes, e.daysOfWeek.lexemes, e.years.lexemes], Solid xs := by
    simp only [List.forall_mem_cons, Field.solid, true_and]
    exact nofun
  have hhead : e.lexemes.head? = e.minutes.lexemes.head? :=
    head?_intercalate e.minutes.solid.ne_nil _
  have hlast : e.lexemes.getLast? = e.years.lexemes.getLast? :=
    getLast?_intercalate [e.minutes.lexemes, e.hours.lexemes, e.daysOfMonth.lexemes,
      e.months.lexemes, e.daysOfWeek.lexemes] e.years.solid.ne_nil
  refine ⟨?_, hhead ▸ e.minutes.solid.head?_ne, hlast ▸ e.years.solid.getLast?_ne, ?_⟩
  · intro hnil
    rw [hnil] at hhead
    exact e.minutes.solid.ne_nil (List.head?_eq_none_iff.mp hhead.symm)
  · apply isChain_intercalate hfields
    intro x hx
    cases x
    case space => contradiction
    all_goals exact ⟨trivial, trivial⟩

theorem ofText_eq_ok_iff {cs : List Char} {e : Expression} :
    ofText cs = .ok e ↔ e.Canonical ∧ Surrounded (Spelled e.lexemes) cs := by
  obtain ⟨hne, hfirst, hlast, hapart⟩ := e.lexemes_apart
  have hlexemes := ofText_lexemes_iff hne hfirst hlast cs
  constructor
  · intro h
    obtain ⟨tokens, htokens, h⟩ := bind_eq_ok.mp h
    cases hread : read (tokens.map (·.lexeme)) with
    | error failure =>
        rw [hread] at h
        simp only at h
        split at h <;> contradiction
    | ok e' =>
        rw [hread] at h
        cases h
        obtain ⟨hcanonical, hwords⟩ := read_eq_ok_iff.mp hread
        exact ⟨hcanonical, (hlexemes.mp ⟨tokens, htokens, hwords⟩).2⟩
  · intro h
    obtain ⟨tokens, htokens, hwords⟩ := hlexemes.mpr ⟨hapart, h.2⟩
    have hread : read (tokens.map (·.lexeme)) = .ok e := read_eq_ok_iff.mpr ⟨h.1, hwords⟩
    rw [ofText, htokens]
    simp only [bind, Except.bind, hread]
    rfl

/-- A text is parsed as the one expression that the grammar derives from it. -/
theorem parse_eq_ok_iff_derives (s : String) : (∀ e, parse s = .ok e ↔ e.Derives s.toList) ∧
    ∀ e e' : Expression, e.Derives s.toList → e'.Derives s.toList → e = e' := by
  have hparse : ∀ e, parse s = .ok e ↔ e.Derives s.toList := by
    intro e
    rw [parse, ofText_eq_ok_iff, derives_iff]
  refine ⟨hparse, ?_⟩
  intro e e' he he'
  exact Except.ok.inj (((hparse e).mpr he).symm.trans ((hparse e').mpr he'))

variable {cs : List Char} {e : Expression}

theorem ofText_text (h : ofText cs = .ok e) : ofText e.text = .ok e := by
  obtain ⟨hcanonical, front, body, back, -, -, -, hspelled⟩ := ofText_eq_ok_iff.mp h
  apply ofText_eq_ok_iff.mpr
  refine ⟨hcanonical, [], e.text, [], ?_, nofun, nofun, hspelled.spelled_join⟩
  rw [List.nil_append, List.append_nil]

theorem text_eq_normalForm (h : ofText cs = .ok e) : e.text = normalForm cs := by
  obtain ⟨hne, hfirst, hlast, hapart⟩ := e.lexemes_apart
  exact ((ofText_eq_ok_iff.mp h).2.normalForm_eq hne hfirst hlast hapart).symm

theorem eq_iff_normalForm_eq {cs' : List Char} {e' : Expression} (h : ofText cs = .ok e)
    (h' : ofText cs' = .ok e') : e = e' ↔ normalForm cs = normalForm cs' := by
  rw [← text_eq_normalForm h, ← text_eq_normalForm h']
  constructor
  · intro heq
    rw [heq]
  · intro htext
    have hsame := ofText_text h
    rw [htext, ofText_text h'] at hsame
    exact (Except.ok.inj hsame).symm

/-- What is printed of a parsed expression is parsed as the same expression. -/
theorem parse_toString {s : String} {e : Expression} (h : parse s = .ok e) :
    parse (toString e) = .ok e := by
  have htext : (toString e).toList = e.text := String.toList_ofList
  rw [parse, htext]
  exact ofText_text h

/-- A text with patterns of every kind, and not in normal form. -/
def untidy : String := " 007,*/00\t1-023  015W,L jan-MAR,12 ?,6#03,sun-SAT,Tue\n2020/02 "

def tidy : String := "7,*/0 1-23 15W,L jan-MAR,12 ?,6#3,sun-SAT,Tue 2020/2"

theorem exists_of_map_toString {s t : String} (h : (parse s).map toString = .ok t) :
    ∃ e, parse s = .ok e ∧ toString e = t := by
  cases hs : parse s with
  | error _ =>
      rw [hs] at h
      contradiction
  | ok e =>
      rw [hs] at h
      exact ⟨e, rfl, Except.ok.inj h⟩

theorem parse_untidy : ∃ e, parse untidy = .ok e ∧ toString e = tidy :=
  exists_of_map_toString (by decide +kernel)

theorem parse_toString_untidy :
    ∃ e, parse untidy = .ok e ∧ toString e = tidy ∧ parse (toString e) = .ok e := by
  obtain ⟨e, h, hprinted⟩ := parse_untidy
  exact ⟨e, h, hprinted, parse_toString h⟩

/-- An expression is printed as the normal form of any text that it is parsed from, so that two
texts are parsed as one expression if and only if they have one normal form. -/
theorem toString_eq_normalForm {s : String} {e : Expression} (h : parse s = .ok e) :
    toString e = String.ofList (normalForm s.toList) ∧
      ∀ {s' : String} {e' : Expression}, parse s' = .ok e' →
        (e = e' ↔ normalForm s.toList = normalForm s'.toList) :=
  ⟨congrArg String.ofList (text_eq_normalForm h), eq_iff_normalForm_eq h⟩

theorem toString_eq_normalForm_untidy : ∃ e e', parse untidy = .ok e ∧ parse tidy = .ok e' ∧
    toString e = String.ofList (normalForm untidy.toList) ∧ e = e' := by
  obtain ⟨e, h, -⟩ := parse_untidy
  obtain ⟨e', h', -⟩ := exists_of_map_toString (s := tidy) (t := tidy) (by decide +kernel)
  have hnormal : normalForm untidy.toList = normalForm tidy.toList := by decide +kernel
  exact ⟨e, e', h, h', (toString_eq_normalForm h).1, ((toString_eq_normalForm h).2 h').mpr hnormal⟩

end Expression

end Recurrence
