import Recurrence.Proofs.Expression.ErrorPosition
import Recurrence.Proofs.Schedule.Alike
import Recurrence.Proofs.Text.Recasing

/-!
The case of names. Patterns are tested by the numbers of their names, so that an expression with
other letters for the same names has the same schedule.
-/
namespace Recurrence

/-- Patterns that are tested with the same results. -/
structure Agrees {π ι : Type} [Pattern π ι] [Stepped π ι] (p q : π) : Prop where
  accepts : ∀ x, Pattern.accepts p x = Pattern.accepts q x
  unspecified : Pattern.unspecified p = Pattern.unspecified q
  stride : Stepped.stride? p = Stepped.stride? q

/-- Patterns that can be written with other letters for their names and are tested as before. -/
class Recasable (π : Type) (ι : outParam Type) [Pattern π ι] [Grammar π ι] [Stepped π ι] :
    Prop where
  exists_recased {p : π} {xs : List Lexeme} (hcanonical : Grammar.Canonical p)
    (h : xs.map Lexeme.capital = (Pattern.lexemes p).map Lexeme.capital) :
    ∃ q : π, Grammar.Canonical q ∧ Pattern.lexemes q = xs ∧ Agrees q p

theorem exists_recased_of_nameless {π ι : Type} [Pattern π ι] [Grammar π ι] [Stepped π ι] {p : π}
    {xs : List Lexeme} (hcanonical : Grammar.Canonical p)
    (hp : ∀ x ∈ Pattern.lexemes p, x.isName = false)
    (h : xs.map Lexeme.capital = (Pattern.lexemes p).map Lexeme.capital) :
    ∃ q : π, Grammar.Canonical q ∧ Pattern.lexemes q = xs ∧ Agrees q p :=
  ⟨p, hcanonical, (Lexeme.eq_of_map_capital_eq h hp).symm, fun _ => rfl, rfl, rfl⟩

theorem Numeric.nameless (p : Numeric) : ∀ x ∈ p.lexemes, x.isName = false := by
  cases p with
  | all | number _ | range _ _ => simp [lexemes, Lexeme.isName]
  | stride s =>
      obtain ⟨wildcard, top, step⟩ := s
      cases wildcard <;> simp [lexemes, Stride.lexemes, Lexeme.isName]

instance : Recasable Numeric Nat where
  exists_recased {p _} hcanonical h := exists_recased_of_nameless hcanonical p.nameless h

instance : Recasable DayOfMonth Date where
  exists_recased {p _} hcanonical h := by
    apply exists_recased_of_nameless hcanonical _ h
    cases p with
    | numeric p => exact p.nameless
    | unspecified | last | workday _ => simp [Pattern.lexemes, DayOfMonth.lexemes, Lexeme.isName]

instance : Recasable MonthPattern Nat where
  exists_recased {p xs} hcanonical h := by
    cases p with
    | numeric p => exact exists_recased_of_nameless hcanonical p.nameless h
    | named name =>
        obtain ⟨x, rfl, hx⟩ := List.map_eq_singleton_iff.mp h
        obtain ⟨name', rfl, hnumber⟩ := Lexeme.exists_month hx
        refine ⟨.named name', trivial, rfl, ?_, rfl, rfl⟩
        intro month
        simp only [Pattern.accepts, MonthPattern.accepts, hnumber]
    | namedRange a b =>
        obtain ⟨x, y, rfl, hx, hy⟩ := Lexeme.exists_range h
        obtain ⟨a', rfl, ha⟩ := Lexeme.exists_month hx
        obtain ⟨b', rfl, hb⟩ := Lexeme.exists_month hy
        refine ⟨.namedRange a' b', trivial, rfl, ?_, rfl, rfl⟩
        intro month
        simp only [Pattern.accepts, MonthPattern.accepts, ha, hb]

instance : Recasable DayOfWeek Date where
  exists_recased {p xs} hcanonical h := by
    cases p with
    | numeric p => exact exists_recased_of_nameless hcanonical p.nameless h
    | unspecified | last | nth _ _ =>
        apply exists_recased_of_nameless hcanonical _ h
        simp [Pattern.lexemes, DayOfWeek.lexemes, Lexeme.isName]
    | named name =>
        obtain ⟨x, rfl, hx⟩ := List.map_eq_singleton_iff.mp h
        obtain ⟨name', rfl, hnumber⟩ := Lexeme.exists_weekday hx
        refine ⟨.named name', trivial, rfl, ?_, rfl, rfl⟩
        intro date
        simp only [Pattern.accepts, DayOfWeek.accepts, hnumber]
    | namedRange a b =>
        obtain ⟨x, y, rfl, hx, hy⟩ := Lexeme.exists_range h
        obtain ⟨a', rfl, ha⟩ := Lexeme.exists_weekday hx
        obtain ⟨b', rfl, hb⟩ := Lexeme.exists_weekday hy
        refine ⟨.namedRange a' b', trivial, rfl, ?_, rfl, rfl⟩
        intro date
        simp only [Pattern.accepts, DayOfWeek.accepts, ha, hb]

namespace Field

variable {π ι : Type} [Pattern π ι] [Stepped π ι]

/-- Fields that are tested with the same results. -/
structure Agrees (f g : Field π) : Prop where
  strides : f.strides = g.strides
  unspecified : f.unspecified = g.unspecified
  admits : ∀ x, f.admits x = g.admits x

theorem agrees_of_patterns {f g : Field π}
    (h : List.Forall₂ Recurrence.Agrees f.patterns g.patterns) : f.Agrees g := by
  have hpatterns {ps qs : List π} (h : List.Forall₂ Recurrence.Agrees ps qs) :
      ps.filterMap Stepped.stride? = qs.filterMap Stepped.stride? ∧
        ps.any Pattern.unspecified = qs.any Pattern.unspecified ∧
        ∀ x, (ps.any fun p => decide (Pattern.accepts p x = .ok true)) =
          qs.any fun q => decide (Pattern.accepts q x = .ok true) := by
    induction h with
    | nil => exact ⟨rfl, rfl, fun _ => rfl⟩
    | cons hpq _ ih =>
        obtain ⟨hstrides, hunspecified, hadmits⟩ := ih
        refine ⟨?_, ?_, ?_⟩
        · rw [List.filterMap_cons, List.filterMap_cons, hpq.stride, hstrides]
        · rw [List.any_cons, List.any_cons, hpq.unspecified, hunspecified]
        · intro x
          rw [List.any_cons, List.any_cons, hpq.accepts, hadmits]
  obtain ⟨hstrides, hunspecified, hadmits⟩ := hpatterns h
  exact ⟨hstrides, hunspecified, hadmits⟩

variable [Grammar π ι] [Recasable π ι]

theorem exists_patterns {ps : List π} {xss : List (List Lexeme)}
    (h : List.Forall₂ (fun xs p => xs.map Lexeme.capital = (Pattern.lexemes p).map Lexeme.capital)
      xss ps) (hps : ∀ p ∈ ps, Grammar.Canonical p) :
    ∃ qs : List π, (∀ q ∈ qs, Grammar.Canonical q) ∧ qs.map Pattern.lexemes = xss ∧
      List.Forall₂ Recurrence.Agrees qs ps := by
  induction h with
  | nil => exact ⟨[], nofun, rfl, .nil⟩
  | cons hp _ ih =>
      obtain ⟨hcanonical, hps⟩ := List.forall_mem_cons.mp hps
      obtain ⟨q, hq, rfl, hagrees⟩ := Recasable.exists_recased hcanonical hp
      obtain ⟨qs, hqs, rfl, hrest⟩ := ih hps
      exact ⟨q :: qs, List.forall_mem_cons.mpr ⟨hq, hqs⟩, rfl, .cons hagrees hrest⟩

theorem exists_recased {f : Field π} {xs : List Lexeme} (hcanonical : f.Canonical)
    (h : xs.map Lexeme.capital = f.lexemes.map Lexeme.capital) :
    ∃ g : Field π, g.Canonical ∧ g.lexemes = xs ∧ g.Agrees f := by
  obtain ⟨xss, rfl, hxss⟩ := Lexeme.exists_intercalate rfl h
  rw [List.forall₂_map_right_iff] at hxss
  obtain ⟨qs, hqs, rfl, hagrees⟩ := exists_patterns hxss hcanonical
  refine ⟨⟨qs, ?_⟩, hqs, rfl, agrees_of_patterns hagrees⟩
  intro hnil
  rw [hnil, List.forall₂_nil_left_iff] at hagrees
  exact f.patterns_ne_nil hagrees

end Field

namespace Expression

variable {e : Expression}

theorem exists_recased {xs : List Lexeme} (hcanonical : e.Canonical)
    (h : xs.map Lexeme.capital = e.lexemes.map Lexeme.capital) :
    ∃ e' : Expression, e'.Canonical ∧ e'.lexemes = xs ∧ Alike e' e := by
  obtain ⟨xss, rfl, hxss⟩ := Lexeme.exists_intercalate rfl h
  obtain _ | ⟨hminutes, _ | ⟨hhours, _ | ⟨hdaysOfMonth, _ | ⟨hmonths, _ | ⟨hdaysOfWeek,
    _ | ⟨hyears, _ | _⟩⟩⟩⟩⟩⟩ := hxss
  obtain ⟨minutes, hminutes', rfl, hminutesAgree⟩ :=
    Field.exists_recased hcanonical.minutes hminutes
  obtain ⟨hours, hhours', rfl, hhoursAgree⟩ := Field.exists_recased hcanonical.hours hhours
  obtain ⟨daysOfMonth, hdaysOfMonth', rfl, hdaysOfMonthAgree⟩ :=
    Field.exists_recased hcanonical.daysOfMonth hdaysOfMonth
  obtain ⟨months, hmonths', rfl, hmonthsAgree⟩ := Field.exists_recased hcanonical.months hmonths
  obtain ⟨daysOfWeek, hdaysOfWeek', rfl, hdaysOfWeekAgree⟩ :=
    Field.exists_recased hcanonical.daysOfWeek hdaysOfWeek
  obtain ⟨years, hyears', rfl, hyearsAgree⟩ := Field.exists_recased hcanonical.years hyears
  refine ⟨⟨minutes, hours, daysOfMonth, months, daysOfWeek, years⟩,
    ⟨hminutes', hhours', hdaysOfMonth', hmonths', hdaysOfWeek', hyears'⟩, rfl, ?_, ?_, ?_⟩
  · simp only [fault?, strides, hminutesAgree.strides, hhoursAgree.strides,
      hdaysOfMonthAgree.strides, hmonthsAgree.strides, hdaysOfWeekAgree.strides,
      hyearsAgree.strides]
  · intro w
    simp only [admits, hminutesAgree.admits, hhoursAgree.admits, hdaysOfMonthAgree.admits,
      hmonthsAgree.admits, hdaysOfWeekAgree.admits, hyearsAgree.admits]
  · rw [hdaysOfMonthAgree.unspecified, hdaysOfWeekAgree.unspecified]

theorem text_toUpper_eq {e' : Expression}
    (h : e'.lexemes.map Lexeme.capital = e.lexemes.map Lexeme.capital) :
    (toString e').toUpper = (toString e).toUpper := by
  have htext (e : Expression) : (toString e).toUpper.toList = e.text.map Char.toUpper := by
    rw [String.toUpper, String.toList_map]
    exact congrArg _ String.toList_ofList
  rw [← String.toList_inj, htext, htext, text, text, Lexeme.map_toUpper_join h]

theorem lexemes_of_ofText {cs : List Char} {tokens : List Token} (h : ofText cs = .ok e)
    (htokens : Token.ofText cs = .ok tokens) : tokens.map (·.lexeme) = e.lexemes :=
  (read_eq_ok_iff.mp (read_of_ofText htokens h)).2

/-- With names in the other case, a text is an expression with the same schedule. -/
theorem ofText_of_names {cs cs' : List Char} {tokens : List Token} (h : ofText cs = .ok e)
    (htokens : Token.ofText cs = .ok tokens)
    (hrecased : Recased Lexeme.isName 0 tokens cs cs') :
    ∃ e', ofText cs' = .ok e' ∧ Alike e' e ∧ (toString e').toUpper = (toString e).toUpper := by
  have hlexemes := lexemes_of_ofText h htokens
  obtain ⟨front, body, back, rfl, hfront, hback, hcut⟩ := Cut.of_ofText htokens
  obtain ⟨body', rfl, hbody⟩ := hrecased.exists_body hcut
  obtain ⟨xs, hspelled, hxs⟩ := hcut.exists_spelled hbody
  rw [hlexemes] at hxs
  obtain ⟨e', hcanonical, rfl, halike⟩ := exists_recased (ofText_eq_ok_iff.mp h).1 hxs
  refine ⟨e', ?_, halike, text_toUpper_eq hxs⟩
  exact ofText_eq_ok_iff.mpr ⟨hcanonical, front, body', back, rfl, hfront, hback, hspelled⟩

/-- With signs in small letters, a text is wrong at the first of them. -/
theorem ofText_of_letters {cs cs' : List Char} {tokens : List Token} (h : ofText cs = .ok e)
    (htokens : Token.ofText cs = .ok tokens)
    (hrecased : Recased Lexeme.isLetter 0 tokens cs cs') (hne : cs' ≠ cs) :
    ∃ before c after after', cs = before ++ c :: after ∧ cs' = before ++ c.toLower :: after' ∧
      (c = 'L' ∨ c = 'W') ∧ ofText cs' = .error ⟨String.utf8Len before, .lexeme⟩ := by
  have hlexemes := lexemes_of_ofText h htokens
  have hascii := Token.ascii_of_ofText htokens
  obtain ⟨hnonempty, hfirst, hlast, -⟩ := e.lexemes_apart
  obtain ⟨front, body, back, rfl, hfront, hback, hcut⟩ := Cut.of_ofText htokens
  obtain ⟨body', rfl, hbody⟩ := hrecased.exists_body hcut
  have hspelled := hcut.spelled
  rw [hlexemes] at hspelled
  have hfirst' : ∀ d ∈ body'.head?, isBlank d = false :=
    Lexeme.Stops.of_toUpper_eq (x := .space) (hspelled.isBlank_head hfirst) hbody.upper
  have hlast' := hbody.isBlank_getLast (hspelled.isBlank_getLast hlast)
  obtain ⟨before, c, after, after', rfl, hbody', hc, hscan⟩ :=
    hcut.scan_of_letter hbody fun heq => hne (by rw [heq])
  have hne' : body' ≠ [] := by
    rw [hbody']
    exact List.append_ne_nil_of_right_ne_nil _ (List.cons_ne_nil _ _)
  refine ⟨front ++ before, c, after ++ back, after' ++ back, by simp, by simp [hbody'], hc, ?_⟩
  simp only [List.forall_mem_append] at hascii
  have hposition : String.utf8Len (front ++ before) = front.length + before.length := by
    rw [utf8Len_of_ascii (List.forall_mem_append.mpr ⟨hascii.1.1, hascii.1.2.1⟩),
      List.length_append]
  rw [ofText, Token.ofText_append hfront hback hne' hfirst' hlast', hscan, hposition]
  rfl

/-- The case of the letters of names does not matter, and signs that are letters are capital
letters. -/
theorem parse_recased {s : String} (h : parse s = .ok e) :
    ∃ tokens, Token.ofText s.toList = .ok tokens ∧
      (∀ s' : String, Recased Lexeme.isName 0 tokens s.toList s'.toList →
        ∃ e', parse s' = .ok e' ∧
          (∀ z i n, e'.holdsAt z i = e.holdsAt z i ∧ e'.nextN z i n = e.nextN z i n) ∧
          (toString e').toUpper = (toString e).toUpper) ∧
      ∀ s' : String, Recased Lexeme.isLetter 0 tokens s.toList s'.toList → s' ≠ s →
        ∃ before c after after', s.toList = before ++ c :: after ∧
          s'.toList = before ++ c.toLower :: after' ∧ (c = 'L' ∨ c = 'W') ∧
          parse s' = .error ⟨String.utf8Len before, .lexeme⟩ := by
  obtain ⟨tokens, htokens, -⟩ := bind_eq_ok.mp h
  refine ⟨tokens, htokens, ?_, ?_⟩
  · intro s' hrecased
    obtain ⟨e', he', halike, htext⟩ := ofText_of_names h htokens hrecased
    exact ⟨e', he', fun z i n => ⟨halike.holdsAt_eq z i, halike.nextN_eq z i n⟩, htext⟩
  · intro s' hrecased hne
    exact ofText_of_letters h htokens hrecased (mt String.toList_inj.mp hne)

/-- Another case for some names. -/
def untidyNames : String :=
  " 007,*/00\t1-023  015W,L JAN-mAR,12 ?,6#03,sun-sat,TuE\n2020/02 "

/-- Small letters for signs. -/
def untidySigns : String :=
  " 007,*/00\t1-023  015w,l jan-MAR,12 ?,6#03,sun-SAT,Tue\n2020/02 "

theorem parse_recased_untidy : ∃ e e', parse untidy = .ok e ∧ parse untidyNames = .ok e' ∧
    (∀ z i n, e'.nextN z i n = e.nextN z i n) ∧
    ∃ position, parse untidySigns = .error ⟨position, .lexeme⟩ := by
  obtain ⟨e, h, -⟩ := parse_untidy
  obtain ⟨tokens, htokens, hnames, hsigns⟩ := parse_recased h
  have hrecased : (Token.ofText untidy.toList).map (fun tokens =>
      decide (Recased Lexeme.isName 0 tokens untidy.toList untidyNames.toList ∧
        Recased Lexeme.isLetter 0 tokens untidy.toList untidySigns.toList)) = .ok true := by
    decide +kernel
  rw [htokens] at hrecased
  obtain ⟨hrecasedNames, hrecasedSigns⟩ := of_decide_eq_true (Except.ok.inj hrecased)
  obtain ⟨e', h', hschedule, -⟩ := hnames _ hrecasedNames
  obtain ⟨before, _, _, _, -, -, -, herror⟩ := hsigns _ hrecasedSigns (by decide +kernel)
  exact ⟨e, e', h, h', fun z i n => (hschedule z i n).2, _, herror⟩

end Expression

end Recurrence
