import Recurrence.Expression
import Recurrence.Proofs.Expression.Parsing

/-!
The order of expressions. It is that of their parts: fields, lists of patterns, forms of patterns
and what these hold are compared one after the other. Different expressions have different keys, so
that the order is total, and the order and the text of parsed expressions tell the same ones apart.
-/
namespace Recurrence

theorem compare_singleton {α : Type} [Ord α] (a b : α) : compare [a] [b] = compare a b := by
  rw [List.compare_cons_cons, List.compare_nil_nil, Ordering.then_eq]

theorem compare_pair {α : Type} [Ord α] (a b c d : α) :
    compare [a, c] [b, d] = (compare a b).then (compare c d) := by
  rw [List.compare_cons_cons, compare_singleton]

theorem compare_append {α : Type} [Ord α] {as bs cs ds : List α} (h : as.length = bs.length) :
    compare (as ++ cs) (bs ++ ds) = (compare as bs).then (compare cs ds) := by
  induction as generalizing bs with
  | nil =>
      cases List.length_eq_zero_iff.mp h.symm
      rfl
  | cons a as ih =>
      cases bs with
      | nil => contradiction
      | cons b bs =>
          rw [List.cons_append, List.cons_append, List.compare_cons_cons, List.compare_cons_cons,
            ih (Nat.succ.inj h), Ordering.then_assoc]

theorem compare_map {α β : Type} [Ord α] [Ord β] {f : α → β}
    (h : ∀ a b, compare (f a) (f b) = compare a b) (as bs : List α) :
    compare (as.map f) (bs.map f) = compare as bs := by
  induction as generalizing bs with
  | nil => cases bs <;> rfl
  | cons a as ih =>
      cases bs with
      | nil => rfl
      | cons b bs =>
          rw [List.map_cons, List.map_cons, List.compare_cons_cons, List.compare_cons_cons, h, ih]

theorem compare_succ (m n : Nat) : compare (m + 1) (n + 1) = compare m n := by
  simp only [compare, compareOfLessAndEq, Nat.add_lt_add_iff_right, Nat.add_right_cancel_iff]

theorem compare_toNat (c d : Char) : compare c.toNat d.toNat = compare c d := by
  simp only [compare, compareOfLessAndEq, Char.toNat_inj]
  rfl

theorem compare_bool_toNat (a b : Bool) : compare a.toNat b.toNat = compare a b := by
  cases a <;> cases b <;> rfl

/-! ### The order of the parts -/

namespace Name

variable {table : List (List Char)}

/-- Letters come before the number. -/
instance : Ord (Name table) where
  compare m n := (compare m.text n.text).then (compare m.number n.number)

theorem length_key [Distinct table] (n : Name table) : n.key.length = 5 := by
  obtain ⟨a, b, c, htext, -⟩ := n.exists_text
  rw [key, htext]
  rfl

theorem length_text_eq [Distinct table] (m n : Name table) : m.text.length = n.text.length := by
  obtain ⟨_, _, _, hm, -⟩ := m.exists_text
  obtain ⟨_, _, _, hn, -⟩ := n.exists_text
  rw [hm, hn]
  rfl

theorem compare_key [Distinct table] (m n : Name table) : compare m.key n.key = compare m n := by
  have hletter (c d : Char) : compare (c.toNat + 1) (d.toNat + 1) = compare c d := by
    rw [compare_succ, compare_toNat]
  rw [key, key, compare_append (by simp only [List.length_map, length_text_eq m n]),
    compare_map hletter, compare_pair]
  rfl

theorem compare_keys [Distinct table] (a b c d : Name table) :
    compare (a.key ++ c.key) (b.key ++ d.key) = (compare a b).then (compare c d) := by
  rw [compare_append (by rw [length_key, length_key]), compare_key, compare_key]

theorem key_injective [Distinct table] {m n : Name table} (h : m.key = n.key) : m = n := by
  have heq : compare m n = .eq := by rw [← compare_key, h, Std.compare_self]
  apply text_injective
  exact Std.LawfulEqOrd.eq_of_compare (Ordering.then_eq_eq.mp heq).1

theorem keys_injective [Distinct table] {a b c d : Name table}
    (h : a.key ++ c.key = b.key ++ d.key) : a = b ∧ c = d := by
  obtain ⟨hleft, hright⟩ := List.append_inj h (by rw [length_key, length_key])
  exact ⟨key_injective hleft, key_injective hright⟩

end Name

instance : Ord Stride where
  compare s t := (compare s.wildcard t.wildcard).then
    ((compare s.top t.top).then (compare s.step t.step))

namespace Numeric

/-- The place of a form among the forms. -/
def form : Numeric → Nat
  | all => 0
  | number _ => 1
  | range _ _ => 2
  | stride _ => 3

instance : Ord Numeric where
  compare
    | number m, number n => compare m n
    | range a b, range c d => (compare a c).then (compare b d)
    | stride s, stride t => compare s t
    | p, q => compare p.form q.form

theorem compare_key (p q : Numeric) : compare p.key q.key = compare p q := by
  cases p with
  | all => cases q <;> rfl
  | number m =>
      cases q with
      | number n => exact compare_singleton m n
      | _ => rfl
  | range a b =>
      cases q with
      | range c d => exact compare_pair a c b d
      | _ => rfl
  | stride s =>
      cases q with
      | stride t =>
          simp only [key, List.compare_cons_cons, List.compare_nil_nil, Ordering.then_eq,
            compare_bool_toNat]
          rfl
      | _ => rfl

theorem key_injective {p q : Numeric} (h : p.key = q.key) : p = q := by
  cases p with
  | all => cases q <;> first | rfl | cases h
  | number m =>
      cases q with
      | number n =>
          cases h
          rfl
      | _ => cases h
  | range a b =>
      cases q with
      | range c d =>
          cases h
          rfl
      | _ => cases h
  | stride s =>
      cases q with
      | stride t =>
          obtain ⟨v, top, step⟩ := s
          obtain ⟨w, top', step'⟩ := t
          simp only [key, List.cons.injEq, true_and, and_true] at h
          obtain ⟨hwildcard, rfl, rfl⟩ := h
          have hsame : v = w := by
            apply Std.LawfulEqOrd.eq_of_compare
            rw [← compare_bool_toNat, hwildcard, Std.compare_self]
          rw [hsame]
      | _ => cases h

end Numeric

namespace DayOfMonth

def form : DayOfMonth → Nat
  | numeric _ => 0
  | unspecified => 1
  | last => 2
  | workday _ => 3

instance : Ord DayOfMonth where
  compare
    | numeric p, numeric q => compare p q
    | workday m, workday n => compare m n
    | p, q => compare p.form q.form

theorem compare_key (p q : DayOfMonth) : compare p.key q.key = compare p q := by
  cases p with
  | numeric p =>
      cases q with
      | numeric q => exact p.compare_key q
      | _ => rfl
  | unspecified | last => cases q <;> rfl
  | workday m =>
      cases q with
      | workday n => exact compare_singleton m n
      | _ => rfl

theorem key_injective {p q : DayOfMonth} (h : p.key = q.key) : p = q := by
  cases p with
  | numeric p =>
      cases q with
      | numeric q => rw [Numeric.key_injective (List.cons.inj h).2]
      | _ => cases h
  | unspecified | last => cases q <;> first | rfl | cases h
  | workday m =>
      cases q with
      | workday n =>
          cases h
          rfl
      | _ => cases h

end DayOfMonth

namespace MonthPattern

def form : MonthPattern → Nat
  | numeric _ => 0
  | named _ => 1
  | namedRange _ _ => 2

instance : Ord MonthPattern where
  compare
    | numeric p, numeric q => compare p q
    | named m, named n => compare m n
    | namedRange a b, namedRange c d => (compare a c).then (compare b d)
    | p, q => compare p.form q.form

theorem compare_key (p q : MonthPattern) : compare p.key q.key = compare p q := by
  cases p with
  | numeric p =>
      cases q with
      | numeric q => exact p.compare_key q
      | _ => rfl
  | named m =>
      cases q with
      | named n => exact m.compare_key n
      | _ => rfl
  | namedRange a b =>
      cases q with
      | namedRange c d => exact a.compare_keys c b d
      | _ => rfl

theorem key_injective {p q : MonthPattern} (h : p.key = q.key) : p = q := by
  cases p with
  | numeric p =>
      cases q with
      | numeric q => rw [Numeric.key_injective (List.cons.inj h).2]
      | _ => cases h
  | named m =>
      cases q with
      | named n => rw [Name.key_injective (List.cons.inj h).2]
      | _ => cases h
  | namedRange a b =>
      cases q with
      | namedRange c d =>
          obtain ⟨rfl, rfl⟩ := Name.keys_injective (List.cons.inj h).2
          rfl
      | _ => cases h

end MonthPattern

namespace DayOfWeek

def form : DayOfWeek → Nat
  | numeric _ => 0
  | unspecified => 1
  | last => 2
  | named _ => 3
  | namedRange _ _ => 4
  | nth _ _ => 5

instance : Ord DayOfWeek where
  compare
    | numeric p, numeric q => compare p q
    | named m, named n => compare m n
    | namedRange a b, namedRange c d => (compare a c).then (compare b d)
    | nth d m, nth e n => (compare d e).then (compare m n)
    | p, q => compare p.form q.form

theorem compare_key (p q : DayOfWeek) : compare p.key q.key = compare p q := by
  cases p with
  | numeric p =>
      cases q with
      | numeric q => exact p.compare_key q
      | _ => rfl
  | unspecified | last => cases q <;> rfl
  | named m =>
      cases q with
      | named n => exact m.compare_key n
      | _ => rfl
  | namedRange a b =>
      cases q with
      | namedRange c d => exact a.compare_keys c b d
      | _ => rfl
  | nth d m =>
      cases q with
      | nth e n => exact compare_pair d e m n
      | _ => rfl

theorem key_injective {p q : DayOfWeek} (h : p.key = q.key) : p = q := by
  cases p with
  | numeric p =>
      cases q with
      | numeric q => rw [Numeric.key_injective (List.cons.inj h).2]
      | _ => cases h
  | unspecified | last => cases q <;> first | rfl | cases h
  | named m =>
      cases q with
      | named n => rw [Name.key_injective (List.cons.inj h).2]
      | _ => cases h
  | namedRange a b =>
      cases q with
      | namedRange c d =>
          obtain ⟨rfl, rfl⟩ := Name.keys_injective (List.cons.inj h).2
          rfl
      | _ => cases h
  | nth d m =>
      cases q with
      | nth e n =>
          cases h
          rfl
      | _ => cases h

end DayOfWeek

instance {π : Type} [Ord π] : Ord (Field π) where
  compare f g := compare f.patterns g.patterns

theorem Field.eq_of_map_eq {π : Type} {key : π → List Nat} {f g : Field π}
    (hkey : ∀ p q, key p = key q → p = q) (h : f.patterns.map key = g.patterns.map key) :
    f = g := by
  obtain ⟨ps, hps⟩ := f
  obtain ⟨qs, hqs⟩ := g
  cases List.map_inj_right hkey |>.mp h
  rfl

/-! ### The order of the whole -/

namespace Expression

/-- Expressions are compared field by field, and fields pattern by pattern. -/
theorem compare_eq (a b : Expression) : compare a b =
    (compare a.minutes b.minutes).then ((compare a.hours b.hours).then
      ((compare a.daysOfMonth b.daysOfMonth).then ((compare a.months b.months).then
        ((compare a.daysOfWeek b.daysOfWeek).then (compare a.years b.years))))) := by
  change compare a.key b.key = _
  simp only [key, List.compare_cons_cons, List.compare_nil_nil, Ordering.then_eq,
    compare_map Numeric.compare_key, compare_map DayOfMonth.compare_key,
    compare_map MonthPattern.compare_key, compare_map DayOfWeek.compare_key]
  rfl

theorem key_injective {a b : Expression} (h : a.key = b.key) : a = b := by
  simp only [key, List.cons.injEq, and_true] at h
  obtain ⟨hminutes, hhours, hdaysOfMonth, hmonths, hdaysOfWeek, hyears⟩ := h
  have hminutes := Field.eq_of_map_eq (fun _ _ => Numeric.key_injective) hminutes
  have hhours := Field.eq_of_map_eq (fun _ _ => Numeric.key_injective) hhours
  have hdaysOfMonth := Field.eq_of_map_eq (fun _ _ => DayOfMonth.key_injective) hdaysOfMonth
  have hmonths := Field.eq_of_map_eq (fun _ _ => MonthPattern.key_injective) hmonths
  have hdaysOfWeek := Field.eq_of_map_eq (fun _ _ => DayOfWeek.key_injective) hdaysOfWeek
  have hyears := Field.eq_of_map_eq (fun _ _ => Numeric.key_injective) hyears
  cases a
  cases b
  congr

instance : Std.TransOrd Expression := inferInstanceAs (Std.TransCmp (compareOn key))

instance : Std.LawfulEqOrd Expression where
  eq_of_compare h := key_injective (Std.LawfulEqOrd.eq_of_compare h)

instance : LT Expression := ltOfOrd

instance : LE Expression := leOfOrd

theorem lt_trichotomy (a b : Expression) : a < b ∨ a = b ∨ b < a := by
  cases h : compare a b with
  | lt => exact .inl h
  | eq => exact .inr (.inl (Std.LawfulEqOrd.eq_of_compare h))
  | gt => exact .inr (.inr (Std.OrientedCmp.lt_of_gt h))

protected theorem lt_irrefl (a : Expression) : ¬ a < a := by
  intro h
  have hself : compare a a = .eq := Std.compare_self
  rw [show compare a a = .lt from h] at hself
  contradiction

protected theorem lt_trans {a b c : Expression} (hab : a < b) (hbc : b < c) : a < c := by
  change compare a b = .lt at hab
  exact Std.TransCmp.lt_trans hab hbc

/-- A list in ascending order is determined by its elements and how often each occurs. -/
theorem eq_of_perm {es es' : List Expression} (hperm : es'.Perm es) (h : es.Pairwise (· ≤ ·))
    (h' : es'.Pairwise (· ≤ ·)) : es' = es := by
  apply List.Perm.eq_of_pairwise _ h' h hperm
  intro a b _ _ hab hba
  change (compare a b).isLE at hab
  exact Std.LawfulEqOrd.eq_of_compare (Std.OrientedCmp.isLE_antisymm hab hba)

theorem sort_perm (es : List Expression) : (sort es).Perm es := List.mergeSort_perm es _

theorem pairwise_sort (es : List Expression) : (sort es).Pairwise (· ≤ ·) := by
  apply List.pairwise_mergeSort
  · intro a b c hab hbc
    exact Std.TransCmp.isLE_trans hab hbc
  · intro a b
    rw [Bool.or_eq_true]
    obtain h | rfl | h := lt_trichotomy a b
    · exact .inl (Ordering.isLE_of_eq_lt h)
    · exact .inl (Ordering.isLE_of_eq_eq Std.compare_self)
    · exact .inr (Ordering.isLE_of_eq_lt h)

theorem sort_eq_of_perm {es es' : List Expression} (h : es'.Perm es) : sort es' = sort es :=
  eq_of_perm ((sort_perm es').trans (h.trans (sort_perm es).symm)) (pairwise_sort es)
    (pairwise_sort es')

theorem compare_eq_eq_iff {a b : Expression} : compare a b = .eq ↔ a = b :=
  Std.LawfulEqOrd.compare_eq_iff_eq

theorem eq_iff_toString_eq {s t : String} {a b : Expression} (ha : parse s = .ok a)
    (hb : parse t = .ok b) : a = b ↔ toString a = toString b := by
  constructor
  · intro h
    rw [h]
  · intro h
    have hsame := parse_toString ha
    rw [h, parse_toString hb] at hsame
    exact (Except.ok.inj hsame).symm

/-- Of two parsed expressions one comes before the other unless they are the same, which is so if
and only if they are printed alike. The order is transitive, and what is printed of a sorted list
does not depend on where in the list the expressions stood. -/
theorem order_total {s t : String} {a b : Expression} (ha : parse s = .ok a)
    (hb : parse t = .ok b) :
    ((a < b ∨ a = b ∨ b < a) ∧ ¬ (a < b ∧ a = b) ∧ ¬ (a = b ∧ b < a) ∧ ¬ (a < b ∧ b < a)) ∧
      (∀ c, a < b → b < c → a < c) ∧
      (compare a b = .eq ↔ a = b) ∧ (a = b ↔ toString a = toString b) ∧
      ∀ es es' : List Expression, es'.Perm es →
        (sort es).Perm es ∧ (sort es).Pairwise (· ≤ ·) ∧
          (sort es').map toString = (sort es).map toString := by
  refine ⟨⟨lt_trichotomy a b, ?_, ?_, ?_⟩, fun _ => Expression.lt_trans, compare_eq_eq_iff,
    eq_iff_toString_eq ha hb, fun es es' h => ⟨sort_perm es, pairwise_sort es, ?_⟩⟩
  · rintro ⟨h, rfl⟩
    exact Expression.lt_irrefl a h
  · rintro ⟨rfl, h⟩
    exact Expression.lt_irrefl a h
  · rintro ⟨hab, hba⟩
    exact Expression.lt_irrefl a (Expression.lt_trans hab hba)
  · rw [sort_eq_of_perm h]

/-- The case of a name counts. -/
theorem order_total_jan : ∃ a b, parse "0 0 1 JAN ? *" = .ok a ∧ parse "0 00 1 jan ? *" = .ok b ∧
    compare a b ≠ .eq ∧ (a < b ∨ b < a) ∧
    (sort [b, a, b]).map toString = (sort [a, b, b]).map toString := by
  obtain ⟨a, ha, hprinted⟩ := exists_of_map_toString (s := "0 0 1 JAN ? *") (t := "0 0 1 JAN ? *")
    (by decide +kernel)
  obtain ⟨b, hb, hprinted'⟩ := exists_of_map_toString (s := "0 00 1 jan ? *")
    (t := "0 0 1 jan ? *") (by decide +kernel)
  obtain ⟨⟨htotal, -⟩, -, hequal, htext, hsort⟩ := order_total ha hb
  have hne : a ≠ b := by
    rw [ne_eq, htext, hprinted, hprinted']
    decide
  refine ⟨a, b, ha, hb, mt hequal.mp hne, ?_, (hsort _ _ (.swap a b [b])).2.2⟩
  obtain h | h | h := htotal
  · exact .inl h
  · exact (hne h).elim
  · exact .inr h

end Expression

end Recurrence
