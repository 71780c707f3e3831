import Recurrence.Proofs.Schedule.Alike
import Recurrence.Proofs.Schedule.Iteration

/-!
A comma between patterns. An expression with the list of one field cut in two holds when either half
of it holds, and its occurrences are those of both halves in one order of time.
-/
namespace Recurrence

namespace Field

variable {π ι : Type} [Pattern π ι]

/-- The patterns of one field and then those of the other, with a comma between. -/
instance : Append (Field π) where
  append f g := ⟨f.patterns ++ g.patterns, List.append_ne_nil_of_left_ne_nil f.patterns_ne_nil _⟩

theorem admits_append (f g : Field π) (x : ι) :
    (f ++ g).admits x = (f.admits x || g.admits x) := List.any_append

theorem unspecified_append (f g : Field π) :
    (f ++ g).unspecified = (f.unspecified || g.unspecified) := List.any_append

theorem strides_append [Stepped π ι] (f g : Field π) : (f ++ g).strides = f.strides ++ g.strides :=
  List.filterMap_append

end Field

/-- The first of two ascending lists together is the lesser of the first of each. -/
theorem head?_eq_merge {α : Type} [LinearOrder α] {as bs cs : List α} (has : as.Pairwise (· < ·))
    (hbs : bs.Pairwise (· < ·)) (hcs : cs.Pairwise (· < ·)) (hmem : ∀ a, a ∈ as ↔ a ∈ bs ∨ a ∈ cs) :
    as.head? = Option.merge min bs.head? cs.head? := by
  cases bs with
  | nil =>
      have hac : as = cs := has.eq_of_mem_iff hcs (by simpa using hmem)
      rw [hac, List.head?_nil, Option.merge_none_left]
  | cons b bs =>
      cases cs with
      | nil =>
          have hab : as = b :: bs := has.eq_of_mem_iff hbs (by simpa using hmem)
          rw [hab, List.head?_nil, Option.merge_none_right]
      | cons c cs =>
          have hb : IsLeast {a | a ∈ b :: bs} b :=
            (head?_eq_some_iff_isLeast hbs fun _ => Iff.rfl).mp rfl
          have hc : IsLeast {a | a ∈ c :: cs} c :=
            (head?_eq_some_iff_isLeast hcs fun _ => Iff.rfl).mp rfl
          exact (head?_eq_some_iff_isLeast has hmem).mpr (hb.union hc)

namespace Expression

/-- The list of one field of the first expression is cut in two, which are that field in the second
and in the third. Two halves of a day field leave it unspecified either both or neither. -/
inductive Cleft : Expression → Expression → Expression → Prop
  | minutes (e : Expression) (p q : Field Numeric) :
      Cleft { e with minutes := p ++ q } { e with minutes := p } { e with minutes := q }
  | hours (e : Expression) (p q : Field Numeric) :
      Cleft { e with hours := p ++ q } { e with hours := p } { e with hours := q }
  | daysOfMonth (e : Expression) (p q : Field DayOfMonth) (h : p.unspecified = q.unspecified) :
      Cleft { e with daysOfMonth := p ++ q } { e with daysOfMonth := p } { e with daysOfMonth := q }
  | months (e : Expression) (p q : Field MonthPattern) :
      Cleft { e with months := p ++ q } { e with months := p } { e with months := q }
  | daysOfWeek (e : Expression) (p q : Field DayOfWeek) (h : p.unspecified = q.unspecified) :
      Cleft { e with daysOfWeek := p ++ q } { e with daysOfWeek := p } { e with daysOfWeek := q }
  | years (e : Expression) (p q : Field Numeric) :
      Cleft { e with years := p ++ q } { e with years := p } { e with years := q }

namespace Cleft

variable {e a b : Expression} (h : Cleft e a b)

include h

theorem admits (w : WallTime) : e.admits w = (a.admits w || b.admits w) := by
  cases h <;>
    simp only [Expression.admits, Field.admits_append, Bool.and_or_distrib_left,
      Bool.and_or_distrib_right]

theorem mem_strides {s : Stride} : s ∈ e.strides ↔ s ∈ a.strides ∨ s ∈ b.strides := by
  cases h <;> simp only [strides, Field.strides_append, List.mem_append] <;> grind

theorem evaluable_iff : e.Evaluable ↔ a.Evaluable ∧ b.Evaluable := by
  simp only [Evaluable, h.mem_strides, or_imp, forall_and]

theorem unspecified : (e.daysOfMonth.unspecified = a.daysOfMonth.unspecified ∧
    e.daysOfWeek.unspecified = a.daysOfWeek.unspecified) ∧
    e.daysOfMonth.unspecified = b.daysOfMonth.unspecified ∧
    e.daysOfWeek.unspecified = b.daysOfWeek.unspecified := by
  cases h with
  | minutes | hours | months | years => exact ⟨⟨rfl, rfl⟩, rfl, rfl⟩
  | daysOfMonth e p q h | daysOfWeek e p q h => simp [Field.unspecified_append, h]

theorem undecided_iff :
    (e.daysOfMonth.unspecified = e.daysOfWeek.unspecified ↔
      a.daysOfMonth.unspecified = a.daysOfWeek.unspecified) ∧
    (e.daysOfMonth.unspecified = e.daysOfWeek.unspecified ↔
      b.daysOfMonth.unspecified = b.daysOfWeek.unspecified) := by
  obtain ⟨⟨hmonth, hweek⟩, hmonth', hweek'⟩ := h.unspecified
  exact ⟨by rw [hmonth, hweek], by rw [hmonth', hweek']⟩

theorem holdsAt_eq (he : e.Evaluable) {z : Zone} {i : Instant}
    (hshown : Representable (z.wallTime i.seconds).seconds) : ∃ x y,
    a.holdsAt z i = .ok x ∧ b.holdsAt z i = .ok y ∧ e.holdsAt z i = .ok (x || y) := by
  obtain ⟨ha, hb⟩ := h.evaluable_iff.mp he
  refine ⟨_, _, holdsAt_eq_ok_iff.mpr ⟨hshown, holdsOn_of_evaluable ha _⟩,
    holdsAt_eq_ok_iff.mpr ⟨hshown, holdsOn_of_evaluable hb _⟩, ?_⟩
  rw [holdsAt_eq_ok_iff, holdsOn_of_evaluable he, h.admits]
  exact ⟨hshown, rfl⟩

theorem due_iff (he : e.Evaluable) {z : Zone} {start : Int} {t : Instant} :
    e.Due z start t ↔ a.Due z start t ∨ b.Due z start t := by
  obtain ⟨ha, hb⟩ := h.evaluable_iff.mp he
  constructor
  · intro hdue
    have hholds := (holdsAt_iff_admits he hdue.year_le).mp hdue.holds
    rw [h.admits, Bool.or_eq_true] at hholds
    obtain hadmits | hadmits := hholds
    · exact .inl { hdue with holds := (holdsAt_iff_admits ha hdue.year_le).mpr hadmits }
    · exact .inr { hdue with holds := (holdsAt_iff_admits hb hdue.year_le).mpr hadmits }
  · intro hdue
    obtain hdue | hdue := hdue
    · have hadmits := (holdsAt_iff_admits ha hdue.year_le).mp hdue.holds
      refine { hdue with holds := (holdsAt_iff_admits he hdue.year_le).mpr ?_ }
      rw [h.admits, hadmits, Bool.true_or]
    · have hadmits := (holdsAt_iff_admits hb hdue.year_le).mp hdue.holds
      refine { hdue with holds := (holdsAt_iff_admits he hdue.year_le).mpr ?_ }
      rw [h.admits, hadmits, Bool.or_true]

theorem mem_allFrom_iff (he : e.Evaluable) {z : Zone} {i t : Instant} :
    t ∈ e.allFrom z i ↔ t ∈ a.allFrom z i ∨ t ∈ b.allFrom z i := by
  simp only [mem_allFrom, mem_scan, h.due_iff he, ne_eq, h.undecided_iff.1.symm,
    h.undecided_iff.2.symm]
  grind

theorem beginsOutOfRange_iff {z : Zone} {i : Instant} :
    (e.BeginsOutOfRange z i ↔ a.BeginsOutOfRange z i) ∧
      (e.BeginsOutOfRange z i ↔ b.BeginsOutOfRange z i) :=
  ⟨and_congr_left' (not_congr h.undecided_iff.1), and_congr_left' (not_congr h.undecided_iff.2)⟩

end Cleft

/-- The occurrences from an instant on, in each way that there is to ask for them. -/
structure Occurs (e : Expression) (z : Zone) (i : Instant) (ts : List Instant) : Prop where
  nextN : ∀ n, e.nextN z i n = .ok (ts.take n)
  next : e.next z i = .ok ts.head?
  iterated : ∃ o, e.occurrences z i = .ok o ∧ o.Yields ts none
  ascending : ts.Pairwise (· < ·)

theorem occurs_allFrom {e : Expression} (he : e.Evaluable) {z : Zone} (hz : z.Spaced) {i : Instant}
    (h : ¬ e.BeginsOutOfRange z i) : e.Occurs z i (e.allFrom z i) where
  nextN := nextN_eq_take he h
  next := next_eq_head? he h
  iterated := ⟨_, occurrences_eq he h, yields_allFrom he hz rfl⟩
  ascending := allFrom_pairwise (scan_ascending hz) i

/-- Nothing is told about occurrences, in whatever way one asks for them. -/
structure BreaksOff (e : Expression) (z : Zone) (i : Instant) : Prop where
  nextN : ∀ n, 0 < n → e.nextN z i n = .error .outOfRange
  next : e.next z i = .error .outOfRange
  occurrences : e.occurrences z i = .error .outOfRange

theorem breaksOff {e : Expression} (he : e.Evaluable) {z : Zone} {i : Instant}
    (h : e.BeginsOutOfRange z i) : e.BreaksOff z i where
  nextN _ := nextN_of_beginsOutOfRange he h
  next := next_of_beginsOutOfRange he h
  occurrences := occurrences_of_beginsOutOfRange he h

/-- An expression with a list cut in two holds when either half does, and in a zone whose
transitions are far enough apart its occurrences are those of both halves, in order and each once,
so that the next one is the earlier of the next of each. Where one of the three cannot be asked
because the clock is out of range, none of them can. -/
theorem comma_union {e a b : Expression} (h : Cleft e a b) (he : e.Evaluable) :
    (∀ z i, (Representable (z.wallTime i.seconds).seconds → ∃ x y, a.holdsAt z i = .ok x ∧
        b.holdsAt z i = .ok y ∧ e.holdsAt z i = .ok (x || y)) ∧
      (¬ Representable (z.wallTime i.seconds).seconds →
        ∀ f ∈ [e, a, b], f.holdsAt z i = .error .outOfRange)) ∧
    ∀ z, z.Spaced → ∀ i,
      (e.BeginsOutOfRange z i → ∀ f ∈ [e, a, b], f.BreaksOff z i) ∧
      (¬ e.BeginsOutOfRange z i →
        (∃ t u, a.next z i = .ok t ∧ b.next z i = .ok u ∧
          e.next z i = .ok (Option.merge min t u)) ∧
        ∃ ts ts' us, a.Occurs z i ts ∧ b.Occurs z i ts' ∧ e.Occurs z i us ∧
          ∀ t, t ∈ us ↔ t ∈ ts ∨ t ∈ ts') := by
  obtain ⟨ha, hb⟩ := h.evaluable_iff.mp he
  refine ⟨fun z i => ⟨h.holdsAt_eq he, fun hnot f _ => holdsAt_of_not_representable hnot⟩, ?_⟩
  intro z hz i
  obtain ⟨hbeginsA, hbeginsB⟩ := h.beginsOutOfRange_iff (z := z) (i := i)
  constructor
  · intro hbegins
    simp only [List.forall_mem_cons, List.not_mem_nil, false_implies, implies_true, and_true]
    exact ⟨breaksOff he hbegins, breaksOff ha (hbeginsA.mp hbegins),
      breaksOff hb (hbeginsB.mp hbegins)⟩
  · intro hbegins
    have hea := occurs_allFrom ha hz (mt hbeginsA.mpr hbegins)
    have heb := occurs_allFrom hb hz (mt hbeginsB.mpr hbegins)
    have hee := occurs_allFrom he hz hbegins
    have hmem (t : Instant) := h.mem_allFrom_iff he (z := z) (i := i) (t := t)
    refine ⟨⟨_, _, hea.next, heb.next, ?_⟩, _, _, _, hea, heb, hee, hmem⟩
    rw [hee.next, head?_eq_merge hee.ascending hea.ascending heb.ascending hmem]

/-- At half past two in the night of some days of each month. -/
def nightsOf (days : Field DayOfMonth) : Expression := { lastNights with daysOfMonth := days }

/-- Many months have their last day on the 31st. -/
theorem comma_union_nights : ∃ ts ts' us,
    (nightsOf (.single .last)).Occurs .summerTime ⟨1711843230, 0⟩ ts ∧
    (nightsOf (.single (.numeric (.number 31)))).Occurs .summerTime ⟨1711843230, 0⟩ ts' ∧
    (nightsOf (.single .last ++ .single (.numeric (.number 31)))).Occurs .summerTime
      ⟨1711843230, 0⟩ us ∧ ∀ t, t ∈ us ↔ t ∈ ts ∨ t ∈ ts' := by
  have hcleft : Cleft (nightsOf (.single .last ++ .single (.numeric (.number 31))))
      (nightsOf (.single .last)) (nightsOf (.single (.numeric (.number 31)))) :=
    .daysOfMonth lastNights _ _ rfl
  have h := comma_union hcleft (by decide)
  have hstart : Zone.summerTime.startOfMinute? ⟨1711843230, 0⟩ = some 1711843200 := by decide
  have hkeeps := Zone.keepsRange_of_shown hstart (by decide)
  exact ((h.2 .summerTime Zone.summerTime_spaced ⟨1711843230, 0⟩).2 fun hbegins =>
    hbegins.2 hkeeps).2

end Expression

end Recurrence
