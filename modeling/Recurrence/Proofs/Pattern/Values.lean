import Mathlib.Data.Set.Lattice
import Mathlib.Order.Interval.Set.Defs
import Recurrence.Proofs.Evaluation

/-!
The values that patterns stand for. A field without zero steps stands for the union of what its
patterns stand for, so that it matters neither in which order they come nor how often. Numbers are
described by sets of numbers, and days by what each pattern accepts alone.
-/
namespace Recurrence

/-- From `top` on in steps, or all multiples of the step. -/
def Stride.values (s : Stride) : Set Nat :=
  if s.wildcard then {x | s.step ∣ x} else {x | ∃ k, x = s.top + k * s.step}

def Numeric.values : Numeric → Set Nat
  | all => Set.univ
  | number value => {value}
  | range low high => Set.Icc low high
  | stride s => s.values

/-- The days that a pattern accepts alone. -/
def acceptedDays {π : Type} [Pattern π Date] (p : π) : Set Date :=
  {d | Pattern.accepts p d = .ok true}

/-- From `top` on, the remainder of `top` is left by the members of the progression alone. -/
theorem exists_eq_add_mul_iff {top step x : Nat} :
    (∃ k, x = top + k * step) ↔ top ≤ x ∧ x % step = top % step := by
  constructor
  · intro h
    obtain ⟨k, rfl⟩ := h
    exact ⟨Nat.le_add_right _ _, Nat.add_mul_mod_self_right _ _ _⟩
  · intro h
    obtain ⟨hle, hmod⟩ := h
    obtain ⟨k, hk⟩ := Nat.dvd_of_mod_eq_zero (Nat.sub_mod_eq_zero_of_mod_eq hmod)
    refine ⟨k, ?_⟩
    rw [Nat.mul_comm, ← hk, Nat.add_sub_cancel' hle]

theorem Stride.accepts_iff {s : Stride} (h : s.step ≠ 0) {x : Nat} :
    s.accepts x = .ok true ↔ x ∈ s.values := by
  rw [accepts, if_neg h, values, Except.ok.injEq, Bool.and_eq_true, decide_eq_true_eq,
    decide_eq_true_eq]
  cases s.wildcard with
  | true =>
      simp only [if_true, Nat.zero_le, true_and, Nat.zero_mod, Set.mem_ofPred_eq,
        Nat.dvd_iff_mod_eq_zero]
  | false =>
      simp only [Bool.false_eq_true, if_false, Set.mem_ofPred_eq, exists_eq_add_mul_iff]

theorem Numeric.accepts_iff {p : Numeric} (h : ∀ s, p.stride? = some s → s.step ≠ 0) {x : Nat} :
    p.accepts x = .ok true ↔ x ∈ p.values := by
  cases p with
  | stride s => exact Stride.accepts_iff (h s rfl)
  | all | number _ | range _ _ => simp [accepts, values]

namespace Field

variable {π ι : Type} [Pattern π ι] {f g : Field π}

/-- The field accepts the union of some sets, one for each pattern, as does every other field with
the same patterns in whatever order and however often. -/
structure Unites (f : Field π) (values : π → Set ι) : Prop where
  accepts : ∀ x, ∃ b, f.accepts x = .ok b ∧ (b = true ↔ x ∈ ⋃ p ∈ f.patterns, values p)
  unordered : ∀ g : Field π, (∀ p, p ∈ g.patterns ↔ p ∈ f.patterns) →
    ∀ x, g.accepts x = f.accepts x

/-- One pattern that stands for everything is enough. -/
theorem Unites.accepts_of_univ {values : π → Set ι} (h : f.Unites values) {p : π}
    (hp : p ∈ f.patterns) (huniv : values p = Set.univ) (x : ι) : f.accepts x = .ok true := by
  obtain ⟨b, hb, hiff⟩ := h.accepts x
  have hx : b = true := hiff.mpr (Set.mem_biUnion hp (huniv ▸ Set.mem_univ x))
  rw [hb, hx]

theorem admits_congr (h : ∀ p, p ∈ g.patterns ↔ p ∈ f.patterns) (x : ι) :
    g.admits x = f.admits x := by
  rw [Bool.eq_iff_iff, admits, admits, List.any_eq_true, List.any_eq_true]
  simp only [h]

variable [Stepped π ι]

theorem evaluable_congr (h : ∀ p, p ∈ g.patterns ↔ p ∈ f.patterns) :
    g.Evaluable ↔ f.Evaluable := by
  simp only [Evaluable, strides, List.mem_filterMap, h]

theorem step_ne_zero_of_mem {p : π} (h : f.Evaluable) (hp : p ∈ f.patterns) :
    ∀ s, Stepped.stride? p = some s → s.step ≠ 0 :=
  fun s hs => h s (List.mem_filterMap.mpr ⟨p, hp, hs⟩)

theorem unites_of_accepts_iff (hf : f.Evaluable) {values : π → Set ι}
    (h : ∀ p ∈ f.patterns, ∀ x, Pattern.accepts p x = .ok true ↔ x ∈ values p) :
    f.Unites values where
  accepts x := by
    refine ⟨_, accepts_of_evaluable hf x, ?_⟩
    rw [admits, List.any_eq_true]
    simp only [decide_eq_true_eq, Set.mem_iUnion, exists_prop]
    exact exists_congr fun p => and_congr_right fun hp => h p hp x
  unordered g hg x := by
    rw [accepts_of_evaluable hf, accepts_of_evaluable ((evaluable_congr hg).mpr hf),
      admits_congr hg]

theorem unites_values {f : Field Numeric} (hf : f.Evaluable) : f.Unites Numeric.values :=
  unites_of_accepts_iff hf fun _ hp _ => Numeric.accepts_iff (step_ne_zero_of_mem hf hp)

theorem unites_acceptedDays {π : Type} [Pattern π Date] [Stepped π Date] {f : Field π}
    (hf : f.Evaluable) : f.Unites acceptedDays :=
  unites_of_accepts_iff hf fun _ _ _ => Iff.rfl

/-- A field of numbers accepts the union of the sets that its patterns stand for, and a field of
days accepts a day if one of its patterns does so alone. A star, and for days a question mark,
accepts everything beside any other patterns. -/
theorem accepts_eq_union {f : Field Numeric} {days : Field DayOfMonth} {week : Field DayOfWeek}
    (hf : f.Evaluable) (hdays : days.Evaluable) (hweek : week.Evaluable) :
    (f.Unites Numeric.values ∧ (.all ∈ f.patterns → ∀ x, f.accepts x = .ok true)) ∧
    (days.Unites acceptedDays ∧ (.numeric .all ∈ days.patterns ∨ .unspecified ∈ days.patterns →
      ∀ d, days.accepts d = .ok true)) ∧
    (week.Unites acceptedDays ∧ (.numeric .all ∈ week.patterns ∨ .unspecified ∈ week.patterns →
      ∀ d, week.accepts d = .ok true)) := by
  refine ⟨⟨unites_values hf, ?_⟩, ⟨unites_acceptedDays hdays, ?_⟩, unites_acceptedDays hweek, ?_⟩
  · intro hall
    exact (unites_values hf).accepts_of_univ hall rfl
  · rintro (hall | hunspecified)
    · exact (unites_acceptedDays hdays).accepts_of_univ hall (Set.eq_univ_of_forall fun _ => rfl)
    · exact (unites_acceptedDays hdays).accepts_of_univ hunspecified
        (Set.eq_univ_of_forall fun _ => rfl)
  · rintro (hall | hunspecified)
    · exact (unites_acceptedDays hweek).accepts_of_univ hall (Set.eq_univ_of_forall fun _ => rfl)
    · exact (unites_acceptedDays hweek).accepts_of_univ hunspecified
        (Set.eq_univ_of_forall fun _ => rfl)

/-- A reversed range, a progression, and multiples whose top does not count. -/
def scattered : Field Numeric :=
  ⟨[.range 30 10, .stride ⟨false, 5, 3⟩, .stride ⟨true, 7, 10⟩], List.cons_ne_nil _ _⟩

/-- The numbers 2 and 5 leave one remainder by 3, but 2 lies below the top of the progression. -/
theorem accepts_eq_union_scattered : (5 ∈ ⋃ p ∈ scattered.patterns, p.values) ∧
    (20 ∈ ⋃ p ∈ scattered.patterns, p.values) ∧ 2 ∉ ⋃ p ∈ scattered.patterns, p.values := by
  have hdays : Evaluable ⟨[DayOfMonth.last], List.cons_ne_nil _ _⟩ := by decide
  have hweek : Evaluable ⟨[DayOfWeek.last], List.cons_ne_nil _ _⟩ := by decide
  have h := accepts_eq_union (show scattered.Evaluable by decide) hdays hweek
  have hmem (x : Nat) (b : Bool) (hb : scattered.accepts x = .ok b) :
      b = true ↔ x ∈ ⋃ p ∈ scattered.patterns, p.values := by
    obtain ⟨b', hb', hiff⟩ := h.1.1.accepts x
    cases hb.symm.trans hb'
    exact hiff
  refine ⟨(hmem 5 true ?_).mp rfl, (hmem 20 true ?_).mp rfl, mt (hmem 2 false ?_).mpr nofun⟩
  all_goals decide

end Field

end Recurrence
