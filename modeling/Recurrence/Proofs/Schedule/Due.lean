import Mathlib.Order.Bounds.Basic
import Recurrence.Proofs.Schedule.Ascending

/-!
What is due from some instant on, in terms of instants alone. In a zone whose transitions are far
enough apart the walk along the clock meets all of it, and in the order of time.
-/
namespace Recurrence

/-- The `n` least members of a set in ascending order, or all members if there are fewer. -/
structure Least {α : Type} [LT α] (s : Set α) (n : Nat) (as : List α) : Prop where
  ascending : as.Pairwise (· < ·)
  mem : ∀ a ∈ as, a ∈ s
  length_le : as.length ≤ n
  complete : ∀ a ∈ s, a ∈ as ∨ as.length = n ∧ ∀ b ∈ as, b < a

theorem Least.take {α : Type} [LT α] {s : Set α} {as : List α} (h : as.Pairwise (· < ·))
    (hmem : ∀ a, a ∈ as ↔ a ∈ s) (n : Nat) : Least s n (as.take n) where
  ascending := h.sublist (List.take_sublist n as)
  mem a ha := (hmem a).mp (List.mem_of_mem_take ha)
  length_le := List.length_take_le n as
  complete a ha := by
    rw [← List.take_append_drop n as, List.pairwise_append] at h
    rw [← hmem, ← List.take_append_drop n as, List.mem_append] at ha
    cases ha with
    | inl htake => exact .inl htake
    | inr hdrop =>
        have hlength := List.length_pos_of_mem hdrop
        rw [List.length_drop] at hlength
        exact .inr ⟨by rw [List.length_take]; omega, fun b hb => h.2.2 b hb a hdrop⟩

theorem head?_eq_some_iff_isLeast {α : Type} [PartialOrder α] {s : Set α} {as : List α}
    (h : as.Pairwise (· < ·)) (hmem : ∀ a, a ∈ as ↔ a ∈ s) {a : α} :
    as.head? = some a ↔ IsLeast s a := by
  cases as with
  | nil =>
      simp only [List.head?_nil, reduceCtorEq, false_iff]
      exact fun hleast => List.not_mem_nil ((hmem a).mpr hleast.1)
  | cons b bs =>
      have hleast : IsLeast s b := by
        refine ⟨(hmem b).mp List.mem_cons_self, ?_⟩
        intro c hc
        cases (hmem c).mpr hc with
        | head => exact le_refl b
        | tail _ hc => exact (List.rel_of_pairwise_cons h hc).le
      rw [List.head?_cons, Option.some.injEq]
      constructor
      · intro hba
        exact hba ▸ hleast
      · intro ha
        exact hleast.unique ha

namespace Expression

/-- The occurrences from the second `start` of UTC: the first instants of the minutes of the clock
at which the expression holds, up to the end of the last year. -/
structure Due (e : Expression) (z : Zone) (start : Int) (t : Instant) : Prop where
  start_le : (⟨start, 0⟩ : Instant) ≤ t
  nanoseconds : t.nanoseconds = 0
  second : (z.wallTime t.seconds).second = 0
  year_le : (z.wallTime t.seconds).date.year ≤ lastYear
  first : z.IsFirstReading t.seconds
  holds : e.holdsAt z t = .ok true

variable {e : Expression} {z : Zone}

theorem mem_scan {start : Int} {t : Instant} :
    t ∈ e.scan z start ↔ e.Due z start t ∧ z.wallTime start ≤ z.wallTime t.seconds := by
  simp only [scan, List.mem_filterMap, onMinute?_eq_some_iff, WallTime.mem_minutesFrom]
  constructor
  · intro h
    obtain ⟨w, ⟨hsecond, hle, hyear⟩, rfl, hfirst, hnanoseconds, hstart, hholds⟩ := h
    exact ⟨⟨Instant.mk_zero_le_iff.mpr hstart, hnanoseconds, hsecond, hyear, hfirst, hholds⟩, hle⟩
  · intro h
    obtain ⟨⟨hstart, hnanoseconds, hsecond, hyear, hfirst, hholds⟩, hle⟩ := h
    rw [Instant.mk_zero_le_iff] at hstart
    exact ⟨_, ⟨hsecond, hle, hyear⟩, rfl, hfirst, hnanoseconds, hstart, hholds⟩

/-- Nothing is due at a wall time before that of the start. -/
theorem Due.wallTime_le (hz : z.Spaced) {start : Int} {t : Instant} (h : e.Due z start t) :
    z.wallTime start ≤ z.wallTime t.seconds :=
  hz.wallTime_le_of_isFirstReading (Instant.mk_zero_le_iff.mp h.start_le) h.first

theorem mem_scan_iff_due (hz : z.Spaced) {start : Int} {t : Instant} :
    t ∈ e.scan z start ↔ e.Due z start t := by
  rw [mem_scan]
  exact ⟨And.left, fun h => ⟨h, h.wallTime_le hz⟩⟩

theorem scan_ascending (hz : z.Spaced) (start : Int) : (e.scan z start).Pairwise (· < ·) :=
  scan_ascending_of_retraces (Zone.retraces hz.onward) start

/-- No two occurrences are shown alike. -/
theorem Due.eq_of_wallTime_eq {start : Int} {t u : Instant} (ht : e.Due z start t)
    (hu : e.Due z start u) (h : z.wallTime t.seconds = z.wallTime u.seconds) : t = u := by
  have htu := ht.first u.seconds h.symm
  have hut := hu.first t.seconds h
  have hnanoseconds := ht.nanoseconds.trans hu.nanoseconds.symm
  apply Instant.le_antisymm
  all_goals
    rw [Instant.le_def]
    omega

/-- In a zone whose transitions are far enough apart a search gives the earliest of what is due from
its start on, and nothing that is due is shown before the start or shown twice. -/
theorem nextN_least (he : e.Evaluable) (hz : z.Spaced)
    (hone : e.daysOfMonth.unspecified ≠ e.daysOfWeek.unspecified) {i : Instant} {start : Int}
    (hstart : z.startOfMinute? i = some start) (hshown : Representable (z.wallTime start).seconds)
    (n : Nat) : (∃ ts, e.nextN z i n = .ok ts ∧ Least {t | e.Due z start t} n ts) ∧
      (∀ t, e.next z i = .ok (some t) ↔ IsLeast {t | e.Due z start t} t) ∧
      (e.next z i = .ok none ↔ ∀ t, ¬ e.Due z start t) ∧
      (∀ t, e.Due z start t → z.wallTime start ≤ z.wallTime t.seconds) ∧
      (∀ t u, e.Due z start t → e.Due z start u →
        z.wallTime t.seconds = z.wallTime u.seconds → t = u) := by
  have hascending := scan_ascending (e := e) hz start
  have hmem (t : Instant) : t ∈ e.scan z start ↔ e.Due z start t := mem_scan_iff_due hz
  have hkeeps : ¬ e.BeginsOutOfRange z i := fun h => h.2 (Zone.keepsRange_of_shown hstart hshown)
  rw [nextN_eq_take he hkeeps, next_eq_head? he hkeeps, allFrom_eq_scan hone hstart]
  refine ⟨⟨_, rfl, .take hascending hmem n⟩, ?_, ?_, fun t => Due.wallTime_le hz,
    fun t u => Due.eq_of_wallTime_eq⟩
  · intro t
    rw [Except.ok.injEq]
    exact head?_eq_some_iff_isLeast hascending hmem
  · rw [Except.ok.injEq, List.head?_eq_none_iff, List.eq_nil_iff_forall_not_mem]
    simp only [hmem]

theorem nextN_least_lastNights :
    ∃ ts, lastNights.nextN .summerTime ⟨1711843230, 0⟩ 2 = .ok ts ∧
      Least {t | lastNights.Due .summerTime 1711843200 t} 2 ts := by
  have hstart : Zone.summerTime.startOfMinute? ⟨1711843230, 0⟩ = some 1711843200 := by decide
  have h := nextN_least (e := lastNights) (by decide) Zone.summerTime_spaced (by decide) hstart
    (by decide) 2
  exact h.1

end Expression

end Recurrence
