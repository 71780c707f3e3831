import Recurrence.Proofs.Schedule.Progress
import Recurrence.Proofs.Schedule.Representable

/-!
Faults of an expression. Testing it at an instant, searching from one and beginning an iteration
there report the first stride whose step is zero, and no other error. Hence no search reports an
error once it has begun, and no step of an iteration loses one. What may happen besides is that the
clock is out of range. A search tests all fields before it reads the clock, so that a fault is
reported in any case, but a test at an instant reads the clock first.
-/
namespace Recurrence

namespace Occurrences

theorem take_keeps {o : Occurrences} {k : Nat} {run : Run} (h : o.take k = .ok run) :
    run.rest.expression = o.expression ∧ run.rest.zone = o.zone := by
  induction k generalizing o run with
  | zero =>
      cases h
      exact ⟨rfl, rfl⟩
  | succ k ih =>
      rw [take] at h
      obtain ⟨⟨found, rest⟩, hstep, h⟩ := bind_eq_ok.mp h
      obtain ⟨-, pending, rfl, -⟩ := pending_of_step hstep
      cases found with
      | none =>
          cases h
          exact ⟨rfl, rfl⟩
      | some t =>
          obtain ⟨run', hrun, h⟩ := bind_eq_ok.mp h
          cases h
          have hrest := ih hrun
          exact hrest

end Occurrences

namespace Expression

variable {e : Expression} {z : Zone} {i : Instant}

theorem fault?_eq_some_iff {err : EvaluationError} : e.fault? = some err ↔
    ∃ before s after, e.strides = before ++ s :: after ∧ (∀ r ∈ before, r.step ≠ 0) ∧ s.step = 0 ∧
      err = .zeroStep s := by
  rw [fault?, Option.map_eq_some_iff]
  simp only [List.find?_eq_some_iff_append, decide_eq_true_eq]
  constructor
  · intro h
    obtain ⟨s, ⟨hzero, before, after, hstrides, hbefore⟩, rfl⟩ := h
    exact ⟨before, s, after, hstrides, by simpa using hbefore, hzero, rfl⟩
  · intro h
    obtain ⟨before, s, after, hstrides, hbefore, hzero, rfl⟩ := h
    exact ⟨s, ⟨hzero, before, after, hstrides, by simpa using hbefore⟩, rfl⟩

theorem holdsAt_eq_error_iff {err : EvaluationError} : e.holdsAt z i = .error (.evaluation err) ↔
    Representable (z.wallTime i.seconds).seconds ∧ e.fault? = some err := by
  by_cases h : Representable (z.wallTime i.seconds).seconds
  · rw [holdsAt_of_representable h, holdsOn_eq]
    cases e.fault? <;> simp [unlessFault, Except.mapError, h]
  · simp [holdsAt_of_not_representable h, h]

theorem holdsAt_eq_outOfRange_iff :
    e.holdsAt z i = .error .outOfRange ↔ ¬ Representable (z.wallTime i.seconds).seconds := by
  by_cases h : Representable (z.wallTime i.seconds).seconds
  · rw [holdsAt_of_representable h]
    cases e.holdsOn (z.wallTime i.seconds) <;> simp [Except.mapError, h]
  · simp [holdsAt_of_not_representable h, h]

/-- A search for any number of occurrences, none included, reports the same fault. -/
theorem nextN_eq_error_iff {n : Nat} {err : EvaluationError} :
    e.nextN z i n = .error (.evaluation err) ↔ e.fault? = some err := by
  obtain ⟨err', hfault, h⟩ | ⟨hfault, -, -, h⟩ | ⟨hfault, -, h⟩ := nextN_cases e z i n <;>
    simp [h, hfault]

/-- The next occurrence is sought like the first one, and fails alike. -/
theorem next_eq_error_iff {err : ScheduleError} :
    e.next z i = .error err ↔ e.nextN z i 1 = .error err := bind_pure_eq_error

theorem occurrences_eq_error_iff {err : ScheduleError} :
    e.occurrences z i = .error err ↔ e.nextN z i 1 = .error err :=
  bind_pure_eq_error.trans next_eq_error_iff

theorem evaluable_of_occurrences {o : Occurrences} (h : e.occurrences z i = .ok o) :
    e.Evaluable := by
  rw [← fault?_eq_none_iff, Option.eq_none_iff_forall_ne_some]
  intro err hfault
  rw [occurrences_eq_error_iff.mpr (nextN_of_fault hfault z i 1)] at h
  contradiction

theorem eq_of_occurrences {o : Occurrences} (h : e.occurrences z i = .ok o) :
    o = ⟨e, z, (e.allFrom z i).head?⟩ := by
  obtain ⟨found, hfound, h⟩ := bind_eq_ok.mp h
  cases h
  rw [eq_head?_of_next hfound]

/-- Where an iteration could begin, each of its steps is the search from the next minute on, and
this search reports no error that would be lost. -/
theorem following_of_take {o : Occurrences} (h : e.occurrences z i = .ok o) {k : Nat}
    {run : Occurrences.Run} (hrun : o.take k = .ok run) {t later : Instant}
    (hlater : t.minuteLater? = some later) :
    run.rest.following t = e.next z later ∧
      ∀ err, e.next z later ≠ .error (.evaluation err) := by
  have he := evaluable_of_occurrences h
  refine ⟨?_, ?_⟩
  · obtain ⟨times, ended, ⟨expression, zone, pending⟩⟩ := run
    obtain ⟨hexpression, hzone⟩ := Occurrences.take_keeps hrun
    cases eq_of_occurrences h
    cases hexpression
    cases hzone
    exact following_eq_next he hlater
  · intro err herr
    have hfault := nextN_eq_error_iff.mp (next_eq_error_iff.mp herr)
    exact nomatch hfault.symm.trans (fault?_eq_none_iff.mpr he)

/-- In a zone of offsets below a day an iteration that could begin does not fail later. -/
theorem exists_take (hz : ∀ o ∈ z.offsets, -86400 < o ∧ o < 86400) {o : Occurrences}
    (h : e.occurrences z i = .ok o) (k : Nat) : ∃ run, o.take k = .ok run := by
  have he := evaluable_of_occurrences h
  obtain ⟨start, hfirst⟩ : ∃ start, ∀ t ∈ (e.allFrom z i).head?, e.Due z start t := by
    cases hstart : z.startOfMinute? i with
    | none => exact ⟨0, by simp [allFrom, hstart]⟩
    | some start => exact ⟨start, fun t ht => due_of_head?_allFrom hstart ht⟩
  obtain ⟨ts, ending, hts⟩ := exists_yields he hfirst
  cases (advances_of_yields he hts hfirst).ending_eq hz
  cases eq_of_occurrences h
  obtain ⟨run, hrun, -⟩ := hts.take (k := k) (.inr rfl)
  exact ⟨run, hrun⟩

/-- Searching and beginning an iteration report the first stride whose step is zero, and no error if
there is none; so does a test at an instant, unless the clock is out of range then. No search is
begun in the first case; in the second none reports an error, no step of an iteration loses one, and
all that may go wrong is that the clock is out of range at the instant or where the search begins.
-/
theorem error_iff_fault (e : Expression) (z : Zone) (i j : Instant) (n : Nat) :
    (∀ err, e.fault? = some err ↔ ∃ before s after, e.strides = before ++ s :: after ∧
        (∀ r ∈ before, r.step ≠ 0) ∧ s.step = 0 ∧ err = .zeroStep s ∧
        err.detail = "zero step in repeating pattern `" ++ String.ofList (Lexeme.join s.lexemes) ++
          "`") ∧
      ((∀ err, e.holdsAt z j = .error (.evaluation err) ↔
          Representable (z.wallTime j.seconds).seconds ∧ e.fault? = some err) ∧
        (e.holdsAt z j = .error .outOfRange ↔
          ¬ Representable (z.wallTime j.seconds).seconds)) ∧
      (∀ err, (e.next z i = .error (.evaluation err) ↔ e.fault? = some err) ∧
        (e.nextN z i n = .error (.evaluation err) ↔ e.fault? = some err) ∧
        (e.occurrences z i = .error (.evaluation err) ↔ e.fault? = some err)) ∧
      ((e.next z i = .error .outOfRange ↔ e.fault? = none ∧ e.BeginsOutOfRange z i) ∧
        (e.nextN z i n = .error .outOfRange ↔
          e.fault? = none ∧ 0 < n ∧ e.BeginsOutOfRange z i) ∧
        (e.occurrences z i = .error .outOfRange ↔ e.fault? = none ∧ e.BeginsOutOfRange z i)) ∧
      (e.fault? = none → ∀ selects, e.dayField? = some selects → ∀ start localStart m,
        ∃ ts, e.search selects z start localStart m = .ok ts) ∧
      ∀ o, e.occurrences z i = .ok o →
        (∀ k run, o.take k = .ok run → ∀ t later, t.minuteLater? = some later →
          run.rest.following t = e.next z later ∧
            ∀ err, e.next z later ≠ .error (.evaluation err)) ∧
        ((∀ o ∈ z.offsets, -86400 < o ∧ o < 86400) → ∀ k, ∃ run, o.take k = .ok run) := by
  have hone : e.nextN z i 1 = .error .outOfRange ↔ e.fault? = none ∧ e.BeginsOutOfRange z i := by
    rw [nextN_eq_outOfRange_iff, and_iff_right Nat.one_pos]
  refine ⟨?_, ⟨fun _ => holdsAt_eq_error_iff, holdsAt_eq_outOfRange_iff⟩,
    fun _ => ⟨next_eq_error_iff.trans nextN_eq_error_iff, nextN_eq_error_iff,
      occurrences_eq_error_iff.trans nextN_eq_error_iff⟩,
    ⟨next_eq_error_iff.trans hone, nextN_eq_outOfRange_iff, occurrences_eq_error_iff.trans hone⟩,
    ?_, fun o h => ⟨fun k run hrun t later => following_of_take h hrun,
      fun hz => exists_take hz h⟩⟩
  · intro err
    rw [fault?_eq_some_iff]
    constructor
    · intro h
      obtain ⟨before, s, after, hstrides, hbefore, hzero, rfl⟩ := h
      exact ⟨before, s, after, hstrides, hbefore, hzero, rfl, rfl⟩
    · intro h
      obtain ⟨before, s, after, hstrides, hbefore, hzero, herr, -⟩ := h
      exact ⟨before, s, after, hstrides, hbefore, hzero, herr⟩
  · intro hfault selects hselects start localStart m
    exact ⟨_, search_eq (fault?_eq_none_iff.mp hfault) hselects z start localStart m⟩

/-- Minutes that are counted in steps of zero. -/
def stalled : Expression := { everyMinute with minutes := .single (.stride ⟨false, 0, 0⟩) }

/-- At the first representable second a clock that is an hour slow is out of range, and the step of
zero is not reported. A search without faults breaks off half a minute later, where the clock has
just been put right. -/
theorem not_error_iff_fault :
    (¬ ∀ (e : Expression) (z : Zone) (j : Instant), (∀ o ∈ z.offsets, -86400 < o ∧ o < 86400) →
      z.transitions.Pairwise (·.start < ·.start) → Representable j.seconds →
      ∀ err, e.holdsAt z j = .error (.evaluation err) ↔ e.fault? = some err) ∧
    ¬ ∀ (e : Expression) (z : Zone) (i : Instant) (n : Nat),
      (∀ o ∈ z.offsets, -86400 < o ∧ o < 86400) →
      z.transitions.Pairwise (·.start < ·.start) → z.Represents i →
      e.fault? = none → ∃ ts, e.nextN z i n = .ok ts := by
  constructor
  · intro h
    have hreported := (h stalled (.fixed (-3600)) ⟨-8334601228800, 0⟩ (by decide) (by decide)
      (by decide) (.zeroStep ⟨false, 0, 0⟩)).mpr (by decide)
    rw [holdsAt_of_not_representable (by decide)] at hreported
    contradiction
  · intro h
    obtain ⟨ts, hts⟩ := h everyMinute .putRight ⟨-8334601228770, 0⟩ 1 (by decide) (by decide)
      (by decide) (by decide)
    have hbegins : everyMinute.BeginsOutOfRange .putRight ⟨-8334601228770, 0⟩ :=
      ⟨by decide, by decide⟩
    rw [nextN_of_beginsOutOfRange everyMinute_evaluable hbegins Nat.one_pos] at hts
    contradiction

end Expression

end Recurrence
