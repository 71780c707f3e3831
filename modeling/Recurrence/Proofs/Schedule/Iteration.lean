import Recurrence.Proofs.Schedule.Due

/-!
Iteration against a single search. Every step of an iteration searches anew, from the minute after
the last occurrence. In a zone whose transitions are far enough apart that search starts after this
occurrence and not after the one that follows, wherever the offset changes in between.
-/
namespace Recurrence

namespace Zone

theorem eq_of_startOfMinute? {z : Zone} {i : Instant} {start : Int}
    (h : z.startOfMinute? i = some start) :
    start = i.seconds - (z.wallTime i.seconds).second := by
  rw [startOfMinute?_eq, Option.ite_none_right_eq_some, Option.some.injEq] at h
  exact h.2.symm

/-- The second of UTC from which a search starts one minute after `t`. -/
def restart (z : Zone) (t : Int) : Int := t + 60 - (z.wallTime (t + 60)).second

theorem lt_restart (z : Zone) (t : Int) : t < z.restart t ∧ z.restart t ≤ t + 60 := by
  simp only [restart, WallTime.second]
  omega

/-- An offset that changes by part of a minute before the next whole minute `u` of the clock stays
as it is up to the minute after `t`. -/
theorem Spaced.restart_le {z : Zone} (hz : z.Spaced) {t u : Int} (htu : t < u)
    (ht : (z.wallTime t).second = 0) (hu : (z.wallTime u).second = 0) : z.restart t ≤ u := by
  simp only [WallTime.second, wallTime] at ht hu
  simp only [restart, WallTime.second, wallTime]
  by_contra hlt
  by_cases hsame : z.offsetAt t = z.offsetAt u
  · omega
  · obtain ⟨c, hc, htc, hcu⟩ := exists_transition htu.le hsame
    have hlater : z.offsetAt u = z.offsetAt (t + 60) :=
      hz.offsetAt_eq_of_transition hc (by omega) (.inr (by omega))
    omega

end Zone

namespace Occurrences

variable {o rest : Occurrences} {t : Instant} {ts : List Instant} {ending : Option ScheduleError}

theorem step_of_pending_none (h : o.pending = none) : o.step = .ok (none, o) := by
  simp only [step, h]

theorem step_of_pending (h : o.pending = some t) :
    o.step = (o.following t).map fun pending => (some t, { o with pending }) := by
  simp only [step, h]
  rfl

theorem pending_of_step {found : Option Instant} (h : o.step = .ok (found, rest)) :
    o.pending = found ∧
      ∃ pending, rest = { o with pending } ∧ ∀ t ∈ found, o.following t = .ok pending := by
  cases hpending : o.pending with
  | none =>
      rw [step_of_pending_none hpending] at h
      cases h
      exact ⟨rfl, o.pending, rfl, nofun⟩
  | some t =>
      rw [step_of_pending hpending] at h
      cases hfollowing : o.following t with
      | error err =>
          rw [hfollowing] at h
          contradiction
      | ok pending =>
          rw [hfollowing] at h
          cases h
          refine ⟨rfl, pending, rfl, ?_⟩
          intro u hu
          cases hu
          exact hfollowing

/-- The steps of an iteration give these occurrences, and after them either nothing any more or an
error. -/
inductive Yields : Occurrences → List Instant → Option ScheduleError → Prop
  | nil {o : Occurrences} (h : o.pending = none) : Yields o [] none
  | fails {o : Occurrences} {err : ScheduleError} (h : o.step = .error err) :
      Yields o [] (some err)
  | cons {o rest : Occurrences} {t : Instant} {ts : List Instant} {ending : Option ScheduleError}
      (h : o.step = .ok (some t, rest)) (hs : Yields rest ts ending) : Yields o (t :: ts) ending

/-- Unless the first step fails, what it gives is what is pending. -/
theorem Yields.pending (h : Yields o ts ending) (hne : 0 < ts.length ∨ ending = none) :
    o.pending = ts.head? := by
  cases h with
  | nil h => exact h
  | fails _ => simp at hne
  | cons h _ => exact (pending_of_step h).1

/-- Any number of steps before one that fails gives the first of the occurrences. -/
theorem Yields.take (h : Yields o ts ending) {k : Nat} (hk : k ≤ ts.length ∨ ending = none) :
    ∃ run, o.take k = .ok run ∧ run.times = ts.take k ∧ (run.ended = true ↔ ts.length < k) := by
  induction h generalizing k with
  | nil h =>
      cases k with
      | zero => exact ⟨_, rfl, by simp⟩
      | succ k =>
          refine ⟨_, by rw [Occurrences.take, step_of_pending_none h]; rfl, ?_⟩
          simp
  | fails h =>
      obtain rfl : k = 0 := by simpa using hk
      exact ⟨_, rfl, by simp⟩
  | cons h _ ih =>
      cases k with
      | zero => exact ⟨_, rfl, by simp⟩
      | succ k =>
          obtain ⟨run, hrun, htimes, hended⟩ := ih (hk.imp_left Nat.le_of_succ_le_succ)
          refine ⟨_, by rw [Occurrences.take, h]; simp only [bind, Except.bind, hrun]; rfl, ?_⟩
          simp [htimes, hended]

end Occurrences

namespace Expression

variable {e : Expression} {z : Zone}

/-- No error of a field is lost between two occurrences. -/
theorem following_eq_next (he : e.Evaluable) {pending : Option Instant} {t later : Instant}
    (h : t.minuteLater? = some later) :
    (Occurrences.mk e z pending).following t = e.next z later := by
  simp only [Occurrences.following, h]
  by_cases hbegins : e.BeginsOutOfRange z later
  · simp only [next_of_beginsOutOfRange he hbegins]
  · simp only [next_eq_head? he hbegins]

/-- What lies within two days of an occurrence is representable. -/
theorem Due.representable (hz : ∀ o ∈ z.offsets, -86400 < o ∧ o < 86400) {start s : Int}
    {t : Instant} (h : e.Due z start t) (hlow : t.seconds - 172800 ≤ s)
    (hhigh : s ≤ t.seconds + 172800) : Representable s := by
  have hoffset := hz _ (z.offsetAt_mem_offsets t.seconds)
  have hfirst := year_nonneg_of_holdsOn (holdsAt_eq_ok_iff.mp h.holds).2
  have hbounds := WallTime.seconds_bounds hfirst h.year_le
  simp only [Zone.wallTime] at hbounds
  rw [representable_iff]
  omega

theorem Due.minuteLater?_eq (hz : ∀ o ∈ z.offsets, -86400 < o ∧ o < 86400) {start : Int}
    {t : Instant} (h : e.Due z start t) : t.minuteLater? = some ⟨t.seconds + 60, 0⟩ := by
  rw [Instant.minuteLater?_eq h.nanoseconds]
  exact if_pos (h.representable hz (by omega) (by omega))

theorem Due.startOfMinute?_later (hz : ∀ o ∈ z.offsets, -86400 < o ∧ o < 86400) {start : Int}
    {t : Instant} (h : e.Due z start t) :
    z.startOfMinute? ⟨t.seconds + 60, 0⟩ = some (z.restart t.seconds) := by
  have hrestart := z.lt_restart t.seconds
  rw [Zone.startOfMinute?_eq]
  exact if_pos (h.representable hz (s := z.restart t.seconds) (by omega) (by omega))

/-- The clock shows a representable time where the search after an occurrence begins. -/
theorem Due.keepsRange_later (hz : ∀ o ∈ z.offsets, -86400 < o ∧ o < 86400) {start : Int}
    {t : Instant} (h : e.Due z start t) : z.KeepsRange ⟨t.seconds + 60, 0⟩ := by
  have hrestart := z.lt_restart t.seconds
  have hoffset := hz _ (z.offsetAt_mem_offsets (z.restart t.seconds))
  apply Zone.keepsRange_of_shown (h.startOfMinute?_later hz)
  apply h.representable hz
  all_goals
    simp only [Zone.wallTime]
    omega

/-- In a zone of offsets below a day the search after an occurrence does not fail. -/
theorem Due.following_eq (he : e.Evaluable) (hz : ∀ o ∈ z.offsets, -86400 < o ∧ o < 86400)
    {start : Int} {t : Instant} (h : e.Due z start t) (pending : Option Instant) :
    (Occurrences.mk e z pending).following t =
      .ok (e.allFrom z ⟨t.seconds + 60, 0⟩).head? := by
  rw [following_eq_next he (h.minuteLater?_eq hz)]
  exact next_eq_head? he fun hbegins => hbegins.2 (h.keepsRange_later hz)

/-- From the minute after an occurrence on, what is due is what was due after it. -/
theorem due_restart_iff (hz : z.Spaced) {start : Int} {t u : Instant} (ht : e.Due z start t) :
    e.Due z (z.restart t.seconds) u ↔ e.Due z start u ∧ t < u := by
  have hrestart := z.lt_restart t.seconds
  have hstart := Instant.mk_zero_le_iff.mp ht.start_le
  constructor
  · intro hu
    have hle := Instant.mk_zero_le_iff.mp hu.start_le
    refine ⟨{ hu with start_le := Instant.mk_zero_le_iff.mpr (by omega) }, ?_⟩
    exact Instant.lt_def.mpr (.inl (by omega))
  · intro hu
    obtain ⟨hu, htu⟩ := hu
    have hseconds : t.seconds < u.seconds := by
      have hnanoseconds := hu.nanoseconds
      rw [Instant.lt_def] at htu
      omega
    exact { hu with
      start_le := Instant.mk_zero_le_iff.mpr (hz.restart_le hseconds ht.second hu.second) }

theorem due_of_mem_allFrom (hz : z.Spaced) {i t : Instant} (h : t ∈ e.allFrom z i) :
    e.daysOfMonth.unspecified ≠ e.daysOfWeek.unspecified ∧
      ∃ start, z.startOfMinute? i = some start ∧ e.Due z start t := by
  simpa only [mem_allFrom, mem_scan_iff_due hz] using h

/-- The search that a step makes finds what the search before it would have found next. -/
theorem allFrom_later (hz : z.Spaced) {i t : Instant} {ts : List Instant}
    (h : e.allFrom z i = t :: ts) : e.allFrom z ⟨t.seconds + 60, 0⟩ = ts := by
  obtain ⟨hone, start, hstart, hdue⟩ := due_of_mem_allFrom hz (h ▸ List.mem_cons_self)
  have hscan := (allFrom_eq_scan hone hstart).symm.trans h
  have hascending := scan_ascending (e := e) hz start
  rw [hscan] at hascending
  rw [allFrom_eq_scan hone (hdue.startOfMinute?_later hz.offset_lt)]
  apply List.Pairwise.eq_of_mem_iff (scan_ascending hz _) hascending.tail
  intro u
  rw [mem_scan_iff_due hz, due_restart_iff hz hdue, ← mem_scan_iff_due hz, hscan, List.mem_cons]
  constructor
  · intro hu
    obtain ⟨rfl | hu, htu⟩ := hu
    · exact absurd htu (lt_irrefl u)
    · exact hu
  · intro hu
    exact ⟨.inr hu, List.rel_of_pairwise_cons hascending hu⟩

/-- By induction on what a search would still find: this is what the steps still give. -/
theorem yields_allFrom (he : e.Evaluable) (hz : z.Spaced) {i : Instant} {ts : List Instant}
    (h : e.allFrom z i = ts) : Occurrences.Yields ⟨e, z, ts.head?⟩ ts none := by
  induction ts generalizing i with
  | nil => exact .nil rfl
  | cons t ts ih =>
      obtain ⟨-, start, -, hdue⟩ := due_of_mem_allFrom hz (h ▸ List.mem_cons_self)
      have hrest := allFrom_later hz h
      have hstep := Occurrences.step_of_pending (o := ⟨e, z, some t⟩) rfl
      rw [hdue.following_eq he hz.offset_lt, hrest] at hstep
      exact .cons hstep (ih hrest)

theorem occurrences_eq (he : e.Evaluable) {z : Zone} {i : Instant} (h : ¬ e.BeginsOutOfRange z i) :
    e.occurrences z i = .ok ⟨e, z, (e.allFrom z i).head?⟩ := by
  rw [occurrences, next_eq_head? he h]
  rfl

theorem occurrences_of_beginsOutOfRange (he : e.Evaluable) {z : Zone} {i : Instant}
    (h : e.BeginsOutOfRange z i) : e.occurrences z i = .error .outOfRange := by
  rw [occurrences, next_of_beginsOutOfRange he h]
  rfl

/-- In a zone whose transitions are far enough apart, the first steps of an iteration give what one
search for as many occurrences gives, and one of them gives nothing if and only if there are fewer.
No step fails, unless the iteration begins out of range as the search does. -/
theorem occurrences_take_eq_nextN (he : e.Evaluable) (hz : z.Spaced) (i : Instant) :
    (¬ e.BeginsOutOfRange z i → ∃ o, e.occurrences z i = .ok o ∧ ∀ k, ∃ run, o.take k = .ok run ∧
      e.nextN z i k = .ok run.times ∧
      (run.ended = true ↔ ∀ m ts, e.nextN z i m = .ok ts → ts.length < k)) ∧
    (e.BeginsOutOfRange z i → e.occurrences z i = .error .outOfRange ∧
      ∀ k, 0 < k → e.nextN z i k = .error .outOfRange) := by
  refine ⟨?_, fun h => ⟨occurrences_of_beginsOutOfRange he h,
    fun _ => nextN_of_beginsOutOfRange he h⟩⟩
  intro h
  refine ⟨_, occurrences_eq he h, ?_⟩
  intro k
  obtain ⟨run, hrun, htimes, hended⟩ := (yields_allFrom he hz (i := i) rfl).take (k := k) (.inr rfl)
  refine ⟨run, hrun, ?_⟩
  simp only [nextN_eq_take he h, htimes, hended, Except.ok.injEq, true_and]
  constructor
  · intro hlength m ts hts
    rw [← hts, List.length_take]
    omega
  · intro h
    have hlength := h (e.allFrom z i).length _ rfl
    rwa [List.take_length] at hlength

theorem occurrences_take_eq_nextN_lastNights : ∃ o run,
    lastNights.occurrences .summerTime ⟨1711843230, 0⟩ = .ok o ∧ o.take 2 = .ok run ∧
      lastNights.nextN .summerTime ⟨1711843230, 0⟩ 2 = .ok run.times := by
  have hstart : Zone.summerTime.startOfMinute? ⟨1711843230, 0⟩ = some 1711843200 := by decide
  have hkeeps := Zone.keepsRange_of_shown hstart (by decide)
  obtain ⟨o, ho, h⟩ := (occurrences_take_eq_nextN (e := lastNights) (by decide)
    Zone.summerTime_spaced ⟨1711843230, 0⟩).1 fun hbegins => hbegins.2 hkeeps
  obtain ⟨run, hrun, htimes, -⟩ := h 2
  exact ⟨o, run, ho, hrun, htimes⟩

end Expression

end Recurrence
