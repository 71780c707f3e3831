import Mathlib.Data.Set.Finite.Lattice
import Recurrence.Proofs.Schedule.Iteration

/-!
Iteration in every zone, however close its transitions. One search may come upon occurrences out of
the order of time there, but each step of an iteration searches anew, and the search after an
occurrence starts later than that occurrence. So the occurrences of an iteration ascend, and as no
clock shows the years after the last one early enough, they come to an end.
-/
namespace Recurrence

namespace Occurrences

variable {o : Occurrences} {ts : List Instant} {ending : Option ScheduleError}

/-- What the step gives that comes after `k` others. -/
def stepAfter (o : Occurrences) : Nat → Except ScheduleError (Option Instant)
  | 0 => o.step.map (·.1)
  | k + 1 => do
    let (_, rest) ← o.step
    rest.stepAfter k

theorem stepAfter_of_pending_none (h : o.pending = none) (k : Nat) : o.stepAfter k = .ok none := by
  have hstep := step_of_pending_none h
  induction k with
  | zero =>
      rw [stepAfter, hstep]
      rfl
  | succ k ih =>
      rw [stepAfter, hstep]
      exact ih

theorem Yields.stepAfter_of_getElem? (h : Yields o ts ending) {k : Nat} {t : Instant}
    (ht : ts[k]? = some t) : o.stepAfter k = .ok (some t) := by
  induction h generalizing k with
  | nil _ | fails _ => simp at ht
  | cons h _ ih =>
      cases k with
      | zero =>
          cases ht
          rw [stepAfter, h]
          rfl
      | succ k =>
          rw [stepAfter, h]
          exact ih ht

theorem Yields.stepAfter_of_length_le (h : Yields o ts ending) {k : Nat} (hk : ts.length ≤ k) :
    o.stepAfter k = unlessFault ending none := by
  induction h generalizing k with
  | nil h => exact stepAfter_of_pending_none h k
  | fails h =>
      cases k with
      | zero | succ k =>
          rw [stepAfter, h]
          rfl
  | cons h _ ih =>
      cases k with
      | zero => contradiction
      | succ k =>
          rw [stepAfter, h]
          exact ih (Nat.le_of_succ_le_succ hk)

/-- Once a step has given nothing, all steps after it give nothing. -/
theorem Yields.stepAfter_eq_none (h : Yields o ts ending) {j k : Nat} (hjk : j ≤ k)
    (hj : o.stepAfter j = .ok none) : o.stepAfter k = .ok none := by
  have hlength : ts.length ≤ j := by
    rw [← List.getElem?_eq_none_iff, Option.eq_none_iff_forall_ne_some]
    intro t ht
    rw [h.stepAfter_of_getElem? ht, Except.ok.injEq] at hj
    contradiction
  rw [h.stepAfter_of_length_le hlength] at hj
  rw [h.stepAfter_of_length_le (hlength.trans hjk), hj]

end Occurrences

/-- A clock comes to the end of the last year at some time. -/
theorem Zone.exists_end (z : Zone) :
    ∃ stop, ∀ t, (z.wallTime t).date.year ≤ lastYear → t ≤ stop := by
  obtain ⟨least, hleast⟩ : BddBelow {o | o ∈ z.offsets} := z.offsets.finite_toSet.bddBelow
  refine ⟨86400 * (Civil.dayNumber ⟨lastYear, 12, 31⟩ + 1) - least, ?_⟩
  intro t ht
  have hoffset : least ≤ z.offsetAt t := hleast (z.offsetAt_mem_offsets t)
  rw [Date.year_le_iff] at ht
  simp only [wallTime, WallTime.date] at ht
  omega

namespace Expression

variable {e : Expression} {z : Zone} {start : Int}

/-- What follows an occurrence is later, and due from the same start. -/
theorem Due.of_following (he : e.Evaluable) {t : Instant} (ht : e.Due z start t)
    {pending found : Option Instant}
    (hfound : (Occurrences.mk e z pending).following t = .ok found) {u : Instant} (hu : u ∈ found) :
    e.Due z start u ∧ t < u := by
  cases hlater : t.minuteLater? with
  | none =>
      simp only [Occurrences.following, hlater, Except.ok.injEq] at hfound
      cases hfound
      contradiction
  | some later =>
      rw [following_eq_next he hlater] at hfound
      rw [Instant.minuteLater?_eq ht.nanoseconds, Option.ite_none_right_eq_some,
        Option.some.injEq] at hlater
      obtain ⟨-, rfl⟩ := hlater
      cases eq_head?_of_next hfound
      obtain ⟨-, restart, hrestart, hmem⟩ := mem_allFrom.mp (List.mem_of_head? hu)
      have hdue := (mem_scan.mp hmem).1
      have hstart := Instant.mk_zero_le_iff.mp ht.start_le
      have hle := Instant.mk_zero_le_iff.mp hdue.start_le
      have hafter : t.seconds < restart := by
        rw [Zone.eq_of_startOfMinute? hrestart]
        exact (z.lt_restart t.seconds).1
      refine ⟨{ hdue with start_le := Instant.mk_zero_le_iff.mpr (by omega) }, ?_⟩
      exact Instant.lt_def.mpr (.inl (by omega))

/-- By induction on the time that is left after what is pending. -/
theorem exists_yields_of_lt (he : e.Evaluable) {stop : Int}
    (hstop : ∀ t, e.Due z start t → t.seconds ≤ stop) (left : Nat) {found : Option Instant}
    (hfound : ∀ t ∈ found, e.Due z start t ∧ stop - t.seconds < left) :
    ∃ ts ending, Occurrences.Yields ⟨e, z, found⟩ ts ending := by
  induction left generalizing found with
  | zero =>
      cases found with
      | none => exact ⟨[], none, .nil rfl⟩
      | some t =>
          obtain ⟨hdue, hleft⟩ := hfound t rfl
          have := hstop t hdue
          omega
  | succ left ih =>
      cases found with
      | none => exact ⟨[], none, .nil rfl⟩
      | some t =>
          obtain ⟨hdue, hleft⟩ := hfound t rfl
          have hstep := Occurrences.step_of_pending (o := ⟨e, z, some t⟩) rfl
          cases hfollowing : (Occurrences.mk e z (some t)).following t with
          | error err =>
              rw [hfollowing] at hstep
              exact ⟨[], some err, .fails hstep⟩
          | ok next =>
              rw [hfollowing] at hstep
              have hnext : ∀ u ∈ next, e.Due z start u ∧ stop - u.seconds < left := by
                intro u hu
                obtain ⟨hudue, htu⟩ := hdue.of_following he hfollowing hu
                have hnanoseconds := hudue.nanoseconds
                rw [Instant.lt_def] at htu
                exact ⟨hudue, by omega⟩
              obtain ⟨ts, ending, hts⟩ := ih hnext
              exact ⟨t :: ts, ending, .cons hstep hts⟩

theorem exists_yields (he : e.Evaluable) {found : Option Instant}
    (hfound : ∀ t ∈ found, e.Due z start t) :
    ∃ ts ending, Occurrences.Yields ⟨e, z, found⟩ ts ending := by
  obtain ⟨stop, hstop⟩ := z.exists_end
  have hdue (t : Instant) (ht : e.Due z start t) : t.seconds ≤ stop := hstop _ ht.year_le
  cases found with
  | none => exact ⟨[], none, .nil rfl⟩
  | some t =>
      apply exists_yields_of_lt he hdue ((stop - t.seconds).toNat + 1)
      intro u hu
      cases hu
      exact ⟨hfound t rfl, by omega⟩

/-- What the steps give is due, each search after an occurrence finds the next one, and in a zone of
offsets below a day no step fails. -/
structure Advances (e : Expression) (z : Zone) (start : Int) (ts : List Instant)
    (ending : Option ScheduleError) : Prop where
  due : ∀ t ∈ ts, e.Due z start t
  ascending : ts.Pairwise (· < ·)
  next : ∀ k t later, ts[k]? = some t → t.minuteLater? = some later →
    k + 1 < ts.length ∨ ending = none → e.next z later = .ok ts[k + 1]?
  ending_eq : (∀ o ∈ z.offsets, -86400 < o ∧ o < 86400) → ending = none

theorem advances_of_yields (he : e.Evaluable) {found : Option Instant} {ts : List Instant}
    {ending : Option ScheduleError} (hts : Occurrences.Yields ⟨e, z, found⟩ ts ending)
    (hfound : ∀ t ∈ found, e.Due z start t) : e.Advances z start ts ending := by
  generalize ho : Occurrences.mk e z found = o at hts
  induction hts generalizing found with
  | nil h => exact ⟨nofun, .nil, nofun, fun _ => rfl⟩
  | fails h =>
      subst ho
      refine ⟨nofun, .nil, nofun, ?_⟩
      intro hz
      cases found with
      | none =>
          rw [Occurrences.step_of_pending_none rfl] at h
          contradiction
      | some t =>
          rw [Occurrences.step_of_pending rfl, (hfound t rfl).following_eq he hz] at h
          contradiction
  | @cons o rest t ts ending h hs ih =>
      subst ho
      obtain ⟨hpending, following, rfl, hfollowing⟩ := Occurrences.pending_of_step h
      cases hpending
      have hfollowing := hfollowing t rfl
      have hdue := hfound t rfl
      have hrest := ih (fun u hu => (hdue.of_following he hfollowing hu).1) rfl
      refine ⟨List.forall_mem_cons.mpr ⟨hdue, hrest.due⟩, ?_, ?_, hrest.ending_eq⟩
      · apply List.isChain_iff_pairwise.mp
        rw [List.isChain_cons]
        refine ⟨?_, hrest.ascending.isChain⟩
        intro u hu
        have hhead : following = ts.head? :=
          hs.pending (.inl (List.length_pos_of_mem (List.mem_of_head? hu)))
        exact (hdue.of_following he hfollowing (hhead ▸ hu)).2
      · intro k u later hu hlater hend
        cases k with
        | zero =>
            cases hu
            have hhead : following = ts.head? :=
              hs.pending (hend.imp_left Nat.lt_of_succ_lt_succ)
            rw [← following_eq_next he hlater, hfollowing, hhead, List.getElem?_cons_succ,
              List.head?_eq_getElem?]
        | succ k => exact hrest.next k u later hu hlater (hend.imp_left Nat.lt_of_succ_lt_succ)

theorem due_of_head?_allFrom {i t : Instant} (hstart : z.startOfMinute? i = some start)
    (ht : (e.allFrom z i).head? = some t) : e.Due z start t := by
  obtain ⟨-, start', hstart', hmem⟩ := mem_allFrom.mp (List.mem_of_head? ht)
  cases hstart.symm.trans hstart'
  exact (mem_scan.mp hmem).1

/-- In any zone the occurrences of an iteration ascend with time, are due from its start on and are
finitely many. The steps after them give nothing. The one thing that may go wrong, and only in a
zone of offsets above a day, is that the search after an occurrence begins out of range. -/
theorem occurrences_advance (he : e.Evaluable) {i : Instant}
    (hstart : z.startOfMinute? i = some start) (hshown : Representable (z.wallTime start).seconds) :
    ∃ (o : Occurrences) (ts : List Instant) (ending : Option ScheduleError),
      e.occurrences z i = .ok o ∧ e.Advances z start ts ending ∧
      (∀ k t, ts[k]? = some t → o.stepAfter k = .ok (some t)) ∧
      (∀ k, ts.length ≤ k → o.stepAfter k = unlessFault ending none) ∧
      (∀ j k, j ≤ k → o.stepAfter j = .ok none → o.stepAfter k = .ok none) ∧
      (∀ k, k ≤ ts.length ∨ ending = none → ∃ run, o.take k = .ok run ∧ run.times = ts.take k ∧
        (run.ended = true ↔ ts.length < k)) ∧
      (0 < ts.length ∨ ending = none → e.next z i = .ok ts.head?) := by
  have hbegins : ¬ e.BeginsOutOfRange z i := fun h => h.2 (Zone.keepsRange_of_shown hstart hshown)
  have hfirst : ∀ t ∈ (e.allFrom z i).head?, e.Due z start t :=
    fun t ht => due_of_head?_allFrom hstart ht
  obtain ⟨ts, ending, hts⟩ := exists_yields he hfirst
  refine ⟨_, ts, ending, occurrences_eq he hbegins, advances_of_yields he hts hfirst,
    fun _ _ => hts.stepAfter_of_getElem?, fun _ => hts.stepAfter_of_length_le,
    fun _ _ => hts.stepAfter_eq_none, fun _ => hts.take, ?_⟩
  intro hne
  rw [next_eq_head? he hbegins]
  exact congrArg _ (hts.pending hne)

/-- The clock whose single searches leave the order of time. -/
theorem occurrences_advance_excursion : ∃ (o : Occurrences) (ts : List Instant),
    everyMinute.occurrences (.excursion 3540) ⟨1704067200, 0⟩ = .ok o ∧
      everyMinute.Advances (.excursion 3540) 1704067200 ts none ∧
      (∀ k t, ts[k]? = some t → o.stepAfter k = .ok (some t)) ∧
      ∀ k, ts.length ≤ k → o.stepAfter k = .ok none := by
  have hstart : (Zone.excursion 3540).startOfMinute? ⟨1704067200, 0⟩ = some 1704067200 := by decide
  obtain ⟨o, ts, ending, ho, hadvances, hsteps, hend, -⟩ :=
    occurrences_advance everyMinute_evaluable hstart (by decide)
  cases hadvances.ending_eq (by decide)
  exact ⟨o, ts, ho, hadvances, hsteps, hend⟩

end Expression

end Recurrence
