import Recurrence.Proofs.Schedule.Scan

/-!
The order of occurrences. A search goes along the clock, and so its occurrences ascend with what the
clock shows. They also ascend with time if and only if a clock that is put back shows nothing that
it has left out before.
-/
namespace Recurrence

/-- A whole minute of a year in which occurrences are sought. -/
structure WallTime.Sought (w : WallTime) : Prop where
  second : w.second = 0
  year_nonneg : 0 ≤ w.date.year
  year_le : w.date.year ≤ lastYear

namespace Zone

/-- Once the clock was put back behind a minute that it has shown, up to that minute it shows only
minutes that it has shown before. -/
def Retraces (z : Zone) : Prop := ∀ t u, t < u → (z.wallTime t).Sought → (z.wallTime u).Sought →
  z.wallTime u < z.wallTime t → ¬ z.IsFirstReading u

theorem retraces {z : Zone} (h : z.transitions.IsChain Transition.Onward) : z.Retraces := by
  intro t u htu _ _ hlt hfirst
  obtain ⟨v, hvt, hv⟩ := exists_earlier_reading h htu.le hlt
  have := hfirst v hv
  omega

theorem exists_isFirstReading (z : Zone) (t : Int) :
    ∃ v ≤ t, z.IsFirstReading v ∧ z.wallTime v = z.wallTime t := by
  have hne : z.earliest? (z.wallTime t) ≠ none := by
    rw [earliest?, ne_eq, List.min?_eq_none_iff]
    exact List.ne_nil_of_mem (mem_readings.mpr rfl)
  obtain ⟨v, hv⟩ := Option.ne_none_iff_exists'.mp hne
  obtain ⟨hshown, hfirst⟩ := earliest?_eq_some_iff.mp hv
  exact ⟨v, hfirst t hshown.symm, hfirst, hshown⟩

/-- A clock that is put forward by an hour at 2024-01-01T00:01:00 and back some seconds later. -/
def excursion (length : Int) : Zone where
  base := 0
  transitions := [⟨1704067260, 3600⟩, ⟨1704067260 + length, 0⟩]

end Zone

namespace Expression

variable {e : Expression} {z : Zone}

theorem sought_of_mem_scan {start : Int} {t : Instant} (h : t ∈ e.scan z start) :
    (z.wallTime t.seconds).Sought ∧ z.IsFirstReading t.seconds := by
  obtain ⟨w, hw, ht⟩ := List.mem_filterMap.mp h
  obtain ⟨rfl, hfirst, -, -, hholds⟩ := onMinute?_eq_some_iff.mp ht
  obtain ⟨hsecond, -, hyear⟩ := WallTime.mem_minutesFrom.mp hw
  exact ⟨⟨hsecond, year_nonneg_of_holdsOn (holdsAt_eq_ok_iff.mp hholds).2, hyear⟩, hfirst⟩

theorem scan_wallTime_ascending (start : Int) :
    (e.scan z start).Pairwise fun t u => z.wallTime t.seconds < z.wallTime u.seconds := by
  rw [scan, List.pairwise_filterMap]
  apply (z.wallTime start).minutesFrom_ascending.imp
  intro v w hvw t ht u hu
  obtain ⟨rfl, -⟩ := onMinute?_eq_some_iff.mp ht
  obtain ⟨rfl, -⟩ := onMinute?_eq_some_iff.mp hu
  exact hvw

theorem scan_ascending_of_retraces (hz : z.Retraces) (start : Int) :
    (e.scan z start).Pairwise (· < ·) := by
  apply (scan_wallTime_ascending start).imp_of_mem
  intro t u ht hu hlt
  obtain ⟨htsought, htfirst⟩ := sought_of_mem_scan ht
  obtain ⟨husought, -⟩ := sought_of_mem_scan hu
  apply Instant.lt_def.mpr
  left
  by_contra hle
  obtain heq | hut := (Int.not_lt.mp hle).eq_or_lt
  · rw [heq] at hlt
    exact lt_irrefl _ hlt
  · exact hz u.seconds t.seconds hut husought htsought hlt htfirst

/-- What holds along every walk of the clock holds along all that searches come to. -/
theorem allFrom_pairwise {R : Instant → Instant → Prop} (h : ∀ start, (e.scan z start).Pairwise R)
    (i : Instant) : (e.allFrom z i).Pairwise R := by
  rw [allFrom]
  split
  · exact h _
  · exact .nil

theorem nextN_pairwise {R : Instant → Instant → Prop} (h : ∀ start, (e.scan z start).Pairwise R)
    {i : Instant} {n : Nat} {ts : List Instant} (hts : e.nextN z i n = .ok ts) :
    ts.Pairwise R := by
  rw [eq_take_of_nextN hts]
  exact (allFrom_pairwise h i).sublist (List.take_sublist n _)

def everyMinute : Expression where
  minutes := .single .all
  hours := .single .all
  daysOfMonth := .single (.numeric .all)
  months := .single (.numeric .all)
  daysOfWeek := .single .unspecified
  years := .single .all

theorem everyMinute_evaluable : everyMinute.Evaluable := by decide

theorem everyMinute_holdsAt {t : Instant} (h : (z.wallTime t.seconds).Sought) :
    everyMinute.holdsAt z t = .ok true := by
  rw [holdsAt_iff_admits everyMinute_evaluable h.year_le]
  simp only [admits, h.year_nonneg, decide_true, Bool.and_true]
  rfl

/-- Offsets of less than a day leave a start from which a search comes upon all that is sought. -/
theorem exists_early_start (hz : ∀ o ∈ z.offsets, -86400 < o ∧ o < 86400) :
    ∃ i start, z.startOfMinute? i = some start ∧ Representable (z.wallTime start).seconds ∧
      ∀ t, (z.wallTime t).Sought → start ≤ t ∧ z.wallTime start ≤ z.wallTime t := by
  let i : Instant := ⟨86400 * (-719528 - 2), 0⟩
  let start : Int := i.seconds - (z.wallTime i.seconds).second
  have hsecond : (z.wallTime i.seconds).second < 60 := by
    simp only [WallTime.second]
    omega
  have hoffset := hz _ (z.offsetAt_mem_offsets start)
  have hrepresentable : Representable start ∧ Representable (z.wallTime start).seconds := by
    simp only [representable_iff, Zone.wallTime, start, i] at *
    omega
  have hstart : z.startOfMinute? i = some start :=
    (z.startOfMinute?_eq i).trans (if_pos hrepresentable.1)
  refine ⟨i, start, hstart, hrepresentable.2, ?_⟩
  intro t ht
  have hyear := (Date.year_nonneg_iff _).mp ht.year_nonneg
  have hoffset' := hz _ (z.offsetAt_mem_offsets t)
  simp only [WallTime.le_def, Zone.wallTime, WallTime.date, start, i] at *
  omega

theorem mem_scan_everyMinute {start t : Int} (ht : (z.wallTime t).Sought)
    (hfirst : z.IsFirstReading t) (hstart : start ≤ t)
    (hshown : z.wallTime start ≤ z.wallTime t) : ⟨t, 0⟩ ∈ everyMinute.scan z start := by
  apply List.mem_filterMap.mpr
  refine ⟨z.wallTime t, WallTime.mem_minutesFrom.mpr ⟨ht.second, hshown, ht.year_le⟩, ?_⟩
  exact onMinute?_eq_some_iff.mpr
    ⟨rfl, hfirst, rfl, hstart, everyMinute_holdsAt ht⟩

/-- If the searches for every minute ascend with time, so do the first readings. -/
theorem retraces_of_ascending (hz : ∀ o ∈ z.offsets, -86400 < o ∧ o < 86400)
    (h : ∀ i n ts, everyMinute.nextN z i n = .ok ts → ts.Pairwise (· < ·)) : z.Retraces := by
  intro t u htu ht hu hlt hfirst
  obtain ⟨v, hvt, hvfirst, hshown⟩ := z.exists_isFirstReading t
  obtain ⟨i, start, hstart, hrepresentable, hafter⟩ := exists_early_start hz
  have hkeeps := Zone.keepsRange_of_shown hstart hrepresentable
  have hscan : (everyMinute.scan z start).Pairwise (· < ·) := by
    apply h i (everyMinute.scan z start).length
    rw [nextN_eq_take everyMinute_evaluable fun hbegins => hbegins.2 hkeeps,
      allFrom_eq_scan (by decide) hstart, List.take_length]
  rw [← hshown] at ht hlt
  have huv := rel_of_ascending (scan_wallTime_ascending start) hscan
    (mem_scan_everyMinute hu hfirst (hafter u hu).1 (hafter u hu).2)
    (mem_scan_everyMinute ht hvfirst (hafter v ht).1 (hafter v ht).2) hlt
  rw [Instant.lt_def] at huv
  simp only at huv
  omega

/-- The occurrences of a search ascend with what the clock shows. Those of every search ascend with
time, too, if and only if the clock retraces what it has shown whenever it is put back. It does so
if no transition leads to an earlier time of the clock than the transition before. -/
theorem nextN_ascending_iff (hz : ∀ o ∈ z.offsets, -86400 < o ∧ o < 86400) :
    (∀ e i n ts, nextN e z i n = .ok ts →
        ts.Pairwise fun t u => z.wallTime t.seconds < z.wallTime u.seconds) ∧
      ((∀ e i n ts, nextN e z i n = .ok ts → ts.Pairwise (· < ·)) ↔ z.Retraces) ∧
      (z.transitions.IsChain Transition.Onward → z.Retraces) := by
  refine ⟨fun _ _ _ _ => nextN_pairwise scan_wallTime_ascending, ?_, Zone.retraces⟩
  constructor
  · intro h
    exact retraces_of_ascending hz (h everyMinute)
  · intro h e i n ts
    exact nextN_pairwise (scan_ascending_of_retraces h)

theorem nextN_ascending_iff_excursion :
    (∀ o ∈ (Zone.excursion 3600).offsets, -86400 < o ∧ o < 86400) ∧ (Zone.excursion 3600).Retraces ∧
      ∀ e i n ts, nextN e (Zone.excursion 3600) i n = .ok ts → ts.Pairwise (· < ·) := by
  have hoffsets : ∀ o ∈ (Zone.excursion 3600).offsets, -86400 < o ∧ o < 86400 := by decide
  have honward : (Zone.excursion 3600).transitions.IsChain Transition.Onward := by
    simp [Zone.excursion, Transition.Onward]
  have h := nextN_ascending_iff hoffsets
  exact ⟨hoffsets, h.2.2 honward, h.2.1.mpr (h.2.2 honward)⟩

/-- A clock that is put back 59 minutes after it was put forward by an hour has left out the minute
that it shows then, and has shown the next one. -/
theorem not_nextN_ascending : ¬ ∀ (e : Expression) (z : Zone) (i : Instant) (n : Nat)
    (ts : List Instant), (∀ o ∈ z.offsets, -86400 < o ∧ o < 86400) →
      z.transitions.Pairwise (·.start < ·.start) → e.nextN z i n = .ok ts →
      ts.Pairwise (· < ·) := by
  intro h
  have hfound : everyMinute.nextN (Zone.excursion 3540) ⟨1704067200, 0⟩ 3 =
      .ok [⟨1704067200, 0⟩, ⟨1704070800, 0⟩, ⟨1704067260, 0⟩] := by decide +kernel
  have hascending := h everyMinute (Zone.excursion 3540) _ 3 _ (by decide) (by decide) hfound
  revert hascending
  decide

end Expression

end Recurrence
