import Recurrence.Proofs.Schedule.Alike
import Recurrence.Proofs.Schedule.Iteration

/-!
What a search makes of the instant from which it is asked for. Of two instants the later one may be
taken back further, to before the minute of the earlier one, if the offset changes by part of a
minute between them; but no whole minute of the clock lies in between, so that a search from a later
instant finds nothing earlier. Where the clock is never changed, only the minute that it shows
counts, whatever the offset.
-/
namespace Recurrence

namespace WallTime

/-- The same date, hour and minute. -/
structure SameMinute (v w : WallTime) : Prop where
  year : v.date.year = w.date.year
  month : v.date.month = w.date.month
  day : v.date.day = w.date.day
  hour : v.hour = w.hour
  minute : v.minute = w.minute

theorem seconds_eq (w : WallTime) :
    w.seconds = 86400 * w.date.dayNumber + 3600 * w.hour + 60 * w.minute + w.second :=
  congrArg seconds w.ofDate_fields.symm

namespace SameMinute

variable {v w : WallTime} (h : SameMinute v w)

include h

theorem date_eq : v.date = w.date := by
  apply Date.dayNumber_injective
  rw [← Date.dayNumber_fields, h.year, h.month, h.day, Date.dayNumber_fields]

theorem sub_second_eq : v.seconds - v.second = w.seconds - w.second := by
  rw [v.seconds_eq, w.seconds_eq, h.date_eq, h.hour, h.minute]
  omega

theorem representable (hv : Representable v.seconds) : Representable w.seconds := by
  apply representable_of_sameMinute _ hv
  have hsub := h.sub_second_eq
  simp only [second] at hsub
  omega

theorem symm : SameMinute w v :=
  ⟨h.year.symm, h.month.symm, h.day.symm, h.hour.symm, h.minute.symm⟩

end SameMinute

end WallTime

namespace Zone

/-- What the clock shows at an instant, and the nanoseconds after that second. -/
def shown (z : Zone) (t : Instant) : WallTime × Nat := (z.wallTime t.seconds, t.nanoseconds)

/-- Where `t` is taken back to a whole minute `u` of the clock or to before it, so is `s`. -/
theorem Spaced.sub_second_le {z : Zone} (hz : z.Spaced) {s t u : Int} (hst : s ≤ t)
    (hu : (z.wallTime u).second = 0) (htu : t - (z.wallTime t).second ≤ u) :
    s - (z.wallTime s).second ≤ u := by
  simp only [WallTime.second, wallTime] at hu htu ⊢
  by_contra hlt
  by_cases hsame : z.offsetAt u = z.offsetAt s
  · rw [hsame] at hu
    omega
  · -- The clock is changed between `u` and `s`, and so not again up to `t`.
    obtain ⟨c, hc, huc, hcs⟩ := exists_transition (by omega) hsame
    have hlater : z.offsetAt s = z.offsetAt t :=
      hz.offsetAt_eq_of_transition hc hst (.inr (by omega))
    rw [hlater] at hlt
    omega

theorem wallTime_start_fixed {offset start : Int} {i : Instant}
    (h : (fixed offset).startOfMinute? i = some start) :
    (fixed offset).wallTime start = ⟨((fixed offset).wallTime i.seconds).seconds -
      ((fixed offset).wallTime i.seconds).second⟩ := by
  rw [eq_of_startOfMinute? h]
  simp only [wallTime, offsetAt_fixed, WallTime.mk.injEq]
  omega

/-- A clock that is never changed shows everything once. -/
theorem earliest?_fixed (offset : Int) (w : WallTime) :
    (fixed offset).earliest? w = some (w.seconds - offset) := by
  rw [earliest?_eq_some_iff]
  simp only [IsFirstReading, wallTime, offsetAt_fixed, WallTime.mk.injEq, Int.sub_add_cancel,
    true_and]
  intro u hu
  omega

end Zone

/-- A list that has all members of another one begins no later, if it ascends. -/
theorem exists_head?_le {α : Type} [LinearOrder α] {as bs : List α} (has : as.Pairwise (· < ·))
    (hbs : ∀ b ∈ bs, b ∈ as) {b : α} (hb : b ∈ bs.head?) : ∃ a ∈ as.head?, a ≤ b := by
  have hmem := hbs b (List.mem_of_head? hb)
  cases as with
  | nil => contradiction
  | cons a as =>
      refine ⟨a, rfl, ?_⟩
      cases hmem with
      | head => exact le_refl b
      | tail _ hmem => exact (List.rel_of_pairwise_cons has hmem).le

namespace Expression

variable {e : Expression} {z : Zone} {i j : Instant} {start later : Int}

/-- A search finds all that a search from a later instant finds. -/
theorem mem_allFrom_of_le (hz : z.Spaced) (hij : i ≤ j) (hi : z.startOfMinute? i = some start)
    {t : Instant} (ht : t ∈ e.allFrom z j) : t ∈ e.allFrom z i := by
  obtain ⟨hone, later, hj, hdue⟩ := due_of_mem_allFrom hz ht
  have hle := Instant.mk_zero_le_iff.mp hdue.start_le
  have hseconds : i.seconds ≤ j.seconds := by
    rw [Instant.le_def] at hij
    omega
  rw [Zone.eq_of_startOfMinute? hj] at hle
  have hstart := hz.sub_second_le hseconds hdue.second hle
  rw [← Zone.eq_of_startOfMinute? hi, ← Instant.mk_zero_le_iff] at hstart
  have hfound := (mem_scan_iff_due hz).mpr { hdue with start_le := hstart }
  exact mem_allFrom.mpr ⟨hone, start, hi, hfound⟩

/-- In a zone whose transitions are far enough apart, the next occurrence from an instant is not
after that from a later one. If there is none from the first there is none from the second. -/
theorem next_monotone (he : e.Evaluable) (hz : z.Spaced) (hij : i ≤ j)
    (hi : z.startOfMinute? i = some start) (hshown : Representable (z.wallTime start).seconds)
    (hj : z.startOfMinute? j = some later) (hshown' : Representable (z.wallTime later).seconds) :
    ∃ found found', e.next z i = .ok found ∧ e.next z j = .ok found' ∧
      ∀ u ∈ found', ∃ t ∈ found, t ≤ u := by
  refine ⟨_, _, next_eq_head? he fun h => h.2 (Zone.keepsRange_of_shown hi hshown),
    next_eq_head? he fun h => h.2 (Zone.keepsRange_of_shown hj hshown'), ?_⟩
  intro u hu
  exact exists_head?_le (allFrom_pairwise (scan_ascending hz) i)
    (fun t ht => mem_allFrom_of_le hz hij hi ht) hu

/-- A clock that is put forward by 58 seconds at 2024-01-01T00:01:01. One second before this it
shows a whole minute, and that second is not taken back, but the next one is by 59 seconds. -/
theorem next_monotone_jolt :
    let z : Zone := { base := 0, transitions := [⟨1704067261, 58⟩] }
    (z.startOfMinute? ⟨1704067260, 0⟩ = some 1704067260 ∧
      z.startOfMinute? ⟨1704067261, 0⟩ = some 1704067202) ∧
      ∃ found found', everyMinute.next z ⟨1704067260, 0⟩ = .ok found ∧
        everyMinute.next z ⟨1704067261, 0⟩ = .ok found' ∧ ∀ u ∈ found', ∃ t ∈ found, t ≤ u := by
  intro z
  have hz : z.Spaced := ⟨by decide, .singleton _⟩
  have hi : z.startOfMinute? ⟨1704067260, 0⟩ = some 1704067260 := by decide
  have hj : z.startOfMinute? ⟨1704067261, 0⟩ = some 1704067202 := by decide
  have h := next_monotone everyMinute_evaluable hz (by decide) hi (by decide) hj (by decide)
  exact ⟨⟨hi, hj⟩, h⟩

/-- Where the clock is never changed, what it shows at the occurrences depends on what it shows at
the start, and not on the offset. -/
theorem map_shown_scan_fixed (e : Expression) (offset start : Int) :
    (e.scan (.fixed offset) start).map (Zone.fixed offset).shown =
      ((Zone.fixed offset).wallTime start).minutesFrom.filterMap fun w =>
        if Representable w.seconds ∧ e.holdsOn w = .ok true then some (w, 0) else none := by
  rw [scan, List.map_filterMap]
  apply List.filterMap_congr
  intro w hw
  have hle := (WallTime.mem_minutesFrom.mp hw).2.1
  have hstart : start ≤ w.seconds - offset := by
    simp only [WallTime.le_def, Zone.wallTime, Zone.offsetAt_fixed] at hle
    omega
  have hshown : (Zone.fixed offset).wallTime (w.seconds - offset) = w := by
    simp only [Zone.wallTime, Zone.offsetAt_fixed, Int.sub_add_cancel]
  rw [onMinute?, Zone.earliest?_fixed, Option.bind_some]
  simp only [holdsAt_eq_ok_iff, hshown, hstart, true_and]
  split
  · rw [Option.map_some, Zone.shown, hshown]
  · rfl

theorem map_shown_allFrom_fixed {offset offset' : Int}
    (hi : (Zone.fixed offset).startOfMinute? i = some start)
    (hj : (Zone.fixed offset').startOfMinute? j = some later)
    (h : (Zone.fixed offset).wallTime start = (Zone.fixed offset').wallTime later) :
    (e.allFrom (.fixed offset) i).map (Zone.fixed offset).shown =
      (e.allFrom (.fixed offset') j).map (Zone.fixed offset').shown := by
  by_cases hboth : e.daysOfMonth.unspecified = e.daysOfWeek.unspecified
  · rw [allFrom_eq_nil hboth, allFrom_eq_nil hboth, List.map_nil, List.map_nil]
  · rw [allFrom_eq_scan hboth hi, allFrom_eq_scan hboth hj, map_shown_scan_fixed,
      map_shown_scan_fixed, h]

theorem holdsAt_of_sameMinute {z' : Zone}
    (h : (z.wallTime i.seconds).SameMinute (z'.wallTime j.seconds)) :
    e.holdsAt z i = e.holdsAt z' j := by
  have hholds : e.holdsOn (z.wallTime i.seconds) = e.holdsOn (z'.wallTime j.seconds) := by
    simp only [holdsOn, h.date_eq, h.hour, h.minute]
  by_cases hrepresentable : Representable (z.wallTime i.seconds).seconds
  · rw [holdsAt_of_representable hrepresentable,
      holdsAt_of_representable (h.representable hrepresentable), hholds]
  · rw [holdsAt_of_not_representable hrepresentable,
      holdsAt_of_not_representable (mt h.symm.representable hrepresentable)]

/-- Where the clock is never changed, only the minute that it shows at the start matters: from two
instants of different offsets that are shown in the same minute, searches find occurrences that are
shown alike, or fail alike, and the expression holds at both instants or at neither. -/
theorem nextN_fixed_of_sameMinute (e : Expression) {offset offset' : Int}
    (hi : (Zone.fixed offset).startOfMinute? i = some start)
    (hj : (Zone.fixed offset').startOfMinute? j = some later)
    (hshown : Representable ((Zone.fixed offset).wallTime start).seconds)
    (h : ((Zone.fixed offset).wallTime i.seconds).SameMinute
      ((Zone.fixed offset').wallTime j.seconds)) :
    (∀ n, e.nextN (.fixed offset) i n ≠ .error .outOfRange ∧
      e.nextN (.fixed offset') j n ≠ .error .outOfRange ∧
      (e.nextN (.fixed offset) i n).map (·.map (Zone.fixed offset).shown) =
        (e.nextN (.fixed offset') j n).map (·.map (Zone.fixed offset').shown)) ∧
      e.holdsAt (.fixed offset) i = e.holdsAt (.fixed offset') j := by
  have hstart : (Zone.fixed offset).wallTime start = (Zone.fixed offset').wallTime later := by
    rw [Zone.wallTime_start_fixed hi, Zone.wallTime_start_fixed hj, h.sub_second_eq]
  have hkeeps := Zone.keepsRange_of_shown hi hshown
  have hkeeps' := Zone.keepsRange_of_shown hj (hstart ▸ hshown)
  refine ⟨?_, holdsAt_of_sameMinute h⟩
  intro n
  refine ⟨fun h => (nextN_eq_outOfRange_iff.mp h).2.2.2 hkeeps,
    fun h => (nextN_eq_outOfRange_iff.mp h).2.2.2 hkeeps', ?_⟩
  cases hfault : e.fault? with
  | some err =>
      rw [nextN_of_fault hfault, nextN_of_fault hfault]
      rfl
  | none =>
      have he := fault?_eq_none_iff.mp hfault
      rw [nextN_eq_take he fun h => h.2 hkeeps, nextN_eq_take he fun h => h.2 hkeeps']
      simp only [Except.map, List.map_take, map_shown_allFrom_fixed hi hj hstart]

/-- A leap second at the end of an hour of UTC, which a clock one second fast shows at the beginning
of the next hour, and an instant that is shown almost a day late. -/
theorem nextN_fixed_of_sameMinute_leapSecond :
    (everyMinute.nextN (.fixed 3601) ⟨1711844999, 1500000000⟩ 2).map
        (·.map (Zone.fixed 3601).shown) =
      (everyMinute.nextN (.fixed (-86399)) ⟨1711935003, 7⟩ 2).map
        (·.map (Zone.fixed (-86399)).shown) ∧
      everyMinute.holdsAt (.fixed 3601) ⟨1711844999, 1500000000⟩ =
        everyMinute.holdsAt (.fixed (-86399)) ⟨1711935003, 7⟩ := by
  have hi : (Zone.fixed 3601).startOfMinute? ⟨1711844999, 1500000000⟩ = some 1711844999 := by decide
  have hj : (Zone.fixed (-86399)).startOfMinute? ⟨1711935003, 7⟩ = some 1711934999 := by decide
  have h := nextN_fixed_of_sameMinute everyMinute hi hj (by decide)
    ⟨by decide, by decide, by decide, by decide, by decide⟩
  exact ⟨(h.1 2).2.2, h.2⟩

end Expression

end Recurrence
