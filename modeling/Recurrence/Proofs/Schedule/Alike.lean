import Recurrence.Proofs.Schedule.Scan

/-!
What the schedule of an expression depends on: its first fault, the wall times that it admits, and
whether exactly one of its day fields is left unspecified. Expressions that agree in these hold at
the same instants and have the same occurrences.
-/
namespace Recurrence.Expression

variable {e e' : Expression}

structure Alike (e e' : Expression) : Prop where
  fault : e.fault? = e'.fault?
  admits : ∀ w, e.admits w = e'.admits w
  undecided : e.daysOfMonth.unspecified = e.daysOfWeek.unspecified ↔
    e'.daysOfMonth.unspecified = e'.daysOfWeek.unspecified

namespace Alike

variable (h : Alike e e')

include h

theorem holdsOn_eq (w : WallTime) : e.holdsOn w = e'.holdsOn w := by
  rw [e.holdsOn_eq, e'.holdsOn_eq, h.fault, h.admits]

theorem holdsAt_eq (z : Zone) (i : Instant) : e.holdsAt z i = e'.holdsAt z i := by
  simp only [holdsAt, h.holdsOn_eq]

theorem allFrom_eq (z : Zone) (i : Instant) : e.allFrom z i = e'.allFrom z i := by
  have hscan (start : Int) : e.scan z start = e'.scan z start := by
    apply List.filterMap_congr
    intro w _
    simp only [onMinute?, h.holdsAt_eq]
  by_cases hboth : e.daysOfMonth.unspecified = e.daysOfWeek.unspecified
  · rw [allFrom_eq_nil hboth, allFrom_eq_nil (h.undecided.mp hboth)]
  · cases hstart : z.startOfMinute? i with
    | none => simp [allFrom, hstart]
    | some start =>
        rw [allFrom_eq_scan hboth hstart, allFrom_eq_scan (mt h.undecided.mpr hboth) hstart, hscan]

theorem beginsOutOfRange_iff (z : Zone) (i : Instant) :
    e.BeginsOutOfRange z i ↔ e'.BeginsOutOfRange z i :=
  and_congr_left' (not_congr h.undecided)

theorem nextN_eq (z : Zone) (i : Instant) (n : Nat) : e.nextN z i n = e'.nextN z i n := by
  have hbegins := h.beginsOutOfRange_iff z i
  obtain ⟨err, hfault, hn⟩ | ⟨hfault, hpos, hbreaks, hn⟩ | ⟨hfault, hno, hn⟩ := nextN_cases e z i n
  · rw [hn, nextN_of_fault (h.fault.symm.trans hfault)]
  · have he' := fault?_eq_none_iff.mp (h.fault.symm.trans hfault)
    rw [hn, nextN_of_beginsOutOfRange he' (hbegins.mp hbreaks) hpos]
  · have he' := fault?_eq_none_iff.mp (h.fault.symm.trans hfault)
    rw [hn, h.allFrom_eq]
    obtain rfl | hno := hno
    · exact (nextN_zero he' z i).symm
    · exact (nextN_eq_take he' (mt hbegins.mpr hno) n).symm

end Alike

end Recurrence.Expression
