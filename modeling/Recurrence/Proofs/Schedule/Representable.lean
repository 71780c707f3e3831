import Recurrence.Proofs.Schedule.Start

/-!
Searches that begin out of range. The beginning of a minute is tested for being representable in UTC
only. The clock shows a representable time there, too, unless it was changed within the minute; then
it may have stood beyond either end of the range when the minute began. Wherever that happens, it
happens at the very second of a transition, so that a table of transitions can be tested for it.
-/
namespace Recurrence

namespace Zone

/-- An instant that is representable in UTC and on the clock. -/
structure Represents (z : Zone) (i : Instant) : Prop where
  utc : Representable i.seconds
  wall : Representable (z.wallTime i.seconds).seconds

/-- A second after the beginning of the minute of an instant, and not after the instant. -/
def InMinute (z : Zone) (i : Instant) (t : Int) : Prop :=
  i.seconds - (z.wallTime i.seconds).second < t ∧ t ≤ i.seconds

variable {z : Zone} {i : Instant}

instance : Decidable (z.Represents i) :=
  decidable_of_iff (Representable i.seconds ∧ Representable (z.wallTime i.seconds).seconds)
    ⟨fun h => ⟨h.1, h.2⟩, fun h => ⟨h.utc, h.wall⟩⟩

instance : Decidable (z.KeepsRange i) := Option.decidableForallMem _

/-- A transition that brings about the offset of a later second, if that is a new one. By induction
on the seconds up to there, as another transition may come after the first one. -/
theorem exists_transition_to {t u : Int} (htu : t ≤ u) (hne : z.offsetAt t ≠ z.offsetAt u) :
    ∃ c ∈ z.transitions, t < c.start ∧ c.start ≤ u ∧ z.offsetAt c.start = z.offsetAt u := by
  obtain ⟨c, hc, htc, hcu⟩ := exists_transition htu hne
  by_cases hsame : z.offsetAt c.start = z.offsetAt u
  · exact ⟨c, hc, htc, hcu, hsame⟩
  · obtain ⟨d, hd, hcd, hdu, hoffset⟩ := exists_transition_to hcu hsame
    exact ⟨d, hd, htc.trans hcd, hdu, hoffset⟩
termination_by (u - t).toNat
decreasing_by omega

theorem representable_of_startOfMinute? {start : Int} (h : z.startOfMinute? i = some start) :
    Representable start := by
  rw [startOfMinute?_eq, Option.ite_none_right_eq_some, Option.some.injEq] at h
  exact h.2 ▸ h.1

/-- A second of the minute of an instant at which the offset is the same has the same beginning. -/
theorem InMinute.startOfMinute?_congr {t : Int} (h : z.InMinute i t)
    (hoffset : z.offsetAt t = z.offsetAt i.seconds) :
    z.startOfMinute? ⟨t, 0⟩ = z.startOfMinute? i := by
  have hstart : t - (z.wallTime t).second = i.seconds - (z.wallTime i.seconds).second := by
    simp only [InMinute, wallTime, WallTime.second, hoffset] at h ⊢
    omega
  rw [startOfMinute?_eq, startOfMinute?_eq, hstart]

/-- If the clock is out of range where the minute of an instant begins, then within that minute
starts the transition that brought about the offset of the instant, and it is in the same case. -/
theorem Represents.keepsRange (hi : z.Represents i)
    (h : ∀ c ∈ z.transitions, z.InMinute i c.start → z.Represents ⟨c.start, 0⟩ →
      z.KeepsRange ⟨c.start, 0⟩) : z.KeepsRange i := by
  intro start hstart
  have hbegin := eq_of_startOfMinute? hstart
  have hsecond : (z.wallTime i.seconds).second = (i.seconds + z.offsetAt i.seconds) % 60 := by
    simp only [wallTime, WallTime.second]
    omega
  by_cases hsame : z.offsetAt start = z.offsetAt i.seconds
  · -- The clock was not changed, and shows the beginning of the minute it shows at the instant.
    apply representable_of_sameMinute _ hi.wall
    simp only [wallTime, hsame]
    omega
  · obtain ⟨c, hc, hlt, hle, hoffset⟩ := exists_transition_to (by omega) hsame
    have hminute : z.InMinute i c.start := ⟨hbegin ▸ hlt, hle⟩
    refine h c hc hminute ⟨?_, ?_⟩ start ((hminute.startOfMinute?_congr hoffset).trans hstart)
    · have hfirst := representable_of_startOfMinute? hstart
      have hlast := hi.utc
      rw [representable_iff] at *
      simp only
      omega
    · apply representable_of_sameMinute _ hi.wall
      simp only [wallTime, hoffset]
      omega

/-- A transition to a whole minute of the clock begins its own minute. -/
theorem Represents.keepsRange_of_second {t : Int} (h : z.Represents ⟨t, 0⟩)
    (hsecond : (z.wallTime t).second = 0) : z.KeepsRange ⟨t, 0⟩ := by
  intro start hstart
  have hbegin := eq_of_startOfMinute? hstart
  simp only [hsecond, Int.sub_zero, Int.ofNat_zero] at hbegin
  exact hbegin ▸ h.wall

/-- Offsets of less than a day keep the range where it goes on for a day and a minute. -/
theorem keepsRange_of_inner (hz : ∀ o ∈ z.offsets, -86400 < o ∧ o < 86400) {t : Int}
    (hbefore : Representable (t - 86460)) (hafter : Representable (t + 86400)) :
    z.KeepsRange ⟨t, 0⟩ := by
  intro start hstart
  have hbegin := eq_of_startOfMinute? hstart
  have hoffset := hz _ (z.offsetAt_mem_offsets start)
  rw [representable_iff] at *
  simp only [wallTime, WallTime.second] at hbegin ⊢
  omega

/-- A clock one minute slow that is put right ten seconds after the first representable second. -/
def putRight : Zone where
  base := -60
  transitions := [⟨-8334601228790, 0⟩]

end Zone

namespace Expression

variable {z : Zone}

/-- Whatever a search seeks, it does not break off where range is kept, and only there. -/
theorem nextN_ne_outOfRange_iff {i : Instant} :
    (∀ e n, nextN e z i n ≠ .error .outOfRange) ↔ z.KeepsRange i := by
  constructor
  · intro h
    by_contra hnot
    exact h everyMinute 1 (nextN_of_beginsOutOfRange everyMinute_evaluable ⟨by decide, hnot⟩
      Nat.one_pos)
  · intro h e n hbegins
    exact (nextN_eq_outOfRange_iff.mp hbegins).2.2.2 h

/-- Every search from an instant that is in range begins in range if and only if those from the
transitions do. From a given instant it does so if the clock was not changed within the minute, and
also if every change within it led to a whole minute or is far enough from the ends of the range. -/
theorem begins_in_range_iff (hz : ∀ o ∈ z.offsets, -86400 < o ∧ o < 86400) :
    (∀ i, (∀ e n, nextN e z i n ≠ .error .outOfRange) ↔ z.KeepsRange i) ∧
      ((∀ i, z.Represents i → z.KeepsRange i) ↔
        ∀ c ∈ z.transitions, z.Represents ⟨c.start, 0⟩ → z.KeepsRange ⟨c.start, 0⟩) ∧
      ∀ i, z.Represents i → (∀ c ∈ z.transitions, z.InMinute i c.start →
        (z.wallTime c.start).second = 0 ∨
          Representable (c.start - 86460) ∧ Representable (c.start + 86400)) → z.KeepsRange i := by
  refine ⟨fun _ => nextN_ne_outOfRange_iff, ⟨?_, ?_⟩, ?_⟩
  · intro h c _ hc
    exact h _ hc
  · intro h i hi
    exact hi.keepsRange fun c hc _ => h c hc
  · intro i hi h
    apply hi.keepsRange
    intro c hc hminute hrepresents
    obtain hsecond | ⟨hbefore, hafter⟩ := h c hc hminute
    · exact hrepresents.keepsRange_of_second hsecond
    · exact Zone.keepsRange_of_inner hz hbefore hafter

theorem begins_in_range_iff_summerTime :
    (∀ o ∈ Zone.summerTime.offsets, -86400 < o ∧ o < 86400) ∧
      (∀ c ∈ Zone.summerTime.transitions, (Zone.summerTime.wallTime c.start).second = 0) ∧
      ∀ i, Zone.summerTime.Represents i → Zone.summerTime.KeepsRange i := by
  have hoffsets : ∀ o ∈ Zone.summerTime.offsets, -86400 < o ∧ o < 86400 := by decide
  have hseconds : ∀ c ∈ Zone.summerTime.transitions,
      (Zone.summerTime.wallTime c.start).second = 0 := by decide
  refine ⟨hoffsets, hseconds, ?_⟩
  intro i hi
  exact (begins_in_range_iff hoffsets).2.2 i hi fun c hc _ => .inl (hseconds c hc)

/-- Half a minute after the first representable second the minute began with that second, which a
clock that was slow at that time showed as one minute earlier. -/
theorem not_keepsRange : ¬ ∀ (z : Zone) (i : Instant), (∀ o ∈ z.offsets, -86400 < o ∧ o < 86400) →
    z.transitions.Pairwise (·.start < ·.start) → z.Represents i → z.KeepsRange i := by
  intro h
  have hkeeps := h .putRight ⟨-8334601228770, 0⟩ (by decide) (by decide) (by decide)
  revert hkeeps
  decide

/-- At the other end it takes a clock that is put back within the minute. -/
example : let z : Zone := { base := 7200, transitions := [⟨8210266873160, 3600⟩] }
    z.Represents ⟨8210266873170, 0⟩ ∧ ¬ z.KeepsRange ⟨8210266873170, 0⟩ := by decide

end Expression

end Recurrence
