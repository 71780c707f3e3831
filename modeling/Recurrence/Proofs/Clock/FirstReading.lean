import Mathlib.Data.List.Basic
import Mathlib.Order.Lattice
import Recurrence.Clock

/-!
First readings: the earliest instants at which a clock shows what it shows. A clock that is put back
shows a wall time again that it has shown before, so that its readings do not ascend with time, but
the first ones do if changes of the offset are far enough apart.
-/
namespace Recurrence

instance : LinearOrder Instant where
  le_refl := Instant.le_refl
  le_trans _ _ _ := Instant.le_trans
  le_antisymm _ _ := Instant.le_antisymm
  le_total := Instant.le_total
  toDecidableLE := inferInstance

namespace Instant

theorem lt_def {a b : Instant} : a < b ↔
    a.seconds < b.seconds ∨ a.seconds = b.seconds ∧ a.nanoseconds < b.nanoseconds := by
  rw [lt_iff_not_ge, le_def]
  omega

/-- A whole second is not after an instant unless its second is. -/
theorem mk_zero_le_iff {seconds : Int} {a : Instant} : ⟨seconds, 0⟩ ≤ a ↔ seconds ≤ a.seconds := by
  simp only [le_def]
  omega

end Instant

namespace WallTime

theorem seconds_injective : Function.Injective seconds := by
  intro v w h
  cases v
  cases w
  exact congrArg mk h

instance : LinearOrder WallTime := LinearOrder.lift' seconds seconds_injective

theorem le_def {v w : WallTime} : v ≤ w ↔ v.seconds ≤ w.seconds := Iff.rfl

theorem lt_def {v w : WallTime} : v < w ↔ v.seconds < w.seconds := Iff.rfl

end WallTime

/-- In a list along which `f` ascends, a member with the lesser value stands before the other. -/
theorem rel_of_ascending {α β : Type} [Preorder β] {f : α → β} {R : α → α → Prop} {as : List α}
    (hf : as.Pairwise fun a b => f a < f b) (hR : as.Pairwise R) {a b : α} (ha : a ∈ as)
    (hb : b ∈ as) (h : f a < f b) : R a b := by
  let S (a b : α) := f a < f b → R a b
  have hself : ∀ c ∈ as, S c c := fun c _ hlt => absurd hlt (lt_irrefl _)
  have hforward : as.Pairwise S := by
    apply hR.imp
    intro c d hcd _
    exact hcd
  have hbackward : as.Pairwise (flip S) := by
    apply hf.imp
    intro c d hcd hdc
    exact absurd hdc hcd.asymm
  exact hforward.forall_of_forall_of_flip hself hbackward ha hb h

/-- A transition after which the clock shows no earlier time than after the one before. -/
def Transition.Onward (a b : Transition) : Prop :=
  a.start ≤ b.start ∧ a.start + a.offset ≤ b.start + b.offset

def Transition.Apart (a b : Transition) : Prop := a.start + 172800 ≤ b.start

instance : Trans Transition.Apart Transition.Apart Transition.Apart where
  trans {a b c} hab hbc := by
    rw [Transition.Apart] at *
    omega

namespace Zone

/-- At no earlier second does the clock show what it shows at `t`. -/
def IsFirstReading (z : Zone) (t : Int) : Prop := ∀ u, z.wallTime u = z.wallTime t → t ≤ u

theorem earliest?_eq_some_iff {z : Zone} {w : WallTime} {t : Int} :
    z.earliest? w = some t ↔ z.wallTime t = w ∧ z.IsFirstReading t := by
  rw [earliest?, List.min?_eq_some_iff, mem_readings]
  constructor
  · rintro ⟨rfl, h⟩
    exact ⟨rfl, fun u hu => h u (mem_readings.mpr hu)⟩
  · rintro ⟨rfl, h⟩
    exact ⟨rfl, fun u hu => h u (mem_readings.mp hu)⟩

/-- Before the first transition starts the offset is that of the base. -/
theorem offsetAt_of_lt (base : Int) {t : Int} {c : Transition} {cs : List Transition}
    (h : (c :: cs).IsChain Transition.Onward) (ht : t < c.start) :
    (Zone.mk base (c :: cs)).offsetAt t = base := by
  induction cs generalizing c with
  | nil => rw [offsetAt_cons, if_neg (Int.not_le.mpr ht), offsetAt_nil]
  | cons d ds ih =>
      obtain ⟨hcd, hds⟩ := List.isChain_cons_cons.mp h
      rw [offsetAt_cons, if_neg (Int.not_le.mpr ht), ih hds (Int.lt_of_lt_of_le ht hcd.1)]

/-- Once a transition has started the clock shows no time before that at which it started. -/
theorem le_wallTime (base : Int) {t : Int} {c : Transition} {cs : List Transition}
    (h : (c :: cs).IsChain Transition.Onward) (ht : c.start ≤ t) :
    c.start + c.offset ≤ t + (Zone.mk base (c :: cs)).offsetAt t := by
  rw [offsetAt_cons, if_pos ht]
  induction cs generalizing c with
  | nil =>
      rw [offsetAt_nil]
      omega
  | cons d ds ih =>
      obtain ⟨hcd, hds⟩ := List.isChain_cons_cons.mp h
      by_cases hd : d.start ≤ t
      · have hlater := ih hds hd
        rw [offsetAt_cons, if_pos hd]
        rw [Transition.Onward] at hcd
        omega
      · rw [offsetAt_of_lt c.offset hds (Int.not_le.mp hd)]
        omega

/-- What the clock shows after it was put back over it, it has shown before. By induction on the
transitions: the last one that has started at `t` has also started at the earlier reading. -/
theorem exists_earlier_reading {z : Zone} (h : z.transitions.IsChain Transition.Onward) {t u : Int}
    (htu : t ≤ u) (hlt : z.wallTime u < z.wallTime t) : ∃ v < t, z.wallTime v = z.wallTime u := by
  obtain ⟨base, cs⟩ := z
  simp only [wallTime, WallTime.lt_def, WallTime.mk.injEq] at h hlt ⊢
  induction cs generalizing base with
  | nil =>
      simp only [offsetAt_nil] at hlt
      omega
  | cons c cs ih =>
      by_cases hc : c.start ≤ t
      · have hstarted := le_wallTime base h (hc.trans htu)
        rw [offsetAt_cons, if_pos (hc.trans htu)] at hlt hstarted ⊢
        rw [offsetAt_cons, if_pos hc] at hlt
        obtain ⟨v, hvt, hv⟩ := ih c.offset (List.isChain_of_isChain_cons h) hlt
        refine ⟨v, hvt, ?_⟩
        by_cases hcv : c.start ≤ v
        · rw [offsetAt_cons, if_pos hcv, hv]
        · have hoffset := offsetAt_of_lt c.offset h (Int.not_le.mp hcv)
          rw [offsetAt_cons, if_neg hcv] at hoffset
          rw [hoffset] at hv
          omega
      · rw [offsetAt_of_lt base h (Int.not_le.mp hc)] at hlt
        have hearlier : u + (Zone.mk base (c :: cs)).offsetAt u - base < t := by omega
        refine ⟨_, hearlier, ?_⟩
        rw [offsetAt_of_lt base h (hearlier.trans (Int.not_le.mp hc)), Int.sub_add_cancel]

/-- Offsets are less than a day, and each transition starts two days or more after the last. -/
structure Spaced (z : Zone) : Prop where
  offset_lt : ∀ o ∈ z.offsets, -86400 < o ∧ o < 86400
  apart : z.transitions.IsChain Transition.Apart

theorem spaced_fixed {offset : Int} (h : -86400 < offset ∧ offset < 86400) :
    (fixed offset).Spaced where
  offset_lt o ho := by
    cases List.mem_singleton.mp ho
    exact h
  apart := .nil

/-- The offset stays the same while no transition starts. -/
theorem offsetAt_congr {z : Zone} {t u : Int}
    (h : ∀ c ∈ z.transitions, c.start ≤ t ↔ c.start ≤ u) : z.offsetAt t = z.offsetAt u := by
  obtain ⟨base, cs⟩ := z
  induction cs generalizing base with
  | nil => rfl
  | cons c cs ih =>
      have hc := h c List.mem_cons_self
      rw [offsetAt_cons, offsetAt_cons, ih _ fun d hd => h d (List.mem_cons_of_mem _ hd)]
      simp only [hc]

theorem exists_transition {z : Zone} {t u : Int} (h : t ≤ u) (hne : z.offsetAt t ≠ z.offsetAt u) :
    ∃ c ∈ z.transitions, t < c.start ∧ c.start ≤ u := by
  by_contra hno
  apply hne
  apply offsetAt_congr
  intro c hc
  constructor
  · intro hle
    omega
  · intro hle
    by_contra hlt
    exact hno ⟨c, hc, by omega, hle⟩

namespace Spaced

variable {z : Zone} (hz : z.Spaced)

include hz

theorem start_le {a b : Transition} (ha : a ∈ z.transitions) (hb : b ∈ z.transitions)
    (h : a.start < b.start) : a.start + 172800 ≤ b.start := by
  have hpairs := List.isChain_iff_pairwise.mp hz.apart
  have hascending : z.transitions.Pairwise fun c d => c.start < d.start := by
    apply hpairs.imp
    intro c d hcd
    rw [Transition.Apart] at hcd
    omega
  exact rel_of_ascending hascending hpairs ha hb h

/-- The offset stays the same for two days before a transition, and for two days after it. -/
theorem offsetAt_eq_of_transition {c : Transition} (hc : c ∈ z.transitions) {t u : Int}
    (htu : t ≤ u) (h : c.start ≤ t + 172800 ∧ u < c.start ∨ c.start ≤ t ∧ u < c.start + 172800) :
    z.offsetAt t = z.offsetAt u := by
  by_contra hne
  obtain ⟨d, hd, htd, hdu⟩ := exists_transition htu hne
  rcases h with ⟨hct, huc⟩ | ⟨hct, huc⟩
  · have := hz.start_le hd hc (by omega)
    omega
  · have := hz.start_le hc hd (by omega)
    omega

/-- An offset can be changed by less than two days. -/
theorem onward : z.transitions.IsChain Transition.Onward := by
  apply List.Pairwise.isChain
  apply (List.isChain_iff_pairwise.mp hz.apart).imp_of_mem
  intro a b ha hb hab
  have hoffset {c : Transition} (hc : c ∈ z.transitions) :=
    hz.offset_lt c.offset (List.mem_cons_of_mem _ (List.mem_map_of_mem hc))
  have := hoffset ha
  have := hoffset hb
  rw [Transition.Apart] at hab
  rw [Transition.Onward]
  omega

theorem wallTime_le_of_isFirstReading {t u : Int} (htu : t ≤ u) (h : z.IsFirstReading u) :
    z.wallTime t ≤ z.wallTime u := by
  by_contra hlt
  obtain ⟨v, hvt, hv⟩ := exists_earlier_reading hz.onward htu (not_le.mp hlt)
  have := h v hv
  omega

end Spaced

end Zone

end Recurrence
