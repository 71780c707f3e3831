import Recurrence.Calendar

/-!
Instants, clocks on the wall, and zones, which say what the clock shows at an instant. A zone has an
offset from UTC and the moments at which it changes. An instant has one reading on the wall; a
reading may belong to no instant, where the clock was put forward over it, or to several, where it
was put back.
-/
namespace Recurrence

/-- The first date that is representable. -/
def Date.first : Date := ⟨Civil.dayNumber ⟨-262143, 1, 1⟩⟩

/-- The last date that is representable. -/
def Date.last : Date := ⟨Civil.dayNumber ⟨262142, 12, 31⟩⟩

/-- Whether a count of seconds from 1970-01-01T00:00:00, on a wall clock or in UTC, lies on a date
that is representable. -/
def Representable (seconds : Int) : Prop :=
  86400 * Date.first.dayNumber ≤ seconds ∧ seconds < 86400 * (Date.last.dayNumber + 1)

instance (seconds : Int) : Decidable (Representable seconds) := inferInstanceAs (Decidable (_ ∧ _))

theorem representable_iff {seconds : Int} :
    Representable seconds ↔ -8334601228800 ≤ seconds ∧ seconds < 8210266876800 := by
  have hfirst : Date.first.dayNumber = -96465292 := by decide
  have hlast : Date.last.dayNumber = 95026236 := by decide
  rw [Representable, hfirst, hlast]
  omega

/-- Both ends of the range are whole minutes, so that it has all of a minute or nothing of it. -/
theorem representable_of_sameMinute {v w : Int} (h : v / 60 = w / 60) (hv : Representable v) :
    Representable w := by
  rw [representable_iff] at *
  omega

/-- A leap second has no number of its own: it is the second before it with a thousand million
nanoseconds or more. -/
structure Instant where
  /-- Seconds of UTC from 1970-01-01T00:00:00 -/
  seconds : Int
  /-- Nanoseconds after that second, up to 1999999999 -/
  nanoseconds : Nat := 0
deriving DecidableEq

namespace Instant

/-- The later second is the later instant, and nanoseconds decide within a second. -/
instance : LE Instant where
  le a b := a.seconds < b.seconds ∨ a.seconds = b.seconds ∧ a.nanoseconds ≤ b.nanoseconds

instance (a b : Instant) : Decidable (a ≤ b) := inferInstanceAs (Decidable (_ ∨ _))

theorem le_def {a b : Instant} : a ≤ b ↔
    a.seconds < b.seconds ∨ a.seconds = b.seconds ∧ a.nanoseconds ≤ b.nanoseconds := Iff.rfl

theorem le_refl (a : Instant) : a ≤ a := .inr ⟨rfl, Nat.le_refl _⟩

theorem le_trans {a b c : Instant} (hab : a ≤ b) (hbc : b ≤ c) : a ≤ c := by
  rw [le_def] at *
  omega

theorem le_antisymm {a b : Instant} (hab : a ≤ b) (hba : b ≤ a) : a = b := by
  rw [le_def] at hab hba
  cases a
  cases b
  simp only [mk.injEq] at *
  omega

theorem le_total (a b : Instant) : a ≤ b ∨ b ≤ a := by
  rw [le_def, le_def]
  omega

/-- The instant that comes `elapsed` nanoseconds later. The leap second in which `a` lies is a
second of its own, after which the count of seconds goes on by one less; no other leap seconds are
met. -/
def add (a : Instant) (elapsed : Int) : Instant :=
  let nanoseconds := a.nanoseconds + elapsed
  if 1000000000 ≤ a.nanoseconds ∧ 1000000000 ≤ nanoseconds ∧ nanoseconds < 2000000000 then
    { a with nanoseconds := nanoseconds.toNat }
  else
    let leap := if 1000000000 ≤ a.nanoseconds ∧ 0 ≤ elapsed then 1000000000 else 0
    let nanoseconds := nanoseconds - leap
    ⟨a.seconds + nanoseconds / 1000000000, (nanoseconds % 1000000000).toNat⟩

def add? (a : Instant) (elapsed : Int) : Option Instant :=
  if Representable (a.add elapsed).seconds then some (a.add elapsed) else none

/-- Some seconds before an instant and all of its nanoseconds, also those of a leap second. -/
theorem add_neg (a : Instant) (n : Nat) :
    a.add (-(1000000000 * n + a.nanoseconds)) = ⟨a.seconds - n, 0⟩ := by
  rw [add, if_neg (by omega)]
  by_cases hleap : 1000000000 ≤ a.nanoseconds
  · simp only [hleap, true_and, mk.injEq]
    rw [if_neg (by omega)]
    omega
  · simp only [hleap, false_and, if_false, mk.injEq]
    omega

/-- From the middle of a leap second back to the beginning of the minute that it ends. -/
example : add ⟨59, 1500000000⟩ (-60500000000) = ⟨0, 0⟩ := by decide

def minuteLater? (a : Instant) : Option Instant := a.add? 60000000000

/-- From a whole second on, a minute ends with a whole second. -/
theorem minuteLater?_eq {a : Instant} (h : a.nanoseconds = 0) :
    a.minuteLater? = if Representable (a.seconds + 60) then some ⟨a.seconds + 60, 0⟩ else none := by
  have hadd : a.add 60000000000 = ⟨a.seconds + 60, 0⟩ := by
    rw [add, if_neg (by omega), if_neg (by omega), h]
    simp only [mk.injEq]
    omega
  rw [minuteLater?, add?, hadd]

end Instant

structure WallTime where
  /-- Seconds from 1970-01-01T00:00:00 on this clock -/
  seconds : Int
deriving DecidableEq

namespace WallTime

def ofDate (d : Date) (hour minute second : Nat) : WallTime :=
  ⟨86400 * d.dayNumber + 3600 * hour + 60 * minute + second⟩

def date (w : WallTime) : Date := ⟨w.seconds / 86400⟩

def hour (w : WallTime) : Nat := (w.seconds % 86400 / 3600).toNat

def minute (w : WallTime) : Nat := (w.seconds % 3600 / 60).toNat

def second (w : WallTime) : Nat := (w.seconds % 60).toNat

/-- A date, hour, minute and second that exist are read off the clock again. -/
theorem fields_ofDate {d : Date} {hour minute second : Nat} (hh : hour < 24) (hm : minute < 60)
    (hs : second < 60) :
    (ofDate d hour minute second).date = d ∧ (ofDate d hour minute second).hour = hour ∧
      (ofDate d hour minute second).minute = minute ∧
      (ofDate d hour minute second).second = second := by
  obtain ⟨n⟩ := d
  refine ⟨?_, ?_, ?_, ?_⟩
  · simp only [ofDate, date, Date.mk.injEq]
    omega
  all_goals
    simp only [ofDate, WallTime.hour, WallTime.minute, WallTime.second]
    omega

theorem ofDate_fields (w : WallTime) : ofDate w.date w.hour w.minute w.second = w := by
  obtain ⟨n⟩ := w
  simp only [ofDate, date, hour, minute, second, mk.injEq]
  omega

end WallTime

/-- From the second `start` of UTC on the wall clock is `offset` seconds ahead of UTC. -/
structure Transition where
  start : Int
  offset : Int
deriving DecidableEq

/-- The offset before the first transition, and the transitions in ascending order. -/
structure Zone where
  base : Int
  transitions : List Transition := []
deriving DecidableEq

namespace Zone

/-- The zone whose clock is never changed. -/
def fixed (offset : Int) : Zone := { base := offset }

/-- The offset at a second of UTC is that of the last transition that has started. -/
def offsetAt (z : Zone) (t : Int) : Int :=
  z.transitions.foldl (fun offset c => if c.start ≤ t then c.offset else offset) z.base

def wallTime (z : Zone) (t : Int) : WallTime := ⟨t + z.offsetAt t⟩

def offsets (z : Zone) : List Int := z.base :: z.transitions.map (·.offset)

/-- The seconds of UTC at which the clock shows `w`, one for each offset of the zone that leads from
`w` to a moment of that offset. -/
def readings (z : Zone) (w : WallTime) : List Int :=
  (z.offsets.map (w.seconds - ·)).filter fun t => z.wallTime t = w

/-- The earliest second of UTC at which the clock shows `w`, if it ever does. -/
def earliest? (z : Zone) (w : WallTime) : Option Int := (z.readings w).min?

/-- The second of UTC that lies before `i` by the seconds and nanoseconds that the clock shows then,
if it is representable. It is elapsed time that is taken away, so that the clock may show seconds
again if it was changed in between. -/
def startOfMinute? (z : Zone) (i : Instant) : Option Int :=
  (i.add? (-(1000000000 * (z.wallTime i.seconds).second + i.nanoseconds))).map (·.seconds)

/-- All nanoseconds are taken away, so that a minute starts with a whole second, and a leap second
is part of the minute that it ends. -/
theorem startOfMinute?_eq (z : Zone) (i : Instant) : z.startOfMinute? i =
    if Representable (i.seconds - (z.wallTime i.seconds).second) then
      some (i.seconds - (z.wallTime i.seconds).second)
    else none := by
  rw [startOfMinute?, Instant.add?, Instant.add_neg]
  split <;> rfl

theorem offsetAt_fixed (offset t : Int) : (fixed offset).offsetAt t = offset := rfl

theorem offsetAt_nil (base t : Int) : (Zone.mk base []).offsetAt t = base := rfl

theorem offsetAt_cons (base t : Int) (c : Transition) (cs : List Transition) :
    (Zone.mk base (c :: cs)).offsetAt t =
      (Zone.mk (if c.start ≤ t then c.offset else base) cs).offsetAt t := rfl

theorem offsetAt_mem_offsets (z : Zone) (t : Int) : z.offsetAt t ∈ z.offsets := by
  obtain ⟨base, cs⟩ := z
  induction cs generalizing base with
  | nil => simp [offsetAt_nil, offsets]
  | cons c cs ih =>
    rw [offsetAt_cons]
    have h := ih (if c.start ≤ t then c.offset else base)
    simp only [offsets, List.map_cons, List.mem_cons] at h ⊢
    split at h <;> rename_i hc <;> simp only [hc, if_true, if_false] <;> grind

/-- The readings of a wall time are exactly the seconds of UTC at which the clock shows it. -/
theorem mem_readings {z : Zone} {w : WallTime} {t : Int} : t ∈ z.readings w ↔ z.wallTime t = w := by
  simp only [readings, List.mem_filter, List.mem_map, decide_eq_true_eq]
  refine ⟨And.right, fun h => ⟨⟨z.offsetAt t, z.offsetAt_mem_offsets t, ?_⟩, h⟩⟩
  subst h
  simp only [wallTime]
  omega

end Zone

/-- Zeros fill a number up to `width` characters. A minus sign counts as one of them. -/
def padded (width : Nat) : Int → String
  | .ofNat n => String.ofList (List.replicate (width - n.repr.length) '0') ++ n.repr
  | .negSucc n =>
    let digits := (n + 1).repr
    "-" ++ String.ofList (List.replicate (width - 1 - digits.length) '0') ++ digits

def WallTime.text (w : WallTime) (nanoseconds : Nat) : String :=
  let date := w.date.civil
  let clock := padded 4 date.year ++ "-" ++ padded 2 date.month ++ "-" ++ padded 2 date.day ++
    "T" ++ padded 2 w.hour ++ ":" ++ padded 2 w.minute ++ ":" ++ padded 2 w.second
  if nanoseconds = 0 then clock else clock ++ "." ++ padded 9 nanoseconds

def Zone.text (z : Zone) (i : Instant) : String := (z.wallTime i.seconds).text i.nanoseconds

end Recurrence
