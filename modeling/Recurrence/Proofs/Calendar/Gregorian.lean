import Mathlib.Order.Monotone.Basic
import Recurrence.Calendar

/-!
The months of the calendar in a row. `monthStart` counts the days to the first of a month, and the
lengths of months lead from one month to the next, so that the names of dates are ordered as their
day numbers and a name stands for a date exactly if its day is within the length of its month.
-/
namespace Recurrence

/-- Days from 1 March of year 0 to the first of the month that comes `index` months later. -/
def monthStart (index : Int) : Int := yearStart (index / 12) + monthOffset (index % 12)

namespace Civil

/-- The month of a name, counted from March of year 0. -/
def monthIndex (c : Civil) : Int := 12 * c.year + c.month - 3

def Valid (c : Civil) : Prop :=
  ∃ length, daysInMonth? c.year c.month = some length ∧ 1 ≤ c.day ∧ c.day ≤ length

end Civil

theorem yearStart_succ_of_leap (year : Int) :
    yearStart (year + 1) = yearStart year + if IsLeap (year + 1) then 366 else 365 :=
  yearStart_succ year

theorem daysInMonth?_february (year : Int) :
    daysInMonth? year 2 = some (if IsLeap year then 29 else 28) := rfl

/-- Counted from March, the lengths of all months but the last repeat every five months. -/
theorem daysInMonth?_eq_some_iff {year : Int} {month length : Nat} (hm : month ≠ 2) :
    daysInMonth? year month = some length ↔ 1 ≤ month ∧ month ≤ 12 ∧
      (length : Int) = monthOffset ((month + 9) % 12 + 1) - monthOffset ((month + 9) % 12) := by
  unfold monthOffset
  constructor
  · intro h
    unfold daysInMonth? at h
    split at h <;> simp only [Option.some.injEq, reduceCtorEq] at h <;> omega
  · rintro ⟨h1, h12, h⟩
    unfold daysInMonth?
    split <;> simp only [Option.some.injEq, reduceCtorEq]
    case h_13 => grind
    all_goals omega

theorem month_of_daysInMonth? {year : Int} {month length : Nat}
    (h : daysInMonth? year month = some length) : 1 ≤ month ∧ month ≤ 12 := by
  by_cases hm : month = 2
  · omega
  · have hiff := (daysInMonth?_eq_some_iff hm).mp h
    exact ⟨hiff.1, hiff.2.1⟩

theorem exists_daysInMonth? (year : Int) {month : Nat} (h : 1 ≤ month ∧ month ≤ 12) :
    ∃ length, daysInMonth? year month = some length ∧ 28 ≤ length ∧ length ≤ 31 := by
  by_cases hm : month = 2
  · subst hm
    refine ⟨_, daysInMonth?_february year, ?_⟩
    split <;> omega
  · refine ⟨_, (daysInMonth?_eq_some_iff hm).mpr ⟨h.1, h.2, Int.toNat_of_nonneg ?_⟩, ?_⟩ <;>
      unfold monthOffset <;> omega

theorem monthStart_succ {year : Int} {month length : Nat}
    (h : daysInMonth? year month = some length) :
    monthStart (12 * year + month - 3 + 1) = monthStart (12 * year + month - 3) + length := by
  unfold monthStart
  by_cases hm : month = 2
  · subst hm
    have hyear : (12 * year + ((2 : Nat) : Int) - 3) / 12 = year - 1 := by omega
    have hnext : (12 * year + ((2 : Nat) : Int) - 3 + 1) / 12 = year - 1 + 1 := by omega
    rw [daysInMonth?_february, Option.some.injEq] at h
    rw [hyear, hnext, yearStart_succ_of_leap, Int.sub_add_cancel, ← h]
    unfold monthOffset
    split <;> omega
  · obtain ⟨h1, h12, hlength⟩ := (daysInMonth?_eq_some_iff hm).mp h
    have hyear : (12 * year + (month : Int) - 3 + 1) / 12 = (12 * year + month - 3) / 12 := by omega
    have hmonth : (12 * year + (month : Int) - 3) % 12 = (month + 9) % 12 := by omega
    have hnext : (12 * year + (month : Int) - 3 + 1) % 12 = (month + 9) % 12 + 1 := by omega
    rw [hyear, hmonth, hnext]
    omega

theorem monthStart_lt_succ (index : Int) : monthStart index < monthStart (index + 1) := by
  have hmonth : 1 ≤ ((index + 2) % 12 + 1).toNat ∧ ((index + 2) % 12 + 1).toNat ≤ 12 := by omega
  obtain ⟨length, hlength, hpos, -⟩ := exists_daysInMonth? ((index + 2) / 12) hmonth
  have hindex : 12 * ((index + 2) / 12) + (((index + 2) % 12 + 1).toNat : Int) - 3 = index := by
    omega
  have hsucc := monthStart_succ hlength
  rw [hindex] at hsucc
  omega

theorem monthStart_lt_iff {m n : Int} : monthStart m < monthStart n ↔ m < n :=
  (strictMono_int_of_lt_succ monthStart_lt_succ).lt_iff_lt

namespace Civil

theorem month_of_valid {c : Civil} (h : c.Valid) : 1 ≤ c.month ∧ c.month ≤ 12 := by
  obtain ⟨_, hlength, _⟩ := h
  exact month_of_daysInMonth? hlength

theorem dayNumber_eq_monthStart {c : Civil} (h : 1 ≤ c.month ∧ c.month ≤ 12) :
    c.dayNumber = monthStart c.monthIndex + c.day - 719469 := by
  obtain ⟨year, month, day⟩ := c
  simp only [dayNumber, monthStart, yearStart, monthOffset, monthIndex] at *
  have hmonth : (12 * year + (month : Int) - 3) % 12 = (month + 9) % 12 := by omega
  rw [hmonth]
  split
  · have hyear : (12 * year + (month : Int) - 3) / 12 = year - 1 := by omega
    rw [hyear]
  · have hyear : (12 * year + (month : Int) - 3) / 12 = year := by omega
    rw [hyear]

theorem dayNumber_bounds {c : Civil} (h : c.Valid) :
    monthStart c.monthIndex - 719468 ≤ c.dayNumber ∧
      c.dayNumber < monthStart (c.monthIndex + 1) - 719468 := by
  have hmonth := month_of_valid h
  obtain ⟨length, hlength, hday⟩ := h
  have hsucc := monthStart_succ hlength
  rw [dayNumber_eq_monthStart hmonth]
  simp only [monthIndex] at *
  omega

/-- A month begins no later than a day if the day lies in this month or in a later one. -/
theorem monthStart_le_iff {c : Civil} (h : c.Valid) (index : Int) :
    monthStart index - 719468 ≤ c.dayNumber ↔ index ≤ c.monthIndex := by
  have hbounds := dayNumber_bounds h
  constructor
  · intro hle
    have hlt : monthStart index < monthStart (c.monthIndex + 1) := by omega
    have := monthStart_lt_iff.mp hlt
    omega
  · intro hle
    by_contra hlt
    have := monthStart_lt_iff.mp (show monthStart c.monthIndex < monthStart index by omega)
    omega

theorem eq_of_dayNumber_eq {a b : Civil} (ha : a.Valid) (hb : b.Valid)
    (h : a.dayNumber = b.dayNumber) : a = b := by
  have hindex : a.monthIndex = b.monthIndex := by
    apply Int.le_antisymm
    · rw [← monthStart_le_iff hb, ← h]
      exact (dayNumber_bounds ha).1
    · rw [← monthStart_le_iff ha, h]
      exact (dayNumber_bounds hb).1
  have hma := month_of_valid ha
  have hmb := month_of_valid hb
  rw [dayNumber_eq_monthStart hma, dayNumber_eq_monthStart hmb, hindex] at h
  obtain ⟨year, month, day⟩ := a
  obtain ⟨year', month', day'⟩ := b
  simp only [monthIndex, mk.injEq] at *
  omega

end Civil

namespace Date

theorem valid_civil (d : Date) : d.civil.Valid := by
  obtain ⟨year, month, h0, h11, hlow, hhigh, hyear, hd⟩ := d.civil_eq
  rw [hd]
  by_cases hm : month = 11
  · subst hm
    refine ⟨_, daysInMonth?_february (year + 1), ?_⟩
    rw [yearStart_succ_of_leap] at hyear
    by_cases hleap : IsLeap (year + 1) <;> simp only [monthOffset, hleap, if_true, if_false] at *
    · omega
    · omega
  · refine ⟨(monthOffset (month + 1) - monthOffset month).toNat, ?_, ?_⟩
    · have hmod : ((((month + 2) % 12 + 1).toNat : Int) + 9) % 12 = month := by omega
      rw [daysInMonth?_eq_some_iff (by simp only; omega), hmod]
      unfold monthOffset
      simp only
      omega
    · simp only
      omega

/-- A name stands for a date if its day is within the length of its month. -/
theorem civil_of_valid {c : Civil} (h : c.Valid) : civil ⟨c.dayNumber⟩ = c :=
  Civil.eq_of_dayNumber_eq (valid_civil _) h (dayNumber_civil _)

theorem dayNumber_injective {a b : Date} (h : a.dayNumber = b.dayNumber) : a = b := by
  cases a
  cases b
  exact congrArg mk h

end Date

theorem Civil.date?_eq_some_iff {c : Civil} {d : Date} :
    c.date? = some d ↔ c.Valid ∧ d = ⟨c.dayNumber⟩ := by
  constructor
  · intro h
    have hd := civil_of_date? h
    subst hd
    refine ⟨d.valid_civil, ?_⟩
    rw [Date.dayNumber_civil]
  · rintro ⟨hc, rfl⟩
    rw [Civil.date?, if_pos (Date.civil_of_valid hc)]

theorem Civil.valid_iff {year : Int} {month length day : Nat}
    (h : daysInMonth? year month = some length) :
    Civil.Valid ⟨year, month, day⟩ ↔ 1 ≤ day ∧ day ≤ length := by
  simp [Civil.Valid, h]

namespace Date

theorem valid (d : Date) : Civil.Valid ⟨d.year, d.month, d.day⟩ := d.valid_civil

theorem dayNumber_fields (d : Date) : Civil.dayNumber ⟨d.year, d.month, d.day⟩ = d.dayNumber :=
  d.dayNumber_civil

theorem month_bounds (d : Date) : 1 ≤ d.month ∧ d.month ≤ 12 := Civil.month_of_valid d.valid

/-- A month begins no later than a day if the day lies in this month or in a later one. -/
theorem monthStart_le_iff (d : Date) (index : Int) :
    monthStart index - 719468 ≤ d.dayNumber ↔ index ≤ 12 * d.year + d.month - 3 := by
  rw [← dayNumber_fields]
  exact Civil.monthStart_le_iff d.valid index

/-- Days of a later month, of the same year or of a later one, are later days. -/
theorem dayNumber_lt_of_month_lt {a b : Date}
    (h : 12 * a.year + a.month < 12 * b.year + b.month) : a.dayNumber < b.dayNumber := by
  have ha := a.monthStart_le_iff (12 * b.year + b.month - 3)
  have hb := b.monthStart_le_iff (12 * b.year + b.month - 3)
  omega

theorem year_le_of_dayNumber_le {a b : Date} (h : a.dayNumber ≤ b.dayNumber) :
    a.year ≤ b.year := by
  by_contra hlt
  have ha := a.month_bounds
  have hb := b.month_bounds
  have := dayNumber_lt_of_month_lt (a := b) (b := a) (by omega)
  omega

/-- A date lies in a year or before it if it is not after the last of December. -/
theorem year_le_iff (d : Date) (year : Int) :
    d.year ≤ year ↔ d.dayNumber ≤ Civil.dayNumber ⟨year, 12, 31⟩ := by
  have hnext := d.monthStart_le_iff (12 * year + 10)
  have hsucc := monthStart_succ (show daysInMonth? year 12 = some 31 from rfl)
  have hlast := Civil.dayNumber_eq_monthStart (c := ⟨year, 12, 31⟩) (by simp only; omega)
  have hmonth := d.month_bounds
  have hindex : 12 * year + ((12 : Nat) : Int) - 3 + 1 = 12 * year + 10 := by omega
  rw [hindex] at hsucc
  rw [hlast]
  simp only [Civil.monthIndex]
  omega

theorem year_nonneg_iff (d : Date) : 0 ≤ d.year ↔ -719528 ≤ d.dayNumber := by
  have hbefore := d.year_le_iff (-1)
  have hday : Civil.dayNumber ⟨-1, 12, 31⟩ = -719529 := by decide
  omega

private theorem ofDays_append {year : Int} {month : Nat} (days rest : List Nat)
    (h : ∀ day ∈ days, Civil.Valid ⟨year, month, day⟩) :
    ofDays year month (days ++ rest) =
      days.map (fun day => ⟨Civil.dayNumber ⟨year, month, day⟩⟩) ++ ofDays year month rest := by
  induction days with
  | nil => rfl
  | cons day days ih =>
      have hday : Civil.date? ⟨year, month, day⟩ = some ⟨Civil.dayNumber ⟨year, month, day⟩⟩ :=
        Civil.date?_eq_some_iff.mpr ⟨h day List.mem_cons_self, rfl⟩
      rw [List.cons_append, ofDays, hday, Option.elim_some, List.map_cons, List.cons_append,
        ih fun d hd => h d (List.mem_cons_of_mem _ hd)]

private theorem ofDays_eq_nil {year : Int} {month : Nat} (days : List Nat)
    (h : ∀ day ∈ days, ¬ Civil.Valid ⟨year, month, day⟩) : ofDays year month days = [] := by
  cases days with
  | nil => rfl
  | cons day days =>
      have hday : Civil.date? ⟨year, month, day⟩ = none := by
        rw [Option.eq_none_iff_forall_ne_some]
        intro d hd
        exact h day List.mem_cons_self (Civil.date?_eq_some_iff.mp hd).1
      rw [ofDays, hday, Option.elim_none]

/-- The dates of a month are all the days within its length. -/
theorem ofMonth_eq {year : Int} {month length : Nat} (h : daysInMonth? year month = some length) :
    ofMonth year month =
      (List.range' 1 length).map fun day => ⟨Civil.dayNumber ⟨year, month, day⟩⟩ := by
  obtain ⟨length', hlength', -, h31⟩ := exists_daysInMonth? year (month_of_daysInMonth? h)
  cases Option.some.inj (h.symm.trans hlength')
  have hsplit : List.range' 1 31 =
      List.range' 1 length ++ List.range' (1 + length) (31 - length) := by
    rw [List.range'_append_1]
    congr 1
    omega
  rw [ofMonth, hsplit, ofDays_append, ofDays_eq_nil, List.append_nil]
  · intro day hday
    rw [List.mem_range'_1] at hday
    rw [Civil.valid_iff h]
    omega
  · intro day hday
    rw [List.mem_range'_1] at hday
    rw [Civil.valid_iff h]
    omega

theorem mem_ofMonth {year : Int} {month : Nat} (hmonth : 1 ≤ month ∧ month ≤ 12) {d : Date} :
    d ∈ ofMonth year month ↔ d.year = year ∧ d.month = month := by
  obtain ⟨length, hlength, -⟩ := exists_daysInMonth? year hmonth
  rw [ofMonth_eq hlength, List.mem_map]
  constructor
  · rintro ⟨day, hday, rfl⟩
    rw [List.mem_range'_1] at hday
    have hvalid : Civil.Valid ⟨year, month, day⟩ := (Civil.valid_iff hlength).mpr (by omega)
    rw [Date.year, Date.month, civil_of_valid hvalid]
    exact ⟨rfl, rfl⟩
  · rintro ⟨rfl, rfl⟩
    refine ⟨d.day, ?_, ?_⟩
    · have hday := (Civil.valid_iff hlength).mp d.valid
      rw [List.mem_range'_1]
      omega
    · exact dayNumber_injective d.dayNumber_fields

theorem ofMonth_ascending {year : Int} {month : Nat} (hmonth : 1 ≤ month ∧ month ≤ 12) :
    (ofMonth year month).Pairwise (·.dayNumber < ·.dayNumber) := by
  obtain ⟨length, hlength, -⟩ := exists_daysInMonth? year hmonth
  rw [ofMonth_eq hlength, List.pairwise_map]
  apply (List.pairwise_lt_range' (s := 1) (n := length)).imp
  intro a b hab
  rw [Civil.dayNumber_eq_monthStart hmonth, Civil.dayNumber_eq_monthStart hmonth]
  simp only [Civil.monthIndex]
  omega

/-- The date lies in this month. -/
def InMonth (d : Date) (year : Int) (month : Nat) : Prop := d.year = year ∧ d.month = month

theorem inMonth_iff_exists_date? {d : Date} {year : Int} {month : Nat} :
    d.InMonth year month ↔ ∃ n, Civil.date? ⟨year, month, n⟩ = some d := by
  constructor
  · rintro ⟨rfl, rfl⟩
    exact ⟨d.day, d.date?_civil⟩
  · rintro ⟨n, hn⟩
    rw [InMonth, Date.year, Date.month, Civil.civil_of_date? hn]
    exact ⟨rfl, rfl⟩

theorem day_bounds (d : Date) :
    ∃ length, daysInMonth? d.year d.month = some length ∧ 1 ≤ d.day ∧ d.day ≤ length := d.valid

/-- The days of the month of a date, by their number. -/
theorem date?_month {d : Date} {length : Nat} (h : daysInMonth? d.year d.month = some length)
    (n : Nat) : Civil.date? ⟨d.year, d.month, n⟩ =
      if 1 ≤ n ∧ n ≤ length then some ⟨d.dayNumber - d.day + n⟩ else none := by
  have hday : Civil.dayNumber ⟨d.year, d.month, n⟩ = d.dayNumber - d.day + n := by
    rw [← d.dayNumber_fields]
    simp only [Civil.dayNumber]
    omega
  split
  · next hvalid =>
      rw [Civil.date?_eq_some_iff, Civil.valid_iff h, hday]
      exact ⟨hvalid, rfl⟩
  · next hvalid =>
      rw [Option.eq_none_iff_forall_ne_some]
      intro c hc
      exact hvalid ((Civil.valid_iff h).mp (Civil.date?_eq_some_iff.mp hc).1)

/-- The dates of a month are those from its first day to its last. -/
theorem inMonth_iff {c d : Date} {length : Nat} (h : daysInMonth? d.year d.month = some length) :
    c.InMonth d.year d.month ↔
      d.dayNumber - d.day < c.dayNumber ∧ c.dayNumber ≤ d.dayNumber - d.day + length := by
  simp only [inMonth_iff_exists_date?, date?_month h, Option.ite_none_right_eq_some,
    Option.some.injEq]
  constructor
  · rintro ⟨n, hn, rfl⟩
    simp only
    omega
  · intro hc
    refine ⟨(c.dayNumber - d.dayNumber + d.day).toNat, by omega, ?_⟩
    apply dayNumber_injective
    simp only
    omega

end Date

end Recurrence
