import Mathlib.Logic.Function.Iterate
import Mathlib.Order.Monotone.Basic
import Mathlib.Tactic.Common

namespace FastdlMm

def isLeap (year : Int) : Bool := year % 4 = 0 && (year % 100 ≠ 0 || year % 400 = 0)

def daysInMonth (year : Int) : Nat → Nat
  | 2 => if isLeap year then 29 else 28
  | 4 => 30
  | 6 => 30
  | 9 => 30
  | 11 => 30
  | _ => 31

/-- A day of the Gregorian calendar. -/
@[ext] structure Date where
  year : Int
  month : Nat
  day : Nat
  month_pos : 1 ≤ month
  month_le : month ≤ 12
  day_pos : 1 ≤ day
  day_le : day ≤ daysInMonth year month
  deriving DecidableEq

theorem daysInMonth_pos (year : Int) (month : Nat) : 1 ≤ daysInMonth year month := by
  unfold daysInMonth
  split <;> (try split) <;> decide

theorem daysInMonth_le (year : Int) (month : Nat) : daysInMonth year month ≤ 31 := by
  unfold daysInMonth
  split <;> (try split) <;> decide

/-- The days of the first months of a year. -/
def daysThrough (year : Int) : Nat → Nat
  | 0 => 0
  | month + 1 => daysThrough year month + daysInMonth year (month + 1)

def daysBeforeYear (year : Int) : Int :=
  365 * (year - 1) + (year - 1) / 4 - (year - 1) / 100 + (year - 1) / 400

/-- The number of a day that is counted from the first of a month, which may lie outside that
month. -/
def dayNumber (year : Int) (month : Nat) (day : Int) : Int :=
  daysBeforeYear year + daysThrough year (month - 1) + (day - 1)

theorem daysThrough_le (year : Int) {month month' : Nat} (h : month ≤ month') :
    daysThrough year month ≤ daysThrough year month' :=
  monotone_nat_of_le_succ (fun _ => Nat.le_add_right _ _) h

theorem daysThrough_year (year : Int) : daysThrough year 12 = if isLeap year then 366 else 365 := by
  cases hleap : isLeap year <;> simp [daysThrough, daysInMonth, hleap]

theorem daysBeforeYear_succ (year : Int) :
    daysBeforeYear (year + 1) = daysBeforeYear year + daysThrough year 12 := by
  rw [daysThrough_year, isLeap]
  simp only [daysBeforeYear, Bool.and_eq_true, Bool.or_eq_true, decide_eq_true_eq]
  split_ifs with hleap
  · obtain ⟨hfour, hcentury⟩ := hleap
    obtain hcentury | hcentury := hcentury <;> omega
  · rw [not_and_or, not_or] at hleap
    obtain hfour | hcentury := hleap <;> omega

theorem daysBeforeYear_le {year year' : Int} (h : year ≤ year') :
    daysBeforeYear year ≤ daysBeforeYear year' := by
  simp only [daysBeforeYear]
  omega

namespace Date

def number (d : Date) : Int := dayNumber d.year d.month d.day

/-- The day after. -/
def next (d : Date) : Date :=
  if hday : d.day < daysInMonth d.year d.month then
    ⟨d.year, d.month, d.day + 1, d.month_pos, d.month_le, by omega, hday⟩
  else if hmonth : d.month < 12 then
    ⟨d.year, d.month + 1, 1, by omega, hmonth, le_rfl, daysInMonth_pos _ _⟩
  else ⟨d.year + 1, 1, 1, le_rfl, by decide, le_rfl, daysInMonth_pos _ _⟩

theorem daysThrough_month (d : Date) : daysThrough d.year d.month =
    daysThrough d.year (d.month - 1) + daysInMonth d.year d.month := by
  have hpos := d.month_pos
  obtain ⟨month, hmonth⟩ := Nat.exists_eq_add_of_le hpos
  rw [hmonth, Nat.add_comm 1 month, Nat.add_sub_cancel, daysThrough]

theorem number_next (d : Date) : d.next.number = d.number + 1 := by
  have hpos := d.day_pos
  have hle := d.day_le
  have hmonth := d.daysThrough_month
  simp only [next]
  split_ifs with hday hlast
  · simp only [number, dayNumber]
    omega
  · simp only [number, dayNumber, Nat.add_sub_cancel, hmonth]
    omega
  · have htwelve : d.month = 12 := by
      have := d.month_le
      omega
    have hyear := daysBeforeYear_succ d.year
    have hzero : daysThrough (d.year + 1) 0 = 0 := rfl
    rw [htwelve] at hmonth hle hday
    simp only [number, dayNumber, htwelve, Nat.sub_self, hzero]
    omega

theorem number_iterate_next (d : Date) (n : Nat) : (next^[n] d).number = d.number + n := by
  induction n with
  | zero => simp
  | succ n ih =>
    rw [Function.iterate_succ_apply', number_next, ih]
    omega

/-- A day lies in its year. -/
theorem number_bounds (d : Date) : daysBeforeYear d.year ≤ d.number ∧
    d.number < daysBeforeYear (d.year + 1) := by
  have hpos := d.day_pos
  have hle := d.day_le
  have hmonth := d.daysThrough_month
  have hyear := daysBeforeYear_succ d.year
  have hthrough := daysThrough_le d.year d.month_le
  simp only [number, dayNumber]
  omega

theorem year_le_of_number_le {d d' : Date} (h : d.number ≤ d'.number) : d.year ≤ d'.year := by
  by_contra hlt
  have hyears := daysBeforeYear_le (by omega : d'.year + 1 ≤ d.year)
  have hd := d.number_bounds
  have hd' := d'.number_bounds
  omega

theorem month_le_of_number_le {d d' : Date} (hyear : d.year = d'.year) (h : d.number ≤ d'.number) :
    d.month ≤ d'.month := by
  by_contra hlt
  have hmonths := daysThrough_le d.year (by omega : d'.month ≤ d.month - 1)
  have hmonth := d'.daysThrough_month
  have hpos := d.day_pos
  have hle := d'.day_le
  simp only [number, dayNumber, hyear] at h hmonths
  omega

/-- No two days have one number. -/
theorem number_injective : Function.Injective number := by
  intro d d' h
  have hyear : d.year = d'.year :=
    le_antisymm (year_le_of_number_le h.le) (year_le_of_number_le h.ge)
  have hmonth : d.month = d'.month :=
    le_antisymm (month_le_of_number_le hyear h.le) (month_le_of_number_le hyear.symm h.ge)
  have hday : d.day = d'.day := by
    simp only [number, dayNumber, hyear, hmonth] at h
    omega
  exact Date.ext hyear hmonth hday

theorem iterate_next_eq_iff {d t : Date} {n : Nat} :
    next^[n] d = t ↔ t.number = d.number + n := by
  rw [← number_iterate_next, eq_comm]
  exact number_injective.eq_iff.symm

/-- `d` is at least `n` days before `t`. -/
def DaysBefore (n : Nat) (d t : Date) : Prop := ∃ m, n ≤ m ∧ next^[m] d = t

theorem daysBefore_iff {n : Nat} {d t : Date} : DaysBefore n d t ↔ d.number + n ≤ t.number := by
  simp only [DaysBefore, iterate_next_eq_iff]
  constructor
  · intro h
    obtain ⟨m, hm, heq⟩ := h
    omega
  · intro h
    exact ⟨(t.number - d.number).toNat, by omega, by omega⟩

end Date

end FastdlMm
