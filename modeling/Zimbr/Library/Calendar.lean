import Mathlib.Algebra.BigOperators.Group.List.Basic
import Mathlib.Data.Int.Basic
import Mathlib.Tactic.IntervalCases
import Mathlib.Tactic.SplitIfs

set_option autoImplicit false

/-!
# The proleptic Gregorian calendar

Days are numbered from January 1 of the year 1. A later date has a larger number.
-/
namespace Library

structure Date where
  year : Int
  month : Int
  day : Int
  deriving DecidableEq, Repr

namespace Date

def leap (year : Int) : Bool := year % 4 = 0 && (year % 100 ≠ 0 || year % 400 = 0)

def yearLength (year : Int) : Int := if leap year then 366 else 365

def monthLength (year month : Int) : Int :=
  if month = 2 then (if leap year then 29 else 28)
  else if month = 4 || month = 6 || month = 9 || month = 11 then 30
  else 31

def yearStart (year : Int) : Int :=
  365 * (year - 1) + (year - 1) / 4 - (year - 1) / 100 + (year - 1) / 400

def monthStart (year month : Int) : Int :=
  ((List.range (month.toNat - 1)).map fun k : Nat => monthLength year (k + 1)).sum

structure Valid (d : Date) : Prop where
  month : 1 ≤ d.month ∧ d.month ≤ 12
  day : 1 ≤ d.day ∧ d.day ≤ monthLength d.year d.month

def number (d : Date) : Int := yearStart d.year + monthStart d.year d.month + d.day - 1

def before (a b : Date) : Prop :=
  a.year < b.year ∨ a.year = b.year ∧ (a.month < b.month ∨ a.month = b.month ∧ a.day < b.day)

theorem yearStart_succ (year : Int) : yearStart (year + 1) = yearStart year + yearLength year := by
  unfold yearStart yearLength leap
  split_ifs with h
  · simp only [Bool.and_eq_true, Bool.or_eq_true, decide_eq_true_eq] at h
    omega
  · simp only [Bool.and_eq_true, Bool.or_eq_true, decide_eq_true_eq, not_and_or, not_or] at h
    omega

theorem yearStart_le {a b : Int} (h : a ≤ b) : yearStart a ≤ yearStart b := by
  rcases Int.le_iff_eq_or_lt.mp h with rfl | h
  · exact Int.le_refl _
  · unfold yearStart
    omega

theorem monthStart_succ (year : Int) {month : Int} (h : 1 ≤ month) :
    monthStart year (month + 1) = monthStart year month + monthLength year month := by
  obtain ⟨n, rfl⟩ := Int.le.dest h
  have hnext : (1 + (n : Int) + 1).toNat - 1 = n + 1 := by omega
  have hthis : (1 + (n : Int)).toNat - 1 = n := by omega
  unfold monthStart
  rw [hnext, hthis, List.range_succ, List.map_append, List.sum_append, List.map_singleton,
    List.sum_singleton, Int.add_comm (n : Int)]

theorem monthLength_pos (year month : Int) : 28 ≤ monthLength year month := by
  unfold monthLength
  split_ifs <;> omega

theorem monthStart_le (year : Int) {a b : Int} (ha : 1 ≤ a) (h : a ≤ b) :
    monthStart year a ≤ monthStart year b := by
  obtain ⟨n, rfl⟩ := Int.le.dest h
  induction n with
  | zero => simp
  | succ n ih =>
    have hstep : monthStart year (a + n + 1) = monthStart year (a + n) + monthLength year (a + n) :=
      monthStart_succ year (by omega)
    have hpos := monthLength_pos year (a + n)
    have hle := ih (by omega)
    rw [show a + ((n + 1 : Nat) : Int) = a + n + 1 by omega]
    omega

theorem monthStart_year (year : Int) : monthStart year 13 = yearLength year := by
  have hlengths : monthStart year 13 =
      ((List.range 12).map fun k : Nat => monthLength year (k + 1)).sum := rfl
  rw [hlengths]
  unfold yearLength monthLength
  cases leap year <;> rfl

/-- The day before which a year ends, by its place in the 400-year cycle. -/
theorem yearStart_cycle {era c q y : Int} (hc : 0 ≤ c ∧ c ≤ 3) (hq : 0 ≤ q ∧ q ≤ 24)
    (hy : 0 ≤ y ∧ y ≤ 3) :
    yearStart (100 * c + 4 * q + y + era * 400 + 1) =
      146097 * era + 36524 * c + 1461 * q + 365 * y := by
  have hfour : (100 * c + 4 * q + y + era * 400) / 4 = 100 * era + 25 * c + q := by omega
  have hcentury : (100 * c + 4 * q + y + era * 400) / 100 = 4 * era + c := by omega
  have hcycle : (100 * c + 4 * q + y + era * 400) / 400 = era := by omega
  unfold yearStart
  rw [Int.add_sub_cancel, hfour, hcentury, hcycle]
  omega

theorem monthStart_march (year : Int) {mp : Int} (h : 0 ≤ mp ∧ mp ≤ 9) :
    monthStart year (mp + 3) = yearLength year - 306 + (153 * mp + 2) / 5 := by
  obtain ⟨hlow, hhigh⟩ := h
  unfold monthStart yearLength monthLength
  interval_cases mp <;> cases leap year <;> rfl

theorem monthLength_march (year : Int) {mp : Int} (h : 0 ≤ mp ∧ mp ≤ 9) :
    monthLength year (mp + 3) = (153 * mp + 155) / 5 - (153 * mp + 2) / 5 := by
  obtain ⟨hlow, hhigh⟩ := h
  unfold monthLength
  interval_cases mp <;> rfl

theorem leap_cycle {era c q y : Int} (hq : 0 ≤ q ∧ q ≤ 24)
    (hy : y = 3) (hlast : q = 24 → c = 3) :
    leap (100 * c + 4 * q + y + era * 400 + 1) = true := by
  unfold leap
  simp only [Bool.and_eq_true, Bool.or_eq_true, decide_eq_true_eq]
  omega

theorem Valid.monthStart_day {d : Date} (h : d.Valid) :
    0 ≤ monthStart d.year d.month ∧
      monthStart d.year d.month + d.day ≤ yearLength d.year := by
  obtain ⟨hmonth, hday⟩ := h
  have hfirst : monthStart d.year 1 = 0 := rfl
  have hstart := monthStart_le d.year (a := 1) (by omega) hmonth.1
  have hnext := monthStart_succ d.year hmonth.1
  have hend := monthStart_le d.year (a := d.month + 1) (b := 13) (by omega) (by omega)
  rw [monthStart_year] at hend
  omega

theorem number_lt {a b : Date} (ha : a.Valid) (hb : b.Valid) (h : a.before b) :
    a.number < b.number := by
  obtain ⟨-, hfirst⟩ := ha.monthStart_day
  obtain ⟨hsecond, -⟩ := hb.monthStart_day
  have haday := ha.day
  have hbday := hb.day
  unfold number
  rcases h with hyear | ⟨hyear, hmonth | ⟨hmonth, hday⟩⟩
  · have hnext := yearStart_succ a.year
    have hle : yearStart (a.year + 1) ≤ yearStart b.year := yearStart_le (by omega)
    omega
  · have hnext := monthStart_succ a.year ha.month.1
    have hle : monthStart a.year (a.month + 1) ≤ monthStart a.year b.month :=
      monthStart_le a.year (by have := ha.month; omega) (by omega)
    rw [hyear] at hnext hle haday ⊢
    omega
  · rw [hyear, hmonth]
    omega

theorem before_of_number {a b : Date} (ha : a.Valid) (hb : b.Valid) (h : a.number < b.number) :
    a.before b := by
  by_contra hnot
  have hback : b.before a ∨ a = b := by
    unfold before at hnot ⊢
    rcases a with ⟨ay, am, ad⟩
    rcases b with ⟨yb, mb, db⟩
    simp only [Date.mk.injEq] at hnot ⊢
    omega
  rcases hback with hback | rfl
  · have := number_lt hb ha hback
    omega
  · exact absurd h (by omega)

end Date

end Library
