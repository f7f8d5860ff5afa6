import Zimbr.Library.Calendar
import Zimbr.Client.History
import Zimbr.Relay.MessagesDb
import Zimbr.Relay.Pages
import Mathlib.Tactic.Linarith
import Mathlib.Tactic.Ring

set_option autoImplicit false

/-!
# Timestamps

The source dates messages in nanoseconds since 2001, and the wire in text. Both
order them alike, so the client's history and the relay's pages agree.
-/
namespace Zimbr.Relay
open Library

/-- What `gmtime_r` fills in, with the source's `tm_year` since 1900. -/
structure Tm where
  year : Int
  mon : Int
  mday : Int
  hour : Int
  min : Int
  sec : Int
  deriving DecidableEq, Repr

/-- `gmtime_r`: the UTC calendar of a time since 1970. -/
def gmtime (unix : Int) : Tm :=
  let (year, month, day) := MessagesDb.civil (unix / 86400)
  { year := year - 1900
    mon := month - 1
    mday := day
    hour := unix % 86400 / 3600
    min := unix % 86400 / 60 % 60
    sec := unix % 86400 % 60 }

/-- `%Y-%m-%dT%H:%M:%S`. -/
def strftime (t : Tm) : Bytes :=
  MessagesDb.padded 4 (t.year + 1900) ++ [45] ++ MessagesDb.padded 2 (t.mon + 1) ++ [45] ++
    MessagesDb.padded 2 t.mday ++ [84] ++ MessagesDb.padded 2 t.hour ++ [58] ++
    MessagesDb.padded 2 t.min ++ [58] ++ MessagesDb.padded 2 t.sec

/-- The seconds and the rest of a date, with C's division. -/
def splitDate (ns : Int) : Int × Int :=
  let sec := ns.tdiv 1000000000
  let rem := ns.tmod 1000000000
  if rem < 0 then (sec - 1, rem + 1000000000) else (sec, rem)

/-- `zr_timestamp` into a buffer of `cap` bytes. -/
def zrTimestamp (ns : Int) (cap : Nat) : Option Bytes :=
  let (sec, rem) := splitDate ns
  let t := gmtime (sec + 978307200)
  if t.year < 0 || 8099 < t.year then none
  else
    let out := strftime t ++ [46] ++ MessagesDb.padded 9 rem ++ [90]
    if 0 < out.length && out.length < cap then some out else none

theorem splitDate_floor (ns : Int) : splitDate ns = (ns / 1000000000, ns % 1000000000) := by
  unfold splitDate
  have hdiv := Int.mul_tdiv_add_tmod ns 1000000000
  have hlt : ns.tmod 1000000000 < 1000000000 := Int.tmod_lt_of_pos ns (by omega)
  have hgt : -1000000000 < ns.tmod 1000000000 := by
    have := Int.lt_tmod_of_pos ns (show (0 : Int) < 1000000000 by omega)
    omega
  dsimp only
  split_ifs with hneg
  · refine Prod.ext ?_ ?_ <;> dsimp only <;> omega
  · refine Prod.ext ?_ ?_ <;> dsimp only <;> omega

section Civil

/-- A day of the 400-year cycle, by its century, its four years and its year. -/
theorem cycle_parts {doe : Int} (h : 0 ≤ doe ∧ doe < 146097) :
    ∃ c q y t : Int, doe = 36524 * c + 1461 * q + 365 * y + t ∧ (0 ≤ c ∧ c ≤ 3) ∧
      (0 ≤ q ∧ q ≤ 24) ∧ (0 ≤ y ∧ y ≤ 3) ∧ (0 ≤ t ∧ t ≤ 365) ∧
      (t = 365 → y = 3 ∧ (q = 24 → c = 3)) := by
  have hcentury : ∃ c r : Int, doe = 36524 * c + r ∧ (0 ≤ c ∧ c ≤ 3) ∧ 0 ≤ r ∧
      (r ≤ 36523 ∨ c = 3 ∧ r = 36524) := by
    by_cases hlast : doe = 146096
    · exact ⟨3, 36524, by omega, by omega, by omega, by omega⟩
    · exact ⟨doe / 36524, doe % 36524, by omega, by omega, by omega, by omega⟩
  obtain ⟨c, r, hdoe, hc, hr, hcentury⟩ := hcentury
  have hyear : ∃ y t : Int, r % 1461 = 365 * y + t ∧ (0 ≤ y ∧ y ≤ 3) ∧ 0 ≤ t ∧
      (t ≤ 364 ∨ y = 3 ∧ t = 365) := by
    by_cases hlast : r % 1461 = 1460
    · exact ⟨3, 365, by omega, by omega, by omega, by omega⟩
    · exact ⟨r % 1461 / 365, r % 1461 % 365, by omega, by omega, by omega, by omega⟩
  obtain ⟨y, t, hrest, hy, ht, hyear⟩ := hyear
  exact ⟨c, r / 1461, y, t, by omega, hc, by omega, hy, by omega, by omega⟩

theorem cycle_year {doe c q y t : Int} (hdoe : doe = 36524 * c + 1461 * q + 365 * y + t)
    (hc : 0 ≤ c ∧ c ≤ 3) (hq : 0 ≤ q ∧ q ≤ 24) (hy : 0 ≤ y ∧ y ≤ 3) (ht : 0 ≤ t ∧ t ≤ 365)
    (hleap : t = 365 → y = 3 ∧ (q = 24 → c = 3)) :
    (doe - doe / 1460 + doe / 36524 - doe / 146096) / 365 = 100 * c + 4 * q + y := by
  have hcentury : doe / 36524 = c + (1461 * q + 365 * y + t) / 36524 := by
    rw [hdoe, show 36524 * c + 1461 * q + 365 * y + t = 1461 * q + 365 * y + t + 36524 * c by omega,
      Int.add_mul_ediv_left _ _ (by omega), Int.add_comm]
  have hfour : doe / 1460 = 25 * c + q + (24 * c + q + 365 * y + t) / 1460 := by
    rw [hdoe, show 36524 * c + 1461 * q + 365 * y + t =
      24 * c + q + 365 * y + t + 1460 * (25 * c + q) by omega,
      Int.add_mul_ediv_left _ _ (by omega), Int.add_comm]
  -- The last day of the cycle is the only one that the divisions by 36524 and 146096 see.
  have hlast : doe / 146096 = (1461 * q + 365 * y + t) / 36524 := by
    have hrest : 1461 * q + 365 * y + t ≤ 36524 := by omega
    by_cases hday : 1461 * q + 365 * y + t = 36524
    · have hend : doe = 146096 := by omega
      rw [hend, hday]
      rfl
    · have hbelow : doe < 146096 := by omega
      rw [Int.ediv_eq_zero_of_lt (by omega) hbelow, Int.ediv_eq_zero_of_lt (by omega) (by omega)]
  rw [hlast, hcentury, hfour, hdoe]
  generalize (1461 * q + 365 * y + t) / 36524 = last
  have hextra : 0 ≤ t - (24 * c + q + 365 * y + t) / 1460 ∧
      t - (24 * c + q + 365 * y + t) / 1460 < 365 := by
    by_cases h : 24 * c + q + 365 * y + t < 1460
    · rw [Int.ediv_eq_zero_of_lt (by omega) h]
      omega
    · have hone : (24 * c + q + 365 * y + t) / 1460 = 1 := by
        rw [show 24 * c + q + 365 * y + t = 24 * c + q + 365 * y + t - 1460 + 1460 * 1 by omega,
          Int.add_mul_ediv_left _ _ (by omega), Int.ediv_eq_zero_of_lt (by omega) (by omega)]
        rfl
      rw [hone]
      omega
  generalize (24 * c + q + 365 * y + t) / 1460 = extra at *
  rw [show 36524 * c + 1461 * q + 365 * y + t - (25 * c + q + extra) + (c + last) - last =
    t - extra + 365 * (100 * c + 4 * q + y) by omega, Int.add_mul_ediv_left _ _ (by omega),
    Int.ediv_eq_zero_of_lt hextra.1 hextra.2, Int.zero_add]
theorem cycle_day {doe c q y t : Int} (hdoe : doe = 36524 * c + 1461 * q + 365 * y + t)
    (hq : 0 ≤ q ∧ q ≤ 24) (hy : 0 ≤ y ∧ y ≤ 3) :
    doe - (365 * (100 * c + 4 * q + y) + (100 * c + 4 * q + y) / 4 -
      (100 * c + 4 * q + y) / 100) = t := by
  have hfour : (100 * c + 4 * q + y) / 4 = 25 * c + q := by
    clear hdoe
    omega
  have hcentury : (100 * c + 4 * q + y) / 100 = c := by
    clear hdoe hfour
    omega
  rw [hfour, hcentury, hdoe]
  ring

theorem month_parts {t : Int} (ht : 0 ≤ t ∧ t ≤ 365) :
    0 ≤ (5 * t + 2) / 153 ∧ (5 * t + 2) / 153 ≤ 11 ∧
      (153 * ((5 * t + 2) / 153) + 2) / 5 ≤ t ∧ t < (153 * ((5 * t + 2) / 153) + 155) / 5 := by
  omega

theorem march_date {year t days : Int} (ht : 0 ≤ t ∧ t ≤ 365)
    (hleap : t = 365 → Date.leap (year + 1) = true) (hdays : Date.yearStart (year + 1) + t - 306 = days) :
    let mp := (5 * t + 2) / 153
    let month := if mp < 10 then mp + 3 else mp - 9
    let date := Date.mk (year + (if month ≤ 2 then 1 else 0)) month (t - (153 * mp + 2) / 5 + 1)
    date.Valid ∧ date.number = days := by
  obtain ⟨hlow, hhigh, hfrom, hto⟩ := month_parts ht
  dsimp only
  generalize (5 * t + 2) / 153 = mp at *
  by_cases hearly : mp < 10
  · have hmonth : ¬ mp + 3 ≤ 2 := by omega
    have hrange : 0 ≤ mp ∧ mp ≤ 9 := by omega
    have hstart := Date.monthStart_march year hrange
    have hlength := Date.monthLength_march year hrange
    have hnext := Date.yearStart_succ year
    rw [if_pos hearly, if_neg hmonth, Int.add_zero]
    refine ⟨⟨?_, ?_⟩, ?_⟩
    · dsimp only
      omega
    · dsimp only
      rw [hlength]
      omega
    · unfold Date.number
      dsimp only
      rw [hstart]
      omega
  · have hmonth : mp - 9 ≤ 2 := by omega
    rw [if_neg hearly, if_pos hmonth]
    rcases (show mp = 10 ∨ mp = 11 by omega) with rfl | rfl
    · have hstart : Date.monthStart (year + 1) (10 - 9) = 0 := rfl
      have hlength : Date.monthLength (year + 1) (10 - 9) = 31 := rfl
      refine ⟨⟨?_, ?_⟩, ?_⟩
      · dsimp only
        omega
      · dsimp only
        rw [hlength]
        omega
      · unfold Date.number
        dsimp only
        rw [hstart]
        omega
    · have hstart : Date.monthStart (year + 1) (11 - 9) = 31 := rfl
      have hlength : Date.monthLength (year + 1) (11 - 9) =
          if Date.leap (year + 1) then 29 else 28 := rfl
      refine ⟨⟨?_, ?_⟩, ?_⟩
      · dsimp only
        omega
      · dsimp only
        rw [hlength]
        by_cases hlast : t = 365
        · rw [if_pos (hleap hlast)]
          omega
        · split_ifs <;> omega
      · unfold Date.number
        dsimp only
        rw [hstart]
        omega

theorem civil_number (days : Int) :
    let (year, month, day) := MessagesDb.civil days
    (Date.mk year month day).Valid ∧ (Date.mk year month day).number = days + 719162 := by
  have hrange : 0 ≤ (days + 719468) % 146097 ∧ (days + 719468) % 146097 < 146097 := by omega
  have hdays := Int.mul_ediv_add_emod (days + 719468) 146097
  obtain ⟨c, q, y, t, hdoe, hc, hq, hy, ht, hleap⟩ := cycle_parts hrange
  have hyoe := cycle_year hdoe hc hq hy ht hleap
  unfold MessagesDb.civil
  dsimp only
  generalize (days + 719468) / 146097 = era at *
  generalize (days + 719468) % 146097 = doe at *
  have hdoy := cycle_day hdoe hq hy
  rw [hyoe, hdoy]
  apply march_date ht
  · intro hlast
    exact @Date.leap_cycle era _ _ _ hq (hleap hlast).1 (hleap hlast).2
  · have hnumber := @Date.yearStart_cycle era _ _ _ hc hq hy
    rw [hnumber]
    linarith only [hdays, hdoe]
end Civil

section Text

theorem digitChar_byte {d : Nat} (h : d < 10) : (Nat.digitChar d).toNat.toUInt8.toNat = 48 + d := by
  interval_cases d <;> rfl

theorem decimal_digit {n : Nat} (h : n < 10) :
    decimal n = [(Nat.digitChar n).toNat.toUInt8] := by
  unfold decimal
  rw [Nat.toDigits_of_lt_base h, List.map_singleton]

theorem decimal_step {n : Nat} (h : 10 ≤ n) :
    decimal n = decimal (n / 10) ++ [(Nat.digitChar (n % 10)).toNat.toUInt8] := by
  unfold decimal
  rw [Nat.toDigits_of_base_le (by omega) h, List.map_append, List.map_singleton]

theorem padded_succ (w n : Nat) :
    MessagesDb.padded (w + 2) n =
      MessagesDb.padded (w + 1) (n / 10 : Nat) ++ [(Nat.digitChar (n % 10)).toNat.toUInt8] := by
  unfold MessagesDb.padded
  simp only [Int.toNat_natCast]
  by_cases h : n < 10
  · have hdiv : n / 10 = 0 := by omega
    have hmod : n % 10 = n := by omega
    rw [hdiv, hmod, decimal_digit h, decimal_digit (show 0 < 10 by omega), List.append_assoc]
    simp only [List.length_singleton]
    rw [show w + 2 - 1 = w + 1 by omega, show w + 1 - 1 = w by omega, List.replicate_succ',
      List.append_assoc]
    rfl
  · rw [decimal_step (show 10 ≤ n by omega), List.length_append, List.length_singleton,
      List.append_assoc, show w + 2 - ((decimal (n / 10)).length + 1) =
        w + 1 - (decimal (n / 10)).length by omega]

theorem padded_length {w n : Nat} (h : n < 10 ^ (w + 1)) :
    (MessagesDb.padded (w + 1) n).length = w + 1 := by
  induction w generalizing n with
  | zero =>
    unfold MessagesDb.padded
    rw [Int.toNat_natCast, decimal_digit h]
    rfl
  | succ w ih =>
    rw [Nat.pow_succ] at h
    rw [padded_succ, List.length_append, ih (by omega), List.length_singleton]

theorem lt_append {α : Type} [LinearOrder α] {a b u v : List α} (hlength : a.length = b.length)
    (h : a < b) : a ++ u < b ++ v := by
  induction a generalizing b with
  | nil =>
    rw [List.length_eq_zero_iff.mp hlength.symm] at h
    exact absurd h (lt_irrefl _)
  | cons x a ih =>
    cases b with
    | nil => exact absurd hlength (by simp)
    | cons y b =>
      rw [List.cons_append, List.cons_append, List.cons_lt_cons_iff]
      rcases List.cons_lt_cons_iff.mp h with hfirst | ⟨rfl, hrest⟩
      · exact Or.inl hfirst
      · exact Or.inr ⟨rfl, ih (by simpa using hlength) hrest⟩

theorem padded_lt {w a b : Nat} (h : a < b) (hb : b < 10 ^ (w + 1)) :
    MessagesDb.padded (w + 1) a < MessagesDb.padded (w + 1) b := by
  have hdigit {d e : Nat} (he : e < 10) (h : d < e) :
      [(Nat.digitChar d).toNat.toUInt8] < [(Nat.digitChar e).toNat.toUInt8] := by
    refine List.cons_lt_cons_iff.mpr (Or.inl ?_)
    rw [UInt8.lt_iff_toNat_lt, digitChar_byte he, digitChar_byte (Nat.lt_trans h he)]
    omega
  induction w generalizing a b with
  | zero =>
    have hdigits {n : Nat} (h : n < 10) :
        MessagesDb.padded 1 n = [(Nat.digitChar n).toNat.toUInt8] := by
      unfold MessagesDb.padded
      rw [Int.toNat_natCast, decimal_digit h]
      rfl
    rw [hdigits hb, hdigits (Nat.lt_trans h hb)]
    exact hdigit hb h
  | succ w ih =>
    rw [Nat.pow_succ] at hb
    rw [padded_succ, padded_succ]
    rcases Nat.lt_or_eq_of_le (Nat.div_le_div_right (c := 10) (Nat.le_of_lt h)) with hlt | heq
    · refine lt_append ?_ (ih hlt (by omega))
      rw [padded_length (by omega), padded_length (by omega)]
    · rw [heq]
      exact List.append_left_lt (hdigit (by omega) (by omega))

/-- Numbers of fixed widths, each followed by its separator. -/
def columns : List (Nat × UInt8) → List Nat → Bytes
  | (w, separator) :: shape, n :: fields =>
    MessagesDb.padded (w + 1) n ++ separator :: columns shape fields
  | _, _ => []

def Fits (shape : List (Nat × UInt8)) (fields : List Nat) : Prop :=
  List.Forall₂ (fun c n => n < 10 ^ (c.1 + 1)) shape fields

theorem columns_length {shape : List (Nat × UInt8)} {fields : List Nat} (h : Fits shape fields) :
    (columns shape fields).length = (shape.map fun c => c.1 + 2).sum := by
  induction h with
  | nil => rfl
  | cons hfield _ ih =>
    unfold columns
    rw [List.length_append, padded_length hfield, List.length_cons, ih, List.map_cons,
      List.sum_cons]
    omega

theorem columns_lt {shape : List (Nat × UInt8)} {a b : List Nat} (ha : Fits shape a)
    (hb : Fits shape b) (h : a < b) : columns shape a < columns shape b := by
  induction ha generalizing b with
  | nil =>
    cases hb
    exact absurd h (lt_irrefl _)
  | @cons c m shape a hm _ ih =>
    cases hb with
    | @cons _ n _ b hn hb =>
      rcases List.cons_lt_cons_iff.mp h with hfirst | ⟨rfl, hrest⟩
      · refine lt_append ?_ (padded_lt hfirst hn)
        rw [padded_length hm, padded_length hn]
      · exact List.append_left_lt (List.cons_lt_cons_iff.mpr (Or.inr ⟨rfl, ih hb hrest⟩))

end Text
section Order

def layout : List (Nat × UInt8) := [(3, 45), (1, 45), (1, 84), (1, 58), (1, 58), (1, 46), (8, 90)]

def utcDate (ns : Int) : Date :=
  let (year, month, day) := MessagesDb.civil ((ns / 1000000000 + 978307200) / 86400)
  { year := year, month := month, day := day }

def fields (ns : Int) : List Nat :=
  let second := (ns / 1000000000 + 978307200) % 86400
  [(utcDate ns).year.toNat, (utcDate ns).month.toNat, (utcDate ns).day.toNat,
    (second / 3600).toNat, (second / 60 % 60).toNat, (second % 60).toNat,
    (ns % 1000000000).toNat]

theorem utcDate_number (ns : Int) : (utcDate ns).Valid ∧
    (utcDate ns).number = (ns / 1000000000 + 978307200) / 86400 + 719162 :=
  civil_number _

theorem fields_fit {ns : Int} (hyear : 1900 ≤ (utcDate ns).year ∧ (utcDate ns).year ≤ 9999) :
    Fits layout (fields ns) := by
  obtain ⟨⟨hmonth, hday⟩, -⟩ := utcDate_number ns
  have hlength : Date.monthLength (utcDate ns).year (utcDate ns).month ≤ 31 := by
    unfold Date.monthLength
    split_ifs <;> omega
  have hsecond : 0 ≤ (ns / 1000000000 + 978307200) % 86400 ∧
      (ns / 1000000000 + 978307200) % 86400 < 86400 := by omega
  have hrest : 0 ≤ ns % 1000000000 ∧ ns % 1000000000 < 1000000000 := by omega
  unfold Fits fields layout
  dsimp only
  generalize (ns / 1000000000 + 978307200) % 86400 = second at *
  generalize ns % 1000000000 = rest at *
  refine .cons ?_ <| .cons ?_ <| .cons ?_ <| .cons ?_ <| .cons ?_ <| .cons ?_ <| .cons ?_ .nil
  all_goals
    dsimp only
    omega

theorem clock_lt {s t : Int} (h : s < t) :
    s / 86400 < t / 86400 ∨ s / 86400 = t / 86400 ∧
      (s % 86400 / 3600 < t % 86400 / 3600 ∨ s % 86400 / 3600 = t % 86400 / 3600 ∧
        (s % 86400 / 60 % 60 < t % 86400 / 60 % 60 ∨
          s % 86400 / 60 % 60 = t % 86400 / 60 % 60 ∧ s % 86400 % 60 < t % 86400 % 60)) := by
  have hday : s / 86400 < t / 86400 ∨ s / 86400 = t / 86400 ∧ s % 86400 < t % 86400 := by omega
  rcases hday with hday | ⟨hday, hsecond⟩
  · exact Or.inl hday
  · refine Or.inr ⟨hday, ?_⟩
    generalize s % 86400 = s at *
    generalize t % 86400 = t at *
    clear hday h
    omega

theorem fields_lt {a b : Int} (ha : 0 ≤ (utcDate a).year) (h : a < b) : fields a < fields b := by
  obtain ⟨havalid, hanumber⟩ := utcDate_number a
  obtain ⟨hbvalid, hbnumber⟩ := utcDate_number b
  have hmonth := havalid.month
  have hday := havalid.day
  have hseconds : a / 1000000000 + 978307200 < b / 1000000000 + 978307200 ∨
      a / 1000000000 + 978307200 = b / 1000000000 + 978307200 ∧
        a % 1000000000 < b % 1000000000 := by omega
  unfold fields
  simp only [List.cons_lt_cons_iff]
  rcases hseconds with hsecond | ⟨hsecond, hrest⟩
  · rcases clock_lt hsecond with hdays | ⟨hdays, hclock⟩
    · have hnumber : (utcDate a).number < (utcDate b).number := by
        rw [hanumber, hbnumber]
        omega
      rcases Date.before_of_number havalid hbvalid hnumber with hyear | ⟨hyear, hlater⟩
      · exact Or.inl (by omega)
      · refine Or.inr ⟨by rw [hyear], ?_⟩
        rcases hlater with hmonths | ⟨hmonths, hdate⟩
        · exact Or.inl (by omega)
        · exact Or.inr ⟨by rw [hmonths], Or.inl (by omega)⟩
    · have hdate : utcDate a = utcDate b := by
        unfold utcDate
        rw [hdays]
      refine Or.inr ⟨by rw [hdate], Or.inr ⟨by rw [hdate], Or.inr ⟨by rw [hdate], ?_⟩⟩⟩
      have hsecondA : 0 ≤ (a / 1000000000 + 978307200) % 86400 := by omega
      rcases hclock with hhour | ⟨hhour, hminutes⟩
      · exact Or.inl (by omega)
      · refine Or.inr ⟨by rw [hhour], ?_⟩
        rcases hminutes with hminute | ⟨hminute, hseconds⟩
        · exact Or.inl (by omega)
        · exact Or.inr ⟨by rw [hminute], Or.inl (by omega)⟩
  · have hdate : utcDate a = utcDate b := by
      unfold utcDate
      rw [hsecond]
    rw [hdate, hsecond]
    refine Or.inr ⟨rfl, Or.inr ⟨rfl, Or.inr ⟨rfl, Or.inr ⟨rfl, Or.inr ⟨rfl, Or.inr ⟨rfl,
      Or.inl ?_⟩⟩⟩⟩⟩⟩
    omega

theorem padded_toNat (w : Nat) (n : Int) :
    MessagesDb.padded w n = MessagesDb.padded w (n.toNat : Int) := by
  unfold MessagesDb.padded
  rw [Int.toNat_natCast]

theorem stamp_columns (ns : Int) :
    strftime (gmtime (ns / 1000000000 + 978307200)) ++ [46] ++
      MessagesDb.padded 9 (ns % 1000000000) ++ [90] = columns layout (fields ns) := by
  unfold strftime
  have hyear : (gmtime (ns / 1000000000 + 978307200)).year + 1900 = (utcDate ns).year :=
    Int.sub_add_cancel _ _
  have hmonth : (gmtime (ns / 1000000000 + 978307200)).mon + 1 = (utcDate ns).month :=
    Int.sub_add_cancel _ _
  rw [hyear, hmonth]
  unfold fields layout
  simp only [columns, List.append_assoc, List.cons_append, List.nil_append, ← padded_toNat]
  rfl

theorem columns_fields {ns : Int}
    (hyear : 1900 ≤ (utcDate ns).year ∧ (utcDate ns).year ≤ 9999) :
    (columns layout (fields ns)).length = 30 :=
  columns_length (fields_fit hyear)

theorem zrTimestamp_some {ns : Int} {cap : Nat} {s : Bytes} (h : zrTimestamp ns cap = some s) :
    (1900 ≤ (utcDate ns).year ∧ (utcDate ns).year ≤ 9999) ∧ s = columns layout (fields ns) := by
  unfold zrTimestamp at h
  rw [splitDate_floor] at h
  dsimp only at h
  split_ifs at h with hyear hcap
  have hsince : (gmtime (ns / 1000000000 + 978307200)).year = (utcDate ns).year - 1900 := rfl
  rw [hsince] at hyear
  simp only [Bool.or_eq_true, decide_eq_true_eq, not_or] at hyear
  rw [← Option.some.inj h, stamp_columns]
  exact ⟨by omega, rfl⟩

/-- The adapter's buffer of 48 bytes holds every timestamp. -/
theorem zrTimestamp_timestamp (ns : Int) :
    MessagesDb.timestamp ns = match zrTimestamp ns 48 with
      | some s => .ok s
      | none => .error .invalidTimestamp := by
  have hsince : (gmtime (ns / 1000000000 + 978307200)).year = (utcDate ns).year - 1900 := rfl
  have htext : MessagesDb.timestamp ns =
      if (utcDate ns).year < 1900 || 9999 < (utcDate ns).year then .error .invalidTimestamp
      else .ok (columns layout (fields ns)) := by
    unfold MessagesDb.timestamp fields layout utcDate
    simp only [columns, List.append_assoc, List.cons_append, List.nil_append, ← padded_toNat]
  unfold zrTimestamp
  rw [splitDate_floor]
  dsimp only
  rw [stamp_columns, hsince, htext]
  by_cases hyear : 1900 ≤ (utcDate ns).year ∧ (utcDate ns).year ≤ 9999
  · rw [columns_fields hyear, if_neg (by simp; omega), if_neg (by simp; omega)]
    rfl
  · rw [if_pos (by simp; omega), if_pos (by simp; omega)]

theorem zrTimestamp_order {a b : Int} {cap cap' : Nat} {s t : Bytes}
    (ha : zrTimestamp a cap = some s) (hb : zrTimestamp b cap' = some t) :
    s.length = 30 ∧ (a < b ↔ s < t) := by
  obtain ⟨hayear, rfl⟩ := zrTimestamp_some ha
  obtain ⟨hbyear, rfl⟩ := zrTimestamp_some hb
  have hless {a b : Int} (hayear : 1900 ≤ (utcDate a).year ∧ (utcDate a).year ≤ 9999)
      (hbyear : 1900 ≤ (utcDate b).year ∧ (utcDate b).year ≤ 9999) (h : a < b) :
      columns layout (fields a) < columns layout (fields b) :=
    columns_lt (fields_fit hayear) (fields_fit hbyear) (fields_lt (by omega) h)
  refine ⟨columns_fields hayear, hless hayear hbyear, fun h => ?_⟩
  by_contra hnot
  rcases Int.lt_or_eq_of_le (Int.not_lt.mp hnot) with hlt | rfl
  · exact absurd (hless hbyear hayear hlt) (lt_asymm h)
  · exact absurd h (lt_irrefl _)

theorem zrTimestamp_inj {a b : Int} {cap cap' : Nat} {s : Bytes}
    (ha : zrTimestamp a cap = some s) (hb : zrTimestamp b cap' = some s) : a = b := by
  have hless : ¬ a < b := fun h => lt_irrefl s ((zrTimestamp_order ha hb).2.mp h)
  have hmore : ¬ b < a := fun h => lt_irrefl s ((zrTimestamp_order hb ha).2.mp h)
  omega

end Order

structure Copied (x : Bytes × MessageRow) (p : (Client.Kind × Bytes) × Client.RecordRow) : Prop where
  stamped : zrTimestamp x.2.dateNs 48 = some x.2.record.timestamp
  sortKey : p.2.sortKey = x.2.record.timestamp
  id : p.1.2 = x.1

theorem Copied.order {x y : Bytes × MessageRow}
    {p q : (Client.Kind × Bytes) × Client.RecordRow} (hx : Copied x p) (hy : Copied y q) :
    Client.older p q ↔ messageKey x ≤ messageKey y := by
  have hless := (zrTimestamp_order hx.stamped hy.stamped).2
  have hequal : x.2.dateNs = y.2.dateNs ↔ x.2.record.timestamp = y.2.record.timestamp := by
    constructor
    · intro heq
      have hstamp := hx.stamped
      rw [heq, hy.stamped] at hstamp
      exact (Option.some.inj hstamp).symm
    · intro heq
      have hstamp := hx.stamped
      rw [heq] at hstamp
      exact zrTimestamp_inj hstamp hy.stamped
  unfold Client.older messageKey
  rw [hx.sortKey, hy.sortKey, hx.id, hy.id, Prod.Lex.toLex_le_toLex, hless, hequal]

theorem decodeMessage_stamped {d : Decoders} {features : MessagesDb.Features} {row : Int}
    {c : MessagesDb.MessageColumns} {m : SourceMessage}
    (h : MessagesDb.decodeMessage d features row c = .ok m) :
    zrTimestamp m.date 48 = some m.value.timestamp := by
  unfold MessagesDb.decodeMessage at h
  dsimp only at h
  rw [zrTimestamp_timestamp] at h
  cases hstamp : zrTimestamp c.date 48 with
  | none =>
    rw [hstamp] at h
    cases h
  | some s =>
    rw [hstamp] at h
    cases h
    exact hstamp

/-- Timestamps have one width and the order of their dates, and a decoded message has that of
its date, so rows that the relay has in order are in order at the client. -/
theorem timestamp_order :
    (∀ {a b : Int} {cap cap' : Nat} {s t : Bytes}, zrTimestamp a cap = some s →
      zrTimestamp b cap' = some t → s.length = 30 ∧ t.length = 30 ∧ (a < b ↔ s < t)) ∧
    (∀ rows : List ((Bytes × MessageRow) × ((Client.Kind × Bytes) × Client.RecordRow)),
      (∀ r ∈ rows, Copied r.1 r.2) →
        ((rows.map Prod.snd).Pairwise Client.older ↔
          (rows.map Prod.fst).Pairwise fun x y => messageKey x ≤ messageKey y)) ∧
    ∀ {d : Decoders} {features : MessagesDb.Features} {row : Int} {c : MessagesDb.MessageColumns}
      {m : SourceMessage}, MessagesDb.decodeMessage d features row c = .ok m →
        zrTimestamp m.date 48 = some m.value.timestamp := by
  refine ⟨fun ha hb => ?_, fun rows hrows => ?_, fun h => decodeMessage_stamped h⟩
  · have horder := zrTimestamp_order ha hb
    exact ⟨horder.1, (zrTimestamp_order hb ha).1, horder.2⟩
  · rw [List.pairwise_map, List.pairwise_map]
    exact List.Pairwise.iff_of_mem fun hx hy => (hrows _ hx).order (hrows _ hy)

theorem timestamp_order_before_epoch :
    zrTimestamp (-978307200500000000) 48 = some (text "1969-12-31T23:59:59.500000000Z") ∧
      text "1969-12-31T23:59:59.500000000Z" < text "2001-01-01T00:00:00.000000000Z" := by
  have hbefore :
      zrTimestamp (-978307200500000000) 48 = some (text "1969-12-31T23:59:59.500000000Z") := rfl
  have hepoch : zrTimestamp 0 48 = some (text "2001-01-01T00:00:00.000000000Z") := rfl
  exact ⟨hbefore, (timestamp_order.1 hbefore hepoch).2.2.mp (by decide)⟩

end Zimbr.Relay
