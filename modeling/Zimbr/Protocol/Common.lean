import Mathlib.Algebra.Group.Int.Defs
import Mathlib.Algebra.Group.Nat.Defs
import Mathlib.Algebra.GroupWithZero.Nat
import Mathlib.Data.List.Lex
import Mathlib.Data.List.Basic

set_option autoImplicit false

/-!
# Bytes, UTF-8 and decimal numbers

Texts and identifiers are byte strings, as in the source: a text read from
Messages need not be valid UTF-8.
-/
namespace Zimbr

abbrev Bytes := List UInt8

/-- Bytes compare as unsigned numbers, and texts as `memcmp` does. -/
instance instLinearOrderUInt8 : LinearOrder UInt8 where
  le_refl := UInt8.le_refl
  le_trans _ _ _ := UInt8.le_trans
  lt_iff_le_not_ge a b := by
    rw [UInt8.lt_iff_toNat_lt, UInt8.le_iff_toNat_le, UInt8.le_iff_toNat_le]
    omega
  le_antisymm _ _ := UInt8.le_antisymm
  le_total := UInt8.le_total
  toDecidableLE := inferInstance
  toDecidableEq := inferInstance
  toDecidableLT := inferInstance

instance instLawfulBEqBytes : LawfulBEq Bytes := inferInstance

def text (s : String) : Bytes := s.toUTF8.data.toList

def continuation (b : UInt8) : Bool := 0x80 ≤ b && b ≤ 0xBF

/-- One byte more of a code point whose leading bits are `high`. -/
def extend (high : Nat) (b : UInt8) : Nat := high * 64 + (b.toNat - 0x80)

/-- The second byte of a three-byte sequence: neither overlong nor a surrogate. -/
def secondOfThree (b0 b1 : UInt8) : Bool :=
  if b0 = 0xE0 then 0xA0 ≤ b1 && b1 ≤ 0xBF
  else if b0 = 0xED then 0x80 ≤ b1 && b1 ≤ 0x9F
  else continuation b1

/-- The second byte of a four-byte sequence: neither overlong nor past U+10FFFF. -/
def secondOfFour (b0 b1 : UInt8) : Bool :=
  if b0 = 0xF0 then 0x90 ≤ b1 && b1 ≤ 0xBF
  else if b0 = 0xF4 then 0x80 ≤ b1 && b1 ≤ 0x8F
  else continuation b1

def codepoints : Bytes → Option (List Nat)
  | [] => some []
  | b0 :: tail =>
    if b0 < 0x80 then (codepoints tail).map (b0.toNat :: ·)
    else match tail with
    | [] => none
    | b1 :: tail =>
      if 0xC2 ≤ b0 && b0 ≤ 0xDF && continuation b1 then
        (codepoints tail).map (extend (b0.toNat - 0xC0) b1 :: ·)
      else match tail with
      | [] => none
      | b2 :: tail =>
        if 0xE0 ≤ b0 && b0 ≤ 0xEF && secondOfThree b0 b1 && continuation b2 then
          (codepoints tail).map (extend (extend (b0.toNat - 0xE0) b1) b2 :: ·)
        else match tail with
        | [] => none
        | b3 :: tail =>
          if 0xF0 ≤ b0 && b0 ≤ 0xF4 && secondOfFour b0 b1 && continuation b2 && continuation b3 then
            (codepoints tail).map (extend (extend (extend (b0.toNat - 0xF0) b1) b2) b3 :: ·)
          else none

def utf8ValidateSlice (s : Bytes) : Bool := (codepoints s).isSome

def isDigit (b : UInt8) : Bool := 48 ≤ b && b ≤ 57

def isAlphabetic (b : UInt8) : Bool := (65 ≤ b && b ≤ 90) || (97 ≤ b && b ≤ 122)

def isAlphanumeric (b : UInt8) : Bool := isDigit b || isAlphabetic b

def char (b : UInt8) : Char := Char.ofNat b.toNat

def decimal (n : Nat) : Bytes := (Nat.toDigits 10 n).map fun c => c.toNat.toUInt8

/-- `{d}` of a signed number. -/
def signed (n : Int) : Bytes := if n < 0 then 45 :: decimal n.natAbs else decimal n.natAbs

def spelled (digits : Bytes) : Nat := Nat.ofDigitChars 10 (digits.map char) 0

def maxInt : Nat := 2 ^ 63 - 1

/-- `std.fmt.parseInt(i64, _, 10)`: a sign, then digits that single or repeated
underscores may separate but neither start nor end. -/
def parseInt (s : Bytes) : Option Int :=
  let negative := s.head? = some 45
  let body := if negative || s.head? = some 43 then s.tail else s
  let digits := body.filter fun b => b != 95
  if body = [] || body.head? = some 95 || body.getLast? = some 95 then none
  else if !digits.all isDigit then none
  else if negative then
    if spelled digits ≤ maxInt + 1 then some (-(spelled digits : Int)) else none
  else if spelled digits ≤ maxInt then some (spelled digits) else none

theorem isDigit_toUInt8 {c : Char} (h : c.isDigit = true) :
    isDigit c.toNat.toUInt8 = true ∧ char c.toNat.toUInt8 = c := by
  simp only [Char.isDigit, ge_iff_le, Bool.and_eq_true, decide_eq_true_eq, UInt32.le_iff_toNat_le]
    at h
  obtain ⟨hlow, hhigh⟩ : 48 ≤ c.toNat ∧ c.toNat ≤ 57 := h
  have hbyte : c.toNat.toUInt8.toNat = c.toNat := by
    rw [Nat.toUInt8, UInt8.toNat_ofNat']
    exact Nat.mod_eq_of_lt (by omega)
  constructor
  · simp [isDigit, UInt8.le_iff_toNat_le, hbyte, hlow, hhigh]
  · rw [char, hbyte, Char.ofNat_toNat]

theorem decimal_digits (n : Nat) : ∀ b ∈ decimal n, isDigit b = true := by
  intro b hb
  obtain ⟨c, hc, rfl⟩ := List.mem_map.mp hb
  exact (isDigit_toUInt8 (Nat.isDigit_of_mem_toDigits (by omega) (by omega) hc)).1

theorem decimal_ne_nil (n : Nat) : decimal n ≠ [] := by
  simp [decimal, Nat.toDigits_ne_nil]

theorem spelled_decimal (n : Nat) : spelled (decimal n) = n := by
  have hchars : (decimal n).map char = Nat.toDigits 10 n := by
    rw [decimal, List.map_map]
    refine (List.map_congr_left fun c hc => ?_).trans (List.map_id _)
    exact (isDigit_toUInt8 (Nat.isDigit_of_mem_toDigits (by omega) (by omega) hc)).2
  rw [spelled, hchars, Nat.ofDigitChars_toDigits (by omega) (by omega)]

theorem parseInt_decimal_eq (n : Nat) :
    parseInt (decimal n) = if n ≤ maxInt then some (n : Int) else none := by
  obtain ⟨b, rest, hd⟩ := List.exists_cons_of_ne_nil (decimal_ne_nil n)
  have hdigits := decimal_digits n
  have hhead : isDigit b = true := hdigits b (by rw [hd]; exact List.mem_cons_self)
  have hb : b ≠ 45 ∧ b ≠ 43 ∧ b ≠ 95 := by
    refine ⟨?_, ?_, ?_⟩ <;> rintro rfl <;> exact absurd hhead (by decide)
  have hlast : (decimal n).getLast? ≠ some 95 := fun hl =>
    absurd (hdigits 95 (List.mem_of_getLast? hl)) (by decide)
  have hfilter : ((decimal n).filter fun b => b != 95) = decimal n := by
    refine List.filter_eq_self.mpr fun b hb => ?_
    have hne : b ≠ 95 := by
      rintro rfl
      exact absurd (hdigits 95 hb) (by decide)
    simpa using hne
  have hneg : (decimal n).head? ≠ some 45 := by rw [hd]; simpa using hb.1
  have hpos : (decimal n).head? ≠ some 43 := by rw [hd]; simpa using hb.2.1
  have hus : (decimal n).head? ≠ some 95 := by rw [hd]; simpa using hb.2.2
  have hall : (decimal n).all isDigit = true := List.all_eq_true.mpr hdigits
  simp [parseInt, hneg, hpos, hus, hlast, hfilter, hall, decimal_ne_nil, spelled_decimal]

theorem parseInt_decimal {n : Nat} (h : n ≤ maxInt) : parseInt (decimal n) = some n := by
  rw [parseInt_decimal_eq, if_pos h]
  rfl

theorem parseInt_signed {n : Int} (hlow : -(2 ^ 63) ≤ n) (hhigh : n < 2 ^ 63) :
    parseInt (signed n) = some n := by
  by_cases hneg : n < 0
  · obtain ⟨k, hk⟩ : ∃ k, n.natAbs = k := ⟨_, rfl⟩
    have hdigits := decimal_digits k
    have hfilter : ((decimal k).filter fun b => b != 95) = decimal k := by
      refine List.filter_eq_self.mpr fun b hb => ?_
      have hne : b ≠ 95 := by
        rintro rfl
        exact absurd (hdigits 95 hb) (by decide)
      simpa using hne
    have hhead : (decimal k).head? ≠ some 95 := fun h =>
      absurd (hdigits 95 (List.mem_of_mem_head? h)) (by decide)
    have hlast : (decimal k).getLast? ≠ some 95 := fun h =>
      absurd (hdigits 95 (List.mem_of_getLast? h)) (by decide)
    have hall : (decimal k).all isDigit = true := List.all_eq_true.mpr hdigits
    have hbound : k ≤ maxInt + 1 := by
      unfold maxInt
      omega
    have habs : -(k : Int) = n := by omega
    rw [signed, if_pos hneg, hk]
    simp [parseInt, hhead, hlast, hfilter, hall, decimal_ne_nil, spelled_decimal, hbound, habs]
  · have hbound : n.natAbs ≤ maxInt := by
      unfold maxInt
      omega
    rw [signed, if_neg hneg, parseInt_decimal hbound]
    exact congrArg some (by omega)

theorem parseInt_bounded {s : Bytes} {n : Int} (h : parseInt s = some n) :
    -(2 ^ 63) ≤ n ∧ n < 2 ^ 63 := by
  unfold parseInt maxInt at h
  dsimp only at h
  split_ifs at h
  all_goals
    rw [Option.some.injEq] at h
    omega

end Zimbr
