import Mathlib.Data.List.Induction
import Zimbr.Protocol.Common

set_option autoImplicit false

/-!
# Canonical decimals

A string of digits without a leading zero is the decimal of the number it spells,
and of no other.
-/
namespace Zimbr

def digitValue (b : UInt8) : Nat := b.toNat - 48

/-- `std.fmt.parseInt(u64, _, 10)` of a string of digits: a product or a sum past 64 bits is
an error. -/
def parseU64 (digits : Bytes) : Option Nat :=
  digits.foldlM (fun n b =>
    if n * 10 < 2 ^ 64 then if n * 10 + digitValue b < 2 ^ 64 then some (n * 10 + digitValue b) else none
    else none) 0

/-- Digits, and no zero before another. -/
def Canonical (digits : Bytes) : Prop :=
  digits ≠ [] ∧ (∀ b ∈ digits, isDigit b = true) ∧ (1 < digits.length → digits.head? ≠ some 48)

theorem digit_bounds {b : UInt8} (h : isDigit b = true) : 48 ≤ b.toNat ∧ b.toNat ≤ 57 := by
  simpa [isDigit, UInt8.le_iff_toNat_le] using h

theorem digit_char {b : UInt8} (h : isDigit b = true) : (char b).toNat - 48 = digitValue b := by
  have hbounds := digit_bounds h
  have hascii : ∀ n < 58, (Char.ofNat n).toNat = n := by decide
  rw [char, hascii b.toNat (by omega), digitValue]

theorem spelled_from (digits : Bytes) (h : ∀ b ∈ digits, isDigit b = true) (n : Nat) :
    Nat.ofDigitChars 10 (digits.map char) n = digits.foldl (fun n b => n * 10 + digitValue b) n := by
  induction digits generalizing n with
  | nil => rfl
  | cons b rest ih =>
    have hrest := ih fun c hc => h c (List.mem_cons_of_mem b hc)
    have hdigit := digit_char (h b List.mem_cons_self)
    rw [List.map_cons, Nat.ofDigitChars_cons, hrest, List.foldl_cons]
    congr 1
    change 10 * n + ((char b).toNat - 48) = _
    omega

theorem spelled_eq (digits : Bytes) (h : ∀ b ∈ digits, isDigit b = true) :
    spelled digits = digits.foldl (fun n b => n * 10 + digitValue b) 0 := spelled_from digits h 0

theorem le_spelled (digits : Bytes) (n : Nat) :
    n ≤ digits.foldl (fun n b => n * 10 + digitValue b) n := by
  induction digits generalizing n with
  | nil => exact le_rfl
  | cons b rest ih =>
    have hrest := ih (n * 10 + digitValue b)
    rw [List.foldl_cons]
    omega

/-- Parsing overflows exactly when the number spelled is past 64 bits. -/
theorem parseU64_eq {digits : Bytes} (h : ∀ b ∈ digits, isDigit b = true) :
    parseU64 digits = if spelled digits < 2 ^ 64 then some (spelled digits) else none := by
  have hfold (n : Nat) (hn : n < 2 ^ 64) : digits.foldlM (fun n b =>
      if n * 10 < 2 ^ 64 then if n * 10 + digitValue b < 2 ^ 64 then some (n * 10 + digitValue b) else none
      else none) n =
      if digits.foldl (fun n b => n * 10 + digitValue b) n < 2 ^ 64 then
        some (digits.foldl (fun n b => n * 10 + digitValue b) n) else none := by
    clear h
    induction digits generalizing n with
    | nil => exact (if_pos hn).symm
    | cons b rest ih =>
      rw [List.foldlM_cons, List.foldl_cons]
      by_cases hsum : n * 10 + digitValue b < 2 ^ 64
      · rw [if_pos (by omega), if_pos hsum]
        exact ih _ hsum
      · have hgreater := le_spelled rest (n * 10 + digitValue b)
        rw [if_neg (show ¬ rest.foldl _ _ < 2 ^ 64 by omega)]
        split_ifs <;> rfl
  rw [spelled_eq digits h]
  exact hfold 0 (by omega)

theorem decimal_digit : ∀ d < 10, decimal d = [UInt8.ofNat (48 + d)] := by decide

theorem decimal_concat {n d : Nat} (hn : 0 < n) (hd : d < 10) :
    decimal (10 * n + d) = decimal n ++ decimal d := by
  unfold decimal
  rw [← Nat.toDigits_append_toDigits (by omega) hn hd, List.map_append]

theorem decimal_byte {b : UInt8} (h : isDigit b = true) : decimal (digitValue b) = [b] := by
  have hbounds := digit_bounds h
  have hvalue : 48 + digitValue b = b.toNat := by
    unfold digitValue
    omega
  rw [decimal_digit (digitValue b) (by unfold digitValue; omega), hvalue, UInt8.ofNat_toNat]

theorem decimal_head {n : Nat} (hn : 0 < n) : (decimal n).head? ≠ some 48 := by
  induction n using Nat.strongRecOn with
  | _ n ih =>
    by_cases hsmall : n < 10
    · have hhead : ∀ d < 10, 0 < d → (decimal d).head? ≠ some 48 := by decide
      exact hhead n hsmall hn
    · have hsplit : 10 * (n / 10) + n % 10 = n := by omega
      rw [← hsplit, decimal_concat (by omega) (by omega),
        List.head?_append_of_ne_nil _ (decimal_ne_nil _)]
      exact ih (n / 10) (by omega) (by omega)

theorem decimal_spelled {digits : Bytes} (h : Canonical digits) :
    decimal (spelled digits) = digits := by
  induction digits using List.reverseRecOn with
  | nil => exact absurd rfl h.1
  | append_singleton digits b ih =>
    obtain ⟨-, hdigits, hlead⟩ := h
    have hb : isDigit b = true := hdigits b (by simp)
    have hbounds := digit_bounds hb
    have hfront : ∀ c ∈ digits, isDigit c = true := fun c hc => hdigits c (by simp [hc])
    have hvalue : spelled (digits ++ [b]) = 10 * spelled digits + digitValue b := by
      rw [spelled_eq _ hdigits, spelled_eq _ hfront, List.foldl_append, List.foldl_cons,
        List.foldl_nil]
      omega
    rw [hvalue]
    by_cases hnil : digits = []
    · subst hnil
      have hzero : 10 * spelled [] + digitValue b = digitValue b := Nat.zero_add _
      rw [hzero]
      exact decimal_byte hb
    · have hpos := List.length_pos_of_ne_nil hnil
      have hhead : digits.head? ≠ some 48 := by
        have hlong := hlead (by simp; omega)
        rwa [List.head?_append_of_ne_nil _ hnil] at hlong
      have hdecimal := ih ⟨hnil, hfront, fun _ => hhead⟩
      have hvalue : 0 < spelled digits := by
        by_contra hzero
        have heq : spelled digits = 0 := by omega
        rw [heq] at hdecimal
        rw [← hdecimal] at hhead
        exact hhead rfl
      rw [decimal_concat hvalue (by unfold digitValue; omega), hdecimal, decimal_byte hb]

theorem canonical_decimal (n : Nat) : Canonical (decimal n) := by
  refine ⟨decimal_ne_nil n, decimal_digits n, fun hlong => ?_⟩
  cases n with
  | zero => exact absurd hlong (by decide)
  | succ n => exact decimal_head n.succ_pos

theorem canonical_iff {digits : Bytes} : Canonical digits ↔ digits = decimal (spelled digits) := by
  constructor
  · exact fun h => (decimal_spelled h).symm
  · intro h
    rw [h]
    exact canonical_decimal _

end Zimbr
