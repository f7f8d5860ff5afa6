import Mathlib.Data.List.Infix
import Zimbr.Protocol.Utf8

set_option autoImplicit false

/-!
# UTF-16

Texts of archives may be UTF-16, and attribute ranges count UTF-16 units.
-/
namespace Zimbr

def byte (n : Nat) : UInt8 := UInt8.ofNat n

/-- `utf8Encode`: surrogates and numbers past U+10FFFF have no encoding. -/
def utf8Encode (cp : Nat) : Option Bytes :=
  if cp < 0x80 then some [byte cp]
  else if cp < 0x800 then some [byte (0xC0 + cp / 64), byte (0x80 + cp % 64)]
  else if cp < 0x10000 then
    if 0xD800 ≤ cp && cp ≤ 0xDFFF then none
    else some [byte (0xE0 + cp / 4096), byte (0x80 + cp / 64 % 64), byte (0x80 + cp % 64)]
  else if cp < 0x110000 then
    some [byte (0xF0 + cp / 262144), byte (0x80 + cp / 4096 % 64), byte (0x80 + cp / 64 % 64),
      byte (0x80 + cp % 64)]
  else none

def highSurrogate (unit : Nat) : Bool := 0xD800 ≤ unit && unit ≤ 0xDBFF

def lowSurrogate (unit : Nat) : Bool := 0xDC00 ≤ unit && unit ≤ 0xDFFF

/-- The code points of UTF-16 units; a surrogate that is not of a pair has none. -/
def utf16Codepoints : List Nat → Option (List Nat)
  | [] => some []
  | unit :: rest =>
    if highSurrogate unit then
      match rest with
      | [] => none
      | low :: rest =>
        if lowSurrogate low then
          (utf16Codepoints rest).map fun cps =>
            (0x10000 + (unit - 0xD800) * 1024 + (low - 0xDC00)) :: cps
        else none
    else if lowSurrogate unit then none
    else (utf16Codepoints rest).map (unit :: ·)

/-- `utf16LeToUtf8Alloc`. -/
def utf16ToUtf8 (units : List Nat) : Option Bytes :=
  (utf16Codepoints units).bind fun cps => (cps.mapM utf8Encode).map List.flatten

/-- `utf8CodepointSequenceLength`. -/
def sequenceLength (cp : Nat) : Nat :=
  if cp < 0x80 then 1 else if cp < 0x800 then 2 else if cp < 0x10000 then 3 else 4

def utf16Length (cp : Nat) : Nat := if cp > 0xFFFF then 2 else 1

structure Unit8 (cp : Nat) (unit : Bytes) : Prop where
  length : unit.length = sequenceLength cp
  lead : ∃ b rest, unit = b :: rest ∧ continuation b = false ∧ (∀ c ∈ rest, continuation c = true) ∧
    (b = 0xEF → unit.length = 3)
  valid : ∀ rest, utf8ValidateSlice (unit ++ rest) = utf8ValidateSlice rest

theorem secondOfThree_continuation {b b' : UInt8} (h : secondOfThree b b' = true) :
    continuation b' = true := by
  unfold secondOfThree at h
  unfold continuation at h ⊢
  simp only [Bool.and_eq_true, decide_eq_true_eq, UInt8.le_iff_toNat_le] at h ⊢
  split_ifs at h <;> simp only [Bool.and_eq_true, decide_eq_true_eq] at h <;>
    (simp at h ⊢; omega)

theorem secondOfFour_continuation {b b' : UInt8} (h : secondOfFour b b' = true) :
    continuation b' = true := by
  unfold secondOfFour at h
  unfold continuation at h ⊢
  simp only [Bool.and_eq_true, decide_eq_true_eq, UInt8.le_iff_toNat_le] at h ⊢
  split_ifs at h <;> simp only [Bool.and_eq_true, decide_eq_true_eq] at h <;>
    (simp at h ⊢; omega)

theorem continuation_toNat {b : UInt8} (h : continuation b = true) :
    0x80 ≤ b.toNat ∧ b.toNat ≤ 0xBF := by
  simpa [continuation, UInt8.le_iff_toNat_le] using h

theorem unit_of_lead {cp : Nat} {b : UInt8} {rest : Bytes}
    (hlength : rest.length + 1 = sequenceLength cp) (hlead : 0xC0 ≤ b)
    (hrest : ∀ c ∈ rest, continuation c = true) (hthree : b = 0xEF → rest.length = 2)
    (hvalid : ∀ bytes, utf8ValidateSlice (b :: rest ++ bytes) = utf8ValidateSlice bytes) :
    Unit8 cp (b :: rest) := by
  refine ⟨hlength, ⟨b, rest, rfl, ?_, hrest, fun h => congrArg Nat.succ (hthree h)⟩, hvalid⟩
  have hlead : 0xC0 ≤ b.toNat := hlead
  unfold continuation
  simp only [UInt8.le_iff_toNat_le, Bool.and_eq_false_iff, decide_eq_false_iff_not]
  right
  simp
  omega

/-- A valid text that is not empty starts with the bytes of its first code point. -/
theorem codepoints_cons {b : UInt8} {tail : Bytes} {cps : List Nat}
    (h : codepoints (b :: tail) = some cps) : ∃ cp rest unit bytes, cps = cp :: rest ∧
      b :: tail = unit ++ bytes ∧ codepoints bytes = some rest ∧ Unit8 cp unit := by
  rw [codepoints.eq_def] at h
  dsimp only at h
  split_ifs at h with hascii
  · obtain ⟨rest, hrest, rfl⟩ := Option.map_eq_some_iff.mp h
    have hbyte : b.toNat < 0x80 := hascii
    refine ⟨b.toNat, rest, [b], tail, rfl, rfl, hrest, ?_, ?_, fun _ => utf8_ascii hascii⟩
    · unfold sequenceLength
      rw [if_pos hbyte]
      rfl
    · refine ⟨b, [], rfl, ?_, by simp, ?_⟩
      · unfold continuation
        simp only [UInt8.le_iff_toNat_le, Bool.and_eq_false_iff, decide_eq_false_iff_not]
        left
        simp
        omega
      · rintro rfl
        exact absurd hascii (by decide)
  split at h
  · exact nomatch h
  next b1 tail =>
  split_ifs at h with htwo
  · obtain ⟨rest, hrest, rfl⟩ := Option.map_eq_some_iff.mp h
    refine ⟨_, rest, [b, b1], tail, rfl, rfl, hrest, unit_of_lead ?_ ?_ ?_ ?_ fun bytes => ?_⟩
    · have hsecond := continuation_toNat (Bool.and_eq_true _ _ ▸ htwo).2
      simp [UInt8.le_iff_toNat_le] at htwo
      unfold sequenceLength extend
      rw [if_neg (by omega), if_pos (by omega)]
      rfl
    · simp only [Bool.and_eq_true, decide_eq_true_eq] at htwo
      exact (by decide : (0xC0 : UInt8) ≤ 0xC2).trans htwo.1.1
    · intro c hc
      simp only [Bool.and_eq_true] at htwo
      rw [List.mem_singleton.mp hc]
      exact htwo.2
    · rintro rfl
      simp at htwo
    · rw [utf8ValidateSlice, codepoints.eq_def]
      simp only [List.cons_append, List.nil_append]
      rw [if_neg hascii, if_pos htwo, Option.isSome_map]
      rfl
  split at h
  · exact nomatch h
  next b2 tail =>
  split_ifs at h with hthree
  · obtain ⟨rest, hrest, rfl⟩ := Option.map_eq_some_iff.mp h
    refine ⟨_, rest, [b, b1, b2], tail, rfl, rfl, hrest, unit_of_lead ?_ ?_ ?_ ?_ fun bytes => ?_⟩
    · rw [Bool.and_eq_true, Bool.and_eq_true] at hthree
      obtain ⟨⟨hlead, hsecond⟩, hthird⟩ := hthree
      have hthird := continuation_toNat hthird
      have hcontinued := continuation_toNat (secondOfThree_continuation hsecond)
      have hoverlong : b.toNat = 0xE0 → 0xA0 ≤ b1.toNat := by
        intro hb
        have hb : b = 0xE0 := UInt8.toNat_inj.mp hb
        simp [secondOfThree, hb, UInt8.le_iff_toNat_le] at hsecond
        exact hsecond.1
      simp [UInt8.le_iff_toNat_le] at hlead
      unfold sequenceLength extend
      rw [if_neg (by omega), if_neg (by omega), if_pos (by omega)]
      rfl
    · simp only [Bool.and_eq_true, decide_eq_true_eq] at hthree
      exact (by decide : (0xC0 : UInt8) ≤ 0xE0).trans hthree.1.1.1
    · intro c hc
      simp only [Bool.and_eq_true] at hthree
      rcases List.mem_pair.mp hc with rfl | rfl
      · exact secondOfThree_continuation hthree.1.2
      · exact hthree.2
    · exact fun _ => rfl
    · rw [utf8ValidateSlice, codepoints.eq_def]
      simp only [List.cons_append, List.nil_append]
      rw [if_neg hascii, if_neg htwo, if_pos hthree, Option.isSome_map]
      rfl
  split at h
  · exact nomatch h
  next b3 tail =>
  split_ifs at h with hfour
  · obtain ⟨rest, hrest, rfl⟩ := Option.map_eq_some_iff.mp h
    refine ⟨_, rest, [b, b1, b2, b3], tail, rfl, rfl, hrest,
      unit_of_lead ?_ ?_ ?_ ?_ fun bytes => ?_⟩
    · rw [Bool.and_eq_true, Bool.and_eq_true, Bool.and_eq_true] at hfour
      obtain ⟨⟨⟨hlead, hsecond⟩, hthird⟩, hfourth⟩ := hfour
      have hthird := continuation_toNat hthird
      have hfourth := continuation_toNat hfourth
      have hcontinued := continuation_toNat (secondOfFour_continuation hsecond)
      have hoverlong : b.toNat = 0xF0 → 0x90 ≤ b1.toNat := by
        intro hb
        have hb : b = 0xF0 := UInt8.toNat_inj.mp hb
        simp [secondOfFour, hb, UInt8.le_iff_toNat_le] at hsecond
        exact hsecond.1
      simp [UInt8.le_iff_toNat_le] at hlead
      unfold sequenceLength extend
      rw [if_neg (by omega), if_neg (by omega), if_neg (by omega)]
      rfl
    · simp only [Bool.and_eq_true, decide_eq_true_eq] at hfour
      exact (by decide : (0xC0 : UInt8) ≤ 0xF0).trans hfour.1.1.1.1
    · intro c hc
      simp only [Bool.and_eq_true] at hfour
      rcases List.mem_cons.mp hc with rfl | hc
      · exact secondOfFour_continuation hfour.1.1.2
      · rcases List.mem_pair.mp hc with rfl | rfl
        · exact hfour.1.2
        · exact hfour.2
    · rintro rfl
      simp at hfour
    · rw [utf8ValidateSlice, codepoints.eq_def]
      simp only [List.cons_append, List.nil_append]
      rw [if_neg hascii, if_neg htwo, if_neg hthree, if_pos hfour, Option.isSome_map]
      rfl

theorem codepoints_units {s : Bytes} {cps : List Nat} (h : codepoints s = some cps) :
    ∃ units : List Bytes, s = units.flatten ∧ List.Forall₂ Unit8 cps units := by
  induction hn : s.length using Nat.strongRecOn generalizing s cps with
  | _ n ih =>
    cases s with
    | nil =>
      cases h
      exact ⟨[], rfl, .nil⟩
    | cons b tail =>
      obtain ⟨cp, rest, unit, bytes, rfl, hbytes, hrest, hunit⟩ := codepoints_cons h
      have hpos : 0 < unit.length := by
        obtain ⟨c, _, hlead, -⟩ := hunit.lead
        rw [hlead]
        exact Nat.succ_pos _
      have hlength := congrArg List.length hbytes
      rw [List.length_append] at hlength
      obtain ⟨units, hflatten, hunits⟩ := ih bytes.length (by omega) hrest rfl
      refine ⟨unit :: units, ?_, .cons hunit hunits⟩
      rw [hbytes, hflatten, List.flatten_cons]

theorem units_valid {cps : List Nat} {units : List Bytes} (h : List.Forall₂ Unit8 cps units) :
    utf8ValidateSlice units.flatten = true := by
  induction h with
  | nil => rfl
  | cons hunit _ ih =>
    rw [List.flatten_cons, hunit.valid]
    exact ih

/-- U+FFFC, which stands where an attachment is. -/
def objectReplacement : Bytes := [0xEF, 0xBF, 0xBC]

/-- An occurrence that starts in the bytes of a code point is these bytes. -/
theorem Unit8.replacement {cp : Nat} {unit rest : Bytes} (h : Unit8 cp unit) {j : Nat}
    (hj : j < unit.length) (hoccurs : objectReplacement <+: (unit ++ rest).drop j) :
    j = 0 ∧ unit = objectReplacement := by
  obtain ⟨b, conts, rfl, -, hconts, hthree⟩ := h.lead
  cases j with
  | zero =>
    rw [List.drop_zero, List.cons_append] at hoccurs
    have hb : 0xEF = b := (List.cons_prefix_cons.mp hoccurs).1
    have hlength : (b :: conts).length = objectReplacement.length := hthree hb.symm
    have hunit : b :: conts <+: (b :: conts) ++ rest := List.prefix_append _ _
    exact ⟨rfl, (List.prefix_of_prefix_length_le hunit hoccurs hlength.le).eq_of_length hlength⟩
  | succ j =>
    have hj : j < conts.length := Nat.lt_of_succ_lt_succ hj
    rw [List.cons_append, List.drop_succ_cons, List.drop_append_of_le_length hj.le,
      List.drop_eq_getElem_cons hj, List.cons_append] at hoccurs
    have hcontinued := hconts _ (List.getElem_mem hj)
    rw [← (List.cons_prefix_cons.mp hoccurs).1] at hcontinued
    exact absurd hcontinued (by decide)

/-- An occurrence that starts in a valid text ends in it. -/
theorem replacement_within {s t : Bytes} (hs : utf8ValidateSlice s = true) {j : Nat}
    (hj : j < s.length) (hoccurs : objectReplacement <+: (s ++ t).drop j) :
    objectReplacement <+: s.drop j := by
  obtain ⟨cps, hcps⟩ := Option.isSome_iff_exists.mp hs
  obtain ⟨units, rfl, hunits⟩ := codepoints_units hcps
  clear hs hcps
  induction hunits generalizing j with
  | nil => exact absurd hj (Nat.not_lt_zero _)
  | @cons cp unit cps units hunit _ ih =>
    rw [List.flatten_cons, List.append_assoc] at hoccurs
    rw [List.flatten_cons] at hj ⊢
    by_cases hfirst : j < unit.length
    · obtain ⟨rfl, rfl⟩ := hunit.replacement hfirst hoccurs
      exact List.prefix_append _ _
    · rw [List.length_append] at hj
      have hsplit : j = unit.length + (j - unit.length) := by omega
      rw [hsplit, List.drop_length_add_append] at hoccurs ⊢
      exact ih (by omega) hoccurs

/-- `std.mem.indexOf` finds U+FFFC. -/
def hasReplacement (s : Bytes) : Bool := s.tails.any objectReplacement.isPrefixOf

theorem hasReplacement_iff {s : Bytes} :
    hasReplacement s = true ↔ ∃ j, objectReplacement <+: s.drop j := by
  unfold hasReplacement
  simp only [List.any_eq_true, List.mem_tails, List.isPrefixOf_iff_prefix]
  constructor
  · rintro ⟨rest, hsuffix, hoccurs⟩
    exact ⟨s.length - rest.length, List.suffix_iff_eq_drop.mp hsuffix ▸ hoccurs⟩
  · rintro ⟨j, hoccurs⟩
    exact ⟨s.drop j, List.drop_suffix j s, hoccurs⟩

/-- Occurrences do not cross the end of a valid text. -/
theorem hasReplacement_append {s : Bytes} (hs : utf8ValidateSlice s = true) (t : Bytes) :
    hasReplacement (s ++ t) = (hasReplacement s || hasReplacement t) := by
  rw [Bool.eq_iff_iff, Bool.or_eq_true, hasReplacement_iff, hasReplacement_iff,
    hasReplacement_iff]
  constructor
  · rintro ⟨j, hoccurs⟩
    by_cases hj : j < s.length
    · exact Or.inl ⟨j, replacement_within hs hj hoccurs⟩
    · have hsplit : j = s.length + (j - s.length) := by omega
      rw [hsplit, List.drop_length_add_append] at hoccurs
      exact Or.inr ⟨_, hoccurs⟩
  · rintro (⟨j, hoccurs⟩ | ⟨j, hoccurs⟩)
    · refine ⟨j, hoccurs.trans ?_⟩
      rw [List.drop_append]
      exact List.prefix_append _ _
    · refine ⟨s.length + j, ?_⟩
      rw [List.drop_length_add_append]
      exact hoccurs

end Zimbr
