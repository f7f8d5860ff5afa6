import Mathlib.Data.List.Infix
import Zimbr.Protocol.Utf16

set_option autoImplicit false

/-!
# One code point at a time

A loop over a text takes the length of a sequence from its first byte and decodes it.
Doing so is the same as validating the text.
-/
namespace Zimbr

def utf8ByteSequenceLength (first : UInt8) : Option Nat :=
  if first < 0x80 then some 1
  else if 0xC0 ≤ first && first ≤ 0xDF then some 2
  else if 0xE0 ≤ first && first ≤ 0xEF then some 3
  else if 0xF0 ≤ first && first ≤ 0xF7 then some 4
  else none

/-- `utf8Decode` of a sequence as long as its first byte says. -/
def utf8Decode : Bytes → Option Nat
  | [b0] => some b0.toNat
  | [b0, b1] =>
    let cp := extend (b0.toNat - 0xC0) b1
    if continuation b1 && 0x80 ≤ cp then some cp else none
  | [b0, b1, b2] =>
    let cp := extend (extend (b0.toNat - 0xE0) b1) b2
    if continuation b1 && continuation b2 && 0x800 ≤ cp && !(0xD800 ≤ cp && cp ≤ 0xDFFF) then some cp
    else none
  | [b0, b1, b2, b3] =>
    let cp := extend (extend (extend (b0.toNat - 0xF0) b1) b2) b3
    if continuation b1 && continuation b2 && continuation b3 && 0x10000 ≤ cp && cp ≤ 0x10FFFF then
      some cp
    else none
  | _ => none

/-- The first code point of a text and its length, of which at most `room` bytes are
looked at. -/
def firstCodepoint (s : Bytes) (room : Nat) : Option (Nat × Nat) :=
  match s with
  | [] => none
  | b :: _ =>
    (utf8ByteSequenceLength b).bind fun n =>
      if n ≤ room then (utf8Decode (s.take n)).map (·, n) else none

theorem utf8ByteSequenceLength_bounds {b : UInt8} {n : Nat}
    (h : utf8ByteSequenceLength b = some n) : 1 ≤ n ∧ n ≤ 4 := by
  unfold utf8ByteSequenceLength at h
  split_ifs at h <;> cases h <;> omega

theorem firstCodepoint_bounds {s : Bytes} {room cp n : Nat}
    (h : firstCodepoint s room = some (cp, n)) : 1 ≤ n ∧ n ≤ room := by
  cases s with
  | nil => exact nomatch h
  | cons b rest =>
    obtain ⟨m, hm, h⟩ := Option.bind_eq_some_iff.mp h
    have hbounds := utf8ByteSequenceLength_bounds hm
    split_ifs at h with hroom
    obtain ⟨_, -, heq⟩ := Option.map_eq_some_iff.mp h
    cases heq
    exact ⟨hbounds.1, hroom⟩

section Decode

theorem continuation_iff {b : UInt8} :
    continuation b = true ↔ 0x80 ≤ b.toNat ∧ b.toNat ≤ 0xBF := by
  simp only [continuation, Bool.and_eq_true, decide_eq_true_eq, UInt8.le_iff_toNat_le]
  exact Iff.rfl

theorem secondOfThree_iff {b0 b1 : UInt8} : secondOfThree b0 b1 = true ↔
    continuation b1 = true ∧ (b0.toNat = 0xE0 → 0xA0 ≤ b1.toNat) ∧
      (b0.toNat = 0xED → b1.toNat ≤ 0x9F) := by
  rw [continuation_iff]
  unfold secondOfThree
  split_ifs with hlow hhigh
  · subst hlow
    rw [Bool.and_eq_true, decide_eq_true_eq, decide_eq_true_eq, UInt8.le_iff_toNat_le,
      UInt8.le_iff_toNat_le]
    change 0xA0 ≤ b1.toNat ∧ b1.toNat ≤ 0xBF ↔ _ ∧ ((0xE0 : Nat) = 0xE0 → _) ∧ ((0xE0 : Nat) = 0xED → _)
    omega
  · subst hhigh
    rw [Bool.and_eq_true, decide_eq_true_eq, decide_eq_true_eq, UInt8.le_iff_toNat_le,
      UInt8.le_iff_toNat_le]
    change 0x80 ≤ b1.toNat ∧ b1.toNat ≤ 0x9F ↔ _ ∧ ((0xED : Nat) = 0xE0 → _) ∧ ((0xED : Nat) = 0xED → _)
    omega
  · have hlow : b0.toNat ≠ 0xE0 := fun h => hlow (UInt8.toNat_inj.mp h)
    have hhigh : b0.toNat ≠ 0xED := fun h => hhigh (UInt8.toNat_inj.mp h)
    rw [continuation_iff]
    omega

theorem secondOfFour_iff {b0 b1 : UInt8} : secondOfFour b0 b1 = true ↔
    continuation b1 = true ∧ (b0.toNat = 0xF0 → 0x90 ≤ b1.toNat) ∧
      (b0.toNat = 0xF4 → b1.toNat ≤ 0x8F) := by
  rw [continuation_iff]
  unfold secondOfFour
  split_ifs with hlow hhigh
  · subst hlow
    rw [Bool.and_eq_true, decide_eq_true_eq, decide_eq_true_eq, UInt8.le_iff_toNat_le,
      UInt8.le_iff_toNat_le]
    change 0x90 ≤ b1.toNat ∧ b1.toNat ≤ 0xBF ↔ _ ∧ ((0xF0 : Nat) = 0xF0 → _) ∧ ((0xF0 : Nat) = 0xF4 → _)
    omega
  · subst hhigh
    rw [Bool.and_eq_true, decide_eq_true_eq, decide_eq_true_eq, UInt8.le_iff_toNat_le,
      UInt8.le_iff_toNat_le]
    change 0x80 ≤ b1.toNat ∧ b1.toNat ≤ 0x8F ↔ _ ∧ ((0xF4 : Nat) = 0xF0 → _) ∧ ((0xF4 : Nat) = 0xF4 → _)
    omega
  · have hlow : b0.toNat ≠ 0xF0 := fun h => hlow (UInt8.toNat_inj.mp h)
    have hhigh : b0.toNat ≠ 0xF4 := fun h => hhigh (UInt8.toNat_inj.mp h)
    rw [continuation_iff]
    omega

theorem within_iff {b lo hi : UInt8} :
    (decide (lo ≤ b) && decide (b ≤ hi)) = true ↔ lo.toNat ≤ b.toNat ∧ b.toNat ≤ hi.toNat := by
  rw [Bool.and_eq_true, decide_eq_true_eq, decide_eq_true_eq, UInt8.le_iff_toNat_le,
    UInt8.le_iff_toNat_le]

variable {b0 b1 b2 b3 : UInt8}

theorem decode_two (h0 : 0xC0 ≤ b0.toNat ∧ b0.toNat ≤ 0xDF) :
    utf8Decode [b0, b1] = if 0xC2 ≤ b0 && b0 ≤ 0xDF && continuation b1 then
      some (extend (b0.toNat - 0xC0) b1) else none := by
  have hsame : (continuation b1 && decide (0x80 ≤ extend (b0.toNat - 0xC0) b1)) = true ↔
      (decide (0xC2 ≤ b0) && decide (b0 ≤ 0xDF) && continuation b1) = true := by
    rw [Bool.and_eq_true, Bool.and_eq_true, within_iff, continuation_iff, decide_eq_true_eq]
    unfold extend
    change _ ↔ (0xC2 ≤ b0.toNat ∧ b0.toNat ≤ 0xDF) ∧ _
    omega
  exact if_congr hsame rfl rfl

theorem decode_three (h0 : 0xE0 ≤ b0.toNat ∧ b0.toNat ≤ 0xEF) :
    utf8Decode [b0, b1, b2] =
      if 0xE0 ≤ b0 && b0 ≤ 0xEF && secondOfThree b0 b1 && continuation b2 then
        some (extend (extend (b0.toNat - 0xE0) b1) b2) else none := by
  refine if_congr ?_ rfl rfl
  simp only [Bool.and_eq_true, secondOfThree_iff, Bool.not_eq_true', Bool.and_eq_false_iff,
    decide_eq_true_eq, decide_eq_false_iff_not]
  rw [continuation_iff, continuation_iff]
  unfold extend
  change _ ↔ ((0xE0 ≤ b0.toNat ∧ b0.toNat ≤ 0xEF) ∧ _) ∧ _
  omega

theorem decode_four (h0 : 0xF0 ≤ b0.toNat ∧ b0.toNat ≤ 0xF7) :
    utf8Decode [b0, b1, b2, b3] =
      if 0xF0 ≤ b0 && b0 ≤ 0xF4 && secondOfFour b0 b1 && continuation b2 && continuation b3 then
        some (extend (extend (extend (b0.toNat - 0xF0) b1) b2) b3) else none := by
  refine if_congr ?_ rfl rfl
  simp only [Bool.and_eq_true, secondOfFour_iff, decide_eq_true_eq]
  rw [continuation_iff, continuation_iff, continuation_iff]
  unfold extend
  change _ ↔ (((0xF0 ≤ b0.toNat ∧ b0.toNat ≤ 0xF4) ∧ _) ∧ _) ∧ _
  omega

theorem byteClass (hb : ¬b0 < 0x80) :
    utf8ByteSequenceLength b0 = none ∧ (b0.toNat < 0xC0 ∨ 0xF7 < b0.toNat) ∨
    utf8ByteSequenceLength b0 = some 2 ∧ 0xC0 ≤ b0.toNat ∧ b0.toNat ≤ 0xDF ∨
    utf8ByteSequenceLength b0 = some 3 ∧ 0xE0 ≤ b0.toNat ∧ b0.toNat ≤ 0xEF ∨
    utf8ByteSequenceLength b0 = some 4 ∧ 0xF0 ≤ b0.toNat ∧ b0.toNat ≤ 0xF7 := by
  unfold utf8ByteSequenceLength
  rw [if_neg hb]
  split_ifs with htwo hthree hfour
  · exact Or.inr (Or.inl ⟨rfl, within_iff.mp htwo⟩)
  · exact Or.inr (Or.inr (Or.inl ⟨rfl, within_iff.mp hthree⟩))
  · exact Or.inr (Or.inr (Or.inr ⟨rfl, within_iff.mp hfour⟩))
  · rw [within_iff] at htwo hthree hfour
    refine Or.inl ⟨rfl, ?_⟩
    change ¬(0xC0 ≤ b0.toNat ∧ b0.toNat ≤ 0xDF) at htwo
    change ¬(0xE0 ≤ b0.toNat ∧ b0.toNat ≤ 0xEF) at hthree
    change ¬(0xF0 ≤ b0.toNat ∧ b0.toNat ≤ 0xF7) at hfour
    omega

theorem not_within (lo hi : UInt8) (h : b0.toNat < lo.toNat ∨ hi.toNat < b0.toNat) :
    (decide (lo ≤ b0) && decide (b0 ≤ hi)) = false := by
  rw [Bool.eq_false_iff, ne_eq, within_iff]
  omega

/-- Validating a text decodes its first code point and validates the rest. -/
theorem codepoints_first (s : Bytes) (hs : s ≠ []) :
    codepoints s = (firstCodepoint s s.length).bind fun first =>
      (codepoints (s.drop first.2)).map (first.1 :: ·) := by
  match s with
  | b0 :: tail =>
    rw [codepoints.eq_def]
    dsimp only
    by_cases hascii : b0 < 0x80
    · rw [if_pos hascii]
      simp [firstCodepoint, utf8ByteSequenceLength, hascii, utf8Decode]
    rw [if_neg hascii]
    rcases byteClass hascii with ⟨hnone, hclass⟩ | ⟨htwo, hclass⟩ | ⟨hthree, hclass⟩ | ⟨hfour, hclass⟩
    · have houtside (lo hi : UInt8) (hlo : 0xC0 ≤ lo.toNat) (hhi : hi.toNat ≤ 0xF7) :
          (decide (lo ≤ b0) && decide (b0 ≤ hi)) = false := not_within lo hi (by omega)
      have h2 := houtside 0xC2 0xDF (by decide) (by decide)
      have h3 := houtside 0xE0 0xEF (by decide) (by decide)
      have h4 := houtside 0xF0 0xF4 (by decide) (by decide)
      rcases tail with _ | ⟨b1, _ | ⟨b2, _ | ⟨b3, tail⟩⟩⟩ <;>
        simp [firstCodepoint, hnone, h2, h3, h4]
    · have h3 := not_within 0xE0 0xEF (Or.inl (lt_of_le_of_lt hclass.2 (by decide)))
      have h4 := not_within 0xF0 0xF4 (Or.inl (lt_of_le_of_lt hclass.2 (by decide)))
      rcases tail with _ | ⟨b1, _ | ⟨b2, _ | ⟨b3, tail⟩⟩⟩ <;>
        simp only [firstCodepoint, htwo, h3, h4] <;> simp [decode_two hclass] <;> split_ifs <;> simp
    · have h2 := not_within 0xC2 0xDF (Or.inr (lt_of_lt_of_le (by decide) hclass.1))
      have h4 := not_within 0xF0 0xF4 (Or.inl (lt_of_le_of_lt hclass.2 (by decide)))
      rcases tail with _ | ⟨b1, _ | ⟨b2, _ | ⟨b3, tail⟩⟩⟩ <;>
        simp only [firstCodepoint, hthree, h2, h4] <;> simp [decode_three hclass] <;>
        split_ifs <;> simp
    · have h2 := not_within 0xC2 0xDF (Or.inr (lt_of_lt_of_le (by decide) hclass.1))
      have h3 := not_within 0xE0 0xEF (Or.inr (lt_of_lt_of_le (by decide) hclass.1))
      rcases tail with _ | ⟨b1, _ | ⟨b2, _ | ⟨b3, tail⟩⟩⟩ <;>
        simp only [firstCodepoint, hfour, h2, h3] <;> simp [decode_four hclass]
      split_ifs <;> simp

theorem firstCodepoint_iff {s : Bytes} {room cp n : Nat} :
    firstCodepoint s room = some (cp, n) ↔
      n ≤ room ∧ firstCodepoint (s.take n) n = some (cp, n) := by
  match s with
  | [] => simp [firstCodepoint]
  | b :: rest =>
    constructor
    · intro h
      have hbounds := firstCodepoint_bounds h
      obtain ⟨m, hm, h⟩ := Option.bind_eq_some_iff.mp h
      split_ifs at h
      obtain ⟨_, hdecode, heq⟩ := Option.map_eq_some_iff.mp h
      cases heq
      obtain ⟨k, rfl⟩ : ∃ k, n = k + 1 := ⟨n - 1, by omega⟩
      refine ⟨hbounds.2, ?_⟩
      simp only [List.take_succ_cons] at hdecode ⊢
      simp [firstCodepoint, hm, List.take_take, hdecode]
    · rintro ⟨hroom, h⟩
      have hpos := (firstCodepoint_bounds h).1
      obtain ⟨k, rfl⟩ : ∃ k, n = k + 1 := ⟨n - 1, by omega⟩
      simp only [List.take_succ_cons] at h
      obtain ⟨m, hm, h⟩ := Option.bind_eq_some_iff.mp h
      split_ifs at h
      obtain ⟨_, hdecode, heq⟩ := Option.map_eq_some_iff.mp h
      cases heq
      simp only [List.take_succ_cons, List.take_take, Nat.min_self] at hdecode
      simp [firstCodepoint, hm, hroom, hdecode]

/-- The code point that a text starts with is that of any text with the same first bytes. -/
theorem codepoints_unit {s : Bytes} {room cp n : Nat} (h : firstCodepoint s room = some (cp, n))
    (hroom : room ≤ s.length) (rest : Bytes) :
    codepoints (s.take n ++ rest) = (codepoints rest).map (cp :: ·) := by
  have hbounds := firstCodepoint_bounds h
  have hlength : (s.take n).length = n := List.length_take_of_le (hbounds.2.trans hroom)
  have hne : s.take n ++ rest ≠ [] := by
    intro hnil
    rw [(List.append_eq_nil_iff.mp hnil).1] at hlength
    have hpos := hbounds.1
    simp at hlength
    omega
  have hfirst : firstCodepoint (s.take n ++ rest) (s.take n ++ rest).length = some (cp, n) := by
    rw [firstCodepoint_iff, List.length_append, hlength, List.take_left' hlength]
    exact ⟨Nat.le_add_right n _, (firstCodepoint_iff.mp h).2⟩
  rw [codepoints_first _ hne, hfirst, Option.bind_some, List.drop_left' hlength]

/-- A valid text that another starts with starts with the code point of that text. -/
theorem codepoints_start {s q : Bytes} {cps : List Nat} (hq : q <+: s) (hne : q ≠ [])
    (h : codepoints q = some cps) : ∃ cp n rest, firstCodepoint s q.length = some (cp, n) ∧
      cps = cp :: rest ∧ codepoints (q.drop n) = some rest := by
  rw [codepoints_first q hne] at h
  obtain ⟨⟨cp, n⟩, hfirst, hmap⟩ := Option.bind_eq_some_iff.mp h
  obtain ⟨rest, hrest, rfl⟩ := Option.map_eq_some_iff.mp hmap
  refine ⟨cp, n, rest, ?_, rfl, hrest⟩
  obtain ⟨hroom, hunit⟩ := firstCodepoint_iff.mp hfirst
  obtain ⟨tail, rfl⟩ := hq
  rw [firstCodepoint_iff, List.take_append_of_le_length hroom]
  exact ⟨hroom, hunit⟩

/-- Longer sequences are of continuation bytes, and of no ASCII code point. -/
theorem utf8Decode_spec {unit : Bytes} {cp : Nat} (h : utf8Decode unit = some cp) :
    (∃ b, unit = [b] ∧ cp = b.toNat) ∨
      0x80 ≤ cp ∧ ∃ b rest, unit = b :: rest ∧ rest ≠ [] ∧ ∀ c ∈ rest, continuation c = true := by
  unfold utf8Decode at h
  split at h
  · cases h
    exact Or.inl ⟨_, rfl, rfl⟩
  · dsimp only at h
    split_ifs at h with hcond
    obtain rfl := Option.some.inj h
    simp only [Bool.and_eq_true, decide_eq_true_eq] at hcond
    refine Or.inr ⟨hcond.2, _, _, rfl, List.cons_ne_nil _ _, ?_⟩
    simpa using hcond.1
  · dsimp only at h
    split_ifs at h with hcond
    obtain rfl := Option.some.inj h
    simp only [Bool.and_eq_true, decide_eq_true_eq] at hcond
    refine Or.inr ⟨by omega, _, _, rfl, List.cons_ne_nil _ _, ?_⟩
    simpa using hcond.1.1
  · dsimp only at h
    split_ifs at h with hcond
    obtain rfl := Option.some.inj h
    simp only [Bool.and_eq_true, decide_eq_true_eq] at hcond
    refine Or.inr ⟨by omega, _, _, rfl, List.cons_ne_nil _ _, ?_⟩
    simpa [and_assoc] using hcond.1.1
  · exact nomatch h

/-- A byte of the first code point is zero exactly if the code point is. -/
theorem firstCodepoint_zero {s : Bytes} {room cp n : Nat}
    (h : firstCodepoint s room = some (cp, n)) : 0 ∈ s.take n ↔ cp = 0 := by
  match s with
  | b :: rest =>
    obtain ⟨m, hm, h⟩ := Option.bind_eq_some_iff.mp h
    split_ifs at h
    obtain ⟨_, hdecode, heq⟩ := Option.map_eq_some_iff.mp h
    cases heq
    rcases utf8Decode_spec hdecode with ⟨c, hunit, rfl⟩ | ⟨hwide, c, conts, hunit, hne, hconts⟩
    · rw [hunit, List.mem_singleton, ← UInt8.toNat_inj]
      exact eq_comm
    · rw [hunit]
      refine ⟨fun hmem => ?_, fun hzero => by omega⟩
      obtain ⟨k, rfl⟩ : ∃ k, n = k + 1 := by
        have hpos := (utf8ByteSequenceLength_bounds hm).1
        exact ⟨n - 1, by omega⟩
      rw [List.take_succ_cons, List.cons.injEq] at hunit
      rcases List.mem_cons.mp hmem with hlead | hcont
      · rw [hunit.1, ← hlead] at hm
        cases hm
        exact absurd (hunit.2.symm.trans List.take_zero) hne
      · exact absurd (continuation_iff.mp (hconts 0 hcont)).1 (by decide)

end Decode

section Encode

variable {b0 b1 b2 b3 : UInt8}

theorem byte_of_eq {n : Nat} {b : UInt8} (h : n = b.toNat) : byte n = b := by
  rw [h, byte, UInt8.ofNat_toNat]

theorem encode_one (h : b0 < 0x80) : utf8Encode b0.toNat = some [b0] := by
  have hascii : b0.toNat < 0x80 := h
  rw [utf8Encode, if_pos hascii, byte_of_eq rfl]

theorem encode_two {cp : Nat} (h0 : 0xC0 ≤ b0.toNat ∧ b0.toNat ≤ 0xDF)
    (h : utf8Decode [b0, b1] = some cp) : utf8Encode cp = some [b0, b1] := by
  unfold utf8Decode at h
  dsimp only at h
  split_ifs at h with hcond
  obtain rfl := Option.some.inj h
  simp only [Bool.and_eq_true, decide_eq_true_eq] at hcond
  have hb1 := continuation_iff.mp hcond.1
  have hwide := hcond.2
  unfold extend at hwide ⊢
  rw [utf8Encode, if_neg (by omega), if_pos (by omega)]
  exact congrArg some (congrArg₂ List.cons (byte_of_eq (by omega))
    (congrArg₂ List.cons (byte_of_eq (by omega)) rfl))

theorem encode_three {cp : Nat} (h0 : 0xE0 ≤ b0.toNat ∧ b0.toNat ≤ 0xEF)
    (h : utf8Decode [b0, b1, b2] = some cp) : utf8Encode cp = some [b0, b1, b2] := by
  unfold utf8Decode at h
  dsimp only at h
  split_ifs at h with hcond
  obtain rfl := Option.some.inj h
  simp only [Bool.and_eq_true, Bool.not_eq_true', decide_eq_true_eq] at hcond
  obtain ⟨⟨⟨hb1, hb2⟩, hwide⟩, hplain⟩ := hcond
  have hb1 := continuation_iff.mp hb1
  have hb2 := continuation_iff.mp hb2
  unfold extend at hwide hplain ⊢
  rw [utf8Encode, if_neg (by omega), if_neg (by omega), if_pos (by omega), hplain,
    if_neg Bool.false_ne_true]
  exact congrArg some (congrArg₂ List.cons (byte_of_eq (by omega))
    (congrArg₂ List.cons (byte_of_eq (by omega)) (congrArg₂ List.cons (byte_of_eq (by omega)) rfl)))

theorem encode_four {cp : Nat} (h0 : 0xF0 ≤ b0.toNat ∧ b0.toNat ≤ 0xF7)
    (h : utf8Decode [b0, b1, b2, b3] = some cp) : utf8Encode cp = some [b0, b1, b2, b3] := by
  unfold utf8Decode at h
  dsimp only at h
  split_ifs at h with hcond
  obtain rfl := Option.some.inj h
  simp only [Bool.and_eq_true, decide_eq_true_eq] at hcond
  obtain ⟨⟨⟨⟨hb1, hb2⟩, hb3⟩, hwide⟩, hbound⟩ := hcond
  have hb1 := continuation_iff.mp hb1
  have hb2 := continuation_iff.mp hb2
  have hb3 := continuation_iff.mp hb3
  unfold extend at hwide hbound ⊢
  rw [utf8Encode, if_neg (by omega), if_neg (by omega), if_neg (by omega), if_pos (by omega)]
  exact congrArg some (congrArg₂ List.cons (byte_of_eq (by omega))
    (congrArg₂ List.cons (byte_of_eq (by omega)) (congrArg₂ List.cons (byte_of_eq (by omega))
      (congrArg₂ List.cons (byte_of_eq (by omega)) rfl))))

/-- The first code point is encoded as the bytes it was decoded from. -/
theorem firstCodepoint_encode {s : Bytes} {room cp n : Nat}
    (h : firstCodepoint s room = some (cp, n)) (hroom : room ≤ s.length) :
    utf8Encode cp = some (s.take n) := by
  match s with
  | b0 :: tail =>
    obtain ⟨m, hm, h⟩ := Option.bind_eq_some_iff.mp h
    split_ifs at h with hfit
    obtain ⟨_, hdecode, heq⟩ := Option.map_eq_some_iff.mp h
    cases heq
    rw [List.length_cons] at hroom
    by_cases hascii : b0 < 0x80
    · have hone : n = 1 := by
        rw [utf8ByteSequenceLength, if_pos hascii] at hm
        exact (Option.some.inj hm).symm
      subst hone
      cases hdecode
      exact encode_one hascii
    rcases byteClass hascii with ⟨hnone, -⟩ | ⟨htwo, hclass⟩ | ⟨hthree, hclass⟩ | ⟨hfour, hclass⟩
    · exact absurd (hnone.symm.trans hm) nofun
    · cases htwo.symm.trans hm
      match tail, hfit.trans hroom with
      | b1 :: tail, _ => exact encode_two hclass hdecode
    · cases hthree.symm.trans hm
      match tail, hfit.trans hroom with
      | b1 :: b2 :: tail, _ => exact encode_three hclass hdecode
    · cases hfour.symm.trans hm
      match tail, hfit.trans hroom with
      | b1 :: b2 :: b3 :: tail, _ => exact encode_four hclass hdecode

theorem codepoints_encode {s : Bytes} {cps : List Nat} (h : codepoints s = some cps) :
    ∃ units, List.Forall₂ (fun cp unit => utf8Encode cp = some unit) cps units ∧
      units.flatten = s := by
  induction hn : s.length using Nat.strongRecOn generalizing s cps with
  | _ n ih =>
    by_cases hnil : s = []
    · subst hnil
      cases h
      exact ⟨[], .nil, rfl⟩
    · rw [codepoints_first s hnil] at h
      obtain ⟨⟨cp, k⟩, hfirst, hmap⟩ := Option.bind_eq_some_iff.mp h
      obtain ⟨rest, hrest, rfl⟩ := Option.map_eq_some_iff.mp hmap
      have hbounds := firstCodepoint_bounds hfirst
      have hshorter : (s.drop k).length < n := by
        rw [List.length_drop]
        omega
      obtain ⟨units, hunits, hflatten⟩ := ih _ hshorter hrest rfl
      have hunit := firstCodepoint_encode hfirst le_rfl
      refine ⟨s.take k :: units, .cons hunit hunits, ?_⟩
      rw [List.flatten_cons, hflatten, List.take_append_drop]

end Encode

section Utf16

def utf16Units (cp : Nat) : List Nat :=
  if cp < 0x10000 then [cp] else [0xD800 + (cp - 0x10000) / 1024, 0xDC00 + (cp - 0x10000) % 1024]

theorem scalar_of_encode {cp : Nat} {unit : Bytes} (h : utf8Encode cp = some unit) :
    cp < 0xD800 ∨ 0xDFFF < cp ∧ cp < 0x110000 := by
  unfold utf8Encode at h
  split_ifs at h with hone htwo hthree hplain hfour
  · omega
  · omega
  · simp only [Bool.and_eq_true, decide_eq_true_eq] at hplain
    omega
  · omega

theorem utf16Codepoints_units {cps : List Nat}
    (h : ∀ cp ∈ cps, cp < 0xD800 ∨ 0xDFFF < cp ∧ cp < 0x110000) :
    utf16Codepoints (cps.flatMap utf16Units) = some cps := by
  induction cps with
  | nil => rfl
  | cons cp rest ih =>
    have hcp := h cp List.mem_cons_self
    have hrest := ih fun other hmem => h other (List.mem_cons_of_mem cp hmem)
    rw [List.flatMap_cons]
    by_cases hplain : cp < 0x10000
    · have hhigh : highSurrogate cp = false := by
        simp [highSurrogate]
        omega
      have hlow : lowSurrogate cp = false := by
        simp [lowSurrogate]
        omega
      rw [utf16Units, if_pos hplain, List.singleton_append, utf16Codepoints.eq_def]
      dsimp only
      rw [hhigh, hlow, if_neg Bool.false_ne_true, if_neg Bool.false_ne_true, hrest]
      rfl
    · have hhigh : highSurrogate (0xD800 + (cp - 0x10000) / 1024) = true := by
        simp [highSurrogate]
        omega
      have hlow : lowSurrogate (0xDC00 + (cp - 0x10000) % 1024) = true := by
        simp [lowSurrogate]
        omega
      rw [utf16Units, if_neg hplain, List.cons_append, List.singleton_append,
        utf16Codepoints.eq_def]
      dsimp only
      rw [hhigh, hlow, if_pos rfl, if_pos rfl, hrest, Option.map_some]
      have hcp : 0x10000 + (0xD800 + (cp - 0x10000) / 1024 - 0xD800) * 1024 +
          (0xDC00 + (cp - 0x10000) % 1024 - 0xDC00) = cp := by omega
      rw [hcp]

theorem codepoints_scalar {s : Bytes} {cps : List Nat} (h : codepoints s = some cps) :
    ∀ cp ∈ cps, cp < 0xD800 ∨ 0xDFFF < cp ∧ cp < 0x110000 := by
  obtain ⟨units, hunits, -⟩ := codepoints_encode h
  clear h
  induction hunits with
  | nil => exact nofun
  | cons hunit _ ih => exact List.forall_mem_cons.mpr ⟨scalar_of_encode hunit, ih⟩

/-- A valid text is converted back from its UTF-16 units. -/
theorem utf16ToUtf8_units {s : Bytes} {cps : List Nat} (h : codepoints s = some cps) :
    utf16ToUtf8 (cps.flatMap utf16Units) = some s := by
  obtain ⟨units, hunits, hflatten⟩ := codepoints_encode h
  have hmap : cps.mapM utf8Encode = some units := by
    clear h hflatten
    induction hunits with
    | nil => rfl
    | cons hunit _ ih => simp [List.mapM_cons, hunit, ih]
  unfold utf16ToUtf8
  rw [utf16Codepoints_units (codepoints_scalar h), Option.bind_some, hmap, Option.map_some,
    hflatten]

end Utf16

end Zimbr
