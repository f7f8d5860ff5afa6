import Zimbr.Protocol.Common

set_option autoImplicit false

/-!
# Valid UTF-8

A valid text is a sequence of ASCII bytes and of longer units without any, so
what treats ASCII bytes alone keeps it valid.
-/
namespace Zimbr

theorem utf8_nil : utf8ValidateSlice [] = true := rfl

theorem utf8_ascii {b : UInt8} {rest : Bytes} (hb : b < 0x80) :
    utf8ValidateSlice (b :: rest) = utf8ValidateSlice rest := by
  rw [utf8ValidateSlice, codepoints.eq_def]
  dsimp only
  rw [if_pos hb, Option.isSome_map]
  rfl

/-- The bytes are one unit of a valid text, none of them ASCII. -/
structure Wide (unit : Bytes) : Prop where
  nonempty : unit ≠ []
  high : ∀ b ∈ unit, 0x80 ≤ b
  valid : ∀ rest, utf8ValidateSlice (unit ++ rest) = utf8ValidateSlice rest

theorem continuation_high {b : UInt8} (h : continuation b = true) : 0x80 ≤ b := by
  simp only [continuation, Bool.and_eq_true, decide_eq_true_eq] at h
  exact h.1

theorem secondOfThree_high {b b' : UInt8} (h : secondOfThree b b' = true) : 0x80 ≤ b' := by
  unfold secondOfThree at h
  split_ifs at h
  · simp only [Bool.and_eq_true, decide_eq_true_eq] at h
    exact (by decide : (0x80 : UInt8) ≤ 0xA0).trans h.1
  · simp only [Bool.and_eq_true, decide_eq_true_eq] at h
    exact h.1
  · exact continuation_high h

theorem secondOfFour_high {b b' : UInt8} (h : secondOfFour b b' = true) : 0x80 ≤ b' := by
  unfold secondOfFour at h
  split_ifs at h
  · simp only [Bool.and_eq_true, decide_eq_true_eq] at h
    exact (by decide : (0x80 : UInt8) ≤ 0x90).trans h.1
  · simp only [Bool.and_eq_true, decide_eq_true_eq] at h
    exact h.1
  · exact continuation_high h

/-- A valid text that starts with no ASCII byte starts with a longer unit. -/
theorem exists_wide {b : UInt8} {tail : Bytes} (hb : ¬b < 0x80)
    (h : utf8ValidateSlice (b :: tail) = true) :
    ∃ unit rest, b :: tail = unit ++ rest ∧ Wide unit := by
  have hhigh : 0x80 ≤ b := not_lt.mp hb
  rw [utf8ValidateSlice, codepoints.eq_def] at h
  dsimp only at h
  rw [if_neg hb] at h
  split at h
  · exact nomatch h
  · next b1 tail =>
    split_ifs at h with htwo
    · refine ⟨[b, b1], tail, rfl, List.cons_ne_nil _ _, fun c hc => ?_, fun rest => ?_⟩
      · simp only [Bool.and_eq_true] at htwo
        rcases List.mem_pair.mp hc with rfl | rfl
        · exact hhigh
        · exact continuation_high htwo.2
      · rw [utf8ValidateSlice, codepoints.eq_def]
        simp only [List.cons_append, List.nil_append]
        rw [if_neg hb, if_pos htwo, Option.isSome_map]
        rfl
    · split at h
      · exact nomatch h
      · next b2 tail =>
        split_ifs at h with hthree
        · refine ⟨[b, b1, b2], tail, rfl, List.cons_ne_nil _ _, fun c hc => ?_, fun rest => ?_⟩
          · simp only [Bool.and_eq_true] at hthree
            rcases List.mem_cons.mp hc with rfl | hc
            · exact hhigh
            · rcases List.mem_pair.mp hc with rfl | rfl
              · exact secondOfThree_high hthree.1.2
              · exact continuation_high hthree.2
          · rw [utf8ValidateSlice, codepoints.eq_def]
            simp only [List.cons_append, List.nil_append]
            rw [if_neg hb, if_neg htwo, if_pos hthree, Option.isSome_map]
            rfl
        · split at h
          · exact nomatch h
          · next b3 tail =>
            split_ifs at h with hfour
            · refine ⟨[b, b1, b2, b3], tail, rfl, List.cons_ne_nil _ _, fun c hc => ?_,
                fun rest => ?_⟩
              · simp only [Bool.and_eq_true] at hfour
                rcases List.mem_cons.mp hc with rfl | hc
                · exact hhigh
                · rcases List.mem_cons.mp hc with rfl | hc
                  · exact secondOfFour_high hfour.1.1.2
                  · rcases List.mem_pair.mp hc with rfl | rfl
                    · exact continuation_high hfour.1.2
                    · exact continuation_high hfour.2
              · rw [utf8ValidateSlice, codepoints.eq_def]
                simp only [List.cons_append, List.nil_append]
                rw [if_neg hb, if_neg htwo, if_neg hthree, if_pos hfour, Option.isSome_map]
                rfl
            · exact nomatch h

/-- Induction over the units of a valid text. -/
theorem utf8_induction {P : Bytes → Prop} (nil : P [])
    (ascii : ∀ b rest, b < 0x80 → P rest → P (b :: rest))
    (wide : ∀ unit rest, Wide unit → P rest → P (unit ++ rest)) (s : Bytes)
    (h : utf8ValidateSlice s = true) : P s := by
  induction hn : s.length using Nat.strongRecOn generalizing s with
  | _ n ih =>
    cases s with
    | nil => exact nil
    | cons b tail =>
      by_cases hb : b < 0x80
      · rw [utf8_ascii hb] at h
        exact ascii b tail hb (ih tail.length (by simp [← hn]) tail h rfl)
      · obtain ⟨unit, rest, hunit, hwide⟩ := exists_wide hb h
        rw [hunit] at h hn ⊢
        rw [hwide.valid] at h
        have hpos := List.length_pos_of_ne_nil hwide.nonempty
        rw [List.length_append] at hn
        exact wide unit rest hwide (ih rest.length (by omega) rest h rfl)

theorem utf8_rest {s : Bytes} (hs : utf8ValidateSlice s = true) (t : Bytes) :
    utf8ValidateSlice (s ++ t) = utf8ValidateSlice t := by
  refine utf8_induction (P := fun s => utf8ValidateSlice (s ++ t) = utf8ValidateSlice t) rfl
    ?_ ?_ s hs
  · intro b rest hb ih
    rw [List.cons_append, utf8_ascii hb]
    exact ih
  · intro unit rest hwide ih
    rw [List.append_assoc, hwide.valid]
    exact ih

theorem utf8_append {s t : Bytes} (hs : utf8ValidateSlice s = true)
    (ht : utf8ValidateSlice t = true) : utf8ValidateSlice (s ++ t) = true :=
  (utf8_rest hs t).trans ht

/-- A filter that drops ASCII bytes alone keeps the text valid. -/
theorem utf8_filter {p : UInt8 → Bool} (hp : ∀ b, 0x80 ≤ b → p b = true) {s : Bytes}
    (hs : utf8ValidateSlice s = true) : utf8ValidateSlice (s.filter p) = true := by
  refine utf8_induction (P := fun s => utf8ValidateSlice (s.filter p) = true) rfl ?_ ?_ s hs
  · intro b rest hb ih
    rw [List.filter_cons]
    split_ifs
    · rw [utf8_ascii hb]
      exact ih
    · exact ih
  · intro unit rest hwide ih
    rw [List.filter_append, List.filter_eq_self.mpr fun b hb => hp b (hwide.high b hb),
      hwide.valid]
    exact ih

/-- A map that keeps ASCII bytes ASCII and the others as they are keeps the text valid. -/
theorem utf8_map {f : UInt8 → UInt8} (hascii : ∀ b, b < 0x80 → f b < 0x80)
    (hhigh : ∀ b, 0x80 ≤ b → f b = b) {s : Bytes} (hs : utf8ValidateSlice s = true) :
    utf8ValidateSlice (s.map f) = true := by
  refine utf8_induction (P := fun s => utf8ValidateSlice (s.map f) = true) rfl ?_ ?_ s hs
  · intro b rest hb ih
    rw [List.map_cons, utf8_ascii (hascii b hb)]
    exact ih
  · intro unit rest hwide ih
    have hsame : unit.map f = unit :=
      (List.map_congr_left fun b hb => hhigh b (hwide.high b hb)).trans (List.map_id' unit)
    rw [List.map_append, hsame, hwide.valid]
    exact ih

theorem utf8_of_ascii {s : Bytes} (h : ∀ b ∈ s, b < 0x80) : utf8ValidateSlice s = true := by
  induction s with
  | nil => rfl
  | cons b rest ih =>
    rw [utf8_ascii (h b List.mem_cons_self)]
    exact ih fun c hc => h c (List.mem_cons_of_mem b hc)

theorem utf8_front {s t : Bytes} (h : utf8ValidateSlice (s ++ t) = true) (ht : ∀ b ∈ t, b < 0x80) :
    utf8ValidateSlice s = true := by
  refine utf8_induction
    (P := fun w => ∀ s t, w = s ++ t → (∀ b ∈ t, b < 0x80) → utf8ValidateSlice s = true)
    ?_ ?_ ?_ (s ++ t) h s t rfl ht
  · intro s t hnil _
    rw [(List.append_eq_nil_iff.mp hnil.symm).1]
    rfl
  · intro b rest hb ih s t hsplit ht
    cases s with
    | nil => rfl
    | cons c s =>
      obtain ⟨rfl, hrest⟩ := List.cons.inj hsplit
      rw [utf8_ascii hb]
      exact ih s t hrest ht
  · intro unit rest hwide ih s t hsplit ht
    rcases List.append_eq_append_iff.mp hsplit with ⟨front, rfl, hrest⟩ | ⟨back, hunit, rfl⟩
    · rw [hwide.valid]
      exact ih front t hrest ht
    · cases back with
      | nil =>
        have hvalid := hwide.valid []
        rw [hunit, List.append_nil, List.append_nil] at hvalid
        exact hvalid.trans utf8_nil
      | cons b back =>
        have hhigh := hwide.high b (by rw [hunit]; simp)
        exact absurd (ht b (by simp)) (not_lt.mpr hhigh)

/-! Where a valid text may be cut. -/

def Boundary (s : Bytes) (i : Nat) : Prop := i ≤ s.length ∧ utf8ValidateSlice (s.take i) = true

instance (s : Bytes) (i : Nat) : Decidable (Boundary s i) := inferInstanceAs (Decidable (_ ∧ _))

section Boundary

variable {s : Bytes} {i j : Nat}

theorem boundary_zero (s : Bytes) : Boundary s 0 := ⟨Nat.zero_le _, rfl⟩

theorem boundary_length (hs : utf8ValidateSlice s = true) : Boundary s s.length :=
  ⟨le_rfl, by rwa [List.take_length]⟩

theorem Boundary.drop (h : Boundary s i) : utf8ValidateSlice (s.drop i) = utf8ValidateSlice s := by
  rw [← utf8_rest h.2, List.take_append_drop]

theorem Boundary.between (hi : Boundary s i) (hj : Boundary s j) (hle : i ≤ j) :
    utf8ValidateSlice ((s.drop i).take (j - i)) = true := by
  have hsplit : s.take j = s.take i ++ (s.drop i).take (j - i) := by
    rw [← List.take_append_drop i (s.take j), List.take_take, Nat.min_eq_left hle, List.drop_take]
  rw [← utf8_rest hi.2, ← hsplit]
  exact hj.2

theorem Boundary.after (hi : Boundary s i) (hj : Boundary (s.drop i) j) : Boundary s (i + j) := by
  obtain ⟨hlength, hvalid⟩ := hj
  rw [List.length_drop] at hlength
  have hbound := hi.1
  refine ⟨by omega, ?_⟩
  rw [List.take_add, utf8_rest hi.2]
  exact hvalid

theorem Boundary.append (hs : utf8ValidateSlice s = true) (t : Bytes) : Boundary (s ++ t) s.length :=
  ⟨by simp, by rwa [List.take_left]⟩

end Boundary

end Zimbr
