import Zimbr.Protocol.Utf8Decode

set_option autoImplicit false

/-!
# Bounded text

The text of a message is shown up to so many bytes and lines. Runs of ordinary ASCII
are skipped in blocks.
-/
namespace Zimbr.Display

def lineSeparator (cp : Nat) : Bool := cp = 10 || cp = 13 || cp = 0x2028 || cp = 0x2029

/-- A byte that the blocks leave to the scalar path. -/
def special (b : UInt8) : Bool := 128 ≤ b || b = 0 || b = 10 || b = 13

/-- The scalar path: the length of the next code point and the line it leads to, unless
the text ends before it. -/
def advance (rest : Bytes) (room line lines : Nat) : Option (Nat × Nat) :=
  match firstCodepoint rest room with
  | none => none
  | some (cp, n) =>
    if cp = 0 then none
    else if lineSeparator cp then if lines ≤ line then none else some (n, line + 1)
    else some (n, line)

theorem advance_first {rest : Bytes} {room line lines n next : Nat}
    (h : advance rest room line lines = some (n, next)) :
    ∃ cp, firstCodepoint rest room = some (cp, n) ∧ cp ≠ 0 ∧
      (lineSeparator cp = true ∧ line < lines ∧ next = line + 1 ∨
        lineSeparator cp = false ∧ next = line) := by
  unfold advance at h
  split at h
  · exact nomatch h
  next cp m hfirst =>
  split_ifs at h with hzero hline hlast
  · cases h
    exact ⟨cp, hfirst, hzero, Or.inl ⟨hline, Nat.lt_of_not_le hlast, rfl⟩⟩
  · cases h
    exact ⟨cp, hfirst, hzero, Or.inr ⟨Bool.eq_false_iff.mpr hline, rfl⟩⟩

section Loop

variable (blocks : Bool) (value : Bytes) (stop lines : Nat)

/-- The loop of `prefix`, with or without blocks of 16 bytes. -/
def prefixEnd (start line : Nat) : Nat :=
  if _hmore : start < stop then
    if blocks && 16 ≤ stop - start && !((value.drop start).take 16).any special then
      prefixEnd (start + 16) line
    else match _h : advance (value.drop start) (stop - start) line lines with
      | none => start
      | some (n, line) => prefixEnd (start + n) line
  else start
termination_by stop - start
decreasing_by
  · omega
  · obtain ⟨cp, hfirst, -⟩ := advance_first _h
    have hpos := (firstCodepoint_bounds hfirst).1
    omega

end Loop

/-- `prefix`. -/
def prefixOf (value : Bytes) (limit lines : Nat) : Bytes :=
  value.take (prefixEnd true value (min value.length limit) lines 0 1)

def scalarPrefix (value : Bytes) (limit lines : Nat) : Bytes :=
  value.take (prefixEnd false value (min value.length limit) lines 0 1)

section Blocks

variable {value : Bytes} {stop lines : Nat}

theorem prefixEnd_stop (blocks : Bool) {start : Nat} (h : stop ≤ start) (line : Nat) :
    prefixEnd blocks value stop lines start line = start := by
  rw [prefixEnd, dif_neg (Nat.not_lt.mpr h)]

theorem prefixEnd_advance {blocks : Bool} {start line : Nat} (hmore : start < stop)
    (hblock : (blocks && 16 ≤ stop - start && !((value.drop start).take 16).any special) = false) :
    prefixEnd blocks value stop lines start line =
      match advance (value.drop start) (stop - start) line lines with
      | none => start
      | some (n, line) => prefixEnd blocks value stop lines (start + n) line := by
  rw [prefixEnd, dif_pos hmore, hblock, if_neg Bool.false_ne_true]
  split <;> rename_i h <;> rw [h]

theorem advance_ordinary {b : UInt8} {rest : Bytes} {room line : Nat} (hb : special b = false)
    (hroom : 1 ≤ room) : advance (b :: rest) room line lines = some (1, line) := by
  simp only [special, Bool.or_eq_false_iff, decide_eq_false_iff_not] at hb
  obtain ⟨⟨⟨hhigh, hzero⟩, hfeed⟩, hreturn⟩ := hb
  have hascii : b < 0x80 := not_le.mp hhigh
  have hlow : b.toNat < 128 := hascii
  have hzero : b.toNat ≠ 0 := fun h => hzero (UInt8.toNat_inj.mp h)
  have hfeed : b.toNat ≠ 10 := fun h => hfeed (UInt8.toNat_inj.mp h)
  have hreturn : b.toNat ≠ 13 := fun h => hreturn (UInt8.toNat_inj.mp h)
  have hline : lineSeparator b.toNat = false := by
    simp [lineSeparator, hfeed, hreturn]
    omega
  simp [advance, firstCodepoint, utf8ByteSequenceLength, hascii, hroom, utf8Decode, hzero, hline]

/-- The scalar path takes a run of ordinary bytes one at a time. -/
theorem scalar_run {start line : Nat} (run : Nat) (hroom : start + run ≤ stop)
    (hlength : stop ≤ value.length) (hplain : ((value.drop start).take run).any special = false) :
    prefixEnd false value stop lines start line =
      prefixEnd false value stop lines (start + run) line := by
  induction run generalizing start with
  | zero => rfl
  | succ run ih =>
    have hstart : start < value.length := by omega
    rw [List.drop_eq_getElem_cons hstart, List.take_succ_cons, List.any_cons,
      Bool.or_eq_false_iff] at hplain
    rw [prefixEnd_advance (by omega) (by rfl), List.drop_eq_getElem_cons hstart,
      advance_ordinary hplain.1 (by omega)]
    dsimp only
    rw [ih (by omega) hplain.2]
    congr 1
    omega

/-- Skipping blocks changes nothing. -/
theorem prefixEnd_blocks (hlength : stop ≤ value.length) (start line : Nat) :
    prefixEnd true value stop lines start line = prefixEnd false value stop lines start line := by
  induction hn : stop - start using Nat.strongRecOn generalizing start line with
  | _ n ih =>
    by_cases hmore : start < stop
    · cases hblock : (decide (16 ≤ stop - start) && !((value.drop start).take 16).any special) with
      | true =>
        simp only [Bool.and_eq_true, decide_eq_true_eq, Bool.not_eq_true'] at hblock
        rw [scalar_run 16 (by omega) hlength hblock.2, prefixEnd, dif_pos hmore, if_pos]
        · exact ih _ (by omega) (start + 16) line rfl
        · simp [hblock.1, hblock.2]
      | false =>
        rw [prefixEnd_advance hmore (by rw [Bool.true_and]; exact hblock),
          prefixEnd_advance hmore (by rfl)]
        split
        · rfl
        next n line h =>
        obtain ⟨cp, hfirst, -⟩ := advance_first h
        have hpos := (firstCodepoint_bounds hfirst).1
        exact ih _ (by omega) (start + n) line rfl
    · rw [prefixEnd_stop true (by omega), prefixEnd_stop false (by omega)]

end Blocks

def separators (s : Bytes) : Nat := ((codepoints s).getD []).countP lineSeparator

structure Shown (room line lines : Nat) (s : Bytes) : Prop where
  valid : utf8ValidateSlice s = true
  clean : 0 ∉ s
  length : s.length ≤ room
  lines : line + separators s ≤ lines

/-- Of what a text starts with, the longest that may be shown. -/
def Longest (rest : Bytes) (room line lines : Nat) (s : Bytes) : Prop :=
  s <+: rest ∧ Shown room line lines s ∧
    ∀ s', s' <+: rest → Shown room line lines s' → s'.length ≤ s.length

section Longest

variable {rest : Bytes} {room line lines : Nat}

theorem separators_unit {n cp : Nat} (h : firstCodepoint rest room = some (cp, n))
    (hroom : room ≤ rest.length) {s : Bytes} (hs : utf8ValidateSlice s = true) :
    separators (rest.take n ++ s) = separators s + if lineSeparator cp then 1 else 0 := by
  obtain ⟨cps, hcps⟩ := Option.isSome_iff_exists.mp hs
  unfold separators
  rw [codepoints_unit h hroom, hcps, Option.map_some, Option.getD_some, Option.getD_some,
    List.countP_cons]

theorem shown_nil (h : line ≤ lines) : Shown room line lines [] :=
  ⟨utf8_nil, List.not_mem_nil, Nat.zero_le room, h⟩

theorem shown_cons {n next : Nat} (h : advance rest room line lines = some (n, next))
    (hroom : room ≤ rest.length) {s : Bytes} (hs : Shown (room - n) next lines s) :
    Shown room line lines (rest.take n ++ s) := by
  obtain ⟨cp, hfirst, hzero, hline⟩ := advance_first h
  have hbounds := firstCodepoint_bounds hfirst
  have hlength : (rest.take n).length = n := List.length_take_of_le (hbounds.2.trans hroom)
  have hseparators := separators_unit hfirst hroom hs.valid
  have hlines := hs.lines
  have hfit := hs.length
  refine ⟨?_, ?_, ?_, ?_⟩
  · rw [utf8ValidateSlice, codepoints_unit hfirst hroom, Option.isSome_map]
    exact hs.valid
  · intro hmem
    rcases List.mem_append.mp hmem with hunit | hrest
    · exact hzero ((firstCodepoint_zero hfirst).mp hunit)
    · exact hs.clean hrest
  · rw [List.length_append, hlength]
    omega
  · rw [hseparators]
    rcases hline with ⟨hsep, -, rfl⟩ | ⟨hplain, rfl⟩
    · rw [if_pos hsep]
      omega
    · rw [hplain, if_neg Bool.false_ne_true]
      exact hlines

/-- A text that may be shown starts with the code point that the scalar path takes. -/
theorem shown_uncons {s : Bytes} (hs : Shown room line lines s) (hne : s ≠ [])
    (hstart : s <+: rest) (hroom : room ≤ rest.length) :
    ∃ n next, advance rest room line lines = some (n, next) ∧
      ∃ s', s = rest.take n ++ s' ∧ s' <+: rest.drop n ∧ Shown (room - n) next lines s' := by
  obtain ⟨cps, hcps⟩ := Option.isSome_iff_exists.mp hs.valid
  obtain ⟨cp, n, tail, hshort, -, hrest⟩ := codepoints_start hstart hne hcps
  have hbounds := firstCodepoint_bounds hshort
  have hfirst : firstCodepoint rest room = some (cp, n) :=
    firstCodepoint_iff.mpr ⟨hbounds.2.trans hs.length, (firstCodepoint_iff.mp hshort).2⟩
  have htake : rest.take n = s.take n := by
    obtain ⟨more, rfl⟩ := hstart
    exact List.take_append_of_le_length hbounds.2
  have hvalid : utf8ValidateSlice (s.drop n) = true := by
    rw [utf8ValidateSlice, hrest]
    rfl
  have hsplit : s = rest.take n ++ s.drop n := by rw [htake, List.take_append_drop]
  have hseparators := separators_unit hfirst hroom hvalid
  rw [← hsplit] at hseparators
  have hlines := hs.lines
  have hfit := hs.length
  have hzero : cp ≠ 0 := by
    rintro rfl
    have hmem := (firstCodepoint_zero hfirst).mpr rfl
    exact hs.clean (hsplit ▸ List.mem_append_left _ hmem)
  have hclean : 0 ∉ s.drop n := fun hmem => hs.clean (List.mem_of_mem_drop hmem)
  have hshort' : (s.drop n).length ≤ room - n := by
    rw [List.length_drop]
    omega
  have hafter : s.drop n <+: rest.drop n := hstart.drop n
  have hadvance : advance rest room line lines = if cp = 0 then none
      else if lineSeparator cp then if lines ≤ line then none else some (n, line + 1)
      else some (n, line) := by
    unfold advance
    rw [hfirst]
  rw [if_neg hzero] at hadvance
  cases hsep : lineSeparator cp with
  | true =>
    rw [hsep, if_pos rfl] at hadvance hseparators
    rw [if_neg (by omega)] at hadvance
    exact ⟨n, line + 1, hadvance, s.drop n, hsplit, hafter, hvalid, hclean, hshort', by omega⟩
  | false =>
    rw [hsep, if_neg Bool.false_ne_true] at hadvance hseparators
    exact ⟨n, line, hadvance, s.drop n, hsplit, hafter, hvalid, hclean, hshort', by omega⟩

/-- The scalar path goes on for as long as the text may be shown. -/
theorem prefixEnd_longest {value : Bytes} {stop : Nat} (hlength : stop ≤ value.length)
    {start : Nat} (hstart : start ≤ stop) (hlines : line ≤ lines) :
    ∃ s, prefixEnd false value stop lines start line = start + s.length ∧
      Longest (value.drop start) (stop - start) line lines s := by
  induction hn : stop - start using Nat.strongRecOn generalizing start line with
  | _ n ih =>
    have hroom : stop - start ≤ (value.drop start).length := by
      rw [List.length_drop]
      omega
    have hempty : (∀ n next, advance (value.drop start) (stop - start) line lines ≠ some (n, next)) →
        Longest (value.drop start) (stop - start) line lines [] := by
      refine fun hnone => ⟨List.nil_prefix, shown_nil hlines, fun s' hs' hshown => ?_⟩
      by_contra hlonger
      have hne : s' ≠ [] := by
        rintro rfl
        exact hlonger le_rfl
      obtain ⟨n, next, hadvance, -⟩ := shown_uncons hshown hne hs' hroom
      exact hnone n next hadvance
    subst hn
    rcases hstart.lt_or_eq with hmore | rfl
    · rw [prefixEnd_advance hmore (by rfl)]
      cases hadvance : advance (value.drop start) (stop - start) line lines with
      | none => exact ⟨[], rfl, hempty fun n next h => nomatch hadvance.symm.trans h⟩
      | some taken =>
        obtain ⟨n, next⟩ := taken
        obtain ⟨cp, hfirst, -, hline⟩ := advance_first hadvance
        have hbounds := firstCodepoint_bounds hfirst
        have hnext : next ≤ lines := by
          rcases hline with ⟨-, hlast, rfl⟩ | ⟨-, rfl⟩
          · exact hlast
          · exact hlines
        have hwithin : start + n ≤ stop := by omega
        obtain ⟨s, hend, hprefix, hshown, hmost⟩ := ih _ (by omega) hwithin hnext rfl
        have hdrop : value.drop (start + n) = (value.drop start).drop n := by rw [List.drop_drop]
        have hleft : stop - (start + n) = stop - start - n := by omega
        have hunit : ((value.drop start).take n).length = n :=
          List.length_take_of_le (hbounds.2.trans hroom)
        rw [hdrop] at hprefix hmost
        rw [hleft] at hshown hmost
        refine ⟨(value.drop start).take n ++ s, ?_, ?_, shown_cons hadvance hroom hshown, ?_⟩
        · dsimp only
          rw [hend, List.length_append, hunit]
          omega
        · obtain ⟨more, hmore⟩ := hprefix
          exact ⟨more, by rw [List.append_assoc, hmore, List.take_append_drop]⟩
        · intro s' hs' hshown'
          by_cases hne : s' = []
          · rw [hne]
            exact Nat.zero_le _
          · obtain ⟨n', next', hadvance', tail, rfl, htail, htailShown⟩ :=
              shown_uncons hshown' hne hs' hroom
            cases hadvance.symm.trans hadvance'
            rw [List.length_append, List.length_append]
            exact Nat.add_le_add_left (hmost tail htail htailShown) _
    · refine ⟨[], prefixEnd_stop false le_rfl line, hempty fun n next h => ?_⟩
      obtain ⟨cp, hfirst, -⟩ := advance_first h
      have hbounds := firstCodepoint_bounds hfirst
      omega

end Longest

/-- Blocks change nothing, and the text shown is the longest that may be. -/
theorem prefixOf_longest (value : Bytes) (limit lines : Nat) (hlines : 1 ≤ lines) :
    prefixOf value limit lines = scalarPrefix value limit lines ∧
    prefixOf value limit lines <+: value ∧
    utf8ValidateSlice (prefixOf value limit lines) = true ∧
    0 ∉ prefixOf value limit lines ∧
    (prefixOf value limit lines).length ≤ limit ∧
    separators (prefixOf value limit lines) < lines ∧
    ∀ s, s <+: value → utf8ValidateSlice s = true → 0 ∉ s → s.length ≤ limit →
      separators s < lines → s.length ≤ (prefixOf value limit lines).length := by
  have hstop : min value.length limit ≤ value.length := Nat.min_le_left _ _
  have hsame : prefixOf value limit lines = scalarPrefix value limit lines := by
    unfold prefixOf scalarPrefix
    rw [prefixEnd_blocks hstop]
  obtain ⟨s, hend, hprefix, hshown, hmost⟩ := prefixEnd_longest hstop (Nat.zero_le _) hlines
  rw [List.drop_zero] at hprefix hmost
  rw [Nat.sub_zero] at hshown hmost
  have htext : prefixOf value limit lines = s := by
    rw [hsame, scalarPrefix, hend, Nat.zero_add]
    exact (List.prefix_iff_eq_take.mp hprefix).symm
  rw [← hsame, htext]
  have hfit := hshown.length
  have hfew := hshown.lines
  refine ⟨rfl, hprefix, hshown.valid, hshown.clean, by omega, by omega, ?_⟩
  intro s' hs' hvalid hclean hlength hseparators
  exact hmost s' hs' ⟨hvalid, hclean, Nat.le_min.mpr ⟨hs'.length_le, hlength⟩, by omega⟩

theorem prefixOf_longest_two : separators (prefixOf (text "a\nb\nc") 64 2) < 2 :=
  (prefixOf_longest (text "a\nb\nc") 64 2 (by decide)).2.2.2.2.2.1

end Zimbr.Display
