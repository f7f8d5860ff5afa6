import Mathlib.Data.Bool.AllAny
import Zimbr.Protocol.Utf8

set_option autoImplicit false

/-!
# Validated JSON texts

A stored JSON text is embedded in an envelope as its bytes, without the line
breaks that format it. `validate` is the grammar of the standard library's
scanner.
-/
namespace Zimbr.Json

inductive Word where
  | yes | no | null
  deriving DecidableEq, Repr

def Word.text : Word → Bytes
  | .yes => Zimbr.text "true"
  | .no => Zimbr.text "false"
  | .null => Zimbr.text "null"

inductive Mode where
  | value | arrayStart | objectStart | objectComma | colon | postValue
  | minus | zero | int | dot | frac | e | eSign | exp
  /-- So many bytes of the word were read. -/
  | literal (word : Word) (read : Nat)
  | string | backslash
  /-- The hexadecimal digits to come of an escaped code unit, and its value so far. -/
  | unicode (digits unit : Nat)
  /-- A high surrogate was read; a low one must follow. -/
  | half | halfBackslash
  | low (digits unit : Nat)
  deriving DecidableEq, Repr

structure Scanner where
  mode : Mode := .value
  /-- The open brackets: true for an object. -/
  stack : List Bool := []
  /-- The string is the key of an object. -/
  key : Bool := false
  deriving DecidableEq, Repr

def blank (b : UInt8) : Bool := b = 32 || b = 9 || b = 10 || b = 13

def hexDigit (b : UInt8) : Option Nat :=
  if isDigit b then some (b.toNat - 48)
  else if 97 ≤ b && b ≤ 102 then some (b.toNat - 87)
  else if 65 ≤ b && b ≤ 70 then some (b.toNat - 55)
  else none

namespace Scanner

def startValue (s : Scanner) (b : UInt8) : Option Scanner :=
  if b = 123 then some { s with mode := .objectStart, stack := true :: s.stack }
  else if b = 91 then some { s with mode := .arrayStart, stack := false :: s.stack }
  else if b = 34 then some { s with mode := .string }
  else if b = 45 then some { s with mode := .minus }
  else if b = 48 then some { s with mode := .zero }
  else if isDigit b then some { s with mode := .int }
  else if b = 116 then some { s with mode := .literal .yes 1 }
  else if b = 102 then some { s with mode := .literal .no 1 }
  else if b = 110 then some { s with mode := .literal .null 1 }
  else none

def startKey (s : Scanner) (b : UInt8) : Option Scanner :=
  if b = 34 then some { s with mode := .string, key := true } else none

def close (s : Scanner) (object : Bool) : Option Scanner :=
  if s.stack.head? = some object then some { s with mode := .postValue, stack := s.stack.tail }
  else none

def afterValue (s : Scanner) (b : UInt8) : Option Scanner :=
  if blank b then some { s with mode := .postValue }
  else if b = 125 then s.close true
  else if b = 93 then s.close false
  else if b = 44 then s.stack.head?.map fun object =>
    { s with mode := if object then .objectComma else .value }
  else none

def endString (s : Scanner) : Scanner :=
  if s.key then { s with mode := .colon, key := false } else { s with mode := .postValue }

def digit (s : Scanner) (b : UInt8) (mode : Mode) : Option Scanner :=
  if isDigit b then some { s with mode := mode } else none

def exponent (s : Scanner) (b : UInt8) : Option Scanner :=
  if b = 101 || b = 69 then some { s with mode := .e } else s.afterValue b

def unit (value : Nat) : Option Mode :=
  if 0xD800 ≤ value && value < 0xDC00 then some .half
  else if 0xDC00 ≤ value && value < 0xE000 then none
  else some .string

def step (s : Scanner) (b : UInt8) : Option Scanner :=
  match s.mode with
  | .value => if blank b then some s else s.startValue b
  | .arrayStart =>
    if blank b then some s else if b = 93 then s.close false else s.startValue b
  | .objectStart =>
    if blank b then some s else if b = 125 then s.close true else s.startKey b
  | .objectComma => if blank b then some s else s.startKey b
  | .colon =>
    if blank b then some s else if b = 58 then some { s with mode := .value } else none
  | .postValue => s.afterValue b
  | .minus => if b = 48 then some { s with mode := .zero } else s.digit b .int
  | .zero => if b = 46 then some { s with mode := .dot } else s.exponent b
  | .int =>
    if isDigit b then some s
    else if b = 46 then some { s with mode := .dot } else s.exponent b
  | .dot => s.digit b .frac
  | .frac => if isDigit b then some s else s.exponent b
  | .e =>
    if b = 43 || b = 45 then some { s with mode := .eSign } else s.digit b .exp
  | .eSign => s.digit b .exp
  | .exp => if isDigit b then some s else s.afterValue b
  | .literal word read =>
    if word.text[read]? = some b then some { s with
      mode := if read + 1 = word.text.length then .postValue else .literal word (read + 1) }
    else none
  | .string =>
    if b = 34 then some s.endString
    else if b = 92 then some { s with mode := .backslash }
    else if b < 32 then none else some s
  | .backslash =>
    if b = 117 then some { s with mode := .unicode 4 0 }
    else if text "\"\\/bfnrt" |>.contains b then some { s with mode := .string }
    else none
  | .unicode digits value =>
    (hexDigit b).bind fun d =>
      if digits ≤ 1 then (unit (value * 16 + d)).map fun mode => { s with mode := mode }
      else some { s with mode := .unicode (digits - 1) (value * 16 + d) }
  | .half => if b = 92 then some { s with mode := .halfBackslash } else none
  | .halfBackslash => if b = 117 then some { s with mode := .low 4 0 } else none
  | .low digits value =>
    (hexDigit b).bind fun d =>
      if digits ≤ 1 then
        if 0xDC00 ≤ value * 16 + d && value * 16 + d < 0xE000 then some { s with mode := .string }
        else none
      else some { s with mode := .low (digits - 1) (value * 16 + d) }

def accepts (s : Scanner) : Bool :=
  s.stack = [] && match s.mode with
    | .postValue | .zero | .int | .frac | .exp => true
    | _ => false

end Scanner

/-- `std.json.validate`: one complete value. -/
def validate (bytes : Bytes) : Bool :=
  utf8ValidateSlice bytes && (bytes.foldlM Scanner.step {}).any Scanner.accepts

/-- `jsonStringify`: the text without its literal line breaks. -/
def stringify (bytes : Bytes) : Bytes := bytes.filter fun b => b ≠ 13 && b ≠ 10

/-- The text without its insignificant whitespace. -/
def significant : Bool → Bool → Bytes → Bytes
  | _, _, [] => []
  | true, escaped, b :: rest =>
    b :: if escaped then significant true false rest
      else if b = 92 then significant true true rest
      else significant (b ≠ 34) false rest
  | false, _, b :: rest =>
    if blank b then significant false false rest else b :: significant (b = 34) false rest

def hex (n : Nat) : UInt8 := if n < 10 then 48 + n.toUInt8 else 87 + n.toUInt8

def escape (b : UInt8) : Bytes :=
  if b = 34 then text "\\\""
  else if b = 92 then text "\\\\"
  else if b = 8 then text "\\b"
  else if b = 12 then text "\\f"
  else if b = 10 then text "\\n"
  else if b = 13 then text "\\r"
  else if b = 9 then text "\\t"
  else if b < 32 then text "\\u00" ++ [hex (b.toNat / 16), hex (b.toNat % 16)]
  else [b]

/-- The `std.json.Stringify` text of a string; bytes that are no UTF-8 are an array. -/
def string (s : Bytes) : Bytes :=
  if utf8ValidateSlice s then 34 :: s.flatMap escape ++ [34]
  else 91 :: [44].intercalate (s.map fun b => decimal b.toNat) ++ [93]

namespace Mode

def quoted : Mode → Bool
  | .string | .backslash | .unicode _ _ | .half | .halfBackslash | .low _ _ => true
  | _ => false

def escaped : Mode → Bool
  | .backslash | .halfBackslash => true
  | _ => false

end Mode

section Strings

variable {s s' : Scanner} {b : UInt8}

theorem unit_quoted {value : Nat} {mode : Mode} (h : Scanner.unit value = some mode) :
    mode.quoted = true ∧ mode.escaped = false := by
  unfold Scanner.unit at h
  split_ifs at h
  · rw [← Option.some.inj h]
    exact ⟨rfl, rfl⟩
  · rw [← Option.some.inj h]
    exact ⟨rfl, rfl⟩

/-- A hexadecimal digit is neither a control character nor a quote or a backslash. -/
theorem hexDigit_plain {d : Nat} (h : hexDigit b = some d) : 32 ≤ b ∧ b ≠ 34 ∧ b ≠ 92 := by
  refine ⟨?_, ?_, ?_⟩
  · unfold hexDigit isDigit at h
    split_ifs at h with hdigit hlower hupper <;>
      simp only [Bool.and_eq_true, decide_eq_true_eq] at *
    · exact (by decide : (32 : UInt8) ≤ 48).trans hdigit.1
    · exact (by decide : (32 : UInt8) ≤ 97).trans hlower.1
    · exact (by decide : (32 : UInt8) ≤ 65).trans hupper.1
  · rintro rfl
    exact nomatch h
  · rintro rfl
    exact nomatch h

/-- Outside a string, and not at its start. -/
def Plain (b : UInt8) (s' : Scanner) : Prop :=
  b ≠ 34 ∧ s'.mode.quoted = false ∧ s'.mode.escaped = false

theorem endString_plain (s : Scanner) :
    s.endString.mode.quoted = false ∧ s.endString.mode.escaped = false := by
  unfold Scanner.endString
  split_ifs <;> exact ⟨rfl, rfl⟩

theorem hexDigit_string {d : Nat} (h : hexDigit b = some d)
    (hs' : s'.mode.quoted = true ∧ s'.mode.escaped = false) :
    32 ≤ b ∧ s'.mode.quoted = (false || b ≠ 34) ∧ s'.mode.escaped = (!false && b = 92) := by
  obtain ⟨hshown, hquote, hback⟩ := hexDigit_plain h
  refine ⟨hshown, ?_, ?_⟩
  · simp [hs'.1, hquote]
  · simp [hs'.2, hback]

/-- Inside a string every byte is shown, and an unescaped quote ends it. -/
theorem step_quoted (h : s.step b = some s') (hquoted : s.mode.quoted = true) :
    32 ≤ b ∧ s'.mode.quoted = (s.mode.escaped || b ≠ 34) ∧
      s'.mode.escaped = (!s.mode.escaped && b = 92) := by
  unfold Scanner.step at h
  cases hmode : s.mode with
  | string =>
    rw [hmode] at h
    dsimp only at h
    split_ifs at h with hquote hback hlow
    · rw [← Option.some.inj h, (endString_plain s).1, (endString_plain s).2, hquote]
      exact ⟨by decide, rfl, rfl⟩
    · rw [← Option.some.inj h, hback]
      exact ⟨by decide, rfl, rfl⟩
    · rw [← Option.some.inj h, hmode]
      refine ⟨not_lt.mp hlow, ?_, ?_⟩
      · simp [Mode.quoted, Mode.escaped, hquote]
      · simp [Mode.escaped, hback]
  | backslash =>
    rw [hmode] at h
    dsimp only at h
    split_ifs at h with hunicode hescape
    · rw [← Option.some.inj h, hunicode]
      exact ⟨by decide, rfl, rfl⟩
    · rw [← Option.some.inj h]
      refine ⟨?_, rfl, rfl⟩
      have hall : ∀ c ∈ text "\"\\/bfnrt", (32 : UInt8) ≤ c :=
        List.all_iff_forall_prop.mp (by decide)
      exact hall b (List.contains_iff_mem.mp hescape)
  | unicode digits value =>
    rw [hmode] at h
    obtain ⟨d, hd, h⟩ := Option.bind_eq_some_iff.mp h
    refine hexDigit_string hd ?_
    split_ifs at h
    · obtain ⟨mode, hunit, rfl⟩ := Option.map_eq_some_iff.mp h
      exact unit_quoted hunit
    · rw [← Option.some.inj h]
      exact ⟨rfl, rfl⟩
  | half =>
    rw [hmode] at h
    dsimp only at h
    split_ifs at h with hback
    rw [← Option.some.inj h, hback]
    exact ⟨by decide, rfl, rfl⟩
  | halfBackslash =>
    rw [hmode] at h
    dsimp only at h
    split_ifs at h with hunicode
    rw [← Option.some.inj h, hunicode]
    exact ⟨by decide, rfl, rfl⟩
  | low digits value =>
    rw [hmode] at h
    obtain ⟨d, hd, h⟩ := Option.bind_eq_some_iff.mp h
    refine hexDigit_string hd ?_
    split_ifs at h
    · rw [← Option.some.inj h]
      exact ⟨rfl, rfl⟩
    · rw [← Option.some.inj h]
      exact ⟨rfl, rfl⟩
  | _ =>
    rw [hmode] at hquoted
    exact nomatch hquoted

theorem close_plain {object : Bool} (h : s.close object = some s') :
    s'.mode.quoted = false ∧ s'.mode.escaped = false := by
  unfold Scanner.close at h
  split_ifs at h
  rw [← Option.some.inj h]
  exact ⟨rfl, rfl⟩

theorem blank_plain (h : blank b = true) : b ≠ 34 := by
  rintro rfl
  exact nomatch h

theorem afterValue_plain (h : s.afterValue b = some s') : Plain b s' := by
  unfold Scanner.afterValue at h
  split_ifs at h with hblank hobject harray hcomma
  · rw [← Option.some.inj h]
    exact ⟨blank_plain hblank, rfl, rfl⟩
  · exact ⟨by rw [hobject]; decide, close_plain h⟩
  · exact ⟨by rw [harray]; decide, close_plain h⟩
  · obtain ⟨object, -, rfl⟩ := Option.map_eq_some_iff.mp h
    refine ⟨by rw [hcomma]; decide, ?_⟩
    cases object <;> exact ⟨rfl, rfl⟩

theorem digit_plain {mode : Mode} (h : s.digit b mode = some s') (hquoted : mode.quoted = false)
    (hescaped : mode.escaped = false) : Plain b s' := by
  unfold Scanner.digit at h
  split_ifs at h with hdigit
  rw [← Option.some.inj h]
  refine ⟨?_, hquoted, hescaped⟩
  rintro rfl
  exact nomatch hdigit

theorem exponent_plain (h : s.exponent b = some s') : Plain b s' := by
  unfold Scanner.exponent at h
  split_ifs at h with he
  · rw [← Option.some.inj h]
    refine ⟨?_, rfl, rfl⟩
    rintro rfl
    exact nomatch he
  · exact afterValue_plain h

end Strings

section Starts

variable {s s' : Scanner} {b : UInt8}

def Starts (b : UInt8) (s' : Scanner) : Prop :=
  s'.mode.quoted = decide (b = 34) ∧ s'.mode.escaped = false

theorem Plain.starts (h : Plain b s') : Starts b s' := by
  obtain ⟨hne, hquoted, hescaped⟩ := h
  exact ⟨by rw [hquoted, decide_eq_false hne], hescaped⟩

theorem startKey_starts (h : s.startKey b = some s') : Starts b s' := by
  unfold Scanner.startKey at h
  split_ifs at h with hquote
  rw [← Option.some.inj h, hquote]
  exact ⟨rfl, rfl⟩

theorem startValue_starts (h : s.startValue b = some s') : Starts b s' := by
  unfold Scanner.startValue at h
  split_ifs at h with h1 h2 h3 h4 h5 h6 h7 h8 h9 <;> rw [← Option.some.inj h]
  · exact Plain.starts ⟨by rw [h1]; decide, rfl, rfl⟩
  · exact Plain.starts ⟨by rw [h2]; decide, rfl, rfl⟩
  · rw [h3]
    exact ⟨rfl, rfl⟩
  all_goals exact Plain.starts ⟨h3, rfl, rfl⟩

theorem step_plain (h : s.step b = some s') (hplain : s.mode.quoted = false) : Starts b s' := by
  have hmoved {mode : Mode} (hs' : { s with mode := mode } = s') (hne : b ≠ 34)
      (hquoted : mode.quoted = false) (hescaped : mode.escaped = false) : Starts b s' := by
    rw [← hs']
    exact Plain.starts ⟨hne, hquoted, hescaped⟩
  have hstay (hs' : s = s') (hne : b ≠ 34) : Starts b s' := by
    rw [← hs']
    refine Plain.starts ⟨hne, hplain, ?_⟩
    cases hmode : s.mode <;> first | rfl | (rw [hmode] at hplain; exact nomatch hplain)
  have hdigit (hb : isDigit b = true) : b ≠ 34 := by
    rintro rfl
    exact nomatch hb
  unfold Scanner.step at h
  cases hmode : s.mode with
  | value =>
    rw [hmode] at h
    dsimp only at h
    split_ifs at h with hblank
    · exact hstay (Option.some.inj h) (blank_plain hblank)
    · exact startValue_starts h
  | arrayStart =>
    rw [hmode] at h
    dsimp only at h
    split_ifs at h with hblank hclose
    · exact hstay (Option.some.inj h) (blank_plain hblank)
    · exact Plain.starts ⟨by rw [hclose]; decide, close_plain h⟩
    · exact startValue_starts h
  | objectStart =>
    rw [hmode] at h
    dsimp only at h
    split_ifs at h with hblank hclose
    · exact hstay (Option.some.inj h) (blank_plain hblank)
    · exact Plain.starts ⟨by rw [hclose]; decide, close_plain h⟩
    · exact startKey_starts h
  | objectComma =>
    rw [hmode] at h
    dsimp only at h
    split_ifs at h with hblank
    · exact hstay (Option.some.inj h) (blank_plain hblank)
    · exact startKey_starts h
  | colon =>
    rw [hmode] at h
    dsimp only at h
    split_ifs at h with hblank hcolon
    · exact hstay (Option.some.inj h) (blank_plain hblank)
    · exact hmoved (Option.some.inj h) (by rw [hcolon]; decide) rfl rfl
  | postValue =>
    rw [hmode] at h
    exact (afterValue_plain h).starts
  | minus =>
    rw [hmode] at h
    dsimp only at h
    split_ifs at h with hzero
    · exact hmoved (Option.some.inj h) (by rw [hzero]; decide) rfl rfl
    · exact (digit_plain h rfl rfl).starts
  | zero =>
    rw [hmode] at h
    dsimp only at h
    split_ifs at h with hdot
    · exact hmoved (Option.some.inj h) (by rw [hdot]; decide) rfl rfl
    · exact (exponent_plain h).starts
  | int =>
    rw [hmode] at h
    dsimp only at h
    split_ifs at h with hmore hdot
    · exact hstay (Option.some.inj h) (hdigit hmore)
    · exact hmoved (Option.some.inj h) (by rw [hdot]; decide) rfl rfl
    · exact (exponent_plain h).starts
  | dot =>
    rw [hmode] at h
    exact (digit_plain h rfl rfl).starts
  | frac =>
    rw [hmode] at h
    dsimp only at h
    split_ifs at h with hmore
    · exact hstay (Option.some.inj h) (hdigit hmore)
    · exact (exponent_plain h).starts
  | e =>
    rw [hmode] at h
    dsimp only at h
    split_ifs at h with hsign
    · refine hmoved (Option.some.inj h) ?_ rfl rfl
      rintro rfl
      exact nomatch hsign
    · exact (digit_plain h rfl rfl).starts
  | eSign =>
    rw [hmode] at h
    exact (digit_plain h rfl rfl).starts
  | exp =>
    rw [hmode] at h
    dsimp only at h
    split_ifs at h with hmore
    · exact hstay (Option.some.inj h) (hdigit hmore)
    · exact (afterValue_plain h).starts
  | literal word read =>
    rw [hmode] at h
    dsimp only at h
    have hne (hread : word.text[read]? = some b) : b ≠ 34 := by
      rintro rfl
      have hmem := List.mem_of_getElem? hread
      cases word <;> exact absurd hmem (by decide)
    split_ifs at h with hread
    · exact hmoved (Option.some.inj h) (hne hread) rfl rfl
    · exact hmoved (Option.some.inj h) (hne hread) rfl rfl
  | _ =>
    rw [hmode] at hplain
    exact nomatch hplain

theorem escaped_quoted {mode : Mode} (h : mode.quoted = false) : mode.escaped = false := by
  cases mode <;> first | rfl | exact nomatch h

theorem blank_lineBreak (hblank : ¬blank b = true) : (decide (b ≠ 13) && decide (b ≠ 10)) = true := by
  simp only [blank, Bool.or_eq_true, decide_eq_true_eq, not_or] at hblank
  rw [decide_eq_true hblank.2, decide_eq_true hblank.1.2]
  rfl

/-- A valid text has no line break inside a string, so removing all of them leaves
what is significant. -/
theorem significant_stringify {bytes : Bytes} (h : bytes.foldlM Scanner.step s = some s') :
    significant s.mode.quoted s.mode.escaped (stringify bytes) =
      significant s.mode.quoted s.mode.escaped bytes := by
  induction bytes generalizing s with
  | nil => rfl
  | cons b rest ih =>
    rw [List.foldlM_cons] at h
    obtain ⟨next, hstep, hrest⟩ := Option.bind_eq_some_iff.mp h
    have ih : significant next.mode.quoted next.mode.escaped
        (rest.filter fun b => b ≠ 13 && b ≠ 10) =
          significant next.mode.quoted next.mode.escaped rest := ih hrest
    rw [stringify, List.filter_cons]
    cases hquoted : s.mode.quoted with
    | true =>
      obtain ⟨hshown, hnext, hescaped⟩ := step_quoted hstep hquoted
      have hkept : (decide (b ≠ 13) && decide (b ≠ 10)) = true := by
        by_cases hbreak : b = 13 ∨ b = 10
        · rcases hbreak with rfl | rfl <;> exact absurd hshown (by decide)
        · rw [not_or] at hbreak
          rw [decide_eq_true hbreak.1, decide_eq_true hbreak.2]
          rfl
      rw [if_pos hkept, significant, significant]
      rw [hnext, hescaped] at ih
      cases hescape : s.mode.escaped with
      | true =>
        rw [hescape] at ih
        rw [if_pos rfl, if_pos rfl]
        exact congrArg (b :: ·) ih
      | false =>
        rw [hescape] at ih
        rw [if_neg Bool.false_ne_true, if_neg Bool.false_ne_true]
        by_cases hback : b = 92
        · rw [if_pos hback, if_pos hback]
          rw [hback] at ih
          exact congrArg (b :: ·) ih
        · rw [if_neg hback, if_neg hback]
          rw [decide_eq_false hback] at ih
          exact congrArg (b :: ·) ih
    | false =>
      obtain ⟨hnext, hescaped⟩ := step_plain hstep hquoted
      rw [hnext, hescaped] at ih
      rw [escaped_quoted hquoted]
      by_cases hblank : blank b = true
      · rw [decide_eq_false (blank_plain hblank)] at ih
        rw [significant.eq_def false false (b :: rest)]
        dsimp only
        rw [if_pos hblank]
        split_ifs
        · rw [significant, if_pos hblank, ih]
        · exact ih
      · rw [if_pos (blank_lineBreak hblank), significant, significant, if_neg hblank,
          if_neg hblank, ih]

/-- The text without its line breaks is accepted too: a number may lack the byte that
ended it. -/
def Unended (s t : Scanner) : Prop :=
  s = t ∨ s = { t with mode := .postValue } ∧
    (t.mode = .zero ∨ t.mode = .int ∨ t.mode = .frac ∨ t.mode = .exp)

theorem Unended.accepts {t : Scanner} (h : Unended s t) (haccepts : s.accepts = true) :
    t.accepts = true := by
  rcases h with rfl | ⟨rfl, hmode⟩
  · exact haccepts
  · unfold Scanner.accepts at haccepts ⊢
    rcases hmode with hmode | hmode | hmode | hmode <;> rw [hmode] <;> exact haccepts

theorem afterValue_first (h : s.afterValue b = some s') : b ∈ ([32, 9, 10, 13, 125, 93, 44] : Bytes) := by
  unfold Scanner.afterValue blank at h
  split_ifs at h with hblank hobject harray hcomma
  · simp only [Bool.or_eq_true, decide_eq_true_eq] at hblank
    rcases hblank with ((rfl | rfl) | rfl) | rfl <;> decide
  · rw [hobject]
    decide
  · rw [harray]
    decide
  · rw [hcomma]
    decide

/-- After the end of a value, a byte is read alike before the end was seen. -/
theorem Unended.step {t : Scanner} (h : Unended s t) (hstep : s.step b = some s') :
    t.step b = some s' := by
  rcases h with rfl | ⟨rfl, hmode⟩
  · exact hstep
  · have hafter : t.afterValue b = some s' := by
      rw [← hstep]
      rfl
    have hfirst : ∀ c ∈ ([32, 9, 10, 13, 125, 93, 44] : Bytes),
        isDigit c = false ∧ c ≠ 46 ∧ (decide (c = 101) || decide (c = 69)) = false :=
      List.all_iff_forall_prop.mp (by decide)
    obtain ⟨hdigit, hdot, he⟩ := hfirst b (afterValue_first hafter)
    rcases hmode with hmode | hmode | hmode | hmode <;>
      simp [Scanner.step, Scanner.exponent, hmode, hdigit, hdot, he, hafter]

theorem step_lineBreak (h : s.step b = some s') (hbreak : b = 13 ∨ b = 10) : Unended s' s := by
  have hblank : blank b = true := by
    rcases hbreak with rfl | rfl <;> rfl
  have hother : isDigit b = false ∧ b ≠ 46 ∧ b ≠ 48 ∧ (decide (b = 101) || decide (b = 69)) = false ∧
      (decide (b = 43) || decide (b = 45)) = false := by
    rcases hbreak with rfl | rfl <;> decide
  obtain ⟨hdigit, hdot, hzero, he, hsign⟩ := hother
  have hshown : ¬32 ≤ b := by
    rcases hbreak with rfl | rfl <;> decide
  cases hquoted : s.mode.quoted with
  | true => exact absurd (step_quoted h hquoted).1 hshown
  | false =>
    cases hmode : s.mode with
    | value | arrayStart | objectStart | objectComma | colon =>
      simp only [Scanner.step, hmode, hblank, if_true, Option.some.injEq] at h
      exact Or.inl h.symm
    | postValue =>
      simp only [Scanner.step, Scanner.afterValue, hmode, hblank, if_true, Option.some.injEq] at h
      rw [← hmode] at h
      exact Or.inl h.symm
    | zero | int | frac | exp =>
      simp [Scanner.step, Scanner.exponent, Scanner.afterValue, hmode, hdigit, hdot, he,
        hblank] at h
      exact Or.inr ⟨h.symm, by simp [hmode]⟩
    | literal word read =>
      simp only [Scanner.step, hmode] at h
      have hnone : word.text[read]? ≠ some b := by
        intro hread
        have hmem := List.mem_of_getElem? hread
        rcases hbreak with rfl | rfl <;> cases word <;> exact absurd hmem (by decide)
      rw [if_neg hnone] at h
      exact nomatch h
    | minus | dot | e | eSign =>
      simp [Scanner.step, Scanner.digit, hmode, hdigit, hzero, hsign] at h
    | _ =>
      rw [hmode] at hquoted
      exact nomatch hquoted

theorem Unended.trans {t u : Scanner} (hst : Unended s t) (htu : Unended t u) : Unended s u := by
  rcases hst with rfl | ⟨rfl, hmode⟩
  · exact htu
  · rcases htu with rfl | ⟨rfl, -⟩
    · exact Or.inr ⟨rfl, hmode⟩
    · rcases hmode with h | h | h | h <;> exact nomatch h

/-- The scanner reads on without the line breaks. -/
theorem scan_stringify {bytes : Bytes} {t : Scanner} (hst : Unended s t)
    (h : bytes.foldlM Scanner.step s = some s') :
    ∃ t', (stringify bytes).foldlM Scanner.step t = some t' ∧ Unended s' t' := by
  induction bytes generalizing s t with
  | nil => exact ⟨t, rfl, by rwa [← Option.some.inj h]⟩
  | cons b rest ih =>
    rw [List.foldlM_cons] at h
    obtain ⟨next, hstep, hrest⟩ := Option.bind_eq_some_iff.mp h
    rw [stringify, List.filter_cons]
    by_cases hbreak : b = 13 ∨ b = 10
    · have hdrop : (decide (b ≠ 13) && decide (b ≠ 10)) = false := by
        rcases hbreak with rfl | rfl <;> rfl
      rw [if_neg (by rw [hdrop]; exact Bool.false_ne_true)]
      exact ih ((step_lineBreak hstep hbreak).trans hst) hrest
    · rw [not_or] at hbreak
      rw [if_pos (by rw [decide_eq_true hbreak.1, decide_eq_true hbreak.2]; rfl)]
      rw [List.foldlM_cons, hst.step hstep]
      exact ih (Or.inl rfl) hrest

/-- A stored text is still valid without its line breaks. -/
theorem validate_stringify {bytes : Bytes} (h : validate bytes = true) :
    validate (stringify bytes) = true := by
  rw [validate, Bool.and_eq_true] at h
  obtain ⟨hutf8, hscan⟩ := h
  rw [Option.any_eq_true] at hscan
  obtain ⟨s, hscan, haccepts⟩ := hscan
  obtain ⟨t, hkept, hend⟩ := scan_stringify (Or.inl rfl) hscan
  rw [validate, hkept, Bool.and_eq_true]
  refine ⟨utf8_filter (fun b hb => ?_) hutf8, hend.accepts haccepts⟩
  have hhigh : ∀ c : UInt8, c = 13 ∨ c = 10 → ¬0x80 ≤ c := by
    rintro c (rfl | rfl) <;> decide
  simp only [Bool.and_eq_true, decide_eq_true_eq]
  exact ⟨fun h13 => hhigh b (Or.inl h13) hb, fun h10 => hhigh b (Or.inr h10) hb⟩

end Starts

end Zimbr.Json

namespace Zimbr

/-- SHA-256 in lowercase hex. -/
def digest (sha256 : Bytes → Vector UInt8 32) (bytes : Bytes) : Bytes :=
  (sha256 bytes).toList.flatMap fun b => [Json.hex (b.toNat / 16), Json.hex (b.toNat % 16)]

end Zimbr
