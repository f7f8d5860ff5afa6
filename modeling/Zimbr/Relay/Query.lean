import Zimbr.Protocol.Json

set_option autoImplicit false

/-!
# Query parameters

The client escapes a value with percent escapes, and the server decodes the value of
the parameter that it looks for.
-/
namespace Zimbr.Relay.Query
open Json (hexDigit)

inductive Failure where
  | invalidRequest
  deriving DecidableEq, Repr

def unreserved (b : UInt8) : Bool :=
  isAlphanumeric b || b = 45 || b = 46 || b = 95 || b = 126

/-- `{X}` of a hexadecimal digit. -/
def upperDigit (d : Nat) : UInt8 := if d < 10 then (48 + d).toUInt8 else (55 + d).toUInt8

/-- `url.escaped`. -/
def escaped (raw : Bytes) : Bytes :=
  raw.flatMap fun b =>
    if unreserved b then [b] else [37, upperDigit (b.toNat / 16), upperDigit (b.toNat % 16)]

/-- `std.fmt.parseInt(u8, _, 16)`: a sign, then hexadecimal digits that underscores
may separate but neither start nor end. -/
def parseHex (s : Bytes) : Option Nat :=
  let negative := s.head? = some 45
  let body := if negative || s.head? = some 43 then s.tail else s
  if body = [] || body.head? = some 95 || body.getLast? = some 95 then none
  else match (body.filter fun b => b != 95).mapM hexDigit with
    | none => none
    | some digits =>
      let n := digits.foldl (fun n d => n * 16 + d) 0
      if negative then if n = 0 then some 0 else none
      else if n < 256 then some n else none

def decode : Bytes → Except Failure Bytes
  | [] => .ok []
  | b :: rest =>
    if b = 37 then
      match rest with
      | high :: low :: rest =>
        match parseHex [high, low] with
        | none => .error .invalidRequest
        | some n => (decode rest).map (n.toUInt8 :: ·)
      | _ => .error .invalidRequest
    else (decode rest).map (b :: ·)

def splitPart (part : Bytes) : Option (Bytes × Bytes) :=
  (part.idxOf? 61).map fun split => (part.take split, part.drop (split + 1))

def paramIn (key : Bytes) : Option Bytes → List Bytes → Except Failure (Option Bytes)
  | found, [] => .ok found
  | found, part :: rest =>
    match splitPart part with
    | none => paramIn key found rest
    | some (name, raw) =>
      if name ≠ key then paramIn key found rest
      else if found.isSome then .error .invalidRequest
      else match decode raw with
        | .error e => .error e
        | .ok value => paramIn key (some value) rest

def param (query key : Bytes) : Except Failure (Option Bytes) :=
  paramIn key none (query.splitOn 38)

/-! What a query says, and what it is read as. -/

def valuesIn (key : Bytes) (parts : List Bytes) : List Bytes :=
  (parts.filterMap splitPart).filterMap fun entry => if entry.1 = key then some entry.2 else none

def values (query key : Bytes) : List Bytes := valuesIn key (query.splitOn 38)

/-- Percent decoding: an escape is two hexadecimal digits after a percent sign. -/
def unescape : Bytes → Option Bytes
  | [] => some []
  | b :: rest =>
    if b = 37 then
      match rest with
      | high :: low :: rest =>
        (hexDigit high).bind fun h => (hexDigit low).bind fun l =>
          (unescape rest).map ((h * 16 + l).toUInt8 :: ·)
      | _ => none
    else (unescape rest).map (b :: ·)

/-- A key that is not there has no value, one that is there once has what its value
stands for, and anything else is refused. -/
def Reads (query key : Bytes) : Option Bytes → Prop
  | none => values query key = []
  | some value => ∃ raw, values query key = [raw] ∧ unescape raw = some value

def signedEscape (high low : UInt8) : Bool :=
  high = 43 && (hexDigit low).isSome || high = 45 && low = 48

def someSigned : Bytes → Bool → Bool
  | [], seen => seen
  | b :: rest, seen =>
    if b = 37 then
      match rest with
      | high :: low :: rest =>
        if signedEscape high low then someSigned rest true
        else (hexDigit high).isSome && (hexDigit low).isSome && someSigned rest seen
      | _ => false
    else someSigned rest seen

def SignedValue (query key : Bytes) : Prop :=
  ∃ raw, values query key = [raw] ∧ someSigned raw false = true

section Escapes

theorem hexDigit_bounds {b : UInt8} {d : Nat} (h : hexDigit b = some d) :
    d < 16 ∧ (d = 0 → b = 48) := by
  unfold hexDigit isDigit at h
  simp only [Bool.and_eq_true, decide_eq_true_eq, UInt8.le_iff_toNat_le] at h
  split_ifs at h with hdigit hlower hupper
  · cases h
    simp at hdigit
    refine ⟨by omega, fun hzero => UInt8.toNat_inj.mp ?_⟩
    simp
    omega
  · cases h
    simp at hlower
    exact ⟨by omega, fun hzero => by omega⟩
  · cases h
    simp at hupper
    exact ⟨by omega, fun hzero => by omega⟩

theorem hexDigit_minus : hexDigit 45 = none := by decide

theorem hexDigit_plus : hexDigit 43 = none := by decide

theorem hexDigit_underscore : hexDigit 95 = none := by decide

theorem parseHex_signed {high low : UInt8} (h : signedEscape high low = true) :
    parseHex [high, low] = hexDigit low := by
  unfold signedEscape at h
  simp only [Bool.or_eq_true, Bool.and_eq_true, decide_eq_true_eq] at h
  rcases h with ⟨rfl, hlow⟩ | ⟨rfl, rfl⟩
  · obtain ⟨d, hd⟩ := Option.isSome_iff_exists.mp hlow
    have hne : low ≠ 95 := by
      rintro rfl
      exact absurd (hexDigit_underscore.symm.trans hd) nofun
    have hbound := (hexDigit_bounds hd).1
    simp [parseHex, hne, hd, show d < 256 by omega]
  · decide

theorem parseHex_unsigned {high low : UInt8} (h : signedEscape high low = false) :
    parseHex [high, low] = (hexDigit high).bind fun h => (hexDigit low).map fun l => h * 16 + l := by
  unfold signedEscape at h
  simp only [Bool.or_eq_false_iff, Bool.and_eq_false_iff, decide_eq_false_iff_not] at h
  by_cases hplus : high = 43
  · subst hplus
    have hlow : hexDigit low = none := by simpa using h.1
    by_cases hne : low = 95
    · subst hne
      decide
    · simp [parseHex, hne, hlow, hexDigit_plus]
  by_cases hminus : high = 45
  · subst hminus
    have hlow : low ≠ 48 := by simpa using h.2
    by_cases hne : low = 95
    · subst hne
      decide
    · cases hd : hexDigit low with
      | none => simp [parseHex, hne, hd, hexDigit_minus]
      | some d =>
        have hzero : d ≠ 0 := fun hzero => hlow ((hexDigit_bounds hd).2 hzero)
        simp [parseHex, hne, hd, hexDigit_minus, hzero]
  by_cases hhigh : high = 95
  · subst hhigh
    simp [parseHex, hexDigit_underscore]
  by_cases hlow : low = 95
  · subst hlow
    simp [parseHex, hexDigit_underscore, hplus, hminus]
  · cases hh : hexDigit high with
    | none => simp [parseHex, hplus, hminus, hhigh, hlow, hh]
    | some h =>
      cases hl : hexDigit low with
      | none => simp [parseHex, hplus, hminus, hhigh, hlow, hh, hl]
      | some l =>
        have hbound := (hexDigit_bounds hh).1
        have hbound' := (hexDigit_bounds hl).1
        simp [parseHex, hplus, hminus, hhigh, hlow, hh, hl, show h * 16 + l < 256 by omega]

theorem parseHex_escaped (b : UInt8) :
    parseHex [upperDigit (b.toNat / 16), upperDigit (b.toNat % 16)] = some b.toNat := by
  have hall : ∀ n < 256, parseHex [upperDigit (n / 16), upperDigit (n % 16)] = some n := by
    decide +kernel
  exact hall b.toNat b.toNat_lt

@[simp] theorem decode_plain {b : UInt8} (h : b ≠ 37) (rest : Bytes) :
    decode (b :: rest) = (decode rest).map (b :: ·) := by
  rw [decode.eq_def]
  exact if_neg h

@[simp] theorem decode_escape (high low : UInt8) (rest : Bytes) :
    decode (37 :: high :: low :: rest) = match parseHex [high, low] with
      | none => .error .invalidRequest
      | some n => (decode rest).map (n.toUInt8 :: ·) := by
  rw [decode.eq_def]
  rfl

theorem escaped_cons (b : UInt8) (rest : Bytes) :
    escaped (b :: rest) = (if unreserved b then [b] else
      [37, upperDigit (b.toNat / 16), upperDigit (b.toNat % 16)]) ++ escaped rest :=
  List.flatMap_cons

/-- Every byte string is read back from its escaped form. -/
theorem decode_escaped (v : Bytes) : decode (escaped v) = .ok v := by
  induction v with
  | nil => rfl
  | cons b rest ih =>
    rw [escaped_cons]
    split_ifs with hkept
    · have hne : b ≠ 37 := by
        rintro rfl
        exact absurd hkept (by decide)
      rw [List.singleton_append, decode_plain hne, ih]
      rfl
    · simp only [List.cons_append, List.nil_append]
      rw [decode_escape, parseHex_escaped b, ih]
      simp [Except.map]

theorem escaped_plain (v : Bytes) : 38 ∉ escaped v := by
  have hdigit : ∀ d < 16, upperDigit d ≠ 38 := by decide
  induction v with
  | nil => exact List.not_mem_nil
  | cons b rest ih =>
    have hhigh := hdigit (b.toNat / 16) (by have hb := b.toNat_lt; omega)
    have hlow := hdigit (b.toNat % 16) (Nat.mod_lt _ (by omega))
    rw [escaped_cons]
    split_ifs with hkept
    · have hne : b ≠ 38 := by
        rintro rfl
        exact absurd hkept (by decide)
      simp [ih, hne.symm]
    · simp [ih, hhigh.symm, hlow.symm]

@[simp] theorem unescape_plain {b : UInt8} (h : b ≠ 37) (rest : Bytes) :
    unescape (b :: rest) = (unescape rest).map (b :: ·) := by
  rw [unescape.eq_def]
  exact if_neg h

@[simp] theorem unescape_escape (high low : UInt8) (rest : Bytes) :
    unescape (37 :: high :: low :: rest) = (hexDigit high).bind fun h =>
      (hexDigit low).bind fun l => (unescape rest).map ((h * 16 + l).toUInt8 :: ·) := by
  rw [unescape.eq_def]
  rfl

@[simp] theorem someSigned_plain {b : UInt8} (h : b ≠ 37) (rest : Bytes) (seen : Bool) :
    someSigned (b :: rest) seen = someSigned rest seen := by
  rw [someSigned.eq_def]
  exact if_neg h

@[simp] theorem someSigned_escape (high low : UInt8) (rest : Bytes) (seen : Bool) :
    someSigned (37 :: high :: low :: rest) seen = if signedEscape high low then
      someSigned rest true
    else (hexDigit high).isSome && (hexDigit low).isSome && someSigned rest seen := by
  rw [someSigned.eq_def]
  rfl

theorem signedEscape_high {high low : UInt8} (h : signedEscape high low = true) :
    hexDigit high = none := by
  unfold signedEscape at h
  simp only [Bool.or_eq_true, Bool.and_eq_true, decide_eq_true_eq] at h
  rcases h with ⟨rfl, -⟩ | ⟨rfl, -⟩
  · exact hexDigit_plus
  · exact hexDigit_minus

theorem signedEscape_low {high low : UInt8} (h : signedEscape high low = true) :
    ∃ d, hexDigit low = some d := by
  unfold signedEscape at h
  simp only [Bool.or_eq_true, Bool.and_eq_true, decide_eq_true_eq] at h
  rcases h with ⟨-, hlow⟩ | ⟨-, rfl⟩
  · exact Option.isSome_iff_exists.mp hlow
  · exact ⟨0, by decide⟩

/-- The decoder reads what percent decoding does; what else it reads has a sign. -/
structure Decoded (raw : Bytes) (seen : Bool) : Prop where
  strict : ∀ value, unescape raw = some value → decode raw = .ok value ∧ someSigned raw seen = seen
  lax : unescape raw = none → ((∃ value, decode raw = .ok value) ↔ someSigned raw seen = true)

theorem Decoded.plain {b : UInt8} {rest : Bytes} {seen : Bool} (h : Decoded rest seen)
    (hb : b ≠ 37) : Decoded (b :: rest) seen := by
  constructor
  · intro value hvalue
    rw [unescape_plain hb] at hvalue
    obtain ⟨tail, htail, rfl⟩ := Option.map_eq_some_iff.mp hvalue
    obtain ⟨hdecode, hsigned⟩ := h.strict tail htail
    rw [decode_plain hb, someSigned_plain hb, hdecode]
    exact ⟨rfl, hsigned⟩
  · intro hnone
    rw [unescape_plain hb, Option.map_eq_none_iff] at hnone
    rw [decode_plain hb, someSigned_plain hb, ← h.lax hnone]
    cases decode rest <;> simp [Except.map]

theorem Decoded.read {rest : Bytes} (h : Decoded rest true) :
    (∃ value, decode rest = .ok value) ↔ someSigned rest true = true := by
  cases hrest : unescape rest with
  | none => exact h.lax hrest
  | some value =>
    obtain ⟨hdecode, hsigned⟩ := h.strict value hrest
    exact ⟨fun _ => hsigned, fun _ => ⟨value, hdecode⟩⟩

theorem Decoded.escape {high low : UInt8} {rest : Bytes} {seen : Bool}
    (h : ∀ seen, Decoded rest seen) : Decoded (37 :: high :: low :: rest) seen := by
  cases hsign : signedEscape high low with
  | true =>
    have hhigh := signedEscape_high hsign
    obtain ⟨d, hlow⟩ := signedEscape_low hsign
    constructor
    · intro value hvalue
      simp [hhigh] at hvalue
    · intro _
      rw [decode_escape, someSigned_escape, if_pos hsign, parseHex_signed hsign, hlow,
        ← (h true).read]
      cases decode rest <;> simp [Except.map]
  | false =>
    rw [Bool.eq_false_iff] at hsign
    have hparse := parseHex_unsigned (Bool.eq_false_iff.mpr hsign)
    constructor
    · intro value hvalue
      rw [unescape_escape] at hvalue
      obtain ⟨hi, hhigh, hvalue⟩ := Option.bind_eq_some_iff.mp hvalue
      obtain ⟨lo, hlow, hvalue⟩ := Option.bind_eq_some_iff.mp hvalue
      obtain ⟨tail, htail, rfl⟩ := Option.map_eq_some_iff.mp hvalue
      obtain ⟨hdecode, hsigned⟩ := (h seen).strict tail htail
      rw [decode_escape, someSigned_escape, if_neg hsign, hparse, hhigh, hlow, hdecode]
      exact ⟨rfl, by simpa using hsigned⟩
    · intro hnone
      rw [decode_escape, someSigned_escape, if_neg hsign, hparse]
      cases hhigh : hexDigit high with
      | none => simp
      | some hi =>
        cases hlow : hexDigit low with
        | none => simp
        | some lo =>
          have hrest : unescape rest = none := by simpa [hhigh, hlow] using hnone
          have hlax := (h seen).lax hrest
          simp only [Option.bind_some, Option.map_some, Option.isSome_some, Bool.true_and, ← hlax]
          cases decode rest <;> simp [Except.map]

theorem decode_spec : ∀ raw seen, Decoded raw seen
  | [], seen => ⟨fun value h => by simpa [unescape, decode, someSigned] using h, nofun⟩
  | [b], seen => by
    by_cases hb : b = 37
    · subst hb
      exact ⟨nofun, fun _ => by simp [decode, someSigned]⟩
    · exact (decode_spec [] seen).plain hb
  | [b, c], seen => by
    by_cases hb : b = 37
    · subst hb
      exact ⟨nofun, fun _ => by simp [decode, someSigned]⟩
    · exact (decode_spec [c] seen).plain hb
  | b :: high :: low :: rest, seen => by
    by_cases hb : b = 37
    · subst hb
      exact .escape (decode_spec rest)
    · exact (decode_spec (high :: low :: rest) seen).plain hb

end Escapes

section Parameters

variable (key : Bytes)

theorem splitPart_of_key {key : Bytes} (hkey : 61 ∉ key) (raw : Bytes) :
    splitPart (key ++ 61 :: raw) = some (key, raw) := by
  have hsplit : (key ++ 61 :: raw).idxOf? 61 = some key.length := by
    refine List.idxOf?_eq_some_iff.mpr ⟨by simp, by simp, fun j hj => ?_⟩
    rw [List.getElem_append_left hj]
    exact fun heq => hkey (heq ▸ List.getElem_mem hj)
  simp [splitPart, hsplit]

theorem valuesIn_append (parts parts' : List Bytes) :
    valuesIn key (parts ++ parts') = valuesIn key parts ++ valuesIn key parts' := by
  simp [valuesIn]

variable {key}

theorem valuesIn_cons {part raw : Bytes} {rest : List Bytes} (h : splitPart part = some (key, raw)) :
    valuesIn key (part :: rest) = raw :: valuesIn key rest := by
  simp [valuesIn, h]

theorem valuesIn_skip {part : Bytes} {rest : List Bytes}
    (h : splitPart part = none ∨ ∃ name raw, splitPart part = some (name, raw) ∧ name ≠ key) :
    valuesIn key (part :: rest) = valuesIn key rest := by
  rcases h with h | ⟨name, raw, h, hname⟩
  · simp [valuesIn, h]
  · simp [valuesIn, h, hname]

variable (key)

theorem paramIn_found (value : Bytes) (parts : List Bytes) :
    paramIn key (some value) parts =
      if valuesIn key parts = [] then .ok (some value) else .error .invalidRequest := by
  induction parts with
  | nil => rfl
  | cons part rest ih =>
    cases hsplit : splitPart part with
    | none => rw [valuesIn_skip (Or.inl hsplit), paramIn, hsplit, ih]
    | some entry =>
      obtain ⟨name, raw⟩ := entry
      by_cases hname : name = key
      · subst hname
        rw [valuesIn_cons hsplit]
        simp [paramIn, hsplit]
      · rw [valuesIn_skip (Or.inr ⟨name, raw, hsplit, hname⟩), ← ih]
        simp [paramIn, hsplit, hname]

theorem paramIn_eq (parts : List Bytes) :
    paramIn key none parts = match valuesIn key parts with
      | [] => .ok none
      | raw :: rest => match decode raw with
        | .error e => .error e
        | .ok value => if rest = [] then .ok (some value) else .error .invalidRequest := by
  induction parts with
  | nil => rfl
  | cons part rest ih =>
    cases hsplit : splitPart part with
    | none => rw [valuesIn_skip (Or.inl hsplit), ← ih, paramIn, hsplit]
    | some entry =>
      obtain ⟨name, raw⟩ := entry
      by_cases hname : name = key
      · subst hname
        rw [valuesIn_cons hsplit]
        cases hdecode : decode raw with
        | error e => simp [paramIn, hsplit, hdecode]
        | ok value => simp [paramIn, hsplit, hdecode, paramIn_found]
      · rw [valuesIn_skip (Or.inr ⟨name, raw, hsplit, hname⟩), ← ih]
        simp [paramIn, hsplit, hname]

theorem param_eq (query : Bytes) :
    param query key = match values query key with
      | [] => .ok none
      | raw :: rest => match decode raw with
        | .error e => .error e
        | .ok value => if rest = [] then .ok (some value) else .error .invalidRequest :=
  paramIn_eq key (query.splitOn 38)

theorem param_duplicate {query : Bytes} (h : 2 ≤ (values query key).length) :
    param query key = .error .invalidRequest := by
  rw [param_eq]
  match hvalues : values query key, h with
  | raw :: raw' :: rest, _ =>
    dsimp only
    cases decode raw with
    | error e => rfl
    | ok value => rfl

/-- The value that the client escaped is read back, wherever its parameter stands. -/
theorem param_escaped {key v : Bytes} {before after : List Bytes} (hkey : 38 ∉ key ∧ 61 ∉ key)
    (hparts : ∀ part ∈ before ++ after, 38 ∉ part ∧ ∀ raw, splitPart part ≠ some (key, raw)) :
    param ([38].intercalate (before ++ (key ++ 61 :: escaped v) :: after)) key = .ok (some v) := by
  have hplain : ∀ part ∈ before ++ (key ++ 61 :: escaped v) :: after, 38 ∉ part := by
    intro part hpart
    rcases List.mem_append.mp hpart with hbefore | hrest
    · exact (hparts part (List.mem_append_left _ hbefore)).1
    rcases List.mem_cons.mp hrest with rfl | hafter
    · simp [hkey.1, escaped_plain v]
    · exact (hparts part (List.mem_append_right _ hafter)).1
  have hother : ∀ parts : List Bytes, (∀ part ∈ parts, ∀ raw, splitPart part ≠ some (key, raw)) →
      valuesIn key parts = [] := by
    intro parts hnone
    induction parts with
    | nil => rfl
    | cons part rest ih =>
      rw [valuesIn_skip]
      · exact ih fun other hmem => hnone other (List.mem_cons_of_mem part hmem)
      · cases hsplit : splitPart part with
        | none => exact Or.inl rfl
        | some entry =>
          refine Or.inr ⟨entry.1, entry.2, rfl, fun hname => ?_⟩
          exact hnone part List.mem_cons_self entry.2 (by rw [hsplit, ← hname])
  have hvalues : values ([38].intercalate (before ++ (key ++ 61 :: escaped v) :: after)) key =
      [escaped v] := by
    unfold values
    rw [List.splitOn_intercalate 38 hplain (by simp), valuesIn_append,
      valuesIn_cons (splitPart_of_key hkey.2 _),
      hother before fun part hmem => (hparts part (List.mem_append_left _ hmem)).2,
      hother after fun part hmem => (hparts part (List.mem_append_right _ hmem)).2]
    rfl
  rw [param_eq, hvalues]
  dsimp only
  rw [decode_escaped]
  rfl

/-- A parameter is read as percent decoding has it exactly if its value has no escape
with a sign, or something else is wrong with it. -/
theorem param_reads (query key : Bytes) :
    (∀ r, param query key = .ok r ↔ Reads query key r) ↔ ¬SignedValue query key := by
  have hparam := param_eq key query
  match hvalues : values query key with
  | [] =>
    rw [hvalues] at hparam
    refine ⟨fun _ hsigned => ?_, fun _ r => ?_⟩
    · obtain ⟨raw, hraw, -⟩ := hsigned
      exact absurd (hvalues.symm.trans hraw) (by simp)
    · cases r with
      | none => simp [hparam, Reads, hvalues]
      | some value => simp [hparam, Reads, hvalues]
  | raw :: raw' :: rest =>
    have hrefused : param query key = .error .invalidRequest :=
      param_duplicate key (by simp [hvalues])
    refine ⟨fun _ hsigned => ?_, fun _ r => ?_⟩
    · obtain ⟨_, hraw, -⟩ := hsigned
      exact absurd (hvalues.symm.trans hraw) (by simp)
    · cases r with
      | none => simp [hrefused, Reads, hvalues]
      | some value => simp [hrefused, Reads, hvalues]
  | [raw] =>
    have hsigned : SignedValue query key ↔ someSigned raw false = true := by
      simp [SignedValue, hvalues]
    have hnone : ¬Reads query key none := by simp [Reads, hvalues]
    have hsome (value : Bytes) : Reads query key (some value) ↔ unescape raw = some value := by
      simp [Reads, hvalues]
    have hread : param query key = (decode raw).map some := by
      rw [hparam, hvalues]
      dsimp only
      cases decode raw with
      | error e => rfl
      | ok value => rfl
    rw [hsigned]
    obtain ⟨hstrict, hlax⟩ := decode_spec raw false
    cases hplain : unescape raw with
    | some value =>
      obtain ⟨hdecode, hfalse⟩ := hstrict value hplain
      refine ⟨fun _ => by simp [hfalse], fun _ r => ?_⟩
      cases r with
      | none => simp [hread, hdecode, hnone, Except.map]
      | some other => simp [hread, hdecode, hsome, hplain, Except.map]
    | none =>
      rw [← hlax hplain]
      constructor
      · rintro hall ⟨value, hdecode⟩
        have hreads := (hall (some value)).mp (by rw [hread, hdecode]; rfl)
        exact absurd ((hsome value).mp hreads) (by simp [hplain])
      · intro hfail r
        cases hdecode : decode raw with
        | ok value => exact absurd ⟨value, hdecode⟩ hfail
        | error e =>
          cases r with
          | none => simp [hread, hdecode, hnone, Except.map]
          | some other => simp [hread, hdecode, hsome, hplain, Except.map]

/-- Parameters make the round trip and are there once; their escapes are those of
percent decoding exactly if none has a sign. -/
theorem param_round_trip (query key v : Bytes) (before after : List Bytes) :
    (38 ∉ key ∧ 61 ∉ key →
      (∀ part ∈ before ++ after, 38 ∉ part ∧ ∀ raw, splitPart part ≠ some (key, raw)) →
      param ([38].intercalate (before ++ (key ++ 61 :: escaped v) :: after)) key = .ok (some v)) ∧
    (2 ≤ (values query key).length → param query key = .error .invalidRequest) ∧
    ((∀ r, param query key = .ok r ↔ Reads query key r) ↔ ¬SignedValue query key) :=
  ⟨param_escaped, param_duplicate key, param_reads query key⟩

theorem param_round_trip_before :
    param (text "limit=5&before=a%26%3D%2B") (text "before") = .ok (some (text "a&=+")) := by
  have hparts : ∀ part ∈ [text "limit=5"] ++ [], 38 ∉ part ∧
      ∀ raw, splitPart part ≠ some (text "before", raw) := by
    intro part hpart
    obtain rfl := List.mem_singleton.mp hpart
    have hsplit : splitPart (text "limit=5") = some (text "limit", text "5") := by decide
    refine ⟨by decide, fun raw h => ?_⟩
    rw [hsplit] at h
    exact absurd (Prod.mk.inj (Option.some.inj h)).1 (by decide)
  exact (param_round_trip [] (text "before") (text "a&=+") [text "limit=5"] []).1 (by decide) hparts

/-- An escape is read as a number with a sign. -/
theorem param_signed : ¬∀ query key : Bytes, ∀ r,
    param query key = .ok r ↔ Reads query key r := by
  intro h
  have hsigned : SignedValue (text "limit=%+5") (text "limit") := ⟨text "%+5", by decide, by decide⟩
  have hvalue : param (text "limit=%+5") (text "limit") = .ok (some [5]) := by decide
  obtain ⟨raw, hraw, hplain⟩ := (h _ _ _).mp hvalue
  have hvalues : values (text "limit=%+5") (text "limit") = [text "%+5"] := by decide
  cases hvalues.symm.trans hraw
  exact absurd hplain (by decide)

end Parameters

end Zimbr.Relay.Query
