import Zimbr.Protocol.Utf8Decode
import Zimbr.Relay.Typedstream

set_option autoImplicit false

/-!
# Texts of attributed bodies

The text of a body is read from one of two exact root grammars, and never looked for
elsewhere in the archive.
-/
namespace Zimbr.Relay.Decoder
open Library BodyParts
open MessagesDb (maxBody maxDecode)

def header : Bytes :=
  [0x04, 0x0B] ++ text "streamtyped" ++ [0x81, 0xE8, 0x03, 0x84, 0x01] ++ text "@" ++
    [0x84, 0x84, 0x84]

/-- The root objects `NSAttributedString` and `NSMutableAttributedString` up to the
length of their string. -/
def prefixes : List Bytes := [
  header ++ [0x12] ++ text "NSAttributedString" ++ [0x00, 0x84, 0x84, 0x08] ++ text "NSObject" ++
    [0x00, 0x85, 0x92, 0x84, 0x84, 0x84, 0x08] ++ text "NSString" ++ [0x01, 0x94, 0x84, 0x01] ++
    text "+",
  header ++ [0x19] ++ text "NSMutableAttributedString" ++ [0x00, 0x84, 0x84, 0x12] ++
    text "NSAttributedString" ++ [0x00, 0x84, 0x84, 0x08] ++ text "NSObject" ++
    [0x00, 0x85, 0x92, 0x84, 0x84, 0x84, 0x0F] ++ text "NSMutableString" ++
    [0x01, 0x84, 0x84, 0x08] ++ text "NSString" ++ [0x01, 0x95, 0x84, 0x01] ++ text "+"]

abbrev Decodes (α : Type) : Type := Checked DecodeError Unit α

def lengthSize (lead : UInt8) : Option Nat :=
  if lead = 0x81 then some 2 else if lead = 0x82 then some 4 else none

def readLength (b : Bytes) (pos : Nat) : Decodes (Nat × Nat) := do
  Checked.require (pos < b.length) .malformed
  let lead ← Checked.index b pos
  let pos ← Checked.add pos 1
  if lead ≤ 0x7F then return (lead.toNat, pos)
  else do
    let size ← Checked.orFail .malformed (lengthSize lead)
    let left ← Checked.sub b.length pos
    Checked.require (size ≤ left) .malformed
    let raw ← Checked.slice b pos size
    let pos ← Checked.add pos size
    return (little raw, pos)

/-- The UTF-16 unit at an index after the byte order mark. -/
def unitAt (raw : Bytes) (i : Nat) : Decodes Nat := do
  let unit ← Checked.slice raw (2 + i * 2) 2
  return little unit

/-- A text is UTF-8, or UTF-16 after a byte order mark. -/
def decodeText (raw : Bytes) : Decodes Bytes :=
  if [0xFF, 0xFE].isPrefixOf raw then do
    Checked.require (raw.length % 2 = 0) .malformed
    let left ← Checked.sub raw.length 2
    let units ← Checked.each (unitAt raw) (List.range (left / 2))
    let decoded ← Checked.orFail .malformed (utf16ToUtf8 units)
    Checked.require (decoded.length ≤ maxBody) .oversized
    Checked.require (!decoded.contains 0) .malformed
    return decoded
  else do
    Checked.require (utf8ValidateSlice raw && !raw.contains 0) .malformed
    return raw

def decodeAt (body : Bytes) (pos : Nat) : Decodes Bytes := do
  let (length, pos) ← readLength body pos
  Checked.require (length ≤ maxBody) .oversized
  let left ← Checked.sub body.length pos
  Checked.require (length ≤ left) .malformed
  let stop ← Checked.add pos length
  Checked.require (stop < body.length) .malformed
  let mark ← Checked.index body stop
  Checked.require (mark = 0x86) .malformed
  let raw ← Checked.slice body pos length
  decodeText raw

def decodeAfter (body : Bytes) : List Bytes → Decodes Bytes
  | [] => Checked.fail .unsupported
  | start :: rest =>
    if start.isPrefixOf body then decodeAt body start.length else decodeAfter body rest

def decodes (body : Bytes) : Decodes Bytes := do
  Checked.require (body.length ≤ maxDecode) .oversized
  decodeAfter body prefixes

/-- `decode`. -/
def decode (body : Bytes) : Except (Stop DecodeError) Bytes := (decodes body ()).1

/-! What a body spells. -/

/-- A byte up to 0x7F, or a little-endian number of 16 or 32 bits after its marker. -/
inductive LengthBytes : Bytes → Nat → Prop where
  | byte {b : UInt8} (h : b ≤ 0x7F) : LengthBytes [b] b.toNat
  | short (raw : Bytes) (h : raw.length = 2) : LengthBytes (0x81 :: raw) (little raw)
  | long (raw : Bytes) (h : raw.length = 4) : LengthBytes (0x82 :: raw) (little raw)

def unitBytes (units : List Nat) : Bytes := units.flatMap fun unit => [byte unit, byte (unit / 256)]

inductive TextBytes : Bytes → Bytes → Prop where
  | utf8 {text : Bytes} (h : utf8ValidateSlice text = true) : TextBytes text text
  | utf16 {text : Bytes} (units : List Nat) (hunits : ∀ unit ∈ units, unit < 2 ^ 16)
      (h : utf16ToUtf8 units = some text) : TextBytes ([0xFF, 0xFE] ++ unitBytes units) text

/-- A body spells a text in so many bytes; anything may follow the end of its object. -/
def Spells (body text : Bytes) (length : Nat) : Prop :=
  ∃ start ∈ prefixes, ∃ lengthBytes raw rest, body = start ++ lengthBytes ++ raw ++ 0x86 :: rest ∧
    LengthBytes lengthBytes length ∧ raw.length = length ∧ TextBytes raw text ∧ 0 ∉ text ∧
    text.length ≤ maxBody

section Lengths

variable {b : Bytes} {pos n next : Nat}

theorem drop_cons_iff {lead : UInt8} : b[pos]? = some lead ↔ ∃ rest, b.drop pos = lead :: rest := by
  constructor
  · intro h
    obtain ⟨hlt, rfl⟩ := List.getElem?_eq_some_iff.mp h
    exact ⟨_, List.drop_eq_getElem_cons hlt⟩
  · rintro ⟨rest, h⟩
    have hhead := congrArg List.head? h
    rwa [List.head?_drop] at hhead

theorem lengthSize_cases {lead : UInt8} {size : Nat} (h : lengthSize lead = some size) :
    lead = 0x81 ∧ size = 2 ∨ lead = 0x82 ∧ size = 4 := by
  unfold lengthSize at h
  split_ifs at h with hshort hlong
  · exact Or.inl ⟨hshort, (Option.some.inj h).symm⟩
  · exact Or.inr ⟨hlong, (Option.some.inj h).symm⟩

theorem readLength_sound (h : readLength b pos () = (.ok (n, next), ())) :
    ∃ raw rest, b.drop pos = raw ++ rest ∧ LengthBytes raw n ∧ next = pos + raw.length := by
  obtain ⟨_, _, -, h⟩ := Checked.bind_ok.mp h
  obtain ⟨lead, _, hlead, h⟩ := Checked.bind_ok.mp h
  obtain ⟨after, _, hafter, h⟩ := Checked.bind_ok.mp h
  obtain ⟨rest, hrest⟩ := drop_cons_iff.mp (Checked.index_ok.mp hlead).1
  obtain ⟨-, rfl, -⟩ := Checked.add_ok.mp hafter
  split_ifs at h with hshort
  · cases (Checked.pure_ok.mp h).1
    exact ⟨[lead], rest, hrest, .byte hshort, rfl⟩
  · obtain ⟨size, _, hsize, h⟩ := Checked.bind_ok.mp h
    obtain ⟨left, _, hleft, h⟩ := Checked.bind_ok.mp h
    obtain ⟨_, _, -, h⟩ := Checked.bind_ok.mp h
    obtain ⟨raw, _, hraw, h⟩ := Checked.bind_ok.mp h
    obtain ⟨stop, _, hstop, h⟩ := Checked.bind_ok.mp h
    obtain ⟨hbound, rfl, -⟩ := Checked.slice_ok.mp hraw
    obtain ⟨-, rfl, -⟩ := Checked.add_ok.mp hstop
    cases (Checked.pure_ok.mp h).1
    have hdrop : b.drop (pos + 1) = rest := by
      rw [← List.drop_drop, hrest]
      rfl
    have hlength : (rest.take size).length = size := by
      rw [← hdrop, List.length_take, List.length_drop]
      omega
    rw [hdrop]
    have hsplit : b.drop pos = lead :: rest.take size ++ rest.drop size := by
      rw [hrest, List.cons_append, List.take_append_drop]
    have hnext : pos + 1 + size = pos + (lead :: rest.take size).length := by
      rw [List.length_cons, hlength]
      omega
    rcases lengthSize_cases (Checked.orFail_ok.mp hsize).1 with ⟨rfl, rfl⟩ | ⟨rfl, rfl⟩
    · exact ⟨_, _, hsplit, .short _ hlength, hnext⟩
    · exact ⟨_, _, hsplit, .long _ hlength, hnext⟩

theorem readLength_marked {lead : UInt8} {raw rest : Bytes} {size : Nat} (hb : b.length < 2 ^ 63)
    (hdrop : b.drop pos = lead :: raw ++ rest) (hlead : ¬lead ≤ 0x7F)
    (hsize : lengthSize lead = some size) (hraw : raw.length = size) :
    readLength b pos () = (.ok (little raw, pos + (lead :: raw).length), ()) := by
  have hbound := congrArg List.length hdrop
  rw [List.length_drop, List.length_append, List.length_cons] at hbound
  have hnext : b.drop (pos + 1) = raw ++ rest := by
    rw [← List.drop_drop, hdrop]
    rfl
  refine Checked.bind_ok.mpr ⟨(), (), Checked.require_ok.mpr ⟨decide_eq_true (by omega), rfl⟩, ?_⟩
  refine Checked.bind_ok.mpr ⟨lead, (), Checked.index_ok.mpr ⟨drop_cons_iff.mpr ⟨_, hdrop⟩, rfl⟩, ?_⟩
  refine Checked.bind_ok.mpr ⟨pos + 1, (), Checked.add_ok.mpr ⟨by omega, rfl, rfl⟩, ?_⟩
  rw [if_neg hlead]
  refine Checked.bind_ok.mpr ⟨size, (), Checked.orFail_ok.mpr ⟨hsize, rfl⟩, ?_⟩
  refine Checked.bind_ok.mpr ⟨_, (), Checked.sub_ok.mpr ⟨by omega, rfl, rfl⟩, ?_⟩
  refine Checked.bind_ok.mpr ⟨(), (), Checked.require_ok.mpr ⟨decide_eq_true (by omega), rfl⟩, ?_⟩
  refine Checked.bind_ok.mpr ⟨raw, (), Checked.slice_ok.mpr ⟨by omega, ?_, rfl⟩, ?_⟩
  · rw [hnext, List.take_left' hraw]
  · refine Checked.bind_ok.mpr ⟨pos + 1 + size, (), Checked.add_ok.mpr ⟨by omega, rfl, rfl⟩, ?_⟩
    refine Checked.pure_ok.mpr ⟨?_, rfl⟩
    rw [List.length_cons, hraw, Nat.add_assoc, Nat.add_comm 1 size]

theorem readLength_complete {raw rest : Bytes} (hb : b.length < 2 ^ 63)
    (hdrop : b.drop pos = raw ++ rest) (hraw : LengthBytes raw n) :
    readLength b pos () = (.ok (n, pos + raw.length), ()) := by
  cases hraw with
  | short raw hlength => exact readLength_marked hb hdrop (by decide) rfl hlength
  | long raw hlength => exact readLength_marked hb hdrop (by decide) rfl hlength
  | @byte lead hlead =>
    have hbound := congrArg List.length hdrop
    rw [List.length_drop, List.length_append, List.length_singleton] at hbound
    refine Checked.bind_ok.mpr ⟨(), (), Checked.require_ok.mpr ⟨decide_eq_true (by omega), rfl⟩, ?_⟩
    refine Checked.bind_ok.mpr
      ⟨lead, (), Checked.index_ok.mpr ⟨drop_cons_iff.mpr ⟨_, hdrop⟩, rfl⟩, ?_⟩
    refine Checked.bind_ok.mpr ⟨pos + 1, (), Checked.add_ok.mpr ⟨by omega, rfl, rfl⟩, ?_⟩
    rw [if_pos hlead]
    exact Checked.pure_ok.mpr ⟨rfl, rfl⟩

end Lengths

section Texts

def unitsOf : Bytes → List Nat
  | low :: high :: rest => little [low, high] :: unitsOf rest
  | _ => []

theorem little_pair (low high : UInt8) : little [low, high] = low.toNat + 256 * high.toNat := rfl

theorem unitsOf_lt : ∀ raw, ∀ unit ∈ unitsOf raw, unit < 2 ^ 16
  | [] => nofun
  | [_] => nofun
  | low :: high :: rest => by
    intro unit hmem
    rcases List.mem_cons.mp hmem with rfl | hrest
    · have hlow := low.toNat_lt
      have hhigh := high.toNat_lt
      rw [little_pair]
      omega
    · exact unitsOf_lt rest unit hrest

theorem unitBytes_unitsOf : ∀ raw : Bytes, raw.length % 2 = 0 → unitBytes (unitsOf raw) = raw
  | [], _ => rfl
  | [_], h => absurd h (by simp)
  | low :: high :: rest, h => by
    rw [List.length_cons, List.length_cons] at h
    have hrest := unitBytes_unitsOf rest (by omega)
    have hlow : byte (little [low, high]) = low := by
      refine UInt8.toNat_inj.mp ?_
      have hbound := low.toNat_lt
      rw [little_pair, byte, UInt8.toNat_ofNat']
      omega
    have hhigh : byte (little [low, high] / 256) = high := by
      refine UInt8.toNat_inj.mp ?_
      have hbound := low.toNat_lt
      have hbound' := high.toNat_lt
      rw [little_pair, byte, UInt8.toNat_ofNat']
      omega
    change byte _ :: byte _ :: unitBytes (unitsOf rest) = _
    rw [hlow, hhigh, hrest]

theorem unitsOf_unitBytes {units : List Nat} (h : ∀ unit ∈ units, unit < 2 ^ 16) :
    unitsOf (unitBytes units) = units := by
  induction units with
  | nil => rfl
  | cons unit rest ih =>
    have hunit := h unit List.mem_cons_self
    have hpair : little [byte unit, byte (unit / 256)] = unit := by
      rw [little_pair, byte, byte, UInt8.toNat_ofNat', UInt8.toNat_ofNat']
      omega
    change little _ :: unitsOf (unitBytes rest) = _
    rw [hpair, ih fun other hmem => h other (List.mem_cons_of_mem unit hmem)]

theorem unitBytes_length (units : List Nat) : (unitBytes units).length = 2 * units.length := by
  induction units with
  | nil => rfl
  | cons unit rest ih =>
    change (unitBytes rest).length + 1 + 1 = _
    rw [ih, List.length_cons]
    omega

theorem units_run {raw : Bytes} (k i : Nat) (rest : Bytes) (hdrop : raw.drop (2 + i * 2) = rest)
    (hlength : rest.length = 2 * k) :
    Checked.each (unitAt raw) (List.range' i k) () = (.ok (unitsOf rest), ()) := by
  induction k generalizing i rest with
  | zero =>
    rw [List.length_eq_zero_iff.mp hlength]
    rfl
  | succ k ih =>
    match rest, hlength with
    | low :: high :: rest, hlength =>
      have hbound := congrArg List.length hdrop
      rw [List.length_drop, List.length_cons, List.length_cons] at hbound
      have hnext : raw.drop (2 + (i + 1) * 2) = rest := by
        have hsum : 2 + (i + 1) * 2 = 2 + i * 2 + 2 := by omega
        rw [hsum, ← List.drop_drop, hdrop]
        rfl
      refine Checked.bind_ok.mpr ⟨little [low, high], (), ?_, ?_⟩
      · refine Checked.bind_ok.mpr ⟨[low, high], (), Checked.slice_ok.mpr ⟨by omega, ?_, rfl⟩, rfl⟩
        rw [hdrop]
        rfl
      · refine Checked.bind_ok.mpr ⟨_, (), ih (i + 1) rest hnext (by simpa [Nat.mul_succ] using hlength), rfl⟩

theorem units_read {rest : Bytes} (heven : rest.length % 2 = 0) :
    Checked.each (unitAt ([0xFF, 0xFE] ++ rest)) (List.range (rest.length / 2)) () =
      (.ok (unitsOf rest), ()) := by
  rw [List.range_eq_range']
  exact units_run _ 0 rest rfl (by omega)

theorem mark_invalid (rest : Bytes) : utf8ValidateSlice ([0xFF, 0xFE] ++ rest) = false := by
  rw [utf8ValidateSlice, codepoints_first ([0xFF, 0xFE] ++ rest) (List.cons_ne_nil _ _)]
  rfl

theorem decodeText_marked {rest t : Bytes} :
    decodeText ([0xFF, 0xFE] ++ rest) () = (.ok t, ()) ↔ rest.length % 2 = 0 ∧
      utf16ToUtf8 (unitsOf rest) = some t ∧ t.length ≤ maxBody ∧ 0 ∉ t := by
  have hlength : ([0xFF, 0xFE] ++ rest : Bytes).length = rest.length + 2 := by simp
  have hstart : [0xFF, 0xFE].isPrefixOf ([0xFF, 0xFE] ++ rest : Bytes) = true :=
    List.isPrefixOf_iff_prefix.mpr (List.prefix_append _ _)
  unfold decodeText
  rw [if_pos hstart, hlength]
  constructor
  · intro h
    obtain ⟨_, _, heven, h⟩ := Checked.bind_ok.mp h
    obtain ⟨left, _, hleft, h⟩ := Checked.bind_ok.mp h
    obtain ⟨units, _, hunits, h⟩ := Checked.bind_ok.mp h
    obtain ⟨decoded, _, hdecoded, h⟩ := Checked.bind_ok.mp h
    obtain ⟨_, _, hshort, h⟩ := Checked.bind_ok.mp h
    obtain ⟨_, _, hclean, hlast⟩ := Checked.bind_ok.mp h
    obtain ⟨-, rfl, -⟩ := Checked.sub_ok.mp hleft
    have heven := of_decide_eq_true (Checked.require_ok.mp heven).1
    have heven : rest.length % 2 = 0 := by omega
    rw [Nat.add_sub_cancel, units_read heven] at hunits
    cases hunits
    cases (Checked.pure_ok.mp hlast).1
    refine ⟨heven, (Checked.orFail_ok.mp hdecoded).1,
      of_decide_eq_true (Checked.require_ok.mp hshort).1, ?_⟩
    simpa using (Checked.require_ok.mp hclean).1
  · rintro ⟨heven, hdecoded, hshort, hclean⟩
    refine Checked.bind_ok.mpr ⟨(), (), Checked.require_ok.mpr ⟨decide_eq_true (by omega), rfl⟩, ?_⟩
    refine Checked.bind_ok.mpr ⟨rest.length, (), Checked.sub_ok.mpr ⟨by omega, by omega, rfl⟩, ?_⟩
    refine Checked.bind_ok.mpr ⟨_, (), units_read heven, ?_⟩
    refine Checked.bind_ok.mpr ⟨t, (), Checked.orFail_ok.mpr ⟨hdecoded, rfl⟩, ?_⟩
    refine Checked.bind_ok.mpr ⟨(), (), Checked.require_ok.mpr ⟨decide_eq_true hshort, rfl⟩, ?_⟩
    refine Checked.bind_ok.mpr ⟨(), (), Checked.require_ok.mpr ⟨by simpa using hclean, rfl⟩, ?_⟩
    exact Checked.pure_ok.mpr ⟨rfl, rfl⟩

theorem decodeText_plain {raw t : Bytes} (hraw : [0xFF, 0xFE].isPrefixOf raw = false) :
    decodeText raw () = (.ok t, ()) ↔ utf8ValidateSlice raw = true ∧ 0 ∉ raw ∧ raw = t := by
  unfold decodeText
  rw [hraw, if_neg Bool.false_ne_true]
  constructor
  · intro h
    obtain ⟨_, _, hvalid, h⟩ := Checked.bind_ok.mp h
    have hvalid := (Checked.require_ok.mp hvalid).1
    simp only [Bool.and_eq_true, Bool.not_eq_true'] at hvalid
    exact ⟨hvalid.1, by simpa using hvalid.2, (Checked.pure_ok.mp h).1⟩
  · rintro ⟨hvalid, hclean, rfl⟩
    refine Checked.bind_ok.mpr ⟨(), (), Checked.require_ok.mpr ⟨?_, rfl⟩, ?_⟩
    · rw [hvalid, Bool.true_and]
      simpa using hclean
    · exact Checked.pure_ok.mpr ⟨rfl, rfl⟩

theorem decodeText_ok {raw t : Bytes} (hlength : raw.length ≤ maxBody) :
    decodeText raw () = (.ok t, ()) ↔ TextBytes raw t ∧ 0 ∉ t ∧ t.length ≤ maxBody := by
  cases hstart : [0xFF, 0xFE].isPrefixOf raw with
  | true =>
    obtain ⟨rest, rfl⟩ := List.isPrefixOf_iff_prefix.mp hstart
    rw [decodeText_marked]
    constructor
    · rintro ⟨heven, hdecoded, hshort, hclean⟩
      have htext := TextBytes.utf16 (unitsOf rest) (unitsOf_lt rest) hdecoded
      rw [unitBytes_unitsOf rest heven] at htext
      exact ⟨htext, hclean, hshort⟩
    · rintro ⟨htext, hclean, hshort⟩
      generalize hraw : ([0xFF, 0xFE] ++ rest : Bytes) = raw at htext
      cases htext with
      | utf8 hvalid =>
        rw [← hraw, mark_invalid] at hvalid
        cases hvalid
      | utf16 units hunits hdecoded =>
        obtain rfl := List.append_cancel_left hraw
        rw [unitsOf_unitBytes hunits, unitBytes_length]
        exact ⟨by omega, hdecoded, hshort, hclean⟩
  | false =>
    rw [decodeText_plain hstart]
    constructor
    · rintro ⟨hvalid, hclean, rfl⟩
      exact ⟨.utf8 hvalid, hclean, hlength⟩
    · rintro ⟨htext, hclean, hshort⟩
      cases htext with
      | utf8 hvalid => exact ⟨hvalid, hclean, rfl⟩
      | utf16 units =>
        have hmark := List.isPrefixOf_iff_prefix.mpr (List.prefix_append [0xFF, 0xFE] (unitBytes units))
        exact absurd (hmark.symm.trans hstart) (by decide)

end Texts

section Bodies

variable {body t : Bytes}

theorem decodeAt_ok {start tail : Bytes} (hbody : body = start ++ tail)
    (hsize : body.length ≤ maxDecode) :
    decodeAt body start.length () = (.ok t, ()) ↔ ∃ length lengthBytes raw rest,
      tail = lengthBytes ++ raw ++ 0x86 :: rest ∧ LengthBytes lengthBytes length ∧
        raw.length = length ∧ length ≤ maxBody ∧ TextBytes raw t ∧ 0 ∉ t ∧ t.length ≤ maxBody := by
  have hword : maxDecode < 2 ^ 63 := by decide
  have hdrop : body.drop start.length = tail := by rw [hbody, List.drop_left]
  constructor
  · intro h
    obtain ⟨⟨length, pos⟩, _, hlength, h⟩ := Checked.bind_ok.mp h
    obtain ⟨lengthBytes, after, hsplit, hbytes, rfl⟩ := readLength_sound hlength
    obtain ⟨_, _, hshort, h⟩ := Checked.bind_ok.mp h
    obtain ⟨_, _, -, h⟩ := Checked.bind_ok.mp h
    obtain ⟨_, _, -, h⟩ := Checked.bind_ok.mp h
    obtain ⟨stop, _, hstop, h⟩ := Checked.bind_ok.mp h
    obtain ⟨_, _, -, h⟩ := Checked.bind_ok.mp h
    obtain ⟨mark, _, hindex, h⟩ := Checked.bind_ok.mp h
    obtain ⟨_, _, hmark, h⟩ := Checked.bind_ok.mp h
    obtain ⟨raw, _, hraw, hlast⟩ := Checked.bind_ok.mp h
    obtain ⟨-, rfl, -⟩ := Checked.add_ok.mp hstop
    obtain ⟨hbound, rfl, -⟩ := Checked.slice_ok.mp hraw
    have hshort := of_decide_eq_true (Checked.require_ok.mp hshort).1
    obtain rfl := of_decide_eq_true (Checked.require_ok.mp hmark).1
    obtain ⟨rest, hrest⟩ := drop_cons_iff.mp (Checked.index_ok.mp hindex).1
    have hafter : body.drop (start.length + lengthBytes.length) = after := by
      rw [← List.drop_drop, hsplit, List.drop_left]
    rw [← List.drop_drop, hafter] at hrest
    have htaken : (after.take length).length = length := by
      rw [← hafter, List.length_take, List.length_drop]
      omega
    rw [hafter] at hlast
    have htext := (decodeText_ok (by rw [htaken]; exact hshort)).mp hlast
    refine ⟨length, lengthBytes, after.take length, rest, ?_, hbytes, htaken, hshort, htext⟩
    rw [← hdrop, hsplit, List.append_assoc, ← hrest, List.take_append_drop]
  · rintro ⟨length, lengthBytes, raw, rest, rfl, hbytes, rfl, hshort, htext⟩
    have htotal := congrArg List.length hbody
    simp only [List.length_append, List.length_cons] at htotal
    have hlength := readLength_complete (by omega) (hdrop.trans (List.append_assoc _ _ _)) hbytes
    have hafter : body.drop (start.length + lengthBytes.length) = raw ++ 0x86 :: rest := by
      rw [← List.drop_drop, hdrop, List.append_assoc, List.drop_left]
    refine Checked.bind_ok.mpr ⟨(raw.length, start.length + lengthBytes.length), (), hlength, ?_⟩
    refine Checked.bind_ok.mpr ⟨(), (), Checked.require_ok.mpr ⟨decide_eq_true hshort, rfl⟩, ?_⟩
    refine Checked.bind_ok.mpr ⟨_, (), Checked.sub_ok.mpr ⟨by omega, rfl, rfl⟩, ?_⟩
    refine Checked.bind_ok.mpr ⟨(), (), Checked.require_ok.mpr ⟨decide_eq_true (by omega), rfl⟩, ?_⟩
    refine Checked.bind_ok.mpr ⟨_, (), Checked.add_ok.mpr ⟨by omega, rfl, rfl⟩, ?_⟩
    refine Checked.bind_ok.mpr ⟨(), (), Checked.require_ok.mpr ⟨decide_eq_true (by omega), rfl⟩, ?_⟩
    refine Checked.bind_ok.mpr ⟨0x86, (), Checked.index_ok.mpr ⟨drop_cons_iff.mpr ⟨rest, ?_⟩, rfl⟩, ?_⟩
    · rw [← List.drop_drop, hafter, List.drop_left]
    refine Checked.bind_ok.mpr ⟨(), (), Checked.require_ok.mpr ⟨rfl, rfl⟩, ?_⟩
    refine Checked.bind_ok.mpr ⟨raw, (), Checked.slice_ok.mpr ⟨by omega, ?_, rfl⟩, ?_⟩
    · rw [hafter, List.take_left]
    · exact (decodeText_ok hshort).mpr htext

theorem decodeAfter_ok {starts : List Bytes}
    (hdiffer : starts.Pairwise fun a b => ¬a <+: b ∧ ¬b <+: a) :
    decodeAfter body starts () = (.ok t, ()) ↔ ∃ start ∈ starts, ∃ tail, body = start ++ tail ∧
      decodeAt body start.length () = (.ok t, ()) := by
  induction starts with
  | nil => simp [decodeAfter]
  | cons start rest ih =>
    obtain ⟨hfirst, hrest⟩ := List.pairwise_cons.mp hdiffer
    unfold decodeAfter
    split_ifs with hstart
    · obtain ⟨tail, htail⟩ := List.isPrefixOf_iff_prefix.mp hstart
      refine ⟨fun h => ⟨start, List.mem_cons_self, tail, htail.symm, h⟩, ?_⟩
      rintro ⟨other, hmem, tail', hbody, h⟩
      rcases List.mem_cons.mp hmem with rfl | hlater
      · exact h
      · -- no two of the prefixes start the same body
        have hdiff := hfirst other hlater
        rcases List.prefix_or_prefix_of_prefix ⟨tail, htail⟩ ⟨tail', hbody.symm⟩ with hle | hle
        · exact absurd hle hdiff.1
        · exact absurd hle hdiff.2
    · rw [ih hrest]
      constructor
      · rintro ⟨other, hmem, hother⟩
        exact ⟨other, List.mem_cons_of_mem start hmem, hother⟩
      · rintro ⟨other, hmem, tail, hbody, h⟩
        rcases List.mem_cons.mp hmem with rfl | hlater
        · exact absurd (List.isPrefixOf_iff_prefix.mpr ⟨tail, hbody.symm⟩) hstart
        · exact ⟨other, hlater, tail, hbody, h⟩

theorem prefixes_differ : prefixes.Pairwise fun a b => ¬a <+: b ∧ ¬b <+: a := by
  decide

/-- A body is decoded exactly if it spells its text within the limits of the decoder. -/
theorem decode_iff (body t : Bytes) :
    decode body = .ok t ↔ body.length ≤ maxDecode ∧ ∃ length ≤ maxBody, Spells body t length := by
  have hrun : decode body = .ok t ↔ decodes body () = (.ok t, ()) :=
    ⟨fun h => Prod.ext h rfl, fun h => congrArg Prod.fst h⟩
  rw [hrun]
  constructor
  · intro h
    obtain ⟨_, _, hsize, h⟩ := Checked.bind_ok.mp h
    have hsize := of_decide_eq_true (Checked.require_ok.mp hsize).1
    obtain ⟨start, hstart, tail, hbody, h⟩ := (decodeAfter_ok prefixes_differ).mp h
    obtain ⟨length, lengthBytes, raw, rest, htail, hbytes, hraw, hshort, htext, hclean, hfit⟩ :=
      (decodeAt_ok hbody hsize).mp h
    refine ⟨hsize, length, hshort, start, hstart, lengthBytes, raw, rest, ?_, hbytes, hraw, htext,
      hclean, hfit⟩
    rw [hbody, htail, List.append_assoc, List.append_assoc, List.append_assoc]
  · rintro ⟨hsize, length, hshort, start, hstart, lengthBytes, raw, rest, hbody, hbytes, hraw,
      htext, hclean, hfit⟩
    have hsplit : body = start ++ (lengthBytes ++ raw ++ 0x86 :: rest) := by
      rw [hbody, List.append_assoc, List.append_assoc, List.append_assoc]
    refine Checked.bind_ok.mpr ⟨(), (), Checked.require_ok.mpr ⟨decide_eq_true hsize, rfl⟩, ?_⟩
    refine (decodeAfter_ok prefixes_differ).mpr ⟨start, hstart, _, hsplit, ?_⟩
    exact (decodeAt_ok hsplit hsize).mpr
      ⟨length, lengthBytes, raw, rest, rfl, hbytes, hraw, hshort, htext, hclean, hfit⟩

end Bodies

section Total

abbrev Sound {α : Type} (m : Decodes α) (Q : α → Prop) : Prop :=
  Checked.Keeps (fun _ => True) (fun _ _ => True) m Q

theorem sound_fail : ∀ (_ : DecodeError) (_ : Unit), True → True := fun _ _ h => h

variable {body : Bytes}

theorem readLength_keeps {b : Bytes} {pos : Nat} (hb : b.length < 2 ^ 63) :
    Sound (readLength b pos) fun r => r.2 ≤ b.length := by
  refine .bind (.require sound_fail) fun _ hpos => ?_
  have hpos := of_decide_eq_true hpos
  refine .bind (.index hpos) fun lead _ => .bind (.add (by omega)) fun next hnext => ?_
  split_ifs
  · exact .pure (by dsimp only; omega)
  · refine .bind (.orFail sound_fail) fun size hsize => ?_
    have hsize : size ≤ 4 := by
      rcases lengthSize_cases hsize with ⟨-, rfl⟩ | ⟨-, rfl⟩ <;> omega
    refine .bind (.sub (by omega)) fun left hleft => .bind (.require sound_fail) fun _ hfit => ?_
    have hfit := of_decide_eq_true hfit
    refine .bind (.slice (by omega)) fun raw _ => .bind (.add (by omega)) fun stop hstop => ?_
    exact .pure (by dsimp only; omega)

theorem decodeText_keeps (raw : Bytes) : Sound (decodeText raw) fun _ => True := by
  unfold decodeText
  split_ifs with hstart
  · have hlong : 2 ≤ raw.length := (List.isPrefixOf_iff_prefix.mp hstart).length_le
    refine .bind (.require sound_fail) fun _ heven => ?_
    have heven := of_decide_eq_true heven
    refine .bind (.sub hlong) fun left hleft => ?_
    have hunit {i : Nat} (hi : i < left / 2) : Sound (unitAt raw i) fun _ => True :=
      .bind (.slice (by omega)) fun unit _ => .pure trivial
    have hunits : Sound (Checked.each (unitAt raw) (List.range (left / 2))) fun _ => True :=
      (Checked.Meets.each fun i hi => (hunit (List.mem_range.mp hi)).mono (fun _ h => h)
        fun _ _ h => h.2).weaken fun _ _ h => ⟨trivial, h.2⟩
    exact .bind hunits fun units _ => .bind (.orFail sound_fail) fun decoded _ =>
      .bind (.require sound_fail) fun _ _ => .bind (.require sound_fail) fun _ _ => .pure trivial
  · exact .bind (.require sound_fail) fun _ _ => .pure trivial

theorem decodeAt_keeps {pos : Nat} (hb : body.length < 2 ^ 63) :
    Sound (decodeAt body pos) fun _ => True := by
  refine .bind (readLength_keeps hb) fun r hr => ?_
  obtain ⟨length, pos⟩ := r
  refine .bind (.require sound_fail) fun _ _ => .bind (.sub hr) fun left hleft => ?_
  refine .bind (.require sound_fail) fun _ hfit => ?_
  have hfit := of_decide_eq_true hfit
  dsimp only at hr hleft hfit
  refine .bind (.add (by omega)) fun stop hstop => .bind (.require sound_fail) fun _ hmore => ?_
  refine .bind (.index (of_decide_eq_true hmore)) fun mark _ => ?_
  refine .bind (.require sound_fail) fun _ _ => .bind (.slice (by omega)) fun raw _ => ?_
  exact decodeText_keeps raw

theorem decodeAfter_keeps (hb : body.length < 2 ^ 63) (starts : List Bytes) :
    Sound (decodeAfter body starts) fun _ => True := by
  induction starts with
  | nil => exact .fail sound_fail
  | cons start rest ih =>
    unfold decodeAfter
    split_ifs
    · exact decodeAt_keeps hb
    · exact ih

/-- No length overflows, and nothing is read out of bounds. -/
theorem decode_untrapped (body : Bytes) : decode body ≠ .error .trap := by
  have hword : maxDecode < 2 ^ 63 := by decide
  have hkeeps : Sound (decodes body) fun _ => True := .bind (.require sound_fail) fun _ hsize =>
    decodeAfter_keeps (lt_of_le_of_lt (of_decide_eq_true hsize) hword) prefixes
  exact (Checked.Meets.leaves hkeeps (s := ()) (B := fun _ => True) trivial (fun _ _ _ => trivial)
    fun _ _ _ => trivial).1

end Total

section Archives

def lengthBytes (n : Nat) : Bytes :=
  if n ≤ 0x7F then [byte n]
  else if n < 2 ^ 16 then [0x81, byte n, byte (n / 256)]
  else [0x82, byte n, byte (n / 256), byte (n / 65536), byte (n / 16777216)]

def utf16Bytes (text : Bytes) : Option Bytes :=
  (codepoints text).map fun cps => [0xFF, 0xFE] ++ unitBytes (cps.flatMap utf16Units)

/-- A reference encoder of a body, whose string is of the bytes `raw`. -/
def archive (start raw : Bytes) : Bytes := start ++ lengthBytes raw.length ++ raw ++ [0x86]

theorem byte_toNat (n : Nat) : (byte n).toNat = n % 256 := UInt8.toNat_ofNat'

theorem lengthBytes_spell {n : Nat} (h : n < 2 ^ 32) : LengthBytes (lengthBytes n) n := by
  unfold lengthBytes
  split_ifs with hbyte hshort
  · have hspell := LengthBytes.byte (b := byte n) (UInt8.le_iff_toNat_le.mpr (by
      rw [byte_toNat]
      change _ ≤ 0x7F
      omega))
    rwa [byte_toNat, Nat.mod_eq_of_lt (by omega)] at hspell
  · have hspell := LengthBytes.short [byte n, byte (n / 256)] rfl
    have hvalue : little [byte n, byte (n / 256)] = n := by
      rw [little_pair, byte_toNat, byte_toNat]
      omega
    rwa [hvalue] at hspell
  · have hspell := LengthBytes.long [byte n, byte (n / 256), byte (n / 65536), byte (n / 16777216)] rfl
    have hvalue : little [byte n, byte (n / 256), byte (n / 65536), byte (n / 16777216)] = n := by
      change (byte n).toNat + 256 * ((byte (n / 256)).toNat + 256 * ((byte (n / 65536)).toNat +
        256 * ((byte (n / 16777216)).toNat + 256 * 0))) = n
      rw [byte_toNat, byte_toNat, byte_toNat, byte_toNat]
      omega
    rwa [hvalue] at hspell

theorem lengthBytes_length (n : Nat) : (lengthBytes n).length ≤ 5 := by
  unfold lengthBytes
  split_ifs <;> simp

theorem utf16Units_lt {cp : Nat} (h : cp < 0x110000) : ∀ unit ∈ utf16Units cp, unit < 2 ^ 16 := by
  intro unit hmem
  unfold utf16Units at hmem
  split_ifs at hmem with hplain
  · obtain rfl := List.mem_singleton.mp hmem
    omega
  · simp only [List.mem_cons, List.not_mem_nil, or_false] at hmem
    omega

theorem utf16Bytes_spell {text raw : Bytes} (h : utf16Bytes text = some raw) :
    TextBytes raw text := by
  obtain ⟨cps, hcps, rfl⟩ := Option.map_eq_some_iff.mp h
  refine .utf16 _ (fun unit hmem => ?_) (utf16ToUtf8_units hcps)
  obtain ⟨cp, hcp, hunit⟩ := List.mem_flatMap.mp hmem
  have hscalar := codepoints_scalar hcps cp hcp
  exact utf16Units_lt (by omega) unit hunit

theorem prefixes_short : ∀ start ∈ prefixes, start.length ≤ 256 := by
  decide

theorem archive_spells {start raw text : Bytes} (hstart : start ∈ prefixes)
    (htext : TextBytes raw text) (hclean : 0 ∉ text) (hraw : raw.length ≤ maxBody)
    (hfit : text.length ≤ maxBody) (rest : Bytes) :
    Spells (archive start raw ++ rest) text raw.length := by
  have hword : maxBody < 2 ^ 32 := by decide
  refine ⟨start, hstart, lengthBytes raw.length, raw, rest, ?_, lengthBytes_spell (by omega), rfl,
    htext, hclean, hfit⟩
  rw [archive, List.append_assoc _ [0x86] rest, List.singleton_append]

/-- Any text within the limits is decoded from its archive. -/
theorem archive_decode {start raw text : Bytes} (hstart : start ∈ prefixes)
    (htext : TextBytes raw text) (hclean : 0 ∉ text) (hraw : raw.length ≤ maxBody)
    (hfit : text.length ≤ maxBody) : decode (archive start raw) = .ok text := by
  have hspells := archive_spells hstart htext hclean hraw hfit []
  rw [List.append_nil] at hspells
  refine (decode_iff _ _).mpr ⟨?_, _, hraw, hspells⟩
  have hroom : maxBody + 262 ≤ maxDecode := by decide
  have hshort := prefixes_short start hstart
  have hlength := lengthBytes_length raw.length
  rw [archive, List.length_append, List.length_append, List.length_append, List.length_singleton]
  omega

end Archives

/-- Text-body decoding: what is accepted is exactly what the grammar spells within the
limits of a body and its string, archives of texts are read back, and nothing traps. -/
theorem decode_grammar (body t : Bytes) :
    (decode body = .ok t ↔ body.length ≤ maxDecode ∧ ∃ length ≤ maxBody, Spells body t length) ∧
      decode body ≠ .error .trap ∧
      ∀ start ∈ prefixes, 0 ∉ t → t.length ≤ maxBody →
        (utf8ValidateSlice t = true → decode (archive start t) = .ok t) ∧
        ∀ raw, utf16Bytes t = some raw → raw.length ≤ maxBody →
          decode (archive start raw) = .ok t :=
  ⟨decode_iff body t, decode_untrapped body, fun _ hstart hclean hfit =>
    ⟨fun hvalid => archive_decode hstart (.utf8 hvalid) hclean hfit hfit, fun _ hencoded hraw =>
      archive_decode hstart (utf16Bytes_spell hencoded) hclean hraw hfit⟩⟩

/-- A text of a surrogate pair in a mutable string. -/
theorem decode_grammar_pair :
    decode (archive (prefixes.getLast (by decide)) [0xFF, 0xFE, 0x3D, 0xD8, 0x00, 0xDE]) =
      .ok [0xF0, 0x9F, 0x98, 0x80] :=
  ((decode_grammar [] [0xF0, 0x9F, 0x98, 0x80]).2.2 (prefixes.getLast (by decide))
    (List.getLast_mem (by decide)) (by decide) (by decide)).2 [0xFF, 0xFE, 0x3D, 0xD8, 0x00, 0xDE]
      (by decide) (by decide)

/-- Bytes after the end of the object make a body too long. -/
theorem decode_long : ¬∀ body t, decode body = .ok t ↔ ∃ length, Spells body t length := by
  intro h
  have hstart : prefixes.head (by decide) ∈ prefixes := List.head_mem (by decide)
  have htext : TextBytes [0x61] [0x61] := .utf8 rfl
  have hspells := archive_spells hstart htext (by decide) (by decide) (by decide)
    (List.replicate maxDecode 0)
  have hbound := ((decode_iff _ _).mp ((h _ _).mpr ⟨_, hspells⟩)).1
  rw [List.length_append, List.length_replicate] at hbound
  have hlong : 0 < (archive (prefixes.head (by decide)) [0x61]).length := by decide
  omega

end Zimbr.Relay.Decoder
