import Zimbr.Protocol.Json
import Zimbr.Relay.Intake
import Zimbr.Relay.Streams

set_option autoImplicit false

/-!
# What an event stream sends

An event is framed as three lines. Its data is one line: strings are escaped,
and a stored record loses the line breaks that format it.
-/
namespace Zimbr

namespace Json

/-- The bytes may stand in a line of UTF-8 text. -/
structure Inline (bytes : Bytes) : Prop where
  line : (10 : UInt8) ∉ bytes
  utf8 : utf8ValidateSlice bytes = true

section Inline

variable {s t : Bytes}

theorem Inline.append (hs : Inline s) (ht : Inline t) : Inline (s ++ t) where
  line h := by
    rcases List.mem_append.mp h with h | h
    · exact hs.line h
    · exact ht.line h
  utf8 := utf8_append hs.utf8 ht.utf8

theorem inline_ascii (h : ∀ b ∈ s, b < 0x80 ∧ b ≠ 10) : Inline s where
  line hb := (h 10 hb).2 rfl
  utf8 := utf8_of_ascii fun b hb => (h b hb).1

theorem inline_text (h : s.all (fun b => decide (b < 0x80 ∧ b ≠ 10)) = true) : Inline s :=
  inline_ascii (List.all_iff_forall_prop.mp h)

theorem hex_plain {n : Nat} (h : n < 16) : hex n < 0x80 ∧ hex n ≠ 10 := by
  revert n
  decide

theorem ascii_half {b : UInt8} (h : b < 0x80) : b.toNat / 16 < 16 := by
  rw [UInt8.lt_iff_toNat_lt] at h
  change b.toNat < 128 at h
  omega

theorem escape_ascii {b : UInt8} (h : b < 0x80) : ∀ c ∈ escape b, c < 0x80 ∧ c ≠ 10 := by
  unfold escape
  split_ifs with hquote hback h8 h12 h10 h13 h9 hlow
  iterate 7 exact List.all_iff_forall_prop.mp (by decide)
  · intro c hc
    rcases List.mem_append.mp hc with hc | hc
    · exact (List.all_iff_forall_prop.mp (by decide) : ∀ c ∈ text "\\u00", c < 0x80 ∧ c ≠ 10) c hc
    · rcases List.mem_pair.mp hc with rfl | rfl
      · exact hex_plain (ascii_half h)
      · exact hex_plain (Nat.mod_lt _ (by omega))
  · intro c hc
    rw [List.mem_singleton.mp hc]
    exact ⟨h, h10⟩

theorem escape_high {b : UInt8} (h : 0x80 ≤ b) : escape b = [b] := by
  have hne {c : UInt8} (hc : c < 0x80) : b ≠ c := fun he => absurd h (not_le.mpr (he ▸ hc))
  have hlow : ¬b < 32 := not_lt.mpr ((by decide : (32 : UInt8) ≤ 0x80).trans h)
  unfold escape
  rw [if_neg (hne (by decide)), if_neg (hne (by decide)), if_neg (hne (by decide)),
    if_neg (hne (by decide)), if_neg (hne (by decide)), if_neg (hne (by decide)),
    if_neg (hne (by decide)), if_neg hlow]

theorem escape_wide {unit : Bytes} (h : ∀ b ∈ unit, 0x80 ≤ b) : unit.flatMap escape = unit := by
  induction unit with
  | nil => rfl
  | cons b rest ih =>
    rw [List.flatMap_cons, escape_high (h b List.mem_cons_self),
      ih fun c hc => h c (List.mem_cons_of_mem b hc)]
    rfl

theorem escaped_inline (h : utf8ValidateSlice s = true) : Inline (s.flatMap escape) := by
  refine utf8_induction (P := fun s => Inline (s.flatMap escape)) ⟨List.not_mem_nil, rfl⟩ ?_ ?_ s h
  · intro b rest hb ih
    rw [List.flatMap_cons]
    exact (inline_ascii (escape_ascii hb)).append ih
  · intro unit rest hwide ih
    rw [List.flatMap_append, escape_wide hwide.high]
    refine Inline.append ⟨fun h10 => ?_, ?_⟩ ih
    · exact absurd (hwide.high 10 h10) (by decide)
    · have hvalid := hwide.valid []
      rwa [List.append_nil] at hvalid

theorem intercalate_ascii {items : List Bytes} (h : ∀ s ∈ items, ∀ b ∈ s, b < 0x80 ∧ b ≠ 10) :
    ∀ b ∈ [44].intercalate items, b < (0x80 : UInt8) ∧ b ≠ 10 := by
  induction items with
  | nil => exact fun b hb => nomatch hb
  | cons s rest ih =>
    have ih := ih fun t ht => h t (List.mem_cons_of_mem s ht)
    intro b hb
    cases rest with
    | nil => exact h s List.mem_cons_self b (by simpa [List.intercalate] using hb)
    | cons t rest =>
      have hcons : [44].intercalate (s :: t :: rest) = s ++ 44 :: [44].intercalate (t :: rest) := by
        simp [List.intercalate]
      rw [hcons] at hb
      rcases List.mem_append.mp hb with hb | hb
      · exact h s List.mem_cons_self b hb
      · rcases List.mem_cons.mp hb with rfl | hb
        · decide
        · exact ih b hb

theorem digit_inline {b : UInt8} (h : isDigit b = true) : b < 0x80 ∧ b ≠ 10 := by
  simp only [isDigit, Bool.and_eq_true, decide_eq_true_eq] at h
  refine ⟨lt_of_le_of_lt h.2 (by decide), ?_⟩
  rintro rfl
  exact absurd h.1 (by decide)

/-- A string is one line, whatever its bytes are. -/
theorem string_inline (s : Bytes) : Inline (string s) := by
  unfold string
  split_ifs with h
  · have hopen : Inline [34] := inline_text (by decide)
    have hinner : Inline (34 :: s.flatMap escape) := hopen.append (escaped_inline h)
    exact hinner.append (inline_text (by decide))
  · have hopen : Inline [91] := inline_text (by decide)
    have hitems : Inline ([44].intercalate (s.map fun b => decimal b.toNat)) := by
      refine inline_ascii (intercalate_ascii ?_)
      intro item hitem b hb
      obtain ⟨c, -, rfl⟩ := List.mem_map.mp hitem
      exact digit_inline (decimal_digits _ b hb)
    exact (hopen.append hitems).append (inline_text (by decide))

theorem stringify_inline (h : validate s = true) : Inline (stringify s) where
  line h10 := by
    have hkept := List.of_mem_filter h10
    exact nomatch hkept
  utf8 := by
    have hvalid := validate_stringify h
    rw [validate, Bool.and_eq_true] at hvalid
    exact hvalid.1

end Inline

end Json

namespace Relay
open Json (Inline)

/-- `u.json` of an event's envelope; the record is embedded as a text. -/
def envelope (d : Delivery) (record : Bytes) : Bytes :=
  text "\x7b\"cursor\":" ++ Json.string d.cursor ++
    text ",\"sequence\":" ++ Json.string (decimal d.event.sequence) ++
    text ",\"type\":" ++ Json.string (text d.event.record.eventType) ++
    text ",\"record\":" ++ record ++
    text ",\"origin\":" ++ Json.string d.event.origin.text ++ text "\x7d"

def frameText (d : Delivery) (record : Bytes) : Bytes :=
  text "id: " ++ d.cursor ++ text "\nevent: " ++ text d.event.record.eventType ++
    text "\ndata: " ++ envelope d (Json.stringify record) ++ text "\n\n"

/-- What a stream writes; an event with the stored text of its record. -/
inductive Sent where
  | connected | heartbeat
  | event (e : Event) (record : Bytes)
  deriving DecidableEq, Repr

/-- A stored text that is not one JSON value fails the batch. -/
def Sent.bytes (epoch : Bytes) : Sent → Option Bytes
  | .connected => some (text ": connected\n\n")
  | .heartbeat => some (text ": heartbeat\n\n")
  | .event e record =>
    if Json.validate record then some (frameText (deliver epoch e) record) else none

def wire (epoch : Bytes) (items : List Sent) : Option (List Bytes) := items.mapM (Sent.bytes epoch)

def frameLines (d : Delivery) (record : Bytes) : List Bytes :=
  [text "id: " ++ d.cursor, text "event: " ++ text d.event.record.eventType,
    text "data: " ++ envelope d (Json.stringify record)]

def framed (lines : List Bytes) : Bytes := lines.flatMap (· ++ [10]) ++ [10]

theorem frameText_lines (d : Delivery) (record : Bytes) :
    frameText d record = framed (frameLines d record) := by
  have hevent : text "\nevent: " = 10 :: text "event: " := rfl
  have hdata : text "\ndata: " = 10 :: text "data: " := rfl
  have hend : text "\n\n" = [10, 10] := rfl
  simp [frameText, framed, frameLines, hevent, hdata, hend]

theorem eventType_inline (r : Record) : Inline (text r.eventType) := by
  cases r with
  | conversation v =>
    change Inline (text "conversation.upsert")
    exact ⟨by decide, by decide⟩
  | message v =>
    change Inline (text "message.upsert")
    exact ⟨by decide, by decide⟩
  | identity v =>
    change Inline (text "identity.upsert")
    exact ⟨by decide, by decide⟩
  | request v =>
    change Inline (text "send_request.updated")
    exact ⟨by decide, by decide⟩

theorem envelope_inline (d : Delivery) {record : Bytes} (h : Inline record) :
    Inline (envelope d record) := by
  have htext {s : Bytes} (hs : s.all (fun b => decide (b < (0x80 : UInt8) ∧ b ≠ 10)) = true) :
      Inline s := Json.inline_text hs
  have hcursor := (htext (s := text "\x7b\"cursor\":") (by decide)).append
    (Json.string_inline d.cursor)
  have hsequence := (hcursor.append (htext (s := text ",\"sequence\":") (by decide))).append
    (Json.string_inline (decimal d.event.sequence))
  have htype := (hsequence.append (htext (s := text ",\"type\":") (by decide))).append
    (Json.string_inline (text d.event.record.eventType))
  have hrecord := (htype.append (htext (s := text ",\"record\":") (by decide))).append h
  have horigin := (hrecord.append (htext (s := text ",\"origin\":") (by decide))).append
    (Json.string_inline d.event.origin.text)
  exact horigin.append (htext (s := text "\x7d") (by decide))

end Relay

end Zimbr
