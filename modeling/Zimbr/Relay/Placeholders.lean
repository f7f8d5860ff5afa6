import Zimbr.Relay.PartTiling

set_option autoImplicit false

/-!
# Placeholders of attachments

A decoded message places each attachment at a U+FFFC. The check for others is made
where a part begins, but not where a run continues one.
-/
namespace Zimbr.Relay.BodyParts
open Library

section Decoded

variable {hashId : Bytes → Bytes} {text bytes : Bytes} {attachments : List Attachment}
  {parts : List MessagePart}

theorem decode_ok (h : decode hashId text attachments bytes = .ok parts) :
    ∃ ranges cps s, (read bytes).1 = .ok (.attributed text ranges) ∧
      codepoints text = some cps ∧
      place hashId text attachments (boundaries text cps) ranges {} = (.ok parts, s) := by
  unfold decode at h
  split at h
  · exact nomatch h
  · next body ranges reader hread =>
    split_ifs at h with hrest
    simp only [ne_eq, Bool.or_eq_true, decide_eq_true_eq, not_or, not_not] at hrest
    obtain ⟨-, rfl⟩ := hrest
    split at h
    · exact nomatch h
    · next cps hcps =>
      exact ⟨ranges, cps, _, congrArg Prod.fst hread, hcps, Prod.ext h rfl⟩
  · exact nomatch h

theorem Tiled.occupies {ranges : List (Nat × Nat)} {stop : Nat}
    (h : Tiled text parts ranges stop) {p : MessagePart} (hp : p ∈ parts) :
    ∃ r, Occupies text p r := by
  obtain ⟨i, hi⟩ := List.getElem?_of_mem hp
  obtain ⟨r, -, hoccupies⟩ := forall₂_getElem? h.2.2 hi
  exact ⟨r, hoccupies⟩

theorem sourceId_inj {a b : Nat} (h : sourceId a = sourceId b) : a = b := by
  have hdigits : decimal a = decimal b := List.append_cancel_left h
  rw [← spelled_decimal a, hdigits, spelled_decimal]

end Decoded

section Archives

def sharedString (s : String) : Bytes := 0x84 :: byte (text s).length :: text s

def attributedText : Bytes :=
  header ++ sharedString "@" ++ [0x84, 0x84] ++ sharedString "NSAttributedString" ++ [0, 0x85] ++
    [0x92, 0x84, 0x84] ++ sharedString "NSString" ++ [0, 0x85] ++ sharedString "+"

/-- The attributes of the first part, that many, the index first. -/
def firstPart (count : UInt8) : Bytes :=
  [0x92, 0x84, 0x84] ++ sharedString "NSDictionary" ++ [0, 0x85] ++ sharedString "i" ++ [count] ++
    [0x92, 0x84, 0x95, 0x95, 29] ++ text "__kIMMessagePartAttributeName" ++ [0x86] ++
    [0x92, 0x84, 0x84] ++ sharedString "NSNumber" ++ [0, 0x85] ++ sharedString "*" ++
    [0x84, 0x98, 0x98, 0, 0x86]

def captionedText : Bytes := 97 :: objectReplacement

/-- A caption of one letter, then a photo in a part of its own. -/
def photoArchive : Bytes :=
  attributedText ++ [4, 97] ++ objectReplacement ++ [0x86] ++ sharedString "iI" ++ [1, 1] ++
    firstPart 1 ++ [0x86, 0x96, 2, 1, 0x92, 0x84, 0x97, 0x98, 2, 0x92, 0x98, 0x92, 0x84, 0x9A,
    0x9A, 0x9B, 0x98, 1, 0x86, 0x92, 0x84, 0x95, 0x95, 34] ++
    text "__kIMFileTransferGUIDAttributeName" ++
    [0x86, 0x92, 0x84, 0x95, 0x95, 1, 103, 0x86, 0x86, 0x86]

def photoId : Bytes := text "zQqphWFHtsW0_yt9_uXaIKo4JTCZ7xtKZKztIzya_ik"

def photo : Attachment :=
  { id := photoId, name := text "photo", mimeType := text "image/png", bytes := text "0" }

def captionPart : MessagePart :=
  { id := sourceId 0
    kind := .text
    sourceIndex := some 0
    textStart := some 0
    textLength := some 1 }

def photoPart : MessagePart :=
  { id := sourceId 1, kind := .attachment, sourceIndex := some 1, attachmentId := some photoId }

/-- A text run, then a U+FFFC in a run of the same part. -/
def overrunArchive : Bytes :=
  attributedText ++ [4, 97] ++ objectReplacement ++ [0x86] ++ sharedString "iI" ++ [1, 1] ++
    firstPart 1 ++ [0x86, 0x96, 1, 1, 0x86]

def overrunPart : MessagePart :=
  { id := sourceId 0
    kind := .text
    sourceIndex := some 0
    textStart := some 0
    textLength := some 4 }

end Archives

section Decoded

variable {hashId : Bytes → Bytes} {text bytes : Bytes} {attachments : List Attachment}
  {parts : List MessagePart}

/-- The parts of a decoded message follow each other on code point boundaries from
the start of the text to its end, each attachment at a U+FFFC, and they are distinct. -/
theorem parts_tile (h : decode hashId text attachments bytes = .ok parts) :
    (∃ ranges, Tiled text parts ranges text.length) ∧
    (parts.map MessagePart.sourceIndex).Nodup ∧ (parts.map MessagePart.id).Nodup ∧
    ∀ p ∈ parts, p.kind = .attachment → ∃ a ∈ attachments, p.attachmentId = some a.id := by
  obtain ⟨ranges, cps, s, -, hcps, hplace⟩ := decode_ok h
  obtain ⟨hlaid, rfl, ⟨tiles, htiled⟩, -⟩ := place_laid hcps hplace
  have hindices : (s.parts.map MessagePart.sourceIndex).Nodup := by
    rw [hlaid.seen]
    exact (List.nodup_reverse.mpr hlaid.distinct).map (Option.some_injective _)
  refine ⟨⟨tiles, htiled⟩, hindices, ?_, ?_⟩
  · refine (List.Nodup.of_map _ hindices).map_on fun p hp q hq hsame => ?_
    obtain ⟨r, hpr⟩ := htiled.occupies hp
    obtain ⟨r', hqr⟩ := htiled.occupies hq
    obtain ⟨index, hpindex, hpid⟩ := hpr.identified
    obtain ⟨index', hqindex, hqid⟩ := hqr.identified
    rw [hpid, hqid] at hsame
    refine List.inj_on_of_nodup_map hindices hp hq ?_
    rw [hpindex, hqindex, sourceId_inj hsame]
  · intro p hp hkind
    obtain ⟨r, hoccupies⟩ := htiled.occupies hp
    cases hoccupies with
    | text => cases hkind
    | attachment index start stop id =>
      obtain ⟨a, ha, hid⟩ := hlaid.supplied _ hp id rfl
      exact ⟨a, ha, congrArg some hid.symm⟩

theorem photo_decoded : decode (fun _ => photoId) captionedText [photo] photoArchive =
    .ok [captionPart, photoPart] := by
  decide +kernel

theorem parts_tile_photo :
    ∃ ranges, Tiled captionedText [captionPart, photoPart] ranges captionedText.length :=
  (parts_tile photo_decoded).1

/-- Each U+FFFC is the place of one attachment, and each attachment has one place. -/
def Matched (text : Bytes) (attachments : List Attachment) (parts : List MessagePart) : Prop :=
  ∃ ranges, Tiled text parts ranges text.length ∧
    (∀ o, objectReplacement <+: text.drop o → ∃! i : Nat, ∃ p : MessagePart, parts[i]? = some p ∧
      p.kind = .attachment ∧ ranges[i]? = some (o, o + 3)) ∧
    (∀ p ∈ parts, Plain text p) ∧
    ∀ a ∈ attachments, ∃! i : Nat, ∃ p : MessagePart, parts[i]? = some p ∧
      p.attachmentId = some a.id

/-- No run that continues another holds a U+FFFC, and no two runs name one attachment. -/
def Separate (hashId : Bytes → Bytes) (text : Bytes) (runs : List Run) : Prop :=
  runs.IsChain (fun r r' => ¬Overruns text r r') ∧
    (runs.filterMap fun r => r.transfer.map hashId).Nodup

/-- Without U+FFFC in the text parts, each one is the place of an attachment. -/
theorem Tiled.replacement {ranges : List (Nat × Nat)} (h : Tiled text parts ranges text.length)
    (hplain : ∀ p ∈ parts, Plain text p) {o : Nat} (hoccurs : objectReplacement <+: text.drop o) :
    ∃! i : Nat, ∃ p : MessagePart, parts[i]? = some p ∧ p.kind = .attachment ∧
      ranges[i]? = some (o, o + 3) := by
  obtain ⟨htiles, haligned, hparts⟩ := h
  have hwithin : o < text.length := by
    have hle := hoccurs.length_le
    rw [List.length_drop] at hle
    have hthree : objectReplacement.length = 3 := rfl
    omega
  obtain ⟨i, r, hi, hlow, hhigh⟩ := tiles_cover htiles (Nat.zero_le o) hwithin
  obtain ⟨p, hp, hoccupies⟩ := forall₂_getElem? hparts.flip hi
  obtain ⟨hfrom, hto⟩ := haligned r (List.mem_of_getElem? hi)
  have hle : r.1 ≤ r.2 := by omega
  have hwindow : objectReplacement <+: (window text r.1 r.2).drop (o - r.1) := by
    refine replacement_within (hfrom.window_valid hto hle) (t := text.drop r.2) ?_ ?_
    · rw [window_length _ hto.bound]
      omega
    · rw [window_drop hle, List.drop_drop, Nat.add_sub_cancel' hlow]
      exact hoccurs
  have hplace : p.kind = .attachment ∧ r = (o, o + 3) := by
    cases hoccupies with
    | text index start stop =>
      have hclean := hplain _ (List.mem_of_getElem? hp) start (stop - start) rfl rfl
      exact absurd (hasReplacement_iff.mpr ⟨_, hwindow⟩) (by rw [window, hclean]; exact Bool.false_ne_true)
    | attachment index start stop id hcovered =>
      have hlength := window_length start hto.bound
      rw [hcovered] at hwindow hlength
      have hthree : objectReplacement.length = 3 := rfl
      have hfits := hwindow.length_le
      rw [List.length_drop] at hfits
      dsimp only at *
      refine ⟨rfl, Prod.ext ?_ ?_⟩
      · dsimp only
        omega
      · dsimp only
        omega
  obtain ⟨hkind, rfl⟩ := hplace
  refine ⟨i, ⟨p, hp, hkind, hi⟩, ?_⟩
  rintro j ⟨q, -, -, hj⟩
  exact tiles_disjoint htiles hj hi ⟨Nat.le_refl o, by omega⟩ ⟨Nat.le_refl o, by omega⟩

/-- The attachments that parts name are distinct if no two parts name the same. -/
theorem named_nodup : (parts.filterMap MessagePart.attachmentId).Nodup ↔
    ∀ (i j : Nat) (p q : MessagePart) (id : Bytes), parts[i]? = some p → parts[j]? = some q →
      p.attachmentId = some id → q.attachmentId = some id → i = j := by
  rw [List.Nodup, List.pairwise_filterMap, List.pairwise_iff_getElem]
  constructor
  · intro hpairs i j p q id hi hj hp hq
    obtain ⟨hibound, rfl⟩ := List.getElem?_eq_some_iff.mp hi
    obtain ⟨hjbound, rfl⟩ := List.getElem?_eq_some_iff.mp hj
    rcases Nat.lt_trichotomy i j with hlt | heq | hgt
    · exact absurd rfl (hpairs i j hibound hjbound hlt id hp id hq)
    · exact heq
    · exact absurd rfl (hpairs j i hjbound hibound hgt id hq id hp)
  · intro hsame i j hi hj hlt id hp id' hq heq
    rw [← heq] at hq
    have hindex := hsame i j _ _ id (List.getElem?_eq_getElem hi) (List.getElem?_eq_getElem hj)
      hp hq
    omega

/-- A decoded message matches its placeholders and its attachments exactly if its runs
are separate. -/
theorem placeholders_matched (h : decode hashId text attachments bytes = .ok parts) :
    ∃ ranges cps, (read bytes).1 = .ok (.attributed text ranges) ∧ codepoints text = some cps ∧
      (Matched text attachments parts ↔
        Separate hashId text (layout (boundaries text cps) 0 ranges)) := by
  obtain ⟨ranges, cps, s, hread, hcps, hplace⟩ := decode_ok h
  obtain ⟨hlaid, rfl, ⟨tiles, htiled⟩, hused⟩ := place_laid hcps hplace
  refine ⟨ranges, cps, hread, hcps, ?_⟩
  unfold Separate
  rw [← hlaid.plain, ← hlaid.transfers, named_nodup]
  constructor
  · rintro ⟨_, _, _, hplain, honce⟩
    refine ⟨hplain, fun i j p q id hi hj hp hq => ?_⟩
    obtain ⟨a, ha, rfl⟩ := hlaid.supplied p (List.mem_of_getElem? hi) id hp
    exact (honce a ha).unique ⟨p, hi, hp⟩ ⟨q, hj, hq⟩
  · rintro ⟨hplain, hsame⟩
    refine ⟨tiles, htiled, fun o => htiled.replacement hplain, hplain, fun a ha => ?_⟩
    have hnamed : a.id ∈ s.parts.filterMap MessagePart.attachmentId := by
      rw [← hlaid.used, List.mem_reverse]
      exact hused a ha
    obtain ⟨p, hp, hid⟩ := List.mem_filterMap.mp hnamed
    obtain ⟨i, hi⟩ := List.getElem?_of_mem hp
    refine ⟨i, ⟨p, hi, hid⟩, ?_⟩
    rintro j ⟨q, hj, hq⟩
    exact hsame j i q p a.id hj hi hq hid

theorem placeholders_matched_overrun :
    ∃ ranges cps, (read overrunArchive).1 = .ok (.attributed captionedText ranges) ∧
      codepoints captionedText = some cps ∧
      (Matched captionedText [] [overrunPart] ↔
        Separate (fun _ => photoId) captionedText (layout (boundaries captionedText cps) 0 ranges)) :=
  placeholders_matched (by decide +kernel)

/-- A continued run puts a U+FFFC in a text part, and no attachment is there. -/
theorem placeholder_overrun :
    decode (fun _ => photoId) captionedText [] overrunArchive = .ok [overrunPart] ∧
      ¬Matched captionedText [] [overrunPart] := by
  refine ⟨by decide +kernel, ?_⟩
  rintro ⟨_, _, _, hplain, _⟩
  exact absurd (hplain _ List.mem_cons_self 0 4 rfl rfl) (by decide)

end Decoded

end Zimbr.Relay.BodyParts
