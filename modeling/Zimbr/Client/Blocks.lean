import Zimbr.Client.Content
import Mathlib.Data.List.Nodup

set_option autoImplicit false

/-!
# What the blocks of a message hold

Caption, attachments, cards and reactions each have their place among the blocks,
once, where no card shares the part of another block that has reactions.
-/
namespace Zimbr.Content
open Library

section Properties

variable {τ : Type} (m : Message)

/-- The parts tile a text: text parts with their value, attachment parts with an anchor
or nothing, cards with nothing. -/
inductive Tiles : List MessagePart → Bytes → Prop where
  | done : Tiles [] []
  | value {part : MessagePart} {value rest : Bytes} {later : List MessagePart}
      (kind : part.kind = .text) (held : partText m part = some value) (tail : Tiles later rest) :
      Tiles (part :: later) (value ++ rest)
  | anchor {part : MessagePart} {rest : Bytes} {later : List MessagePart}
      (kind : part.kind = .attachment) (tail : Tiles later rest) :
      Tiles (part :: later) (Display.objectMarker ++ rest)
  | silent {part : MessagePart} {rest : Bytes} {later : List MessagePart}
      (kind : part.kind ≠ .text) (tail : Tiles later rest) : Tiles (part :: later) rest

/-- A piece of the caption with the part it is shown for; a piece with nothing to show
has no block. -/
def piece (partId : Option Bytes) (source : Bytes) : Option (Option Bytes × Bytes × Bytes) :=
  if Display.message source = [] then none else some (partId, source, Display.message source)

def spoken (part : MessagePart) : Option (Option Bytes × Bytes × Bytes) :=
  if part.kind = .text then (partText m part).bind (piece (some part.id)) else none

namespace Block

def caption? (block : Block τ) : Option (Option Bytes × Bytes × Bytes) :=
  match block.value with
  | .text shown => block.sourceText.map fun source => (block.partId, source, shown)
  | _ => none

def attachment? (block : Block τ) : Option Attachment :=
  match block.value with
  | .attachment item => some item
  | _ => none

def card? (block : Block τ) : Option LinkPreview :=
  match block.value with
  | .card item => some item
  | _ => none

def actors (block : Block τ) : List (Bytes × ReactionActor) :=
  match block.value with
  | .reactions chips => chips.flatMap fun chip => chip.actors.map fun actor => (chip.label, actor)
  | _ => []

end Block

def actorsAt (place : Option Bytes) (blocks : List (Block τ)) : List (Bytes × ReactionActor) :=
  (blocks.filter fun block => block.partId = place).flatMap Block.actors

def placeOf (blocks : List (Block τ)) (r : Reaction) : Option Bytes :=
  if r.partState = .resolved then r.partId.filter fun id => blocks.any fun block => block.partId = some id
  else none

/-- The blocks hold the whole message, each piece of it once. -/
structure Represented (blocks : List (Block τ)) : Prop where
  caption : (Tiles m (parts m) (m.text.getD []) ∧
      blocks.filterMap Block.caption? = (parts m).filterMap (spoken m)) ∨
    blocks.filterMap Block.caption? = (m.text.bind (piece none)).toList
  attachments : (blocks.filterMap Block.attachment?).Perm
    (m.attachments.filter fun item => !item.previewArtwork)
  cards : (blocks.filterMap Block.card?).Perm (previews m)
  reactions : ∀ place, (actorsAt place blocks).Perm
    (((m.reactions.getD []).filter fun r => placeOf blocks r = place).map fun r => (label r, r.actor))

/-- A part with a block of its own, after the parts before it. -/
def Shown (before : List MessagePart) (part : MessagePart) : Prop :=
  match part.kind with
  | .text => validText m = true ∧ ∃ value, partText m part = some value ∧ Display.message value ≠ []
  | .attachment => ∃ item ∈ m.attachments, wantsAttachment part item = true ∧
      item.previewArtwork = false ∧ wanted wantsAttachment before item = false
  | .linkPreview => ∃ item ∈ previews m, wantsPreview part item = true ∧
      wanted wantsPreview before item = false

/-- A placed card that no part refers to. -/
def Stray (item : LinkPreview) : Prop :=
  item ∈ previews m ∧ mapped m = true ∧ wanted wantsPreview (parts m) item = false

/-- No card without a part of its own shares the part id of a reaction with another
block. -/
def Unshared : Prop :=
  ∀ r ∈ m.reactions.getD [], r.partState = .resolved → ∀ id, r.partId = some id →
    ∀ item, Stray m item → item.partId = id →
      (∀ other, Stray m other → other.partId = id → other = item) ∧
      ∀ before part after, parts m = before ++ part :: after → part.id = id → ¬Shown m before part

end Properties

section Caption

variable {m : Message}

/-- A part that fits takes its value or an anchor off the text, or nothing. -/
theorem checkPart_fits {text : Bytes} {bytes bytes' : Nat} {valid : Bool} {part : MessagePart}
    (h : checkPart m text (bytes, valid) part = (bytes', true)) : valid = true ∧
      ((∃ value, part.kind = .text ∧ partText m part = some value ∧ bytes' = bytes + value.length ∧
          bytes' ≤ text.length ∧ (text.drop bytes).take value.length = value) ∨
        (part.kind = .attachment ∧ bytes' = bytes + Display.objectMarker.length ∧
          bytes ≤ text.length ∧ Display.objectMarker <+: text.drop bytes) ∨
        (part.kind ≠ .text ∧ bytes' = bytes)) := by
  unfold checkPart at h
  cases hkind : part.kind with
  | text =>
    simp only [hkind] at h
    cases hvalue : partText m part with
    | none =>
      rw [hvalue] at h
      cases (Prod.mk.inj h).2
    | some value =>
      rw [hvalue] at h
      obtain ⟨hbytes, hvalid⟩ := Prod.mk.inj h
      split_ifs at hvalid with hfits
      simp only [Bool.or_eq_true, decide_eq_true_eq, bne_iff_ne, not_or, not_not] at hfits
      exact ⟨hvalid, Or.inl ⟨value, rfl, rfl, hbytes.symm, by omega, hfits.2⟩⟩
  | attachment =>
    simp only [hkind] at h
    split_ifs at h with hanchor
    · obtain ⟨hbytes, hvalid⟩ := Prod.mk.inj h
      simp only [Bool.and_eq_true, decide_eq_true_eq, Display.startsWithMarker,
        List.isPrefixOf_iff_prefix] at hanchor
      exact ⟨hvalid, Or.inr (Or.inl ⟨rfl, hbytes.symm, hanchor.1, hanchor.2⟩)⟩
    · obtain ⟨hbytes, hvalid⟩ := Prod.mk.inj h
      exact ⟨hvalid, Or.inr (Or.inr ⟨fun habsurd => (by cases habsurd), hbytes.symm⟩)⟩
  | linkPreview =>
    simp only [hkind] at h
    obtain ⟨hbytes, hvalid⟩ := Prod.mk.inj h
    exact ⟨hvalid, Or.inr (Or.inr ⟨fun habsurd => (by cases habsurd), hbytes.symm⟩)⟩

theorem checkParts_valid {text : Bytes} {rest : List MessagePart} {bytes stop : Nat} {valid : Bool}
    (h : rest.foldl (checkPart m text) (bytes, valid) = (stop, true)) : valid = true := by
  induction rest generalizing bytes valid with
  | nil => exact (Prod.mk.inj h).2
  | cons part rest ih =>
    rw [List.foldl_cons] at h
    rcases hcheck : checkPart m text (bytes, valid) part with ⟨bytes', valid'⟩
    rw [hcheck] at h
    obtain rfl := ih h
    exact (checkPart_fits hcheck).1

/-- Parts that fit and reach the end tile what was left of the text. -/
theorem checkParts_tile {text : Bytes} {rest : List MessagePart} {bytes : Nat} {valid : Bool}
    (hbytes : bytes ≤ text.length)
    (h : rest.foldl (checkPart m text) (bytes, valid) = (text.length, true)) :
    Tiles m rest (text.drop bytes) := by
  induction rest generalizing bytes valid with
  | nil =>
    rw [(Prod.mk.inj h).1, List.drop_length]
    exact .done
  | cons part rest ih =>
    rw [List.foldl_cons] at h
    rcases hcheck : checkPart m text (bytes, valid) part with ⟨bytes', valid'⟩
    rw [hcheck] at h
    obtain rfl := checkParts_valid h
    obtain ⟨-, ⟨value, hkind, hvalue, rfl, hle, htake⟩ | ⟨hkind, rfl, hle, hanchor⟩ | ⟨hkind, rfl⟩⟩ :=
      checkPart_fits hcheck
    · have htiles := Tiles.value hkind hvalue (ih hle h)
      rw [← List.drop_drop, ← htake, List.length_take_of_le (by rw [List.length_drop]; omega)] at htiles
      rw [List.take_append_drop] at htiles
      exact htiles
    · have hlength := hanchor.length_le
      rw [List.length_drop] at hlength
      obtain ⟨later, hlater⟩ := hanchor
      have htiles := Tiles.anchor hkind (ih (by omega) h)
      rw [← List.drop_drop, ← hlater, List.drop_left, hlater] at htiles
      exact htiles
    · exact .silent hkind (ih hbytes h)

theorem validText_tiles (h : validText m = true) :
    mapped m = true ∧ Tiles m (parts m) (m.text.getD []) := by
  unfold validText at h
  dsimp only at h
  rcases hcheck : (parts m).foldl (checkPart m (m.text.getD [])) (0, mapped m) with ⟨bytes, valid⟩
  rw [hcheck] at h
  simp only [Bool.and_eq_true, decide_eq_true_eq] at h
  rw [h.1, h.2] at hcheck
  have htiles := checkParts_tile (Nat.zero_le _) hcheck
  rw [List.drop_zero] at htiles
  exact ⟨checkParts_valid hcheck, htiles⟩

end Caption

section Placed

variable {τ : Type} {m : Message} {before rest : List MessagePart} {part : MessagePart}

def seenAfter (m : Message) (before : List MessagePart) : Seen :=
  ⟨marks wantsAttachment m.attachments before, marks wantsPreview (previews m) before⟩

theorem wantsAttachment_other (h : part.kind ≠ .attachment) (item : Attachment) :
    wantsAttachment part item = false := by
  simp [wantsAttachment, h]

theorem wantsPreview_other (h : part.kind ≠ .linkPreview) (item : LinkPreview) :
    wantsPreview part item = false := by
  simp [wantsPreview, h]

theorem partBlocks_seen :
    (partBlocks (τ := τ) m (seenAfter m before) part).2 = seenAfter m (before ++ [part]) := by
  unfold partBlocks seenAfter
  cases hkind : part.kind with
  | text =>
    rw [marks_idle (wantsAttachment_other (by simp [hkind])),
      marks_idle (wantsPreview_other (by simp [hkind]))]
  | attachment =>
    dsimp only
    rw [mark_marks, marks_idle (wantsPreview_other (by simp [hkind]))]
  | linkPreview =>
    dsimp only
    rw [mark_marks, marks_idle (wantsAttachment_other (by simp [hkind]))]

theorem attachmentBlocks_attachments {partId : Option Bytes} {items : List Attachment} :
    (attachmentBlocks (τ := τ) partId items).filterMap Block.attachment? =
      items.filter fun item => !item.previewArtwork := by
  unfold attachmentBlocks
  rw [List.filterMap_map]
  exact List.filterMap_some

theorem cardBlocks_cards {partId : LinkPreview → Option Bytes} {items : List LinkPreview} :
    (cardBlocks (τ := τ) partId items).filterMap Block.card? = items := by
  unfold cardBlocks
  rw [List.filterMap_map]
  exact List.filterMap_some

theorem filterMap_silent {α β γ : Type} {f : β → Option γ} {g : α → β} {items : List α}
    (h : ∀ a ∈ items, f (g a) = none) : (items.map g).filterMap f = [] := by
  rw [List.filterMap_map, List.filterMap_eq_nil_iff]
  exact h

theorem textBlocks_silent {γ : Type} {f : Block τ → Option γ}
    (h : ∀ block, (∃ shown, block.value = .text shown) → f block = none) :
    (textBlocks m part).filterMap f = [] := by
  unfold textBlocks
  split_ifs
  · cases partText m part with
    | none => rfl
    | some value =>
      dsimp only
      split_ifs
      · rfl
      · rw [List.filterMap_cons, h _ ⟨Display.message value, rfl⟩]
        rfl
  · rfl

theorem textBlocks_captions : (textBlocks (τ := τ) m part).filterMap Block.caption? =
    if validText m then ((partText m part).bind (piece (some part.id))).toList else [] := by
  unfold textBlocks
  split_ifs
  · cases partText m part with
    | none => rfl
    | some value =>
      rw [Option.bind_some]
      unfold piece
      dsimp only
      split_ifs with hlength hnil hnil
      · rfl
      · exact absurd (List.length_eq_zero_iff.mp hlength) hnil
      · exact absurd (congrArg List.length hnil) hlength
      · rfl
  · rfl

theorem partBlocks_attachments :
    (partBlocks (τ := τ) m (seenAfter m before) part).1.filterMap Block.attachment? =
      (m.attachments.filter fun item => !wanted wantsAttachment before item &&
        wantsAttachment part item).filter fun item => !item.previewArtwork := by
  unfold partBlocks seenAfter
  cases hkind : part.kind with
  | text =>
    rw [filter_idle (wantsAttachment_other (by simp [hkind]))]
    exact textBlocks_silent fun block ⟨shown, h⟩ => by rw [Block.attachment?, h]
  | attachment =>
    dsimp only
    rw [attachmentBlocks_attachments, claim_marks]
  | linkPreview =>
    rw [filter_idle (wantsAttachment_other (by simp [hkind]))]
    exact filterMap_silent fun _ _ => rfl

theorem partBlocks_cards :
    (partBlocks (τ := τ) m (seenAfter m before) part).1.filterMap Block.card? =
      (previews m).filter fun item => !wanted wantsPreview before item && wantsPreview part item := by
  unfold partBlocks seenAfter
  cases hkind : part.kind with
  | text =>
    rw [filter_idle (wantsPreview_other (by simp [hkind]))]
    exact textBlocks_silent fun block ⟨shown, h⟩ => by rw [Block.card?, h]
  | attachment =>
    rw [filter_idle (wantsPreview_other (by simp [hkind]))]
    exact filterMap_silent fun _ _ => rfl
  | linkPreview =>
    dsimp only
    rw [cardBlocks_cards, claim_marks]

theorem partBlocks_captions :
    (partBlocks (τ := τ) m (seenAfter m before) part).1.filterMap Block.caption? =
      if validText m then (spoken m part).toList else [] := by
  unfold partBlocks
  cases hkind : part.kind with
  | text =>
    rw [spoken, if_pos hkind]
    exact textBlocks_captions
  | attachment =>
    have hnone : spoken m part = none := by simp [spoken, hkind]
    rw [hnone, Option.toList_none, ite_self]
    exact filterMap_silent fun _ _ => rfl
  | linkPreview =>
    have hnone : spoken m part = none := by simp [spoken, hkind]
    rw [hnone, Option.toList_none, ite_self]
    exact filterMap_silent fun _ _ => rfl

theorem partsBlocks_cons : partsBlocks (τ := τ) m (seenAfter m before) (part :: rest) =
    ((partBlocks m (seenAfter m before) part).1 ++
      (partsBlocks m (seenAfter m (before ++ [part])) rest).1,
      (partsBlocks (τ := τ) m (seenAfter m (before ++ [part])) rest).2) := by
  rw [← partBlocks_seen (τ := τ)]
  rfl

theorem partsBlocks_seen :
    (partsBlocks (τ := τ) m (seenAfter m before) rest).2 = seenAfter m (before ++ rest) := by
  induction rest generalizing before with
  | nil => rw [List.append_nil]; rfl
  | cons part rest ih =>
    rw [partsBlocks_cons]
    dsimp only
    rw [ih, List.append_assoc, List.singleton_append]

theorem partsBlocks_attachments :
    (partsBlocks (τ := τ) m (seenAfter m before) rest).1.filterMap Block.attachment? =
      (claimed wantsAttachment m.attachments before rest).filter fun item => !item.previewArtwork := by
  induction rest generalizing before with
  | nil => rfl
  | cons part rest ih =>
    rw [partsBlocks_cons, List.filterMap_append, partBlocks_attachments, ih, claimed, List.filter_append]

theorem partsBlocks_cards :
    (partsBlocks (τ := τ) m (seenAfter m before) rest).1.filterMap Block.card? =
      claimed wantsPreview (previews m) before rest := by
  induction rest generalizing before with
  | nil => rfl
  | cons part rest ih => rw [partsBlocks_cons, List.filterMap_append, partBlocks_cards, ih, claimed]

theorem partsBlocks_captions :
    (partsBlocks (τ := τ) m (seenAfter m before) rest).1.filterMap Block.caption? =
      if validText m then rest.filterMap (spoken m) else [] := by
  induction rest generalizing before with
  | nil => rw [List.filterMap_nil, ite_self]; rfl
  | cons part rest ih =>
    rw [partsBlocks_cons, List.filterMap_append, partBlocks_captions, ih]
    split_ifs
    · cases hpart : spoken m part <;> simp [hpart]
    · rfl

end Placed

end Zimbr.Content
