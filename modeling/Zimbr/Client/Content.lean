import Zimbr.Client.Display
import Zimbr.Library.Claiming
import Zimbr.Protocol.Types

set_option autoImplicit false

/-!
# Immutable message blocks

Missing or unverified placement falls back to the original caption, then attachments
and cards, without displaying anchors. `inText` finds the links of a text.
-/
namespace Zimbr

namespace Display

def maxBytes : Nat := 4096
def maxLines : Nat := 64
def shortened : Bytes := text "\n… Preview shortened · select and Ctrl+C to copy full text"

/-- Attributed text has this character in the place of an object. -/
def objectMarker : Bytes := text "\ufffc"

def startsWithMarker (value : Bytes) : Bool := objectMarker.isPrefixOf value

def removeMarkers (value : Bytes) : Bytes :=
  match value with
  | [] => []
  | b :: rest =>
    if startsWithMarker (b :: rest) then removeMarkers (rest.drop 2) else b :: removeMarkers rest
termination_by value.length
decreasing_by
  · simp only [List.length_drop, List.length_cons]
    omega
  · simp

/-- A text of anchors and blanks alone is not shown. -/
def withoutObjectMarkers (value : Bytes) : Bytes :=
  if !value.tails.any startsWithMarker then value
  else
    let text := removeMarkers value
    if text.all fun b => b = 32 || b = 9 || b = 13 || b = 10 then [] else text

def message (value : Bytes) : Bytes :=
  let text := withoutObjectMarkers value
  let visible := prefixOf text maxBytes maxLines
  if visible.length = text.length then text else visible ++ shortened

def reactionState : ReactionResolution → Bytes
  | .pending => text "Target not available yet"
  | .resolved => text "Target message is not loaded yet"
  | .unavailable => text "Target unavailable"
  | .unsupported => text "Unsupported reaction"
  | .malformed => text "Reaction target could not be decoded"

def placeholder (m : Message) : Bytes :=
  match m.attachments with
  | item :: _ => text "Attachment · " ++ item.name ++ text "\n" ++ item.mimeType ++ text " · " ++
      item.bytes ++ text " bytes\nDownloads are not available yet."
  | [] => match m.kind with
    | .attachment => text "Attachment · preview unavailable"
    | .reaction => text "Reaction · unsupported content"
    | .system => text "Conversation update · unsupported content"
    | .empty => text "Empty message"
    | .text | .unsupported => text "Unsupported message · content could not be decoded"

def content (m : Message) : Bytes :=
  let shown := withoutObjectMarkers (m.text.getD [])
  match m.reactionEvent with
  | some event => text "Reaction " ++ (event.emoji.orElse fun _ => event.key).getD [] ++ text " · " ++
      reactionState event.resolution ++ (if shown.length > 0 then text "\n" else []) ++ shown
  | none =>
    if shown.length > 0 then
      match m.kind with
      | .text | .attachment => shown
      | .reaction => text "Reaction · " ++ shown
      | .system => text "Conversation update · " ++ shown
      | .unsupported => text "Unsupported content · " ++ shown
      | .empty => placeholder m
    else placeholder m

def record (m : Message) : Bytes := message (content m)

end Display

namespace Content
open Library

structure Chip where
  label : Bytes
  actors : List ReactionActor
  unresolved : Bool
  deriving DecidableEq, Repr

inductive Value where
  | text (value : Bytes)
  | attachment (item : Attachment)
  | card (item : LinkPreview)
  | reactions (chips : List Chip)
  | more (part : MetadataSection)
  deriving DecidableEq, Repr

structure Block (τ : Type) where
  partId : Option Bytes := none
  sourceText : Option Bytes := none
  links : List τ := []
  value : Value
  deriving DecidableEq, Repr

section Prepare

variable {τ : Type} (m : Message)

def partText (part : MessagePart) : Option Bytes :=
  match part.text with
  | some value => some value
  | none =>
    m.text.bind fun text => part.textStart.bind fun start => part.textLength.bind fun len =>
      if start > text.length || len > text.length - start then none
      else
        let value := (text.drop start).take len
        if utf8ValidateSlice value then some value else none

def parts : List MessagePart := m.parts.getD []
def previews : List LinkPreview := m.linkPreviews.getD []

def mapped : Bool := m.enrichment.any fun e => e.partMapping = .resolved && e.parts.complete

/-- One part against the caption: how far the parts reach, and whether they fit. -/
def checkPart (text : Bytes) (state : Nat × Bool) (part : MessagePart) : Nat × Bool :=
  let (textBytes, valid) := state
  match part.kind with
  | .text => match partText m part with
    | none => (textBytes, false)
    | some value =>
      (textBytes + value.length,
        if textBytes > text.length || value.length > text.length - textBytes ||
          (text.drop textBytes).take value.length != value then false else valid)
  | .attachment =>
    -- Verified attachment parts consume an anchor in the source text.
    if textBytes ≤ text.length && Display.startsWithMarker (text.drop textBytes) then
      (textBytes + Display.objectMarker.length, valid)
    else (textBytes, valid)
  | .linkPreview => (textBytes, valid)

/-- Incomplete or malformed ranges must not swallow the original caption. -/
def validText : Bool :=
  let text := m.text.getD []
  let (textBytes, valid) := (parts m).foldl (checkPart m text) (0, mapped m)
  valid && textBytes = text.length

/-- The whole caption, where the parts do not hold it. -/
def captionBlocks : List (Block τ) :=
  match m.text with
  | some value =>
    if !validText m && value.length > 0 && (Display.message value).length > 0 then
      [{ sourceText := some value, value := .text (Display.message value) }]
    else []
  | none => []

def textBlocks (part : MessagePart) : List (Block τ) :=
  if validText m then
    match partText m part with
    | none => []
    | some value =>
      if (Display.message value).length = 0 then []
      else [{
        partId := some part.id, sourceText := some value, value := .text (Display.message value) }]
  else []

def attachmentBlocks (partId : Option Bytes) (items : List Attachment) : List (Block τ) :=
  (items.filter fun item => !item.previewArtwork).map fun item => {
    partId := partId, value := .attachment item }

def cardBlocks (partId : LinkPreview → Option Bytes) (items : List LinkPreview) : List (Block τ) :=
  items.map fun item => { partId := partId item, value := .card item }

def wantsAttachment (part : MessagePart) (item : Attachment) : Bool :=
  part.kind = .attachment && item.id = part.attachmentId.getD []

def wantsPreview (part : MessagePart) (item : LinkPreview) : Bool :=
  part.kind = .linkPreview && item.id = part.previewId.getD []

/-- The attachments and previews that have a block. -/
structure Seen where
  attachments : List Bool
  previews : List Bool

def partBlocks (seen : Seen) (part : MessagePart) : List (Block τ) × Seen :=
  match part.kind with
  | .text => (textBlocks m part, seen)
  | .attachment =>
    (attachmentBlocks (some part.id) (claim wantsAttachment m.attachments part seen.attachments),
      { seen with attachments := mark wantsAttachment m.attachments part seen.attachments })
  | .linkPreview =>
    (cardBlocks (fun _ => some part.id) (claim wantsPreview (previews m) part seen.previews),
      { seen with previews := mark wantsPreview (previews m) part seen.previews })

def partsBlocks (seen : Seen) : List MessagePart → List (Block τ) × Seen
  | [] => ([], seen)
  | part :: rest =>
    let (blocks, seen) := partBlocks m seen part
    let (later, seen) := partsBlocks seen rest
    (blocks ++ later, seen)

def contentBlocks : List (Block τ) :=
  let unseen : Seen := ⟨Library.unseen m.attachments, Library.unseen (previews m)⟩
  let (placed, seen) := if mapped m then partsBlocks m unseen (parts m) else ([], unseen)
  let blocks := captionBlocks m ++ placed ++
    attachmentBlocks none (unclaimed m.attachments seen.attachments) ++
    cardBlocks (fun item => if mapped m then some item.partId else none)
      (unclaimed (previews m) seen.previews)
  if blocks.length = 0 then [{ value := .text (Display.record m) }] else blocks

end Prepare

section Reactions

variable {τ : Type}

def reactionLabel (key : Bytes) : Bytes :=
  if key = text "heart" then text "❤️"
  else if key = text "like" then text "👍"
  else if key = text "dislike" then text "👎"
  else if key = text "laugh" then text "😂"
  else if key = text "emphasize" then text "‼️"
  else if key = text "question" then text "❓"
  else key

def label (r : Reaction) : Bytes := r.emoji.getD (reactionLabel r.key)

structure PendingChip where
  label : Bytes
  actors : List ReactionActor

/-- The actors of a group, by label, in the order of their first reaction. -/
def addActor (label : Bytes) (actor : ReactionActor) : List PendingChip → List PendingChip
  | [] => [⟨label, [actor]⟩]
  | chip :: rest =>
    if chip.label = label then { chip with actors := chip.actors ++ [actor] } :: rest
    else chip :: addActor label actor rest

def addPart (ids : List Bytes) (id : Bytes) : List Bytes := if id ∈ ids then ids else ids ++ [id]

/-- The group of a part; 0 holds the reactions to the message. -/
def byPart (ids : List Bytes) (id : Bytes) : Option Nat :=
  (ids.findIdx? fun other => other = id).map fun index => index + 1

def groupOf (ids : List Bytes) (r : Reaction) : Nat :=
  if r.partState = .resolved then (r.partId.bind (byPart ids)).getD 0 else 0

structure ReactionGroups where
  groups : List (List Chip)
  ids : List Bytes

def partIds (blocks : List (Block τ)) : List Bytes := blocks.filterMap fun block => block.partId

def ReactionGroups.init (reactions : List Reaction) (blocks : List (Block τ)) : ReactionGroups :=
  let ids := (partIds blocks).foldl addPart []
  let pending := reactions.foldl
    (fun groups r => groups.modify (groupOf ids r) (addActor (label r) r.actor))
    (List.replicate (ids.length + 1) [])
  { groups := pending.mapIdx fun index group => group.map fun chip => {
      label := chip.label, actors := chip.actors, unresolved := index = 0 }
    ids := ids }

def chipsBlock (partId : Option Bytes) (chips : List Chip) : List (Block τ) :=
  if chips.length > 0 then [{ partId := partId, value := .reactions chips }] else []

/-- Place chips below the referenced block. A lookup may fail. -/
def placeChips (grouped : ReactionGroups) : List (Block τ) → Option (List (Block τ))
  | [] => some []
  | block :: rest =>
    match block.partId with
    | none => (placeChips grouped rest).map (block :: ·)
    | some id =>
      (byPart grouped.ids id).bind fun index => grouped.groups[index]?.bind fun chips =>
        (placeChips grouped rest).map fun later => block :: chipsBlock (some id) chips ++ later

end Reactions

def containsIgnoreCase (text part : Bytes) : Bool :=
  let lower := fun b : UInt8 => if 65 ≤ b && b ≤ 90 then b + 32 else b
  text.tails.any fun rest => part.isPrefixOf (rest.map lower)

def plain (m : Message) : Bool :=
  m.attachments.length = 0 && (previews m).length = 0 && (m.reactions.getD []).length = 0 &&
    m.enrichment.all (fun e => e.attachments.complete && e.previews.complete &&
      e.reactions.complete && e.parts.complete) &&
    !containsIgnoreCase (m.text.getD []) (text "http://") &&
    !containsIgnoreCase (m.text.getD []) (text "https://")

def moreBlocks {τ : Type} (m : Message) : List (Block τ) :=
  match m.enrichment with
  | none => []
  | some e => ([.attachments, .previews, .reactions, .parts].filter fun part =>
      !(e.aggregate part).complete).map fun part => { value := .more part }

def linked {τ : Type} (inText : Bytes → List τ) (block : Block τ) : Block τ :=
  match block.value with
  | .text value => { block with links := inText (block.sourceText.getD value) }
  | _ => block

def prepare {τ : Type} (inText : Bytes → List τ) (m : Message) : Option (List (Block τ)) :=
  if m.reactionEvent.isSome || plain m then some []
  else
    let blocks := contentBlocks m
    let grouped := ReactionGroups.init (m.reactions.getD []) blocks
    (placeChips grouped blocks).bind fun placed => grouped.groups[0]?.map fun chips =>
      (placed ++ chipsBlock none chips ++ moreBlocks m).map (linked inText)

end Content

end Zimbr
