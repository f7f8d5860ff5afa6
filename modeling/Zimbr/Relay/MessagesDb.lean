import Mathlib.Algebra.Order.Group.Int
import Mathlib.Data.List.Sort
import Zimbr.Library.Scan
import Zimbr.Relay.Schema

set_option autoImplicit false

/-!
# The Messages database

What the adapter reads of one snapshot of the source. Values that other parts
of the relay decode from a body or a payload come from `Decoders`.
-/
namespace Zimbr.Relay
open Library

namespace MessagesDb

structure Features where
  attachmentFilename : Bool := false
  linkPayload : Bool := false
  reactionTarget : Bool := false
  reactionEmoji : Bool := false
  reactionRange : Bool := false
  deriving DecidableEq, Repr

/-- Continuation bytes belong to the character before them, however many. -/
def continues (b : UInt8) : Bool := 0x80 ≤ b && b ≤ 0xBF

/-- `substr(text, 1, count)`: characters up to the first NUL, with no check of
their encoding. -/
def substr : Nat → Bytes → Bytes
  | 0, _ => []
  | _ + 1, [] => []
  | count + 1, b :: rest =>
    if b = 0 then []
    else if 0xC0 ≤ b then
      b :: rest.takeWhile continues ++ substr count (rest.dropWhile continues)
    else b :: substr count rest

structure AttachmentColumns where
  guid : Bytes
  transferName : Option Bytes := none
  mimeType : Option Bytes := none
  totalBytes : Int := 0
  filename : Option Bytes := none
  uti : Option Bytes := none
  transferState : Int := 0
  deriving DecidableEq, Repr

/-- A row of `message` with the rows joined to it; a missing number is zero. -/
structure MessageColumns where
  guid : Bytes
  date : Int := 0
  handle : Option Bytes := none
  isFromMe : Int := 0
  service : Bytes := []
  text : Bytes := []
  attributedBody : Bytes := []
  isDelivered : Int := 0
  dateDelivered : Int := 0
  error : Int := 0
  isSent : Int := 0
  isFinished : Int := 0
  associatedMessageType : Int := 0
  itemType : Int := 0
  isSystemMessage : Int := 0
  balloonBundleId : Bytes := []
  associatedMessageGuid : Option Bytes := none
  associatedMessageEmoji : Option Bytes := none
  rangeLocation : Int := 0
  rangeLength : Int := 0
  payloadData : Bytes := []
  /-- `(SELECT min(chat_id) FROM chat_message_join WHERE message_id=m.ROWID)`. -/
  chatId : Int := 0
  attachments : List AttachmentColumns := []
  deriving DecidableEq, Repr

structure ChatColumns where
  guid : Bytes
  /-- The effective service, the latest ordinary message's on a neutral route. -/
  service : Bytes
  displayName : Option Bytes := none
  /-- The date of the latest message joined to the chat; zero without one. -/
  latest : Int := 0
  participants : List Bytes := []
  /-- The canonical row of a self-chat pair. -/
  selfThread : Option Int := none
  deriving DecidableEq, Repr

end MessagesDb

structure AttachmentSource where
  id : Bytes
  filename : Bytes
  uti : Bytes
  transferState : Int
  deriving DecidableEq, Repr

/-- Artwork of a link preview: embedded data or a transfer of the message. -/
structure Artwork where
  previewId : Bytes
  icon : Bool := false
  data : Option Bytes := none
  attachmentGuid : Option Bytes := none
  attachmentIndex : Option Nat := none
  deriving DecidableEq, Repr

structure LinkResult where
  previews : List LinkPreview := []
  artwork : List Artwork := []
  state : EnrichmentStatus
  deriving DecidableEq, Repr

structure ReactionObservation where
  targetGuid : Option Bytes := none
  sourcePart : Option Nat := none
  bubble : Bool := false
  rangeLocation : Option Int := none
  rangeLength : Option Int := none
  event : ReactionEvent
  deriving DecidableEq, Repr

inductive DecodeError where
  | malformed | oversized | unsupported
  deriving DecidableEq, Repr

structure Decoders where
  body : Bytes → Except DecodeError Bytes
  parts : Bytes → Bytes → List Attachment → Except DecodeError (List MessagePart)
  link : Bytes → LinkResult
  bindLocalArtwork : Bytes → List Attachment → List Artwork → List Artwork
  reaction : Int → Bytes → Bytes → ReactionActor → Option ReactionObservation
  hashId : Bytes → Bytes

structure SourceConversation where
  source : Bytes
  row : Int
  route : Bytes
  threadRow : Option Int := none
  value : Conversation
  deriving DecidableEq, Repr

structure SourceMessage where
  source : Bytes
  row : Int
  date : Int
  chatRow : Int
  value : Message
  pending : Bool
  attachmentSources : List AttachmentSource := []
  linkArtwork : List Artwork := []
  reaction : Option ReactionObservation := none
  deriving DecidableEq, Repr

/-- One snapshot of the source; ROWIDs are keys in ascending order. -/
structure MessagesDb where
  identity : Bytes
  features : MessagesDb.Features := {}
  messages : List (Int × MessagesDb.MessageColumns) := []
  chats : List (Int × MessagesDb.ChatColumns) := []
  /-- `chat_message_join`: a message and its chat, in the order of messages. -/
  joins : List (Int × Int) := []
  ascending : (messages.map Prod.fst).Pairwise (· < ·)
  /-- ROWIDs are signed 64-bit numbers. -/
  bounded : ∀ r ∈ messages, -(2 ^ 63) ≤ r.1 ∧ r.1 < 2 ^ 63
  chatsAscending : (chats.map Prod.fst).Pairwise (· < ·)

namespace MessagesDb

def empty : MessagesDb where
  identity := []
  ascending := .nil
  bounded _ hr := absurd hr List.not_mem_nil
  chatsAscending := .nil

/-- The days since the Unix epoch of a time in seconds, as year, month and day. -/
def civil (days : Int) : Int × Int × Int :=
  let z := days + 719468
  let era := z / 146097
  let doe := z % 146097
  let yoe := (doe - doe / 1460 + doe / 36524 - doe / 146096) / 365
  let doy := doe - (365 * yoe + yoe / 4 - yoe / 100)
  let mp := (5 * doy + 2) / 153
  let month := if mp < 10 then mp + 3 else mp - 9
  (yoe + era * 400 + (if month ≤ 2 then 1 else 0), month, doy - (153 * mp + 2) / 5 + 1)

/-- `%0<width>d` of a nonnegative number. -/
def padded (width : Nat) (n : Int) : Bytes :=
  let digits := decimal n.toNat
  List.replicate (width - digits.length) 48 ++ digits

/-- `zr_timestamp`: nanoseconds since 2001 as text; years 1900 to 9999. -/
def timestamp (ns : Int) : Except Error Bytes :=
  let unix := ns / 1000000000 + 978307200
  let second := unix % 86400
  let (year, month, day) := civil (unix / 86400)
  if year < 1900 || 9999 < year then .error .invalidTimestamp
  else .ok (padded 4 year ++ [45] ++ padded 2 month ++ [45] ++ padded 2 day ++ [84] ++
    padded 2 (second / 3600) ++ [58] ++ padded 2 (second / 60 % 60) ++ [58] ++
    padded 2 (second % 60) ++ [46] ++ padded 9 (ns % 1000000000) ++ [90])

example : timestamp 0 = .ok (text "2001-01-01T00:00:00.000000000Z") := by rfl

def maxBody : Nat := 64 * 1024
def maxDecode : Nat := 1024 * 1024
def rowBatchSize : Nat := 100

def normalizeService (s : Bytes) : Bytes :=
  if s = text "iMessage" then text "imessage"
  else if s = text "SMS" then text "sms"
  else if s = text "RCS" then text "rcs"
  else text "unsupported"

def candidate (code : Int) : Bool := code = 1000 || (2000 ≤ code && decide (code < 4000))

section Body

variable (d : Decoders) (c : MessageColumns)

/-- The attributed body, unless it is larger than the decoder takes. -/
def body : Bytes := if c.attributedBody.length ≤ maxDecode then c.attributedBody else []

def bodyText : Option Bytes × Decoding :=
  let plain := c.text.take (maxBody + 1)
  if plain.length > maxBody || c.attributedBody.length > maxDecode then (none, .oversized)
  else if plain ≠ [] then
    if utf8ValidateSlice plain && plain.all (· != 0) then (some plain, .plain)
    else (none, .malformed)
  else if body c ≠ [] then
    match d.body (body c) with
    | .ok text => (some text, .attributed)
    | .error .unsupported => (none, .unsupported)
    | .error .oversized => (none, .oversized)
    | .error .malformed => (none, .malformed)
  else (none, .empty)

/-- More than 1,024 attachments, or a longer identifier, are not listed. -/
def metadataOversized : Bool :=
  (c.attachments.take 1025).length > 1024 ||
    (c.attachments.take 1025).any fun a => (a.guid.take 1025).length > 1024

def listed : List AttachmentColumns := if metadataOversized c then [] else c.attachments.take 1025

def attachments : List Attachment := (listed c).map fun a => {
  id := d.hashId (a.guid.take 1025)
  name := substr 255 (a.transferName.getD (Zimbr.text "Attachment"))
  mimeType := substr 128 (a.mimeType.getD [])
  bytes := signed a.totalBytes }

def attachmentSources (features : Features) : List AttachmentSource :=
  if features.attachmentFilename then (listed c).map fun a => {
    id := d.hashId (a.guid.take 1025)
    filename := (a.filename.getD []).take 4097
    uti := substr 128 (a.uti.getD [])
    transferState := a.transferState }
  else []

def kind : MessageKind :=
  let reaction := candidate c.associatedMessageType
  let special := c.balloonBundleId ≠ [] || (c.associatedMessageType ≠ 0 && !reaction)
  let (text, decoding) := bodyText d c
  if reaction then .reaction
  else if c.itemType ≠ 0 || c.isSystemMessage ≠ 0 then .system
  else if special then .unsupported
  else if listed c ≠ [] || metadataOversized c then .attachment
  else if text.any (· ≠ []) then .text
  else if decoding = .empty then .empty
  else .unsupported

def sender : Bytes := substr 254 (c.handle.getD [])

def reactionOf (features : Features) : Option ReactionObservation :=
  if candidate c.associatedMessageType && features.reactionTarget then
    let outgoing := c.isFromMe ≠ 0
    let result := d.reaction c.associatedMessageType (substr 1100 (c.associatedMessageGuid.getD []))
      (if features.reactionEmoji then substr 257 (c.associatedMessageEmoji.getD []) else []) {
        service := normalizeService c.service
        isSelf := outgoing
        address := if outgoing then none else some (sender c) }
    if features.reactionRange then
      result.map fun r =>
        { r with rangeLocation := some c.rangeLocation, rangeLength := some c.rangeLength }
    else result
  else none

def provider : Bytes := Zimbr.text "com.apple.messages.URLBalloonProvider"

def linkOf (features : Features) : Option LinkResult :=
  if features.linkPayload then
    if c.balloonBundleId = provider then
      if c.payloadData.length > maxDecode then some { state := .oversized }
      else some (d.link c.payloadData)
    else some { state := .complete }
  else none

def partsOf (link : Option LinkResult) : Option (List MessagePart) :=
  match (bodyText d c).1 with
  | some text =>
    if !metadataOversized c && body c ≠ [] && link.all (·.previews = []) then
      (d.parts (body c) text (attachments d c)).toOption
    else none
  | none => none

def enrichmentOf (link : Option LinkResult) (parts : Option (List MessagePart)) :
    Option Enrichment :=
  if metadataOversized c || link.isSome || parts.isSome then
    some {
      state := if metadataOversized c then .oversized else (link.map LinkResult.state).getD .complete
      partMapping := if parts.isSome then .resolved else .unresolved }
  else none

def observedStatus : ObservedStatus :=
  if c.error ≠ 0 then .failed
  else if c.isFromMe = 0 then .received
  else if c.isDelivered ≠ 0 || c.dateDelivered > 0 then .delivered
  else if c.isSent ≠ 0 then .sent
  else .unknown

def pending : Bool :=
  c.guid = [] || c.chatId = 0 ||
    ((bodyText d c).2 = .empty && (c.isFinished = 0 || kind d c = .empty))

end Body

def decodeMessage (d : Decoders) (features : Features) (row : Int) (c : MessageColumns) :
    Except Error SourceMessage := do
  let link := linkOf d c features
  let parts := partsOf d c link
  let timestamp ← timestamp c.date
  return {
    source := c.guid
    row := row
    date := c.date
    chatRow := c.chatId
    reaction := reactionOf d c features
    attachmentSources := attachmentSources d c features
    linkArtwork := (link.map fun l => d.bindLocalArtwork c.guid (attachments d c) l.artwork).getD []
    pending := pending d c
    value := {
      sender := sender c
      direction := if c.isFromMe ≠ 0 then .outgoing else .incoming
      service := normalizeService c.service
      timestamp := timestamp
      kind := kind d c
      text := (bodyText d c).1
      decoding := (bodyText d c).2
      attachments := attachments d c
      linkPreviews := link.map LinkResult.previews
      parts := parts
      enrichment := enrichmentOf c link parts
      observedStatus := observedStatus c } }

def decodeChat (complete : Bool) (row : Int) (c : ChatColumns) : Except Error SourceConversation := do
  let service := normalizeService c.service
  let threadRow := if service = text "imessage" then c.selfThread else none
  let lastActivity ← if c.latest ≠ 0 then (timestamp c.latest).map some else .ok none
  return {
    source := c.guid
    row := row
    route := c.guid
    threadRow := threadRow
    value := {
      participants := ((c.participants.map (substr 254)).eraseDups).take 256
      title := substr 1024 (c.displayName.getD [])
      service := service
      lastActivity := lastActivity
      historyComplete := complete
      sendable := service = text "imessage"
      isSelf := threadRow.isSome } }

section Reads

variable (db : MessagesDb)

def ids : List Int := db.messages.map Prod.fst

def columns (row : Int) : Option MessageColumns :=
  (db.messages.find? fun r => decide (r.1 = row)).map Prod.snd

/-- `SELECT coalesce(max(ROWID),0) FROM message`. -/
def high : Int := db.ids.getLastD 0

def guid (row : Int) : Option Bytes := (db.columns row).map MessageColumns.guid

def message (d : Decoders) (row : Int) : Except Error (Option SourceMessage) :=
  match db.columns row with
  | none => .ok none
  | some c => (decodeMessage d db.features row c).map some

def chat (row : Int) (complete : Bool) : Except Error (Option SourceConversation) :=
  match db.chats.find? fun r => decide (r.1 = row) with
  | none => .ok none
  | some (_, c) => (decodeChat complete row c).map some

inductive ScanMode where
  | live | backfill | recent | rolling | chat
  deriving DecidableEq, Repr

/-- At most `limit` rows next to a position, in the order of the scan. -/
def rowsFor (limit : Nat) (mode : ScanMode) (position chatRow : Int) : List Int :=
  match mode with
  | .live | .rolling => Scan.after db.ids position limit
  | .backfill | .recent => Scan.upTo db.ids position limit
  | .chat => Scan.after
    (((db.joins.filter fun r => decide (r.2 = chatRow)).map Prod.fst).insertionSort (· ≤ ·))
    position limit

def chatRows (after : Int) : List Int := Scan.after (db.chats.map Prod.fst) after rowBatchSize

def findGuid (guid : Bytes) : Except Error (Option Int) :=
  match (db.messages.filter fun r => decide (r.2.guid = guid)).map Prod.fst with
  | [] => .ok none
  | [row] => .ok (some row)
  | _ => .error .ambiguousSourceIdentity

end Reads

end MessagesDb

end Zimbr.Relay
