import Zimbr.Client.Sse
import Zimbr.Client.Store
import Zimbr.Library.Zoom
import Zimbr.Protocol.JsonInput

set_option autoImplicit false

/-!
# Synchronization and events

A synchronization starts from a cursor of the relay; the events after it are
applied one by one, each together with its cursor.
-/
namespace Zimbr.Client
open Library

section Display

/-- Attachment anchors, U+FFFC, are structural text. -/
def removeMarkers : Bytes → Bytes
  | 0xEF :: 0xBF :: 0xBC :: rest => removeMarkers rest
  | b :: rest => b :: removeMarkers rest
  | [] => []

def blank (b : UInt8) : Bool := b = 32 || b = 9 || b = 13 || b = 10

def withoutObjectMarkers (value : Bytes) : Bytes :=
  let shown := removeMarkers value
  if shown.length != value.length && shown.all blank then [] else shown

def isPhoto (item : Attachment) : Bool :=
  !item.previewArtwork && (item.image.isSome || (text "image/").isPrefixOf item.mimeType)

def summary (m : Message) : Bytes :=
  let shown := withoutObjectMarkers (m.text.getD [])
  let photos := (m.attachments.filter isPhoto).length
  if shown ≠ [] then shown
  else if photos = 1 then text "Photo"
  else if 1 < photos then decimal photos ++ text " photos"
  else match m.kind with
  | .attachment => text "Attachment"
  | .reaction => text "Reaction"
  | .system => text "Conversation update"
  | .empty => text "Empty message"
  | .text | .unsupported => text "Unsupported message"

def sequenceLength (b : UInt8) : Option Nat :=
  if b < 0x80 then some 1
  else if 0xC0 ≤ b && b ≤ 0xDF then some 2
  else if 0xE0 ≤ b && b ≤ 0xEF then some 3
  else if 0xF0 ≤ b && b ≤ 0xF7 then some 4
  else none

/-- The bytes of whole characters until the last line ends; `fuel` bounds them. -/
def prefixLength (lines : Nat) : Nat → Nat → Bytes → Nat
  | 0, _, _ => 0
  | fuel + 1, line, value =>
    match value.head?.bind sequenceLength with
    | none => 0
    | some n =>
      if value.length < n then 0
      else match codepoints (value.take n) with
      | some [cp] =>
        if cp = 0 then 0
        else if cp = 10 || cp = 13 || cp = 0x2028 || cp = 0x2029 then
          if lines ≤ line then 0 else n + prefixLength lines fuel (line + 1) (value.drop n)
        else n + prefixLength lines fuel line (value.drop n)
      | _ => 0

def prefixOf (value : Bytes) (limit lines : Nat) : Bytes :=
  value.take (prefixLength lines limit 1 (value.take limit))

def resolvedReaction (m : Message) : Bool :=
  m.reactionEvent.any fun event => event.resolution = .resolved && event.targetMessageId.isSome

end Display

/-- The fields of an event, its record as it was written. -/
structure Event where
  cursor : Bytes
  sequence : Bytes
  type : Bytes
  origin : Bytes
  record : Bytes
  deriving DecidableEq, Repr

structure Decoder where
  event : Bytes → Except Error Event
  conversation : Bytes → Except Error Conversation
  message : Bytes → Except Error Message
  request : Bytes → Except Error SendRequest
  identity : Bytes → Except Error Identity

def Decoder.incoming (dec : Decoder) (kind : Kind) (raw : Bytes) : Except Error Incoming :=
  match kind with
  | .conversation => (dec.conversation raw).map fun v => .conversation { value := v, raw := raw }
  | .message => (dec.message raw).map fun v => .message { value := v, raw := raw }
  | .request => (dec.request raw).map fun v => .request { value := v, raw := raw }
  | .identity => (dec.identity raw).map fun v => .identity { value := v, raw := raw }

def Error.ofCheck : JsonInput.CheckError → Error
  | .invalidJson => .invalidJson
  | .jsonTooComplex => .jsonTooComplex
  | .jsonTooDeep => .jsonTooDeep
  | .jsonTooLarge => .jsonTooLarge

def Error.ofCursor : CursorError → Error
  | .resyncRequired => .resyncRequired
  | .invalidRequest => .invalidRequest

def Incoming.raw : Incoming → Bytes
  | .conversation v => v.raw
  | .message v => v.raw
  | .request v => v.raw
  | .identity v => v.raw

def checkRecordText (raw : Bytes) : Except Error Unit :=
  (JsonInput.check raw Validation.maxRecordBytes 32768).mapError Error.ofCheck

def upsert (dec : Decoder) (autocommit : Bool) (kind : Kind) (raw : Bytes) : Tx Incoming := do
  Sql.lift (checkRecordText raw)
  let record ← Sql.lift (dec.incoming kind raw)
  let _ ← writeRecord autocommit record
  return record

/-- Persist a decoded record without parsing it again. -/
def upsertDecoded (autocommit : Bool) (record : Incoming) : Tx Bool := do
  Sql.lift (checkRecordText record.raw)
  writeRecord autocommit record

section Previews

/-- A later position, or a newer revision of the same message, replaces the preview. -/
def replacesPreview (new old : ConversationPreview) : Bool :=
  decide (old.timestamp < new.timestamp ∨
    (old.timestamp = new.timestamp ∧ old.messageId < new.messageId)) ||
  (new.messageId = old.messageId && old.revision < new.revision)

def mergePreview (new : ConversationPreview) : Option ConversationPreview → Option ConversationPreview
  | none => some new
  | some old => if replacesPreview new old then some new else some old

def writePreview (value : ConversationPreview) : Tx Unit := do
  Sql.require (value.revision ≤ maxInt && value.conversationId.length != 0 &&
    value.messageId.length != 0 && value.text.length ≤ 1024) .invalidRecord
  Sql.execute fun s => { s with
    previews := s.previews.upsert value.conversationId (some value) (mergePreview value) }

/-- `INSERT OR IGNORE`: the chat is covered, possibly by no message. -/
def coverPreview (chat : Bytes) : Tx Unit := Sql.execute fun s => { s with
  previews := s.previews.upsert chat none id }

def previewOf (m : Message) : ConversationPreview where
  conversationId := m.conversationId
  messageId := m.id
  revision := m.revision
  timestamp := m.timestamp
  kind := m.kind.tag
  text := prefixOf (summary m) 1024 1

end Previews

def recentHistoryLimit : Nat := 100

/-- Newest first by `(sort_key, id)`. -/
def newer (a b : (Kind × Bytes) × RecordRow) : Bool :=
  decide (b.2.sortKey < a.2.sortKey ∨ (b.2.sortKey = a.2.sortKey ∧ b.1.2 ≤ a.1.2))

/-- Reconciliation may discover a recent message between history requests. It
must not extend the cache backwards into unrequested older history. -/
def cacheBackgroundMessage (m : Message) (s : Store) : Bool :=
  s.records.contains (.message, m.id) ||
    ((((s.records.select fun key r => key.1 = .message && s.isMember m.conversationId r.chat).mergeSort
      newer).take recentHistoryLimit).any fun r =>
        decide (r.2.sortKey < m.timestamp ∨ (r.2.sortKey = m.timestamp ∧ r.1.2 ≤ m.id)))

def countable (m : Message) : Bool :=
  m.direction = .incoming && m.kind != .reaction && m.reactionEvent.isNone

/-- `INSERT OR IGNORE INTO live_seen`, and whether it inserted. -/
def insertSeen (id : Bytes) (s : Store) : Option (Bool × Store) :=
  match s.liveSeen.insert id () with
  | some seen => some (true, { s with liveSeen := seen })
  | none => some (false, s)

/-- Raise the unread count of a live message outside the viewed thread, once. -/
def countUnread (m : Message) (origin viewed : Bytes) : Tx Bool := do
  let first ← Sql.statement (insertSeen m.id)
  if first && origin = text "live" then do
    let thread ← Sql.query (·.threadKey m.conversationId)
    let shown ← Sql.query (·.threadKey viewed)
    if thread = shown then return false
    else do
      Sql.execute fun s => { s with unread := s.unread.upsert m.conversationId 1 (· + 1) }
      return true
  else return false

def pass (p : Passed) (s : Store) : Store := { s with passed := s.passed ++ [p] }

def cacheMessage (record : Decoded Message) (origin : Bytes) : Tx Bool :=
  if origin = text "live" then do
    let _ ← writeRecord false (.message record)
    return true
  else do
    let cached ← Sql.query (cacheBackgroundMessage record.value)
    if cached then do
      let _ ← writeRecord false (.message record)
      return true
    else return false

/-- Every message can become its chat's preview, cached or not. -/
def previewMessage (m : Message) : Tx Unit :=
  if resolvedReaction m then return () else writePreview (previewOf m)

def countMessage (m : Message) (origin viewed : Bytes) : Tx Bool :=
  if countable m then countUnread m origin viewed else return false

def messageEvent (dec : Decoder) (seq : Nat) (e : Event) (viewed : Bytes) : Tx (Option Message) := do
  Sql.lift (checkRecordText e.record)
  let m ← Sql.lift (dec.message e.record)
  Sql.lift (Validation.message m)
  let cached ← cacheMessage { value := m, raw := e.record } e.origin
  previewMessage m
  let raised ← countMessage m e.origin viewed
  Sql.note fun s => pass {
    sequence := seq, record := .message { value := m, raw := e.record }, origin := e.origin
    cached := cached, viewed := s.threadKey m.conversationId = s.threadKey viewed
    raised := raised } s
  return if raised then some m else none

def applyRecord (dec : Decoder) (seq : Nat) (kind : Kind) (e : Event) (viewed : Bytes) :
    Tx (Option Message) :=
  match kind with
  | .message => messageEvent dec seq e viewed
  | kind => do
    let record ← upsert dec false kind e.record
    Sql.note (pass { sequence := seq, record := record, origin := e.origin })
    return none

/-- The record and its cursor are written together. -/
def applyEvent (dec : Decoder) (seq : Nat) (kind : Kind) (e : Event) (viewed : Bytes) :
    Tx (Option Message) := do
  let notification ← applyRecord dec seq kind e viewed
  Sql.execute fun s => { s with cursor := e.cursor }
  return notification

def eventKind (type extensions : Bytes) : Option Kind :=
  if type = text "conversation.upsert" then some .conversation
  else if type = text "message.upsert" then some .message
  else if type = text "send_request.updated" then some .request
  else if type = text "identity.upsert" && extensions = text "identity-v1" then some .identity
  else none

/-- The sequence of an event; its three spellings agree with its frame. -/
def checkEvent (e : Event) (frame : Frame) (epoch : Bytes) : Except Error Nat :=
  match parseCursor e.cursor epoch with
  | .error err => .error (.ofCursor err)
  | .ok seq =>
    if e.cursor ≠ frame.id || e.type ≠ frame.event then .error .invalidEvent
    else match parseInt e.sequence with
    | none => .error .overflow
    | some sequence => if sequence = seq then .ok seq else .error .invalidEvent

def decodeEvent (dec : Decoder) (raw : Bytes) : Except Error Event :=
  match JsonInput.check raw (1024 * 1024) 65536 with
  | .error err => .error (.ofCheck err)
  | .ok () => dec.event raw

/-- The returned message is only eligible for delivery after the caller's batch
transaction commits. -/
def eventNotification (dec : Decoder) (autocommit : Bool) (frame : Frame) (viewed : Bytes) :
    Tx (Option Message) := do
  let e ← Sql.lift (decodeEvent dec frame.data)
  let epoch ← Sql.query (·.epoch)
  let seq ← Sql.lift (checkEvent e frame epoch)
  let cursor ← Sql.query (·.cursor)
  let last ← Sql.lift ((parseCursor cursor epoch).mapError Error.ofCursor)
  if seq ≤ last then return none
  else do
    let extensions ← Sql.query (·.acceptedExtensions)
    let kind ← Sql.orThrow .unknownEvent (eventKind e.type extensions)
    if autocommit then Sql.transaction (applyEvent dec seq kind e viewed)
    else applyEvent dec seq kind e viewed

/-- A new epoch has unrelated identifiers and revisions; only drafts and outbox
identities survive. -/
def forgetEpoch (s : Store) : Store := { s with
  enrichmentPages := .empty
  enrichmentCache := .empty
  identities := .empty
  records := .empty
  unread := .empty
  liveSeen := .empty
  passed := [] }

/-- A pending request of another epoch is never sent again automatically. -/
def abandonSends (epoch : Bytes) (s : Store) : Store := { s with
  outbox := s.outbox.modifyWhere
    (fun _ r => r.epoch ≠ epoch && r.state ≠ .delivered && r.state ≠ .failed)
    fun r => { r with
      state := .unknown
      detail := "Relay changed. This request will not be sent again automatically." } }

def enterEpoch (epoch current : Bytes) : Tx Unit :=
  if current = epoch then return () else Sql.execute forgetEpoch

def writeSettings (epoch cursor : Bytes) (seq : Nat) : Tx Unit := do
  Sql.execute fun s => { s with epoch := epoch }
  Sql.execute fun s => { s with cursor := cursor }
  Sql.execute fun s => { s with bootstrapped := false }
  Sql.execute fun s => { s with identityBootstrapped := false }
  Sql.execute fun s => { s with acceptedExtensions := [] }
  Sql.note fun s => { s with synced := seq }

/-- Replay expiry changes coverage, not record identity: history, names and
unread deduplication are kept within an epoch. -/
def beginSync (epoch cursor : Bytes) : Tx Unit := do
  Sql.require (validId epoch) .invalidEpoch
  let seq ← Sql.lift ((parseCursor cursor epoch).mapError Error.ofCursor)
  Sql.transaction do
    let current ← Sql.query (·.epoch)
    enterEpoch epoch current
    Sql.execute fun s => { s with pages := .empty, previews := .empty }
    Sql.execute (abandonSends epoch)
    writeSettings epoch cursor seq

end Zimbr.Client
