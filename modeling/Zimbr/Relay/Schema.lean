import Zimbr.Library.Sql
import Zimbr.Library.Table
import Zimbr.Protocol.Types

set_option autoImplicit false

/-!
# The relay journal's tables

A column that stores a record's JSON text holds the record. `log` and `held`
are ghosts: no statement reads them.
-/
namespace Zimbr.Relay
open Library

inductive Error where
  | databaseFailure | randomUnavailable | metadataItemTooLarge
  | invalidRequest | textTooLarge | attachmentTooLarge | tooManyAttachments
  | unsupportedTarget | unsupportedAttachments | adapterUnavailable
  | requestConflict | resyncRequired | cursorExpired | notFound
  | uploadNotFound | uploadExpired | uploadNotReady | uploadInUse | uploadBusy
  | uploadLeaseExpired | uploadQuota
  | tooManyStreams
  | assetQueueFull | assetRetired
  | invalidTimestamp | ambiguousSourceIdentity | relayCacheResetRequired
  /-- A failed assertion, an unwrapped null or a reached `unreachable`. -/
  | panic
  deriving DecidableEq, Repr

instance : StorageError Error where
  unavailable := .databaseFailure

namespace Error

def ofFiles : Attachments.ValidateError → Error
  | .invalidRequest => .invalidRequest
  | .attachmentTooLarge => .attachmentTooLarge
  | .tooManyAttachments => .tooManyAttachments

def ofInput : ValidateError → Error
  | .attachments e => ofFiles e
  | .invalidRequest => .invalidRequest
  | .textTooLarge => .textTooLarge
  | .unsupportedTarget => .unsupportedTarget

def ofCursor : CursorError → Error
  | .invalidRequest => .invalidRequest
  | .resyncRequired => .resyncRequired

end Error

inductive Origin where
  | live | reconciliation | historicalImport
  deriving DecidableEq, Repr

inductive Mode where
  | direct | chat
  deriving DecidableEq, Repr

structure Route where
  mode : Mode
  destination : Bytes
  deriving DecidableEq, Repr

/-- The record of an event; its constructor is the event's type. -/
inductive Record where
  | conversation (v : Conversation)
  | message (v : Message)
  | identity (v : Identity)
  | request (v : SendRequest)
  deriving DecidableEq, Repr

namespace Record

inductive Kind where
  | conversation | message | identity | request
  deriving DecidableEq, Repr

def kind : Record → Kind
  | .conversation _ => .conversation
  | .message _ => .message
  | .identity _ => .identity
  | .request _ => .request

def id : Record → Bytes
  | .conversation v => v.id
  | .message v => v.id
  | .identity v => v.id
  | .request v => v.requestId

def revision : Record → Nat
  | .conversation v => v.revision
  | .message v => v.revision
  | .identity v => v.revision
  | .request v => v.revision

def eventType : Record → String
  | .conversation _ => "conversation.upsert"
  | .message _ => "message.upsert"
  | .identity _ => "identity.upsert"
  | .request _ => "send_request.updated"

def key (r : Record) : Kind × Bytes := (r.kind, r.id)

end Record

structure ConversationRow where
  source : Bytes
  sourceRow : Int
  route : Bytes
  service : Bytes
  content : Conversation
  record : Conversation
  deriving DecidableEq, Repr

structure MessageRow where
  source : Bytes
  sourceRow : Int
  conversationId : Bytes
  dateNs : Int
  direction : Direction
  text : Bytes
  status : ObservedStatus
  content : Message
  record : Message
  deriving DecidableEq, Repr

structure IdentityRow where
  service : Bytes
  address : Bytes
  content : Identity
  record : Identity
  deriving DecidableEq, Repr

structure EventRow where
  record : Record
  origin : Origin
  createdMs : Int
  deriving DecidableEq, Repr

structure SendRequestRow where
  epoch : Bytes
  payload : SendInput
  record : SendRequest
  state : SendStatus
  mode : Mode
  route : Bytes
  acceptedMs : Int
  dispatchMs : Option Int := none
  sourceFloor : Option Int := none
  messageId : Option Bytes := none
  deriving DecidableEq, Repr

structure SendPartRow where
  state : PartState
  dispatchMs : Option Int := none
  sourceFloor : Option Int := none
  mode : Option Mode := none
  route : Option Bytes := none
  messageId : Option Bytes := none
  deriving DecidableEq, Repr

inductive Phase where
  | reserved | receiving | ready | pinned | deleting
  deriving DecidableEq, Repr

structure UploadRow where
  epoch : Bytes
  owner : Bytes
  record : Upload
  bytes : Nat
  state : Phase
  lease : Bytes := []
  createdMs : Int
  requestId : Option Bytes := none
  deriving DecidableEq, Repr

structure Sections where
  attachments : Option (Bytes × List Attachment) := none
  previews : Option (Bytes × List LinkPreview) := none
  reactions : Option (Bytes × List Reaction) := none
  parts : Option (Bytes × List MessagePart) := none
  deriving DecidableEq, Repr

structure CachedSource where
  source : Bytes
  fingerprint : Bytes
  deriving DecidableEq, Repr

structure Event where
  sequence : Nat
  record : Record
  origin : Origin
  deriving DecidableEq, Repr

structure Journal where
  epoch : Bytes
  sequence : Nat := 0
  prunedThrough : Nat := 0
  conversations : Table Bytes ConversationRow := .empty
  participants : Table (Bytes × Bytes) Unit := .empty
  messages : Table Bytes MessageRow := .empty
  identities : Table Bytes IdentityRow := .empty
  enrichment : Table Bytes Sections := .empty
  sourceMessageCache : Table Nat CachedSource := .empty
  events : Table Nat EventRow := .empty
  sendRequests : Table Bytes SendRequestRow := .empty
  sendParts : Table (Bytes × Nat) SendPartRow := .empty
  sendOwners : Table Bytes Bytes := .empty
  sendObservations : Table Bytes Int := .empty
  sendPartObservations : Table (Bytes × Nat) Int := .empty
  uploads : Table Bytes UploadRow := .empty
  ingestionProgress : Table String Bytes := .empty
  /-- Ghost: every event of the current epoch, pruned ones included. -/
  log : List Event := []
  /-- Ghost: the request records as the last reset left them. -/
  held : List (Bytes × SendRequest) := []

abbrev Tx (α : Type) : Type := Sql Error Journal Bytes α

/-- The sizes and digests of JSON texts that the journal's decisions read. -/
structure Encoding where
  attachment : Attachment → Nat
  preview : LinkPreview → Nat
  reaction : Reaction → Nat
  part : MessagePart → Nat
  /-- The envelope of a message's metadata with empty lists. -/
  envelope : Message → Enrichment → Nat
  record : Record → Nat
  attachmentsDigest : List Attachment → Bytes
  previewsDigest : List LinkPreview → Bytes
  reactionsDigest : List Reaction → Bytes
  partsDigest : List MessagePart → Bytes
  /-- The digest of a source row, its date and its whole decoded value. -/
  fingerprint : Int → Int → Message → Bytes
  /-- The cache slot of a source identifier. -/
  slot : Bytes → Nat

end Zimbr.Relay
