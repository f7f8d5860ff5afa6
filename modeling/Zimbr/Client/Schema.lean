import Zimbr.Library.Sql
import Zimbr.Library.Table
import Zimbr.Protocol.Types

set_option autoImplicit false

/-!
# The client cache's tables

A column that stores a record's JSON text holds the record together with its
text, as the typed parser reads them back.
-/
namespace Zimbr.Client
open Library

inductive Error where
  | databaseFailure | invalidRecord | overflow | invalidEvent | unknownEvent
  | invalidEpoch | invalidRequest | resyncRequired | staleEpoch
  | attachmentDraftChanged | invalidDraft
  | textTooLarge | attachmentTooLarge | tooManyAttachments | unsupportedTarget
  | frameTooLarge | invalidFrame
  | invalidJson | jsonTooComplex | jsonTooDeep | jsonTooLarge
  | invalidEnrichmentPage | missingMessage
  deriving DecidableEq, Repr

instance : StorageError Error where
  unavailable := .databaseFailure

/-- A value with the exact wire text it was parsed from. -/
structure Decoded (α : Type) where
  value : α
  raw : Bytes
  deriving DecidableEq, Repr

inductive Kind where
  | conversation | message | request | identity
  deriving DecidableEq, Repr

inductive Incoming where
  | conversation (v : Decoded Conversation)
  | message (v : Decoded Message)
  | request (v : Decoded SendRequest)
  | identity (v : Decoded Identity)
  deriving DecidableEq, Repr

namespace Incoming

def kind : Incoming → Kind
  | .conversation _ => .conversation
  | .message _ => .message
  | .request _ => .request
  | .identity _ => .identity

def id : Incoming → Bytes
  | .conversation v => v.value.id
  | .message v => v.value.id
  | .request v => v.value.requestId
  | .identity v => v.value.id

def revision : Incoming → Nat
  | .conversation v => v.value.revision
  | .message v => v.value.revision
  | .request v => v.value.revision
  | .identity v => v.value.revision

/-- The text-first projection of a message, without its metadata. -/
def metadataDeferred : Incoming → Bool
  | .message v => v.value.metadataDeferred
  | _ => false

/-- The chat column: the presentation thread of a conversation, or a record's chat. -/
def chat : Incoming → Bytes
  | .conversation v =>
    match v.value.threadId with
    | some thread => if v.value.isSelf && validId thread then thread else v.value.id
    | none => v.value.id
  | .message v => v.value.conversationId
  | .request v => v.value.target.conversationId.getD []
  | .identity _ => []

def sortKey : Incoming → Bytes
  | .conversation v => v.value.lastActivity.getD []
  | .message v => v.value.timestamp
  | _ => []

/-- Records of one kind and id are versions of one another. -/
def key (r : Incoming) : Kind × Bytes := (r.kind, r.id)

end Incoming

structure RecordRow where
  revision : Nat
  chat : Bytes
  sortKey : Bytes
  record : Incoming
  deriving DecidableEq, Repr

structure IdentityRow where
  revision : Nat
  service : Bytes
  address : Bytes
  record : Decoded Identity
  deriving DecidableEq, Repr

structure EnrichmentRow where
  revision : Nat
  record : Decoded Message
  serial : Nat
  deriving DecidableEq, Repr

structure EnrichmentPage where
  revision : Bytes
  items : List (Decoded MetadataItem)
  next : Option Bytes
  deriving DecidableEq, Repr

/-- The state of a pending send: a stage of the client, or the relay's. -/
inductive OutboxState where
  | sending | uploading | unconfirmed | cancelled
  | queued | dispatching | submitted | delivered | failed | unknown
  deriving DecidableEq, Repr

def OutboxState.ofStatus : SendStatus → OutboxState
  | .queued => .queued
  | .dispatching => .dispatching
  | .submitted => .submitted
  | .delivered => .delivered
  | .failed => .failed
  | .unknown => .unknown

structure OutboxRow where
  epoch : Bytes
  draftKey : Bytes
  payload : SendInput
  state : OutboxState
  detail : String := ""
  record : Option (Decoded SendRequest) := none
  /-- The saved send time, in milliseconds. -/
  sentAt : Int
  deriving DecidableEq, Repr

structure OutgoingFile where
  draftKey : Option Bytes
  requestId : Option Bytes
  record : Upload
  bytes : Nat
  deriving DecidableEq, Repr

/-- An event that a committed batch moved the cursor over. -/
structure Passed where
  sequence : Nat
  record : Incoming
  origin : Bytes
  /-- Not an uncached background message: the record was written. -/
  cached : Bool := true
  /-- The thread of the message was the viewed one. -/
  viewed : Bool := false
  /-- It raised the unread count of its chat. -/
  raised : Bool := false
  deriving DecidableEq, Repr

/-- The cache; an absent setting is empty. -/
structure Store where
  epoch : Bytes := []
  cursor : Bytes := []
  acceptedExtensions : Bytes := []
  bootstrapped : Bool := false
  identityBootstrapped : Bool := false
  records : Table (Kind × Bytes) RecordRow := .empty
  identities : Table Bytes IdentityRow := .empty
  enrichmentCache : Table Bytes EnrichmentRow := .empty
  enrichmentPages : Table (Bytes × Bytes) EnrichmentPage := .empty
  drafts : Table Bytes Bytes := .empty
  pages : Table Bytes (Option Bytes) := .empty
  unread : Table Bytes Nat := .empty
  liveSeen : Table Bytes Unit := .empty
  /-- A chat without messages is covered by an empty preview. -/
  previews : Table Bytes (Option ConversationPreview) := .empty
  outbox : Table Bytes OutboxRow := .empty
  outgoingFiles : Table Bytes OutgoingFile := .empty
  /-- Ghost: the events of this epoch that the cursor passed, in order. -/
  passed : List Passed := []
  /-- Ghost: the cursor that the last synchronization started from. -/
  synced : Nat := 0

abbrev Tx (α : Type) : Type := Sql Error Store Bytes α

end Zimbr.Client
