import Zimbr.Client.Chats
import Zimbr.Client.Drafts

set_option autoImplicit false

/-!
# Pending sends and the files they own

Durable ownership of local attachment originals, and what becomes of a send after
it was saved.
-/
namespace Zimbr.Client
open Library

/-- How sending fails: of these only a storage failure comes from the cache. -/
inductive OutgoingError where
  | store (e : Error)
  | attachments (e : Attachments.ValidateError)
  | attachmentStorageFull | attachmentSourceUnavailable
  | invalidUploadResponse | transportFailure | randomUnavailable
  deriving DecidableEq, Repr

instance outgoingStorage : StorageError OutgoingError where
  unavailable := .store .databaseFailure

abbrev OutgoingTx (α : Type) : Type := Sql OutgoingError Store Bytes α

def Tx.outgoing {α : Type} (m : Tx α) : OutgoingTx α := Sql.mapError .store rfl m

/-- A late failure does not overwrite a request already received from the relay. -/
def outcome (id : Bytes) (state : OutboxState) (detail : String) : Tx Unit :=
  Sql.execute fun s => { s with
    outbox := s.outbox.modifyWhere (fun k r => k = id && r.record.isNone)
      fun r => { r with state := state, detail := detail } }

/-- An unknown send without files, five minutes after its saved send time. -/
def OutboxRow.expired (now : Int) (r : OutboxRow) : Bool :=
  r.state = .unknown && r.payload.attachments.length = 0 && r.sentAt ≤ now - 5 * 60 * 1000

/-- Attachment sends retain their originals and review history. -/
def expireUnknown (now : Int) : Tx Bool := Sql.statement fun s =>
  let outbox := s.outbox.deleteWhere fun _ r => r.expired now
  some (decide (outbox.rows.length < s.outbox.rows.length), { s with outbox := outbox })

def selfRecipient (chat : Conversation) : Option Bytes :=
  if !chat.isSelf || chat.service != text "imessage" then none
  else chat.participants.find? validAddress

namespace Store

def unanswered (s : Store) (r : OutboxRow) : Bool := r.epoch = s.epoch && r.record.isNone

/-- A send of this epoch was submitted, and its outcome is not known. -/
def unresolved (s : Store) : Bool :=
  s.outbox.rows.any fun r => s.unanswered r.2 && (r.2.state = .sending || r.2.state = .unknown)

def nextUpload (s : Store) : Option (Bytes × OutboxRow) :=
  (s.outbox.select fun _ r => s.unanswered r &&
    (r.state = .uploading || r.state = .sending || r.state = .unknown) &&
    0 < r.payload.attachments.length).head?

/-- A text send without an answer, or a send whose record may still change. -/
def recoverable (s : Store) (r : OutboxRow) : Bool :=
  r.epoch = s.epoch && (r.record.isSome || r.payload.attachments.length = 0) &&
    (r.state = .sending || r.state = .unknown ||
      (r.state = .queued || r.state = .dispatching || r.state = .submitted))

/-- The display id of the thread with oneself may not resolve to a chat: its most
recently active verified member is addressed directly. -/
def sendTarget (s : Store) (key : Bytes) : Target :=
  let self := ((s.conversation? key).bind (·.record.conversation?)).any fun chat =>
    chat.isSelf && chat.service = text "imessage"
  let members := if self then
      (s.records.select fun k _ => k.1 = .conversation && s.isMember key k.2).mergeSort newer
    else []
  match members.findSome? fun r => r.2.record.conversation?.bind selfRecipient with
  | some address => { recipient := some { address := address, service := text "imessage" } }
  | none => { conversationId := some key }

end Store

section Files

/-- Staged files bound draft bookkeeping across conversations. -/
def maxStoredFiles : Nat := 256

/-- Local originals retained for drafts and retryable sends. -/
def maxStoredBytes : Nat := 2 * 1024 * 1024 * 1024

def OutgoingFile.owned (f : OutgoingFile) : Bool := f.draftKey.isSome || f.requestId.isSome

def Store.draftUse (s : Store) (canonical : Bytes) : Nat × Nat :=
  let files := s.outgoingFiles.select fun _ f => f.draftKey = some canonical
  (files.length, (files.map fun r => r.2.bytes).sum)

def checkAdd (key : Bytes) (file : Upload) : OutgoingTx Unit := do
  let bytes ← Sql.lift ((Attachments.validate file).mapError .attachments)
  let canonical ← Sql.query (·.threadKey key)
  let use ← Sql.query fun s => (s.outgoingFiles.rows.length, s.outgoingFiles.total (·.bytes),
    s.draftUse canonical)
  Sql.require (!(maxStoredFiles ≤ use.1 || maxStoredBytes < use.2.1 + bytes)) .attachmentStorageFull
  Sql.require (!(Attachments.maxFiles ≤ use.2.2.1)) (.attachments .tooManyAttachments)
  Sql.require (!(Attachments.maxSendBytes < use.2.2.2 + bytes)) (.attachments .attachmentTooLarge)

def insertFile (key : Bytes) (file : Upload) (bytes : Nat) : OutgoingTx Unit :=
  Sql.execute? fun s => (s.outgoingFiles.insert file.id {
    draftKey := some key
    requestId := none
    record := file
    bytes := bytes }).map fun files => { s with outgoingFiles := files }

/-- Ownership moves to the ledger only on success. -/
def addDraft (key : Bytes) (file : Upload) : OutgoingTx Unit := Sql.transaction do
  checkAdd key file
  let canonical ← Sql.query (·.threadKey key)
  let bytes ← Sql.lift ((Attachments.validate file).mapError .attachments)
  insertFile canonical file bytes

/-- Retire only this draft's file; collecting removes its bytes. -/
def removeDraft (key id : Bytes) : Tx Unit := do
  let canonical ← Sql.query (·.threadKey key)
  Sql.execute fun s => { s with
    outgoingFiles := s.outgoingFiles.modifyWhere
      (fun k f => k = id && f.draftKey = some canonical && f.requestId.isNone)
      fun f => { f with draftKey := none } }

/-- A retired entry is forgotten once its original is removed. -/
def forgetFile (id : Bytes) : Tx Unit := Sql.execute fun s => { s with
  outgoingFiles := s.outgoingFiles.deleteWhere fun k f => k = id && !f.owned }

end Files

end Zimbr.Client
