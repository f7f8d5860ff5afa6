import Zimbr.Client.Validation

set_option autoImplicit false

/-!
# Writing received records into the cache

`autocommit` is true where no caller has opened a transaction.
-/
namespace Zimbr.Client
open Library

def RecordRow.of (r : Incoming) : RecordRow where
  revision := r.revision
  chat := r.chat
  sortKey := r.sortKey
  record := r

def IdentityRow.of (v : Decoded Identity) : IdentityRow where
  revision := v.value.revision
  service := v.value.service
  address := v.value.address
  record := v

namespace Store

def conversation? (s : Store) (id : Bytes) : Option RecordRow := s.records.get? (.conversation, id)

/-- The thread under which a chat is displayed. -/
def threadKey (s : Store) (key : Bytes) : Bytes :=
  match s.conversation? key with
  | some c => if (s.conversation? c.chat).isSome then c.chat else key
  | none => key

/-- The chats that share the presentation thread of `key`. -/
def isMember (s : Store) (key id : Bytes) : Bool :=
  id = key || (s.conversation? id).any fun c =>
    c.chat = ((s.conversation? key).map (·.chat)).getD key

def draft (s : Store) (key : Bytes) : Bytes := (s.drafts.get? (s.threadKey key)).getD []

def aliases (s : Store) (canonical : Bytes) : List (Bytes × Bytes) :=
  (s.drafts.select fun key _ => s.isMember canonical key && key != canonical).mergeSort
    fun a b => decide (a.1 ≤ b.1)

end Store

/-- Two drafts of one thread are kept one after the other. -/
def combine (combined other : Bytes) : Bytes :=
  if other.length > 0 && combined != other then
    if combined.length = 0 then other else combined ++ text "\n\n" ++ other
  else combined

/-- Keep one draft for the thread. -/
def mergeDrafts (canonical combined : Bytes) (aliases : List (Bytes × Bytes)) : Tx Unit :=
  if aliases.length > 0 then do
    Sql.execute fun s => { s with
      drafts := s.drafts.upsert canonical combined fun _ => combined }
    Sql.each (fun a => Sql.execute fun s => { s with
      drafts := s.drafts.deleteWhere fun key _ => key = a.1 }) aliases
  else return ()

def mergeThreadState (key : Bytes) : Tx Unit := do
  let canonical ← Sql.query (·.threadKey key)
  let aliases ← Sql.query (·.aliases canonical)
  let draft ← Sql.query (·.draft canonical)
  mergeDrafts canonical (aliases.foldl (fun combined a => combine combined a.2) draft) aliases
  Sql.execute fun s => { s with
    outbox := s.outbox.modifyWhere (fun _ r => s.isMember canonical r.draftKey)
      fun r => { r with draftKey := canonical } }
  Sql.execute fun s => { s with
    outgoingFiles := s.outgoingFiles.modifyWhere
      (fun _ f => f.draftKey.any (s.isMember canonical))
      fun f => { f with draftKey := some canonical } }

/-- A relay update may release local originals only for the payload saved under
its request. -/
def validateRequest (value : SendRequest) : Tx Unit := do
  let row ← Sql.query (·.outbox.get? value.requestId)
  match row with
  | none => return ()
  | some row =>
    if row.payload.attachments.length = 0 && value.attachments.length = 0 then return ()
    else Sql.require (row.payload.serverEpoch = value.serverEpoch &&
      row.payload.text = value.text && row.payload.target = value.target &&
      row.payload.attachments = value.attachments) .invalidRecord

/-- Delivery ends local ownership. -/
def deliveredFiles (requestId : Bytes) : Tx Unit := Sql.execute fun s => { s with
  outgoingFiles := s.outgoingFiles.modifyWhere (fun _ f => f.requestId = some requestId)
    fun f => { f with requestId := none } }

def OutboxRow.follow (v : Decoded SendRequest) (r : OutboxRow) : OutboxRow := { r with
  state := .ofStatus v.value.state
  detail := (v.value.errorInfo.map (·.message)).getD ""
  record := some v }

def requestState (v : Decoded SendRequest) : Tx Unit := do
  Sql.execute fun s => { s with outbox := s.outbox.modify v.value.requestId (.follow v) }
  if v.value.state = .delivered then deliveredFiles v.value.requestId else return ()

def parseRevision (revision : Nat) : Tx Unit := Sql.require (revision ≤ maxInt) .overflow

/-- An identity keeps its service and address; a newer revision replaces the rest. -/
def upsertIdentity (v : Decoded Identity) (s : Store) : Option (Bool × Store) :=
  match s.identities.get? v.value.id with
  | some old =>
    if v.value.revision > old.revision && v.value.service = old.service &&
        v.value.address = old.address then
      some (true, { s with identities := s.identities.modify v.value.id fun r => { r with
        revision := v.value.revision, record := v } })
    else some (false, s)
  | none =>
    if (s.identities.select fun _ r =>
        r.service = v.value.service && r.address = v.value.address).length = 0 then
      (s.identities.insert v.value.id (.of v)).map fun identities =>
        (true, { s with identities := identities })
    else none

def writeIdentity (v : Decoded Identity) : Tx Bool := do
  parseRevision v.value.revision
  Sql.require (v.value.id.length != 0 && v.value.service.length != 0 &&
    v.value.address.length != 0) .invalidRecord
  Sql.statement (upsertIdentity v)

/-- The checks on a record before it is compared with the stored one; false for
a request of another epoch. -/
def checkRecord : Incoming → Tx Bool
  | .message v => do
    Sql.lift (Validation.message v.value)
    return true
  | .request v => do
    Sql.lift (Validation.request v.value)
    let epoch ← Sql.query (·.epoch)
    if epoch != v.value.serverEpoch then return false
    else do
      validateRequest v.value
      return true
  | _ => return true

/-- A full record may upgrade a text projection at the same revision. A delayed
projection never erases metadata that was already received. -/
def upgrades (record : Incoming) (old : RecordRow) : Bool :=
  record.kind = .message && !record.metadataDeferred && old.revision = record.revision &&
    old.record.metadataDeferred

def superseded (record : Incoming) (old : RecordRow) : Bool :=
  record.revision ≤ old.revision && !upgrades record old

def followRequest : Incoming → Tx Unit
  | .request v => requestState v
  | _ => return ()

def insertRecord (record : Incoming) : Tx Unit := Sql.execute fun s => { s with
  records := s.records.upsert record.key (.of record) fun _ => .of record }

/-- A changed message invalidates what was fetched for its older form. -/
def forgetEnrichment (record : Incoming) (upgrade : Bool) : Tx Unit :=
  match record with
  | .message v => do
    Sql.execute fun s => { s with
      enrichmentCache := s.enrichmentCache.deleteWhere fun id _ => id = v.value.id }
    Sql.execute fun s => { s with
      enrichmentPages := s.enrichmentPages.deleteWhere fun key _ => key.1 = v.value.id }
    if upgrade then
      Sql.execute? fun s => (s.enrichmentCache.insert v.value.id
        { revision := v.value.revision, record := v, serial := 1 }).map fun cache =>
          { s with enrichmentCache := cache }
    else pure ()
  | _ => return ()

def regroup (id : Bytes) : Tx Unit := do
  Sql.execute fun s => { s with pages := s.pages.deleteWhere fun chat _ => s.isMember id chat }
  mergeThreadState id

/-- A conversation that is new or moved to another thread brings its state along. -/
def regroupMoved (record : Incoming) (existing : Option RecordRow) : Tx Unit :=
  if record.kind = .conversation && existing.all fun old => old.chat != record.chat then
    regroup record.id
  else return ()

/-- Store an admitted record unless the stored one supersedes it. -/
def writeStored (record : Incoming) : Tx Bool := do
  let existing ← Sql.query (·.records.get? record.key)
  match existing.filter (superseded record) with
  | some old => do
    followRequest old.record
    return false
  | none => do
    insertRecord record
    forgetEnrichment record (existing.any (upgrades record))
    followRequest record
    regroupMoved record existing
    return existing.isNone

def writeRecord (autocommit : Bool) (record : Incoming) : Tx Bool :=
  match record with
  | .identity v => writeIdentity v
  | record => do
    let current ← checkRecord record
    if !current then return false
    else do
      parseRevision record.revision
      Sql.require (record.id.length != 0) .invalidRecord
      if record.kind = .request && autocommit then Sql.transaction (writeStored record)
      else writeStored record

end Zimbr.Client
