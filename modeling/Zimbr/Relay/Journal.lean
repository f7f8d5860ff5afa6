import Mathlib.Data.List.Sort
import Zimbr.Relay.Enrichment
import Zimbr.Relay.Sends
import Zimbr.Relay.Uploads

set_option autoImplicit false

/-!
# Durable message and send journal
-/
namespace Zimbr.Relay
open Library

def next : Tx Nat := do
  -- Past the largest integer SQLite adds a REAL that reads back as the same
  -- number, and the event's INSERT then repeats a sequence.
  Sql.execute? fun j =>
    if j.sequence < maxInt then some { j with sequence := j.sequence + 1 } else none
  Sql.query (·.sequence)

def event (seq : Nat) (record : Record) (origin : Origin) (now : Int) : Tx Unit :=
  Sql.execute? fun j =>
    (j.events.insert seq { record := record, origin := origin, createdMs := now }).map
      fun events => { j with
        events := events
        log := j.log ++ [{ sequence := seq, record := record, origin := origin }] }

def idOf {α : Type} : Option (Bytes × α) → Tx Bytes
  | some (id, _) => return id
  | none => Sql.draw .randomUnavailable

def findIdentity (service address : Bytes) (j : Journal) : Option (Bytes × IdentityRow) :=
  j.identities.rows.find? fun r => r.2.service = service && r.2.address = address

def insertIdentity (id : Bytes) (row : IdentityRow) (j : Journal) : Option Journal :=
  if (findIdentity row.service row.address j).isSome then none
  else (j.identities.insert id row).map fun identities => { j with identities := identities }

def observeIdentity (now : Int) (service address : Bytes) : Tx (Option Bytes) := do
  if address = [] then
    return none
  else
    let found ← Sql.query (findIdentity service address)
    match found with
    | some (id, _) => return some id
    | none => do
      let id ← Sql.draw .randomUnavailable
      let v : Identity := { id := id, service := service, address := address }
      let seq ← next
      let record := { v with revision := seq }
      Sql.execute? (insertIdentity id {
        service := service, address := address, content := v, record := record })
      event seq (.identity record) .reconciliation now
      return some id

/-- Only a matched identity shows a name and an avatar. -/
def identityContent (value : Identity) : Identity :=
  if value.matchState = .matched then { value with revision := 0 }
  else { value with revision := 0, displayName := none, avatar := none }

def updateIdentity (now : Int) (value : Identity) : Tx Unit := do
  let found ← Sql.query (·.identities.get? value.id)
  match found with
  | none => Sql.throw .notFound
  | some row => do
    Sql.require (value.service = row.service && value.address = row.address) .invalidRequest
    let v := identityContent value
    if v = row.content then
      return ()
    else
      let seq ← next
      let record := { v with revision := seq }
      Sql.execute fun j => { j with
        identities := j.identities.modify v.id fun r =>
          { r with content := v, record := record } }
      event seq (.identity record) .reconciliation now

def findConversation (source : Bytes) (j : Journal) : Option (Bytes × ConversationRow) :=
  j.conversations.rows.find? fun r => decide (r.2.source = source)

/-- `INSERT … ON CONFLICT(source) DO UPDATE`. -/
def upsertConversation (id : Bytes) (row : ConversationRow) (j : Journal) : Option Journal :=
  match findConversation row.source j with
  | some (existing, _) =>
    some { j with conversations := j.conversations.modify existing fun _ => row }
  | none => (j.conversations.insert id row).map fun conversations =>
      { j with conversations := conversations }

def addParticipant (id address : Bytes) (j : Journal) : Journal :=
  { j with participants := j.participants.upsert (id, address) () fun _ => () }

/-- A chat with oneself is its own thread. -/
def conversationContent (id : Bytes) (value : Conversation) : Conversation := { value with
  id := id
  revision := 0
  threadId := if value.isSelf && value.threadId.isNone then some id else value.threadId }

def conversation (now : Int) (source : Bytes) (row : Int) (route : Bytes) (value : Conversation)
    (origin : Origin) : Tx Bytes := do
  Sql.each (fun address => do let _ ← observeIdentity now value.service address) value.participants
  let found ← Sql.query (findConversation source)
  let id ← idOf found
  let v := conversationContent id value
  match found.filter fun r => decide (r.2.content = v) with
  | some (_, old) =>
    if old.sourceRow != row || old.route != route || old.service != v.service then do
      Sql.execute fun j => { j with
        conversations := j.conversations.modify id fun r =>
          { r with sourceRow := row, route := route, service := v.service } }
      return id
    else
      return id
  | none => do
    let seq ← next
    let record := { v with revision := seq }
    Sql.execute? (upsertConversation id {
      source := source, sourceRow := row, route := route, service := v.service
      content := v, record := record })
    Sql.execute fun j => { j with
      participants := j.participants.deleteWhere fun k _ => k.1 = id }
    Sql.each (fun address => Sql.execute (addParticipant id address)) v.participants
    event seq (.conversation record) origin now
    return id

def findMessage (source : Bytes) (j : Journal) : Option (Bytes × MessageRow) :=
  j.messages.rows.find? fun r => decide (r.2.source = source)

def upsertMessage (id : Bytes) (row : MessageRow) (j : Journal) : Option Journal :=
  if !j.conversations.contains row.conversationId then none
  else match findMessage row.source j with
  | some (existing, _) => some { j with messages := j.messages.modify existing fun _ => row }
  | none => (j.messages.insert id row).map fun messages => { j with messages := messages }

def forgetSource (source : Bytes) (j : Journal) : Journal :=
  { j with sourceMessageCache := j.sourceMessageCache.deleteWhere fun _ r => r.source = source }

def observeActors (now : Int) (v : Message) : Tx Unit := do
  if v.direction = .incoming then
    let _ ← observeIdentity now v.service v.sender
  match v.reactionEvent.filter fun ev => !ev.actor.isSelf with
  | some ev =>
    match ev.actor.address with
    | some address => do let _ ← observeIdentity now ev.actor.service address
    | none => return ()
  | none => return ()

def observeReactor (now : Int) (v : Message) : Tx Unit :=
  match v.reactionEvent.filter fun ev => !ev.actor.isSelf with
  | some ev =>
    match ev.actor.address with
    | some address => do let _ ← observeIdentity now ev.actor.service address
    | none => return ()
  | none => return ()

theorem observeActors_eq (now : Int) (v : Message) :
    observeActors now v = if v.direction = .incoming then do
      let _ ← observeIdentity now v.service v.sender
      observeReactor now v
    else observeReactor now v := rfl

def message (enc : Encoding) (now : Int) (source : Bytes) (row date : Int) (value : Message)
    (origin : Origin) : Tx Unit := do
  Sql.execute (forgetSource source)
  observeActors now value
  let found ← Sql.query (findMessage source)
  let id ← idOf found
  let prepared ← Sql.query fun j =>
    Enrichment.prepare enc j { value with id := id, revision := 0 } (found.map fun r => r.2.record)
  let prepared ← Sql.lift prepared
  let v := prepared.value
  match found.filter fun r => !prepared.changed && decide (r.2.content = v) with
  | some (_, old) =>
    if old.sourceRow != row then
      Sql.execute fun j => { j with
        messages := j.messages.modify id fun r => { r with sourceRow := row } }
    else
      return ()
  | none => do
    let seq ← next
    let record := { v with revision := seq }
    Sql.execute? (upsertMessage id {
      source := source, sourceRow := row, conversationId := v.conversationId, dateNs := date
      direction := v.direction, text := v.text.getD [], status := v.observedStatus
      content := v, record := record })
    Enrichment.persist id prepared
    event seq (.message record) origin now

def rememberSource (slot : Nat) (entry : CachedSource) (j : Journal) : Journal :=
  let others := (forgetSource entry.source j).sourceMessageCache
  { j with sourceMessageCache := others.upsert slot entry fun _ => entry }

/-- Only source ingestion uses this shortcut: an unchanged row is not rewritten. -/
def sourceMessage (enc : Encoding) (now : Int) (source : Bytes) (row date : Int) (value : Message)
    (origin : Origin) : Tx Unit := do
  let fingerprint := enc.fingerprint row date value
  let cached ← Sql.query fun j =>
    j.sourceMessageCache.rows.any fun r => r.2.source = source && r.2.fingerprint = fingerprint
  if cached then
    return ()
  else
    message enc now source row date value origin
    Sql.execute (rememberSource (enc.slot source % 4096) {
      source := source, fingerprint := fingerprint })

def getRoute (target : Target) : Tx Route :=
  match target.recipient with
  | some r => return { mode := .direct, destination := r.address }
  | none => do
    let id ← Sql.orThrow .panic target.conversationId
    let row ← Sql.query (·.conversations.get? id)
    let row ← Sql.orThrow .unsupportedTarget (row.filter fun r => r.service = text "imessage")
    return { mode := .chat, destination := row.route }

def requestMessageFree (id : Bytes) (messageId : Option Bytes) (j : Journal) : Bool :=
  messageId.all fun m => j.sendRequests.rows.all fun r => r.1 = id || r.2.messageId != some m

def setRequest (v : SendRequest) (j : Journal) : Option Journal :=
  if requestMessageFree v.requestId v.messageId j then
    some { j with sendRequests := j.sendRequests.modify v.requestId fun r =>
      { r with state := v.state, record := v, messageId := v.messageId } }
  else none

def partMessageFree (key : Bytes × Nat) (messageId : Option Bytes) (j : Journal) : Bool :=
  messageId.all fun m => j.sendParts.rows.all fun r => r.1 = key || r.2.messageId != some m

def setPart (id : Bytes) (ordinal : Nat) (part : SendPart) (j : Journal) : Option Journal :=
  if j.sendRequests.contains id && partMessageFree (id, ordinal) part.messageId j then
    let new : SendPartRow := { state := part.state, messageId := part.messageId }
    let update (r : SendPartRow) : SendPartRow :=
      { r with state := part.state, messageId := part.messageId }
    some { j with sendParts := j.sendParts.upsert (id, ordinal) new update }
  else none

/-- The part was never executed: its original is released. -/
def unstartedAttachment (part : SendPart) : Bool :=
  part.kind = .attachment && (part.state = .failed || part.state = .skipped) &&
    part.errorInfo.any fun err => err.outcome = .unstarted

def updatePart (id : Bytes) (part : SendPart × Nat) : Tx Unit := do
  Sql.execute? (setPart id part.2 part.1)
  if unstartedAttachment part.1 then
    let attachment ← Sql.orThrow .panic part.1.attachmentId
    Uploads.releasePart id attachment
  else
    return ()

def updateRequest (now : Int) (value : SendRequest) : Tx SendRequest := do
  let seq ← next
  let v := { value with revision := seq }
  Sql.execute? (setRequest v)
  Sql.each (updatePart v.requestId) v.parts.zipIdx
  event seq (.request v) .reconciliation now
  return v

structure Accepted where
  record : SendRequest
  fresh : Bool
  deriving DecidableEq, Repr

def initialRequest (input : SendInput) : SendRequest where
  requestId := input.requestId
  serverEpoch := input.serverEpoch
  target := input.target
  text := input.text
  attachments := input.attachments
  parts := Sends.init input

def insertRequest (input : SendInput) (route : Route) (now : Int) (j : Journal) : Option Journal :=
  (j.sendRequests.insert input.requestId {
    epoch := input.serverEpoch, payload := input, record := initialRequest input, state := .queued
    mode := route.mode, route := route.destination, acceptedMs := now }).map
      fun requests => { j with sendRequests := requests }

def insertOwner (id owner : Bytes) (j : Journal) : Option Journal :=
  (j.sendOwners.insert id owner).map fun owners => { j with sendOwners := owners }

/-- A retry: the device and the payload must be those that were accepted. -/
def acceptExisting (input : SendInput) (owner : Option Bytes) (row : SendRequestRow) :
    Tx Accepted := do
  if input.attachments ≠ [] then
    let device ← Sql.query (·.sendOwners.get? input.requestId)
    let device ← Sql.orThrow .uploadNotFound device
    let owner ← Sql.orThrow .panic owner
    Sql.require (device = owner) .uploadNotFound
  Sql.require (row.payload = input) .requestConflict
  return { record := row.record, fresh := false }

def acceptFresh (now : Int) (input : SendInput) (owner : Option Bytes) : Tx Accepted := do
  let route ← getRoute input.target
  Sql.execute? (insertRequest input route now)
  if input.attachments ≠ [] then
    let owner ← Sql.orThrow .panic owner
    Uploads.pin owner input.serverEpoch input.attachments input.requestId
    Sql.execute? (insertOwner input.requestId owner)
  let record ← updateRequest now (initialRequest input)
  return { record := record, fresh := true }

def acceptImpl (now : Int) (input : SendInput) (ready : Bool) (owner : Option Bytes) :
    Tx Accepted := do
  Sql.lift ((validate input).mapError Error.ofInput)
  Sql.transaction do
    let epoch ← Sql.query (·.epoch)
    Sql.require (input.serverEpoch = epoch) .resyncRequired
    let existing ← Sql.query (·.sendRequests.get? input.requestId)
    match existing with
    | some row => acceptExisting input owner row
    | none => do
      Sql.require ready .adapterUnavailable
      acceptFresh now input owner

/-- The text adapter must never dispatch a caption after discarding its files. -/
def accept (now : Int) (input : SendInput) (ready : Bool) : Tx Accepted := do
  Sql.require (input.attachments = []) .unsupportedAttachments
  acceptImpl now input ready none

def acceptAttachments (now : Int) (input : SendInput) (ready : Bool) (owner : Bytes) :
    Tx Accepted :=
  acceptImpl now input ready (some owner)

def interruptedRequest (v : SendRequest) : Option SendRequest :=
  (if v.parts = [] then some v else Sends.interrupt v false).map fun v => { v with
    state := .unknown
    errorInfo := some {
      code := "interrupted_dispatch"
      message := "Dispatch was interrupted; delivery is uncertain."
      outcome := .uncertain } }

def recoverRequest (now : Int) (row : Bytes × SendRequestRow) : Tx Unit := do
  let v ← Sql.orThrow .panic (interruptedRequest row.2.record)
  let _ ← updateRequest now v

def recover (now : Int) : Tx Unit := Sql.transaction do
  let items ← Sql.query fun j => j.sendRequests.select fun _ r => r.state = .dispatching
  Sql.each (recoverRequest now) items

def unsettled (s : SendStatus) : Bool :=
  s = .queued || s = .dispatching || s = .submitted || s = .unknown

def heldRequest (v : SendRequest) : Option SendRequest :=
  (if v.parts = [] then some v else Sends.interrupt v true).map fun v => { v with
    state := .unknown
    messageId := none
    candidateMessageId := none
    errorInfo := some {
      code := "source_reset"
      message := "Relay state changed; this request is held for review."
      outcome := .uncertain } }

def clearSource (epoch : Bytes) (j : Journal) : Journal := { j with
  epoch := epoch
  sequence := 0
  prunedThrough := 0
  events := .empty
  identities := .empty
  enrichment := .empty
  participants := .empty
  messages := .empty
  conversations := .empty
  ingestionProgress := .empty
  log := [] }

/-- Keep an incompatible row private: only the request row is rewritten. -/
def setLegacyRequest (v : SendRequest) (j : Journal) : Journal := { j with
  sendRequests := j.sendRequests.modify v.requestId fun r =>
    { r with state := .unknown, record := v, messageId := none } }

def holdRequest (now : Int) (row : Bytes × SendRequestRow) : Tx Unit := do
  let v ← Sql.orThrow .panic (heldRequest row.2.record)
  if validId v.requestId && validId v.serverEpoch then
    let _ ← updateRequest now v
  else
    Sql.execute (setLegacyRequest v)

def markHeld (j : Journal) : Journal :=
  { j with held := j.sendRequests.rows.map fun r => (r.1, r.2.record) }

/-- Caller owns the transaction. All idempotency identities are preserved. -/
def reset (now : Int) : Tx Unit := do
  Sql.execute fun j => { j with sourceMessageCache := .empty }
  let items ← Sql.query fun j => j.sendRequests.select fun _ r => unsettled r.state
  let epoch ← Sql.draw .randomUnavailable
  Sql.execute (clearSource epoch)
  Sql.each (holdRequest now) items
  Sql.execute markHeld

def checkCursor (s : Bytes) : Tx Nat := do
  let epoch ← Sql.query (·.epoch)
  let seq ← Sql.lift ((parseCursor s epoch).mapError Error.ofCursor)
  let sequence ← Sql.query (·.sequence)
  Sql.require (seq ≤ sequence) .resyncRequired
  let prunedThrough ← Sql.query (·.prunedThrough)
  Sql.require (prunedThrough ≤ seq) .cursorExpired
  return seq

def replayMs : Int := 7 * 24 * 60 * 60 * 1000

def pruneCut (now countLimit : Int) (j : Journal) : Nat :=
  ((j.events.select fun seq r =>
    r.createdMs < now - replayMs || (seq : Int) ≤ (j.sequence : Int) - countLimit).map
      Prod.fst).foldl max 0

def prune (now countLimit : Int) : Tx Unit := Sql.transaction do
  let cut ← Sql.query (pruneCut now countLimit)
  Sql.execute fun j => { j with prunedThrough := max j.prunedThrough cut }
  Sql.execute fun j => { j with events := j.events.deleteWhere fun seq _ => seq ≤ cut }

def setProgress (key : String) (value : Bytes) : Tx Unit := Sql.execute fun j =>
  { j with ingestionProgress := j.ingestionProgress.upsert key value fun _ => value }

def deleteProgress (key : String) : Tx Unit := Sql.execute fun j =>
  { j with ingestionProgress := j.ingestionProgress.deleteWhere fun k _ => k = key }

/-- Missing ingestion positions start at zero; malformed ones are a failure. -/
def position (key : String) : Tx Int := do
  let value ← Sql.query (·.ingestionProgress.get? key)
  match value with
  | none => return 0
  | some s => Sql.orThrow .databaseFailure (parseInt s)

def progress (key : String) : Tx (Option Bytes) := Sql.query (·.ingestionProgress.get? key)

structure Delivery where
  cursor : Bytes
  event : Event
  deriving DecidableEq, Repr

/-- One row of a replay batch; an event not negotiated leaves an empty frame. -/
structure Frame where
  sequence : Nat
  frame : Option Delivery
  deriving DecidableEq, Repr

def batchRows : Nat := 100
def batchBytes : Nat := 512 * 1024

/-- Cut a batch at the byte budget, but always admit one record. -/
def frames (enc : Encoding) (epoch : Bytes) (identities : Bool) :
    Nat → List Frame → List Event → List Frame
  | _, items, [] => items
  | bytes, items, e :: rest =>
    if !identities && e.record.kind = .identity then
      frames enc epoch identities bytes (items ++ [{ sequence := e.sequence, frame := none }]) rest
    else if bytes + enc.record e.record > batchBytes && items ≠ [] then items
    else frames enc epoch identities (bytes + enc.record e.record)
      (items ++ [{
        sequence := e.sequence
        frame := some { cursor := cursor epoch e.sequence, event := e } }]) rest

/-- `SELECT … WHERE sequence > after ORDER BY sequence LIMIT 100`. -/
def replayRows (j : Journal) (after : Nat) : List Event :=
  (((j.events.select fun seq _ => after < seq).insertionSort fun a b => a.1 ≤ b.1).take batchRows).map
    fun r => { sequence := r.1, record := r.2.record, origin := r.2.origin }

def eventsWithIdentities (enc : Encoding) (after : Nat) (identities : Bool) : Tx (List Frame) := do
  let rows ← Sql.query fun j => replayRows j after
  let epoch ← Sql.query (·.epoch)
  return frames enc epoch identities 0 [] rows

end Zimbr.Relay
