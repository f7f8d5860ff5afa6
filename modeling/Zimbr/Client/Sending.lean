import Zimbr.Client.Upload
import Zimbr.Protocol.Json

set_option autoImplicit false

/-!
# Sending

The worker, its request lane and its upload lane, and the file worker beside them,
over one cache and one directory of private originals. Commands, responses and the
two workers' critical sections interleave freely; an error of the worker ends it,
and a restart finds the cache and the originals alone. A reset of the cache removes the
originals first: one that fails may have removed some.
-/
namespace Zimbr.Client
open Library

inductive Job where
  | idle
  | send (id : Bytes)
  | recover (id : Bytes)
  /-- A read that a send may cancel, or one that it waits for. -/
  | background (cancellable : Bool)
  deriving DecidableEq, Repr

/-- A read in flight gives way to a send; a submission never does. -/
def Job.yields : Job → Bool
  | .recover _ => true
  | .background cancellable => cancellable
  | _ => false

inductive FileTask where
  | idle
  /-- The private copy is durable; its draft is not yet. -/
  | staging (key : Bytes) (file : Upload)
  /-- The original is to be removed, and the retired entry after it. -/
  | removing (id : Bytes) (retired : Bool)
  deriving DecidableEq, Repr

structure Sender where
  worker : Worker := {}
  job : Job := .idle
  upload : Option Lane := none
  task : FileTask := .idle
  /-- The private originals, under their ids. -/
  disk : Table Bytes Bytes := .empty
  /-- Ghost: the requests handed to the network, oldest first. -/
  started : List Started := []
  /-- Ghost: the identifiers drawn so far. -/
  issued : List Bytes := []
  /-- Ghost: the originals that failed resets of the cache removed. -/
  lost : List Bytes := []

/-- A send command, with what the worker knows when it takes it. -/
structure Offer where
  key : Bytes
  text : Bytes
  recipient : Bytes
  preparing : Bool
  online : Bool
  sendDirect : Bool
  replyExisting : Bool
  attachmentsReady : Bool
  sentAt : Int
  deriving DecidableEq, Repr

def keepDraft (offer : Offer) : OutgoingTx (Option SendInput) := do
  (saveDraft true offer.key offer.text).outgoing
  return none

def offeredTarget (offer : Offer) : OutgoingTx Target :=
  if (text "new:").isPrefixOf offer.key then
    return { recipient := some { address := offer.recipient, service := text "imessage" } }
  else Sql.query (·.sendTarget offer.key)

def Offer.refused (offer : Offer) (target : Target) (files : List Upload) : Bool :=
  (target.recipient.isSome && !offer.sendDirect) || (!target.recipient.isSome && !offer.replyExisting) ||
    (files.length != 0 && !offer.attachmentsReady)

def saveSend (fresh : Option Bytes) (offer : Offer) (target : Target) (files : List Upload) :
    OutgoingTx (Option SendInput) := do
  let id ← Sql.orThrow .randomUnavailable fresh
  let epoch ← Sql.query (·.epoch)
  let input : SendInput := {
    requestId := id, serverEpoch := epoch, target := target, text := offer.text,
    attachments := files }
  (persistSend offer.sentAt offer.key input).outgoing
  return some input

/-- The worker's part of a send command: the send that was saved, or none when the
message stays a draft. -/
def offered (fresh : Option Bytes) (offer : Offer) : OutgoingTx (Option SendInput) := do
  let files ← Sql.query (·.draftFiles offer.key)
  if offer.preparing || !offer.online then keepDraft offer
  else do
    let unresolved ← Sql.query (·.unresolved)
    if unresolved then keepDraft offer
    else do
      let target ← offeredTarget offer
      if offer.refused target files then keepDraft offer
      else saveSend fresh offer target files

/-- A reserved name extension and its media type; anything else is opaque. -/
def mimeTypes : List (Bytes × Bytes) := [
  (text ".png", text "image/png"), (text ".jpg", text "image/jpeg"),
  (text ".jpeg", text "image/jpeg"), (text ".gif", text "image/gif"),
  (text ".webp", text "image/webp"), (text ".heic", text "image/heic"),
  (text ".pdf", text "application/pdf"), (text ".txt", text "text/plain")]

/-- The extension of a basename, from its last dot unless that is its first byte. -/
def extension (name : Bytes) : Bytes :=
  let suffix := (name.reverse.takeWhile fun b => b != 46).reverse
  if name.length ≤ suffix.length + 1 then [] else 46 :: suffix

/-- `std.ascii.toLower`. -/
def toLower (ch : UInt8) : UInt8 := if 65 ≤ ch && ch ≤ 90 then ch + 32 else ch

def mimeType (name : Bytes) : Bytes :=
  ((mimeTypes.find? fun pair => pair.1 = (extension name).map toLower).map (·.2)).getD
    (text "application/octet-stream")

inductive SenderAction where
  /-- A step of the worker that is not about sending: events, responses, synchronization. -/
  | work (a : Action)
  /-- Metadata pages. -/
  | enrich (change : Store → Store)
  | draft (env : Env) (key text : Bytes)
  | send (env : Env) (fresh : Option Bytes) (offer : Offer) (starts : Bool)
  /-- The worker starts a read. -/
  | request (cancellable : Bool)
  /-- A command cancels a read. -/
  | cancelRequest
  | recover (id : Bytes) (starts : Bool)
  | complete (env : Env) (reply : Reply)
  | uploadFiles (env : Env) (active ready : Bool) (net : Net) (reply : Option Reply)
  | cancelUpload (env : Env) (id : Bytes)
  /-- The user reconnects, or resets the relay. -/
  | disconnect (env : Env) (detail : String)
  | expireUnknown (env : Env) (now : Int)
  /-- A new chat got its conversation. -/
  | resolveDirect (env : Env) (chat : Bytes)
  | removeAttachment (env : Env) (key id : Bytes)
  /-- The file worker copies a source, `content` of it; a failed copy may stay behind. -/
  | stage (env : Env) (fresh : Option Bytes) (key name content : Bytes) (copied removed : Bool)
  | publish (env : Env) (cancelled removed : Bool)
  /-- The file worker finds an original without an owner. -/
  | inspect (env : Env) (id : Bytes) (retired : Bool)
  | collect (env : Env) (removed : Bool)
  /-- A reset of the cache fails between these originals and the cache. -/
  | failClear (gone : List Bytes)

namespace Sender

def store (t : Sender) : Store := t.worker.store

def moved (t : Sender) (s : Store) : Sender := { t with worker := { t.worker with store := s } }

/-- The worker ended, or the process did: the cache and the originals stay. -/
def ended (t : Sender) : Sender := { t with
  worker := { store := t.worker.store, selected := t.worker.selected }
  job := .idle
  upload := none
  task := .idle }

/-- Run a transaction of the worker; an error ends it. -/
def locked {α : Type} (t : Sender) (env : Env) (m : Tx α) (k : α → Sender → Sender) : Sender :=
  match m.run { db := t.store, faults := env.faults } with
  | (.ok a, c) => k a (t.moved c.db)
  | (.error _, c) => (t.moved c.db).ended

/-- Hand over a request; one that fails to start ends the worker. -/
def hand (t : Sender) (request : Request) (starts : Bool) : Sender :=
  let t := { t with
    started := t.started ++ [{ request := request, saved := t.store.outbox.get? request.id }] }
  if starts then t else t.ended

/-- Only a read gives way to the send; otherwise the command waits. -/
def send (t : Sender) (env : Env) (fresh : Option Bytes) (offer : Offer) (starts : Bool) : Sender :=
  if t.job != .idle && !(offer.online && t.job.yields) then t
  else
    let t := { t with job := .idle, issued := fresh.toList ++ t.issued }
    match (offered fresh offer).run { db := t.store, faults := env.faults } with
    | (.ok none, c) => t.moved c.db
    | (.ok (some input), c) =>
      let t := t.moved c.db
      if input.attachments.length = 0 then
        ({ t with job := .send input.requestId }).hand (.submit input) starts
      else t
    | (.error _, c) => (t.moved c.db).ended

def recover (t : Sender) (id : Bytes) (starts : Bool) : Sender :=
  if t.job = .idle && (t.store.outbox.get? id).any t.store.recoverable then
    ({ t with job := .recover id }).hand (.lookup id) starts
  else t

/-- A refusal of a submission is definite; anything else may follow its acceptance. -/
def rejects (status : Nat) : Bool :=
  status = 400 || status = 401 || status = 403 || status = 409 || status = 413

def complete (dec : LaneDecoder) (t : Sender) (env : Env) (reply : Reply) : Sender :=
  let next := { t with job := .idle }
  let success := 200 ≤ reply.status && reply.status < 300
  let record : Tx Unit := do
    Sql.lift ((JsonInput.check reply.raw (8 * 1024 * 1024) (512 * 1024)).mapError .ofCheck)
    let _ ← upsert dec.toDecoder true .request reply.raw
  match t.job with
  | .send id =>
    if !success then
      next.locked env (outcome id (if rejects reply.status then .failed else .unknown)
        (if rejects reply.status then "Relay rejected this submission. Copy it to the composer to edit."
          else "Outcome uncertain. Checking the original request ID; no automatic resend.")) fun _ t => t
    else match record.run { db := t.store, faults := env.faults } with
    | (.ok (), c) => next.moved c.db
    | (.error _, c) => (next.moved c.db).locked { env with faults := c.faults } (outcome id .unknown
        "Response interrupted. Checking the original request ID; no automatic resend.") fun _ t => t
  | .recover id =>
    if !success then
      if reply.status = 404 then
        next.locked env (outcome id .unconfirmed
          "The relay has no record of this request. It will not be resent automatically.") fun _ t => t
      else next
    else match record.run { db := t.store, faults := env.faults } with
    | (_, c) => next.moved c.db
  | _ => next

def pollUpload (dec : LaneDecoder) (t : Sender) (env : Env) (net : Net) (lane : Lane) (reply : Reply) :
    Sender :=
  match (Lane.poll dec net reply).run {
      db := { lane := lane, store := t.store, started := t.started }, faults := env.faults } with
  | (.ok finished, c) => { t.moved c.db.store with
    upload := if finished then none else some c.db.lane, started := c.db.started }
  | (.error _, c) =>
    -- A failure before the submission is definite, one after it is not.
    ({ t.moved c.db.store with upload := none, started := c.db.started }).locked
      { env with faults := c.faults }
      (outcome lane.input.requestId (if c.db.lane.maySubmit then .failed else .unknown)
        (if c.db.lane.maySubmit then
          "Could not verify the attachment upload. Originals are retained; review the files and connection."
        else "Submission response interrupted. Checking the original request ID; no automatic resend."))
      fun _ t => t

def openUpload (t : Sender) (env : Env) (net : Net) : Sender :=
  t.locked env (Sql.query (·.nextUpload)) fun next t =>
    match next with
    | none => t
    | some (_, row) =>
      match Lane.init row.payload (row.state = .uploading) with
      | .error _ => t.ended
      | .ok lane => ({ t with upload := some lane }).hand (.lookup lane.input.requestId) net.starts

/-- `active`: online, with no reset and no refused access. -/
def uploadFiles (dec : LaneDecoder) (t : Sender) (env : Env) (active ready : Bool) (net : Net)
    (reply : Option Reply) : Sender :=
  if !active then { t with upload := none }
  else match t.upload with
  | some lane =>
    if lane.input.serverEpoch ≠ t.store.epoch then { t with upload := none }
    else match reply with
    | none => t
    | some reply => t.pollUpload dec env net lane reply
  | none => if ready then t.openUpload env net else t

/-- Only what was not submitted can be cancelled. -/
def cancelUpload (t : Sender) (env : Env) (id : Bytes) : Sender :=
  if (t.store.outbox.get? id).any fun r => r.record.isNone && r.state = .uploading then
    ({ t with upload := t.upload.filter fun lane => lane.input.requestId ≠ id }).locked env
      (outcome id .cancelled
        "Upload cancelled before submission. The original files are retained on this device.")
      fun _ t => t
  else t

/-- The connection goes; a submission in flight has an unknown outcome. -/
def disconnect (t : Sender) (env : Env) (detail : String) : Sender :=
  let next := { t with job := .idle, upload := none }
  match t.job with
  | .send id => next.locked env (outcome id .unknown detail) fun _ t => t
  | _ => next

def resolveDirect (t : Sender) (env : Env) (chat : Bytes) : Sender :=
  t.locked env (Sql.execute fun s => { s with
    outbox := s.outbox.modifyWhere (fun _ r => r.draftKey = t.worker.selected)
      fun r => { r with draftKey := chat } }) fun _ t => t

section Files

variable (sha256 : Bytes → Vector UInt8 32)

def copied (id name content : Bytes) : Upload where
  id := id
  name := name
  mimeType := mimeType name
  bytes := decimal content.length
  sha256 := digest sha256 content

/-- Remove an original; what cannot be removed stays for a later collection. -/
def unlink (t : Sender) (id : Bytes) (removed : Bool) : Sender :=
  if removed then { t with disk := t.disk.deleteWhere fun k _ => k = id } else t

/-- Copy the source, after a check of the quotas; the copy is created exclusively. -/
def stage (t : Sender) (env : Env) (fresh : Option Bytes) (key name content : Bytes)
    (whole removed : Bool) : Sender :=
  let t' := { t with issued := fresh.toList ++ t.issued }
  match t.task, fresh with
  | .idle, some id =>
    let file := copied sha256 id name content
    match (checkAdd key file).run { db := t.store, faults := env.faults } with
    | (.error _, _) => t'
    | (.ok (), _) =>
      match t.disk.insert id content with
      | none => t'
      | some disk =>
        if whole then { t' with disk := disk, task := .staging key file }
        else ({ t' with disk := disk }).unlink id removed
  | _, _ => t'

def publish (t : Sender) (env : Env) (cancelled removed : Bool) : Sender :=
  match t.task with
  | .staging key file =>
    if cancelled then ({ t with task := .idle }).unlink file.id removed
    else match (addDraft key file).run { db := t.store, faults := env.faults } with
    | (.ok (), c) => { t.moved c.db with task := .idle }
    | (.error _, c) => ({ t.moved c.db with task := .idle }).unlink file.id removed
  | _ => t

/-- A retired entry, or at startup any original that nothing owns. -/
def inspect (t : Sender) (env : Env) (id : Bytes) (retired : Bool) : Sender :=
  if t.task = .idle then
    match (Sql.query fun s : Store => (s.outgoingFiles.get? id).any fun f => f.owned : Tx Bool).run
        { db := t.store, faults := env.faults } with
    | (.ok false, _) => { t with task := .removing id retired }
    | _ => t
  else t

def collect (t : Sender) (env : Env) (removed : Bool) : Sender :=
  match t.task with
  | .removing id retired =>
    let next := ({ t with task := .idle }).unlink id removed
    if removed && retired then
      next.moved ((forgetFile id).run { db := t.store, faults := env.faults }).2.db
    else next
  | _ => t

/-- `resetCache` removes the originals before it replaces the cache. -/
def failClear (t : Sender) (gone : List Bytes) : Sender := { t.ended with
  disk := t.disk.deleteWhere fun id _ => gone.contains id
  lost := gone ++ t.lost }

def drawn : SenderAction → Option Bytes
  | .send _ fresh _ _ => fresh
  | .stage _ fresh _ _ _ _ _ => fresh
  | _ => none

/-- An identifier that is drawn was neither drawn before nor named by a record. -/
def enabled (t : Sender) (a : SenderAction) : Bool :=
  (drawn a).all fun id => !t.issued.contains id && !t.store.records.contains (.request, id)

/-- Tables that neither sends nor files are in. -/
def enriched (s change : Store) : Store := { s with
  enrichmentCache := change.enrichmentCache, enrichmentPages := change.enrichmentPages }

/-- A step of the worker beside sending; a restart and a reset end what is in flight. -/
def work (dec : LaneDecoder) (t : Sender) (a : Action) : Sender :=
  match a with
  | .restart => { t.ended with worker := t.worker.step dec.toDecoder a }
  | .clear => { t.ended with worker := t.worker.step dec.toDecoder a, disk := .empty }
  | .elsewhere _ => t
  | _ => { t with worker := t.worker.step dec.toDecoder a }

def apply (dec : LaneDecoder) (t : Sender) : SenderAction → Sender
  | .work a => t.work dec a
  | .enrich change => t.moved (enriched t.store (change t.store))
  | .draft env key text => t.locked env (saveDraft true key text) fun _ t => t
  | .send env fresh offer starts => t.send env fresh offer starts
  | .request cancellable => if t.job = .idle then { t with job := .background cancellable } else t
  | .cancelRequest => match t.job with
    | .background _ => { t with job := .idle }
    | _ => t
  | .recover id starts => t.recover id starts
  | .complete env reply => t.complete dec env reply
  | .uploadFiles env active ready net reply => t.uploadFiles dec env active ready net reply
  | .cancelUpload env id => t.cancelUpload env id
  | .disconnect env detail => t.disconnect env detail
  | .expireUnknown env now => t.locked env (Client.expireUnknown now) fun _ t => t
  | .resolveDirect env chat => t.resolveDirect env chat
  | .removeAttachment env key id => t.locked env (removeDraft key id) fun _ t => t
  | .stage env fresh key name content whole removed => t.stage sha256 env fresh key name content whole removed
  | .publish env cancelled removed => t.publish env cancelled removed
  | .inspect env id retired => t.inspect env id retired
  | .collect env removed => t.collect env removed
  | .failClear gone => t.failClear gone

def step (dec : LaneDecoder) (t : Sender) (a : SenderAction) : Sender :=
  if t.enabled a then t.apply sha256 dec a else t

end Files

end Sender

def sender (sha256 : Bytes → Vector UInt8 32) (dec : LaneDecoder) :
    Machine Sender SenderAction Notification where
  step := Sender.step sha256 dec
  out t
    | .work a => (client dec.toDecoder).out t.worker a
    | _ => []

end Zimbr.Client
