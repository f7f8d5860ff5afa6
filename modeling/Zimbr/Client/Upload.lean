import Zimbr.Client.Outgoing

set_option autoImplicit false

/-!
# One outgoing network lane

Recover the request before reserving or streaming immutable originals; a durable
submission intent is never replayed automatically.
-/
namespace Zimbr.Client
open Library

inductive Request where
  | lookup (id : Bytes)
  | reserve (id : Bytes) (file : Upload)
  | transfer (id : Bytes) (file : Upload)
  | submit (input : SendInput)
  deriving DecidableEq, Repr

def Request.id : Request → Bytes
  | .lookup id => id
  | .reserve id _ => id
  | .transfer id _ => id
  | .submit input => input.requestId

/-- A request, and the row its send had in the cache when it was handed over. -/
structure Started where
  request : Request
  saved : Option OutboxRow
  deriving DecidableEq, Repr

namespace Lane

inductive Phase where
  | lookup | reserve | transfer | submit
  deriving DecidableEq, Repr

inductive RecordPhase where
  | reserved | receiving | ready | pinned
  deriving DecidableEq, Repr

structure Record where
  serverEpoch : Bytes
  file : Upload
  phase : RecordPhase
  deriving DecidableEq, Repr

end Lane

structure Lane where
  input : SendInput
  maySubmit : Bool
  phase : Lane.Phase := .lookup
  index : Nat := 0
  completedBytes : Nat := 0
  totalBytes : Nat
  /-- The original of the file in transfer is open. -/
  opened : Bool := false
  deriving DecidableEq, Repr

/-- The parsers of what the lane receives; `failure` reads the code of an error. -/
structure LaneDecoder extends Decoder where
  record : Bytes → Except Error Lane.Record
  failure : Bytes → Except Error Bytes

/-- A response; the status of a failed transfer is 0. -/
structure Reply where
  status : Nat
  raw : Bytes
  deriving DecidableEq, Repr

/-- What the system does: whether a request starts, and whether an original opens at
its recorded length. -/
structure Net where
  starts : Bool := true
  opens : Bool := true
  deriving DecidableEq, Repr

structure Polling where
  lane : Lane
  store : Store
  started : List Started

namespace Lane

abbrev PollTx (α : Type) : Type := Sql OutgoingError Polling Bytes α

def cache {α : Type} (m : Tx α) : PollTx α :=
  Sql.zoom Polling.store (fun p s => { p with store := s }) m.outgoing

def assign (f : Lane → Lane) : PollTx Unit := Sql.note fun p => { p with lane := f p.lane }

def start (net : Net) (request : Request) : PollTx Unit := do
  Sql.note fun p => { p with
    started := p.started ++ [{ request := request, saved := p.store.outbox.get? request.id }] }
  Sql.require net.starts .transportFailure

def total (files : List Upload) : Except Attachments.ValidateError Nat :=
  files.foldlM (fun sum file => (Attachments.validate file).map (sum + ·)) 0

/-- Own a copy of this outbox payload. -/
def init (input : SendInput) (maySubmit : Bool) : Except OutgoingError Lane := do
  (validate input).mapError fun _ => .invalidUploadResponse
  (Attachments.validateSet input.attachments).mapError .attachments
  if input.attachments.length = 0 then throw .invalidUploadResponse
  let total ← (total input.attachments).mapError .attachments
  return { input := input, maySubmit := maySubmit, totalBytes := total }

def progress (lane : Lane) (uploaded : Nat) : Nat × Phase :=
  (lane.completedBytes + (if lane.phase = .transfer then
    min uploaded (lane.totalBytes - lane.completedBytes) else 0), lane.phase)

def current : PollTx Upload := do
  let file ← Sql.peek fun p => p.lane.input.attachments[p.lane.index]?
  Sql.orThrow .invalidUploadResponse file

def reserve (net : Net) : PollTx Unit := do
  assign fun lane => { lane with phase := .reserve }
  let id ← Sql.peek fun p => p.lane.input.requestId
  let file ← current
  start net (.reserve id file)

def unrecorded (net : Net) : PollTx Bool := do
  let lane ← Sql.peek Polling.lane
  if !lane.maySubmit then do
    cache (outcome lane.input.requestId .unconfirmed
      "The relay has no record of this request. Its files are retained; it will not be sent again automatically.")
    return true
  else do
    reserve net
    return false

/-- Another transfer of the file is still open at the relay. -/
def uploadBusy (dec : LaneDecoder) (reply : Reply) : PollTx Bool :=
  if reply.status != 409 then return false
  else do
    Sql.lift ((JsonInput.check reply.raw Validation.maxBody 256).mapError fun e => .store (.ofCheck e))
    let code ← Sql.lift ((dec.failure reply.raw).mapError .store)
    return code = text "upload_busy"

/-- A refusal is definite, anything else is retried before the submission and left
unknown after it. -/
def failed (dec : LaneDecoder) (reply : Reply) : PollTx Bool := do
  let lane ← Sql.peek Polling.lane
  let busy ← uploadBusy dec reply
  let rejected := reply.status = 400 || reply.status = 401 || reply.status = 403 ||
    (reply.status = 409 && !busy) || reply.status = 410 || reply.status = 413
  cache (outcome lane.input.requestId
    (if rejected then .failed else if lane.maySubmit then .uploading else .unknown)
    (if rejected then "Attachment request rejected. Originals are retained; review the connection or copy the files into a new draft."
      else if lane.maySubmit then "Upload interrupted. Retrying the same attachment IDs."
      else "Outcome uncertain. Checking the original request ID; no automatic resend."))
  return true

def recorded (dec : LaneDecoder) (reply : Reply) : PollTx Bool := do
  let lane ← Sql.peek Polling.lane
  let record ← Sql.lift ((dec.request reply.raw).mapError .store)
  Sql.require (record.requestId = lane.input.requestId &&
    record.serverEpoch = lane.input.serverEpoch) .invalidUploadResponse
  let _ ← cache (upsert dec.toDecoder true .request reply.raw)
  return true

/-- The file is up: go on to the next, or submit after the last. -/
def ready (net : Net) (file : Upload) : PollTx Unit := do
  let bytes ← Sql.lift ((Attachments.validate file).mapError .attachments)
  assign fun lane => { lane with
    completedBytes := lane.completedBytes + bytes, index := lane.index + 1 }
  let lane ← Sql.peek Polling.lane
  if lane.index < lane.input.attachments.length then reserve net
  else do
    -- The intent is durable before the first byte of the request can leave.
    cache (outcome lane.input.requestId .sending "Submitting attachments…")
    assign fun lane => { lane with maySubmit := false, phase := .submit }
    start net (.submit lane.input)

/-- The reservation stands: stream the original. -/
def transfer (net : Net) (file : Upload) : PollTx Unit := do
  let lane ← Sql.peek Polling.lane
  Sql.require (lane.phase = .reserve) .invalidUploadResponse
  let _ ← Sql.lift ((Attachments.validate file).mapError .attachments)
  Sql.require net.opens .attachmentSourceUnavailable
  assign fun lane => { lane with opened := true, phase := .transfer }
  start net (.transfer lane.input.requestId file)

def uploaded (dec : LaneDecoder) (net : Net) (reply : Reply) : PollTx Bool := do
  let lane ← Sql.peek Polling.lane
  let record ← Sql.lift ((dec.record reply.raw).mapError .store)
  let file ← current
  Sql.require (record.serverEpoch = lane.input.serverEpoch && record.file = file)
    .invalidUploadResponse
  match record.phase with
  | .ready => do
    ready net record.file
    return false
  | .reserved => do
    transfer net record.file
    return false
  | .receiving => do
    cache (outcome lane.input.requestId .uploading "Waiting for the interrupted upload to close…")
    return true
  | .pinned => Sql.throw .invalidUploadResponse

/-- Consume a response and start the next bounded operation. `true` ends this attempt. -/
def poll (dec : LaneDecoder) (net : Net) (reply : Reply) : PollTx Bool := do
  assign fun lane => { lane with opened := false }
  let phase ← Sql.peek fun p => p.lane.phase
  if phase = .lookup && reply.status = 404 then unrecorded net
  else if reply.status < 200 || 300 ≤ reply.status then failed dec reply
  else do
    Sql.lift ((JsonInput.check reply.raw (512 * 1024) 32768).mapError fun e => .store (.ofCheck e))
    if phase = .lookup || phase = .submit then recorded dec reply
    else uploaded dec net reply

end Lane

end Zimbr.Client
