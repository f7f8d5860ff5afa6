import Zimbr.Relay.Schema

set_option autoImplicit false

/-!
# Reservations and ownership of outgoing files

The ledger of upload rows; the bytes themselves live in private files.
-/
namespace Zimbr.Relay.Uploads
open Library

def maxReservations : Nat := 256
def maxReservedBytes : Nat := 2 * 1024 * 1024 * 1024
def unusedLifetimeMs : Int := 24 * 60 * 60 * 1000

structure Found where
  serverEpoch : Bytes
  file : Upload
  phase : Phase
  deriving DecidableEq, Repr

/-- Only the matching token may publish or abandon a transfer. -/
structure Lease where
  serverEpoch : Bytes
  file : Upload
  token : Bytes
  deriving DecidableEq, Repr

inductive Claim where
  | complete (found : Found)
  | write (lease : Lease)
  deriving DecidableEq, Repr

def setPhase (p : Bytes → UploadRow → Bool) (phase : Phase) (j : Journal) : Journal :=
  { j with uploads := j.uploads.modifyWhere p fun r => { r with state := phase } }

def checkEpoch (epoch : Bytes) : Tx Unit := do
  Sql.require (validId epoch) .invalidRequest
  let current ← Sql.query (·.epoch)
  Sql.require (epoch = current) .resyncRequired

/-- Other devices' IDs are indistinguishable from absence. -/
def lookup (owner epoch id : Bytes) : Tx Found := do
  Sql.require (validId id) .invalidRequest
  checkEpoch epoch
  let row ← Sql.query fun j => (j.uploads.get? id).filter fun r => r.owner = owner
  match row with
  | none => Sql.throw .uploadNotFound
  | some r => do
    Sql.require (r.epoch = epoch && r.state != .deleting) .uploadExpired
    return { serverEpoch := r.epoch, file := r.record, phase := r.state }

/-- Reserve space before accepting bytes. Exact retries retain phase. -/
def reserve (owner epoch : Bytes) (file : Upload) (now : Int) : Tx Found := do
  let size ← Sql.lift ((Attachments.validate file).mapError Error.ofFiles)
  Sql.transaction do
    checkEpoch epoch
    let existing ← Sql.query (·.uploads.get? file.id)
    match existing with
    | some r => do
      Sql.require (r.owner = owner) .uploadNotFound
      Sql.require (r.epoch = epoch) .uploadExpired
      Sql.require (r.record = file) .requestConflict
      lookup owner epoch file.id
    | none => do
      let count ← Sql.query (·.uploads.rows.length)
      let used ← Sql.query fun j => (j.uploads.rows.map fun r => r.2.bytes).sum
      Sql.require (count < maxReservations && used + size ≤ maxReservedBytes) .uploadQuota
      Sql.execute? fun j => (j.uploads.insert file.id {
        epoch := epoch, owner := owner, record := file, bytes := size, state := .reserved
        createdMs := now }).map fun uploads => { j with uploads := uploads }
      lookup owner epoch file.id

/-- Claim a single writer or return the already-completed immutable upload. -/
def claim (owner epoch id : Bytes) : Tx Claim := Sql.transaction do
  let found ← lookup owner epoch id
  match found.phase with
  | .ready | .pinned => return .complete found
  | .receiving => Sql.throw .uploadBusy
  | .deleting => Sql.throw .panic
  | .reserved => do
    let token ← Sql.draw .randomUnavailable
    Sql.execute fun j => { j with
      uploads := j.uploads.modify id fun r => { r with state := .receiving, lease := token } }
    return .write { serverEpoch := found.serverEpoch, file := found.file, token := token }

def leased (lease : Lease) (id : Bytes) (r : UploadRow) : Bool :=
  id = lease.file.id && r.epoch = lease.serverEpoch && r.lease = lease.token &&
    r.state = .receiving

/-- Publish a verified file; a stale lease changes no row. -/
def complete (lease : Lease) : Tx Unit := do
  let epoch ← Sql.query (·.epoch)
  Sql.require (lease.serverEpoch = epoch) .resyncRequired
  let changes ← Sql.statement fun j =>
    some ((j.uploads.select (leased lease)).length, setPhase (leased lease) .ready j)
  Sql.require (changes = 1) .uploadLeaseExpired

def abandon (lease : Lease) : Tx Unit := Sql.execute (setPhase (leased lease) .reserved)

def cancel (owner epoch id : Bytes) : Tx Unit := Sql.transaction do
  let found ← lookup owner epoch id
  match found.phase with
  | .receiving => Sql.throw .uploadBusy
  | .pinned => Sql.throw .uploadInUse
  | .deleting => Sql.throw .panic
  | .reserved | .ready => Sql.execute (setPhase (fun id' _ => id' = id) .deleting)

/-- One file of `pin`: completed, and the same metadata. -/
def pinnable (owner epoch : Bytes) (file : Upload) : Tx Unit := do
  let found ← lookup owner epoch file.id
  match found.phase with
  | .reserved | .receiving => Sql.throw .uploadNotReady
  | .pinned => Sql.throw .uploadInUse
  | .deleting => Sql.throw .panic
  | .ready => Sql.require (file = found.file) .requestConflict

def bindTo (requestId : Bytes) (file : Upload) : Tx Unit :=
  Sql.execute fun j => { j with
    uploads := j.uploads.modify file.id fun r =>
      { r with state := .pinned, requestId := some requestId } }

/-- Bind every file to one durable request in the caller's transaction. -/
def pin (owner epoch : Bytes) (files : List Upload) (requestId : Bytes) : Tx Unit := do
  Sql.lift ((Attachments.validateSet files).mapError Error.ofFiles)
  Sql.each (pinnable owner epoch) files
  Sql.each (bindTo requestId) files

/-- Called once before accepting connections. -/
def recover : Tx Unit := Sql.execute (setPhase (fun _ r => r.state = .receiving) .reserved)

def expire (now : Int) : Tx Unit := Sql.execute fun j =>
  setPhase (fun _ r => (r.state = .reserved || r.state = .ready) &&
    (r.createdMs < now - unusedLifetimeMs || r.epoch != j.epoch)) .deleting j

/-- Release quota only after physical removal succeeds. -/
def purge (id : Bytes) : Tx Unit := Sql.execute fun j => { j with
  uploads := j.uploads.deleteWhere fun id' r => id' = id && r.state = .deleting }

/-- Retire a pinned original in the caller's transaction. -/
def releasePart (requestId uploadId : Bytes) : Tx Unit :=
  Sql.execute (setPhase (fun id r => id = uploadId && r.requestId = some requestId &&
    r.state = .pinned) .deleting)

end Zimbr.Relay.Uploads
