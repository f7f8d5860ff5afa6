import Zimbr.Relay.Core

set_option autoImplicit false

/-!
# Observation of multipart sends

The worker takes one pending part, reads the source outside the journal lock
and publishes what it matched against the latest record.
-/
namespace Zimbr.Relay.Observation
open Library

structure Work where
  request : SendRequest
  position : Nat
  time : Int
  floor : Int
  mode : Mode
  route : Bytes
  sourceIdentity : Bytes
  deriving DecidableEq, Repr

structure Candidate where
  row : Int
  date : Int
  guid : Bytes
  text : Bytes
  hasAttachments : Bool
  status : ObservedStatus
  deriving DecidableEq, Repr

def pendingState (s : PartState) : Bool := s = .invoked || s = .unknown || s = .submitted

def lastAttempt (j : Journal) (key : Bytes × Nat) : Int := (j.sendPartObservations.get? key).getD 0

def preceding (j : Journal) (a b : (Bytes × Nat) × SendPartRow) : Bool :=
  let x := (lastAttempt j a.1, a.2.dispatchMs.getD 0, a.1.2)
  let y := (lastAttempt j b.1, b.2.dispatchMs.getD 0, b.1.2)
  x.1 < y.1 || (x.1 = y.1 && (x.2.1 < y.2.1 || (x.2.1 = y.2.1 && x.2.2 < y.2.2)))

def pendingPart (j : Journal) (now : Int) : Option ((Bytes × Nat) × SendPartRow) :=
  (j.sendParts.select fun key p =>
    pendingState p.state && p.dispatchMs.isSome &&
    ((j.sendRequests.get? key.1).any fun r => r.epoch = j.epoch) &&
    lastAttempt j key < now - 1000).foldl
      (fun best r => match best with
        | none => some r
        | some b => if preceding j r b then some r else some b) none

def workFor (j : Journal) (item : (Bytes × Nat) × SendPartRow) (identity : Bytes) : Option Work := do
  let row ← j.sendRequests.get? item.1.1
  let time ← item.2.dispatchMs
  let floor ← item.2.sourceFloor
  let mode ← item.2.mode
  let route ← item.2.route
  some {
    request := row.record, position := item.1.2, time := time, floor := floor, mode := mode
    route := route, sourceIdentity := identity }

/-- `gate`: the source was read in the last five seconds and no reset is required. -/
def prepare (now : Int) (gate : Bool) : Tx (Option Work) := do
  if !gate then
    return none
  else
    let item ← Sql.query fun j => pendingPart j now
    match item with
    | none => return none
    | some item => do
      let identity ← progress "identity"
      match identity with
      | none => return none
      | some identity => do
        let work ← Sql.query fun j => workFor j item identity
        let work ← Sql.orThrow .databaseFailure work
        let part ← Sql.orThrow .panic work.request.parts[work.position]?
        let old := part.messageId.isNone && now - work.time > 60000
        let attempt := now + if old then 29000 else 0
        Sql.execute fun j => { j with
          sendPartObservations := j.sendPartObservations.upsert item.1 attempt fun _ => attempt }
        return some work

def fileFor (work : Work) : Option Upload := do
  let part ← work.request.parts[work.position]?
  let id ← if part.kind = .text then none else part.attachmentId
  work.request.attachments.find? fun file => decide (file.id = id)

def matchingMessage (work : Work) (echo : Candidate) (j : Journal) : Option (Bytes × MessageRow) :=
  j.messages.rows.find? fun r =>
    r.2.source = echo.guid && r.2.sourceRow = echo.row && r.2.dateNs = echo.date &&
    r.2.text = echo.text && routed j r.2 (some work.mode) (some work.route)

def claimed (j : Journal) (work : Work) (mid : Bytes) : Bool :=
  j.sendRequests.rows.any (fun r => r.2.messageId = some mid) ||
    j.sendParts.rows.any fun p =>
      p.2.messageId = some mid && p.1 != (work.request.requestId, work.position)

def competingText (j : Journal) (work : Work) (m : MessageRow) : Bool :=
  j.sendRequests.rows.any fun r =>
    r.2.epoch = work.request.serverEpoch &&
    (r.2.state = .dispatching || r.2.state = .unknown || r.2.state = .submitted) &&
    r.2.messageId.isNone && afterFloor m r.2.sourceFloor && m.text = r.2.record.text &&
    (r.2.dispatchMs.any fun t => inWindow m.dateNs t) &&
    routed j m (some r.2.mode) (some r.2.route)

def competingParts (j : Journal) (work : Work) (m : MessageRow) :
    List ((Bytes × Nat) × SendPartRow) :=
  j.sendParts.select fun key p =>
    ((j.sendRequests.get? key.1).any fun r => r.epoch = work.request.serverEpoch) &&
    key != (work.request.requestId, work.position) &&
    (p.state = .dispatching || p.state = .invoked || p.state = .unknown || p.state = .submitted) &&
    p.messageId.isNone && afterFloor m p.sourceFloor &&
    (p.dispatchMs.any fun t => inWindow m.dateNs t) && routed j m p.mode p.route

def sameContent (j : Journal) (work : Work) (echo : Candidate)
    (other : (Bytes × Nat) × SendPartRow) : Bool :=
  match (j.sendRequests.get? other.1.1).map fun r => r.record with
  | none => false
  | some v =>
    match v.parts[other.1.2]? with
    | none => false
    | some part =>
      match part.kind with
      | .text => v.text = echo.text
      | .attachment =>
        echo.hasAttachments &&
          match fileFor work with
          | none => true
          | some file => v.attachments.any fun upload =>
              some upload.id = part.attachmentId && file.name = upload.name &&
                file.bytes = upload.bytes && file.sha256 = upload.sha256

def available (j : Journal) (work : Work) (echo : Candidate) (mid : Bytes) (m : MessageRow) :
    Bool :=
  !claimed j work mid && !competingText j work m &&
    (competingParts j work m).length ≤ 256 &&
    !(competingParts j work m).any (sameContent j work echo)

def matched (j : Journal) (work : Work) (part : SendPart) : Option Candidate → Option Bytes
  | none => none
  | some echo =>
    match matchingMessage work echo j with
    | some (mid, m) =>
      if m.status = echo.status && (part.messageId.isSome || available j work echo mid m) then
        some mid
      else none
    | none => none

def observedAs : ObservedStatus → Option Sends.Observed
  | .delivered => some .delivered
  | .failed => some .failed
  | .sent | .unknown => some .submitted
  | .received => none

/-- The new record, and whether the match is confirmed; `none` when nothing
changes. The outer `none` is a reached `unreachable`. -/
def published (now : Int) (work : Work) (request : SendRequest) (part : SendPart)
    (candidate : Option Candidate) (mid : Option Bytes) :
    Option (Option (SendRequest × Bool)) :=
  let status := candidate.map fun echo => echo.status
  let confirmed := mid.isSome && work.time + observationWindowMs ≤ now
  if !Sends.observable part then some none
  else if part.messageId.any fun previous => previous != mid.getD [] then some none
  else if !confirmed && part.candidateMessageId.getD [] = mid.getD [] then some none
  else if confirmed && part.state = .submitted && status != some .delivered &&
      status != some .failed then some none
  else if confirmed then do
    let observed ← status.bind observedAs
    let request ← Sends.observe request work.position (mid.getD []) observed
    some (some (request, true))
  else some (some ({ request with
    parts := request.parts.modify work.position fun p =>
      { p with candidateMessageId := mid } }, false))

/-- A delivered attachment no longer needs its original. -/
def releaseDelivered (request : SendRequest) (position : Nat) (confirmed : Bool) : Tx Unit := do
  let part ← Sql.orThrow .panic request.parts[position]?
  if confirmed && part.kind = .attachment && part.state = .delivered then
    let attachment ← Sql.orThrow .panic part.attachmentId
    Uploads.releasePart request.requestId attachment
  else
    return ()

def publish (now : Int) (readReady : Bool) (work : Work) (candidate : Option Candidate) :
    Tx Unit := do
  let epoch ← Sql.query (·.epoch)
  let identity ← progress "identity"
  if !readReady || work.request.serverEpoch != epoch || work.sourceIdentity != identity.getD [] then
    return ()
  else
    let row ← Sql.query (·.sendRequests.get? work.request.requestId)
    let row ← Sql.orThrow .panic row
    let part ← Sql.orThrow .panic row.record.parts[work.position]?
    let mid ← Sql.query fun j => matched j work part candidate
    let change ← Sql.orThrow .panic (published now work row.record part candidate mid)
    match change with
    | none => return ()
    | some (request, confirmed) =>
      Sql.transaction do
        let _ ← updateRequest now request
        releaseDelivered request work.position confirmed

end Zimbr.Relay.Observation
