import Zimbr.Relay.Journal

set_option autoImplicit false

/-!
# The sender and echo reconciliation

What the sender's worker and the ingestion pass do to the journal. The
Messages source is an input; the automation runs outside the journal lock.
-/
namespace Zimbr.Relay
open Library

/-- One in-transaction write of an ingestion pass or an enrichment worker. -/
inductive IngestOp where
  | conversation (source : Bytes) (row : Int) (route : Bytes) (value : Conversation)
    (origin : Origin)
  | sourceMessage (source : Bytes) (row date : Int) (value : Message) (origin : Origin)
  | message (source : Bytes) (row date : Int) (value : Message) (origin : Origin)
  | observeIdentity (service address : Bytes)
  | updateIdentity (value : Identity)
  | setProgress (key : String) (value : Bytes)
  | deleteProgress (key : String)
  deriving DecidableEq, Repr

def perform (enc : Encoding) (now : Int) : IngestOp → Tx Unit
  | .conversation source row route value origin => do
    let _ ← conversation now source row route value origin
  | .sourceMessage source row date value origin =>
    sourceMessage enc now source row date value origin
  | .message source row date value origin => message enc now source row date value origin
  | .observeIdentity service address => do
    let _ ← observeIdentity now service address
  | .updateIdentity value => updateIdentity now value
  | .setProgress key value => setProgress key value
  | .deleteProgress key => deleteProgress key

/-- The source database as the sender revalidates it. -/
structure Source where
  identity : Bytes
  high : Int
  guid : Int → Option Bytes
  validateRoute : Route → Except Error Unit

structure Work where
  v : SendRequest
  route : Route
  part : Option Nat
  deriving DecidableEq, Repr

def earlier (a b : Bytes × SendRequestRow) : Bool :=
  a.2.acceptedMs < b.2.acceptedMs || (a.2.acceptedMs = b.2.acceptedMs && decide (a.1 < b.1))

def earliest (best : Option (Bytes × SendRequestRow)) (r : Bytes × SendRequestRow) :
    Option (Bytes × SendRequestRow) :=
  match best with
  | none => some r
  | some b => if earlier r b then some r else some b

/-- `WHERE state='queued' ORDER BY accepted_ms,id LIMIT 1`. -/
def queueHead (j : Journal) : Option (Bytes × SendRequestRow) :=
  (j.sendRequests.select fun _ r => r.state = .queued).foldl earliest none

def rejected (v : SendRequest) (code : String) : Option SendRequest :=
  if v.parts = [] then
    some { v with
      state := .failed
      errorInfo := some {
        code := code, message := "The saved target is no longer available." } }
  else do
    let position ← Sends.next v
    let v ← Sends.start v position
    Sends.finish v position (.unstarted code)

def rejectQueued (now : Int) (v : SendRequest) (code : String) : Tx Unit := do
  let v ← Sql.orThrow .panic (rejected v code)
  Sql.transaction do
    let _ ← updateRequest now v

def dispatching (v : SendRequest) : Option (SendRequest × Option Nat) :=
  if v.parts = [] then some ({ v with state := .dispatching }, none)
  else do
    let position ← Sends.next v
    let v ← Sends.start v position
    some (v, some position)

/-- The source boundary captured before the dispatch. -/
def setBoundary (now high : Int) (route : Route) (id : Bytes) (part : Option Nat) (j : Journal) :
    Journal :=
  match part with
  | some position => { j with
      sendParts := j.sendParts.modify (id, position) fun r => { r with
        dispatchMs := some now, sourceFloor := some high, mode := some route.mode
        route := some route.destination } }
  | none => { j with
      sendRequests := j.sendRequests.modify id fun r => { r with
        dispatchMs := some now, sourceFloor := some high, mode := route.mode
        route := route.destination } }

def beginDispatch (now high : Int) (v : SendRequest) (route : Route) : Tx Work :=
  Sql.transaction do
    let (v, part) ← Sql.orThrow .panic (dispatching v)
    let _ ← updateRequest now v
    Sql.execute (setBoundary now high route v.requestId part)
    return { v := v, route := route, part := part }

def findRoute (target : Target) (j : Journal) : Option (Option Route) :=
  match target.recipient, target.conversationId with
  | some r, _ => some (some { mode := .direct, destination := r.address })
  | none, some id => some (((j.conversations.get? id).filter fun r =>
      r.service = text "imessage").map fun r => { mode := .chat, destination := r.route })
  | none, none => none

/-- Revalidate the source immediately before dispatch; ingestion handles resets. -/
def revalidate (source : Source) : Tx Unit := do
  let identity ← progress "identity"
  Sql.require (source.identity = identity.getD []) .resyncRequired
  let live ← position "live"
  let anchor ← progress "anchor"
  Sql.require (live ≤ source.high && (source.guid live).getD [] = anchor.getD []) .resyncRequired

/-- `gate`: the source was read in the last five seconds and automation works. -/
def prepareSend (now : Int) (gate : Bool) (source : Option Source) : Tx (Option Work) := do
  if !gate then
    return none
  else
    let head ← Sql.query queueHead
    match head with
    | none => return none
    | some (_, row) => do
      let v := row.record
      let epoch ← Sql.query (·.epoch)
      Sql.require (row.epoch = epoch) .resyncRequired
      let route ← Sql.query (findRoute v.target)
      let route ← Sql.orThrow .panic route
      match route with
      | none => do
        rejectQueued now v "unsupported_target"
        return none
      | some route => do
        let source ← Sql.orThrow .databaseFailure source
        revalidate source
        match source.validateRoute route with
        | .error .unsupportedTarget => do
          rejectQueued now v "unsupported_target"
          return none
        | .error e => Sql.throw e
        | .ok () => do
          let work ← beginDispatch now source.high v route
          return some work

inductive Automation where
  | completed
  | uncertain (reason : String)
  | failed (reason : String)
  deriving DecidableEq, Repr

def Automation.outcome : Automation → Sends.Outcome
  | .completed => .invoked
  | .uncertain reason => .uncertain reason
  | .failed reason => .unstarted reason

def automated (v : SendRequest) (result : Automation) : SendRequest :=
  let v := match result with
    | .completed => v
    | .uncertain reason => { v with
        state := .unknown
        errorInfo := some {
          code := reason, message := "Messages automation could not complete the request."
          outcome := .uncertain } }
    | .failed reason => { v with
        state := .failed
        errorInfo := some {
          code := reason, message := "Messages automation could not complete the request."
          outcome := .unstarted } }
  let v := if v.state = .dispatching then { v with state := .unknown } else v
  match v.errorInfo with
  | some _ => v
  | none => { v with errorInfo := some (
      if v.state = .failed then {
        code := "dispatch_unstarted", message := "Messages did not accept this operation." }
      else {
        code := "awaiting_observation"
        message := "Awaiting an unambiguous outgoing Messages record."
        outcome := .uncertain }) }

/-- The result transaction of `dispatchOne`, after the automation ended. A
reset during automation must not overwrite its held state. -/
def commitResult (now : Int) (work : Work) (outcome : Sends.Outcome) (result : Automation) :
    Tx Unit := do
  let epoch ← Sql.query (·.epoch)
  if work.v.serverEpoch ≠ epoch then
    return ()
  else match work.part with
  | some position => do
    -- Observation can advance an earlier part while automation is running.
    let row ← Sql.query (·.sendRequests.get? work.v.requestId)
    let row ← Sql.orThrow .panic row
    let v ← Sql.orThrow .panic (Sends.finish row.record position outcome)
    Sql.transaction do
      let _ ← updateRequest now v
  | none =>
    Sql.transaction do
      let _ ← updateRequest now (automated work.v result)

section Echoes

def observationWindowMs : Int := 10000

/-- Unix milliseconds as nanoseconds of Apple's 2001 epoch. -/
def appleNs (ms : Int) : Int := (ms - 978307200000) * 1000000

/-- Two seconds of timestamp skew before, the observation window after. -/
def inWindow (dateNs dispatchMs : Int) : Bool :=
  appleNs (dispatchMs - 2000) ≤ dateNs && dateNs ≤ appleNs (dispatchMs + observationWindowMs)

def participantsOf (j : Journal) (id : Bytes) : List Bytes :=
  (j.participants.rows.filter fun r => r.1.1 = id).map fun r => r.1.2

/-- The conversation is the chat the route names, or the chat with its only peer. -/
def onRoute (j : Journal) (id : Bytes) (c : ConversationRow) (mode : Mode) (route : Bytes) : Bool :=
  match mode with
  | .chat => c.route = route
  | .direct => (participantsOf j id).length = 1 && (participantsOf j id).contains route

/-- The message is on the route of a send dispatched at `dispatchMs`. -/
def routed (j : Journal) (m : MessageRow) (mode : Option Mode) (route : Option Bytes) : Bool :=
  match mode, route, j.conversations.get? m.conversationId with
  | some mode, some route, some c => onRoute j m.conversationId c mode route
  | _, _, _ => false

def afterFloor (m : MessageRow) (floor : Option Int) : Bool := floor.any fun f => f < m.sourceRow

def unlinked (j : Journal) (messageId : Bytes) : Bool :=
  j.sendRequests.rows.all (fun r => r.2.messageId != some messageId) &&
    j.sendParts.rows.all fun r => r.2.messageId != some messageId

def echoes (j : Journal) (row : SendRequestRow) : List (Bytes × MessageRow) :=
  j.messages.select fun id m =>
    afterFloor m row.sourceFloor && m.direction = .outgoing &&
    ((j.conversations.get? m.conversationId).any fun c => c.service = text "imessage") &&
    m.text = row.record.text && (row.dispatchMs.any fun t => inWindow m.dateNs t) &&
    routed j m (some row.mode) (some row.route) && unlinked j id

def competingRequest (j : Journal) (v : SendRequest) (m : MessageRow) : Bool :=
  j.sendRequests.rows.any fun r =>
    r.1 != v.requestId && r.2.epoch = v.serverEpoch &&
    (r.2.state = .dispatching || r.2.state = .unknown || r.2.state = .submitted) &&
    r.2.messageId.isNone && afterFloor m r.2.sourceFloor && m.text = r.2.record.text &&
    (r.2.dispatchMs.any fun t => inWindow m.dateNs t) &&
    routed j m (some r.2.mode) (some r.2.route)

def competingPart (j : Journal) (v : SendRequest) (m : MessageRow) : Bool :=
  j.sendParts.rows.any fun p =>
    match j.sendRequests.get? p.1.1 with
    | some r =>
      r.epoch = v.serverEpoch &&
      (p.2.state = .dispatching || p.2.state = .invoked || p.2.state = .unknown ||
        p.2.state = .submitted) &&
      p.2.messageId.isNone && (r.record.parts[p.1.2]?.any fun part => part.kind = .text) &&
      afterFloor m p.2.sourceFloor && m.text = r.record.text &&
      (p.2.dispatchMs.any fun t => inWindow m.dateNs t) && routed j m p.2.mode p.2.route
    | none => false

def linkedStatus : ObservedStatus → SendStatus
  | .delivered => .delivered
  | .failed => .failed
  | _ => .submitted

def reportedFailure : SafeError where
  code := "observed_failure"
  message := "Messages reported failure."
  outcome := .uncertain

def reconciled (j : Journal) (now : Int) (v : SendRequest) (row : SendRequestRow) :
    Option SendRequest :=
  let found := (echoes j row).take 2
  let unique := match found with
    | [(id, m)] =>
      if competingRequest j v m || competingPart j v m then none else some (id, m.status)
    | _ => none
  match unique with
  | some (id, status) =>
    if row.dispatchMs.all fun t => now < t + observationWindowMs then
      if v.candidateMessageId.getD [] = id then none
      else some { v with candidateMessageId := some id }
    else some { v with
      messageId := some id
      candidateMessageId := none
      state := linkedStatus status
      errorInfo := if linkedStatus status = .failed then some reportedFailure else none }
  | none =>
    if v.candidateMessageId.getD [] = [] then none
    else some { v with candidateMessageId := none }

def refreshed (v : SendRequest) : ObservedStatus → Option SendRequest
  | .delivered => some { v with state := .delivered, errorInfo := none }
  | .failed => some { v with state := .failed, errorInfo := some reportedFailure }
  | _ => none

def updateIfSome (now : Int) : Option SendRequest → Tx Unit
  | none => return ()
  | some v => do
    let _ ← updateRequest now v

def recordObservation (now : Int) (id : Bytes) (j : Journal) : Option Journal :=
  if j.sendRequests.contains id then
    some { j with sendObservations := j.sendObservations.upsert id now fun _ => now }
  else none

/-- One pending text request; `imports` re-reads the source row of a message. -/
def reconcileRequest (enc : Encoding) (now : Int) (imports : Bytes → List IngestOp)
    (item : Bytes × SendRequestRow) : Tx Unit := do
  let v := item.2.record
  Sql.execute? (recordObservation now v.requestId)
  match v.messageId with
  | some mid => do
    let known ← Sql.query fun j => j.messages.contains mid
    Sql.each (perform enc now) (if known then imports mid else [])
    let status ← Sql.query fun j => (j.messages.get? mid).map fun m => m.status
    updateIfSome now (status.bind (refreshed v))
  | none => do
    let change ← Sql.query fun j => reconciled j now v item.2
    updateIfSome now change

def attempted (j : Journal) (r : Bytes × SendRequestRow) : Int × Int :=
  ((j.sendObservations.get? r.1).getD 0, r.2.dispatchMs.getD 0)

def before (a b : Int × Int) : Prop := a.1 < b.1 ∨ (a.1 = b.1 ∧ a.2 ≤ b.2)

instance (a b : Int × Int) : Decidable (before a b) := by
  unfold before
  infer_instance

/-- The least recently attempted pending text requests of the current epoch. -/
def pendingRequests (j : Journal) : List (Bytes × SendRequestRow) :=
  ((j.sendRequests.select fun _ r =>
    (r.state = .submitted || r.state = .unknown) && r.dispatchMs.isSome && r.epoch = j.epoch)
    |>.insertionSort fun a b => before (attempted j a) (attempted j b)).take 100

/-- `parts` re-reads the source rows of submitted parts. -/
def reconcile (enc : Encoding) (now : Int) (parts : List IngestOp)
    (imports : Bytes → List IngestOp) : Tx Unit := do
  Sql.each (perform enc now) parts
  let items ← Sql.query pendingRequests
  Sql.each (reconcileRequest enc now imports) items

end Echoes

/-- One ingestion pass over the source: its resets, imports and reconciliation
commit together. -/
def ingest (enc : Encoding) (now : Int) (resets : Bool) (first : List IngestOp)
    (parts : List IngestOp) (imports : Bytes → List IngestOp) (last : List IngestOp) : Tx Unit :=
  Sql.transaction do
    if resets then reset now
    Sql.each (perform enc now) first
    reconcile enc now parts imports
    Sql.each (perform enc now) last

end Zimbr.Relay
