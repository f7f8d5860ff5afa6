import Zimbr.Library.Machine
import Zimbr.Relay.Reset

set_option autoImplicit false

/-!
# The relay process

The threads of the relay share one journal under a mutex, so a run is an
interleaving of critical sections. A crash inside a transaction leaves what the
rolled-back transaction leaves.
-/
namespace Zimbr.Relay
open Library

/-- What the sender's worker holds between its critical sections. -/
inductive Sender where
  | idle
  | prepared (work : Work)
  | automated (work : Work) (outcome : Sends.Outcome) (result : Automation)
  /-- The last result may be uncommitted: recover before dispatching again. -/
  | recovering

/-- A request handler, an ingestion pass or a maintenance task. -/
inductive Section where
  | post (input : SendInput) (ready : Bool) (owner : Bytes)
  | ingest (resets : Bool) (first parts : List IngestOp) (imports : Bytes → List IngestOp)
    (last : List IngestOp)
  | write (ops : List IngestOp)
  | prune (countLimit : Int)
  | reserve (owner epoch : Bytes) (file : Upload)
  | claim (owner epoch id : Bytes)
  | complete (lease : Uploads.Lease)
  | abandon (lease : Uploads.Lease)
  | cancel (owner epoch id : Bytes)
  | expire
  | purge (id : Bytes)

namespace Section

/-- The send of `POST /v1/messages`. -/
def accepting (now : Int) (input : SendInput) (ready : Bool) (owner : Bytes) : Tx Accepted :=
  if input.attachments = [] then accept now input ready
  else acceptAttachments now input ready owner

/-- The section's work; a post returns the request it inserted. -/
def tx (enc : Encoding) (now : Int) : Section → Tx (Option Bytes)
  | .post input ready owner => do
    let accepted ← accepting now input ready owner
    return if accepted.fresh then some input.requestId else none
  | .ingest resets first parts imports last => do
    Relay.ingest enc now resets first parts imports last
    return none
  | .write ops => do
    Sql.transaction (Sql.each (perform enc now) ops)
    return none
  | .prune countLimit => do
    Relay.prune now countLimit
    return none
  | .reserve owner epoch file => do
    let _ ← Uploads.reserve owner epoch file now
    return none
  | .claim owner epoch id => do
    let _ ← Uploads.claim owner epoch id
    return none
  | .complete lease => do
    Uploads.complete lease
    return none
  | .abandon lease => do
    Uploads.abandon lease
    return none
  | .cancel owner epoch id => do
    Uploads.cancel owner epoch id
    return none
  | .expire => do
    Uploads.expire now
    return none
  | .purge id => do
    Uploads.purge id
    return none

/-- Maintenance, and the end of a transfer, also happen while the relay waits
for its reset. -/
def maintains : Section → Bool
  | .prune _ | .expire | .purge _ | .complete _ | .abandon _ => true
  | _ => false

def ledger : Section → Bool
  | .reserve _ _ _ | .claim _ _ _ | .complete _ | .abandon _ | .cancel _ _ _ | .expire
  | .purge _ => true
  | _ => false

def reconciles : Section → Bool
  | .ingest _ _ _ _ _ => true
  | _ => false

def resets : Section → Bool
  | .ingest resets _ _ _ _ => resets
  | _ => false

end Section

/-- What one critical section finds: the clock, which statements fail, and the
identifiers it may draw. -/
structure Env where
  now : Int
  faults : List Bool := []
  fresh : List Bytes := []

inductive Invocation where
  /-- A staged file was unavailable: the automation was not called. -/
  | refused (code : String)
  | called (result : Automation)
  /-- The worker ran out of memory, before or after calling the automation. -/
  | lost (ran : Bool)
  deriving DecidableEq, Repr

def Invocation.calls : Invocation → Bool
  | .refused _ => false
  | .called _ => true
  | .lost ran => ran

inductive Action where
  | launch (env : Env)
  | crash
  | critical (env : Env) (s : Section)
  | prepareSend (env : Env) (gate : Bool) (source : Option Source)
  | invoke (invocation : Invocation)
  | commitResult (env : Env)
  | recover (env : Env)
  | prepareObservation (env : Env) (gate : Bool)
  | publish (env : Env) (readReady : Bool) (candidate : Option Observation.Candidate)
  | reset (env : Env) (expected : Bytes)

/-- What is visible outside: an automation call for a text request or one part,
and the insertion of a request. -/
inductive Output where
  | invoked (requestId : Bytes) (part : Option Nat)
  | inserted (requestId : Bytes)
  deriving DecidableEq, Repr

structure Process where
  journal : Journal
  running : Bool := false
  resetRequired : Bool := false
  sender : Sender := .idle
  observer : Option Observation.Work := none
  /-- Ghost: every random identifier offered so far; a new one is none of them. -/
  issued : List Bytes := []

/-- The answer to `POST /v1/reset`: where to resume. It is `fresh` when the request
reset the journal. -/
structure Snapshot where
  fresh : Bool
  serverEpoch : Bytes
  cursor : Bytes
  deriving DecidableEq, Repr

/-- `POST /v1/reset`: a lost response or another client's reset must not reset twice. -/
def postReset (now : Int) (expected : Bytes) : Tx Snapshot := do
  Sql.require (expected.length ≠ 0 && expected.length ≤ 128) .invalidRequest
  let current ← Sql.query (·.epoch)
  if expected = current then
    Sql.transaction do
      reset now
      let epoch ← Sql.query (·.epoch)
      let sequence ← Sql.query (·.sequence)
      return { fresh := true, serverEpoch := epoch, cursor := cursor epoch sequence }
  else do
    Sql.require (validId current) .resyncRequired
    let sequence ← Sql.query (·.sequence)
    return { fresh := false, serverEpoch := current, cursor := cursor current sequence }

/-- Recover interrupted dispatches, unless the journal is incompatible. -/
def startup (now : Int) : Tx Bool := do
  let epoch ← Sql.query (·.epoch)
  if validId epoch then do
    recover now
    return false
  else
    return true

namespace Process

def Unused (p : Process) (env : Env) : Prop :=
  ∀ id ∈ env.fresh, validId id = true ∧ id ∉ p.issued

instance (p : Process) (env : Env) : Decidable (p.Unused env) := by
  unfold Unused
  infer_instance

def conn (p : Process) (env : Env) : Conn Journal Bytes :=
  { db := p.journal, faults := env.faults, fresh := env.fresh }

def locked {α : Type} (p : Process) (env : Env) (m : Tx α) : Except Error α × Process :=
  let (result, c) := m.run (p.conn env)
  (result, { p with journal := c.db, issued := env.fresh ++ p.issued })

def serving (p : Process) : Bool := p.running && !p.resetRequired

/-- An unavailable upload ledger does not stop the relay. -/
def opened (p : Process) (env : Env) : Process :=
  let c := (Uploads.recover.run (p.conn env)).2
  let (result, c) := (startup env.now).run c
  let p := { p with journal := c.db, issued := env.fresh ++ p.issued }
  match result with
  | .ok resetRequired => { p with running := true, resetRequired := resetRequired }
  | .error _ => p

def prepared (p : Process) (env : Env) (gate : Bool) (source : Option Source) : Process :=
  match p.locked env (Relay.prepareSend env.now gate source) with
  | (.ok (some work), p) => { p with sender := .prepared work }
  | (.ok none, p) => p
  | (.error _, p) => { p with sender := .recovering }

def invoked (p : Process) (work : Work) : Invocation → Process
  | .refused code => { p with sender := .automated work (.unstarted code) (.failed code) }
  | .called result => { p with sender := .automated work result.outcome result }
  | .lost _ => { p with sender := .recovering }

def committed (p : Process) (env : Env) (work : Work) (outcome : Sends.Outcome)
    (result : Automation) : Process :=
  match p.locked env (Relay.commitResult env.now work outcome result) with
  | (.ok _, p) => { p with sender := .idle }
  | (.error _, p) => { p with sender := .recovering }

def recovered (p : Process) (env : Env) : Process :=
  match p.locked env (Relay.recover env.now) with
  | (.ok _, p) => { p with sender := .idle }
  | (.error _, p) => p

def observed (p : Process) (env : Env) (gate : Bool) : Process :=
  match p.locked env (Observation.prepare env.now (gate && !p.resetRequired)) with
  | (.ok work, p) => { p with observer := work }
  | (.error _, p) => p

def published (p : Process) (env : Env) (readReady : Bool) (work : Observation.Work)
    (candidate : Option Observation.Candidate) : Process :=
  { (p.locked env (Observation.publish env.now readReady work candidate)).2 with observer := none }

def resetBy (p : Process) (env : Env) (expected : Bytes) : Process :=
  match p.locked env (postReset env.now expected) with
  | (.ok { fresh := true, .. }, p) => { p with resetRequired := false }
  | (_, p) => p

def enabled (p : Process) : Action → Prop
  | .launch env => p.running = false ∧ p.Unused env
  | .crash => True
  | .critical env s => (p.serving || p.running && s.maintains) = true ∧ p.Unused env
  | .prepareSend env _ _ => p.serving = true ∧ p.Unused env
  | .invoke _ => p.running = true
  | .commitResult env => p.running = true ∧ p.Unused env
  | .recover env => p.running = true ∧ p.Unused env
  | .prepareObservation env _ => p.running = true ∧ p.Unused env
  | .publish env _ _ => p.running = true ∧ p.Unused env
  | .reset env _ => p.running = true ∧ p.Unused env

instance (p : Process) (a : Action) : Decidable (p.enabled a) := by
  cases a <;> unfold enabled <;> infer_instance

def resets (p : Process) : Action → Bool
  | .critical _ s => s.resets
  | .reset _ expected => expected = p.journal.epoch
  | _ => false

def apply (enc : Encoding) (p : Process) : Action → Process
  | .launch env => p.opened env
  | .crash => { p with
    -- The cache is a temporary table of the connection.
    journal := { p.journal with sourceMessageCache := .empty }
    running := false
    sender := .idle
    observer := none }
  | .critical env s => (p.locked env (s.tx enc env.now)).2
  | .prepareSend env gate source =>
    match p.sender with
    | .idle => p.prepared env gate source
    | _ => p
  | .invoke invocation =>
    match p.sender with
    | .prepared work => p.invoked work invocation
    | _ => p
  | .commitResult env =>
    match p.sender with
    | .automated work outcome result => p.committed env work outcome result
    | _ => p
  | .recover env =>
    match p.sender with
    | .recovering => p.recovered env
    | _ => p
  | .prepareObservation env gate =>
    match p.observer with
    | none => p.observed env gate
    | some _ => p
  | .publish env readReady candidate =>
    match p.observer with
    | some work => p.published env readReady work candidate
    | none => p
  | .reset env expected => p.resetBy env expected

def step (enc : Encoding) (p : Process) (a : Action) : Process :=
  if p.enabled a then p.apply enc a else p

def emit (enc : Encoding) (p : Process) : Action → List Output
  | .critical env s =>
    match (p.locked env (s.tx enc env.now)).1 with
    | .ok (some id) => [.inserted id]
    | _ => []
  | .invoke invocation =>
    match p.sender with
    | .prepared work => if invocation.calls then [.invoked work.v.requestId work.part] else []
    | _ => []
  | _ => []

def out (enc : Encoding) (p : Process) (a : Action) : List Output :=
  if p.enabled a then p.emit enc a else []

end Process

def relay (enc : Encoding) : Machine Process Action Output where
  step := Process.step enc
  out := Process.out enc

end Zimbr.Relay
