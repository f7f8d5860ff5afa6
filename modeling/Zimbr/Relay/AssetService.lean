import Zimbr.Library.Machine
import Zimbr.Relay.AssetWork

set_option autoImplicit false

/-!
# The asset service

One conversion lane at a time, with requests, ingestion and resets between any two
of its critical sections. Files, helpers and the contact store are inputs.
-/
namespace Zimbr.Relay
open Library AssetStore

/-- Where the holder of `worker_busy` stands. -/
inductive Lane where
  | idle
  | checking (epoch : Bytes) (rest : List AssetStore.Source)
  | choosing (contact : Bool)
  | collecting (job : Job)
  | admitting (job : Job)
  | reading (job : Job)
  /-- The input is open, or could not be opened for that reason. -/
  | transforming (job : Job) (signature : Option Bytes) (refused : Option Int)
  | maintaining

namespace Lane

def inspecting (epoch : Bytes) : List AssetStore.Source → Lane
  | [] => .choosing false
  | source :: rest => .checking epoch (source :: rest)

def ended (contact : Bool) : Lane := if contact then .idle else .maintaining

def done (job : Job) : Lane := .ended (decide (job.source.kind = .contact))

end Lane

structure AssetService where
  store : AssetStore
  lane : Lane := .idle
  /-- The requests that read a cached file, by connection. -/
  requests : Table Nat (AssetKey × Lookup) := .empty
  /-- Ghost: every random identifier offered so far; a new one is none of them. -/
  issued : List Bytes := []

inductive AssetAction where
  /-- Everything else writes the journal. -/
  | elsewhere (journal : Journal)
  | reset (env : Env)
  | attach (env : Env) (owner : Bytes) (value : Message) (sources : List AttachmentSource)
  | previews (env : Env) (owner : Bytes) (value : Message) (artwork : List Artwork)
  | avatar (env : Env) (identity : Bytes) (photo : Option (Bytes × Bytes))
  | prioritize (ids : List Bytes)
  | request (env : Env) (token : Nat) (present : Bool) (id version : Bytes)
    (variant : AssetVariant)
  | respond (env : Env) (token : Nat) (present valid : Bool) (ifNoneMatch bytes : Option Bytes)
  | check (env : Env)
  | inspect (env : Env) (opened : Except Int Bytes)
  | contactWork
  | choose (env : Env)
  | collect (env : Env)
  | approve (env : Env)
  | read (env : Env) (input : Except Int Bytes) (photoCurrent : Bool)
  | convert (env : Env) (made : Made) (photoCurrent unchanged installed : Bool)
  | maintain (env : Env)
  | release
  | crash

namespace AssetAction

def env? : AssetAction → Option Env
  | .elsewhere _ | .prioritize _ | .contactWork | .release | .crash => none
  | .reset env | .attach env _ _ _ | .previews env _ _ _ | .avatar env _ _
  | .request env _ _ _ _ _ | .respond env _ _ _ _ _ | .check env | .inspect env _ | .choose env
  | .collect env | .approve env | .read env _ _ | .convert env _ _ _ _ | .maintain env => some env

end AssetAction

inductive AssetOutput where
  | published (key : AssetKey) (hash : Bytes) (bytes : Bytes)
  /-- The entity tag, and the bytes unless the client has them. -/
  | served (key : AssetKey) (etag : Bytes) (body : Option Bytes)

namespace AssetService

variable (sha256 : Bytes → Vector UInt8 32) (hashId : Bytes → Bytes) (enc : Encoding)

def enabled (h : AssetService) (a : AssetAction) : Prop :=
  ∀ env, a.env? = some env → ∀ id ∈ env.fresh, id ∉ h.issued

instance instDecidableEnabled (h : AssetService) (a : AssetAction) : Decidable (h.enabled a) :=
  decidable_of_iff (∀ env ∈ a.env?, ∀ id ∈ env.fresh, id ∉ h.issued) Iff.rfl

def locked {α : Type} (h : AssetService) (env : Env) (m : StoreTx α) :
    Except Error α × AssetService :=
  let (result, c) := m.run { db := h.store, faults := env.faults, fresh := env.fresh }
  (result, { h with store := c.db, issued := env.fresh ++ h.issued })

/-- The names in the path are checked before the lock. -/
def requested (h : AssetService) (env : Env) (token : Nat) (present : Bool) (id version : Bytes)
    (variant : AssetVariant) : AssetService :=
  if !(validId id && validId version) || (variant = .avatar && !present) ||
      h.requests.contains token then h
  else match h.locked env (Sql.transaction (lookup env.now id version variant)) with
  | (.ok value, h) =>
    if value.ref.availability = .ready && value.fileName.isSome && value.etag.isSome then { h with
      requests := h.requests.upsert token ((id, version, variant), value)
        fun _ => ((id, version, variant), value) }
    else h
  | (.error _, h) => h

/-- The size of the representation, unless its record is invalid. -/
def sizeOf (value : Lookup) : Option Nat :=
  (parseInt (value.ref.bytes.getD [])).bind fun n =>
    if 0 ≤ n && n ≤ (maxDerivative : Int) then some n.toNat else none

/-- The bytes of the file if they have the recorded size and hash. -/
def verified (value : Lookup) (bytes : Option Bytes) : Option Bytes :=
  (sizeOf value).bind fun size => bytes.filter fun b =>
    b.length = size && 0 < size && value.etag = some (digest sha256 b)

/-- The second lookup, after the file was read. -/
def respondTx (now : Int) (key : AssetKey) (value : Lookup) (bytes : Option Bytes) :
    StoreTx (Option Bytes) :=
  match verified sha256 value bytes with
  | none => Sql.transaction do
    let _ ← lookup now key.1 key.2.1 key.2.2
    evicted enc now value
    return none
  | some b => do
    let _ ← lookup now key.1 key.2.1 key.2.2
    return some b

def responded (h : AssetService) (env : Env) (token : Nat) (present : Bool)
    (bytes : Option Bytes) : Option (AssetKey × Lookup × Bytes) × AssetService :=
  match h.requests.get? token with
  | none => (none, h)
  | some (key, value) =>
    let h := { h with requests := h.requests.deleteWhere fun other _ => other = token }
    if (sizeOf value).isNone || (key.2.2 = .avatar && !present) then (none, h)
    else match h.locked env (respondTx sha256 enc env.now key value bytes) with
    | (.ok (some b), h) => (some (key, value, b), h)
    | (_, h) => (none, h)

def checked (h : AssetService) (env : Env) : AssetService :=
  match h.lane with
  | .idle =>
    match h.locked env (dueSources env.now) with
    | (.ok (epoch, due), h) => { h with lane := .inspecting epoch due }
    | (.error _, h) => { h with lane := .choosing false }
  | _ => h

def inspected (h : AssetService) (env : Env) (opened : Except Int Bytes) : AssetService :=
  match h.lane with
  | .checking epoch (source :: rest) =>
    match h.locked env (checkSource enc env.now epoch source opened) with
    | (.ok _, h) => { h with lane := .inspecting epoch rest }
    | (.error _, h) => { h with lane := .choosing false }
  | _ => h

def chosen (h : AssetService) (env : Env) : AssetService :=
  match h.lane with
  | .choosing contact =>
    match h.locked env (nextJob env.now contact) with
    | (.ok (some job), h) => { h with lane := .collecting job }
    | (_, h) => { h with lane := .ended contact }
  | _ => h

def collected (h : AssetService) (env : Env) : AssetService :=
  match h.lane with
  | .collecting job =>
    match h.locked env (AssetStore.collect enc env.now maxDerivative) with
    | (.ok _, h) => { h with lane := .admitting job }
    | (.error _, h) => { h with lane := .idle }
  | _ => h

def admitted (h : AssetService) (env : Env) : AssetService :=
  match h.lane with
  | .admitting job =>
    match h.locked env enoughSpace with
    | (.ok true, h) => { h with lane := .reading job }
    | (_, h) => { h with lane := .done job }
  | _ => h

/-- The embedded payload of a job: none once it is stale, else why it is not there. -/
def payloadInput (job : Job) : StoreTx (Option (Option Int)) := do
  let live ← Sql.query (isCurrent job.epoch job.source)
  if !live then return none
  else do
    let blob ← Sql.query fun s => s.blobs.get? job.source.id
    match blob with
    | none => return some (some (-2))
    | some bytes => if digest sha256 bytes = job.source.path then return some none else return none

def photoRead (h : AssetService) (env : Env) (job : Job) (photoCurrent : Bool) (bytes : Bytes) :
    AssetService :=
  let signature := transformVersion ++ text ":" ++ digest sha256 bytes
  if bytes = [] || maxDerivative < bytes.length || !photoCurrent then { h with lane := .done job }
  else match h.locked env (checkPhoto enc env.now job signature) with
  | (.ok true, h) => { h with lane := .transforming job (some signature) none }
  | (_, h) => { h with lane := .done job }

def opened (h : AssetService) (env : Env) (input : Except Int Bytes) (photoCurrent : Bool) :
    AssetService :=
  match h.lane with
  | .reading job =>
    match job.source.kind, input with
    | .contact, .ok bytes => h.photoRead sha256 enc env job photoCurrent bytes
    | .payload, _ =>
      match h.locked env (payloadInput sha256 job) with
      | (.ok (some refused), h) => { h with lane := .transforming job none refused }
      | (_, h) => { h with lane := .done job }
    | .attachment, .ok fingerprint =>
      let refused := if fingerprint = job.source.fingerprint then none else some (-7)
      { h with lane := .transforming job none refused }
    | _, .error code => { h with lane := .transforming job none (some code) }
  | _ => h

def outcome (job : Job) (refused : Option Int) (made : Made) (unchanged : Bool) : Made :=
  match refused with
  | some code => .error code
  | none =>
    match mediaConvert job.variant made with
    | .ok result =>
      if job.source.kind = .attachment && !unchanged then .error (-7) else .ok result
    | .error code => .error code

/-- The derivative replaces the cached file unless another one is on record. -/
def installs (job : Job) : Made → Bool
  | .ok (_, output) => job.etag.all fun tag => tag = digest sha256 output
  | .error _ => false

def hashed : Made → Except Int (ImageInfo × Bytes)
  | .ok (info, output) => .ok (info, digest sha256 output)
  | .error code => .error code

def converted (h : AssetService) (env : Env) (made : Made)
    (photoCurrent unchanged installed : Bool) : Option (AssetKey × Bytes) × AssetService :=
  match h.lane with
  | .transforming job signature refused =>
    let result := outcome job refused made unchanged
    if (job.source.kind = .contact && !photoCurrent) ||
        (installs sha256 job result && !installed) then (none, { h with lane := .done job })
    else match result, h.locked env
        (completed enc env.now job signature (hashed sha256 result)) with
    | .ok (_, output), (.ok true, h) => (some (job.key, output), { h with lane := .done job })
    | _, (_, h) => (none, { h with lane := .done job })
  | _ => (none, h)

def maintained (h : AssetService) (env : Env) : AssetService :=
  match h.lane with
  | .maintaining => { (h.locked env (AssetStore.collect enc env.now 0)).2 with lane := .idle }
  | _ => h

def apply (h : AssetService) : AssetAction → AssetService
  | .elsewhere journal => { h with store := { h.store with journal := journal } }
  | .reset env => (h.locked env (resetStore env.now)).2
  | .attach env owner value sources =>
    (h.locked env (Sql.transaction (AssetStore.attach enc env.now owner value sources))).2
  | .previews env owner value artwork =>
    (h.locked env (Sql.transaction
      (AssetStore.previews sha256 hashId enc env.now owner value artwork))).2
  | .avatar env identity photo =>
    (h.locked env (Sql.transaction (AssetStore.avatar enc env.now identity photo))).2
  | .prioritize ids => { h with store := touchSources (fun id _ => id ∈ ids) h.store }
  | .request env token present id version variant =>
    h.requested env token present id version variant
  | .respond env token present _ _ bytes => (h.responded sha256 enc env token present bytes).2
  | .check env => h.checked env
  | .inspect env opened => h.inspected enc env opened
  | .contactWork =>
    match h.lane with
    | .idle => { h with lane := .choosing true }
    | _ => h
  | .choose env => h.chosen env
  | .collect env => h.collected enc env
  | .approve env => h.admitted env
  | .read env input photoCurrent => h.opened sha256 enc env input photoCurrent
  | .convert env made photoCurrent unchanged installed =>
    (h.converted sha256 enc env made photoCurrent unchanged installed).2
  | .maintain env => h.maintained enc env
  | .release => { h with lane := .idle }
  | .crash => { h with lane := .idle, requests := .empty }

def step (h : AssetService) (a : AssetAction) : AssetService :=
  if h.enabled a then h.apply sha256 hashId enc a else h

/-- The response: no bytes for a client that has them. -/
def served (key : AssetKey) (etag : Bytes) (ifNoneMatch : Option Bytes) (b : Bytes) : AssetOutput :=
  let unchanged := ifNoneMatch.any fun tag =>
    tag = text "\"" ++ etag ++ text "\"" || tag = text "*"
  .served key etag (if unchanged then none else some b)

def response (valid : Bool) (ifNoneMatch : Option Bytes) :
    Option (AssetKey × Lookup × Bytes) → List AssetOutput
  | some (key, value, b) =>
    match value.etag, value.ref.mimeType with
    | some etag, some _ => if valid then [served key etag ifNoneMatch b] else []
    | _, _ => []
  | none => []

def publication : Option (AssetKey × Bytes) → List AssetOutput
  | some (key, output) => [.published key (digest sha256 output) output]
  | none => []

def emit (h : AssetService) : AssetAction → List AssetOutput
  | .respond env token present valid ifNoneMatch bytes =>
    response valid ifNoneMatch (h.responded sha256 enc env token present bytes).1
  | .convert env made photoCurrent unchanged installed =>
    publication sha256 (h.converted sha256 enc env made photoCurrent unchanged installed).1
  | _ => []

def out (h : AssetService) (a : AssetAction) : List AssetOutput :=
  if h.enabled a then h.emit sha256 enc a else []

end AssetService

def assetService (sha256 : Bytes → Vector UInt8 32) (hashId : Bytes → Bytes) (enc : Encoding) :
    Machine AssetService AssetAction AssetOutput where
  step := AssetService.step sha256 hashId enc
  out := AssetService.out sha256 enc

end Zimbr.Relay
