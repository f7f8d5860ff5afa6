import Mathlib.Data.List.Sort
import Zimbr.Library.Totals
import Zimbr.Relay.AssetStore

set_option autoImplicit false

/-!
# The work on assets

Sources are inspected and converted outside the lock. What is found is kept only
while the version that it was found for is current.
-/
namespace Zimbr.Relay.AssetStore
open Library

variable (enc : Encoding)

def dueSources (now : Int) : StoreTx (Bytes × List Source) := do
  let epoch ← Sql.query fun s => s.journal.epoch
  let due ← Sql.query fun s => (s.sources.select fun id r =>
    r.kind = .attachment && r.checkMs ≤ now && s.owned id)
  let sorted := due.mergeSort fun a b =>
    a.2.checkMs < b.2.checkMs || (a.2.checkMs = b.2.checkMs && a.1 ≤ b.1)
  return (epoch, (sorted.take 16).map sourceRow)

/-- The text of a failed inspection stands in for the fingerprint. -/
def signatureOf : Except Int Bytes → Bytes
  | .ok fingerprint => fingerprint
  | .error code => text "error:" ++ signed code

/-- Three seconds to the next check, or a backoff from one second to thirty. -/
def checkDelay (opened : Except Int Bytes) (attempts : Int) : Int :=
  if opened.isOk then 3000 else min (1000 * 2 ^ attempts.toNat) 30000

def missing (code : Int) : Availability × Bytes :=
  if code = -2 then (.notLocal, text "not_local")
  else if code = -3 then (.unavailable, text "unsafe_source")
  else if code = -4 then (.oversized, text "source_too_large")
  else (.unavailable, text "source_unavailable")

def offerAll (now : Int) (refs : List AssetRef) : StoreTx Unit :=
  Sql.each (fun ref => do
    let _ ← offer now ref false
    return ()) refs

def sign (id signature : Bytes) (s : AssetStore) : AssetStore :=
  { s with sources := s.sources.modify id fun r => { r with fingerprint := signature } }

/-- The version that goes with the signature: a new one where another was known. -/
def versionFor (original : Source) (signature : Bytes) : StoreTx Bytes :=
  if original.fingerprint ≠ [] then rotate original original.path signature
  else do
    Sql.execute (sign original.id signature)
    return original.version

def resigned (now : Int) (original : Source) (signature : Bytes) : StoreTx Source :=
  if signature = original.fingerprint then return original
  else do
    let version ← versionFor original signature
    Sql.execute (touchWork (fun key => key.1 = original.id && key.2.1 = version) 0)
    publishOwners enc now original.id
    return { original with version := version, fingerprint := signature }

/-- One source of the batch, `opened` as its inspection ended. -/
def checkSource (now : Int) (epoch : Bytes) (original : Source) (opened : Except Int Bytes) :
    StoreTx Unit := Sql.transaction do
  let live ← Sql.query (isCurrent epoch original)
  if !live then return ()
  else do
    let source ← resigned enc now original (signatureOf opened)
    let attempts := if opened.isOk then 0 else min (original.attempts + 1) 6
    Sql.execute fun s => { s with sources := s.sources.modify source.id fun r =>
      { r with checkMs := now + checkDelay opened attempts, attempts := attempts } }
    match opened with
    | .error code => state enc now source (missing code).1 (missing code).2
    | .ok _ => do
      let requested ← Sql.query fun s => (s.representations.select fun key r =>
        key.1 = source.id && key.2.1 = source.version && r.requested).map fun r => r.2.record
      offerAll now requested

structure Job where
  source : Source
  variant : AssetVariant
  epoch : Bytes
  etag : Option Bytes
  deriving DecidableEq, Repr

def Job.key (job : Job) : AssetKey := (job.source.id, job.source.version, job.variant)

/-- Contacts whose requested photo has not been validated since the last scan. -/
def unvalidated (s : AssetStore) : List (Bytes × AssetSource) :=
  s.sources.select fun id r => r.kind = .contact && r.checkMs = 0 &&
    (s.representations.get? (id, r.version, .avatar)).any Representation.requested &&
    !(s.work.rows.any fun w => w.1.1 = id) && s.owned id

def queueContacts (s : AssetStore) : AssetStore := { s with
  work := ((unvalidated s).take (maxQueue - s.work.rows.length)).foldl
    (fun work r => insertOrIgnore work (r.1, r.2.version, .avatar) 0) s.work }

def markQueued (s : AssetStore) : AssetStore := { s with
  sources := s.sources.modifyWhere (fun id r => r.kind = .contact && r.checkMs = 0 &&
    s.work.rows.any fun w => w.1.1 = id && w.1.2.1 = r.version) fun r => { r with checkMs := -1 } }

/-- The job of a queued row: its version is current, and it has an owner. -/
def jobOf (contact : Bool) (s : AssetStore) (key : AssetKey) : Option Job := do
  let source ← s.sources.get? key.1
  let row ← s.representations.get? key
  if source.version = key.2.1 && decide (source.kind = .contact) == contact && s.owned key.1 then
    some {
      source := sourceRow (key.1, source)
      variant := key.2.2
      epoch := s.journal.epoch
      etag := row.etag.filter fun tag => tag ≠ [] }
  else none

def nextOf (now : Int) (contact : Bool) (s : AssetStore) : Option Job :=
  (((s.work.select fun _ time => time ≤ now).mergeSort fun a b => a.2 ≤ b.2).filterMap fun r =>
    jobOf contact s r.1).head?

def nextJob (now : Int) (contact : Bool) : StoreTx (Option Job) := do
  if contact then
    Sql.transaction do
      Sql.execute queueContacts
      Sql.execute markQueued
  Sql.query (nextOf now contact)

def failAvailability (code : Int) : Availability :=
  if code = -2 then .notLocal
  else if code = -4 then .oversized
  else if code = -5 then .unsupported
  else if code = -7 then .pending
  else .unavailable

def failReason (code : Int) : Bytes :=
  if code = -2 then text "not_local"
  else if code = -3 then text "unsafe_source"
  else if code = -4 then text "image_too_large"
  else if code = -5 then text "unsupported_or_corrupt_image"
  else if code = -6 then text "conversion_timeout"
  else if code = -7 then text "source_changed"
  else if code = -8 then text "helper_unavailable"
  else text "source_unavailable"

def deleteWork (key : AssetKey) (s : AssetStore) : AssetStore :=
  { s with work := s.work.deleteWhere fun other _ => other = key }

/-- Show the failure, and try again later if that may help. -/
def failed (now : Int) (ref : AssetRef) (code : Int) : StoreTx Unit := do
  let ref := { ref with
    availability := failAvailability code, reason := some (failReason code) }
  Sql.execute (setRecord ref id)
  if retryable ref then Sql.execute (touchWork (fun key => key = ref.key) (now + 30000))
  else Sql.execute (deleteWork ref.key)
  publishOwners enc now ref.id

def failJob (now : Int) (job : Job) (code : Int) : StoreTx Unit := do
  let ref ← reference job.source.id job.variant
  if job.source.kind = .contact && ref.availability = .ready then
    if code ≠ -2 && code ≠ -3 && code ≠ -4 && code ≠ -5 then
      -- A transient validation failure does not invalidate known photo bytes.
      Sql.execute (touchWork (fun key => key = ref.key) (now + 30000))
    else do
      let _ ← rotate job.source job.source.path []
      let ref ← reference job.source.id job.variant
      failed enc now ref code
  else failed enc now ref code

def checkPhoto (now : Int) (job : Job) (signature : Bytes) : StoreTx Bool := Sql.transaction do
  let live ← Sql.query (isCurrent job.epoch job.source)
  if !live then return false
  else if job.source.fingerprint ≠ [] && signature ≠ job.source.fingerprint then do
    let _ ← rotate job.source job.source.path signature
    publishOwners enc now job.source.id
    return false
  else do
    let ref ← reference job.source.id job.variant
    if signature = job.source.fingerprint && ref.availability = .ready then do
      Sql.execute (deleteWork ref.key)
      return false
    else return true

structure ImageInfo where
  width : Nat
  height : Nat
  png : Nat
  still : Nat
  bytes : Nat
  deriving DecidableEq, Repr

def edge : AssetVariant → Nat
  | .avatar => 128
  | .inlineImage => 1024
  | .viewer => 2560

def acceptable (variant : AssetVariant) (info : ImageInfo) : Bool :=
  info.width ≠ 0 && info.height ≠ 0 && info.width ≤ edge variant && info.height ≤ edge variant &&
    info.width * info.height * 4 ≤ 32 * 1024 * 1024 && info.bytes ≠ 0 &&
    info.bytes ≤ 8 * 1024 * 1024 && info.png ≤ 1 && info.still ≤ 1

abbrev Made : Type := Except Int (ImageInfo × Bytes)

/-- `zr_media_convert`: metadata outside the limits is refused. -/
def mediaConvert (variant : AssetVariant) : Made → Made
  | .ok (info, output) =>
    if acceptable variant info && output.length = info.bytes then .ok (info, output)
    else .error (-5)
  | .error code => .error code

def variantTag : AssetVariant → Bytes
  | .avatar => text "avatar"
  | .inlineImage => text "inline_image"
  | .viewer => text "viewer"

def fileName (job : Job) : Bytes :=
  job.source.id ++ text "-" ++ job.source.version ++ text "-" ++ variantTag job.variant

def readyRef (job : Job) (info : ImageInfo) : AssetRef where
  id := job.source.id
  version := job.source.version
  variant := job.variant
  availability := .ready
  mimeType := some (if info.png ≠ 0 then text "image/png" else text "image/jpeg")
  bytes := some (decimal info.bytes)
  width := some info.width
  height := some info.height
  stillPreview := decide (info.still ≠ 0)

def publishRow (now : Int) (job : Job) (info : ImageInfo) (hash : Bytes) (s : AssetStore) :
    AssetStore :=
  setRecord (readyRef job info) (fun r => { r with
    etag := some hash, fileName := some (fileName job), bytes := info.bytes
    lastAccessMs := now }) s

/-- The end of `convert`: whether the representation was published. The hash is that
of the bytes that were made. -/
def completed (now : Int) (job : Job) (signature : Option Bytes)
    (result : Except Int (ImageInfo × Bytes)) : StoreTx Bool := Sql.transaction do
  let live ← Sql.query (isCurrent job.epoch job.source)
  if !live then return false
  else match result with
  | .error code => do
    failJob enc now job code
    return false
  | .ok (info, hash) =>
    if job.etag.any fun tag => tag ≠ hash then do
      -- An evicted representation may only reuse its URL if bytes agree.
      let _ ← rotate job.source job.source.path job.source.fingerprint
      publishOwners enc now job.source.id
      return false
    else do
      Sql.each (fun signature => Sql.execute (sign job.source.id signature)) signature.toList
      Sql.execute (publishRow now job info hash)
      Sql.execute (deleteWork job.key)
      publishOwners enc now job.source.id
      return true

structure Candidate where
  ref : AssetRef
  fileName : Bytes
  obsolete : Bool
  retired : Bool
  bytes : Nat
  lastAccessMs : Int

def candidateOf (s : AssetStore) (r : AssetKey × Representation) : Option Candidate := do
  let name ← r.2.fileName
  let source ← s.sources.get? r.1.1
  let retired := decide (r.1.2.1 ≠ source.version)
  return {
    ref := r.2.record
    fileName := name
    obsolete := retired || !s.owned r.1.1
    retired := retired
    bytes := r.2.bytes
    lastAccessMs := r.2.lastAccessMs }

/-- Obsolete ones first, then those that were used the longest ago. -/
def candidates (s : AssetStore) : List Candidate :=
  ((s.representations.rows.filterMap (candidateOf s)).mergeSort fun a b =>
    (a.obsolete && !b.obsolete) ||
      (a.obsolete == b.obsolete && a.lastAccessMs ≤ b.lastAccessMs)).take 64

def usedBytes (s : AssetStore) : Nat := s.representations.total Representation.bytes

def evictFrom (now : Int) (reserve : Nat) : Int → List Candidate → StoreTx (List Bytes)
  | _, [] => return []
  | total, c :: rest =>
    if !c.obsolete && total ≤ (cacheBudget : Int) - reserve then return []
    else do
      if c.retired then
        Sql.execute fun s => { s with
          representations := s.representations.deleteWhere fun key _ => key = c.ref.key }
      else do
        Sql.execute (setRecord (pending c.ref) fun r => { r with
          fileName := none, bytes := 0, requested := false })
        publishOwners enc now c.ref.id
      let names ← evictFrom now reserve (total - c.bytes) rest
      return c.fileName :: names

def sweepRows (s : AssetStore) : AssetStore := { s with
  representations := s.representations.deleteWhere fun key r => r.fileName.isNone &&
    (s.sources.get? key.1).any fun source => key.2.1 ≠ source.version }

def collect (now : Int) (reserve : Nat) : StoreTx (List Bytes) := Sql.transaction do
  let total ← Sql.query usedBytes
  let found ← Sql.query candidates
  let names ← evictFrom enc now reserve total found
  Sql.execute fun s => { s with work := s.work.deleteWhere fun key _ => !s.owned key.1 }
  Sql.execute fun s => { s with blobs := s.blobs.deleteWhere fun id _ => !s.owned id }
  Sql.execute sweepRows
  return names

/-- Room for one more derivative. -/
def enoughSpace : StoreTx Bool := Sql.query fun s => usedBytes s ≤ cacheBudget - maxDerivative

end Zimbr.Relay.AssetStore
