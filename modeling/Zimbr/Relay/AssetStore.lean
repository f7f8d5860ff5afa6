import Zimbr.Library.Zoom
import Zimbr.Protocol.Json
import Zimbr.Relay.MessagesDb
import Zimbr.Relay.System

set_option autoImplicit false

/-!
# The asset store

One durable service for approved local sources. A source has a version, and a
version has its representations: immutable derivatives that clients may keep.
-/
namespace Zimbr
open Library

abbrev AssetKey : Type := Bytes × Bytes × AssetVariant

def AssetRef.key (ref : AssetRef) : AssetKey := (ref.id, ref.version, ref.variant)

namespace Relay

inductive AssetKind where
  | attachment | payload | contact
  deriving DecidableEq, Repr

inductive OwnerKind where
  | identity | message | preview
  deriving DecidableEq, Repr

structure AssetSource where
  kind : AssetKind
  sourceKey : Bytes
  path : Bytes
  version : Bytes
  fingerprint : Bytes := []
  checkMs : Int := 0
  attempts : Int := 0
  deriving DecidableEq, Repr

structure Representation where
  record : AssetRef
  etag : Option Bytes := none
  fileName : Option Bytes := none
  bytes : Nat := 0
  lastAccessMs : Int := 0
  requested : Bool := false
  deriving DecidableEq, Repr

structure AssetStore where
  journal : Journal
  sources : Table Bytes AssetSource := .empty
  representations : Table AssetKey Representation := .empty
  owners : Table (Bytes × OwnerKind × Bytes) Unit := .empty
  work : Table AssetKey Int := .empty
  blobs : Table Bytes Bytes := .empty

abbrev StoreTx (α : Type) : Type := Sql Error AssetStore Bytes α

namespace AssetStore

/-- 8 MiB bounds each encoded derivative. -/
def maxDerivative : Nat := 8 * 1024 * 1024

def maxQueue : Nat := 128

def cacheBudget : Nat := 2 * 1024 * 1024 * 1024

def transformVersion : Bytes := text "image-v1"

/-- What is written outside the asset tables goes to the journal. -/
def onJournal {α : Type} (m : Tx α) : StoreTx α :=
  Sql.zoom AssetStore.journal (fun s j => { s with journal := j }) m

def insertOrIgnore {κ ρ : Type} [DecidableEq κ] (t : Table κ ρ) (k : κ) (v : ρ) : Table κ ρ :=
  (t.insert k v).getD t

def owned (s : AssetStore) (id : Bytes) : Bool := s.owners.rows.any fun r => r.1.1 = id

def current? (s : AssetStore) (id : Bytes) (variant : AssetVariant) : Option AssetRef :=
  (s.sources.get? id).bind fun source =>
    (s.representations.get? (id, source.version, variant)).map Representation.record

def reference (id : Bytes) (variant : AssetVariant) : StoreTx AssetRef := do
  let found ← Sql.query fun s => s.current? id variant
  Sql.orThrow .notFound found

def variants : AssetKind → List AssetVariant
  | .contact => [.avatar]
  | .attachment | .payload => [.inlineImage, .viewer]

def wasRequested (s : AssetStore) (id : Bytes) (variant : AssetVariant) : Bool :=
  s.representations.rows.any fun r => r.1.1 = id && r.1.2.2 = variant && r.2.requested

def newRepresentations (id version : Bytes) (variants : List AssetVariant) : StoreTx Unit :=
  Sql.each (fun variant => Sql.execute fun s => { s with
    representations := insertOrIgnore s.representations (id, version, variant) {
      record := {
        id := id, version := version, variant := variant
        reason := some (text "conversion_pending") }
      requested := s.wasRequested id variant } }) variants

/-- A row of `asset_sources` as the workers read it. -/
structure Source where
  id : Bytes
  kind : AssetKind
  path : Bytes
  version : Bytes
  fingerprint : Bytes
  attempts : Int
  deriving DecidableEq, Repr

def sourceRow (r : Bytes × AssetSource) : Source where
  id := r.1
  kind := r.2.kind
  path := r.2.path
  version := r.2.version
  fingerprint := r.2.fingerprint
  attempts := r.2.attempts

def rotate (source : Source) (path signature : Bytes) : StoreTx Bytes := do
  let version ← Sql.draw .randomUnavailable
  Sql.execute fun s => { s with
    sources := s.sources.modify source.id fun r => { r with
      path := path, version := version, fingerprint := signature, checkMs := 0, attempts := 0 } }
  Sql.execute fun s => { s with work := s.work.deleteWhere fun key _ => key.1 = source.id }
  newRepresentations source.id version (variants source.kind)
  return version

/-- The current reference in place of one to the same asset. -/
def refreshed (id : Bytes) (latest : Option AssetRef) :
    Option AssetRef → Option (Option AssetRef)
  | some ref => if ref.id = id then latest.map some else some (some ref)
  | none => some none

/-- The message with current references to the asset; none where one is missing. -/
def republish (id : Bytes) (inline viewer : Option AssetRef) (v : Message) : Option Message := do
  let attachments ← v.attachments.mapM fun a => do
    let image ← refreshed id inline a.image
    let viewer ← refreshed id viewer a.viewer
    return { a with image := image, viewer := viewer }
  let cards ← (v.linkPreviews.getD []).mapM fun card => do
    let image ← refreshed id inline card.image
    let icon ← refreshed id inline card.icon
    return { card with image := image, icon := icon }
  return { v with attachments := attachments, linkPreviews := v.linkPreviews.map fun _ => cards }

def identityOwners (id : Bytes) (s : AssetStore) : List Identity :=
  (s.owners.select fun key _ => key.1 = id && key.2.1 = .identity).filterMap fun r =>
    (s.journal.identities.get? r.1.2.2).map IdentityRow.record

def messageOwners (id : Bytes) (s : AssetStore) : List MessageRow :=
  (s.journal.messages.rows.filter fun m => s.owners.contains (id, .message, m.2.source) ||
    s.owners.contains (id, .preview, m.2.source)).map Prod.snd

def publishOwners (enc : Encoding) (now : Int) (id : Bytes) : StoreTx Unit := do
  let identities ← Sql.query (identityOwners id)
  Sql.each (fun (value : Identity) =>
    if value.avatar.any fun ref => ref.id = id then do
      let ref ← reference id .avatar
      onJournal (updateIdentity now { value with avatar := some ref })
    else return ()) identities
  let owners ← Sql.query (messageOwners id)
  let owners ← Sql.query fun s => owners.map fun m =>
    (m, republish id (s.current? id .inlineImage) (s.current? id .viewer)
      (Enrichment.full s.journal m.record))
  Sql.each (fun owner => do
    let value ← Sql.orThrow .notFound owner.2
    onJournal (message enc now owner.1.source owner.1.sourceRow owner.1.dateNs value
      .reconciliation)) owners

def sourceOf (kind : AssetKind) (key : Bytes) (s : AssetStore) : Option Source :=
  (s.sources.rows.find? fun r => r.2.kind = kind && r.2.sourceKey = key).map sourceRow

def touchSources (p : Bytes → AssetSource → Bool) (s : AssetStore) : AssetStore :=
  { s with sources := s.sources.modifyWhere p fun r => { r with checkMs := 0 } }

def touchWork (p : AssetKey → Bool) (time : Int) (s : AssetStore) : AssetStore :=
  { s with work := s.work.modifyWhere (fun key _ => p key) fun _ => time }

def register (enc : Encoding) (now : Int) (kind : AssetKind) (key path : Bytes) :
    StoreTx Bytes := do
  let found ← Sql.query (sourceOf kind key)
  match found with
  | some source =>
    if source.path = path then return source.id
    else if kind = .contact then do
      -- A requested thumbnail is validated before its public version changes.
      Sql.execute fun s => { s with
        sources := s.sources.modify source.id fun r => { r with path := path, checkMs := 0 } }
      Sql.execute (touchWork (fun key => key.1 = source.id) 0)
      return source.id
    else do
      let _ ← rotate source path []
      publishOwners enc now source.id
      return source.id
  | none => do
    let id ← Sql.draw .randomUnavailable
    let version ← Sql.draw .randomUnavailable
    Sql.execute? fun s => (s.sources.insert id {
      kind := kind, sourceKey := key, path := path, version := version }).map fun sources =>
        { s with sources := sources }
    newRepresentations id version (variants kind)
    return id

def retryable (ref : AssetRef) : Bool :=
  ref.availability = .pending || ref.availability = .notLocal ||
    (ref.availability = .unavailable &&
      (ref.reason = some (text "helper_unavailable") ||
        ref.reason = some (text "conversion_timeout") ||
        ref.reason = some (text "source_unavailable")))

/-- Whether the queue had room, or nothing had to be queued. -/
def offer (now : Int) (ref : AssetRef) (visible : Bool) : StoreTx Bool :=
  if !retryable ref then return true
  else do
    let queued ← Sql.query fun s => s.work.contains ref.key
    if queued then return true
    else do
      let count ← Sql.query fun s => s.work.rows.length
      if maxQueue ≤ count then return false
      else do
        Sql.execute? fun s => (s.work.insert ref.key (if visible then now else now + 1000)).map
          fun work => { s with work := work }
        return true

def enqueue (now : Int) (ref : AssetRef) (visible : Bool) : StoreTx Unit := do
  let accepted ← offer now ref visible
  Sql.require accepted .assetQueueFull

def own (id : Bytes) (kind : OwnerKind) (owner : Bytes) : StoreTx Unit :=
  Sql.execute? fun s =>
    if s.sources.contains id then
      some { s with owners := insertOrIgnore s.owners (id, kind, owner) () }
    else none

/-- A photo of a contact: the contact, and the text that names the photo. -/
def avatar (enc : Encoding) (now : Int) (identity : Bytes) (photo : Option (Bytes × Bytes)) :
    StoreTx (Option AssetRef) := do
  Sql.execute fun s => { s with
    owners := s.owners.deleteWhere fun key _ => key.2.1 = .identity && key.2.2 = identity }
  match photo with
  | none => return none
  | some (contact, source) => do
    let id ← register enc now .contact contact source
    own id .identity identity
    let ref ← reference id .avatar
    let requested ← Sql.query fun s => (s.representations.get? (id, ref.version, .avatar)).any
      Representation.requested
    if requested then do
      let _ ← offer now ref false
      return some ref
    else return some ref

def registerAll (enc : Encoding) (now : Int) (owner : Bytes) :
    List AttachmentSource → StoreTx (List (Bytes × Bytes))
  | [] => return []
  | source :: rest => do
    let id ← register enc now .attachment source.id source.filename
    own id .message owner
    let registered ← registerAll enc now owner rest
    return (source.id, id) :: registered

def attach (enc : Encoding) (now : Int) (owner : Bytes) (value : Message)
    (sources : List AttachmentSource) : StoreTx Message := do
  let registered ← registerAll enc now owner sources
  Sql.execute fun s => { s with owners := s.owners.deleteWhere fun key _ =>
    key.2.1 = .message && key.2.2 = owner && !(registered.any fun r => r.2 = key.1) }
  let attachments ← Sql.query fun s => value.attachments.mapM fun a =>
    -- Of several sources of one attachment the last counts.
    match registered.reverse.find? fun r => r.1 = a.id with
    | some (_, id) => do
      let image ← s.current? id .inlineImage
      let viewer ← s.current? id .viewer
      return { a with image := some image, viewer := some viewer }
    | none => some a
  let attachments ← Sql.orThrow .notFound attachments
  return { value with attachments := attachments }

/-- Artwork that the payload embeds is kept with its source. -/
def payload (sha256 : Bytes → Vector UInt8 32) (enc : Encoding) (now : Int) (owner : Bytes)
    (item : Artwork) (bytes : Bytes) : StoreTx AssetRef := do
  let key := owner ++ text ":" ++ item.previewId ++ text ":" ++
    text (if item.icon then "icon" else "image")
  let id ← register enc now .payload key (digest sha256 bytes)
  Sql.execute fun s => { s with blobs := s.blobs.upsert id bytes fun _ => bytes }
  reference id .inlineImage

def showArtwork (item : Artwork) (image : AssetRef) (cards : List LinkPreview) :
    List LinkPreview :=
  cards.map fun card =>
    if card.id = item.previewId then
      if item.icon then { card with icon := some image } else { card with image := some image }
    else card

/-- The first attachment with that id, used as artwork. -/
def borrowed (id : Bytes) : List Attachment → Option AssetRef × List Attachment
  | [] => (none, [])
  | a :: rest =>
    if a.id = id then
      (a.image, { a with previewArtwork := a.previewArtwork || a.image.isSome } :: rest)
    else
      let (image, rest) := borrowed id rest
      (image, a :: rest)

def artworkImage (sha256 : Bytes → Vector UInt8 32) (hashId : Bytes → Bytes) (enc : Encoding)
    (now : Int) (owner : Bytes) (item : Artwork) (attachments : List Attachment) :
    StoreTx (Option AssetRef × List Attachment) :=
  match item.data, item.attachmentGuid with
  | some bytes, _ => do
    let image ← payload sha256 enc now owner item bytes
    return (some image, attachments)
  | none, some guid => return borrowed (hashId guid) attachments
  | none, none => return (none, attachments)

def previewsFrom (sha256 : Bytes → Vector UInt8 32) (hashId : Bytes → Bytes) (enc : Encoding)
    (now : Int) (owner : Bytes) : List Artwork → List LinkPreview → List Attachment →
      StoreTx (List LinkPreview × List Attachment)
  | [], cards, attachments => return (cards, attachments)
  | item :: rest, cards, attachments => do
    let found ← artworkImage sha256 hashId enc now owner item attachments
    match found.1 with
    | some image => do
      own image.id .preview owner
      previewsFrom sha256 hashId enc now owner rest (showArtwork item image cards) found.2
    | none => previewsFrom sha256 hashId enc now owner rest cards found.2

def previews (sha256 : Bytes → Vector UInt8 32) (hashId : Bytes → Bytes) (enc : Encoding)
    (now : Int) (owner : Bytes) (value : Message) (artwork : List Artwork) : StoreTx Message :=
  match value.linkPreviews with
  | none => return value
  | some cards => do
    Sql.execute fun s => { s with
      owners := s.owners.deleteWhere fun key _ => key.2.1 = .preview && key.2.2 = owner }
    let (cards, attachments) ← previewsFrom sha256 hashId enc now owner artwork cards
      value.attachments
    return { value with linkPreviews := some cards, attachments := attachments }

def setRecord (ref : AssetRef) (f : Representation → Representation) (s : AssetStore) : AssetStore :=
  { s with representations := s.representations.modify ref.key fun r =>
    { f r with record := ref } }

def state (enc : Encoding) (now : Int) (source : Source) (availability : Availability)
    (reason : Bytes) : StoreTx Unit := do
  Sql.each (fun variant => do
    let ref ← reference source.id variant
    if ref.availability = availability && ref.reason.getD [] = reason then return ()
    else Sql.execute (setRecord { ref with availability := availability, reason := some reason }
      id)) [.inlineImage, .viewer]
  publishOwners enc now source.id

structure Lookup where
  ref : AssetRef
  etag : Option Bytes
  fileName : Option Bytes
  deriving DecidableEq, Repr

def lookup (now : Int) (id version : Bytes) (variant : AssetVariant) : StoreTx Lookup := do
  let source ← Sql.query fun s => (s.sources.get? id).filter fun _ => s.owned id
  let source ← Sql.orThrow .notFound source
  Sql.require (version = source.version) .assetRetired
  let row ← Sql.query fun s => s.representations.get? (id, version, variant)
  let row ← Sql.orThrow .notFound row
  Sql.execute fun s => { s with
    representations := s.representations.modify (id, version, variant) fun r =>
      { r with requested := true, lastAccessMs := now } }
  enqueue now row.record true
  return {
    ref := row.record
    etag := row.etag.filter fun tag => tag ≠ []
    fileName := row.fileName.filter fun name => name ≠ [] }

def pending (ref : AssetRef) : AssetRef :=
  { ref with availability := .pending, reason := some (text "cache_evicted") }

def evicted (enc : Encoding) (now : Int) (value : Lookup) : StoreTx Unit := do
  let ref := pending value.ref
  Sql.execute (setRecord ref fun r => { r with fileName := none, bytes := 0 })
  publishOwners enc now ref.id
  enqueue now ref true

def isCurrent (epoch : Bytes) (source : Source) (s : AssetStore) : Bool :=
  epoch = s.journal.epoch && (s.sources.get? source.id).any fun r =>
    s.owned source.id && r.version = source.version && r.path = source.path

/-- `Journal.reset` with the asset tables. -/
def resetStore (now : Int) : StoreTx Unit := Sql.transaction do
  onJournal (reset now)
  Sql.execute fun s => { journal := s.journal }

end AssetStore

end Relay

end Zimbr
