import Zimbr.Library.Zoom
import Zimbr.Relay.Core
import Zimbr.Relay.MessagesDb
import Zimbr.Relay.PlistXml

set_option autoImplicit false

/-!
# The ingestion pass

One pass reads a snapshot of the source and writes the journal in one
transaction: it checks that the source is still the one it knows, then scans for
new rows, for older history and for rows to read again.
-/
namespace Zimbr.Relay
open Library

def Origin.text : Origin → Bytes
  | .live => Zimbr.text "live"
  | .reconciliation => Zimbr.text "reconciliation"
  | .historicalImport => Zimbr.text "historical_import"

def Origin.parse (s : Bytes) : Option Origin :=
  if s = Origin.live.text then some .live
  else if s = Origin.reconciliation.text then some .reconciliation
  else if s = Origin.historicalImport.text then some .historicalImport
  else none

/-- The journal with the tables that only ingestion uses. -/
structure Intake where
  journal : Journal
  ordinaryAnchors : Table Int Bytes := .empty
  pendingSource : Table Int Int := .empty
  reconcileChats : Table Bytes Int := .empty
  reactionSources : Table Bytes Unit := .empty

inductive ResetReason where
  | fileIdentity | ordinaryAnchor | liveAnchor
  deriving DecidableEq, Repr

/-- A pass in progress: what it wrote, its `ImportBatch`, and why it reset. -/
structure Pass where
  intake : Intake
  rows : List Int := []
  chats : List (Int × Option Bytes) := []
  rebased : Bool := false
  resetReason : Option ResetReason := none
  /-- Ghost: the events of this pass that a row's message brought, with the row. -/
  published : List (Int × Event) := []

abbrev PassTx (α : Type) : Type := Sql Error Pass Bytes α

/-- What one pass finds: the clock, the snapshot, and what the asset and reaction
workers make of it. -/
structure PassEnv where
  now : Int
  source : MessagesDb
  decoders : Decoders
  /-- The attachments and previews with the assets they show. -/
  assets : Journal → SourceMessage → List Attachment × Option (List LinkPreview)
  reactionEvent : Journal → SourceMessage → Bytes → Option ReactionEvent
  /-- Rows of tracked reactions and of missing reaction targets. -/
  trackedRows : List Int := []
  missingTargets : List Int := []
  /-- Stored messages whose reactions are retired or projected. -/
  retired : List (Bytes × (Message → Message)) := []
  projected : List (Bytes × (Message → Message)) := []

def onJournal {α : Type} (m : Tx α) : PassTx α :=
  Sql.zoom (fun p => p.intake.journal)
    (fun p j => { p with intake := { p.intake with journal := j } }) m

def onIntake {α : Type} (m : Sql Error Intake Bytes α) : PassTx α :=
  Sql.zoom Pass.intake (fun p i => { p with intake := i }) m

def setPosition (key : String) (n : Int) : Tx Unit := setProgress key (signed n)

namespace Anchors

/-- The four oldest and the twelve most recent rows. -/
def oldest (t : Table Int Bytes) : List Int :=
  ((t.rows.map Prod.fst).insertionSort (· ≤ ·)).take 4

def newest (t : Table Int Bytes) : List Int :=
  ((t.rows.map Prod.fst).insertionSort (· ≥ ·)).take 12

def retained (t : Table Int Bytes) (row : Int) : Bool :=
  decide (row ∈ oldest t) || decide (row ∈ newest t)

/-- Each row and each GUID is an anchor once. A duplicate GUID may reuse a row
that trimming would discard, but never moves a retained one. -/
def anchor (guid : Bytes) (row : Int) (t : Table Int Bytes) : Table Int Bytes :=
  match t.rows.find? fun r => decide (r.2 = guid) with
  | some (old, _) =>
    if retained t old || t.contains row then t
    else (t.deleteWhere fun r _ => r = old).upsert row guid id
  | none => (t.insert row guid).getD t

def trimAnchors (t : Table Int Bytes) : Table Int Bytes := t.deleteWhere fun row _ => !retained t row

/-- Retire missing anchors only when two surviving rows still prove continuity. -/
def reconcileAnchors (source : MessagesDb) (t : Table Int Bytes) : Nat × Table Int Bytes :=
  let missing := t.select fun row _ => (source.guid row).isNone
  let present := t.select fun row _ => (source.guid row).isSome
  if present.any fun r => source.guid r.1 != some r.2 then (0, t)
  else if missing ≠ [] && present.length < 2 then (0, t)
  else (present.length, t.deleteWhere fun row _ => (source.guid row).isNone)

/-- The row of the saved anchor is absent, or reused after a tracked reaction. -/
def deletedAnchor (source : MessagesDb) (i : Intake) (row : Int) (saved : Bytes) :
    Except Error Bool :=
  let known := i.journal.messages.rows.any fun r => r.2.source = saved && r.2.sourceRow = row
  let reused := (source.columns row).isSome
  if !known || (reused && !i.reactionSources.contains saved) then .ok false
  else (source.findGuid saved).map fun found => found.isNone

/-- `SELECT coalesce(max(source_row),0) FROM ordinary_anchors WHERE source_row<?`. -/
def below (t : Table Int Bytes) (live : Int) : Int :=
  (((t.select fun row _ => row < live).map Prod.fst).max?).getD 0

end Anchors

/-- An identity of the old decimal format `device:inode` that names the inode of
the current one, `mac-v1:volume:inode:birth`. -/
def legacyIdentityCandidate (identity saved : Bytes) : Bool :=
  let parseU64 := Plist.parseUnsigned (2 ^ 64) 10
  match identity.splitOn 58, saved.splitOn 58 with
  | version :: _ :: inode :: _, [device, old] =>
    version = text "mac-v1" && (parseU64 device).isSome && (parseU64 old).isSome &&
      parseU64 inode = parseU64 old
  | _, _ => false

namespace Intake

def originKey (row : Int) : String := "pending:" ++ toString row

section Import

variable (enc : Encoding) (e : PassEnv)

/-- The thread of a conversation: its canonical row comes first. -/
def threadOf (imported : Int → PassTx (Option Bytes)) (row : Int) (chat : SourceConversation) :
    PassTx (Option Bytes) :=
  match chat.threadRow with
  | some canonical => if canonical < row then imported canonical else return chat.value.threadId
  | none => return chat.value.threadId

def publishChat (imported : Int → PassTx (Option Bytes)) (row : Int) (origin : Origin) :
    Option SourceConversation → PassTx (Option Bytes)
  | none => return none
  | some chat => do
    let threadId ← threadOf imported row chat
    let id ← onJournal (conversation e.now chat.source chat.row chat.route
      { chat.value with threadId := threadId } origin)
    return some id

/-- A conversation and the canonical one of its thread, once for each batch. -/
def importChat : Nat → Int → Origin → Bool → PassTx (Option Bytes)
  | 0, _, _, _ => Sql.throw .panic
  | fuel + 1, row, origin, complete => do
    let cached ← Sql.peek fun p => p.chats.find? fun r => decide (r.1 = row)
    match cached with
    | some (_, result) => return result
    | none => do
      let chat ← Sql.lift (e.source.chat row complete)
      let result ← publishChat e (fun row => importChat fuel row origin complete) row origin chat
      Sql.note fun p => { p with chats := (row, result) :: p.chats }
      return result

def rememberedOrigin (row : Int) : PassTx (Option Origin) := do
  let stored ← onJournal (progress (originKey row))
  match stored with
  | none => return none
  | some s => do
    let origin ← Sql.orThrow .databaseFailure (Origin.parse s)
    return some origin

/-- A recent or rolling scan can discover a new row before the live scan reaches
it: the row is still live. -/
def discoveredOrigin (row : Int) (origin : Origin) : PassTx Origin :=
  if origin = .reconciliation then do
    let live ← onJournal (position "live")
    return if live < row then .live else origin
  else return origin

/-- After a rebase the live scan meets messages that are already known. -/
def rebasedOrigin (m : SourceMessage) (origin : Origin) : PassTx Origin := do
  let rebased ← Sql.peek Pass.rebased
  if rebased then do
    let known ← onJournal (Sql.query fun j => (findMessage m.source j).isSome)
    return if known then .reconciliation else origin
  else return origin

def eventOrigin (row : Int) (m : SourceMessage) (origin : Origin) :
    Option Origin → PassTx Origin
  | some remembered => return remembered
  | none => do
    let origin ← discoveredOrigin row origin
    rebasedOrigin m origin

def decorated (j : Journal) (m : SourceMessage) (cid : Bytes) : Message :=
  let (attachments, previews) := e.assets j m
  { m.value with
    conversationId := cid
    attachments := attachments
    linkPreviews := previews
    reactionEvent :=
      if m.reaction.isSome || (e.source.features.reactionTarget && m.value.kind ≠ .reaction) then
        e.reactionEvent j m cid
      else none }

def observeReaction (m : SourceMessage) : PassTx Unit :=
  if m.reaction.isSome then
    onIntake (Sql.execute fun i =>
      { i with reactionSources := i.reactionSources.upsert m.source () id })
  else return ()

def anchorRow (m : SourceMessage) : PassTx Unit :=
  if m.value.kind ≠ .reaction then
    onIntake (Sql.execute fun i =>
      { i with ordinaryAnchors := Anchors.anchor m.source m.row i.ordinaryAnchors })
  else return ()

/-- What the journal published since `j` came with the row. -/
def notePublished (row : Int) (j : Journal) (p : Pass) : Pass := { p with
  published := p.published ++ (p.intake.journal.log.drop j.log.length).map fun ev => (row, ev) }

def publishRow (row : Int) (m : SourceMessage) (origin : Origin) (cid : Bytes) : PassTx Unit := do
  let j ← Sql.peek fun p => p.intake.journal
  observeReaction m
  onJournal (sourceMessage enc e.now m.source m.row m.date (decorated e j m cid) origin)
  Sql.note (notePublished row j)
  anchorRow m
  onJournal (if m.pending then return () else deleteProgress (originKey row))

/-- An incomplete row keeps its origin, and is read again until it is complete. -/
def rememberRow (row : Int) (m : SourceMessage) (origin : Origin) (remembered : Option Origin) :
    PassTx Unit :=
  if m.pending then do
    onJournal (if remembered.isNone then setProgress (originKey row) origin.text else return ())
    onIntake (Sql.execute fun i =>
      { i with pendingSource := i.pendingSource.upsert row e.now fun _ => e.now })
  else
    onIntake (Sql.execute fun i =>
      { i with pendingSource := i.pendingSource.deleteWhere fun r _ => r = row })

def importMessage (row : Int) (origin : Origin) (complete : Bool) (m : SourceMessage) :
    PassTx Unit := do
  let remembered ← rememberedOrigin row
  let origin ← eventOrigin row m origin remembered
  rememberRow e row m origin remembered
  if m.chatRow = 0 || m.source = [] then
    return ()
  else do
    let cid ← importChat e (e.source.chats.length + 1) m.chatRow origin complete
    match cid with
    | none => return ()
    | some cid => publishRow enc e row m origin cid

/-- One row of the source, once for each batch. -/
def importRow (row : Int) (origin : Origin) (complete : Bool) : PassTx Unit := do
  let seen ← Sql.peek fun p => decide (row ∈ p.rows)
  if seen then
    return ()
  else do
    Sql.note fun p => { p with rows := row :: p.rows }
    let message ← Sql.lift (e.source.message e.decoders row)
    match message with
    | none =>
      onIntake (Sql.execute fun i =>
        { i with pendingSource := i.pendingSource.deleteWhere fun r _ => r = row })
    | some m => importMessage enc e row origin complete m

def importRows (rows : List Int) (origin : Origin) (complete : Bool) : PassTx Unit :=
  Sql.each (fun row => importRow enc e row origin complete) rows

end Import

section Check

variable (e : PassEnv)

/-- `Journal.reset` also clears what ingestion keeps beside the journal. -/
def resetIntake : PassTx Unit := do
  onJournal (reset e.now)
  onIntake (Sql.execute fun i => { journal := i.journal })

/-- The saved row no longer proves that the live cursor is where it was. -/
def missingAnchor (live : Int) (saved : Option Bytes) : Bool :=
  e.source.high < live || (e.source.guid live).isNone || saved.isNone || saved = some [] ||
    e.source.guid live != saved

def rebase (live : Int) : PassTx Int := do
  let live ← onIntake (Sql.query fun i => Anchors.below i.ordinaryAnchors live)
  Sql.note fun p => { p with rebased := true }
  onJournal (setPosition "live" live)
  onJournal (setPosition "rolling" 0)
  return live

def deletedRow (legacy : Bool) (anchors : Nat) (live : Int) (saved : Option Bytes) :
    PassTx Bool := do
  let i ← Sql.peek Pass.intake
  if !legacy && 2 ≤ anchors && saved.isSome then
    Sql.lift (Anchors.deletedAnchor e.source i live (saved.getD []))
  else return false

/-- The live cursor, unless its row shows that the source changed. -/
def checkLive (legacy : Bool) (anchors : Nat) (live : Int) : PassTx (Int × Option ResetReason) :=
  if live > 0 then do
    let saved ← onJournal (progress "anchor")
    if missingAnchor e live saved then do
      let deleted ← deletedRow e legacy anchors live saved
      if deleted then do
        let live ← rebase live
        return (live, none)
      else return (live, some .liveAnchor)
    else return (live, none)
  else return (live, none)

def checkSource (identity : Bytes) (live : Int) : PassTx (Int × Option ResetReason) := do
  let changed := identity ≠ e.source.identity
  let legacy := changed && live > 0 && legacyIdentityCandidate e.source.identity identity
  if changed && !legacy then
    return (live, some .fileIdentity)
  else do
    let kept ← onIntake (Sql.query fun i => Anchors.reconcileAnchors e.source i.ordinaryAnchors)
    onIntake (Sql.execute fun i => { i with ordinaryAnchors := kept.2 })
    if kept.1 = 0 && kept.2.rows ≠ [] then
      return (live, some .ordinaryAnchor)
    else do
      let checked ← checkLive e legacy kept.1 live
      onJournal (if checked.2.isNone && legacy then setProgress "identity" e.source.identity
        else return ())
      return checked

def startImport : PassTx Int := do
  let high := e.source.high
  onJournal (setProgress "identity" e.source.identity)
  onJournal (setPosition "live" high)
  onJournal (setPosition "backfill" high)
  onJournal (setProgress "anchor" ((e.source.guid high).getD []))
  onJournal (setProgress "identity_backfill_v1" (text "complete"))
  onJournal (setProgress "enrichment_backfill_v1" (text "complete"))
  return high

/-- The live cursor of the pass, after a reset and at the first import the end of
the source. -/
def openSource : PassTx Int := do
  let identity ← onJournal (progress "identity")
  let live ← onJournal (position "live")
  match identity with
  | none => startImport e
  | some identity => do
    let checked ← checkSource e identity live
    if checked.2.isSome then do
      Sql.note fun p => { p with resetReason := checked.2 }
      resetIntake e
      startImport e
    else return checked.1

end Check

section Scans

variable (enc : Encoding) (e : PassEnv)

def initialImportLimit : Nat := 1000

def scanChats (complete : Bool) : PassTx Unit := do
  let after ← onJournal (position "chats")
  let chats := e.source.chatRows after
  Sql.each (fun row => do
    let _ ← importChat e (e.source.chats.length + 1) row .reconciliation complete) chats
  onJournal (setPosition "chats" (chats.getLastD 0))

def scanLive (live : Int) (complete : Bool) : PassTx Unit := do
  let rows := e.source.rowsFor MessagesDb.rowBatchSize .live live 0
  importRows enc e rows .live complete
  let live := rows.getLastD live
  onJournal (setPosition "live" live)
  onJournal (setProgress "anchor" ((e.source.guid live).getD []))

/-- The initial import favors throughput. -/
def scanBackfill (backfill : Int) : PassTx Unit :=
  if backfill > 0 then do
    let old := e.source.rowsFor initialImportLimit .backfill backfill 0
    importRows enc e old .historicalImport false
    onJournal (setPosition "backfill" ((old.getLast?.map (· - 1)).getD 0))
  else return ()

def pendingRows (i : Intake) : List Int :=
  ((i.pendingSource.rows.insertionSort fun a b =>
    a.2 < b.2 ∨ (a.2 = b.2 ∧ a.1 ≤ b.1)).take 50).map Prod.fst

def retryPending (complete : Bool) : PassTx Unit := do
  let rows ← onIntake (Sql.query pendingRows)
  importRows enc e rows .reconciliation complete

/-- Backfill visits every older row; edits are looked for after it. -/
def scanRolling (complete : Bool) : PassTx Unit :=
  if complete then do
    let rolling ← onJournal (position "rolling")
    let older := e.source.rowsFor MessagesDb.rowBatchSize .rolling rolling 0
    importRows enc e older .reconciliation complete
    onJournal (setPosition "rolling" (older.getLastD 0))
  else return ()

def requestedChat (i : Intake) : Option (Bytes × Int × Int) :=
  i.reconcileChats.rows.findSome? fun r =>
    (i.journal.conversations.get? r.1).map fun c => (r.1, r.2, c.sourceRow)

def scanRequested (complete : Bool) : PassTx Unit := do
  let requested ← onIntake (Sql.query requestedChat)
  match requested with
  | none => return ()
  | some (cid, after, chat) => do
    let rows := e.source.rowsFor MessagesDb.rowBatchSize .chat after chat
    importRows enc e rows .reconciliation complete
    onIntake (Sql.execute fun i => { i with
      reconcileChats := match rows.getLast? with
        | none => i.reconcileChats.deleteWhere fun k _ => k = cid
        | some last => i.reconcileChats.modify cid fun _ => last })

/-- The source rows of the messages that submitted parts are linked to, the least
recently attempted first. -/
def submittedRows (j : Journal) : List Int :=
  (((j.sendParts.rows.filterMap fun p =>
    match j.sendRequests.get? p.1.1, p.2.messageId.bind j.messages.get? with
    | some r, some m =>
      if p.2.state = .submitted && r.epoch = j.epoch then
        some ((j.sendPartObservations.get? p.1).getD 0, m.sourceRow)
      else none
    | _, _ => none).insertionSort fun a b => a.1 ≤ b.1).take 100).map Prod.snd

/-- One pending text request: read its linked message again, or look for an echo. -/
def reconcileRequest (complete : Bool) (item : Bytes × SendRequestRow) : PassTx Unit := do
  let v := item.2.record
  onJournal (Sql.execute? (recordObservation e.now v.requestId))
  match v.messageId with
  | some mid => do
    let row ← onJournal (Sql.query fun j => (j.messages.get? mid).map MessageRow.sourceRow)
    importRows enc e row.toList .reconciliation complete
    let status ← onJournal (Sql.query fun j => (j.messages.get? mid).map fun m => m.status)
    onJournal (updateIfSome e.now (status.bind (refreshed v)))
  | none => do
    let change ← onJournal (Sql.query fun j => reconciled j e.now v item.2)
    onJournal (updateIfSome e.now change)

def reconcile (complete : Bool) : PassTx Unit := do
  let parts ← onJournal (Sql.query submittedRows)
  importRows enc e parts .reconciliation complete
  let items ← onJournal (Sql.query pendingRequests)
  Sql.each (reconcileRequest enc e complete) items

/-- Existing journals receive a distinct resumable enrichment pass. -/
def scanEnrichment (complete : Bool) : PassTx Unit := do
  let stored ← onJournal (progress "enrichment_backfill_v1")
  let value := stored.getD (text "0")
  if value = text "complete" then
    return ()
  else do
    let rows := e.source.rowsFor MessagesDb.rowBatchSize .rolling ((parseInt value).getD 0) 0
    importRows enc e rows .reconciliation complete
    match rows.getLast? with
    | none => onJournal (setProgress "enrichment_backfill_v1" (text "complete"))
    | some last => onJournal (setPosition "enrichment_backfill_v1" last)

def rewrite (change : Bytes × (Message → Message)) : Tx Unit := do
  let found ← Sql.query fun j => (findMessage change.1 j).map fun r =>
    (r.2, Enrichment.full j r.2.record)
  match found with
  | none => return ()
  | some (r, v) =>
    message enc e.now change.1 r.sourceRow r.dateNs (change.2 v) .reconciliation

def scanReactions (complete : Bool) : PassTx Unit :=
  if e.source.features.reactionTarget then do
    onJournal (Sql.each (rewrite enc e) e.retired)
    importRows enc e e.trackedRows .reconciliation complete
    importRows enc e e.missingTargets .reconciliation complete
    onJournal (Sql.each (rewrite enc e) e.projected)
  else return ()

def backfillIdentities : Tx Unit := do
  let stored ← progress "identity_backfill_v1"
  let after := stored.getD []
  if after = text "complete" then
    return ()
  else do
    let rows ← Sql.query fun j =>
      ((j.messages.select fun id _ => decide (after < id)).insertionSort fun a b =>
        ¬ b.1 < a.1).take 100
    Sql.each (fun r =>
      if r.2.record.direction = .incoming then do
        let _ ← observeIdentity e.now r.2.record.service r.2.record.sender
      else return ()) rows
    setProgress "identity_backfill_v1" ((rows.getLast?.map Prod.fst).getD (text "complete"))

/-- Everything that does not depend on what the pass found new. -/
def revisit (complete : Bool) : PassTx Unit := do
  retryPending enc e complete
  importRows enc e (e.source.rowsFor MessagesDb.rowBatchSize .recent e.source.high 0)
    .reconciliation complete
  scanRolling enc e complete
  scanRequested enc e complete
  reconcile enc e complete
  scanEnrichment enc e complete
  scanReactions enc e complete
  onIntake (Sql.execute fun i => { i with ordinaryAnchors := Anchors.trimAnchors i.ordinaryAnchors })
  onJournal (backfillIdentities e)

def scan (live : Int) : PassTx Unit := do
  let backfill ← onJournal (position "backfill")
  scanChats e (backfill = 0)
  scanLive enc e live (backfill = 0)
  scanBackfill enc e backfill
  revisit enc e (backfill = 0)

def pass : PassTx Unit := Sql.transaction do
  let live ← openSource e
  scan enc e live

end Scans

end Intake

end Zimbr.Relay
