import Mathlib.Data.Prod.Lex
import Zimbr.Library.Slots
import Zimbr.Library.Sorted
import Zimbr.Relay.Intake
import Zimbr.Relay.SourceRuns

set_option autoImplicit false

/-!
# Reactions

Reaction rows of the source are durable observations. What a message shows is
projected from the observations that target it, by a queue that every change of
them fills.
-/
namespace Zimbr.Relay.Reactions
open Library

section Adapter

def isHex (b : UInt8) : Bool := isDigit b || (65 ≤ b && b ≤ 70) || (97 ≤ b && b ≤ 102)

/-- The 8-4-4-4-12 hexadecimal spelling of a UUID. -/
def validGuid (guid : Bytes) : Bool :=
  guid.length = 36 && guid.zipIdx.all fun (ch, i) =>
    if i = 8 || i = 13 || i = 18 || i = 23 then ch = 45 else isHex ch

def keys : List (Bytes × Bytes) := [
  (text "heart", text "❤️"),
  (text "like", text "👍"),
  (text "dislike", text "👎"),
  (text "laugh", text "😂"),
  (text "emphasize", text "‼️"),
  (text "question", text "❓")]

/-- The key and the symbol of a kind; the last one carries its own emoji. -/
def label (base : Int) (emoji : Bytes) : Option (Bytes × Bytes) :=
  if base < 6 then keys[base.toNat]?
  else if emoji ≠ [] && emoji.length ≤ 256 && utf8ValidateSlice emoji &&
      emoji.all fun byte => !(byte < 32 || byte = 127) then
    some (text "emoji:" ++ emoji, emoji)
  else none

def malformed (v : ReactionObservation) : ReactionObservation :=
  { v with event := { v.event with resolution := .malformed } }

def locate (target : Bytes) (v : ReactionObservation) : Option (ReactionObservation × Bytes) :=
  if (text "p:").isPrefixOf target then
    match target.findIdx? fun ch => decide (ch = 47) with
    | none => none
    | some separator =>
      let index := (target.take separator).drop 2
      if index = [] || index.length > 10 || !index.all isDigit || 2 ^ 32 ≤ spelled index then none
      else some ({ v with sourcePart := some (spelled index) }, target.drop (separator + 1))
  else if (text "bp:").isPrefixOf target then some ({ v with bubble := true }, target.drop 3)
  else some (v, target)

def unavailable (actor : ReactionActor) : Bool := !actor.isSelf && actor.address.getD [] = []

def aim (target : Bytes) (actor : ReactionActor) (v : ReactionObservation) : ReactionObservation :=
  match locate target v with
  | none => malformed v
  | some (v, guid) =>
    if !validGuid guid then malformed v
    else
      let v := { v with targetGuid := some guid }
      if unavailable actor then { v with event := { v.event with resolution := .unavailable } }
      else v

/-- Unknown types never acquire an invented reaction value. -/
def decode (code : Int) (target emoji : Bytes) (actor : ReactionActor) :
    Option ReactionObservation :=
  if !MessagesDb.candidate code then none
  else
    let base := if 3000 ≤ code then code - 3000 else code - 2000
    let event : ReactionEvent := {
      actor := actor, operation := .unknown, resolution := .unsupported }
    if 0 ≤ base && base ≤ 6 then
      let event := { event with operation := if 3000 ≤ code then .remove else .add }
      match label base emoji with
      | none => some { event := event }
      | some (key, symbol) => some (aim target actor { event := { event with
          key := some key, emoji := some symbol, resolution := .pending } })
    else some (aim target actor { event := event })

end Adapter

/-- A row of `reaction_sources`, under the GUID of the reaction's message. -/
structure Source where
  sourceRow : Int
  conversationId : Bytes
  targetGuid : Option Bytes
  dateNs : Int
  observation : ReactionObservation
  retired : Bool := false
  checkMs : Int := 0
  deriving DecidableEq, Repr

structure ReactionJournal where
  journal : Journal
  sources : Table Bytes Source := .empty
  /-- `reaction_work`: the next attempt of a conversation's target. -/
  work : Table (Bytes × Bytes) Int := .empty

abbrev ReactionTx (α : Type) : Type := Sql Error ReactionJournal Bytes α

def inJournal {α : Type} (m : Tx α) : ReactionTx α :=
  Sql.zoom ReactionJournal.journal (fun s j => { s with journal := j }) m

structure Stored where
  source : Bytes
  row : Int
  date : Int
  value : Message
  deriving DecidableEq, Repr

def message (j : Journal) (guid : Bytes) : Option Stored :=
  (findMessage guid j).map fun r => {
    source := r.2.source, row := r.2.sourceRow, date := r.2.dateNs
    value := Enrichment.full j r.2.record }

def enqueue (cid target : Bytes) : ReactionTx Unit :=
  Sql.execute fun s => { s with work := s.work.upsert (cid, target) 0 fun _ => 0 }

def enqueueOld (cid : Bytes) (target : Option Bytes) : ReactionTx Unit :=
  if target.getD [] = [] then return () else enqueue cid (target.getD [])

def place (obs : ReactionObservation) (parent : Message) (event : ReactionEvent) : ReactionEvent :=
  match obs.sourcePart with
  | some index =>
    match (parent.parts.getD []).find? fun part => decide (part.sourceIndex = some index) with
    | some part => { event with partId := some part.id, partState := .resolved }
    | none => event
  | none =>
    if obs.bubble then
      match parent.linkPreviews.getD [] with
      | [card] => { event with partId := some card.partId, partState := .resolved }
      | _ => event
    -- An explicit association with the whole message.
    else { event with partState := .resolved }

def resolve (obs : ReactionObservation) (cid : Bytes) (target : Option Message) (retired : Bool) :
    ReactionEvent :=
  let event := if retired then { obs.event with operation := .retired } else obs.event
  if event.resolution ≠ .pending && event.resolution ≠ .resolved then event
  else match target with
  | none => event
  | some parent =>
    if parent.conversationId ≠ cid || parent.kind = .reaction then
      { event with resolution := .malformed }
    else place obs parent { event with
      targetMessageId := some parent.id, resolution := .resolved }

def resolved (obs : ReactionObservation) (cid : Bytes) (target : Option Bytes) (retired : Bool) :
    ReactionTx ReactionEvent := do
  let target ← Sql.query fun s => target.bind (message s.journal)
  return resolve obs cid (target.map Stored.value) retired

/-- `INSERT … ON CONFLICT(source) DO UPDATE`; the conversation must exist. -/
def record (guid : Bytes) (new : Source) (s : ReactionJournal) : Option ReactionJournal :=
  if !s.journal.conversations.contains new.conversationId then none
  else some { s with sources := s.sources.upsert guid new fun old => { old with
    sourceRow := new.sourceRow
    conversationId := new.conversationId
    targetGuid := new.targetGuid
    dateNs := new.dateNs
    observation := new.observation } }

def unchanged (new old : Source) : Bool :=
  old.observation = new.observation && old.conversationId = new.conversationId &&
    old.dateNs = new.dateNs && old.sourceRow = new.sourceRow

def enqueuePrevious : Option Source → ReactionTx Unit
  | some old => enqueueOld old.conversationId old.targetGuid
  | none => return ()

def enqueueNew (cid : Bytes) : Option Bytes → ReactionTx Unit
  | some target => enqueue cid target
  | none => return ()

def rewrite (guid : Bytes) (previous : Option Source) (new : Source) : ReactionTx Unit :=
  if previous.any (unchanged new) then return ()
  else do
    enqueuePrevious previous
    Sql.execute? (record guid new)
    enqueueNew new.conversationId new.targetGuid

def observe (guid : Bytes) (row date : Int) (cid : Bytes) (obs : ReactionObservation) :
    ReactionTx ReactionEvent := do
  let previous ← Sql.query fun s => s.sources.get? guid
  match previous.filter Source.retired with
  | some tombstone =>
    -- A stale reimport cannot move a tombstone's target or source ordering.
    resolved tombstone.observation tombstone.conversationId tombstone.observation.targetGuid true
  | none => do
    let new : Source := {
      sourceRow := row, conversationId := cid, targetGuid := obs.targetGuid, dateNs := date
      observation := obs }
    rewrite guid previous new
    resolved obs cid obs.targetGuid false

/-- An imported target is queued where reactions in its conversation await it. -/
def targetImported (guid cid : Bytes) : ReactionTx Unit :=
  Sql.execute fun s =>
    if (s.sources.select fun _ r => r.targetGuid = some guid && r.conversationId = cid) = [] then s
    else { s with work := s.work.upsert (cid, guid) 0 fun _ => 0 }

def retire (guid : Bytes) (s : ReactionJournal) : ReactionJournal :=
  { s with sources := s.sources.modify guid fun r => { r with retired := true } }

def bury (guid : Bytes) (old : Source) : ReactionTx Unit :=
  if old.retired then return ()
  else do
    Sql.execute (retire guid)
    enqueueOld old.conversationId old.targetGuid

def noLongerReaction (guid : Bytes) : ReactionTx (Option ReactionEvent) := do
  let found ← Sql.query fun s => s.sources.get? guid
  match found with
  | none => return none
  | some old => do
    bury guid old
    return some { old.observation.event with operation := .retired, resolution := .unsupported }

section Writes

variable (enc : Encoding) (now : Int)

def publish (m : Stored) (v : Message) : ReactionTx Unit :=
  inJournal (Relay.message enc now m.source m.row m.date v .reconciliation)

def publishEvent (guid : Bytes) (event : ReactionEvent) : ReactionTx Unit := do
  let raw ← Sql.query fun s => message s.journal guid
  match raw with
  | none => return ()
  | some raw => publish enc now raw { raw.value with reactionEvent := some event }

def touch (guid : Bytes) (s : ReactionJournal) : ReactionJournal :=
  { s with sources := s.sources.modify guid fun r => { r with checkMs := now } }

def vanished (item : Bytes × Source) : ReactionTx Unit := do
  Sql.execute fun s => touch now item.1 (retire item.1 s)
  enqueueOld item.2.conversationId item.2.targetGuid
  let raw ← Sql.query fun s => message s.journal item.1
  match raw with
  | none => return ()
  | some raw => do
    let event ← resolved item.2.observation item.2.conversationId
      (item.2.targetGuid.filter (· ≠ [])) true
    publish enc now raw { raw.value with reactionEvent := some event }

def revisit (source : MessagesDb) : List (Bytes × Source) → ReactionTx (List Int)
  | [] => return []
  | item :: rest => do
    let row ← Sql.lift (source.findGuid item.1)
    match row with
    | some row => do
      Sql.execute (touch now item.1)
      let rows ← revisit source rest
      return row :: rows
    | none => do
      vanished enc now item
      revisit source rest

/-- Fifty sources, those checked longest ago first. -/
def tracked (s : ReactionJournal) : List (Bytes × Source) :=
  (sortBy (fun r => (toLex (r.2.checkMs, r.1) : Int ×ₗ Bytes))
    (s.sources.select fun _ r => !r.retired)).take 50

def trackedRows (source : MessagesDb) : ReactionTx (List Int) := do
  let items ← Sql.query tracked
  revisit enc now source items

end Writes

section Projection

structure Row where
  guid : Bytes
  row : Int
  date : Int
  obs : ReactionObservation
  retired : Bool
  deriving DecidableEq, Repr

namespace Row

def of (r : Bytes × Source) : Row where
  guid := r.1
  row := r.2.sourceRow
  date := r.2.dateNs
  obs := r.2.observation
  retired := r.2.retired

/-- `ORDER BY date_ns,source_row,source`. -/
def position (r : Row) : Int ×ₗ Int ×ₗ Bytes := toLex (r.date, toLex (r.row, r.guid))

end Row

def rowsOf (sources : Table Bytes Source) (cid target : Bytes) : List Row :=
  sortBy Row.position
    ((sources.select fun _ r => r.conversationId = cid && r.targetGuid = some target).map Row.of)

structure Slot where
  actor : ReactionActor
  part : Option Nat
  bubble : Bool
  deriving DecidableEq, Repr

structure Placed where
  slot : Slot
  reaction : Reaction
  deriving DecidableEq, Repr

def eventOf (cid : Bytes) (parent : Message) (item : Row) : ReactionEvent :=
  resolve item.obs cid (some parent) item.retired

def slotOf (cid : Bytes) (parent : Message) (item : Row) : Slot where
  actor := (eventOf cid parent item).actor
  part := item.obs.sourcePart
  bubble := item.obs.bubble

-- The digest of a message's identifier and a slot.
variable (slotId : Bytes → Slot → Bytes)

def placed (cid : Bytes) (parent : Message) (item : Row) (key : Bytes) : Placed :=
  let event := eventOf cid parent item
  let slot := slotOf cid parent item
  { slot := slot
    reaction := {
      id := slotId parent.id slot
      actor := event.actor
      key := key
      emoji := event.emoji
      partId := event.partId
      partState := if event.partState = .resolved then .resolved else .unresolved } }

def effect (obs : ReactionObservation) (event : ReactionEvent) (key : Bytes) (new : Placed) :
    Effect Placed :=
  match event.operation with
  | .add | .current => .put new
  | .remove => .clear fun selected => decide (selected.reaction.key = key)
  -- Deletion of a current-state source is a durable ordering barrier: earlier
  -- observed adds cannot resurrect after restart.
  | .retired =>
    if obs.event.operation = .remove then .clear fun selected => decide (selected.reaction.key = key)
    else .clear fun _ => true
  | .unknown => .keep

def change (cid : Bytes) (parent : Message) (item : Row) : Option (Slot × Effect Placed) :=
  let event := eventOf cid parent item
  if event.resolution ≠ .resolved then none
  else event.key.map fun key =>
    (slotOf cid parent item, effect item.obs event key (placed slotId cid parent item key))

def projection (cid : Bytes) (parent : Message) (rows : List Row) : List Reaction :=
  sortBy Reaction.id
    ((Slots.held (Slots.settle (rows.filterMap (change slotId cid parent)))).map Placed.reaction)

variable (enc : Encoding) (now : Int)

/-- Retry a missing target after thirty seconds. -/
def postpone (target : Bytes × Bytes) (s : ReactionJournal) : ReactionJournal :=
  { s with work := s.work.modify target fun _ => now + 30000 }

def showReactions (cid : Bytes) (parent : Stored) (rows : List Row) : ReactionTx Unit :=
  if parent.value.conversationId = cid && parent.value.kind ≠ .reaction then
    publish enc now parent { parent.value with
      reactions := some (projection slotId cid parent.value rows) }
  else return ()

def projectTarget (target : Bytes × Bytes) : ReactionTx Unit := do
  let parent ← Sql.query fun s => message s.journal target.2
  match parent with
  | none => Sql.execute (postpone now target)
  | some parent => do
    let rows ← Sql.query fun s => rowsOf s.sources target.1 target.2
    -- The slots are local: each source's event is published on the way.
    Sql.each (fun item => publishEvent enc now item.guid
      (resolve item.obs target.1 (some parent.value) item.retired)) rows
    showReactions slotId enc now target.1 parent rows
    Sql.execute fun s => { s with work := s.work.deleteWhere fun k _ => k = target }

/-- At most fifty targets that are due, those tried longest ago first. -/
def due (s : ReactionJournal) : List (Bytes × Bytes) :=
  ((sortBy Prod.snd (s.work.select fun _ attempt => attempt ≤ now)).take 50).map Prod.fst

def project : ReactionTx Unit := do
  let targets ← Sql.query (due now)
  Sql.each (projectTarget slotId enc now) targets

end Projection

def checkFirst (chosen : Source → Bool) (s : ReactionJournal) : ReactionJournal := { s with
  sources := s.sources.modifyWhere (fun _ r => !r.retired && chosen r)
    fun r => { r with checkMs := 0 } }

def prioritize (cid : Bytes) : ReactionJournal → ReactionJournal :=
  checkFirst fun r => r.conversationId = cid

/-- The update that the message route makes for the message it answers. -/
def messageRead (id : Bytes) : ReactionTx Unit := do
  Sql.require (validId id) .invalidRequest
  let message ← Sql.query fun s => s.journal.messages.get? id
  let message ← Sql.orThrow .notFound message
  Sql.execute (checkFirst fun r => r.targetGuid = some message.source)

end Zimbr.Relay.Reactions
