import Zimbr.Client.Worker

set_option autoImplicit false

/-!
# Metadata pages

A message arrives with a part of its metadata. The rest is fetched in pages, one
section at a time, and kept in a copy of the record that counts its changes.
-/
namespace Zimbr.Client
open Library

def maxMetadataPage : Nat := 32 * 1024
def maxExpandedBytes : Nat := 8 * 1024 * 1024

structure SectionPage where
  messageId : Bytes
  revision : Bytes
  «section» : MetadataSection
  items : List (Decoded MetadataItem)
  total : Nat
  next : Option Bytes
  deriving DecidableEq, Repr

/-- What the typed parser reads of a page, and `u.json` of a message. -/
structure PageCodec where
  page : MetadataSection → Bytes → Except Error SectionPage
  message : Message → Bytes

def Incoming.decoded? : Incoming → Option (Decoded Message)
  | .message v => some v
  | _ => none

namespace Store

def copy? (s : Store) (id : Bytes) (row : RecordRow) : Option EnrichmentRow :=
  (s.enrichmentCache.get? id).filter fun e => e.revision = row.revision

/-- `enriched_record`. -/
def enriched (s : Store) (id : Bytes) (row : RecordRow) : Option (Decoded Message) :=
  match s.copy? id row with
  | some e => some e.record
  | none => row.record.decoded?

/-- `enrichment_serial`. -/
def serial (s : Store) (id : Bytes) (row : RecordRow) : Nat := ((s.copy? id row).map (·.serial)).getD 0

/-- `message_query`. -/
def message (s : Store) (id : Bytes) : Option (Decoded Message) :=
  (s.records.get? (.message, id)).bind (s.enriched id)

/-- The page to ask for: empty before the first one, absent after the last one. -/
def enrichmentNext (s : Store) (id revision : Bytes) (which : MetadataSection) : Option Bytes :=
  match (s.enrichmentPages.get? (id, which.tag)).filter fun p => p.revision = revision with
  | some p => p.next.filter fun next => next ≠ []
  | none => some []

end Store

def decodePage (codec : PageCodec) (which : MetadataSection) (raw : Bytes) :
    Except Error SectionPage :=
  match JsonInput.check raw maxMetadataPage 8192 with
  | .error err => .error (.ofCheck err)
  | .ok () => codec.page which raw

/-- The page is of this message and section, and a continued one brings items. -/
def SectionPage.continues (p : SectionPage) (which : MetadataSection) (id revision after : Bytes) :
    Bool :=
  p.messageId = id && p.revision = revision && p.section = which &&
    p.next.all fun next => next ≠ after && p.items ≠ []

/-- Fewer items than the message came with are not shown before the last page. -/
def SectionPage.shown (p : SectionPage) (which : MetadataSection) (m : Message)
    (items : List MetadataItem) : Message :=
  if (m.items which).length ≤ items.length || p.next = none then m.setItems items which else m

def SectionPage.extend (p : SectionPage) (which : MetadataSection) (m : Message)
    (items : List MetadataItem) : Except Error Message :=
  if items.length > p.total || (p.next = none && items.length ≠ p.total) then
    .error .invalidEnrichmentPage
  else match m.enrichment with
  | none => .error .invalidEnrichmentPage
  | some e =>
    if p.total ≠ (e.aggregate which).total || (p.next ≠ none && p.total ≤ items.length) then
      .error .invalidEnrichmentPage
    else if items.any (fun item => item.id = []) || !decide (items.map (·.id)).Nodup then
      .error .invalidEnrichmentPage
    else .ok { p.shown which m items with
      enrichment := some (e.setAggregate { total := p.total, complete := p.next = none } which) }

def earlierItems (which : MetadataSection) (id revision after : Bytes) :
    Tx (List (Decoded MetadataItem)) :=
  if after.length > 0 then do
    let page ← Sql.query fun s =>
      (s.enrichmentPages.get? (id, which.tag)).filter fun p => p.revision = revision
    Sql.orThrow .invalidEnrichmentPage (page.map (·.items))
  else return []

def writePage (which : MetadataSection) (id revision : Bytes) (page : EnrichmentPage)
    (record : Decoded Message) : Tx Unit := do
  Sql.execute fun s => { s with
    enrichmentPages := s.enrichmentPages.upsert (id, which.tag) page fun _ => page }
  let number ← Sql.orThrow .overflow (parseInt revision)
  Sql.execute fun s => { s with
    enrichmentCache := s.enrichmentCache.upsert id
      { revision := number.toNat, record := record, serial := 1 }
      fun old => { revision := number.toNat, record := record, serial := old.serial + 1 } }

def appendPage (codec : PageCodec) (which : MetadataSection) (p : SectionPage) (m : Message)
    (id revision after : Bytes) : Tx Unit := do
  let earlier ← earlierItems which id revision after
  let items := earlier ++ p.items
  let extended ← Sql.lift (p.extend which m (items.map (·.value)))
  Sql.lift (Validation.message extended)
  let record := codec.message extended
  Sql.require (record.length ≤ maxExpandedBytes) .invalidEnrichmentPage
  writePage which id revision { revision := revision, items := items, next := p.next }
    { value := extended, raw := record }

def enrichmentSection (codec : PageCodec) (which : MetadataSection)
    (raw id revision after : Bytes) : Tx Bool := do
  let p ← Sql.lift (decodePage codec which raw)
  Sql.require (p.items.length ≤ maxPage && p.total ≤ Validation.maxSectionItems)
    .invalidEnrichmentPage
  Sql.require (p.continues which id revision after) .invalidEnrichmentPage
  Sql.transaction do
    let found ← Sql.query (·.message id)
    let m ← Sql.orThrow .missingMessage found
    if decimal m.value.revision ≠ revision then return false
    else do
      let expected ← Sql.query (·.enrichmentNext id revision which)
      if expected ≠ some after then return false
      else do
        appendPage codec which p m.value id revision after
        return true

section Items

variable {m : Message} {items : List MetadataItem} {which : MetadataSection}

@[simp] theorem setItems_id : (m.setItems items which).id = m.id := by
  cases which <;> rfl

@[simp] theorem setItems_revision : (m.setItems items which).revision = m.revision := by
  cases which <;> rfl

theorem shown_same {p : SectionPage} :
    (p.shown which m items).id = m.id ∧ (p.shown which m items).revision = m.revision := by
  unfold SectionPage.shown
  split_ifs
  · exact ⟨setItems_id, setItems_revision⟩
  · exact ⟨rfl, rfl⟩

theorem extend_same {p : SectionPage} {m' : Message} (h : p.extend which m items = .ok m') :
    m'.id = m.id ∧ m'.revision = m.revision := by
  unfold SectionPage.extend at h
  split at h
  · exact nomatch h
  · split at h
    · exact nomatch h
    · split_ifs at h
      rw [← Except.ok.inj h]
      exact shown_same

end Items

end Zimbr.Client
