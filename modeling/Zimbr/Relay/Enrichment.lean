import Zimbr.Relay.Schema

set_option autoImplicit false

/-!
# Enrichment sections of a message

Canonical section storage is independent of inline transport budgets.
-/
namespace Zimbr.Relay.Enrichment
open Library

def maxEnrichment : Nat := 32 * 1024
def maxMetadataPage : Nat := 32 * 1024
def maxInlineAttachments : Nat := 32
def maxInlinePreviews : Nat := 4
def maxInlineReactions : Nat := 128
def maxInlineParts : Nat := 128

structure Prepared where
  value : Message
  /-- The sections whose stored content differs. -/
  sections : Sections
  changed : Bool
  deriving DecidableEq, Repr

def stored (j : Journal) (id : Bytes) : Sections := (j.enrichment.get? id).getD {}

def full (j : Journal) (v : Message) : Message :=
  let sections := stored j v.id
  { v with
    attachments := (sections.attachments.map Prod.snd).getD v.attachments
    linkPreviews := (sections.previews.map Prod.snd).orElse fun _ => v.linkPreviews
    reactions := (sections.reactions.map Prod.snd).orElse fun _ => v.reactions
    parts := (sections.parts.map Prod.snd).orElse fun _ => v.parts }

def fallbackParts (v : Message) : List MessagePart :=
  (match v.text with
    | some body =>
      if body.length > 0 then
        [{ id := text "text", kind := .text, textStart := some 0, textLength := some body.length }]
      else []
    | none => []) ++
  ((v.attachments.filter fun a => !a.previewArtwork).map fun a =>
    { id := text "attachment:" ++ a.id, kind := .attachment, attachmentId := some a.id }) ++
  ((v.linkPreviews.getD []).map fun p =>
    { id := p.partId, kind := .linkPreview, previewId := some p.id })

/-- Keep the worker's image references of attachments already stored. -/
def mergeAttachments (old new : List Attachment) : List Attachment :=
  new.map fun a =>
    match old.reverse.find? fun o => decide (o.id = a.id) with
    | some o => { a with
        image := a.image.orElse fun _ => o.image
        viewer := a.viewer.orElse fun _ => o.viewer }
    | none => a

/-- Null is unsupplied, never a request to erase a worker's aggregate. -/
def mergePrevious (j : Journal) (v : Message) : Option Message → Message
  | none => v
  | some oldInline =>
    let old := full j oldInline
    { v with
      reactions := v.reactions.orElse fun _ => old.reactions
      linkPreviews := v.linkPreviews.orElse fun _ => old.linkPreviews
      reactionEvent := v.reactionEvent.orElse fun _ => old.reactionEvent
      attachments := mergeAttachments old.attachments v.attachments }

def withParts (v : Message) : Message :=
  match v.parts with
  | some _ => v
  | none => { v with
      parts := some (fallbackParts v)
      enrichment := some { v.enrichment.getD { state := .complete } with
        partMapping := .unresolved } }

/-- The section to store, unless the stored digest is already this one. -/
def replacement {α : Type} (digest : List α → Bytes) (old : Option (Bytes × List α)) :
    Option (List α) → Option (Bytes × List α)
  | none => none
  | some items =>
    if (old.map Prod.fst) = some (digest items) then none else some (digest items, items)

def oversized {α : Type} (size : α → Nat) (items : Option (List α)) : Bool :=
  (items.getD []).any fun item => size item > maxMetadataPage - 1024

structure Counts where
  attachments : Nat
  previews : Nat
  reactions : Nat
  parts : Nat
  deriving DecidableEq, Repr

structure Sizes where
  attachments : List Nat
  previews : List Nat
  reactions : List Nat
  parts : List Nat
  deriving DecidableEq, Repr

/-- What dropping the last of `count` items saves. -/
def saved (sizes : List Nat) (count : Nat) : Nat :=
  sizes.getD (count - 1) 0 + if count > 1 then 1 else 0

/-- Drop inline items until the metadata fits; the caption's part goes last. -/
def shrink (sizes : Sizes) : Nat → Nat → Counts → Option Counts
  | 0, bytes, counts => if bytes > maxEnrichment then none else some counts
  | fuel + 1, bytes, counts =>
    if bytes > maxEnrichment then
      if counts.parts > 1 then
        shrink sizes fuel (bytes - saved sizes.parts counts.parts)
          { counts with parts := counts.parts - 1 }
      else if counts.reactions > 0 then
        shrink sizes fuel (bytes - saved sizes.reactions counts.reactions)
          { counts with reactions := counts.reactions - 1 }
      else if counts.previews > 0 then
        shrink sizes fuel (bytes - saved sizes.previews counts.previews)
          { counts with previews := counts.previews - 1 }
      else if counts.attachments > 0 then
        shrink sizes fuel (bytes - saved sizes.attachments counts.attachments)
          { counts with attachments := counts.attachments - 1 }
      else if counts.parts > 0 then
        shrink sizes fuel (bytes - saved sizes.parts counts.parts)
          { counts with parts := counts.parts - 1 }
      else none
    else some counts

def listed (sizes : List Nat) (count : Nat) : Nat := (sizes.take count).sum + (count - 1)

def inlineMessage (enc : Encoding) (v : Message) : Except Error Message :=
  let previews := v.linkPreviews.getD []
  let reactions := v.reactions.getD []
  let parts := v.parts.getD []
  let base := v.enrichment.getD { state := .complete }
  let unmarked : Enrichment := { base with
    attachments := ⟨v.attachments.length, false⟩
    previews := ⟨previews.length, false⟩
    reactions := ⟨reactions.length, false⟩
    parts := ⟨parts.length, false⟩ }
  let counts : Counts := {
    attachments := min v.attachments.length maxInlineAttachments
    previews := min previews.length maxInlinePreviews
    reactions := min reactions.length maxInlineReactions
    parts := min parts.length maxInlineParts }
  let sizes : Sizes := {
    attachments := v.attachments.map enc.attachment
    previews := previews.map enc.preview
    reactions := reactions.map enc.reaction
    parts := parts.map enc.part }
  let bytes := enc.envelope v unmarked + listed sizes.attachments counts.attachments +
    listed sizes.previews counts.previews + listed sizes.reactions counts.reactions +
    listed sizes.parts counts.parts
  let fuel := counts.attachments + counts.previews + counts.reactions + counts.parts
  match shrink sizes fuel bytes counts with
  | none => .error .metadataItemTooLarge
  | some kept => .ok { v with
      attachments := v.attachments.take kept.attachments
      linkPreviews := v.linkPreviews.map fun items => items.take kept.previews
      reactions := v.reactions.map fun items => items.take kept.reactions
      parts := v.parts.map fun items => items.take kept.parts
      enrichment := some { unmarked with
        attachments := ⟨v.attachments.length, v.attachments.length = kept.attachments⟩
        previews := ⟨previews.length, previews.length = kept.previews⟩
        reactions := ⟨reactions.length, reactions.length = kept.reactions⟩
        parts := ⟨parts.length, parts.length = kept.parts⟩ } }

def prepare (enc : Encoding) (j : Journal) (value : Message) (previous : Option Message) :
    Except Error Prepared :=
  let v := withParts (mergePrevious j value previous)
  let old := stored j v.id
  let sections : Sections := {
    attachments := replacement enc.attachmentsDigest old.attachments (some v.attachments)
    previews := replacement enc.previewsDigest old.previews v.linkPreviews
    reactions := replacement enc.reactionsDigest old.reactions v.reactions
    parts := replacement enc.partsDigest old.parts v.parts }
  if oversized enc.attachment (some v.attachments) || oversized enc.preview v.linkPreviews ||
      oversized enc.reaction v.reactions || oversized enc.part v.parts then
    .error .metadataItemTooLarge
  else match inlineMessage enc v with
  | .error e => .error e
  | .ok value => .ok {
      value := value
      sections := sections
      changed := sections.attachments.isSome || sections.previews.isSome ||
        sections.reactions.isSome || sections.parts.isSome }

def persist (id : Bytes) (prepared : Prepared) : Tx Unit :=
  Sql.execute fun j =>
    let old := stored j id
    let new : Sections := {
      attachments := prepared.sections.attachments.orElse fun _ => old.attachments
      previews := prepared.sections.previews.orElse fun _ => old.previews
      reactions := prepared.sections.reactions.orElse fun _ => old.reactions
      parts := prepared.sections.parts.orElse fun _ => old.parts }
    { j with enrichment := j.enrichment.upsert id new fun _ => new }

theorem mergePrevious_id (j : Journal) (v : Message) (previous : Option Message) :
    (mergePrevious j v previous).id = v.id := by
  cases previous <;> rfl

theorem withParts_id (v : Message) : (withParts v).id = v.id := by
  unfold withParts
  split <;> rfl

theorem inlineMessage_id {enc : Encoding} {v v' : Message} (h : inlineMessage enc v = .ok v') :
    v'.id = v.id ∧ v'.revision = v.revision := by
  unfold inlineMessage at h
  simp only at h
  split at h
  · simp at h
  · simp only [Except.ok.injEq] at h
    subst h
    exact ⟨rfl, rfl⟩

theorem prepare_id {enc : Encoding} {j : Journal} {v : Message} {previous : Option Message}
    {prepared : Prepared} (h : prepare enc j v previous = .ok prepared) :
    prepared.value.id = v.id := by
  unfold prepare at h
  simp only at h
  split at h
  · simp at h
  · split at h
    · simp at h
    · next value hinline =>
      simp only [Except.ok.injEq] at h
      subst h
      rw [(inlineMessage_id hinline).1, withParts_id, mergePrevious_id]

end Zimbr.Relay.Enrichment
