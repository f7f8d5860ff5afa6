import Zimbr.Protocol.Attachments

set_option autoImplicit false

/-!
# Wire records

The record types of the v1 protocol. A revision is a decimal string on the
wire and a number here; a record's JSON text is modelled by the record.
-/
namespace Zimbr

/-- 200 records amortize round trips without allowing unbounded batches. -/
def maxPage : Nat := 200

def maxMetadataPage : Nat := 32 * 1024

/-- 8 MiB caps aggregate history even when each record meets its individual limit. -/
def maxHistoryBytes : Nat := 8 * 1024 * 1024

inductive EnrichmentStatus where
  | pending | complete | unavailable | unsupported | malformed | oversized
  deriving DecidableEq, Repr

inductive AssetVariant where
  | avatar | inlineImage | viewer
  deriving DecidableEq, Repr

inductive Availability where
  | pending | ready | notLocal | unavailable | unsupported | oversized | retired
  deriving DecidableEq, Repr

structure AssetRef where
  id : Bytes
  version : Bytes
  variant : AssetVariant
  mimeType : Option Bytes := none
  bytes : Option Bytes := none
  width : Option Nat := none
  height : Option Nat := none
  availability : Availability := .pending
  reason : Option Bytes := none
  stillPreview : Bool := false
  deriving DecidableEq, Repr

inductive MatchState where
  | pending | matched | unmatched | ambiguous | unavailable
  deriving DecidableEq, Repr

inductive Freshness where
  | fresh | stale
  deriving DecidableEq, Repr

structure Identity where
  id : Bytes := []
  revision : Nat := 0
  service : Bytes
  address : Bytes
  displayName : Option Bytes := none
  avatar : Option AssetRef := none
  matchState : MatchState := .pending
  freshness : Freshness := .fresh
  deriving DecidableEq, Repr

structure Aggregate where
  total : Nat := 0
  complete : Bool := true
  deriving DecidableEq, Repr

inductive PartMapping where
  | resolved | unresolved
  deriving DecidableEq, Repr

structure Enrichment where
  state : EnrichmentStatus := .pending
  partMapping : PartMapping := .unresolved
  attachments : Aggregate := {}
  previews : Aggregate := {}
  reactions : Aggregate := {}
  parts : Aggregate := {}
  deriving DecidableEq, Repr

inductive MessagePartKind where
  | text | attachment | linkPreview
  deriving DecidableEq, Repr

structure MessagePart where
  id : Bytes
  kind : MessagePartKind
  sourceIndex : Option Nat := none
  text : Option Bytes := none
  textStart : Option Nat := none
  textLength : Option Nat := none
  attachmentId : Option Bytes := none
  previewId : Option Bytes := none
  deriving DecidableEq, Repr

structure LinkPreview where
  id : Bytes
  partId : Bytes
  originalUrl : Option Bytes := none
  metadataUrl : Option Bytes := none
  title : Option Bytes := none
  summary : Option Bytes := none
  siteName : Option Bytes := none
  image : Option AssetRef := none
  icon : Option AssetRef := none
  state : EnrichmentStatus := .pending
  deriving DecidableEq, Repr

structure ReactionActor where
  address : Option Bytes := none
  service : Bytes
  isSelf : Bool := false
  deriving DecidableEq, Repr

structure Reaction where
  id : Bytes
  partId : Option Bytes := none
  partState : PartMapping := .unresolved
  actor : ReactionActor
  key : Bytes
  emoji : Option Bytes := none
  deriving DecidableEq, Repr

inductive ReactionOperation where
  | add | remove | current | retired | unknown
  deriving DecidableEq, Repr

inductive ReactionResolution where
  | pending | resolved | unavailable | unsupported | malformed
  deriving DecidableEq, Repr

structure ReactionEvent where
  targetMessageId : Option Bytes := none
  partId : Option Bytes := none
  partState : PartMapping := .unresolved
  actor : ReactionActor
  operation : ReactionOperation
  key : Option Bytes := none
  emoji : Option Bytes := none
  resolution : ReactionResolution := .pending
  deriving DecidableEq, Repr

structure Conversation where
  id : Bytes := []
  revision : Nat := 0
  participants : List Bytes := []
  title : Bytes := []
  service : Bytes
  lastActivity : Option Bytes := none
  historyComplete : Bool := false
  sendable : Bool := false
  threadId : Option Bytes := none
  isSelf : Bool := false
  deriving DecidableEq, Repr

structure Attachment where
  id : Bytes
  name : Bytes
  mimeType : Bytes
  bytes : Bytes
  image : Option AssetRef := none
  viewer : Option AssetRef := none
  previewArtwork : Bool := false
  deriving DecidableEq, Repr

inductive Direction where
  | incoming | outgoing
  deriving DecidableEq, Repr

inductive MessageKind where
  | text | attachment | reaction | system | unsupported | empty
  deriving DecidableEq, Repr

def MessageKind.tag : MessageKind → Bytes
  | .text => Zimbr.text "text"
  | .attachment => Zimbr.text "attachment"
  | .reaction => Zimbr.text "reaction"
  | .system => Zimbr.text "system"
  | .unsupported => Zimbr.text "unsupported"
  | .empty => Zimbr.text "empty"

inductive Decoding where
  | plain | attributed | empty | unsupported | malformed | oversized
  deriving DecidableEq, Repr

inductive ObservedStatus where
  | received | sent | delivered | failed | unknown
  deriving DecidableEq, Repr

structure Message where
  id : Bytes := []
  revision : Nat := 0
  conversationId : Bytes := []
  sender : Bytes
  direction : Direction
  service : Bytes
  timestamp : Bytes
  kind : MessageKind
  text : Option Bytes := none
  decoding : Decoding
  attachments : List Attachment := []
  observedStatus : ObservedStatus
  parts : Option (List MessagePart) := none
  enrichment : Option Enrichment := none
  linkPreviews : Option (List LinkPreview) := none
  reactions : Option (List Reaction) := none
  reactionEvent : Option ReactionEvent := none
  metadataDeferred : Bool := false
  deriving DecidableEq, Repr

/-- The lists of a message's metadata that are paged on their own. -/
inductive MetadataSection where
  | attachments | previews | reactions | parts
  deriving DecidableEq, Repr

def MetadataSection.tag : MetadataSection → Bytes
  | .attachments => Zimbr.text "attachments"
  | .previews => Zimbr.text "previews"
  | .reactions => Zimbr.text "reactions"
  | .parts => Zimbr.text "parts"

inductive MetadataItem where
  | attachment (v : Attachment)
  | preview (v : LinkPreview)
  | reaction (v : Reaction)
  | part (v : MessagePart)
  deriving DecidableEq, Repr

namespace MetadataItem

def id : MetadataItem → Bytes
  | .attachment v => v.id
  | .preview v => v.id
  | .reaction v => v.id
  | .part v => v.id

def attachment? : MetadataItem → Option Attachment
  | .attachment v => some v
  | _ => none

def preview? : MetadataItem → Option LinkPreview
  | .preview v => some v
  | _ => none

def reaction? : MetadataItem → Option Reaction
  | .reaction v => some v
  | _ => none

def part? : MetadataItem → Option MessagePart
  | .part v => some v
  | _ => none

end MetadataItem

namespace Message

/-- The items of one section; null is an unsupplied list. -/
def items (m : Message) : MetadataSection → List MetadataItem
  | .attachments => m.attachments.map .attachment
  | .previews => (m.linkPreviews.getD []).map .preview
  | .reactions => (m.reactions.getD []).map .reaction
  | .parts => (m.parts.getD []).map .part

def setItems (m : Message) (items : List MetadataItem) : MetadataSection → Message
  | .attachments => { m with attachments := items.filterMap MetadataItem.attachment? }
  | .previews => { m with linkPreviews := some (items.filterMap MetadataItem.preview?) }
  | .reactions => { m with reactions := some (items.filterMap MetadataItem.reaction?) }
  | .parts => { m with parts := some (items.filterMap MetadataItem.part?) }

end Message

namespace Enrichment

def aggregate (e : Enrichment) : MetadataSection → Aggregate
  | .attachments => e.attachments
  | .previews => e.previews
  | .reactions => e.reactions
  | .parts => e.parts

def setAggregate (e : Enrichment) (value : Aggregate) : MetadataSection → Enrichment
  | .attachments => { e with attachments := value }
  | .previews => { e with previews := value }
  | .reactions => { e with reactions := value }
  | .parts => { e with parts := value }

end Enrichment

structure ConversationPreview where
  conversationId : Bytes
  messageId : Bytes
  revision : Nat
  timestamp : Bytes
  kind : Bytes
  text : Bytes
  deriving DecidableEq, Repr

structure Recipient where
  address : Bytes
  service : Bytes
  deriving DecidableEq, Repr

structure Target where
  conversationId : Option Bytes := none
  recipient : Option Recipient := none
  deriving DecidableEq, Repr

structure SendInput where
  requestId : Bytes
  serverEpoch : Bytes
  target : Target
  text : Bytes
  attachments : List Upload := []
  deriving DecidableEq, Repr

inductive SendStatus where
  | queued | dispatching | submitted | delivered | failed | unknown
  deriving DecidableEq, Repr

inductive PartKind where
  | text | attachment
  deriving DecidableEq, Repr

inductive PartState where
  | queued | dispatching | invoked | submitted | delivered | failed | unknown | skipped
  deriving DecidableEq, Repr

inductive ErrorOutcome where
  | unstarted | uncertain
  deriving DecidableEq, Repr

structure SafeError where
  code : String
  message : String
  outcome : ErrorOutcome := .unstarted
  deriving DecidableEq, Repr

structure SendPart where
  kind : PartKind
  attachmentId : Option Bytes := none
  state : PartState := .queued
  messageId : Option Bytes := none
  candidateMessageId : Option Bytes := none
  errorInfo : Option SafeError := none
  deriving DecidableEq, Repr

structure SendRequest where
  requestId : Bytes
  serverEpoch : Bytes
  revision : Nat := 0
  target : Target
  text : Bytes
  attachments : List Upload := []
  parts : List SendPart := []
  state : SendStatus := .queued
  messageId : Option Bytes := none
  candidateMessageId : Option Bytes := none
  errorInfo : Option SafeError := none
  deriving DecidableEq, Repr

inductive ValidateError where
  | attachments (e : Attachments.ValidateError)
  | invalidRequest | textTooLarge | unsupportedTarget
  deriving DecidableEq, Repr

def maxText : Nat := 16 * 1024

def validAddress (s : Bytes) : Bool :=
  if s.length < 3 || s.length > 254 then false
  else if s.head? = some 43 then
    8 ≤ s.length && s.length ≤ 16 && s.tail.head? != some 48 && s.tail.all isDigit
  else match s.findIdx? (fun ch => decide (ch = 64)) with
  | none => false
  | some at_ =>
    let domain := s.drop (at_ + 1)
    at_ != 0 && at_ != s.length - 1 && !domain.contains 64 && domain.contains 46 &&
      s.all fun ch => !(ch ≤ 32 || 127 ≤ ch || (text "<>\\\"(),;:").contains ch)

def validateTarget (target : Target) : Except ValidateError Unit :=
  match target.conversationId, target.recipient with
  | some id, none => if validId id then .ok () else .error .invalidRequest
  | none, some r =>
    if r.service != text "imessage" then .error .unsupportedTarget
    else if !validAddress r.address then .error .invalidRequest
    else .ok ()
  | _, _ => .error .invalidRequest

def validate (v : SendInput) : Except ValidateError Unit :=
  if !validId v.requestId || !validId v.serverEpoch then .error .invalidRequest
  else if v.text.length > maxText then .error .textTooLarge
  else match Attachments.validateSet v.attachments with
  | .error e => .error (.attachments e)
  | .ok () =>
    if (v.text.length = 0 && v.attachments.length = 0) || !utf8ValidateSlice v.text ||
        v.text.contains 0 then
      .error .invalidRequest
    else validateTarget v.target

inductive CursorError where
  | invalidRequest | resyncRequired
  deriving DecidableEq, Repr

def cursor (epoch : Bytes) (seq : Nat) : Bytes := epoch ++ 58 :: decimal seq

def parseCursor (s epoch : Bytes) : Except CursorError Nat :=
  if s.length < idLength + 2 || s[idLength]? != some 58 || !validId (s.take idLength) ||
      s.take idLength != epoch then
    .error .resyncRequired
  else match parseInt (s.drop (idLength + 1)) with
  | some (.ofNat seq) => .ok seq
  | _ => .error .invalidRequest

theorem validId_length {s : Bytes} (h : validId s = true) : s.length = idLength := by
  simp only [validId, Bool.and_eq_true, decide_eq_true_eq] at h
  exact h.1.1

theorem parseCursor_cursor {epoch : Bytes} {seq : Nat} (he : validId epoch = true)
    (hs : seq ≤ maxInt) : parseCursor (cursor epoch seq) epoch = .ok seq := by
  have hlen := validId_length he
  have htake : (cursor epoch seq).take idLength = epoch := by
    rw [cursor, ← hlen, List.take_left]
  have hcolon : (cursor epoch seq)[idLength]? = some 58 := by
    rw [cursor, List.getElem?_append_right (by omega), hlen, Nat.sub_self]
    rfl
  have hdrop : (cursor epoch seq).drop (idLength + 1) = decimal seq := by
    rw [cursor, ← hlen, ← List.drop_drop, List.drop_left]
    rfl
  have hlong : ¬ (cursor epoch seq).length < idLength + 2 := by
    have := List.length_pos_of_ne_nil (decimal_ne_nil seq)
    simp only [cursor, List.length_append, List.length_cons]
    omega
  simp [parseCursor, hlong, hcolon, htake, he, hdrop, parseInt_decimal hs]

theorem parseCursor_epoch {s epoch : Bytes} {seq : Nat} (h : parseCursor s epoch = .ok seq) :
    s.take idLength = epoch ∧ validId epoch = true := by
  unfold parseCursor at h
  split_ifs at h with hbad
  simp only [Bool.or_eq_true, not_or, bne_iff_ne, ne_eq, not_not, Bool.not_eq_true'] at hbad
  obtain ⟨⟨-, hcanonical⟩, htake⟩ := hbad
  rw [Bool.not_eq_false] at hcanonical
  exact ⟨htake, htake ▸ hcanonical⟩

/-- A request whose epoch is not a canonical identifier is never valid. -/
theorem validate_ids {v : SendInput} (h : validate v = .ok ()) :
    validId v.requestId = true ∧ validId v.serverEpoch = true := by
  unfold validate at h
  split at h
  · simp at h
  · next hids =>
    simpa using hids

theorem validate_set {v : SendInput} (h : validate v = .ok ()) :
    Attachments.validateSet v.attachments = .ok () := by
  unfold validate at h
  split at h
  · simp at h
  · split at h
    · simp at h
    · split at h
      · simp at h
      · assumption

end Zimbr
