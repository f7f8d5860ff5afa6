import Mathlib.Data.List.Dedup
import Zimbr.Client.Worker
import Zimbr.Library.Groups
import Zimbr.Library.Totals

set_option autoImplicit false

/-!
# The list of chats

A snapshot shows the conversations grouped by their thread, then the keys that
only local drafts and sends have. `hidden` is the table of hidden chats.
-/
namespace Zimbr.Client
open Library

structure Chat where
  value : Conversation
  preview : Bytes
  unread : Nat
  hidden : Bool := false
  deriving DecidableEq, Repr

def Incoming.message? : Incoming → Option Message
  | .message v => some v.value
  | _ => none

def Incoming.conversation? : Incoming → Option Conversation
  | .conversation v => some v.value
  | _ => none

/-- The reaction events that their target shows are no previews. -/
def Incoming.resolved (r : Incoming) : Bool :=
  r.message?.any fun m => m.reactionEvent.any fun event => event.resolution = .resolved

/-- The preview is of a later position than the cached message. -/
def newerPosition (p : ConversationPreview) (latest : Option Message) : Bool :=
  latest.all fun m => decide (m.timestamp < p.timestamp ∨
    (p.timestamp = m.timestamp ∧ m.id < p.messageId))

def newerRevision (p : ConversationPreview) (latest : Option Message) : Bool :=
  latest.any fun m => decide (p.messageId = m.id ∧ m.revision < p.revision)

namespace Store

def latest (s : Store) (chat : Bytes) : Option Message :=
  (((s.records.select fun key r => key.1 = .message && r.chat = chat && !r.record.resolved).mergeSort
    newer).head?).bind fun r => r.2.record.message?

def previewText (s : Store) (id : Bytes) (v : Conversation) : Bytes :=
  let latest := s.latest id
  let preview :=
    match latest with
    | some m => summary m
    | none => if v.lastActivity.isSome then text "History not loaded" else text "No messages yet"
  match (s.previews.get? id).join with
  | some p =>
    if newerPosition p latest || newerRevision p latest then
      let shown := withoutObjectMarkers p.text
      if shown.length > 0 then shown
      else if p.kind = text "attachment" then text "Attachment" else p.kind
    else preview
  | none => preview

/-- The conversations with their unread counts, the latest first. -/
def chats (s : Store) (hidden : Bytes → Bool) : List Chat :=
  ((s.records.select fun key _ => key.1 = .conversation).mergeSort newer).filterMap fun r =>
    r.2.record.conversation?.map fun v => {
      value := v
      preview := s.previewText r.1.2 v
      unread := (s.unread.get? r.1.2).getD 0
      hidden := hidden r.1.2 }

def localKeys (s : Store) : List Bytes :=
  let drafts := (s.drafts.select fun _ text => text ≠ []).map Prod.fst
  let files := s.outgoingFiles.rows.filterMap fun r => r.2.draftKey
  let sends := (s.outbox.select fun _ r => r.state ≠ .delivered).map fun r => r.2.draftKey
  ((drafts ++ files ++ sends).dedup.mergeSort fun a b => decide (a ≤ b)).filter fun key =>
    (s.conversation? key).isNone

end Store

/-- The chat of an id: a later one replaces an earlier one. -/
def byId (chats : List Chat) (id : Bytes) : Option Chat :=
  (chats.filter fun chat => chat.value.id = id).getLast?

def root (chats : List Chat) (chat : Chat) : Option Chat :=
  if chat.value.isSelf then chat.value.threadId.bind (byId chats) else none

def groupKey (chats : List Chat) (chat : Chat) : Bytes :=
  ((root chats chat).map (·.value.id)).getD chat.value.id

namespace Chat

/-- The entry of a thread shows its root with what its first member adds. -/
def first (chats : List Chat) (chat : Chat) : Chat :=
  match root chats chat with
  | some root => { chat with
    value := { root.value with
      lastActivity := chat.value.lastActivity
      historyComplete := chat.value.historyComplete
      participants := chat.value.participants } }
  | none => chat

def merge (merged chat : Chat) : Chat := { merged with
  unread := merged.unread + chat.unread
  hidden := merged.hidden && chat.hidden
  value := { merged.value with
    historyComplete := merged.value.historyComplete && chat.value.historyComplete
    participants := chat.value.participants.foldl
      (fun participants address =>
        if address ∈ participants then participants else participants ++ [address])
      merged.value.participants } }

/-- Local drafts without a current server conversation remain discoverable. -/
def recovered (hidden : Bytes → Bool) (key : Bytes) : Chat where
  value := {
    id := key
    title := if (text "new:").isPrefixOf key then key.drop 4 else text "Recovered draft"
    service := text "imessage" }
  preview := text "Saved locally · drafts and send history"
  unread := 0
  hidden := hidden key

end Chat

abbrev Entry := Group Bytes Chat Chat

namespace Entry

def id (entry : Entry) : Bytes := entry.value.value.id

def merged (entry : Entry) : List Bytes := entry.items.map fun chat => chat.value.id

end Entry

def Store.entries (s : Store) (hidden : Bytes → Bool) : List Entry :=
  let chats := s.chats hidden
  Group.collect (groupKey chats) (Chat.first chats) Chat.merge chats ++
    s.localKeys.map fun key => { key := key, items := [], value := .recovered hidden key }

/-- The unread rows that reading a chat deletes. -/
def Store.cleared (s : Store) (chat : Bytes) : Nat :=
  ((s.unread.select fun id _ => s.isMember chat id).map Prod.snd).sum

end Zimbr.Client
